import Ymd.Gc.Sweep

/-! # A collection

A collection of a well-formed memory without black objects ends. It frees what
is neither gray nor reached from the roots, and nothing else changes.
-/

namespace Ymd.Gc

open Foundation

namespace Vm

/-- The objects of the string pool and of the list of objects. -/
def listed (vm : Vm) : List Addr := vm.kpool.slot.flatten ++ vm.alloced

/-- The objects there are. -/
def live (vm : Vm) : Finset Addr := vm.listed.toFinset

/-- A well-formed memory: every object is listed once, the chunks are counted,
and what is reached from the roots is sound. -/
structure Wf (vm : Vm) (locals : List Variable) : Prop where
  nodup : vm.listed.Nodup
  listed : ∀ o, o ∈ vm.listed ↔ vm.obj o ≠ none
  counted : Counted vm.live vm
  rooted : vm.Rooted locals

/-- Gray, or reached from the roots. -/
def Survives (vm : Vm) (locals : List Variable) (o : Addr) : Prop :=
  hasBits vm.marked o grayBit0 = true ∨ Reached vm.kids (vm.roots locals) o

/-- How many pooled strings of the one machine the other has not. -/
def pooledFreed (vm vm' : Vm) : Int :=
  (vm.kpool.slot.flatten.filter fun o => vm'.obj o = none).length

end Vm

/-- A collection from `vm` to `vm'` frees exactly what it may. -/
structure Collected (vm vm' : Vm) (locals : List Variable) : Prop where
  freed : ∀ o, vm.obj o ≠ none → (vm'.obj o = none ↔ ¬ vm.Survives locals o)
  kept : ∀ o, vm'.obj o = none ∨ vm'.obj o = vm.obj o
  chunks : ∀ o fn c core, vm'.obj o = some (.func fn) → fn.core = some c →
    vm.chunk c = some core → ∃ ref, vm'.chunk c = some { core with ref := ref }
  white : ∀ o, hasBits vm'.marked o blackBit0 = false
  marked : vm'.marked = vm.marked
  used : vm'.kpool.used = vm.kpool.used - vm.pooledFreed vm'
  slot : vm'.kpool.slot = vm.kpool.slot.map (·.filter fun o => vm'.obj o ≠ none)
  alloced : vm'.alloced = vm.alloced.filter fun o => vm'.obj o ≠ none
  frame : vm' = { vm with
    obj := vm'.obj, chunk := vm'.chunk, alloced := vm'.alloced, grab := vm'.grab,
    kpool := { vm.kpool with slot := vm'.kpool.slot, used := vm'.kpool.used } }

/-! ## Bits -/

theorem and_keepBits (x : BitVec 16) :
    x &&& keepBits ≠ 0 ↔ x &&& blackBit0 ≠ 0 ∨ x &&& grayBit0 ≠ 0 := by
  rw [keepBits, BitVec.and_or_distrib_left]
  exact (not_congr BitVec.or_eq_zero_iff).trans not_and_or

theorem or_black_and_gray (x : BitVec 16) : (x ||| blackBit0) &&& grayBit0 = x &&& grayBit0 := by
  have hnone : grayBit0 &&& blackBit0 = 0 := by decide
  rw [BitVec.and_comm, BitVec.and_or_distrib_left, hnone, BitVec.and_comm]
  exact BitVec.or_zero

theorem and_not_black {x : BitVec 16} (hx : x &&& blackBit0 = 0) : x &&& ~~~blackBit0 = x := by
  calc x &&& ~~~blackBit0
      = (x &&& blackBit0) ||| (x &&& ~~~blackBit0) := by rw [hx]; exact BitVec.zero_or.symm
    _ = x &&& (blackBit0 ||| ~~~blackBit0) := BitVec.and_or_distrib_left.symm
    _ = x := by
      have hall : blackBit0 ||| ~~~blackBit0 = BitVec.allOnes 16 := by decide
      rw [hall, BitVec.and_allOnes]

theorem or_black_and_not_black {x : BitVec 16} (hx : x &&& blackBit0 = 0) :
    (x ||| blackBit0) &&& ~~~blackBit0 = x := by
  have hnone : ~~~blackBit0 &&& blackBit0 = 0 := by decide
  rw [BitVec.and_comm, BitVec.and_or_distrib_left, hnone, BitVec.and_comm, and_not_black hx]
  exact BitVec.or_zero

/-! ## The sweep phase -/

section

variable {vm : Vm} {final : BitVec 64 → Bytes → Int}

/-- A sweep phase sweeps the pool and the list of objects. -/
theorem gcSweep_ok (hfinal : ∀ f land, 0 ≤ final f land) (hnodup : vm.listed.Nodup)
    (hobj : ∀ o ∈ vm.listed, vm.obj o ≠ none) (hcounted : Counted vm.live vm) :
    ∃ vm', vm.gcSweep final = .ok vm' ∧ Swept vm.live vm.listed vm vm' ∧
      vm'.kpool.used = vm.kpool.used - freedCount true vm vm.kpool.slot.flatten ∧
      vm'.kpool.slot = vm.kpool.slot.map (List.filter (Kept vm ·)) ∧
      vm'.alloced = vm.alloced.filter (Kept vm ·) := by
  obtain ⟨hslot, halloced, hdisjoint⟩ := List.nodup_append'.1 hnodup
  have hlive : ∀ o ∈ vm.listed, o ∈ vm.live := fun o ho => List.mem_toFinset.2 ho
  obtain ⟨vm₁, hrun₁, hswept₁, hused₁, halloc₁⟩ := sweepSlots_ok hfinal hslot
    (fun o ho => hlive o (List.mem_append_left _ ho))
    (fun o ho => hobj o (List.mem_append_left _ ho)) hcounted
  -- the chains of the pool are stored back
  have hstored : Swept vm.live vm.kpool.slot.flatten vm { vm₁ with
      kpool := { vm₁.kpool with slot := vm.kpool.slot.map (List.filter (Kept vm ·)) } } := by
    refine ⟨hswept₁.obj, hswept₁.marked, hswept₁.counted, hswept₁.lasting, ?_⟩
    conv_lhs => rw [hswept₁.frame]
  have hkept : ∀ o ∈ vm.alloced, (Kept vm₁ o ↔ Kept vm o) :=
    fun o ho => hswept₁.kept_iff fun hin => hdisjoint hin ho
  obtain ⟨vm₂, hrun₂, hswept₂, hused₂, hslot₂, halloc₂⟩ := sweepChain_ok hfinal false
    (halloc₁ ▸ halloced)
    (fun o ho => hlive o (List.mem_append_right _ (halloc₁ ▸ ho)))
    (fun o ho => by
      rw [hstored.obj_of_notMem fun hin => hdisjoint hin (halloc₁ ▸ ho)]
      exact hobj o (List.mem_append_right _ (halloc₁ ▸ ho))) hstored.counted
  have hswept := hstored.append hswept₂ (halloc₁ ▸ hdisjoint)
  rw [halloc₁] at hswept
  have hfilter : vm₁.alloced.filter (Kept vm₁ ·) = vm.alloced.filter (Kept vm ·) := by
    rw [halloc₁]
    exact List.filter_congr fun o ho => decide_eq_decide.2 (hkept o ho)
  refine ⟨{ vm₂ with alloced := vm.alloced.filter (Kept vm ·) }, ?_, ?_, ?_, hslot₂, rfl⟩
  · rw [Vm.gcSweep, Vm.gcKpoolSweep, hrun₁]
    change (Vm.sweepChain final false vm₁.alloced _ >>= _) = _
    rw [hrun₂]
    change Except.ok { vm₂ with alloced := vm₁.alloced.filter (Kept vm₁ ·) } = _
    rw [hfilter]
  · refine ⟨hswept.obj, hswept.marked, hswept.counted, hswept.lasting, ?_⟩
    conv_lhs => rw [hswept.frame]
  · rw [hused₂]
    change vm₁.kpool.used - 0 = _
    rw [Int.sub_zero, hused₁]

end

/-! ## Both phases -/

/-- A collection ends and frees exactly what is neither gray nor reached. -/
theorem collect_exact {vm : Vm} {locals : List Variable} {final : BitVec 64 → Bytes → Int}
    {depth : Nat} (hwf : vm.Wf locals) (hblack : ∀ o, hasBits vm.marked o blackBit0 = false)
    (hpause : vm.pause = 0) (hfinal : ∀ f land, 0 ≤ final f land)
    (hdepth : vm.listed.length ≤ depth) :
    ∃ vm', vm.collect final depth = .ok vm' ∧ Collected vm vm' locals := by
  have hnone : black vm.marked = ∅ := by
    apply Set.eq_empty_of_forall_notMem
    intro o ho
    exact Bool.false_ne_true ((hblack o).symm.trans ho)
  have hlive : ∀ o, Reached vm.kids (vm.roots locals) o → o ∈ vm.live := by
    intro o ho
    rw [Vm.live, List.mem_toFinset, hwf.listed]
    intro hno
    have hsound := hwf.rooted.sound o ho
    rw [Vm.Sound, hno] at hsound
    exact hsound
  obtain ⟨m, hmark, hexact, hbits⟩ := gcMark_exact hwf.rooted hlive hnone
    ((List.toFinset_card_le _).trans hdepth)
  obtain ⟨vm', hsweep, hswept, hused, hslot, halloced⟩ :=
    @gcSweep_ok { vm with marked := m } final hfinal hwf.nodup (fun o ho => (hwf.listed o).1 ho)
      hwf.counted
  have hwhite : ∀ o, vm.marked o &&& blackBit0 = 0 := by
    intro o
    have hno := hblack o
    unfold hasBits at hno
    simpa using hno
  -- what the sweep keeps
  have hkept : ∀ o, Kept { vm with marked := m } o ↔ vm.Survives locals o := by
    intro o
    have hgray : m o &&& grayBit0 = vm.marked o &&& grayBit0 := by
      obtain h | h := hbits o
      · rw [h]
      · rw [h, or_black_and_gray]
    have hany : Kept { vm with marked := m } o ↔ m o &&& keepBits ≠ 0 := by
      simp [Kept, hasBits]
    rw [hany, and_keepBits, ← mem_black, hexact, hgray, or_comm]
    exact or_congr_left (by simp [hasBits])
  have hobj : ∀ o ∈ vm.listed, (vm'.obj o = none ↔ ¬ vm.Survives locals o) := by
    intro o ho
    rw [hswept.obj, ← hkept]
    constructor
    · intro hnone hsurvives
      rw [if_neg fun h => h.2 hsurvives] at hnone
      exact (hwf.listed o).1 ho hnone
    · exact fun hno => if_pos ⟨ho, hno⟩
  have hmarked : vm'.marked = vm.marked := by
    funext o
    rw [hswept.marked]
    change (if o ∈ vm.listed ∧ Kept { vm with marked := m } o then m o &&& ~~~blackBit0 else m o) = _
    obtain h | h := hbits o
    · rw [h, and_not_black (hwhite o), ite_self]
    · have hreached : Reached vm.kids (vm.roots locals) o := by
        rw [← hexact, mem_black, h]
        exact or_black_and _
      rw [if_pos ⟨List.mem_toFinset.1 (hlive o hreached), (hkept o).2 (.inr hreached)⟩, h]
      exact or_black_and_not_black (hwhite o)
  have hdead : ∀ o ∈ vm.listed, (¬ Kept { vm with marked := m } o ↔ vm'.obj o = none) :=
    fun o ho => (not_congr (hkept o)).trans (hobj o ho).symm
  have hstays : ∀ o ∈ vm.listed, (Kept { vm with marked := m } o ↔ vm'.obj o ≠ none) :=
    fun o ho => not_not.symm.trans (not_congr (hdead o ho))
  refine ⟨{ vm' with grab := 0 }, ?_, ?_⟩
  · rw [Vm.collect, if_pos hpause, hmark]
    change (Vm.gcSweep final { vm with marked := m } >>= _) = _
    rw [hsweep]
    rfl
  · constructor
    · exact fun o ho => hobj o ((hwf.listed o).2 ho)
    · exact hswept.obj_cases
    · intro o fn c core ho hcore hchunk
      obtain hlasts | hzero := hswept.lasting c core hchunk
      · exact hlasts
      · have hin : o ∈ vm.live := by
          rw [Vm.live, List.mem_toFinset, hwf.listed]
          obtain h | h := hswept.obj_cases o
          · cases h.symm.trans ho
          · rw [← h]
            intro hno
            cases hno.symm.trans ho
        have hmem : o ∈ vm.live.filter fun a => (vm'.obj a).bind Obj.core = some c := by
          rw [Finset.mem_filter]
          change vm'.obj o = _ at ho
          rw [ho]
          exact ⟨hin, hcore⟩
        have hempty : (vm.live.filter fun a => (vm'.obj a).bind Obj.core = some c) = ∅ :=
          Finset.card_eq_zero.1 hzero
        rw [hempty] at hmem
        exact absurd hmem (Finset.notMem_empty o)
    · intro o
      change hasBits vm'.marked o blackBit0 = false
      rw [hmarked]
      exact hblack o
    · exact hmarked
    · change vm'.kpool.used = vm.kpool.used - _
      rw [hused]
      unfold freedCount Vm.pooledFreed
      rw [if_pos rfl, List.filter_congr fun o ho =>
        decide_eq_decide.2 (hdead o (List.mem_append_left _ ho))]
    · change vm'.kpool.slot = _
      rw [hslot]
      apply List.map_congr_left
      intro chain hchain
      exact List.filter_congr fun o ho => decide_eq_decide.2
        (hstays o (List.mem_append_left _ (List.mem_flatten.2 ⟨chain, hchain, ho⟩)))
    · change vm'.alloced = _
      rw [halloced]
      exact List.filter_congr fun o ho => decide_eq_decide.2 (hstays o (List.mem_append_right _ ho))
    · conv_lhs => rw [hswept.frame]
      rw [hmarked]

/-- A global map with an array that has itself as an element; an array and a
pooled string that nothing refers to. -/
def twoCycles : Vm where
  obj := fun o => [.hmap [⟨1, .kstr 1, .dyay 2⟩], .kstr [97] 0, .dyay [.dyay 2, .kstr 1],
    .dyay [.dyay 3], .kstr [98] 0][o]?
  marked := fun _ => 0
  chunk := fun _ => none
  next := 5
  alloced := [3, 2, 0]
  pause := 0
  grab := 0
  kpool := ⟨[[4], [1]], 2, 1⟩
  global := 0
  info := []
  loc := []
  stk := []

theorem twoCycles_wf : twoCycles.Wf [] where
  nodup := by decide
  listed := by
    intro o
    match o with
    | 0 | 1 | 2 | 3 | 4 => exact iff_of_true (by decide) nofun
    | o + 5 =>
        refine iff_of_false ?_ (not_not.2 rfl)
        change o + 5 ∉ [4, 1, 3, 2, 0]
        simp
  counted := by
    intro c
    change refs twoCycles.live twoCycles.obj c = 0
    rw [refs, Finset.card_eq_zero, Finset.filter_eq_empty_iff]
    intro a ha
    have hin : a ∈ [4, 1, 3, 2, 0] := List.mem_toFinset.1 ha
    simp only [List.mem_cons, List.not_mem_nil, or_false] at hin
    obtain rfl | rfl | rfl | rfl | rfl := hin <;> exact nofun
  rooted := by
    have hin : ∀ o, Reached twoCycles.kids (twoCycles.roots []) o → o ∈ ({0, 1, 2} : Set Addr) := by
      intro o ho
      apply ho.mem_of_closed
      · rintro a ha
        obtain rfl := List.mem_singleton.1 ha
        exact .inl rfl
      · rintro a (rfl | rfl | rfl) b hb
        · change b ∈ [1, 2] at hb
          exact .inr (by simpa using hb)
        · exact absurd hb List.not_mem_nil
        · change b ∈ [2, 1] at hb
          exact .inr (by simpa [or_comm] using hb)
    refine ⟨rfl, ⟨_, rfl⟩, ?_, ?_, ?_, fun o ho => ?_⟩
    · exact fun var hvar => absurd hvar List.not_mem_nil
    · exact fun i hi => absurd hi List.not_mem_nil
    · exact fun var hvar => absurd hvar List.not_mem_nil
    · obtain rfl | rfl | rfl := hin o ho
      · change ∀ var ∈ [Variable.kstr 1, .dyay 2], twoCycles.Typed var
        simp only [List.forall_mem_cons]
        exact ⟨⟨_, rfl⟩, ⟨_, rfl⟩, fun _ h => absurd h List.not_mem_nil⟩
      · trivial
      · change ∀ var ∈ [Variable.dyay 2, .kstr 1], twoCycles.Typed var
        simp only [List.forall_mem_cons]
        exact ⟨⟨_, rfl⟩, ⟨_, rfl⟩, fun _ h => absurd h List.not_mem_nil⟩

theorem twoCycles_white (o : Addr) : hasBits twoCycles.marked o blackBit0 = false := by
  change decide ((0 : BitVec 16) &&& blackBit0 ≠ 0) = false
  decide

theorem collect_exact_twoCycles :
    ∃ vm', twoCycles.collect (fun _ _ => 0) 5 = .ok vm' ∧ Collected twoCycles vm' [] :=
  collect_exact twoCycles_wf twoCycles_white rfl (fun _ _ => le_rfl) le_rfl

end Ymd.Gc
