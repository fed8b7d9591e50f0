import Ymd.Gc.Mark
import Ymd.Machine.State

/-! # The sweep phase

`gc_del`, the two sweeps, and a collection. A sweep frees what is neither black
nor gray and takes the black bit off the rest. The chunk of a function is freed
with the last function that has it.
-/

namespace Ymd.Gc

open Foundation

/-- `o->marked &= ~GC_BLACK_BIT0`. -/
def whiten (o : Addr) (m : Addr → BitVec 16) : Addr → BitVec 16 :=
  Function.update m o (m o &&& ~~~blackBit0)

/-- The bits that keep an object. -/
def keepBits : BitVec 16 := blackBit0 ||| grayBit0

namespace Vm

/-- `mm_drop` of a chunk. -/
def mmDrop (vm : Vm) (c : Addr) (core : Chunk) : Except Stop Vm :=
  match core.ref with
  | 0 => throw (.fault .overflow)
  | 1 => pure { vm with chunk := Function.update vm.chunk c none }
  | ref + 2 => pure { vm with chunk := Function.update vm.chunk c (some { core with ref := ref + 1 }) }

/-- `func_final`. -/
def funcFinal (vm : Vm) (fn : Func) : Except Stop Vm :=
  match fn.core with
  | none => pure vm
  | some c =>
      match vm.chunk c with
      | none => throw (.fault (.bounds "u.core"))
      | some core =>
          if 1 < core.ref then
            pure { vm with chunk := Function.update vm.chunk c (some { core with ref := core.ref - 1 }) }
          else vm.mmDrop c core

/-- `vm_free` of an object. -/
def free (vm : Vm) (o : Addr) : Vm := { vm with obj := Function.update vm.obj o none }

section

variable (final : BitVec 64 → Bytes → Int)

/-- `gc_del`; `final` is what the release functions of managed data return. -/
def gcDel (vm : Vm) (o : Addr) : Except Stop Vm :=
  match vm.obj o with
  | none => throw (.fault (.bounds "p"))
  | some (.kstr _ _) => pure (vm.free o)
  | some (.func fn) => do return (← vm.funcFinal fn).free o
  | some (.dyay _) => pure (vm.free o)
  | some (.hmap _) => pure (vm.free o)
  | some (.skls _) => pure (vm.free o)
  | some (.mand _ f land) =>
      if f ≠ 0 ∧ final f land < 0 then throw (.panic (lit "Managed data finalize failed."))
      else pure (vm.free o)

/-- The loop of both sweeps over a chain; a pooled string that is freed is not
counted any more. -/
def sweepChain (pooled : Bool) : List Addr → Vm → Except Stop (List Addr × Vm)
  | [], vm => return ([], vm)
  | x :: rest, vm => do
      if !hasBits vm.marked x keepBits then
        let vm ← vm.gcDel final x
        let used := if pooled then vm.kpool.used - 1 else vm.kpool.used
        sweepChain pooled rest { vm with kpool := { vm.kpool with used := used } }
      else
        let grab := if hasBits vm.marked x grayBit0 then vm.grab + 1 else vm.grab
        let (kept, vm) ← sweepChain pooled rest
          { vm with grab := grab, marked := whiten x vm.marked }
        return (x :: kept, vm)

/-- The loop of `gc_kpool_sweep`. -/
def sweepSlots : List (List Addr) → Vm → Except Stop (List (List Addr) × Vm)
  | [], vm => return ([], vm)
  | chain :: slot, vm => do
      let (kept, vm) ← sweepChain final true chain vm
      let (slot, vm) ← sweepSlots slot vm
      return (kept :: slot, vm)

/-- `gc_kpool_sweep`. -/
def gcKpoolSweep (vm : Vm) : Except Stop Vm := do
  let (slot, vm) ← sweepSlots final vm.kpool.slot vm
  return { vm with kpool := { vm.kpool with slot := slot } }

/-- `gc_sweep`. -/
def gcSweep (vm : Vm) : Except Stop Vm := do
  let vm ← vm.gcKpoolSweep final
  let (alloced, vm) ← sweepChain final false vm.alloced vm
  return { vm with alloced := alloced }

/-- A collection of `gc_record`, with what `gc_adjust` does to `grab`. -/
def collect (depth : Nat) (vm : Vm) : Except Stop Vm :=
  if vm.pause = 0 then
    match vm.gcMark depth with
    | .ok vm => do return { ← vm.gcSweep final with grab := 0 }
    | .error f => throw (.fault f)
  else pure vm

end

end Vm

/-! ## What is freed -/

/-- The chunk of a function object. -/
def Obj.core : Obj → Option Addr
  | .func fn => fn.core
  | _ => none

/-- How many of the live objects are functions with the chunk. -/
def refs (live : Finset Addr) (obj : Addr → Option Obj) (c : Addr) : Nat :=
  (live.filter fun a => (obj a).bind Obj.core = some c).card

/-- A chunk is there as long as a function has it, and counts these. -/
def Counted (live : Finset Addr) (vm : Vm) : Prop :=
  ∀ c, match vm.chunk c with
    | some core => core.ref = refs live vm.obj c
    | none => refs live vm.obj c = 0

/-- The chunks are still there but for those without a function, and the same
but for their counts. -/
def Lasting (live : Finset Addr) (vm vm' : Vm) : Prop :=
  ∀ c core, vm.chunk c = some core → (∃ ref, vm'.chunk c = some { core with ref := ref }) ∨
    refs live vm'.obj c = 0

section

variable {live : Finset Addr} {vm vm' vm'' : Vm} {o c : Addr} {final : BitVec 64 → Bytes → Int}

theorem refs_le (hobj : ∀ a, vm'.obj a = none ∨ vm'.obj a = vm.obj a) (c : Addr) :
    refs live vm'.obj c ≤ refs live vm.obj c := by
  apply Finset.card_le_card
  intro a ha
  rw [Finset.mem_filter] at ha ⊢
  refine ⟨ha.1, ?_⟩
  obtain hnone | hsame := hobj a
  · rw [hnone] at ha
    cases ha.2
  · rw [← hsame]
    exact ha.2

theorem obj_free_of_ne {a : Addr} (hne : a ≠ o) : (vm.free o).obj a = vm.obj a :=
  Function.update_of_ne hne _ _

theorem obj_free_self : (vm.free o).obj o = none := Function.update_self _ _ _

/-- Another chunk has as many functions as before. -/
theorem refs_free_of_ne (hcore : (vm.obj o).bind Obj.core ≠ some c) :
    refs live (vm.free o).obj c = refs live vm.obj c := by
  unfold refs
  congr 1
  apply Finset.filter_congr
  intro a _
  by_cases ha : a = o
  · subst ha
    rw [obj_free_self]
    exact iff_of_false nofun hcore
  · rw [obj_free_of_ne ha]

/-- The chunk of the function has one function less. -/
theorem refs_free (ho : o ∈ live) (hcore : (vm.obj o).bind Obj.core = some c) :
    refs live vm.obj c = refs live (vm.free o).obj c + 1 := by
  unfold refs
  rw [← Finset.card_insert_of_notMem (a := o)]
  · congr 1
    ext a
    rw [Finset.mem_insert, Finset.mem_filter, Finset.mem_filter]
    by_cases ha : a = o
    · subst ha
      exact iff_of_true ⟨ho, hcore⟩ (.inl rfl)
    · rw [obj_free_of_ne ha]
      exact (or_iff_right ha).symm
  · rw [Finset.mem_filter, obj_free_self]
    exact fun h => nomatch h.2

/-- An object without a chunk is freed alone. -/
theorem counted_free (hcore : (vm.obj o).bind Obj.core = none) (hcounted : Counted live vm) :
    Counted live (vm.free o) ∧ Lasting live vm (vm.free o) := by
  constructor
  · intro c
    rw [refs_free_of_ne (by rw [hcore]; exact nofun)]
    exact hcounted c
  · exact fun c core hchunk => .inl ⟨core.ref, hchunk⟩

/-- One function less has the chunk `c`, which has the count `ref` now, or is
gone. -/
theorem counted_drop {core : Chunk} {entry : Option Chunk} (ho : o ∈ live)
    (hcore : (vm.obj o).bind Obj.core = some c) (hcounted : Counted live vm)
    (hchunk : vm.chunk c = some core)
    (hentry : entry = none ∧ core.ref = 1 ∨ entry = some { core with ref := core.ref - 1 }) :
    Counted live ({ vm with chunk := Function.update vm.chunk c entry }.free o) ∧
      Lasting live vm ({ vm with chunk := Function.update vm.chunk c entry }.free o) := by
  have hrefs : core.ref = refs live (vm.free o).obj c + 1 := by
    rw [← refs_free ho hcore]
    have hcount := hcounted c
    rwa [hchunk] at hcount
  constructor
  · intro a
    change match Function.update vm.chunk c entry a with
      | some core => core.ref = refs live (vm.free o).obj a
      | none => refs live (vm.free o).obj a = 0
    by_cases ha : a = c
    · subst ha
      rw [Function.update_self]
      obtain ⟨rfl, hone⟩ | rfl := hentry
      · change refs live (vm.free o).obj a = 0
        omega
      · change core.ref - 1 = refs live (vm.free o).obj a
        omega
    · rw [Function.update_of_ne ha,
        refs_free_of_ne (by rw [hcore]; exact fun h => ha (Option.some.inj h).symm)]
      exact hcounted a
  · intro a core' hcore'
    change (∃ ref, Function.update vm.chunk c entry a = _) ∨ refs live (vm.free o).obj a = 0
    by_cases ha : a = c
    · subst ha
      cases hchunk.symm.trans hcore'
      rw [Function.update_self]
      obtain ⟨_, hone⟩ | rfl := hentry
      · exact .inr (by omega)
      · exact .inl ⟨_, rfl⟩
    · rw [Function.update_of_ne ha]
      exact .inl ⟨core'.ref, hcore'⟩

/-- `gc_del` frees the object, and its chunk if no other function has it. -/
theorem gcDel_ok (hfinal : ∀ f land, 0 ≤ final f land) (ho : o ∈ live) (hobj : vm.obj o ≠ none)
    (hcounted : Counted live vm) :
    ∃ chunk, vm.gcDel final o = .ok ({ vm with chunk := chunk }.free o) ∧
      Counted live ({ vm with chunk := chunk }.free o) ∧
      Lasting live vm ({ vm with chunk := chunk }.free o) := by
  unfold Vm.gcDel
  cases hget : vm.obj o with
  | none => exact absurd hget hobj
  | some obj =>
      have hcore : (vm.obj o).bind Obj.core = obj.core := by
        rw [hget]
        rfl
      cases obj with
      | kstr land hash => exact ⟨vm.chunk, rfl, counted_free hcore hcounted⟩
      | dyay elem => exact ⟨vm.chunk, rfl, counted_free hcore hcounted⟩
      | hmap item => exact ⟨vm.chunk, rfl, counted_free hcore hcounted⟩
      | skls node => exact ⟨vm.chunk, rfl, counted_free hcore hcounted⟩
      | mand proto f land =>
          have hno : ¬ (f ≠ 0 ∧ final f land < 0) := fun h => absurd h.2 (not_lt.2 (hfinal f land))
          simp only [if_neg hno]
          exact ⟨vm.chunk, rfl, counted_free hcore hcounted⟩
      | func fn =>
          change ∃ chunk, (vm.funcFinal fn >>= fun vm => pure (vm.free o)) = _ ∧ _
          change _ = fn.core at hcore
          cases hfn : fn.core with
          | none =>
              rw [hfn] at hcore
              refine ⟨vm.chunk, ?_, counted_free hcore hcounted⟩
              simp only [Vm.funcFinal, hfn]
              rfl
          | some c =>
              rw [hfn] at hcore
              have hrefs := refs_free ho hcore
              -- the chunk is there, as this function refers to it
              have hcount := hcounted c
              cases hchunk : vm.chunk c with
              | none =>
                  rw [hchunk] at hcount
                  change refs live vm.obj c = 0 at hcount
                  omega
              | some core =>
                  rw [hchunk] at hcount
                  change core.ref = refs live vm.obj c at hcount
                  by_cases hmany : 1 < core.ref
                  · refine ⟨_, ?_, counted_drop ho hcore hcounted hchunk (.inr rfl)⟩
                    simp only [Vm.funcFinal, hfn, hchunk, if_pos hmany]
                    rfl
                  · have hone : core.ref = 1 := by omega
                    refine ⟨_, ?_, counted_drop ho hcore hcounted hchunk (.inl ⟨rfl, hone⟩)⟩
                    simp only [Vm.funcFinal, hfn, hchunk, Vm.mmDrop, hone]
                    rfl

/-! ## Sweeping a chain -/

/-- The object is gray or black. -/
def Kept (vm : Vm) (o : Addr) : Prop := hasBits vm.marked o keepBits = true

instance (vm : Vm) (o : Addr) : Decidable (Kept vm o) :=
  inferInstanceAs (Decidable (hasBits vm.marked o keepBits = true))

/-- A sweep of a chain has freed what is not kept, and taken the black bit off
the rest. -/
structure Swept (live : Finset Addr) (chain : List Addr) (vm vm' : Vm) : Prop where
  obj : ∀ a, vm'.obj a = if a ∈ chain ∧ ¬ Kept vm a then none else vm.obj a
  marked : ∀ a, vm'.marked a =
    if a ∈ chain ∧ Kept vm a then vm.marked a &&& ~~~blackBit0 else vm.marked a
  counted : Counted live vm'
  lasting : Lasting live vm vm'
  frame : vm' = { vm with
    obj := vm'.obj, marked := vm'.marked, chunk := vm'.chunk, grab := vm'.grab,
    alloced := vm'.alloced, kpool := { vm'.kpool with shift := vm.kpool.shift } }

theorem Lasting.trans (h : Lasting live vm vm') (h' : Lasting live vm' vm'')
    (hobj : ∀ a, vm''.obj a = none ∨ vm''.obj a = vm'.obj a) : Lasting live vm vm'' := by
  intro c core hcore
  obtain ⟨ref, hc⟩ | hzero := h c core hcore
  · obtain ⟨ref', hc'⟩ | hzero' := h' c _ hc
    · exact .inl ⟨ref', hc'⟩
    · exact .inr hzero'
  · exact .inr (Nat.le_zero.1 ((refs_le hobj c).trans hzero.le))

namespace Swept

variable {chain chain' : List Addr}

theorem nil (hcounted : Counted live vm) : Swept live [] vm vm where
  obj := fun _ => (if_neg fun h => List.not_mem_nil h.1).symm
  marked := fun _ => (if_neg fun h => List.not_mem_nil h.1).symm
  counted := hcounted
  lasting := fun _ core hcore => .inl ⟨core.ref, hcore⟩
  frame := rfl

theorem obj_cases (h : Swept live chain vm vm') (a : Addr) :
    vm'.obj a = none ∨ vm'.obj a = vm.obj a := by
  rw [h.obj]
  split
  · exact .inl rfl
  · exact .inr rfl

theorem obj_of_notMem (h : Swept live chain vm vm') {a : Addr} (ha : a ∉ chain) :
    vm'.obj a = vm.obj a :=
  (h.obj a).trans (if_neg fun hin => ha hin.1)

/-- The marks of what is not in the chain stay. -/
theorem kept_iff (h : Swept live chain vm vm') {a : Addr} (ha : a ∉ chain) :
    Kept vm' a ↔ Kept vm a := by
  unfold Kept hasBits
  rw [h.marked, if_neg fun hin => ha hin.1]

theorem append (h : Swept live chain vm vm') (h' : Swept live chain' vm' vm'')
    (hdisjoint : chain.Disjoint chain') : Swept live (chain ++ chain') vm vm'' where
  obj := by
    intro a
    rw [h'.obj, h.obj]
    by_cases ha : a ∈ chain
    · have ha' : a ∉ chain' := hdisjoint ha
      simp [ha, ha']
    · by_cases ha' : a ∈ chain'
      · simp [ha, ha', h.kept_iff ha]
      · simp [ha, ha']
  marked := by
    intro a
    rw [h'.marked, h.marked]
    by_cases ha : a ∈ chain
    · have ha' : a ∉ chain' := hdisjoint ha
      simp [ha, ha']
    · by_cases ha' : a ∈ chain'
      · simp [ha, ha', h.kept_iff ha]
      · simp [ha, ha']
  counted := h'.counted
  lasting := h.lasting.trans h'.lasting h'.obj_cases
  frame := by
    have hframe := h'.frame
    rw [h.frame] at hframe
    exact hframe

/-- An object that is not kept is freed. -/
theorem freed {chunk : Addr → Option Chunk} (ho : ¬ Kept vm o)
    (hcounted : Counted live ({ vm with chunk := chunk }.free o))
    (hlasting : Lasting live vm ({ vm with chunk := chunk }.free o)) (used : Int) :
    Swept live [o] vm { { vm with chunk := chunk }.free o with
      kpool := { vm.kpool with used := used } } where
  obj := by
    intro a
    by_cases ha : a = o
    · subst ha
      rw [if_pos ⟨List.mem_singleton.2 rfl, ho⟩]
      exact Function.update_self _ _ _
    · rw [if_neg fun h => ha (List.mem_singleton.1 h.1)]
      exact Function.update_of_ne ha _ _
  marked := by
    intro a
    rw [if_neg]
    · rfl
    · rintro ⟨ha, hkept⟩
      rw [List.mem_singleton.1 ha] at hkept
      exact ho hkept
  counted := hcounted
  lasting := hlasting
  frame := rfl

/-- An object that is kept loses its black bit. -/
theorem kept (ho : Kept vm o) (hcounted : Counted live vm) (grab : Int) :
    Swept live [o] vm { vm with grab := grab, marked := whiten o vm.marked } where
  obj := by
    intro a
    rw [if_neg]
    rintro ⟨ha, hno⟩
    rw [List.mem_singleton.1 ha] at hno
    exact hno ho
  marked := by
    intro a
    by_cases ha : a = o
    · subst ha
      rw [if_pos ⟨List.mem_singleton.2 rfl, ho⟩]
      exact Function.update_self _ _ _
    · rw [if_neg fun h => ha (List.mem_singleton.1 h.1)]
      exact Function.update_of_ne ha _ _
  counted := hcounted
  lasting := fun _ core hcore => .inl ⟨core.ref, hcore⟩
  frame := rfl

end Swept

/-- The number of pooled strings among the objects that are freed. -/
def freedCount (pooled : Bool) (vm : Vm) (chain : List Addr) : Int :=
  if pooled then ((chain.filter fun o => ¬ Kept vm o).length : Int) else 0

/-- The loop ends with what is kept in the chain. -/
theorem sweepChain_ok (hfinal : ∀ f land, 0 ≤ final f land) (pooled : Bool) {chain : List Addr}
    (hnodup : chain.Nodup) (hlive : ∀ o ∈ chain, o ∈ live) (hobj : ∀ o ∈ chain, vm.obj o ≠ none)
    (hcounted : Counted live vm) :
    ∃ vm', Vm.sweepChain final pooled chain vm = .ok (chain.filter (Kept vm ·), vm') ∧
      Swept live chain vm vm' ∧ vm'.kpool.used = vm.kpool.used - freedCount pooled vm chain ∧
      vm'.kpool.slot = vm.kpool.slot ∧ vm'.alloced = vm.alloced := by
  induction chain generalizing vm with
  | nil => exact ⟨vm, rfl, .nil hcounted, by simp [freedCount], rfl, rfl⟩
  | cons x rest ih =>
      obtain ⟨hx, hrest⟩ := List.nodup_cons.1 hnodup
      have hdisjoint : [x].Disjoint rest := fun a ha ha' => hx (List.mem_singleton.1 ha ▸ ha')
      -- what the loop does behind a step that sweeps `x`
      have hlater : ∀ vm₁, Swept live [x] vm vm₁ → ∃ vm',
          Vm.sweepChain final pooled rest vm₁ = .ok (rest.filter (Kept vm ·), vm') ∧
            Swept live (x :: rest) vm vm' ∧
            vm'.kpool.used = vm₁.kpool.used - freedCount pooled vm rest ∧
            vm'.kpool.slot = vm₁.kpool.slot ∧ vm'.alloced = vm₁.alloced := by
        intro vm₁ hswept
        have hkept : ∀ o ∈ rest, (Kept vm₁ o ↔ Kept vm o) :=
          fun o ho => hswept.kept_iff fun hin => hx (List.mem_singleton.1 hin ▸ ho)
        have hobj₁ : ∀ o ∈ rest, vm₁.obj o ≠ none := by
          intro o ho
          rw [hswept.obj_of_notMem fun hin => hx (List.mem_singleton.1 hin ▸ ho)]
          exact hobj o (List.mem_cons_of_mem _ ho)
        obtain ⟨vm', hrun, hswept', hused, hlists⟩ := ih hrest
          (fun o ho => hlive o (List.mem_cons_of_mem _ ho)) hobj₁ hswept.counted
        refine ⟨vm', ?_, hswept.append hswept' hdisjoint, ?_, hlists⟩
        · rw [hrun, List.filter_congr fun o ho => decide_eq_decide.2 (hkept o ho)]
        · rw [hused]
          unfold freedCount
          rw [List.filter_congr fun o ho => decide_eq_decide.2 (not_congr (hkept o ho))]
      by_cases hkept : Kept vm x
      · obtain ⟨vm', hrun, hswept, hused, hlists⟩ := hlater _ (Swept.kept hkept hcounted
          (if hasBits vm.marked x grayBit0 then vm.grab + 1 else vm.grab))
        refine ⟨vm', ?_, hswept, ?_, hlists⟩
        · have hbits : hasBits vm.marked x keepBits = true := hkept
          rw [Vm.sweepChain, if_neg (by simp [hbits]), List.filter_cons_of_pos (by simpa using hkept)]
          simp only [hrun]
          rfl
        · rw [hused]
          unfold freedCount
          rw [List.filter_cons_of_neg (by simpa using hkept)]
      · obtain ⟨chunk, hdel, hcounted', hlasting⟩ := gcDel_ok hfinal (hlive x List.mem_cons_self)
          (hobj x List.mem_cons_self) hcounted
        obtain ⟨vm', hrun, hswept, hused, hlists⟩ := hlater _ (Swept.freed hkept hcounted' hlasting
          (if pooled then vm.kpool.used - 1 else vm.kpool.used))
        refine ⟨vm', ?_, hswept, ?_, hlists⟩
        · have hbits : ¬ hasBits vm.marked x keepBits = true := hkept
          rw [Vm.sweepChain, if_pos (by simpa using hbits), hdel,
            List.filter_cons_of_neg (by simpa using hkept)]
          exact hrun
        · rw [hused]
          unfold freedCount
          cases pooled with
          | false => rfl
          | true =>
              rw [List.filter_cons_of_pos (by simpa using hkept), List.length_cons]
              simp only [if_true]
              push_cast
              omega

theorem sweepSlots_ok (hfinal : ∀ f land, 0 ≤ final f land) {slot : List (List Addr)}
    (hnodup : slot.flatten.Nodup) (hlive : ∀ o ∈ slot.flatten, o ∈ live)
    (hobj : ∀ o ∈ slot.flatten, vm.obj o ≠ none) (hcounted : Counted live vm) :
    ∃ vm', Vm.sweepSlots final slot vm = .ok (slot.map (·.filter (Kept vm ·)), vm') ∧
      Swept live slot.flatten vm vm' ∧
      vm'.kpool.used = vm.kpool.used - freedCount true vm slot.flatten ∧
      vm'.alloced = vm.alloced := by
  induction slot generalizing vm with
  | nil => exact ⟨vm, rfl, .nil hcounted, by simp [freedCount], rfl⟩
  | cons chain slot ih =>
      rw [List.flatten_cons] at hnodup hlive hobj
      obtain ⟨hchain, hslot, hdisjoint⟩ := List.nodup_append'.1 hnodup
      obtain ⟨vm₁, hrun₁, hswept₁, hused₁, _, halloc₁⟩ := sweepChain_ok hfinal true hchain
        (fun o ho => hlive o (List.mem_append_left _ ho))
        (fun o ho => hobj o (List.mem_append_left _ ho)) hcounted
      have hkept : ∀ o ∈ slot.flatten, (Kept vm₁ o ↔ Kept vm o) :=
        fun o ho => hswept₁.kept_iff fun hin => hdisjoint hin ho
      have hobj₁ : ∀ o ∈ slot.flatten, vm₁.obj o ≠ none := by
        intro o ho
        rw [hswept₁.obj_of_notMem fun hin => hdisjoint hin ho]
        exact hobj o (List.mem_append_right _ ho)
      obtain ⟨vm₂, hrun₂, hswept₂, hused₂, halloc₂⟩ := ih hslot
        (fun o ho => hlive o (List.mem_append_right _ ho)) hobj₁ hswept₁.counted
      refine ⟨vm₂, ?_, hswept₁.append hswept₂ hdisjoint, ?_, halloc₂.trans halloc₁⟩
      · have hmap : slot.map (·.filter (Kept vm₁ ·)) = slot.map (·.filter (Kept vm ·)) := by
          apply List.map_congr_left
          intro chain' hchain'
          exact List.filter_congr fun o ho =>
            decide_eq_decide.2 (hkept o (List.mem_flatten.2 ⟨chain', hchain', ho⟩))
        rw [Vm.sweepSlots, hrun₁]
        change (Vm.sweepSlots final slot vm₁ >>= _) = _
        rw [hrun₂, hmap]
        rfl
      · rw [hused₂, hused₁]
        unfold freedCount
        rw [List.filter_congr fun o ho => decide_eq_decide.2 (not_congr (hkept o ho)),
          List.flatten_cons, List.filter_append, List.length_append]
        simp only [if_true]
        push_cast
        omega

end

end Ymd.Gc
