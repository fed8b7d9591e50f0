import Ymd.Foundation.Buckets
import Ymd.Foundation.Outcome
import Ymd.Gc.Sweep

/-! # What a collection leaves alone

Whatever the memory is: a mark phase that ends has set black bits only, and a
sweep that ends has unlinked and freed objects that are not gray.
-/

namespace Ymd.Gc

open Foundation

/-! ## Marking -/

/-- Only black bits have been set. -/
def Painted (m m' : Addr → BitVec 16) : Prop := ∀ a, m' a = m a ∨ m' a = m a ||| blackBit0

/-- A part of a mark phase that sets black bits only. -/
def Paints (f : (Addr → BitVec 16) → Except Fault (Addr → BitVec 16)) : Prop :=
  ∀ m m', f m = .ok m' → Painted m m'

namespace Painted

variable {m m' m'' : Addr → BitVec 16}

theorem refl (m : Addr → BitVec 16) : Painted m m := fun _ => .inl rfl

theorem trans (h : Painted m m') (h' : Painted m' m'') : Painted m m'' := by
  intro a
  obtain ha' | ha' := h' a
  · rw [ha']
    exact h a
  · obtain ha | ha := h a
    · rw [ha', ha]
      exact .inr rfl
    · rw [ha', ha, BitVec.or_assoc, BitVec.or_self]
      exact .inr rfl

theorem blacken (o : Addr) (m : Addr → BitVec 16) : Painted m (blacken o m) := by
  intro a
  by_cases ha : a = o
  · subst ha
    exact .inr (Function.update_self _ _ _)
  · exact .inl (Function.update_of_ne ha _ _)

theorem gray (h : Painted m m') (o : Addr) : hasBits m' o grayBit0 = hasBits m o grayBit0 := by
  have hnone : grayBit0 &&& blackBit0 = 0 := by decide
  unfold hasBits
  obtain ha | ha := h o
  · rw [ha]
  · rw [ha, BitVec.and_comm, BitVec.and_or_distrib_left, hnone, BitVec.and_comm]
    rw [show m o &&& grayBit0 ||| 0 = m o &&& grayBit0 from BitVec.or_zero]

end Painted

section

variable {vm : Vm}
  {markVar : Variable → (Addr → BitVec 16) → Except Fault (Addr → BitVec 16)}

theorem markKstr_paints (z : Addr) : Paints (vm.markKstr z) := by
  intro m m' hrun
  obtain ⟨_, _, hrun⟩ := except_bind_ok_iff.1 hrun
  cases hrun
  exact .blacken z m

theorem markKstrs_paints (zs : List Addr) : Paints (vm.markKstrs zs) := by
  induction zs with
  | nil =>
      intro m m' hrun
      cases hrun
      exact .refl m
  | cons z rest ih =>
      intro m m' hrun
      obtain ⟨m₁, hz, hrun⟩ := except_bind_ok_iff.1 hrun
      exact (markKstr_paints z _ _ hz).trans (ih _ _ hrun)

theorem markEach_paints (hvar : ∀ var, Paints (markVar var)) (vars : List Variable) :
    Paints (Vm.markEach markVar vars) := by
  induction vars with
  | nil =>
      intro m m' hrun
      cases hrun
      exact .refl m
  | cons var rest ih =>
      intro m m' hrun
      rw [Vm.markEach] at hrun
      split at hrun
      · exact ih _ _ hrun
      · obtain ⟨m₁, hvisit, hrun⟩ := except_bind_ok_iff.1 hrun
        exact (hvar var _ _ hvisit).trans (ih _ _ hrun)

theorem gcMarkDyay_paints (hvar : ∀ var, Paints (markVar var)) (o : Addr) :
    Paints (Vm.gcMarkDyay vm markVar o) := by
  intro m m' hrun
  obtain ⟨_, _, hrun⟩ := except_bind_ok_iff.1 hrun
  exact (Painted.blacken o m).trans (markEach_paints hvar _ _ _ hrun)

theorem gcMarkHmap_paints (hvar : ∀ var, Paints (markVar var)) (o : Addr) :
    Paints (Vm.gcMarkHmap vm markVar o) := by
  intro m m' hrun
  obtain ⟨_, _, hrun⟩ := except_bind_ok_iff.1 hrun
  exact (Painted.blacken o m).trans (markEach_paints hvar _ _ _ hrun)

theorem gcMarkSkls_paints (hvar : ∀ var, Paints (markVar var)) (o : Addr) :
    Paints (Vm.gcMarkSkls vm markVar o) := by
  intro m m' hrun
  obtain ⟨_, _, hrun⟩ := except_bind_ok_iff.1 hrun
  exact (Painted.blacken o m).trans (markEach_paints hvar _ _ _ hrun)

theorem gcMarkMand_paints (hvar : ∀ var, Paints (markVar var)) (o : Addr) :
    Paints (Vm.gcMarkMand vm markVar o) := by
  intro m m' hrun
  obtain ⟨proto, _, hrun⟩ := except_bind_ok_iff.1 hrun
  apply (Painted.blacken o m).trans
  cases proto with
  | none =>
      cases hrun
      exact .refl _
  | some proto =>
      dsimp only at hrun
      split at hrun
      · cases hrun
        exact .refl _
      · split at hrun
        · exact gcMarkHmap_paints hvar proto _ _ hrun
        · exact gcMarkSkls_paints hvar proto _ _ hrun
        · cases hrun

theorem gcMarkArgv_paints (hvar : ∀ var, Paints (markVar var)) (argv : Option Addr) :
    Paints (Vm.gcMarkArgv vm markVar argv) := by
  intro m m' hrun
  cases argv with
  | none =>
      cases hrun
      exact .refl m
  | some argv =>
      rw [Vm.gcMarkArgv] at hrun
      split at hrun
      · cases hrun
        exact .refl m
      · exact gcMarkDyay_paints hvar argv _ _ hrun

theorem gcMarkCore_paints (hvar : ∀ var, Paints (markVar var)) (core : Option Addr) :
    Paints (Vm.gcMarkCore vm markVar core) := by
  intro m m' hrun
  cases core with
  | none =>
      cases hrun
      exact .refl m
  | some c =>
      obtain ⟨core, _, hrun⟩ := except_bind_ok_iff.1 hrun
      obtain ⟨m₁, hfile, hrun⟩ := except_bind_ok_iff.1 hrun
      obtain ⟨m₂, hlz, hrun⟩ := except_bind_ok_iff.1 hrun
      exact ((markKstr_paints _ _ _ hfile).trans (markKstrs_paints _ _ _ hlz)).trans
        (markEach_paints hvar _ _ _ hrun)

theorem gcMarkFunc_paints (hvar : ∀ var, Paints (markVar var)) (o : Addr) :
    Paints (Vm.gcMarkFunc vm markVar o) := by
  intro m m' hrun
  obtain ⟨fn, _, hrun⟩ := except_bind_ok_iff.1 hrun
  obtain ⟨m₁, hproto, hrun⟩ := except_bind_ok_iff.1 hrun
  obtain ⟨m₂, hargv, hrun⟩ := except_bind_ok_iff.1 hrun
  obtain ⟨m₃, hbind, hrun⟩ := except_bind_ok_iff.1 hrun
  have hhead := (Painted.blacken o m).trans (markKstr_paints _ _ _ hproto)
  have hbody := (gcMarkArgv_paints hvar _ _ _ hargv).trans (markEach_paints hvar _ _ _ hbind)
  exact (hhead.trans hbody).trans (gcMarkCore_paints hvar _ _ _ hrun)

theorem gcMarkVar_paints (depth : Nat) (var : Variable) : Paints (vm.gcMarkVar depth var) := by
  induction depth generalizing var with
  | zero => exact fun m m' hrun => nomatch hrun
  | succ depth ih =>
      cases var with
      | kstr o => exact markKstr_paints o
      | mand o => exact gcMarkMand_paints ih o
      | func o => exact gcMarkFunc_paints ih o
      | dyay o => exact gcMarkDyay_paints ih o
      | hmap o => exact gcMarkHmap_paints ih o
      | skls o => exact gcMarkSkls_paints ih o
      | _ =>
          intro m m' hrun
          cases hrun
          exact .refl m

theorem markFrames_paints (hvar : ∀ var, Paints (markVar var)) (info : List CallInfo) :
    Paints (Vm.markFrames vm markVar info) := by
  induction info with
  | nil =>
      intro m m' hrun
      cases hrun
      exact .refl m
  | cons i chain ih =>
      intro m m' hrun
      rw [Vm.markFrames] at hrun
      split at hrun
      · exact ih _ _ hrun
      · obtain ⟨m₁, hfunc, hrun⟩ := except_bind_ok_iff.1 hrun
        exact (gcMarkFunc_paints hvar _ _ _ hfunc).trans (ih _ _ hrun)

/-- A mark phase changes the marks alone, and sets black bits only. -/
theorem gcMark_paints {depth : Nat} {vm' : Vm} (hrun : vm.gcMark depth = .ok vm') :
    ∃ m, vm' = { vm with marked := m } ∧ Painted vm.marked m := by
  have hvar : ∀ var, Paints (vm.gcMarkVar depth var) := gcMarkVar_paints depth
  obtain ⟨m₁, hglobal, hrun⟩ := except_bind_ok_iff.1 hrun
  obtain ⟨locals, _, hrun⟩ := except_bind_ok_iff.1 hrun
  obtain ⟨m₂, hloc, hrun⟩ := except_bind_ok_iff.1 hrun
  obtain ⟨m₃, hinfo, hrun⟩ := except_bind_ok_iff.1 hrun
  obtain ⟨m₄, hstk, hrun⟩ := except_bind_ok_iff.1 hrun
  cases hrun
  have hhead := (gcMarkHmap_paints hvar _ _ _ hglobal).trans (markEach_paints hvar _ _ _ hloc)
  have htail := (markFrames_paints hvar _ _ _ hinfo).trans (markEach_paints hvar _ _ _ hstk)
  exact ⟨m₄, rfl, hhead.trans htail⟩

end

/-! ## Sweeping -/

/-- A sweep of `chain` has left `left`: the rest is freed, and was not gray. -/
structure Thinned (pooled : Bool) (chain left : List Addr) (vm vm' : Vm) : Prop where
  sub : left.Sublist chain
  obj : ∀ o, vm'.obj o = if o ∈ chain ∧ o ∉ left then none else vm.obj o
  gray : ∀ o, hasBits vm'.marked o grayBit0 = hasBits vm.marked o grayBit0
  kept : ∀ o ∈ chain, hasBits vm.marked o grayBit0 = true → o ∈ left
  used : vm'.kpool.used = vm.kpool.used - if pooled then (chain.length - left.length : Int) else 0
  next : vm'.next = vm.next
  alloced : vm'.alloced = vm.alloced
  slot : vm'.kpool.slot = vm.kpool.slot
  shift : vm'.kpool.shift = vm.kpool.shift

/-- `whiten` takes no gray bit. -/
theorem gray_whiten (x o : Addr) (m : Addr → BitVec 16) :
    hasBits (whiten x m) o grayBit0 = hasBits m o grayBit0 := by
  have hsame : ~~~blackBit0 &&& grayBit0 = grayBit0 := by decide
  unfold hasBits whiten
  by_cases ho : o = x
  · subst ho
    rw [Function.update_self, BitVec.and_assoc, hsame]
  · rw [Function.update_of_ne ho]

theorem kept_of_gray {vm : Vm} {o : Addr} (hgray : hasBits vm.marked o grayBit0 = true) :
    Kept vm o := by
  unfold Kept hasBits at *
  rw [decide_eq_true_eq] at hgray ⊢
  rw [keepBits, BitVec.and_or_distrib_left]
  exact fun hzero => hgray (BitVec.or_eq_zero_iff.1 hzero).2

namespace Thinned

variable {pooled : Bool} {chain chain' left left' : List Addr} {vm vm' vm'' : Vm} {x : Addr}

theorem nil : Thinned pooled [] [] vm vm where
  sub := .refl _
  obj := fun _ => (if_neg fun h => List.not_mem_nil h.1).symm
  gray := fun _ => rfl
  kept := fun _ h => absurd h List.not_mem_nil
  used := by simp
  next := rfl
  alloced := rfl
  slot := rfl
  shift := rfl

theorem append (h : Thinned pooled chain left vm vm') (h' : Thinned pooled chain' left' vm' vm'')
    (hdisjoint : chain.Disjoint chain') :
    Thinned pooled (chain ++ chain') (left ++ left') vm vm'' where
  sub := h.sub.append h'.sub
  obj := by
    intro o
    rw [h'.obj, h.obj]
    by_cases ho : o ∈ chain
    · have ho' : o ∉ chain' := hdisjoint ho
      have hleft' : o ∉ left' := fun hin => ho' (h'.sub.subset hin)
      simp [ho, ho', hleft']
    · have hleft : o ∉ left := fun hin => ho (h.sub.subset hin)
      simp [ho, hleft]
  gray := fun o => (h'.gray o).trans (h.gray o)
  kept := by
    intro o ho hgray
    obtain ho | ho := List.mem_append.1 ho
    · exact List.mem_append_left _ (h.kept o ho hgray)
    · exact List.mem_append_right _ (h'.kept o ho ((h.gray o).trans hgray))
  used := by
    rw [h'.used, h.used, List.length_append, List.length_append]
    cases pooled with
    | false => simp
    | true =>
        simp only [if_true]
        push_cast
        omega
  next := h'.next.trans h.next
  alloced := h'.alloced.trans h.alloced
  slot := h'.slot.trans h.slot
  shift := h'.shift.trans h.shift

/-- An object that is not kept is freed. -/
theorem freed (hx : ¬ Kept vm x) (chunk : Addr → Option Chunk) :
    Thinned pooled [x] [] vm { { vm with chunk := chunk }.free x with
      kpool := { vm.kpool with used := if pooled then vm.kpool.used - 1 else vm.kpool.used } } where
  sub := List.nil_sublist _
  obj := by
    intro o
    change Function.update vm.obj x none o = _
    by_cases ho : o = x
    · subst ho
      rw [Function.update_self, if_pos ⟨List.mem_cons_self, List.not_mem_nil⟩]
    · rw [Function.update_of_ne ho, if_neg fun h => ho (List.mem_singleton.1 h.1)]
  gray := fun _ => rfl
  kept := by
    intro o ho hgray
    rw [List.mem_singleton.1 ho] at hgray
    exact absurd (kept_of_gray hgray) hx
  used := by
    cases pooled with
    | false => exact (Int.sub_zero _).symm
    | true => rfl
  next := rfl
  alloced := rfl
  slot := rfl
  shift := rfl

/-- An object that is kept loses its black bit. -/
theorem whitened (grab : Int) :
    Thinned pooled [x] [x] vm { vm with grab := grab, marked := whiten x vm.marked } where
  sub := .refl _
  obj := fun _ => (if_neg fun h => h.2 h.1).symm
  gray := fun o => gray_whiten x o vm.marked
  kept := fun _ ho _ => ho
  used := by
    rw [Int.sub_self, ite_self]
    exact (Int.sub_zero _).symm
  next := rfl
  alloced := rfl
  slot := rfl
  shift := rfl

end Thinned

section

variable {final : BitVec 64 → Bytes → Int} {vm vm' : Vm} {pooled : Bool}

theorem funcFinal_frees {fn : Func} (hrun : vm.funcFinal fn = .ok vm') :
    ∃ chunk, vm' = { vm with chunk := chunk } := by
  unfold Vm.funcFinal at hrun
  split at hrun
  · cases hrun
    exact ⟨vm.chunk, rfl⟩
  · split at hrun
    · cases hrun
    · split at hrun
      · cases hrun
        exact ⟨_, rfl⟩
      · unfold Vm.mmDrop at hrun
        split at hrun <;> cases hrun <;> exact ⟨_, rfl⟩

theorem gcDel_frees {x : Addr} (hrun : vm.gcDel final x = .ok vm') :
    ∃ chunk, vm' = { vm with chunk := chunk }.free x := by
  unfold Vm.gcDel at hrun
  split at hrun
  case h_1 => cases hrun
  case h_3 fn _ =>
    obtain ⟨vm₁, hfinal, hrun⟩ := except_bind_ok_iff.1 hrun
    obtain ⟨chunk, rfl⟩ := funcFinal_frees hfinal
    cases hrun
    exact ⟨chunk, rfl⟩
  case h_7 =>
    split at hrun
    · cases hrun
    · cases hrun
      exact ⟨vm.chunk, rfl⟩
  all_goals
    cases hrun
    exact ⟨vm.chunk, rfl⟩

/-- The loop of a sweep, whatever the memory is. -/
theorem sweepChain_thins {chain left : List Addr} (hnodup : chain.Nodup)
    (hrun : Vm.sweepChain final pooled chain vm = .ok (left, vm')) :
    Thinned pooled chain left vm vm' := by
  induction chain generalizing vm left with
  | nil =>
      cases hrun
      exact .nil
  | cons x rest ih =>
      obtain ⟨hx, hrest⟩ := List.nodup_cons.1 hnodup
      have hdisjoint : [x].Disjoint rest := fun a ha ha' => hx (List.mem_singleton.1 ha ▸ ha')
      rw [Vm.sweepChain] at hrun
      split at hrun
      case isTrue hwhite =>
        obtain ⟨vm₁, hdel, hrun⟩ := except_bind_ok_iff.1 hrun
        obtain ⟨chunk, rfl⟩ := gcDel_frees hdel
        have hfreed : ¬ Kept vm x := by simpa [Kept] using hwhite
        exact (Thinned.freed hfreed chunk).append (ih hrest hrun) hdisjoint
      case isFalse =>
        obtain ⟨⟨left', vm₁⟩, hrest', hrun⟩ := except_bind_ok_iff.1 hrun
        cases hrun
        exact (Thinned.whitened _).append (ih hrest hrest') hdisjoint

theorem sweepSlots_thins {slot slot' : List (List Addr)} (hnodup : slot.flatten.Nodup)
    (hrun : Vm.sweepSlots final slot vm = .ok (slot', vm')) :
    Thinned true slot.flatten slot'.flatten vm vm' ∧ List.Forall₂ List.Sublist slot' slot := by
  induction slot generalizing vm slot' with
  | nil =>
      cases hrun
      exact ⟨.nil, .nil⟩
  | cons chain slot ih =>
      obtain ⟨hchain, hslot, hdisjoint⟩ := List.nodup_append'.1 hnodup
      obtain ⟨⟨kept, vm₁⟩, hrun₁, hrun⟩ := except_bind_ok_iff.1 hrun
      obtain ⟨⟨slot₂, vm₂⟩, hrun₂, hrun⟩ := except_bind_ok_iff.1 hrun
      cases hrun
      have hthin := sweepChain_thins hchain hrun₁
      obtain ⟨hthin', hsub⟩ := ih hslot hrun₂
      exact ⟨hthin.append hthin' hdisjoint, .cons hthin.sub hsub⟩

end

end Ymd.Gc
