import Ymd.Machine.Entry

/-! # Objects over a run

What every step keeps of the objects, calls and errors included: functions keep
their code, arrays stay arrays, and the objects stay well formed.
-/

namespace Ymd

open Foundation

/-- How the objects develop. -/
structure Heap.Grows (heap heap' : Heap) : Prop where
  next : heap.next ≤ heap'.next
  func : ∀ o fn, heap.obj o = some (.func fn) → ∃ fn', heap'.obj o = some (.func fn') ∧
    fn'.core = fn.core ∧ fn'.nBind = fn.nBind ∧ (∀ a, fn.argv = some a → fn'.argv = some a)
  dyay : ∀ o elem, heap.obj o = some (.dyay elem) → ∃ elem', heap'.obj o = some (.dyay elem')
  ok : heap.Ok → heap'.Ok

namespace Heap.Grows

variable {heap heap' heap'' : Heap}

theorem refl (heap : Heap) : heap.Grows heap :=
  ⟨le_rfl, fun _ fn hfn => ⟨fn, hfn, rfl, rfl, fun _ h => h⟩, fun _ elem h => ⟨elem, h⟩, fun h => h⟩

theorem trans (h₁ : heap.Grows heap') (h₂ : heap'.Grows heap'') : heap.Grows heap'' where
  next := h₁.next.trans h₂.next
  func := by
    intro o fn hfn
    obtain ⟨fn', hfn', hcore, hbind, hargv⟩ := h₁.func o fn hfn
    obtain ⟨fn'', hfn'', hcore', hbind', hargv'⟩ := h₂.func o fn' hfn'
    exact ⟨fn'', hfn'', hcore'.trans hcore, hbind'.trans hbind, fun a ha => hargv' a (hargv a ha)⟩
  dyay := by
    intro o elem helem
    obtain ⟨elem', helem'⟩ := h₁.dyay o elem helem
    exact h₂.dyay o elem' helem'
  ok := fun hok => h₂.ok (h₁.ok hok)

/-- The effect of an instruction. -/
theorem of_effect {own arrs : Addr → Prop} (h : heap.Effect own arrs heap') :
    heap.Grows heap' where
  next := h.next
  func := by
    intro o fn hfn
    obtain ⟨fn', hfn', hcore, hbind, hargv, -⟩ := h.func o fn hfn
    exact ⟨fn', hfn', hcore, hbind, fun a ha => hargv.trans ha⟩
  dyay := by
    intro o elem helem
    obtain ⟨elem', helem', -⟩ := h.dyay o elem helem
    exact ⟨elem', helem'⟩
  ok := by
    intro hok
    -- a function with an array had the same one before
    have hold : ∀ o fn a, heap'.obj o = some (.func fn) → fn.argv = some a →
        ∃ fn₀, heap.obj o = some (.func fn₀) ∧ fn₀.argv = some a := by
      intro o fn a hfn ha
      rcases h.made o fn hfn with ⟨fn₀, hfn₀⟩ | ⟨-, hnone⟩
      · obtain ⟨fn', hfn', -, -, hargv, -⟩ := h.func o fn₀ hfn₀
        rw [hfn] at hfn'
        cases hfn'
        exact ⟨fn₀, hfn₀, hargv ▸ ha⟩
      · rw [hnone] at ha
        cases ha
    refine ⟨h.code hok.code, ?_, ?_⟩
    · intro o fn a hfn ha
      obtain ⟨fn₀, hfn₀, ha₀⟩ := hold o fn a hfn ha
      obtain ⟨elem, helem⟩ := hok.argv o fn₀ a hfn₀ ha₀
      obtain ⟨elem', helem', -⟩ := h.dyay a elem helem
      exact ⟨elem', helem'⟩
    · intro o fn o' fn' a hfn hfn' ha ha'
      obtain ⟨fn₀, hfn₀, ha₀⟩ := hold o fn a hfn ha
      obtain ⟨fn₀', hfn₀', ha₀'⟩ := hold o' fn' a hfn' ha'
      exact hok.inj o fn₀ o' fn₀' a hfn₀ hfn₀' ha₀ ha₀'

/-- A function gets its array. -/
theorem new_argv {o : Addr} {fn : Func} (hfn : heap.obj o = some (.func fn))
    (hnone : fn.argv = none) : heap.Grows
      ((heap.alloc (.dyay [])).1.set o (.func { fn with argv := some heap.next })) := by
  have hne : o ≠ heap.next := Nat.ne_of_lt (lt_next hfn)
  have hfn' : (heap.alloc (.dyay [])).1.obj o = some (.func fn) := obj_alloc_of_some hfn
  -- what the new heap holds at an address
  have hcases : ∀ p obj, ((heap.alloc (.dyay [])).1.set o
      (.func { fn with argv := some heap.next })).obj p = some obj →
      (p = o ∧ obj = .func { fn with argv := some heap.next }) ∨
      (p = heap.next ∧ obj = .dyay []) ∨ (p ≠ o ∧ heap.obj p = some obj) := by
    intro p obj hobj
    by_cases hp : p = o
    · subst hp
      rw [obj_set_self hfn'] at hobj
      exact .inl ⟨rfl, (Option.some.inj hobj).symm⟩
    · rw [obj_set_of_ne hp] at hobj
      by_cases hpn : p = heap.next
      · subst hpn
        rw [obj_alloc_self] at hobj
        exact .inr (.inl ⟨rfl, (Option.some.inj hobj).symm⟩)
      · rw [obj_alloc_of_ne hpn] at hobj
        exact .inr (.inr ⟨hp, hobj⟩)
  have hkeep : ∀ p obj, p ≠ o → heap.obj p = some obj → ((heap.alloc (.dyay [])).1.set o
      (.func { fn with argv := some heap.next })).obj p = some obj := by
    intro p obj hp hobj
    exact (obj_set_of_ne hp).trans (obj_alloc_of_some hobj)
  refine ⟨Nat.le_succ _, ?_, ?_, fun hok => ⟨?_, ?_, ?_⟩⟩
  · intro p fn' hp
    by_cases hpo : p = o
    · subst hpo
      rw [hfn] at hp
      cases hp
      refine ⟨_, obj_set_self hfn', rfl, rfl, fun a ha => ?_⟩
      rw [hnone] at ha
      cases ha
    · exact ⟨fn', hkeep p _ hpo hp, rfl, rfl, fun _ h => h⟩
  · intro p elem hp
    have hpo : p ≠ o := by
      rintro rfl
      rw [hfn] at hp
      cases hp
    exact ⟨elem, hkeep p _ hpo hp⟩
  · intro p fn' core hp hcore
    rcases hcases p _ hp with ⟨rfl, hobj⟩ | ⟨-, hobj⟩ | ⟨-, hobj⟩
    · cases hobj
      exact hok.code p fn core hfn hcore
    · cases hobj
    · exact hok.code p fn' core hobj hcore
  · intro p fn' a hp ha
    rcases hcases p _ hp with ⟨rfl, hobj⟩ | ⟨-, hobj⟩ | ⟨-, hobj⟩
    · cases hobj
      cases ha
      exact ⟨[], (obj_set_of_ne hne.symm).trans obj_alloc_self⟩
    · cases hobj
    · obtain ⟨elem, helem⟩ := hok.argv p fn' a hobj ha
      have hao : a ≠ o := by
        rintro rfl
        rw [hfn] at helem
        cases helem
      exact ⟨elem, hkeep a _ hao helem⟩
  · -- no older function has the new array
    have hfresh : ∀ p fn', heap.obj p = some (.func fn') → fn'.argv ≠ some heap.next := by
      intro p fn' hp ha
      obtain ⟨elem, helem⟩ := hok.argv p fn' _ hp ha
      exact absurd (lt_next helem) (Nat.lt_irrefl _)
    intro p fn' p' fn'' a hp hp' ha ha'
    rcases hcases p _ hp with ⟨rfl, hobj⟩ | ⟨-, hobj⟩ | ⟨-, hobj⟩
    · cases hobj
      cases ha
      rcases hcases p' _ hp' with ⟨rfl, -⟩ | ⟨-, hobj'⟩ | ⟨-, hobj'⟩
      · rfl
      · cases hobj'
      · exact absurd ha' (hfresh p' fn'' hobj')
    · cases hobj
    · rcases hcases p' _ hp' with ⟨rfl, hobj'⟩ | ⟨-, hobj'⟩ | ⟨-, hobj'⟩
      · cases hobj'
        cases ha'
        exact absurd ha (hfresh p fn' hobj)
      · cases hobj'
      · exact hok.inj p fn' p' fn'' a hobj hobj' ha ha'

end Heap.Grows

/-- What happens while a call is set up: the frames stay, and the local area
below `lo` too. -/
structure Up (lo : Nat) (l l' : Ctx) : Prop where
  info : l'.info = l.info
  jpt : l'.jpt = l.jpt
  global : l'.global = l.global
  loc : ∀ i < lo, l'.loc i = l.loc i
  heap : l.heap.Grows l'.heap

namespace Up

variable {lo : Nat}

theorem refl (l : Ctx) : Up lo l l := ⟨rfl, rfl, rfl, fun _ _ => rfl, .refl _⟩

theorem trans {l₁ l₂ l₃ : Ctx} (h₁ : Up lo l₁ l₂) (h₂ : Up lo l₂ l₃) : Up lo l₁ l₃ :=
  ⟨h₂.info.trans h₁.info, h₂.jpt.trans h₁.jpt, h₂.global.trans h₁.global,
    fun i hi => (h₂.loc i hi).trans (h₁.loc i hi), h₁.heap.trans h₂.heap⟩

theorem of_effect {own arrs : Addr → Prop} {slots : Nat → Prop} {l l' : Ctx}
    (h : Effect own arrs slots l l') (hslots : ∀ i, slots i → lo ≤ i) : Up lo l l' :=
  ⟨h.info, h.jpt, h.global, fun i hi => h.loc i fun hs => Nat.not_le.2 hi (hslots i hs),
    .of_effect h.heap⟩

theorem of_stackOnly {l l' : Ctx} (h : StackOnly l l') : Up lo l l' := by
  rw [h]
  exact ⟨rfl, rfl, rfl, fun _ _ => rfl, .refl _⟩

/-- A computation without effects on functions, arrays and the local area. -/
theorem of_does {α : Type} {x : VmM α}
    (hx : Does (fun _ => False) (fun _ => False) (fun _ => False) x) : Keeps (Up lo) x :=
  hx.mono fun _ _ h => of_effect h fun _ h => h.elim

end Up

section

variable {lo : Nat}

theorem up_argvOf (info : CallInfo) : Keeps (Up lo) (argvOf info) := by
  refine Keeps.bind_of (fun _ _ _ => Up.trans) (Up.of_does (does_funcAt _)) fun l fn l' hfn => ?_
  obtain ⟨hfn, rfl⟩ := funcAt_ok_iff.1 hfn
  cases hargv : fn.argv with
  | some o => exact Up.refl l'
  | none => exact ⟨rfl, rfl, rfl, fun _ _ => rfl, .new_argv hfn hargv⟩

/-- The slot of a local variable is not below its frame. -/
theorem vmLocal_ge {fn : Func} {base i j : Nat} (h : vmLocal fn base i = .ok (.loc j)) :
    base ≤ j := by
  unfold vmLocal at h
  split at h
  · split at h <;> cases h
  · split at h
    · cases h
      exact Nat.le_add_right _ _
    · cases h

theorem up_storeLocal {info : CallInfo} (hlo : lo ≤ info.loc) (i : Nat) (v : Variable) :
    Keeps (Up lo) (storeLocal info i v) := by
  intro l
  cases hfn : l.heap.func info.run with
  | error f =>
      rw [storeLocal, bind_of_error (funcAt_of_error hfn)]
      exact .refl l
  | ok fn =>
      have heffect : Effect (fun o => o = info.run) (fun _ => False) (fun j => info.loc ≤ j) l
          (stateOf (storeLocal info i v l)) :=
        effect_storeLocal v (Heap.func_eq_ok.1 hfn) rfl fun j hj => vmLocal_ge hj
      exact .of_effect heffect fun j hj => hlo.trans hj

theorem up_setLoc {i : Nat} (hlo : lo ≤ i) (v : Variable) : Keeps (Up lo) (setLoc i v) := by
  intro l
  unfold setLoc
  split
  · exact ⟨rfl, rfl, rfl, fun j hj => Function.update_of_ne (by omega) _ _, .refl _⟩
  · exact .refl l

theorem up_copyParams {base : Nat} (hlo : lo ≤ base) (k n : Nat) :
    Keeps (Up lo) (copyParams base k n) := by
  induction n with
  | zero => exact Keeps.pure Up.refl ()
  | succ n ih =>
      exact Keeps.bind (fun _ _ _ => Up.trans) (Up.of_does (does_ymdTop n)) fun v =>
        Keeps.bind (fun _ _ _ => Up.trans) (up_setLoc (Nat.le_add_right_of_le hlo) v) fun _ => ih

theorem up_addArgs (argv : Addr) (n : Nat) : Keeps (Up lo) (addArgs argv n) := by
  induction n with
  | zero => exact Keeps.pure Up.refl ()
  | succ n ih =>
      intro l
      rw [addArgs, bind_of_ok (get_apply l)]
      cases hdyay : l.heap.dyay argv with
      | error f =>
          rw [bind_of_error (check_of_error rfl)]
          exact .refl l
      | ok arr =>
          rw [bind_of_ok (check_of_ok rfl)]
          cases htop : ymdTop n l with
          | error stop l' =>
              rw [bind_of_error htop]
              exact (Up.of_does (does_ymdTop n)).error htop
          | ok v l' =>
              obtain ⟨-, rfl⟩ := ymdTop_ok_iff.1 htop
              rw [bind_of_ok htop, bind_of_ok (storeObj_apply _ _)]
              have hheap : l'.heap.Effect (fun _ => False) (fun _ => True)
                  (l'.heap.set argv (.dyay (arr ++ [v]))) :=
                .set_data (Heap.dyay_eq_ok.1 hdyay) rfl rfl fun _ _ => trivial
              have hstore : Up lo l' { l' with heap := l'.heap.set argv (.dyay (arr ++ [v])) } :=
                ⟨rfl, rfl, rfl, fun _ _ => rfl, .of_effect hheap⟩
              exact hstore.trans (ih _)

theorem up_vmCopyArgs {info : CallInfo} (hlo : lo ≤ info.loc) (n : Nat) :
    Keeps (Up lo) (vmCopyArgs info n) := by
  refine Keeps.bind (fun _ _ _ => Up.trans) (up_argvOf info) fun argv => ?_
  refine Keeps.bind (fun _ _ _ => Up.trans) (Up.of_does (does_funcAt _)) fun fn => ?_
  cases fn.core with
  | none => exact up_addArgs argv n
  | some core =>
      dsimp only
      cases core.findLz (lit "argv") with
      | none => exact Keeps.throw Up.refl _
      | some i =>
          refine Keeps.bind (fun _ _ _ => Up.trans) (up_storeLocal hlo i .nil) fun _ => ?_
          refine Keeps.bind (fun _ _ _ => Up.trans) (up_copyParams hlo _ _) fun _ => ?_
          refine Keeps.ite (fun _ => ?_) fun _ => Keeps.pure Up.refl ()
          exact Keeps.bind (fun _ _ _ => Up.trans) (up_addArgs argv n) fun _ =>
            up_storeLocal hlo i _

end

end Ymd
