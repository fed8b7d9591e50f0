import Ymd.Foundation.Runs
import Ymd.Machine.Call

/-! # Runs that can be computed

Whether a step can happen is decidable, so that a list of steps can be made one
after another.
-/

namespace Ymd

open Foundation

instance (l : Ctx) : (a : Act) → Decidable (a.Enabled l)
  | .exec => inferInstanceAs (Decidable (_ = true))
  | .prim _ => inferInstanceAs (Decidable (_ ∨ _))
  | .call .root _ _ => inferInstanceAs (Decidable (_ ∨ _))
  | .call .native _ _ => inferInstanceAs (Decidable (_ = true))
  | .call .pcall _ _ => inferInstanceAs (Decidable (_ = true))
  | .call (.exec _) _ _ => inferInstanceAs (Decidable False)
  | .ret _ => inferInstanceAs (Decidable (_ = true))
  | .panic _ => inferInstanceAs (Decidable (_ = true))
  | .error => inferInstanceAs (Decidable (_ = true))
  | .exit => inferInstanceAs (Decidable (_ = true))

variable (env : Env) {l : Ctx}

/-- The steps of the list, unless there is no such step or the machine crashes. -/
def execute : List Act → Ctx → Option Ctx
  | [], l => some l
  | a :: acts, l =>
      if a.Enabled l then
        match after env l a with
        | .run l' => execute acts l'
        | .crashed _ => none
      else none

theorem runs_of_execute {acts : List Act} {l' : Ctx} (h : execute env acts l = some l') :
    Runs (Step env) (fun _ _ => True) (.run l) (.run l') := by
  induction acts generalizing l with
  | nil =>
      cases h
      exact .refl
  | cons a acts ih =>
      rw [execute] at h
      by_cases henabled : a.Enabled l
      · rw [if_pos henabled] at h
        cases hafter : after env l a with
        | run l₁ =>
            rw [hafter] at h
            exact (Runs.single trivial ⟨l, rfl, henabled, hafter.symm⟩).trans (ih h)
        | crashed f =>
            rw [hafter] at h
            cases h
      · rw [if_neg henabled] at h
        cases h

theorem runs_execute {acts : List Act} (h : (execute env acts l).isSome = true) :
    Runs (Step env) (fun _ _ => True) (.run l) (.run ((execute env acts l).getD l)) := by
  obtain ⟨l', hl'⟩ := Option.isSome_iff_exists.1 h
  rw [hl']
  exact runs_of_execute env hl'

/-- A condition on the steps of a run. -/
def Mach.Guarded (p : Ctx → Act → Prop) (m : Mach) (a : Act) : Prop := ∀ l, m = .run l → p l a

/-- The same with a condition on every step. -/
def executeIf (p : Ctx → Act → Prop) [∀ l a, Decidable (p l a)] : List Act → Ctx → Option Ctx
  | [], l => some l
  | a :: acts, l =>
      if p l a ∧ a.Enabled l then
        match after env l a with
        | .run l' => executeIf p acts l'
        | .crashed _ => none
      else none

theorem runs_of_executeIf {p : Ctx → Act → Prop} [∀ l a, Decidable (p l a)] {acts : List Act}
    {l' : Ctx} (h : executeIf env p acts l = some l') :
    Runs (Step env) (Mach.Guarded p) (.run l) (.run l') := by
  induction acts generalizing l with
  | nil =>
      cases h
      exact .refl
  | cons a acts ih =>
      rw [executeIf] at h
      by_cases hboth : p l a ∧ a.Enabled l
      · rw [if_pos hboth] at h
        have hguard : Mach.Guarded p (.run l) a := by
          rintro _ ⟨⟩
          exact hboth.1
        cases hafter : after env l a with
        | run l₁ =>
            rw [hafter] at h
            exact (Runs.single hguard ⟨l, rfl, hboth.2, hafter.symm⟩).trans (ih h)
        | crashed f =>
            rw [hafter] at h
            cases h
      · rw [if_neg hboth] at h
        cases h

theorem runs_executeIf {p : Ctx → Act → Prop} [∀ l a, Decidable (p l a)] {acts : List Act}
    (h : (executeIf env p acts l).isSome = true) :
    Runs (Step env) (Mach.Guarded p) (.run l) (.run ((executeIf env p acts l).getD l)) := by
  obtain ⟨l', hl'⟩ := Option.isSome_iff_exists.1 h
  rw [hl']
  exact runs_of_executeIf env hl'

/-- The state of a machine that has not crashed. -/
def Mach.ctx : Mach → Option Ctx
  | .run l => some l
  | .crashed _ => none

theorem step_of_ctx {a : Act} {l₁ : Ctx} (henabled : a.Enabled l)
    (h : (after env l a).ctx = some l₁) : Step env (.run l) a (.run l₁) := by
  refine ⟨l, rfl, henabled, ?_⟩
  cases hafter : after env l a with
  | run l₂ =>
      rw [hafter] at h
      cases h
      rfl
  | crashed f =>
      rw [hafter] at h
      cases h

theorem initial_initial (levels : Nat → Nat) : (Ctx.initial levels).Initial where
  info := rfl
  loc := fun _ => rfl
  stk := rfl
  jpt := rfl
  data := by
    intro o fn hfn
    by_cases ho : o = 0
    · subst ho
      cases hfn
    · rw [Ctx.initial, Heap.obj_alloc_of_ne ho] at hfn
      cases hfn

/-- Whether a computation ends without an error. -/
def succeeds : EStateM.Result Stop Ctx Unit → Bool
  | .ok _ _ => true
  | .error _ _ => false

theorem eq_ok_of_succeeds {x : EStateM.Result Stop Ctx Unit} (h : succeeds x = true) :
    x = .ok () (stateOf x) := by
  cases x with
  | ok u l => rfl
  | error stop l => cases h

/-- The code of a function, the number of its bound values, and its array. -/
def Heap.header (heap : Heap) (o : Addr) : Option (Option Chunk × Nat × Option Addr) :=
  (heap.func o).toOption.map fun fn => (fn.core, fn.nBind, fn.argv)

theorem mem_toOption_func {heap : Heap} {o : Addr} {fn : Func} :
    fn ∈ (heap.func o).toOption ↔ heap.obj o = some (.func fn) := by
  rw [← Heap.func_eq_ok]
  cases heap.func o with
  | ok fn' => exact ⟨fun h => congrArg _ (Option.some.inj h), fun h => congrArg _ (Except.ok.inj h)⟩
  | error f => exact ⟨nofun, nofun⟩

theorem Heap.func_of_header {heap : Heap} {o : Addr} {core : Option Chunk} {n : Nat}
    {argv : Option Addr} (h : heap.header o = some (core, n, argv)) :
    ∃ fn, heap.obj o = some (.func fn) ∧ fn.core = core ∧ fn.nBind = n ∧ fn.argv = argv := by
  obtain ⟨fn, hfn, heq⟩ := Option.map_eq_some_iff.1 h
  cases heq
  exact ⟨fn, mem_toOption_func.1 hfn, rfl, rfl, rfl⟩

/-- The function that runs is an object. -/
theorem func_of_running {α : Type} {f : Func → α} {a : α} {info : CallInfo} {chain : List CallInfo}
    (hinfo : l.info = info :: chain) (h : l.running.map f = some a) :
    ∃ fn, l.heap.obj info.run = some (.func fn) ∧ f fn = a := by
  rw [Ctx.running, hinfo] at h
  dsimp only at h
  cases hfunc : l.heap.func info.run with
  | error e =>
      rw [hfunc] at h
      cases h
  | ok fn =>
      rw [hfunc] at h
      exact ⟨fn, Heap.func_eq_ok.1 hfunc, Option.some.inj h⟩

theorem enabled_exec {info : CallInfo} {chain : List CallInfo} {fn : Func} {core : Chunk}
    (hinfo : l.info = info :: chain) (hfn : l.heap.obj info.run = some (.func fn))
    (hcore : fn.core = some core) : Act.exec.Enabled l := by
  change l.running.any _ = true
  rw [Ctx.running, hinfo]
  dsimp only
  rw [Heap.func_eq_ok.2 hfn]
  change fn.core.isSome = true
  rw [hcore]
  rfl

/-- An environment for scripts that match no patterns. -/
def quietEnv : Env := ⟨1, fun _ _ => .ok false⟩

end Ymd
