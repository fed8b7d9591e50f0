import Ymd.Machine.Effect

/-! # Computations apart from the stack

Most of what an instruction computes looks neither at the operand stack nor at the
chain of frames, and leaves both as they are: it commutes with putting other ones in
their place.
-/

namespace Ymd

open Foundation

/-- The machine with another chain of frames and another operand stack. -/
def Ctx.onto (l : Ctx) (infos : List CallInfo) (stk : List Variable) : Ctx :=
  { l with info := infos, stk := stk }

@[simp] theorem Ctx.onto_info (l : Ctx) (infos : List CallInfo) (stk : List Variable) :
    (l.onto infos stk).info = infos := rfl

@[simp] theorem Ctx.onto_stk (l : Ctx) (infos : List CallInfo) (stk : List Variable) :
    (l.onto infos stk).stk = stk := rfl

@[simp] theorem Ctx.onto_heap (l : Ctx) (infos : List CallInfo) (stk : List Variable) :
    (l.onto infos stk).heap = l.heap := rfl

@[simp] theorem Ctx.onto_onto (l : Ctx) (infos infos' : List CallInfo) (stk stk' : List Variable) :
    (l.onto infos stk).onto infos' stk' = l.onto infos' stk' := rfl

/-- A result with another chain and another stack in its state. -/
def ontoResult {α : Type} (infos : List CallInfo) (stk : List Variable) :
    EStateM.Result Stop Ctx α → EStateM.Result Stop Ctx α
  | .ok a l => .ok a (l.onto infos stk)
  | .error e l => .error e (l.onto infos stk)

/-- A computation that has nothing to do with the chain and the stack. -/
def Stackless {α : Type} (x : VmM α) : Prop :=
  ∀ l infos stk, x (l.onto infos stk) = ontoResult infos stk (x l)

section

variable {α β : Type} {x : VmM α} {f : α → VmM β} {env : Env}

theorem Stackless.pure (a : α) : Stackless (pure a : VmM α) := fun _ _ _ => rfl

theorem Stackless.throw (e : Stop) : Stackless (throw e : VmM α) := fun _ _ _ => rfl

theorem Stackless.bind (hx : Stackless x) (hf : ∀ a, Stackless (f a)) : Stackless (x >>= f) := by
  intro l infos stk
  have hfirst := hx l infos stk
  cases hxl : x l with
  | ok a l₁ =>
      rw [hxl] at hfirst
      rw [bind_of_ok hxl, bind_of_ok hfirst]
      exact hf a l₁ infos stk
  | error e l₁ =>
      rw [hxl] at hfirst
      rw [bind_of_error hxl, bind_of_error hfirst]
      rfl

theorem Stackless.ite {c : Prop} [Decidable c] {y : VmM α} (hx : Stackless x) (hy : Stackless y) :
    Stackless (if c then x else y) := by
  split
  · exact hx
  · exact hy

/-- A look at another part of the machine. -/
theorem Stackless.get {f : Ctx → VmM β} (hsame : ∀ l infos stk, f (l.onto infos stk) = f l)
    (hf : ∀ l, Stackless (f l)) : Stackless (MonadState.get >>= f) := by
  intro l infos stk
  rw [bind_of_ok (get_apply l), bind_of_ok (get_apply (l.onto infos stk)), hsame]
  exact hf l l infos stk

theorem Stackless.modify {g : Ctx → Ctx} (hg : ∀ l infos stk, g (l.onto infos stk) = (g l).onto infos stk) :
    Stackless (modify g : VmM PUnit) := by
  intro l infos stk
  rw [modify_apply, modify_apply, hg]
  rfl

/-- The chain and the stack are as they were. -/
theorem Stackless.kept (hx : Stackless x) {l l' : Ctx} {a : α} (h : x l = .ok a l') :
    l'.info = l.info ∧ l'.stk = l.stk := by
  have hsame := hx l l.info l.stk
  rw [show l.onto l.info l.stk = l from rfl, h] at hsame
  have hl' : l' = l'.onto l.info l.stk := by
    injection hsame
  rw [hl']
  exact ⟨rfl, rfl⟩

theorem stackless_lift (y : Partial α) : Stackless (lift y) := by
  cases y with
  | ok a => exact .pure a
  | error e => exact .throw e

theorem stackless_check (y : Except Fault α) : Stackless (check y) := stackless_lift _

theorem stackless_keyOps : Stackless (keyOps env) := .get (fun _ _ _ => rfl) fun _ => .pure _

theorem stackless_storeObj (o : Addr) (obj : Obj) : Stackless (storeObj o obj) :=
  .modify fun _ _ _ => rfl

theorem stackless_gcNew (obj : Obj) : Stackless (gcNew obj) := fun _ _ _ => rfl

theorem stackless_randlv : Stackless randlv := fun _ _ _ => rfl

theorem stackless_hmapGet (o : Addr) (key : Variable) : Stackless (hmapGet env o key) :=
  .get (fun _ _ _ => rfl) fun _ => .bind (stackless_check _) fun _ =>
    .bind stackless_keyOps fun _ => stackless_check _

theorem stackless_sklsGet (o : Addr) (key : Variable) : Stackless (sklsGet env o key) :=
  .get (fun _ _ _ => rfl) fun _ => .bind (stackless_check _) fun _ =>
    .bind stackless_keyOps fun _ => stackless_check _

theorem stackless_hmapPut (o : Addr) (key : Variable) : Stackless (hmapPut env o key) :=
  .get (fun _ _ _ => rfl) fun _ => .bind (stackless_check _) fun _ =>
    .bind stackless_keyOps fun _ => .bind (stackless_check _) fun _ =>
      .bind (stackless_storeObj _ _) fun _ => .pure _

theorem stackless_sklsPut (o : Addr) (key : Variable) : Stackless (sklsPut env o key) :=
  .get (fun _ _ _ => rfl) fun _ => .bind (stackless_check _) fun _ =>
    .bind stackless_keyOps fun _ => .bind stackless_randlv fun _ =>
      .bind (stackless_check _) fun _ => .bind (stackless_storeObj _ _) fun _ => .pure _

theorem stackless_protoOf (o : Addr) : Stackless (protoOf o) := by
  refine .get (fun _ _ _ => rfl) fun l => .bind (stackless_check _) fun m => ?_
  cases m.proto with
  | none => exact .throw _
  | some proto =>
      dsimp only
      cases l.heap.obj proto with
      | none => exact .throw _
      | some obj => exact .pure _

theorem stackless_vmGetOn (var key : Variable) : Stackless (vmGetOn env var key) := by
  cases var with
  | skls o => exact stackless_sklsGet o key
  | hmap o => exact stackless_hmapGet o key
  | dyay o =>
      exact .get (fun _ _ _ => rfl) fun _ => .bind (stackless_check _) fun _ =>
        .bind (stackless_lift _) fun _ => .ite (.throw _) (.pure _)
  | mand o =>
      refine .bind (stackless_protoOf o) fun proto => ?_
      obtain ⟨a, obj⟩ := proto
      cases obj with
      | hmap map => exact stackless_hmapGet a key
      | skls list => exact stackless_sklsGet a key
      | func fn => exact .throw _
      | dyay elem => exact .throw _
      | mand m => exact .throw _
  | nil => exact .throw _
  | int i => exact .throw _
  | bool i => exact .throw _
  | ext p => exact .throw _
  | kstr z => exact .throw _
  | func o => exact .throw _

theorem stackless_vmGet (var key : Variable) : Stackless (vmGet env var key) :=
  .ite (.bind (.throw _) fun _ => stackless_vmGetOn var key) (stackless_vmGetOn var key)

theorem stackless_checkValue (v : Variable) : Stackless (checkValue v) := .ite (.throw _) (.pure _)

theorem stackless_checkPair (k v : Variable) : Stackless (checkPair k v) :=
  .ite (.bind (stackless_checkValue k) fun _ => stackless_checkValue v) (stackless_checkValue v)

theorem stackless_funcAt (o : Addr) : Stackless (funcAt o) :=
  .get (fun _ _ _ => rfl) fun _ => stackless_check _

theorem stackless_loadLocal (info : CallInfo) (i : Nat) : Stackless (loadLocal info i) := by
  refine .bind (stackless_funcAt _) fun fn => .bind (stackless_check _) fun slot => ?_
  cases slot with
  | bind i => exact .pure _
  | loc i => exact .get (fun _ _ _ => rfl) fun _ => .pure _

theorem stackless_vmMatch (lhs pattern : Bytes) : Stackless (vmMatch env lhs pattern) := by
  unfold vmMatch
  cases env.regex lhs pattern with
  | ok b => exact .pure b
  | error msg => exact .throw _

theorem stackless_opTest (flag : BitVec 8) (rhs lhs : Variable) : Stackless (opTest env flag rhs lhs) := by
  have htest : ∀ {α : Type} (x : Except Fault α) (g : α → Bool),
      Stackless (do return boolVar (g (← check x)) : VmM Variable) := fun x g =>
    .bind (stackless_check x) fun _ => .pure _
  refine .bind stackless_keyOps fun ops => ?_
  refine .ite (htest _ id) (.ite (htest _ Bool.not) ?_)
  refine .ite (htest _ _) (.ite (htest _ _) (.ite (htest _ _) (.ite (htest _ _) ?_)))
  exact .ite (.bind (stackless_lift _) fun _ => .bind (stackless_lift _) fun _ =>
    .bind (stackless_vmMatch _ _) fun _ => .pure _) (.throw _)

theorem stackless_setLoc (i : Nat) (v : Variable) : Stackless (setLoc i v) :=
  .ite (.modify fun _ _ _ => rfl) (.throw _)

theorem stackless_storeLocal (info : CallInfo) (i : Nat) (v : Variable) :
    Stackless (storeLocal info i v) := by
  refine .bind (stackless_funcAt _) fun fn => .bind (stackless_check _) fun slot => ?_
  cases slot with
  | bind i => exact stackless_storeObj _ _
  | loc i => exact stackless_setLoc i v

theorem stackless_hmapIput (o : Addr) (key v : Variable) : Stackless (hmapIput env o key v) :=
  .bind (stackless_hmapPut o key) fun _ => .bind (stackless_checkValue v) fun _ => stackless_storeObj _ _

theorem stackless_sklsIput (o : Addr) (key v : Variable) : Stackless (sklsIput env o key v) :=
  .bind (stackless_sklsPut o key) fun _ => .bind (stackless_checkValue v) fun _ => stackless_storeObj _ _

theorem stackless_dyayIput (o : Addr) (key v : Variable) : Stackless (dyayIput o key v) :=
  .get (fun _ _ _ => rfl) fun _ => .bind (stackless_check _) fun _ =>
    .bind (stackless_lift _) fun _ => .ite (.throw _) <|
      .bind (stackless_checkValue v) fun _ => stackless_storeObj _ _

theorem stackless_vmIputOn (var key v : Variable) : Stackless (vmIputOn env var key v) := by
  cases var with
  | skls o => exact stackless_sklsIput o key v
  | hmap o => exact stackless_hmapIput o key v
  | dyay o => exact stackless_dyayIput o key v
  | mand o =>
      refine .bind (stackless_protoOf o) fun proto => ?_
      obtain ⟨a, obj⟩ := proto
      cases obj with
      | hmap map => exact stackless_hmapIput a key v
      | skls list => exact stackless_sklsIput a key v
      | func fn => exact .throw _
      | dyay elem => exact .throw _
      | mand m => exact .throw _
  | nil => exact .throw _
  | int i => exact .throw _
  | bool i => exact .throw _
  | ext p => exact .throw _
  | kstr z => exact .throw _
  | func o => exact .throw _

theorem stackless_vmIput (var key v : Variable) : Stackless (vmIput env var key v) :=
  .ite (.bind (.throw _) fun _ => stackless_vmIputOn var key v) (stackless_vmIputOn var key v)

end

end Ymd
