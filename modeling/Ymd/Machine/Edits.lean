import Ymd.Machine.Delivery

/-! # What the steps write

The bound values, the arrays and the slots of the local area that a step writes to,
calls and returns included. Everything else is as it was.
-/

namespace Ymd

open Foundation

/-! ## Objects -/

/-- Bound values and arrays are as they were, but for those in `own` and `arrs`. -/
structure Heap.Edit (own : Addr → Nat → Prop) (arrs : Addr → Prop) (heap heap' : Heap) : Prop where
  func : ∀ o fn, heap.obj o = some (.func fn) → ∃ fn', heap'.obj o = some (.func fn') ∧
    fn'.core = fn.core ∧ fn'.nBind = fn.nBind ∧ ∀ j, ¬ own o j → fn'.bind[j]? = fn.bind[j]?
  dyay : ∀ o elem, heap.obj o = some (.dyay elem) → ∃ elem', heap'.obj o = some (.dyay elem') ∧
    (¬ arrs o → elem' = elem)

namespace Heap.Edit

variable {own own' : Addr → Nat → Prop} {arrs arrs' : Addr → Prop} {heap heap' heap'' : Heap}

theorem refl (heap : Heap) : heap.Edit own arrs heap where
  func := fun _ fn hfn => ⟨fn, hfn, rfl, rfl, fun _ _ => rfl⟩
  dyay := fun _ elem helem => ⟨elem, helem, fun _ => rfl⟩

theorem trans (h₁ : heap.Edit own arrs heap') (h₂ : heap'.Edit own arrs heap'') :
    heap.Edit own arrs heap'' where
  func := by
    intro o fn hfn
    obtain ⟨fn', hfn', hcore, hnum, hbind⟩ := h₁.func o fn hfn
    obtain ⟨fn'', hfn'', hcore', hnum', hbind'⟩ := h₂.func o fn' hfn'
    exact ⟨fn'', hfn'', hcore'.trans hcore, hnum'.trans hnum,
      fun j hj => (hbind' j hj).trans (hbind j hj)⟩
  dyay := by
    intro o elem helem
    obtain ⟨elem', helem', hsame⟩ := h₁.dyay o elem helem
    obtain ⟨elem'', helem'', hsame'⟩ := h₂.dyay o elem' helem'
    exact ⟨elem'', helem'', fun ho => (hsame' ho).trans (hsame ho)⟩

theorem mono (hown : ∀ o j, own o j → own' o j) (harrs : ∀ o, arrs o → arrs' o)
    (h : heap.Edit own arrs heap') : heap.Edit own' arrs' heap' where
  func := by
    intro o fn hfn
    obtain ⟨fn', hfn', hcore, hnum, hbind⟩ := h.func o fn hfn
    exact ⟨fn', hfn', hcore, hnum, fun j hj => hbind j fun hj' => hj (hown o j hj')⟩
  dyay := by
    intro o elem helem
    obtain ⟨elem', helem', hsame⟩ := h.dyay o elem helem
    exact ⟨elem', helem', fun ho => hsame fun ho' => ho (harrs o ho')⟩

/-- An effect on all bound values of some functions. -/
theorem of_effect {funcs : Addr → Prop} (h : heap.Effect funcs arrs heap') :
    heap.Edit (fun o _ => funcs o) arrs heap' where
  func := by
    intro o fn hfn
    obtain ⟨fn', hfn', hcore, hnum, -, hsame⟩ := h.func o fn hfn
    exact ⟨fn', hfn', hcore, hnum, fun j hj => by rw [hsame hj]⟩
  dyay := h.dyay

/-- A function with the same code, and with other bound values where they may be. -/
theorem set_func {o : Addr} {fn fn' : Func} (hfn : heap.obj o = some (.func fn))
    (hcore : fn'.core = fn.core) (hnum : fn'.nBind = fn.nBind)
    (hbind : ∀ j, ¬ own o j → fn'.bind[j]? = fn.bind[j]?) :
    heap.Edit own arrs (heap.set o (.func fn')) where
  func := by
    intro a fn₁ hfn₁
    by_cases hne : a = o
    · subst hne
      rw [hfn] at hfn₁
      cases hfn₁
      exact ⟨fn', obj_set_self hfn, hcore, hnum, hbind⟩
    · exact ⟨fn₁, (obj_set_of_ne hne).trans hfn₁, rfl, rfl, fun _ _ => rfl⟩
  dyay := by
    intro a elem helem
    have hne : a ≠ o := by
      rintro rfl
      rw [hfn] at helem
      cases helem
    exact ⟨elem, (obj_set_of_ne hne).trans helem, fun _ => rfl⟩

theorem set_same {o : Addr} {obj : Obj} (hobj : heap.obj o = some obj) :
    heap.Edit own arrs (heap.set o obj) := by
  have hsame : ∀ a, (heap.set o obj).obj a = heap.obj a := by
    intro a
    by_cases hne : a = o
    · subst hne
      exact (obj_set_self hobj).trans hobj.symm
    · exact obj_set_of_ne hne
  exact ⟨fun a fn hfn => ⟨fn, (hsame a).trans hfn, rfl, rfl, fun _ _ => rfl⟩,
    fun a elem helem => ⟨elem, (hsame a).trans helem, fun _ => rfl⟩⟩

theorem alloc (obj : Obj) : heap.Edit own arrs (heap.alloc obj).1 where
  func := fun _ fn hfn => ⟨fn, obj_alloc_of_some hfn, rfl, rfl, fun _ _ => rfl⟩
  dyay := fun _ elem helem => ⟨elem, obj_alloc_of_some helem, fun _ => rfl⟩

end Heap.Edit

/-! ## The machine -/

/-- Bound values, arrays and the local area are as they were, but for those named. -/
structure Edit (own : Addr → Nat → Prop) (arrs : Addr → Prop) (slots : Nat → Prop) (l l' : Ctx) :
    Prop where
  loc : ∀ i, ¬ slots i → l'.loc i = l.loc i
  heap : l.heap.Edit own arrs l'.heap

section

variable {own own' : Addr → Nat → Prop} {arrs arrs' : Addr → Prop} {slots slots' : Nat → Prop}
  {l l' l'' : Ctx}

theorem Edit.refl (l : Ctx) : Edit own arrs slots l l := ⟨fun _ _ => rfl, .refl _⟩

theorem Edit.trans (h₁ : Edit own arrs slots l l') (h₂ : Edit own arrs slots l' l'') :
    Edit own arrs slots l l'' :=
  ⟨fun i hi => (h₂.loc i hi).trans (h₁.loc i hi), h₁.heap.trans h₂.heap⟩

theorem Edit.mono (hown : ∀ o j, own o j → own' o j) (harrs : ∀ o, arrs o → arrs' o)
    (hslots : ∀ i, slots i → slots' i) (h : Edit own arrs slots l l') :
    Edit own' arrs' slots' l l' :=
  ⟨fun i hi => h.loc i fun hi' => hi (hslots i hi'), h.heap.mono hown harrs⟩

theorem Edit.of_effect {funcs : Addr → Prop} (h : Effect funcs arrs slots l l') :
    Edit (fun o _ => funcs o) arrs slots l l' :=
  ⟨h.loc, .of_effect h.heap⟩

/-- The state behind differs elsewhere. -/
theorem Edit.of_same (h : Edit own arrs slots l l') (hloc : l''.loc = l'.loc)
    (hheap : l''.heap = l'.heap) : Edit own arrs slots l l'' :=
  ⟨fun i hi => by rw [hloc]; exact h.loc i hi, hheap ▸ h.heap⟩

/-- One computation after another. -/
theorem Edit.bind {α β : Type} {x : VmM α} {f : α → VmM β}
    (hx : Edit own arrs slots l (stateOf (x l)))
    (hf : ∀ a l₁, x l = .ok a l₁ → Edit own arrs slots l l₁ →
      Edit own arrs slots l₁ (stateOf (f a l₁))) :
    Edit own arrs slots l (stateOf ((x >>= f) l)) := by
  cases hrun : x l with
  | ok a l₁ =>
      rw [hrun] at hx
      rw [bind_of_ok hrun]
      exact hx.trans (hf a l₁ hrun hx)
  | error stop l₁ =>
      rw [hrun] at hx
      rw [bind_of_error hrun]
      exact hx

/-- A computation that writes to nothing. -/
theorem Edit.of_does {α : Type} {x : VmM α}
    (hx : Does (fun _ => False) (fun _ => False) (fun _ => False) x) (l : Ctx) :
    Edit own arrs slots l (stateOf (x l)) :=
  (Edit.of_effect (hx l)).mono (fun _ _ h => h.elim) (fun _ h => h.elim) fun _ h => h.elim

/-! ## The arguments of a call -/

/-- A function has the array that its arguments go to. -/
theorem argvOf_apply {info : CallInfo} {fn : Func} (hfn : l.heap.obj info.run = some (.func fn)) :
    ∃ l₁, argvOf info l = .ok (l.heap.argvAddr fn) l₁ ∧ Edit own arrs slots l l₁ := by
  rw [argvOf, bind_of_ok (funcAt_of_obj hfn), Heap.argvAddr]
  cases hargv : fn.argv with
  | some o => exact ⟨l, rfl, .refl l⟩
  | none =>
      have hset : (l.heap.alloc (.dyay [])).1.Edit own arrs ((l.heap.alloc (.dyay [])).1.set info.run
          (.func { fn with argv := some l.heap.next })) :=
        .set_func (Heap.obj_alloc_of_some hfn) rfl rfl fun _ _ => rfl
      exact ⟨_, rfl, fun _ _ => rfl, (Heap.Edit.alloc (.dyay [])).trans hset⟩

theorem edit_setLoc {i : Nat} (hi : slots i) (v : Variable) (l : Ctx) :
    Edit own arrs slots l (stateOf (setLoc i v l)) := by
  unfold setLoc
  split
  · refine ⟨fun j hj => Function.update_of_ne ?_ _ _, .refl _⟩
    rintro rfl
    exact hj hi
  · exact .refl l

theorem edit_copyParams {base k n : Nat} (hn : n ≤ k)
    (hslots : ∀ j, base ≤ j → j < base + k → slots j) (l : Ctx) :
    Edit own arrs slots l (stateOf (copyParams base k n l)) := by
  induction n generalizing l with
  | zero => exact .refl l
  | succ n ih =>
      refine .bind (.of_does (does_ymdTop n) l) fun v l₁ _ _ => ?_
      refine .bind (edit_setLoc (hslots _ ?_ ?_) v l₁) fun _ l₂ _ _ => ih (Nat.le_of_succ_le hn) l₂
      · exact Nat.le_add_right _ _
      · omega

theorem edit_addArgs {argv : Addr} {n : Nat} (hargv : 0 < n → arrs argv) (l : Ctx) :
    Edit own arrs slots l (stateOf (addArgs argv n l)) := by
  induction n generalizing l with
  | zero => exact .refl l
  | succ n ih =>
      have hwritten := hargv n.succ_pos
      rw [addArgs, bind_of_ok (get_apply l)]
      cases hdyay : l.heap.dyay argv with
      | error f =>
          rw [bind_of_error (check_of_error rfl)]
          exact .refl l
      | ok arr =>
          rw [bind_of_ok (check_of_ok rfl)]
          refine .bind (.of_does (does_ymdTop n) l) fun v l₁ htop _ => ?_
          obtain ⟨-, rfl⟩ := ymdTop_ok_iff.1 htop
          rw [bind_of_ok (storeObj_apply _ _)]
          have hstore : Effect (fun _ => False) arrs (fun _ => False) l₁
              { l₁ with heap := l₁.heap.set argv (.dyay (arr ++ [v])) } :=
            effect_storeObj (Heap.dyay_eq_ok.1 hdyay) rfl rfl fun _ _ => hwritten
          have hfirst : Edit own arrs slots l₁ { l₁ with heap := l₁.heap.set argv (.dyay (arr ++ [v])) } :=
            (Edit.of_effect hstore).mono (fun _ _ h => h.elim) (fun _ h => h) fun _ h => h.elim
          exact hfirst.trans (ih (fun _ => hwritten) _)

/-- A store through `vm_local` goes to a bound value or to the window of the frame. -/
theorem edit_storeLocal {info : CallInfo} {fn : Func} {i : Nat}
    (hfn : l.heap.obj info.run = some (.func fn)) (hown : i < fn.nBind → own info.run i)
    (hslots : fn.nBind ≤ i → info.loc + (i - fn.nBind) < maxLocal →
      slots (info.loc + (i - fn.nBind))) (v : Variable) :
    Edit own arrs slots l (stateOf (storeLocal info i v l)) := by
  rw [storeLocal, bind_of_ok (funcAt_of_obj hfn)]
  unfold vmLocal
  split
  next hi =>
    split
    · refine ⟨fun _ _ => rfl, .set_func hfn rfl rfl fun j hj => ?_⟩
      have hij : i ≠ j := by
        rintro rfl
        exact hj (hown hi)
      exact List.getElem?_set_ne hij
    · exact .refl l
  next hi =>
    split
    next hroom => exact edit_setLoc (hslots (Nat.not_lt.1 hi) hroom) v l
    next => exact .refl l

/-- The copy of the arguments writes to the place of `argv`, to the slots of the
parameters and to the array. -/
theorem edit_vmCopyArgs {info : CallInfo} {n : Nat}
    (hown : ∀ fn core i, l.heap.obj info.run = some (.func fn) → fn.core = some core →
      core.findLz (lit "argv") = some i → i < fn.nBind → own info.run i)
    (harrs : ∀ fn, l.heap.obj info.run = some (.func fn) → 0 < n → arrs (l.heap.argvAddr fn))
    (hslots : ∀ fn core i, l.heap.obj info.run = some (.func fn) → fn.core = some core →
      core.findLz (lit "argv") = some i → fn.nBind ≤ i → slots (info.loc + (i - fn.nBind)))
    (hparams : ∀ fn core j, l.heap.obj info.run = some (.func fn) → fn.core = some core →
      info.loc ≤ j → j < info.loc + min core.kargs n → slots j) :
    Edit own arrs slots l (stateOf (vmCopyArgs info n l)) := by
  cases hfunc : l.heap.func info.run with
  | error f =>
      have hfail : argvOf info l = .error (.fault f) l := bind_of_error (funcAt_of_error hfunc)
      rw [vmCopyArgs, bind_of_error hfail]
      exact .refl l
  | ok fn =>
      have hfn := Heap.func_eq_ok.1 hfunc
      obtain ⟨l₁, hargv, hedit⟩ := @argvOf_apply own arrs slots _ _ _ hfn
      rw [vmCopyArgs, bind_of_ok hargv]
      refine hedit.trans ?_
      obtain ⟨fn₁, hfn₁, hcore₁, hnum₁, -⟩ := hedit.heap.func _ _ hfn
      rw [bind_of_ok (funcAt_of_obj hfn₁), hcore₁]
      cases hcore : fn.core with
      | none => exact edit_addArgs (harrs fn hfn) l₁
      | some core =>
          dsimp only
          cases hfind : core.findLz (lit "argv") with
          | none => exact .refl l₁
          | some i =>
              -- a store to `argv` in a state in which the function is as wide as before
              have hstore : ∀ v l₂, Edit own arrs slots l₁ l₂ →
                  Edit own arrs slots l₂ (stateOf (storeLocal info i v l₂)) := by
                intro v l₂ hto
                obtain ⟨fn₂, hfn₂, -, hnum₂, -⟩ := hto.heap.func _ _ hfn₁
                have hnum := hnum₂.trans hnum₁
                refine edit_storeLocal hfn₂ ?_ ?_ v
                · rw [hnum]
                  exact hown fn core i hfn hcore hfind
                · rw [hnum]
                  exact fun hge _ => hslots fn core i hfn hcore hfind hge
              refine .bind (hstore .nil l₁ (.refl l₁)) fun _ l₂ _ h₂ => ?_
              refine .bind (edit_copyParams le_rfl (fun j => hparams fn core j hfn hcore) l₂)
                fun _ l₃ _ h₃ => ?_
              split
              · refine .bind (edit_addArgs (harrs fn hfn) l₃) fun _ l₄ _ h₄ => ?_
                exact hstore _ l₄ ((h₂.trans h₃).trans h₄)
              · exact .refl l₃

/-! ## Instructions -/

/-- A store to a local variable assigns that one. -/
theorem edit_stored (env : Env) {info : CallInfo} {fn : Func} (core : Chunk) {flag : BitVec 8}
    {param : Nat} (hfn : l.heap.obj info.run = some (.func fn))
    (hown : flag = Flag.loc → param < fn.nBind → own info.run param)
    (hslots : flag = Flag.loc → ∀ j, vmLocal fn info.loc param = .ok (.loc j) → slots j) :
    Edit own arrs slots l (stateOf (stored env info core flag param l)) := by
  unfold stored
  by_cases hloc : flag = Flag.loc
  · rw [if_pos hloc]
    refine .bind (.of_does (does_ymdTop 0) l) fun v l₁ htop _ => ?_
    obtain ⟨-, rfl⟩ := ymdTop_ok_iff.1 htop
    refine edit_storeLocal hfn (hown hloc) (fun hge hroom => hslots hloc _ ?_) v
    rw [vmLocal, if_neg (Nat.not_lt.2 hge), if_pos hroom]
    rfl
  · rw [if_neg hloc]
    exact .of_does (Does.ite (Does.bind (does_ymdTop 0) fun v => does_vmIputg env core param v)
      (Does.pure ())) l

/-- The bound value that an instruction of the running function assigns. -/
def Ctx.BodyAssigns (l : Ctx) (o : Addr) (j : Nat) : Prop :=
  ∃ info ∈ l.info.head?, o = info.run ∧ ∃ inst ∈ l.inst, asmOp inst = Opcode.store.code ∧
    localOperand inst = some j

/-- The slot that an instruction of the running function stores to. -/
def Ctx.BodyStores (l : Ctx) (j : Nat) : Prop :=
  ∃ info ∈ l.info.head?, ∃ fn, l.heap.obj info.run = some (.func fn) ∧ ∃ inst ∈ l.inst,
    asmOp inst = Opcode.store.code ∧ ∃ i, localOperand inst = some i ∧
      vmLocal fn info.loc i = .ok (.loc j)

theorem edit_execInst (env : Env) (l : Ctx) : Edit l.BodyAssigns (Act.Writes l .exec)
    l.BodyStores l (stateOf (execInst env l)) := by
  rcases execInst_cases env l with ⟨f, hfail⟩ | hend |
    ⟨info, chain, fn, core, inst, op, hinfo, hfn, -, hinst, hop, hexec⟩
  · rw [hfail]
    exact .refl l
  · rw [hend]
    exact .refl l
  · have hhead : info ∈ l.info.head? := by rw [hinfo]; rfl
    rw [hexec]
    by_cases hstore : op = .store
    · subst hstore
      have hlocal : asmFlag inst = Flag.loc → localOperand inst = some (asmParam inst).toNat :=
        fun hflag => if_pos ⟨.inr hop, hflag⟩
      refine .bind (edit_stored env core hfn ?_ ?_) fun _ l₁ _ _ => ?_
      · exact fun hflag _ => ⟨info, hhead, rfl, inst, hinst, hop, hlocal hflag⟩
      · exact fun hflag j hj => ⟨info, hhead, fn, hfn, inst, hinst, hop, _, hlocal hflag, hj⟩
      · exact .of_does (Does.bind (does_ymdPop 1) fun _ => Does.pure _) l₁
    · have heffect : Effect (fun _ => False) (Act.Writes l .exec) l.BodyStores l
          (stateOf (execOp env info fn core op inst l)) :=
        effect_execOp env core hop hfn (fun h => absurd h hstore) (fun h => absurd h hstore)
          fun o ho => ⟨inst, hinst, ho⟩
      exact (Edit.of_effect heffect).mono (fun _ _ h => h.elim) (fun _ h => h) fun _ h => h

/-! ## Calls -/

/-- The bound value that is named `argv`. -/
def Ctx.CallAssigns (l : Ctx) (c : Call) (o : Addr) (j : Nat) : Prop :=
  o = c.fn ∧ ∃ fn core, l.heap.obj o = some (.func fn) ∧ fn.core = some core ∧
    core.findLz (lit "argv") = some j ∧ j < fn.nBind

/-- The array of the function that is called, if there are arguments. -/
def Ctx.CallWrites (l : Ctx) (c : Call) (o : Addr) : Prop :=
  0 < c.args ∧ ∃ fn, l.heap.obj c.fn = some (.func fn) ∧ o = l.heap.argvAddr fn

/-- The slots that are cleared, those of the parameters, and the one of `argv`. -/
def Ctx.CallStores (l : Ctx) (c : Call) (j : Nat) : Prop :=
  ∃ base clear, l.Begins c base clear ∧ base ≤ j ∧ (j < base + clear ∨
    ∃ fn core, l.heap.obj c.fn = some (.func fn) ∧ fn.core = some core ∧
      (j < base + min core.kargs c.args ∨
        core.findLz (lit "argv") = some (fn.nBind + (j - base))))

theorem edit_enter (l : Ctx) (c : Call) : (∃ f l₁, enter c l = .error (.fault f) l₁) ∨
    Edit (l.CallAssigns c) (l.CallWrites c) (l.CallStores c) l (stateOf (enter c l)) := by
  rcases enter_eq l c with hfail | ⟨base, clear, hbegins, heq⟩
  · exact .inl hfail
  · rw [heq]
    have hclear : Edit (l.CallAssigns c) (l.CallWrites c) (l.CallStores c) l
        { l.cleared base clear with jpt := l.handlersIn c.kont } := by
      refine ⟨fun j hj => if_neg fun hin => hj ?_, .refl _⟩
      exact ⟨base, clear, hbegins, hin.1, .inl hin.2⟩
    refine .inr (hclear.trans ?_)
    rw [vmCall, bind_of_ok (get_apply _), bind_of_ok (set_apply _ _)]
    have hpushed : Edit (l.CallAssigns c) (l.CallWrites c) (l.CallStores c)
        { l.cleared base clear with jpt := l.handlersIn c.kont }
        (Ctx.pushed { l.cleared base clear with jpt := l.handlersIn c.kont } base c) :=
      ⟨fun _ _ => rfl, .refl _⟩
    refine hpushed.trans ?_
    refine .bind (edit_vmCopyArgs ?_ ?_ ?_ ?_) fun _ l₁ _ _ => .of_does (does_ymdPop _) l₁
    · exact fun fn core i hfn hcore hfind hi => ⟨rfl, fn, core, hfn, hcore, hfind, hi⟩
    · exact fun fn hfn hpos => ⟨hpos, fn, hfn, rfl⟩
    · intro fn core i hfn hcore hfind hge
      refine ⟨base, clear, hbegins, Nat.le_add_right _ _, .inr ⟨fn, core, hfn, hcore, .inr ?_⟩⟩
      have hi : fn.nBind + (base + (i - fn.nBind) - base) = i := by omega
      rw [hfind]
      exact congrArg some hi.symm
    · exact fun fn core j hfn hcore hle hlt =>
        ⟨base, clear, hbegins, hle, .inr ⟨fn, core, hfn, hcore, .inl hlt⟩⟩

/-! ## Returns -/

/-- The array of the running function, unless it is empty. -/
def Ctx.ReturnWrites (l : Ctx) (o : Addr) : Prop :=
  l.heap.obj o ≠ some (.dyay []) ∧
    ∃ info ∈ l.info.head?, ∃ fn, l.heap.obj info.run = some (.func fn) ∧ fn.argv = some o

theorem edit_dyayFinal {o : Addr} (l : Ctx) (ho : l.heap.obj o ≠ some (.dyay []) → arrs o) :
    Edit own arrs slots l (stateOf (dyayFinal o l)) := by
  cases hdyay : l.heap.dyay o with
  | error f =>
      rw [dyayFinal, bind_of_ok (get_apply l), hdyay, bind_of_error (check_of_error rfl)]
      exact .refl l
  | ok elem =>
      have helem := Heap.dyay_eq_ok.1 hdyay
      cases elem with
      | cons v rest =>
          have hdoes : Effect (fun _ => False) arrs (fun _ => False) l (stateOf (dyayFinal o l)) :=
            does_dyayFinal (ho (by simp [helem])) l
          exact (Edit.of_effect hdoes).mono (fun _ _ h => h.elim) (fun _ h => h) fun _ h => h.elim
      | nil =>
          rw [dyayFinal, bind_of_ok (get_apply l), hdyay, bind_of_ok (check_of_ok rfl)]
          exact ⟨fun _ _ => rfl, .set_same helem⟩

theorem edit_finalArgv (l : Ctx) : Edit own l.ReturnWrites slots l (stateOf (finalArgv l)) := by
  cases hinfo : l.info with
  | nil =>
      rw [finalArgv, bind_of_error (ymdCalled_of_nil hinfo)]
      exact .refl l
  | cons info chain =>
      rw [finalArgv, bind_of_ok (ymdCalled_of_cons hinfo)]
      cases hfunc : l.heap.func info.run with
      | error f =>
          rw [bind_of_error (funcAt_of_error hfunc)]
          exact .refl l
      | ok fn =>
          have hfn := Heap.func_eq_ok.1 hfunc
          rw [bind_of_ok (funcAt_of_obj hfn)]
          cases hargv : fn.argv with
          | none => exact .refl l
          | some o =>
              have hhead : info ∈ l.info.head? := by rw [hinfo]; rfl
              exact edit_dyayFinal l fun hne => ⟨hne, info, hhead, fn, hfn, hargv⟩

/-- What follows in the caller writes to nothing. -/
theorem edit_resume (kont : Kont) (rv : Int) (l : Ctx) :
    Edit own arrs slots l (stateOf (resume kont rv l)) := by
  cases kont with
  | exec adjust =>
      have hadjust : Does (fun _ => False) (fun _ => False) (fun _ => False) (ymdAdjust adjust rv) :=
        (stackOnly_ymdAdjust adjust rv).mono fun _ _ => .of_stackOnly
      exact .bind (.of_does hadjust l) fun _ l₁ _ _ => ⟨fun _ _ => rfl, .refl _⟩
  | native => exact ⟨fun _ _ => rfl, .refl _⟩
  | pcall => exact ⟨fun _ _ => rfl, .refl _⟩
  | root => exact ⟨fun _ _ => rfl, .refl _⟩

theorem edit_leave (rv : Int) (l : Ctx) : (∃ f l₁, leave rv l = .error (.fault f) l₁) ∨
    Edit own l.ReturnWrites slots l (stateOf (leave rv l)) := by
  rcases leave_cases rv l with hfail | ⟨info, chain, l₁, hinfo, hfinal, heq⟩
  · exact .inl hfail
  · have hedit : Edit own l.ReturnWrites slots l (stateOf (finalArgv l)) := edit_finalArgv l
    have hpopped : Edit own l.ReturnWrites slots l₁ { l₁ with info := chain } :=
      ⟨fun _ _ => rfl, .refl _⟩
    rw [hfinal] at hedit
    rw [heq]
    refine .inr ((hedit.trans hpopped).trans ?_)
    exact edit_resume info.kont rv _

/-- The running function had its array before the instruction. -/
theorem Ctx.ReturnWrites.of_effect {funcs : Addr → Prop} {o : Addr}
    (heffect : Effect funcs arrs slots l l') (h : l'.ReturnWrites o) : l.ReturnWrites o ∨ arrs o := by
  obtain ⟨hfull, info, hhead, fn, hfn, hargv⟩ := h
  rw [heffect.info] at hhead
  rcases heffect.heap.made _ _ hfn with ⟨fn₀, hfn₀⟩ | ⟨-, hnone⟩
  · obtain ⟨fn', hfn', -, -, hsame, -⟩ := heffect.heap.func _ _ hfn₀
    rw [hfn] at hfn'
    cases hfn'
    by_cases hempty : l.heap.obj o = some (.dyay [])
    · obtain ⟨elem, helem, hkept⟩ := heffect.heap.dyay o [] hempty
      refine .inr (Classical.byContradiction fun hnot => hfull ?_)
      rw [helem, hkept hnot]
    · exact .inl ⟨hempty, info, hhead, fn₀, hfn₀, hsame ▸ hargv⟩
  · rw [hnone] at hargv
    cases hargv

/-! ## Steps -/

/-- Whether the running function ends. -/
def Act.Returns (env : Env) (l : Ctx) : Act → Prop
  | .exec => ∃ rv l₁, execInst env l = .ok (.ret rv) l₁
  | .ret _ => True
  | .error => True
  | _ => False

/-- A step assigns a bound value: an instruction of the function does, or the copy of
its arguments, or a native function through `func_bind`. -/
inductive Act.Assigns (env : Env) (l : Ctx) (a : Act) (o : Addr) (j : Nat) : Prop
  | body (ha : a = .exec) (h : l.BodyAssigns o j)
  | args {c : Call} (hcall : callOf env l a = some c) (h : l.CallAssigns c o j)
  | native {i : Nat} {v : Variable} (ha : a = .prim (.bind o i v))

/-- A step writes to an array. -/
inductive Act.Rewrites (env : Env) (l : Ctx) (a : Act) (o : Addr) : Prop
  | body (h : a.Writes l o)
  | args {c : Call} (hcall : callOf env l a = some c) (h : l.CallWrites c o)
  | ends (ha : a.Returns env l) (h : l.ReturnWrites o)

/-- A step stores to a slot of the local area. -/
inductive Act.Refills (env : Env) (l : Ctx) (a : Act) (j : Nat) : Prop
  | body (ha : a = .exec) (h : l.BodyStores j)
  | args {c : Call} (hcall : callOf env l a = some c) (h : l.CallStores c j)

end

section

variable {env : Env} {own : Addr → Nat → Prop} {arrs : Addr → Prop} {slots : Nat → Prop} {l l' : Ctx}
  {a : Act}

theorem longjmp_loc (level : Nat) (jpts : List Jmpbuf) (l : Ctx) :
    (longjmp level jpts l).loc = l.loc := by
  induction jpts generalizing l with
  | nil => rfl
  | cons jpt rest ih =>
      rw [longjmp]
      dsimp only
      split
      · rfl
      · split
        · rw [ih]
        · rfl

/-- A jump to a handler writes to nothing. -/
theorem Edit.settle {α : Type} {x : EStateM.Result Stop Ctx α}
    (hx : (∃ f l₁, x = .error (.fault f) l₁) ∨ Edit own arrs slots l (stateOf x))
    (h : settle x = .run l') : Edit own arrs slots l l' := by
  rcases settle_eq_run h with ⟨u, hrun⟩ | ⟨msg, l₁, hrun, -, hjump⟩
  · rcases hx with ⟨f, l₁, hfail⟩ | hx
    · cases hrun.symm.trans hfail
    · rw [hrun] at hx
      exact hx
  · rcases hx with ⟨f, l₂, hfail⟩ | hx
    · cases hrun.symm.trans hfail
    · rw [hrun] at hx
      rw [hjump]
      exact hx.of_same (longjmp_loc _ _ _) (longjmp_heap _ _ _)

theorem edit_vmRound (env : Env) (l : Ctx) :
    (∃ f l₁, vmRound env l = .error (.fault f) l₁) ∨
      Edit (Act.Assigns env l .exec) (Act.Rewrites env l .exec) (Act.Refills env l .exec) l
        (stateOf (vmRound env l)) := by
  have hinst : Edit (Act.Assigns env l .exec) (Act.Rewrites env l .exec) (Act.Refills env l .exec) l
      (stateOf (execInst env l)) :=
    (edit_execInst env l).mono (fun _ _ h => .body rfl h) (fun _ h => .body h) fun _ h => .body rfl h
  have heffect := effect_execInst env l
  rw [vmRound]
  cases hexec : execInst env l with
  | error stop l₁ =>
      rw [hexec] at hinst
      rw [bind_of_error hexec]
      exact .inr hinst
  | ok x l₁ =>
      rw [hexec] at hinst heffect
      rw [bind_of_ok hexec]
      cases x with
      | next => exact .inr (hinst.trans ⟨fun _ _ => rfl, .refl _⟩)
      | jump pc => exact .inr (hinst.trans ⟨fun _ _ => rfl, .refl _⟩)
      | ret rv =>
          rcases edit_leave rv l₁ with hfail | hleave
          · exact .inl hfail
          · refine .inr (hinst.trans (hleave.mono (fun _ _ h => h) ?_ fun _ h => h))
            exact fun o ho => (ho.of_effect heffect).elim (.ends ⟨rv, l₁, hexec⟩) .body
      | call c =>
          obtain ⟨rfl, -⟩ := execInst_call env hexec
          have hcall : callOf env l₁ .exec = some c := by
            unfold callOf
            rw [hexec]
          rcases edit_enter l₁ c with hfail | henter
          · exact .inl hfail
          · exact .inr (henter.mono (fun _ _ h => .args hcall h) (fun _ h => .args hcall h)
              fun _ h => .args hcall h)

/-- **What a step writes.** Whatever else it does, bound values, arrays and the local
area stay as they were elsewhere. -/
theorem edit_after (h : after env l a = .run l') :
    Edit (a.Assigns env l) (a.Rewrites env l) (a.Refills env l) l l' := by
  cases a with
  | exec => exact .settle (edit_vmRound env l) h
  | prim p =>
      refine .settle (.inr ?_) h
      refine (Edit.of_effect (effect_prim l p)).mono ?_ (fun _ ho => .body ho) fun _ hj => hj.elim
      intro o j ho
      -- of what a native function does, only `func_bind` changes a function
      cases p with
      | bind o' i v =>
          obtain rfl : o = o' := ho
          exact .native rfl
      | push v => exact ho.elim
      | pop n => exact ho.elim
      | setTop i v => exact ho.elim
      | gcNew obj hdata => exact ho.elim
      | storeObj o' obj hdata => exact ho.elim
      | nafn proto nbind => exact ho.elim
      | compile depth name code => exact ho.elim
  | call kont fn argc =>
      refine .settle ?_ h
      rcases edit_enter l ⟨fn, argc, false, kont⟩ with hfail | henter
      · exact .inl hfail
      · exact .inr (henter.mono (fun _ _ h => .args rfl h) (fun _ h => .args rfl h)
          fun _ h => .args rfl h)
  | ret rv =>
      refine .settle ?_ h
      rcases edit_leave rv l with hfail | hleave
      · exact .inl hfail
      · exact .inr (hleave.mono (fun _ _ h => h) (fun _ h => .ends trivial h) fun _ h => h)
  | panic msg =>
      have hsettle : settle ((throw (.panic msg) : VmM Unit) l) = .run l' := h
      exact .settle (.inr (.refl l)) hsettle
  | error =>
      unfold after ymdError at h
      dsimp only at h
      split at h
      next => cases h
      next jpt rest hjpt =>
        have hedit : Edit (Act.Assigns env l .error) l.ReturnWrites (Act.Refills env l .error) l
            (stateOf (finalArgv l)) := edit_finalArgv l
        have hfirst : Edit (Act.Assigns env l .error) (Act.Rewrites env l .error)
            (Act.Refills env l .error) l (stateOf (finalArgv l)) :=
          hedit.mono (fun _ _ h => h) (fun _ h => .ends trivial h) fun _ h => h
        cases hfinal : finalArgv l with
        | ok u l₁ =>
            rw [hfinal] at h hfirst
            cases h
            exact hfirst.of_same (longjmp_loc _ _ _) (longjmp_heap _ _ _)
        | error stop l₁ =>
            rw [hfinal] at h hfirst
            exact .settle (.inr hfirst) h
  | exit =>
      unfold after libxExit at h
      dsimp only at h
      split at h
      next => cases h
      next =>
        cases h
        exact (Edit.refl l).of_same (longjmp_loc _ _ _) (longjmp_heap _ _ _)

end

end Ymd
