import Ymd.Code.Locals
import Ymd.Machine.Call
import Ymd.Machine.Stack

/-! # What a step may change

The effect of an instruction, or of what a native function does, on everything
but the operand stack: the functions whose bound values it may assign, the
arrays it may write and the slots of the local area it may store to.
-/

namespace Ymd

open Foundation

/-- The code of every function names local variables it has. -/
def Heap.CodeOk (heap : Heap) : Prop :=
  ∀ o fn core, heap.obj o = some (.func fn) → fn.core = some core → core.LocalsOk

/-- What changes of the objects. Functions keep their code and their array of
arguments, arrays that are not written keep their elements. -/
structure Heap.Effect (own arrs : Addr → Prop) (heap heap' : Heap) : Prop where
  next : heap.next ≤ heap'.next
  func : ∀ o fn, heap.obj o = some (.func fn) → ∃ fn', heap'.obj o = some (.func fn') ∧
    fn'.core = fn.core ∧ fn'.nBind = fn.nBind ∧ fn'.argv = fn.argv ∧ (¬ own o → fn' = fn)
  made : ∀ o fn, heap'.obj o = some (.func fn) →
    (∃ fn₀, heap.obj o = some (.func fn₀)) ∨ heap.next ≤ o ∧ fn.argv = none
  dyay : ∀ o elem, heap.obj o = some (.dyay elem) → ∃ elem', heap'.obj o = some (.dyay elem') ∧
    (¬ arrs o → elem' = elem)
  code : heap.CodeOk → heap'.CodeOk

namespace Heap.Effect

variable {own arrs : Addr → Prop} {heap heap' heap'' : Heap}

theorem refl (heap : Heap) : Heap.Effect own arrs heap heap where
  next := le_rfl
  func := fun _ fn hfn => ⟨fn, hfn, rfl, rfl, rfl, fun _ => rfl⟩
  made := fun _ fn hfn => .inl ⟨fn, hfn⟩
  dyay := fun _ elem helem => ⟨elem, helem, fun _ => rfl⟩
  code := fun hcode => hcode

theorem trans (h₁ : Heap.Effect own arrs heap heap') (h₂ : Heap.Effect own arrs heap' heap'') :
    Heap.Effect own arrs heap heap'' where
  next := h₁.next.trans h₂.next
  func := by
    intro o fn hfn
    obtain ⟨fn', hfn', hcore, hbind, hargv, hsame⟩ := h₁.func o fn hfn
    obtain ⟨fn'', hfn'', hcore', hbind', hargv', hsame'⟩ := h₂.func o fn' hfn'
    exact ⟨fn'', hfn'', hcore'.trans hcore, hbind'.trans hbind, hargv'.trans hargv,
      fun ho => (hsame' ho).trans (hsame ho)⟩
  made := by
    intro o fn hfn
    rcases h₂.made o fn hfn with ⟨fn', hfn'⟩ | ⟨hnext, hargv⟩
    · rcases h₁.made o fn' hfn' with hold | ⟨hnext, hargv'⟩
      · exact .inl hold
      · obtain ⟨fn'', hfn'', _, _, hargv'', _⟩ := h₂.func o fn' hfn'
        rw [hfn] at hfn''
        cases hfn''
        exact .inr ⟨hnext, hargv''.trans hargv'⟩
    · exact .inr ⟨h₁.next.trans hnext, hargv⟩
  dyay := by
    intro o elem helem
    obtain ⟨elem', helem', hsame⟩ := h₁.dyay o elem helem
    obtain ⟨elem'', helem'', hsame'⟩ := h₂.dyay o elem' helem'
    exact ⟨elem'', helem'', fun ho => (hsame' ho).trans (hsame ho)⟩
  code := fun hcode => h₂.code (h₁.code hcode)

theorem mono {own' arrs' : Addr → Prop} (hown : ∀ o, own o → own' o)
    (harrs : ∀ o, arrs o → arrs' o) (h : Heap.Effect own arrs heap heap') :
    Heap.Effect own' arrs' heap heap' where
  next := h.next
  func := by
    intro o fn hfn
    obtain ⟨fn', hfn', hcore, hbind, hargv, hsame⟩ := h.func o fn hfn
    exact ⟨fn', hfn', hcore, hbind, hargv, fun ho => hsame fun hown' => ho (hown o hown')⟩
  made := h.made
  dyay := by
    intro o elem helem
    obtain ⟨elem', helem', hsame⟩ := h.dyay o elem helem
    exact ⟨elem', helem', fun ho => hsame fun harr => ho (harrs o harr)⟩
  code := h.code

/-- A new object, with code that is known already if it is a function. -/
theorem alloc {obj : Obj} (hargv : ∀ fn, obj = .func fn → fn.argv = none)
    (hcode : ∀ fn core, obj = .func fn → fn.core = some core → heap.CodeOk → core.LocalsOk) :
    Heap.Effect own arrs heap (heap.alloc obj).1 where
  next := Nat.le_succ _
  func := fun _ fn hfn => ⟨fn, obj_alloc_of_some hfn, rfl, rfl, rfl, fun _ => rfl⟩
  made := by
    intro o fn hfn
    by_cases ho : o = heap.next
    · subst ho
      rw [obj_alloc_self] at hfn
      exact .inr ⟨le_rfl, hargv fn (Option.some.inj hfn)⟩
    · rw [obj_alloc_of_ne ho] at hfn
      exact .inl ⟨fn, hfn⟩
  dyay := fun _ elem helem => ⟨elem, obj_alloc_of_some helem, fun _ => rfl⟩
  code := by
    intro hok o fn core hfn hcore
    by_cases ho : o = heap.next
    · subst ho
      rw [obj_alloc_self] at hfn
      exact hcode fn core (Option.some.inj hfn) hcore hok
    · rw [obj_alloc_of_ne ho] at hfn
      exact hok o fn core hfn hcore

/-- New contents of an object that is not a function. -/
theorem set_data {o : Addr} {old obj : Obj} (hold : heap.obj o = some old)
    (htype : old.type = obj.type) (hdata : obj.isFunc = false)
    (harr : ∀ elem, obj = .dyay elem → arrs o) : Heap.Effect own arrs heap (heap.set o obj) where
  next := le_rfl
  func := by
    intro a fn hfn
    have hne : a ≠ o := by
      rintro rfl
      rw [hold] at hfn
      cases hfn
      cases obj <;> simp_all [Obj.type, Obj.isFunc]
    exact ⟨fn, (obj_set_of_ne hne).trans hfn, rfl, rfl, rfl, fun _ => rfl⟩
  made := by
    intro a fn hfn
    by_cases hne : a = o
    · subst hne
      rw [obj_set_self hold] at hfn
      cases hfn
      cases hdata
    · rw [obj_set_of_ne hne] at hfn
      exact .inl ⟨fn, hfn⟩
  dyay := by
    intro a elem helem
    by_cases hne : a = o
    · subst hne
      rw [hold] at helem
      cases helem
      cases obj with
      | dyay elem' => exact ⟨elem', obj_set_self hold, fun hnot => absurd (harr elem' rfl) hnot⟩
      | func fn => cases hdata
      | hmap map => cases htype
      | skls list => cases htype
      | mand m => cases htype
    · exact ⟨elem, (obj_set_of_ne hne).trans helem, fun _ => rfl⟩
  code := by
    intro hok a fn core hfn hcore
    by_cases hne : a = o
    · subst hne
      rw [obj_set_self hold] at hfn
      cases hfn
      cases hdata
    · rw [obj_set_of_ne hne] at hfn
      exact hok a fn core hfn hcore

/-- New bound values of a function. -/
theorem set_bind {o : Addr} {fn : Func} (hfn : heap.obj o = some (.func fn))
    (bind : List Variable) (hown : own o) :
    Heap.Effect own arrs heap (heap.set o (.func { fn with bind := bind })) where
  next := le_rfl
  func := by
    intro a fn' hfn'
    by_cases hne : a = o
    · subst hne
      rw [hfn] at hfn'
      cases hfn'
      exact ⟨_, obj_set_self hfn, rfl, rfl, rfl, fun hnot => absurd hown hnot⟩
    · exact ⟨fn', (obj_set_of_ne hne).trans hfn', rfl, rfl, rfl, fun _ => rfl⟩
  made := by
    intro a fn' hfn'
    by_cases hne : a = o
    · subst hne
      exact .inl ⟨fn, hfn⟩
    · rw [obj_set_of_ne hne] at hfn'
      exact .inl ⟨fn', hfn'⟩
  dyay := by
    intro a elem helem
    have hne : a ≠ o := by
      rintro rfl
      rw [hfn] at helem
      cases helem
    exact ⟨elem, (obj_set_of_ne hne).trans helem, fun _ => rfl⟩
  code := by
    intro hok a fn' core hfn' hcore
    by_cases hne : a = o
    · subst hne
      rw [obj_set_self hfn] at hfn'
      cases hfn'
      exact hok a fn core hfn hcore
    · rw [obj_set_of_ne hne] at hfn'
      exact hok a fn' core hfn' hcore

end Heap.Effect

/-- What changes of the machine between two calls: `slots` are the places of
the local area that may be stored to. -/
structure Effect (own arrs : Addr → Prop) (slots : Nat → Prop) (l l' : Ctx) : Prop where
  info : l'.info = l.info
  jpt : l'.jpt = l.jpt
  global : l'.global = l.global
  loc : ∀ i, ¬ slots i → l'.loc i = l.loc i
  heap : l.heap.Effect own arrs l'.heap

section

variable {own arrs : Addr → Prop} {slots : Nat → Prop}

theorem Effect.refl (l : Ctx) : Effect own arrs slots l l :=
  ⟨rfl, rfl, rfl, fun _ _ => rfl, .refl _⟩

theorem Effect.trans {l l' l'' : Ctx} (h₁ : Effect own arrs slots l l')
    (h₂ : Effect own arrs slots l' l'') : Effect own arrs slots l l'' :=
  ⟨h₂.info.trans h₁.info, h₂.jpt.trans h₁.jpt, h₂.global.trans h₁.global,
    fun i hi => (h₂.loc i hi).trans (h₁.loc i hi), h₁.heap.trans h₂.heap⟩

theorem Effect.of_stackOnly {l l' : Ctx} (h : StackOnly l l') : Effect own arrs slots l l' := by
  rw [h]
  exact ⟨rfl, rfl, rfl, fun _ _ => rfl, .refl _⟩

theorem Effect.of_heap {l : Ctx} {heap : Heap} (h : l.heap.Effect own arrs heap) :
    Effect own arrs slots l { l with heap := heap } :=
  ⟨rfl, rfl, rfl, fun _ _ => rfl, h⟩

theorem Effect.mono {own' arrs' : Addr → Prop} {slots' : Nat → Prop}
    (hown : ∀ o, own o → own' o) (harrs : ∀ o, arrs o → arrs' o)
    (hslots : ∀ i, slots i → slots' i) {l l' : Ctx} (h : Effect own arrs slots l l') :
    Effect own' arrs' slots' l l' :=
  ⟨h.info, h.jpt, h.global, fun i hi => h.loc i fun hs => hi (hslots i hs),
    h.heap.mono hown harrs⟩

/-- The computations with no other effect. -/
abbrev Does (own arrs : Addr → Prop) (slots : Nat → Prop) {α : Type} (x : VmM α) : Prop :=
  Keeps (Effect own arrs slots) x

namespace Does

variable {α β : Type} {x : VmM α} {f : α → VmM β}

theorem pure (a : α) : Does own arrs slots (pure a : VmM α) := Keeps.pure Effect.refl a

theorem throw (stop : Stop) : Does own arrs slots (throw stop : VmM α) :=
  Keeps.throw Effect.refl stop

theorem panic (msg : String) : Does own arrs slots (panic msg : VmM α) := Does.throw _

theorem fault (e : Fault) : Does own arrs slots (fault e : VmM α) := Does.throw _

theorem get : Does own arrs slots (MonadState.get : VmM Ctx) := Keeps.get Effect.refl

theorem bind (hx : Does own arrs slots x) (hf : ∀ a, Does own arrs slots (f a)) :
    Does own arrs slots (x >>= f) :=
  Keeps.bind (fun _ _ _ => Effect.trans) hx hf

/-- The rest may use what the first part says about its result. -/
theorem bind_of (hx : Does own arrs slots x)
    (hf : ∀ l a l', x l = .ok a l' → Effect own arrs slots l' (stateOf (f a l'))) :
    Does own arrs slots (x >>= f) :=
  Keeps.bind_of (fun _ _ _ => Effect.trans) hx hf

theorem ite {c : Prop} [Decidable c] {y z : VmM α} (hy : Does own arrs slots y)
    (hz : Does own arrs slots z) : Does own arrs slots (if c then y else z) :=
  Keeps.ite (fun _ => hy) fun _ => hz

theorem lift (x : Partial α) : Does own arrs slots (lift x) := by
  cases x with
  | ok a => exact Does.pure a
  | error stop => exact Does.throw stop

theorem check (x : Except Fault α) : Does own arrs slots (check x) := Does.lift _

end Does

theorem ReadOnly.does {α : Type} {x : VmM α} (hx : ReadOnly x) : Does own arrs slots x := by
  intro l
  rw [← hx l]
  exact .refl l

theorem does_ymdTop (i : Nat) : Does own arrs slots (ymdTop i) := (readOnly_ymdTop i).does

theorem does_ymdPush (v : Variable) : Does own arrs slots (ymdPush v) :=
  (stackOnly_ymdPush v).mono fun _ _ => .of_stackOnly

theorem does_ymdPop (n : Nat) : Does own arrs slots (ymdPop n) :=
  (stackOnly_ymdPop n).mono fun _ _ => .of_stackOnly

theorem does_setTop (i : Nat) (v : Variable) : Does own arrs slots (setTop i v) :=
  (stackOnly_setTop i v).mono fun _ _ => .of_stackOnly

theorem does_randlv : Does own arrs slots randlv :=
  fun _ => ⟨rfl, rfl, rfl, fun _ _ => rfl, .refl _⟩

theorem readOnly_keyOps (env : Env) : ReadOnly (keyOps env) := fun _ => rfl

theorem does_keyOps (env : Env) : Does own arrs slots (keyOps env) := (readOnly_keyOps env).does

theorem does_gcNew {obj : Obj} (hargv : ∀ fn, obj = .func fn → fn.argv = none)
    (hcode : ∀ fn core, obj = .func fn → fn.core ≠ some core) : Does own arrs slots (gcNew obj) :=
  fun _ => .of_heap (.alloc hargv fun fn core hfn hcore => absurd hcore (hcode fn core hfn))

theorem does_gcNew_data {obj : Obj} (hdata : obj.isFunc = false) :
    Does own arrs slots (gcNew obj) := by
  apply does_gcNew
  · rintro fn rfl
    cases hdata
  · rintro fn core rfl
    cases hdata

/-- New contents of a container. -/
theorem effect_storeObj {l : Ctx} {o : Addr} {old obj : Obj} (hold : l.heap.obj o = some old)
    (htype : old.type = obj.type) (hdata : obj.isFunc = false)
    (harr : ∀ elem, obj = .dyay elem → arrs o) :
    Effect own arrs slots l (stateOf (storeObj o obj l)) :=
  .of_heap (.set_data hold htype hdata harr)

/-! ## Containers -/

variable (env : Env)

theorem hmapPut_cases (l : Ctx) (o : Addr) (key : Variable) :
    (∃ f, hmapPut env o key l = .error (.fault f) l) ∨
    ∃ map x, l.heap.obj o = some (.hmap map) ∧
      map.put (valueOps l.heap env.depth) env.depth key = .ok x ∧
      hmapPut env o key l = .ok x { l with heap := l.heap.set o (.hmap x.map) } := by
  rw [hmapPut, bind_of_ok (get_apply l)]
  cases hmap : l.heap.hmap o with
  | error f => exact .inl ⟨f, bind_of_error (check_of_error rfl)⟩
  | ok map =>
      rw [bind_of_ok (check_of_ok rfl), bind_of_ok (keyOps_apply env)]
      cases hput : map.put (valueOps l.heap env.depth) env.depth key with
      | error f => exact .inl ⟨f, bind_of_error (check_of_error rfl)⟩
      | ok x =>
          refine .inr ⟨map, x, Heap.hmap_eq_ok.1 hmap, hput, ?_⟩
          rw [bind_of_ok (check_of_ok rfl)]
          rfl

theorem sklsPut_cases (l : Ctx) (o : Addr) (key : Variable) :
    (∃ f levels, sklsPut env o key l = .error (.fault f) { l with levels := levels }) ∨
    ∃ list x, l.heap.obj o = some (.skls list) ∧
      list.put (valueOps l.heap env.depth) key (l.levels 0) = .ok x ∧
      sklsPut env o key l = .ok x { l with
        heap := l.heap.set o (.skls x.list), levels := fun i => l.levels (i + 1) } := by
  rw [sklsPut, bind_of_ok (get_apply l)]
  cases hskls : l.heap.skls o with
  | error f => exact .inl ⟨f, l.levels, bind_of_error (check_of_error rfl)⟩
  | ok list =>
      rw [bind_of_ok (check_of_ok rfl), bind_of_ok (keyOps_apply env), bind_of_ok (randlv_apply l)]
      cases hput : list.put (valueOps l.heap env.depth) key (l.levels 0) with
      | error f => exact .inl ⟨f, _, bind_of_error (check_of_error rfl)⟩
      | ok x =>
          refine .inr ⟨list, x, Heap.skls_eq_ok.1 hskls, hput, ?_⟩
          rw [bind_of_ok (check_of_ok rfl)]
          rfl

theorem checkValue_cases (l : Ctx) (v : Variable) :
    checkValue v l = .ok () l ∨ ∃ stop, checkValue v l = .error stop l := by
  cases hnil : v.isNil with
  | true => exact .inr ⟨_, by rw [checkValue, if_pos hnil]; rfl⟩
  | false => exact .inl (by simp [checkValue, hnil])

theorem does_checkValue (v : Variable) : Does own arrs slots (checkValue v) :=
  Does.ite (Does.panic _) (Does.pure ())

theorem does_hmapPut (o : Addr) (key : Variable) : Does own arrs slots (hmapPut env o key) := by
  intro l
  rcases hmapPut_cases env l o key with ⟨f, hput⟩ | ⟨map, x, hobj, _, hput⟩
  · rw [hput]
    exact .refl l
  · rw [hput]
    exact .of_heap (.set_data hobj rfl rfl nofun)

theorem does_sklsPut (o : Addr) (key : Variable) : Does own arrs slots (sklsPut env o key) := by
  intro l
  rcases sklsPut_cases env l o key with ⟨f, levels, hput⟩ | ⟨list, x, hobj, _, hput⟩
  · rw [hput]
    exact ⟨rfl, rfl, rfl, fun _ _ => rfl, .refl _⟩
  · rw [hput]
    exact ⟨rfl, rfl, rfl, fun _ _ => rfl, .set_data hobj rfl rfl nofun⟩

theorem does_hmapIput (o : Addr) (key v : Variable) :
    Does own arrs slots (hmapIput env o key v) := by
  refine Does.bind_of (does_hmapPut env o key) fun l x l' hput => ?_
  have hstored : l'.heap.obj o = some (.hmap x.map) := by
    rcases hmapPut_cases env l o key with ⟨f, hfail⟩ | ⟨map, x', hobj, _, hok⟩
    · rw [hfail] at hput
      cases hput
    · rw [hok] at hput
      cases hput
      exact Heap.obj_set_self hobj
  rcases checkValue_cases l' v with hok | ⟨stop, hfail⟩
  · rw [bind_of_ok hok]
    exact effect_storeObj hstored rfl rfl nofun
  · rw [bind_of_error hfail]
    exact .refl l'

theorem does_sklsIput (o : Addr) (key v : Variable) :
    Does own arrs slots (sklsIput env o key v) := by
  refine Does.bind_of (does_sklsPut env o key) fun l x l' hput => ?_
  have hstored : l'.heap.obj o = some (.skls x.list) := by
    rcases sklsPut_cases env l o key with ⟨f, _, hfail⟩ | ⟨list, x', hobj, _, hok⟩
    · rw [hfail] at hput
      cases hput
    · rw [hok] at hput
      cases hput
      exact Heap.obj_set_self hobj
  rcases checkValue_cases l' v with hok | ⟨stop, hfail⟩
  · rw [bind_of_ok hok]
    exact effect_storeObj hstored rfl rfl nofun
  · rw [bind_of_error hfail]
    exact .refl l'

theorem does_dyayIput {o : Addr} (key v : Variable) (harr : arrs o) :
    Does own arrs slots (dyayIput o key v) := by
  intro l
  rw [dyayIput, bind_of_ok (get_apply l)]
  cases hdyay : l.heap.dyay o with
  | error f =>
      rw [bind_of_error (check_of_error rfl)]
      exact .refl l
  | ok arr =>
      rw [bind_of_ok (check_of_ok rfl)]
      cases hkey : intOf key with
      | error stop =>
          rw [bind_of_error (lift_of_error rfl)]
          exact .refl l
      | ok i =>
          rw [bind_of_ok (lift_of_ok rfl)]
          split
          · exact .refl l
          · rcases checkValue_cases l v with hok | ⟨stop, hfail⟩
            · rw [bind_of_ok hok]
              exact effect_storeObj (Heap.dyay_eq_ok.1 hdyay) rfl rfl fun _ _ => harr
            · rw [bind_of_error hfail]
              exact .refl l

theorem readOnly_hmapGet (o : Addr) (key : Variable) : ReadOnly (hmapGet env o key) :=
  ReadOnly.bind ReadOnly.get fun _ => ReadOnly.bind (ReadOnly.check _) fun _ =>
    ReadOnly.bind (readOnly_keyOps env) fun _ => ReadOnly.check _

theorem readOnly_sklsGet (o : Addr) (key : Variable) : ReadOnly (sklsGet env o key) :=
  ReadOnly.bind ReadOnly.get fun _ => ReadOnly.bind (ReadOnly.check _) fun _ =>
    ReadOnly.bind (readOnly_keyOps env) fun _ => ReadOnly.check _

theorem readOnly_protoOf (o : Addr) : ReadOnly (protoOf o) := by
  refine ReadOnly.bind ReadOnly.get fun l => ReadOnly.bind (ReadOnly.check _) fun m => ?_
  cases m.proto with
  | none => exact ReadOnly.throw _
  | some proto =>
      cases hobj : l.heap.obj proto with
      | none =>
          simp only [hobj]
          exact ReadOnly.throw _
      | some obj =>
          simp only [hobj]
          exact ReadOnly.pure _

theorem readOnly_vmGetOn (var key : Variable) : ReadOnly (vmGetOn env var key) := by
  cases var with
  | skls o => exact readOnly_sklsGet env o key
  | hmap o => exact readOnly_hmapGet env o key
  | dyay o =>
      exact ReadOnly.bind ReadOnly.get fun _ => ReadOnly.bind (ReadOnly.check _) fun _ =>
        ReadOnly.bind (ReadOnly.lift _) fun _ => ReadOnly.ite (ReadOnly.throw _) (ReadOnly.pure _)
  | mand o =>
      refine ReadOnly.bind (readOnly_protoOf o) fun proto => ?_
      rcases proto with ⟨proto, obj⟩
      cases obj with
      | hmap map => exact readOnly_hmapGet env proto key
      | skls list => exact readOnly_sklsGet env proto key
      | func fn => exact ReadOnly.throw _
      | dyay elem => exact ReadOnly.throw _
      | mand m => exact ReadOnly.throw _
  | nil => exact ReadOnly.throw _
  | int i => exact ReadOnly.throw _
  | bool i => exact ReadOnly.throw _
  | ext p => exact ReadOnly.throw _
  | kstr z => exact ReadOnly.throw _
  | func o => exact ReadOnly.throw _

theorem readOnly_vmGet (var key : Variable) : ReadOnly (vmGet env var key) :=
  ReadOnly.ite (ReadOnly.bind (ReadOnly.throw _) fun _ => readOnly_vmGetOn env var key) (readOnly_vmGetOn env var key)

theorem does_vmIputOn {var : Variable} (key v : Variable) (harr : ∀ o, var = .dyay o → arrs o) :
    Does own arrs slots (vmIputOn env var key v) := by
  cases var with
  | skls o => exact does_sklsIput env o key v
  | hmap o => exact does_hmapIput env o key v
  | dyay o => exact does_dyayIput key v (harr o rfl)
  | mand o =>
      refine Does.bind (readOnly_protoOf o).does fun proto => ?_
      rcases proto with ⟨proto, obj⟩
      cases obj with
      | hmap map => exact does_hmapIput env proto key v
      | skls list => exact does_sklsIput env proto key v
      | func fn => exact Does.fault _
      | dyay elem => exact Does.fault _
      | mand m => exact Does.fault _
  | nil => exact Does.panic _
  | int i => exact Does.panic _
  | bool i => exact Does.panic _
  | ext p => exact Does.panic _
  | kstr z => exact Does.panic _
  | func o => exact Does.panic _

/-- Only an array can lose elements through `vm_iput`. -/
theorem does_vmIput {var : Variable} (key v : Variable) (harr : ∀ o, var = .dyay o → arrs o) :
    Does own arrs slots (vmIput env var key v) :=
  Does.ite (Does.bind (Does.panic _) fun _ => does_vmIputOn env key v harr)
    (does_vmIputOn env key v harr)

/-! ## Instructions -/

theorem readOnly_ymdCalled : ReadOnly ymdCalled := by
  refine ReadOnly.bind ReadOnly.get fun l => ?_
  cases l.info with
  | nil => exact ReadOnly.throw _
  | cons info chain => exact ReadOnly.pure _

theorem readOnly_funcAt (o : Addr) : ReadOnly (funcAt o) :=
  ReadOnly.bind ReadOnly.get fun _ => ReadOnly.check _

theorem does_funcAt (o : Addr) : Does own arrs slots (funcAt o) := (readOnly_funcAt o).does

theorem readOnly_kvalAt (core : Chunk) (i : Nat) : ReadOnly (kvalAt core i) := by
  unfold kvalAt
  cases core.kval[i]? with
  | none => exact ReadOnly.throw _
  | some v => exact ReadOnly.pure _

theorem does_kvalAt (core : Chunk) (i : Nat) : Does own arrs slots (kvalAt core i) :=
  (readOnly_kvalAt core i).does

theorem does_doKeyz (core : Chunk) (i : Nat) : Does own arrs slots (doKeyz core i) := by
  unfold doKeyz
  cases core.kval[i]? with
  | none => exact Does.fault _
  | some v => cases v <;> first | exact Does.pure _ | exact Does.fault _

theorem does_implJump (pc : Nat) (flag : BitVec 8) (param : Nat) :
    Does own arrs slots (implJump pc flag param) :=
  Does.ite (Does.pure _) (Does.ite (Does.ite (Does.pure _) (Does.fault _)) (Does.fault _))

theorem does_binaryInst {f : Variable → Variable → VmM Variable}
    (hf : ∀ rhs lhs, Does own arrs slots (f rhs lhs)) : Does own arrs slots (binaryInst f) :=
  Does.bind (does_ymdTop 1) fun rhs => Does.bind (does_ymdTop 0) fun lhs =>
    Does.bind (hf rhs lhs) fun v => Does.bind (does_setTop 1 v) fun _ => does_ymdPop 1

theorem does_unaryInst {f : Variable → VmM Variable} (hf : ∀ v, Does own arrs slots (f v)) :
    Does own arrs slots (unaryInst f) :=
  Does.bind (does_ymdTop 0) fun v => Does.bind (hf v) fun v => does_setTop 0 v

theorem does_vmMatch (lhs pattern : Bytes) : Does own arrs slots (vmMatch env lhs pattern) := by
  unfold vmMatch
  cases env.regex lhs pattern with
  | ok b => exact Does.pure b
  | error msg => exact Does.throw _

theorem does_opTest (flag : BitVec 8) (rhs lhs : Variable) :
    Does own arrs slots (opTest env flag rhs lhs) := by
  have htest : ∀ {α : Type} (x : Except Fault α) (f : α → Bool),
      Does own arrs slots (do return boolVar (f (← check x)) : VmM Variable) := fun x f =>
    Does.bind (Does.check x) fun _ => Does.pure _
  refine Does.bind (does_keyOps env) fun ops => ?_
  refine Does.ite (htest _ id) (Does.ite (htest _ Bool.not) ?_)
  refine Does.ite (htest _ _) (Does.ite (htest _ _) (Does.ite (htest _ _) (Does.ite (htest _ _) ?_)))
  exact Does.ite (Does.bind (Does.lift _) fun _ => Does.bind (Does.lift _) fun _ =>
    Does.bind (does_vmMatch env _ _) fun _ => Does.pure _) (Does.fault _)

theorem does_vmIgetg (core : Chunk) (i : Nat) : Does own arrs slots (vmIgetg env core i) :=
  Does.bind Does.get fun _ => Does.bind (does_doKeyz core i) fun _ => (readOnly_hmapGet env _ _).does

theorem does_vmIputg (core : Chunk) (i : Nat) (v : Variable) :
    Does own arrs slots (vmIputg env core i v) := by
  refine Does.bind Does.get fun s => Does.bind (does_doKeyz core i) fun key => ?_
  refine Does.bind_of (does_hmapPut env _ _) fun l x l' hput => ?_
  rcases hmapPut_cases env l s.global key with ⟨f, hfail⟩ | ⟨map, x', hobj, _, hok⟩
  · rw [hfail] at hput
    cases hput
  · rw [hok] at hput
    cases hput
    exact effect_storeObj (Heap.obj_set_self hobj) rfl rfl nofun

theorem does_loadLocal (info : CallInfo) (i : Nat) : Does own arrs slots (loadLocal info i) := by
  refine Does.bind (does_funcAt _) fun fn => Does.bind (Does.check _) fun slot => ?_
  cases slot with
  | bind i => exact Does.pure _
  | loc i => exact Does.bind Does.get fun _ => Does.pure _

theorem does_pushed (info : CallInfo) (core : Chunk) (flag : BitVec 8) (param : Nat) :
    Does own arrs slots (pushed env info core flag param) :=
  Does.ite (does_kvalAt core param) <| Does.ite (does_loadLocal info param) <|
    Does.ite (Does.pure _) <| Does.ite (Does.pure _) <|
      Does.ite (does_vmIgetg env core param) (Does.fault _)

theorem does_instGetf (core : Chunk) (flag : BitVec 8) (param : Nat) :
    Does own arrs slots (instGetf env core flag param) :=
  Does.ite
    (Does.bind (does_ymdTop 0) fun k => Does.bind (does_ymdTop 1) fun var =>
      Does.bind (readOnly_vmGet env var k).does fun v => Does.bind (does_ymdPop 2) fun _ => does_ymdPush v)
    (Does.ite
      (Does.bind (does_ymdTop 0) fun var => Does.bind (does_kvalAt core param) fun k =>
        Does.bind (readOnly_vmGet env var k).does fun v => does_setTop 0 v)
      (Does.fault _))

theorem does_checkPair (k v : Variable) : Does own arrs slots (checkPair k v) :=
  Does.ite (Does.bind (does_checkValue k) fun _ => does_checkValue v) (does_checkValue v)

theorem does_mapPairs (param n : Nat) (map : Hmap) :
    Does own arrs slots (mapPairs env param n map) := by
  induction n generalizing map with
  | zero => exact Does.pure map
  | succ n ih =>
      exact Does.bind (does_ymdTop _) fun k => Does.bind (does_ymdTop _) fun v =>
        Does.bind (does_checkPair k v) fun _ => Does.bind (does_keyOps env) fun _ =>
          Does.bind (Does.check _) fun x => ih _

theorem does_sklPairs (param n : Nat) (list : Skls) :
    Does own arrs slots (sklPairs env param n list) := by
  induction n generalizing list with
  | zero => exact Does.pure list
  | succ n ih =>
      exact Does.bind (does_ymdTop _) fun k => Does.bind (does_ymdTop _) fun v =>
        Does.bind (does_checkPair k v) fun _ => Does.bind (does_keyOps env) fun _ =>
          Does.bind does_randlv fun _ => Does.bind (Does.check _) fun x => ih _

theorem does_dyaElems (n : Nat) : Does own arrs slots (dyaElems n) := by
  induction n with
  | zero => exact Does.pure _
  | succ n ih =>
      exact Does.bind (does_ymdTop n) fun v => Does.bind (does_checkValue v) fun _ =>
        Does.bind ih fun _ => Does.pure _

theorem does_bindAll (param n : Nat) (copied : Func) :
    Does own arrs slots (bindAll param n copied) := by
  induction n generalizing copied with
  | zero => exact Does.pure _
  | succ n ih =>
      exact Does.bind (does_ymdTop n) fun v => Does.bind (Does.check _) fun copied => ih copied

/-- The pairs below one operand are put into this operand only. -/
theorem does_setPairs {var : Variable} (param n : Nat) (harr : ∀ o, var = .dyay o → arrs o) :
    Does own arrs slots (setPairs env var param n) := by
  induction n with
  | zero => exact Does.pure _
  | succ n ih =>
      exact Does.bind (does_ymdTop _) fun k => Does.bind (does_ymdTop _) fun v =>
        Does.bind (does_vmIput env k v harr) fun _ => ih

theorem does_testJump (info : CallInfo) (flag : BitVec 8) (param : Nat) (keeps : Bool)
    (jumps : Variable → Bool) : Does own arrs slots (testJump info flag param keeps jumps) := by
  refine Does.bind (does_ymdTop 0) fun v => Does.ite ?_ ?_
  · refine Does.bind (does_implJump _ _ _) fun target => Does.ite ?_ ?_
    · exact Does.bind (does_ymdPop 1) fun _ => Does.pure target
    · exact Does.pure target
  · exact Does.bind (does_ymdPop 1) fun _ => Does.pure _

theorem funcAt_of_obj {l : Ctx} {o : Addr} {fn : Func} (hfn : l.heap.obj o = some (.func fn)) :
    funcAt o l = .ok fn l := by
  rw [funcAt, bind_of_ok (get_apply l)]
  exact check_of_ok (Heap.func_eq_ok.2 hfn)

theorem funcAt_of_error {l : Ctx} {o : Addr} {f : Fault} (hfunc : l.heap.func o = .error f) :
    funcAt o l = .error (.fault f) l := by
  rw [funcAt, bind_of_ok (get_apply l)]
  exact check_of_error hfunc

theorem funcAt_ok_iff {l l' : Ctx} {o : Addr} {fn : Func} :
    funcAt o l = .ok fn l' ↔ l.heap.obj o = some (.func fn) ∧ l' = l := by
  rw [funcAt, bind_of_ok (get_apply l), check_ok_iff, Heap.func_eq_ok]

theorem funcBind_keeps {fn fn' : Func} {i : Nat} {v : Variable} (h : funcBind fn i v = .ok fn') :
    fn'.core = fn.core ∧ fn'.nBind = fn.nBind ∧ fn'.argv = fn.argv := by
  unfold funcBind at h
  split at h
  · cases h
    exact ⟨rfl, rfl, rfl⟩
  · cases h

theorem bindAll_ok {param n : Nat} {copied copied' : Func} {l l' : Ctx}
    (h : bindAll param n copied l = .ok copied' l') :
    l' = l ∧ copied'.core = copied.core ∧ copied'.nBind = copied.nBind ∧
      copied'.argv = copied.argv := by
  induction n generalizing copied with
  | zero =>
      obtain ⟨rfl, rfl⟩ := pure_ok_iff.1 h
      exact ⟨rfl, rfl, rfl, rfl⟩
  | succ n ih =>
      obtain ⟨v, l₁, hv, hrest⟩ := bind_ok_iff.1 h
      obtain ⟨-, rfl⟩ := ymdTop_ok_iff.1 hv
      obtain ⟨mid, l₂, hmid, htail⟩ := bind_ok_iff.1 hrest
      obtain ⟨hbound, rfl⟩ := check_ok_iff.1 hmid
      obtain ⟨hcore, hbind, hargv⟩ := funcBind_keeps hbound
      obtain ⟨hl, hcore', hbind', hargv'⟩ := ih htail
      exact ⟨hl, hcore'.trans hcore, hbind'.trans hbind, hargv'.trans hargv⟩

theorem funcClone_ok {fn copied : Func} (h : funcClone fn = .ok copied) :
    copied.core = fn.core ∧ copied.nBind = fn.nBind ∧ copied.argv = none := by
  unfold funcClone at h
  split at h
  · cases h
    exact ⟨rfl, rfl, rfl⟩
  · cases h

/-- The new function has the code of the one it is cloned from. -/
theorem does_instBind (param : Nat) : Does own arrs slots (instBind param) := by
  intro l
  rw [instBind]
  refine Does.bind_of (does_ymdTop param) (fun l₁ opd l₁' hopd => ?_) l
  refine Does.bind_of (Does.lift (funcOf opd)) (fun l₂ o l₂' ho => ?_) l₁'
  refine Does.bind_of (does_funcAt o) (fun l₃ fn l₃' hfn => ?_) l₂'
  obtain ⟨hfn, rfl⟩ := funcAt_ok_iff.1 hfn
  cases hclone : funcClone fn with
  | error f =>
      rw [bind_of_error (check_of_error rfl)]
      exact .refl _
  | ok copied =>
      rw [bind_of_ok (check_of_ok rfl)]
      obtain ⟨hcore, -, hargv⟩ := funcClone_ok hclone
      have hrest : Effect own arrs slots l₃' (stateOf ((do
          let copied ← bindAll param param copied
          setTop param (.func (← gcNew (.func copied)))
          ymdPop param : VmM Unit) l₃')) := by
        cases hall : bindAll param param copied l₃' with
        | error stop l₄ =>
            rw [bind_of_error hall]
            exact (does_bindAll param param copied).error hall
        | ok bound l₄ =>
            obtain ⟨rfl, hcore', -, hargv'⟩ := bindAll_ok hall
            rw [bind_of_ok hall]
            have hnew : Effect own arrs slots l₄ (stateOf (gcNew (.func bound) l₄)) := by
              refine .of_heap (.alloc ?_ ?_)
              · rintro fn' hfn'
                cases hfn'
                exact hargv'.trans hargv
              · intro fn' core hfn' hc hok
                cases hfn'
                exact hok o fn core hfn (hcore ▸ hcore' ▸ hc)
            exact hnew.trans (Does.bind (does_setTop _ _) (fun _ => does_ymdPop _) _)
      by_cases hparam : copied.nBind ≠ param
      · rw [if_pos hparam]
        exact .refl _
      · rw [if_neg hparam]
        exact hrest

/-- `I_SETF` writes at most the array its operand refers to. -/
theorem effect_instSetf (l : Ctx) (core : Chunk) (flag : BitVec 8) (param : Nat)
    (harr : ∀ o, (flag = Flag.stack ∧ l.stk[2 * param]? = some (.dyay o)) ∨
      (flag = Flag.fast ∧ l.stk[1]? = some (.dyay o)) → arrs o) :
    Effect own arrs slots l (stateOf (instSetf env core flag param l)) := by
  unfold instSetf
  by_cases hstack : flag = Flag.stack
  · rw [if_pos hstack]
    cases htop : ymdTop (2 * param) l with
    | error stop l' =>
        rw [bind_of_error htop]
        exact (does_ymdTop _).error htop
    | ok var l' =>
        rw [bind_of_ok htop]
        obtain ⟨hvar, rfl⟩ := ymdTop_ok_iff.1 htop
        refine Does.bind (does_setPairs env param param ?_) (fun _ => does_ymdPop _) l'
        rintro o rfl
        exact harr o (.inl ⟨hstack, hvar⟩)
  · rw [if_neg hstack]
    by_cases hfast : flag = Flag.fast
    · rw [if_pos hfast]
      cases htop : ymdTop 1 l with
      | error stop l' =>
          rw [bind_of_error htop]
          exact (does_ymdTop _).error htop
      | ok var l' =>
          rw [bind_of_ok htop]
          obtain ⟨hvar, rfl⟩ := ymdTop_ok_iff.1 htop
          refine Does.bind (does_kvalAt core param) (fun k => Does.bind (does_ymdTop 0) fun v =>
            Does.bind (does_vmIput env k v ?_) fun _ => does_ymdPop 2) l'
          rintro o rfl
          exact harr o (.inr ⟨hfast, hvar⟩)
    · rw [if_neg hfast]
      exact .refl l

/-- A store to a local variable stays in its slot or in the bound values. -/
theorem effect_storeLocal {l : Ctx} {info : CallInfo} {fn : Func} {i : Nat} (v : Variable)
    (hfn : l.heap.obj info.run = some (.func fn)) (hown : own info.run)
    (hslots : ∀ j, vmLocal fn info.loc i = .ok (.loc j) → slots j) :
    Effect own arrs slots l (stateOf (storeLocal info i v l)) := by
  rw [storeLocal, bind_of_ok (funcAt_of_obj hfn)]
  cases hslot : vmLocal fn info.loc i with
  | error f =>
      rw [bind_of_error (check_of_error rfl)]
      exact .refl l
  | ok slot =>
      rw [bind_of_ok (check_of_ok rfl)]
      cases slot with
      | bind i => exact .of_heap (.set_bind hfn _ hown)
      | loc j =>
          change Effect own arrs slots l (stateOf (setLoc j v l))
          unfold setLoc
          split
          · refine ⟨rfl, rfl, rfl, fun k hk => ?_, .refl _⟩
            have hne : k ≠ j := by
              rintro rfl
              exact hk (hslots k hslot)
            exact Function.update_of_ne hne _ _
          · exact .refl l

theorem effect_stored {l : Ctx} {info : CallInfo} {fn : Func} (core : Chunk) (flag : BitVec 8)
    (param : Nat) (hfn : l.heap.obj info.run = some (.func fn)) (hown : own info.run)
    (hslots : ∀ j, flag = Flag.loc → vmLocal fn info.loc param = .ok (.loc j) → slots j) :
    Effect own arrs slots l (stateOf (stored env info core flag param l)) := by
  unfold stored
  by_cases hloc : flag = Flag.loc
  · rw [if_pos hloc]
    cases htop : ymdTop 0 l with
    | error stop l' =>
        rw [bind_of_error htop]
        exact (does_ymdTop 0).error htop
    | ok v l' =>
        rw [bind_of_ok htop]
        obtain ⟨-, rfl⟩ := ymdTop_ok_iff.1 htop
        exact effect_storeLocal v hfn hown fun j => hslots j hloc
  · rw [if_neg hloc]
    exact Does.ite (Does.bind (does_ymdTop 0) fun v => does_vmIputg env core param v)
      (Does.pure ()) l

/-- The array that an instruction may write. -/
def arrayWritten (l : Ctx) (inst : Inst) : Option Addr :=
  if asmOp inst = Opcode.setf.code then
    match if asmFlag inst = Flag.stack then l.stk[2 * (asmParam inst).toNat]?
      else if asmFlag inst = Flag.fast then l.stk[1]? else none with
    | some (.dyay o) => some o
    | _ => none
  else none

/-- What one instruction may change. -/
theorem effect_execOp {l : Ctx} {info : CallInfo} {fn : Func} (core : Chunk) {op : Opcode}
    {inst : Inst} (hop : asmOp inst = op.code) (hfn : l.heap.obj info.run = some (.func fn))
    (hown : op = .store → own info.run)
    (hslots : op = .store → ∀ i j, localOperand inst = some i →
      vmLocal fn info.loc i = .ok (.loc j) → slots j)
    (harr : ∀ o, arrayWritten l inst = some o → arrs o) :
    Effect own arrs slots l (stateOf (execOp env info fn core op inst l)) := by
  cases op with
  | store =>
      have hstored : Effect own arrs slots l
          (stateOf (stored env info core (asmFlag inst) (asmParam inst).toNat l)) :=
        effect_stored env core _ _ hfn (hown rfl) fun j hflag hj =>
          hslots rfl _ j (if_pos ⟨.inr hop, hflag⟩) hj
      cases hst : stored env info core (asmFlag inst) (asmParam inst).toNat l with
      | error stop l' =>
          rw [hst] at hstored
          change Effect own arrs slots l (stateOf ((stored env info core _ _ >>= _) l))
          rw [bind_of_error hst]
          exact hstored
      | ok u l' =>
          rw [hst] at hstored
          change Effect own arrs slots l (stateOf ((stored env info core _ _ >>= _) l))
          rw [bind_of_ok hst]
          exact hstored.trans (Does.bind (does_ymdPop 1) (fun _ => Does.pure _) l')
  | setf =>
      have hsetf : Effect own arrs slots l
          (stateOf (instSetf env core (asmFlag inst) (asmParam inst).toNat l)) := by
        refine effect_instSetf env l core _ _ fun o ho => harr o ?_
        unfold arrayWritten
        rw [if_pos hop]
        rcases ho with ⟨hflag, hvar⟩ | ⟨hflag, hvar⟩
        · rw [if_pos hflag, hvar]
        · rw [if_neg (hflag ▸ by decide), if_pos hflag, hvar]
      cases hst : instSetf env core (asmFlag inst) (asmParam inst).toNat l with
      | error stop l' =>
          rw [hst] at hsetf
          change Effect own arrs slots l (stateOf ((instSetf env core _ _ >>= _) l))
          rw [bind_of_error hst]
          exact hsetf
      | ok u l' =>
          rw [hst] at hsetf
          change Effect own arrs slots l (stateOf ((instSetf env core _ _ >>= _) l))
          rw [bind_of_ok hst]
          exact hsetf.trans (Does.pure _ l')
  | panic => exact Does.throw _ l
  | ret => exact Does.pure _ l
  | jne => exact does_testJump _ _ _ _ _ l
  | jnt => exact does_testJump _ _ _ _ _ l
  | jnn => exact does_testJump _ _ _ _ _ l
  | jmp => exact does_implJump _ _ _ l
  | foreach =>
      exact Does.bind (does_ymdTop 0) (fun v => Does.ite (Does.bind (does_implJump _ _ _) fun _ =>
        Does.bind (does_ymdPop 1) fun _ => Does.pure _) (Does.pure _)) l
  | push =>
      exact Does.bind (does_pushed env info core _ _) (fun v => Does.bind (does_ymdPush v)
        fun _ => Does.pure _) l
  | test =>
      exact Does.bind (does_binaryInst (does_opTest env _)) (fun _ => Does.pure _) l
  | not => exact Does.bind (does_unaryInst fun _ => Does.pure _) (fun _ => Does.pure _) l
  | getf => exact Does.bind (does_instGetf env core _ _) (fun _ => Does.pure _) l
  | typeof => exact Does.bind (does_unaryInst fun _ => Does.pure _) (fun _ => Does.pure _) l
  | inv => exact Does.bind (does_unaryInst fun _ => Does.lift _) (fun _ => Does.pure _) l
  | mul => exact Does.bind (does_binaryInst fun _ _ => Does.lift _) (fun _ => Does.pure _) l
  | div => exact Does.bind (does_binaryInst fun _ _ => Does.lift _) (fun _ => Does.pure _) l
  | add => exact Does.bind (does_binaryInst fun _ _ => Does.lift _) (fun _ => Does.pure _) l
  | sub => exact Does.bind (does_binaryInst fun _ _ => Does.lift _) (fun _ => Does.pure _) l
  | mod => exact Does.bind (does_binaryInst fun _ _ => Does.lift _) (fun _ => Does.pure _) l
  | pow => exact Does.bind (does_binaryInst fun _ _ => Does.lift _) (fun _ => Does.pure _) l
  | andb => exact Does.bind (does_binaryInst fun _ _ => Does.lift _) (fun _ => Does.pure _) l
  | orb => exact Does.bind (does_binaryInst fun _ _ => Does.lift _) (fun _ => Does.pure _) l
  | xorb => exact Does.bind (does_binaryInst fun _ _ => Does.lift _) (fun _ => Does.pure _) l
  | invb => exact Does.bind (does_unaryInst fun _ => Does.lift _) (fun _ => Does.pure _) l
  | shift => exact Does.bind (does_binaryInst fun _ _ => Does.lift _) (fun _ => Does.pure _) l
  | call =>
      exact Does.bind (does_ymdTop _) (fun v => Does.bind (Does.lift _) fun _ => Does.pure _) l
  | selfcall =>
      exact Does.bind (does_ymdTop _) (fun v => Does.bind (does_kvalAt core _) fun _ =>
        Does.bind (readOnly_vmGet env v _).does fun _ => Does.bind (Does.lift _) fun _ => Does.pure _) l
  | newmap =>
      exact Does.bind (Does.check _) (fun map => Does.bind (does_mapPairs env _ _ _) fun _ =>
        Does.bind (does_ymdPop _) fun _ => Does.bind (does_gcNew_data rfl) fun _ =>
          Does.bind (does_ymdPush _) fun _ => Does.pure _) l
  | newskl =>
      exact Does.bind (does_sklPairs env _ _ _) (fun _ => Does.bind (does_ymdPop _) fun _ =>
        Does.bind (does_gcNew_data rfl) fun _ => Does.bind (does_ymdPush _) fun _ => Does.pure _) l
  | newdya =>
      exact Does.bind (does_dyaElems _) (fun _ => Does.bind (does_ymdPop _) fun _ =>
        Does.bind (does_gcNew_data rfl) fun _ => Does.bind (does_ymdPush _) fun _ => Does.pure _) l
  | bind => exact Does.bind (does_instBind _) (fun _ => Does.pure _) l

end

end Ymd
