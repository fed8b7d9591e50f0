import Ymd.Compiler.Outline

/-! # Places in the code

A place that the compiler keeps lies in the code of its function, as code is only added:
the assertions on places hold, but for those on a jump out of a function, and these are
what the outline says of them. The operand stack has the functions that are open.
-/

namespace Ymd

open Foundation

variable {σ : Type}

/-- Behind these errors the outline says of no crash: syntax errors, too few rounds, and
tables that are full. -/
def Abort.IsRegular (e : Abort) : Prop := (∃ msg, e = .fail msg) ∨ e = .fuel ∨ e.IsBounds

theorem Abort.isRegular_fail (msg : String) : (Abort.fail msg).IsRegular := .inl ⟨msg, rfl⟩

theorem Abort.not_isRegular_panic (msg : String) : ¬ (Abort.panic msg).IsRegular := by
  rintro (⟨_, h⟩ | h | h)
  · cases h
  · cases h
  · exact h

theorem Abort.not_isRegular_assertion (text : String) :
    ¬ (Abort.fault (.assertion text)).IsRegular := by
  rintro (⟨_, h⟩ | h | h)
  · cases h
  · cases h
  · exact h

/-! ## What only grows -/

/-- Functions stay functions. -/
def Heap.KeepsFuncs (heap heap' : Heap) : Prop :=
  ∀ o f, heap.obj o = some (.func f) → ∃ f', heap'.obj o = some (.func f')

theorem Heap.KeepsFuncs.trans {heap heap' heap'' : Heap} (h : heap.KeepsFuncs heap')
    (h' : heap'.KeepsFuncs heap'') : heap.KeepsFuncs heap'' := fun o f hf => by
  obtain ⟨f', hf'⟩ := h o f hf
  exact h' o f' hf'

theorem Heap.KeepsFuncs.set {heap : Heap} {fn : Addr} {f : Func}
    (hfn : heap.obj fn = some (.func f)) (f' : Func) : heap.KeepsFuncs (heap.set fn (.func f')) := by
  intro o g hg
  by_cases ho : o = fn
  · rw [ho]
    exact ⟨f', Heap.obj_set_self hfn⟩
  · exact ⟨g, (Heap.obj_set_of_ne ho).trans hg⟩

/-- The places that a loop keeps, but for those of its `break`s. -/
def LoopInfo.places (info : LoopInfo) : Nat × Nat × Bool := (info.iRetry, info.iJcond, info.death)

/-- Code is added to the same function, and the same loops are open. -/
structure Parser.Onward (p p' : Parser σ) : Prop where
  kinst : p.blk.kinst ≤ p'.blk.kinst
  outer : p'.outer = p.outer
  heap : p.heap.KeepsFuncs p'.heap
  loops : p'.loop.map LoopInfo.places = p.loop.map LoopInfo.places

theorem Parser.Onward.refl (p : Parser σ) : p.Onward p := ⟨le_rfl, rfl, fun _ f h => ⟨f, h⟩, rfl⟩

theorem Parser.Onward.trans {p p' p'' : Parser σ} (h : p.Onward p') (h' : p'.Onward p'') :
    p.Onward p'' :=
  ⟨h.kinst.trans h'.kinst, h'.outer.trans h.outer, h.heap.trans h'.heap, h'.loops.trans h.loops⟩

/-- The parser with one loop more. -/
def Parser.inLoop (p : Parser σ) (info : LoopInfo) : Parser σ := { p with loop := info :: p.loop }

/-! ## The outline beside the parser -/

/-- The outline `c` of the notes is that of what is open. -/
structure Outlined (base : Nat) (c : Outline) (q : Parser (Logged σ Note)) : Prop where
  notes : outlineOf base q.lex.2 = some c
  loops : c.loops = q.loop.map fun info => (info.iRetry, info.jmt)
  stk : q.stk.length = base + c.funcs

/-- From `q` on the outline fits again behind a success, with the operand stack as it was;
an error is a crash that the outline says of, or it leaves the functions on the stack that
are open. -/
def FitsAt {α : Type} (base : Nat) (y : ParseM (Logged σ Note) α) (q : Parser (Logged σ Note))
    (post : α → Parser (Logged σ Note) → Prop) : Prop :=
  ∀ c, Outlined base c q → match y q with
    | .ok a q' => (∃ c', Outlined base c' q') ∧ q'.stk = q.stk ∧ post a q'
    | .error e q' =>
        ¬ e.IsRegular ∧ outlineOf base q'.lex.2 = none ∨
          e.IsRegular ∧ q.stk <:+ q'.stk ∧
            ∃ c', outlineOf base q'.lex.2 = some c' ∧ q'.stk.length = base + c'.funcs

/-- The same from every state, with nothing taken away. -/
def Fitting {α : Type} (base : Nat) (y : ParseM (Logged σ Note) α) : Prop :=
  ∀ q, FitsAt base y q fun _ q' => q.Onward q'

section

variable {α β : Type} {base : Nat} {y : ParseM (Logged σ Note) α}
  {g : α → ParseM (Logged σ Note) β} {q q₁ q₂ : Parser (Logged σ Note)}
  {post post₁ : α → Parser (Logged σ Note) → Prop} {post' : β → Parser (Logged σ Note) → Prop}

theorem FitsAt.mono (hy : FitsAt base y q post) (h : ∀ a q', post a q' → post₁ a q') :
    FitsAt base y q post₁ := by
  intro c hc
  have hrun := hy c hc
  rcases hyq : y q with ⟨a, q'⟩ | ⟨e, q'⟩
  · rw [hyq] at hrun
    exact ⟨hrun.1, hrun.2.1, h a q' hrun.2.2⟩
  · rw [hyq] at hrun
    exact hrun

theorem FitsAt.bind (hy : FitsAt base y q post)
    (hg : ∀ a q', post a q' → FitsAt base (g a) q' post') : FitsAt base (y >>= g) q post' := by
  intro c hc
  have hrun := hy c hc
  rcases hyq : y q with ⟨a, q'⟩ | ⟨e, q'⟩
  · rw [hyq] at hrun
    obtain ⟨⟨c', hc'⟩, hstk, hpost⟩ := hrun
    have hrest := hg a q' hpost c' hc'
    rw [bind_of_ok hyq]
    rcases hgq : g a q' with ⟨b, q''⟩ | ⟨e, q''⟩
    · rw [hgq] at hrest
      exact ⟨hrest.1, hrest.2.1.trans hstk, hrest.2.2⟩
    · rw [hgq, hstk] at hrest
      exact hrest
  · rw [hyq] at hrun
    rw [bind_of_error hyq]
    exact hrun

theorem FitsAt.pure {a : α} (h : post a q) : FitsAt base (pure a) q post :=
  fun c hc => ⟨⟨c, hc⟩, rfl, h⟩

theorem FitsAt.throw {e : Abort} (he : e.IsRegular) : FitsAt base (throw e) q post :=
  fun c hc => .inr ⟨he, List.suffix_refl _, c, hc.notes, hc.stk⟩

theorem FitsAt.throw_bind {e : Abort} (he : e.IsRegular) :
    FitsAt base ((MonadExcept.throw e : ParseM (Logged σ Note) α) >>= g) q post' :=
  fun c hc => .inr ⟨he, List.suffix_refl _, c, hc.notes, hc.stk⟩

/-- What the source looks at is there. -/
theorem FitsAt.get {g : Parser (Logged σ Note) → ParseM (Logged σ Note) β}
    (hg : FitsAt base (g q) q post') : FitsAt base (MonadState.get >>= g) q post' :=
  hg

theorem FitsAt.ite {c : Prop} [Decidable c] {z : ParseM (Logged σ Note) α}
    (hy : c → FitsAt base y q post) (hz : ¬ c → FitsAt base z q post) :
    FitsAt base (if c then y else z) q post := by
  by_cases hc : c
  · rw [if_pos hc]
    exact hy hc
  · rw [if_neg hc]
    exact hz hc

/-- Nothing is noted, but perhaps a missing token. -/
theorem FitsAt.of_ok {a : α} (hy : y q = .ok a q₁)
    (hlog : outlineOf base q₁.lex.2 = outlineOf base q.lex.2) (hloop : q₁.loop = q.loop)
    (hstk : q₁.stk = q.stk) (hpost : post a q₁) : FitsAt base y q post := by
  intro c hc
  rw [hy]
  exact ⟨⟨c, hlog.trans hc.notes, hloop ▸ hc.loops, hstk ▸ hc.stk⟩, hstk, hpost⟩

theorem Fitting.bind (hy : Fitting base y) (hg : ∀ a, Fitting base (g a)) :
    Fitting base (y >>= g) := fun q =>
  (hy q).bind fun a q' h => (hg a q').mono fun _ _ h' => h.trans h'

theorem Fitting.pure (a : α) : Fitting base (Pure.pure a : ParseM (Logged σ Note) α) :=
  fun q => FitsAt.pure (.refl q)

theorem Fitting.throw {e : Abort} (he : e.IsRegular) :
    Fitting base (MonadExcept.throw e : ParseM (Logged σ Note) α) :=
  fun _ => FitsAt.throw he

theorem Fitting.ite {c : Prop} [Decidable c] {z : ParseM (Logged σ Note) α} (hy : Fitting base y)
    (hz : Fitting base z) : Fitting base (if c then y else z) :=
  fun q => FitsAt.ite (fun _ => hy q) fun _ => hz q

/-- Behind a production that goes on from `q₂`, which is reached from `q`. -/
theorem Fitting.from (hy : Fitting base y) (h : q.Onward q₁) :
    FitsAt base y q₁ fun _ q' => q.Onward q' :=
  (hy q₁).mono fun _ _ h' => h.trans h'

end

/-! ## Code -/

section

variable {base : Nat} {q q₀ : Parser (Logged σ Note)}

theorem fitting_onBlk {α : Type} {f : Chunk → Chunk × α} (hf : Grows f) :
    Fitting base (onBlk f : ParseM (Logged σ Note) α) :=
  fun q => FitsAt.of_ok rfl rfl rfl rfl ⟨hf q.blk, rfl, fun _ f h => ⟨f, h⟩, rfl⟩

theorem coding_fitting (src : Source σ) (base : Nat) :
    Coding src.noted src.noted (fun {_} _ y => Fitting base y) where
  pure := .pure
  bind hy hg := hy.bind hg
  fail msg := .throw (Abort.isRegular_fail msg)
  get hg q := FitsAt.get (hg q q ⟨rfl, rfl, rfl, rfl⟩ q)
  onBlk _ hf := fitting_onBlk hf

theorem fitting_next (src : Source σ) (base : Nat) : Fitting base (ymcNext src.noted) := by
  intro q c hc
  rw [ymcNext_apply]
  unfold Source.noted
  dsimp only
  cases src.next q.lex.1 with
  | ok next =>
      exact ⟨⟨c, hc.notes, hc.loops, hc.stk⟩, rfl, ⟨le_rfl, rfl, fun _ f h => ⟨f, h⟩, rfl⟩⟩
  | error f =>
      refine ⟨⟨c, ?_, hc.loops, hc.stk⟩, rfl, ⟨le_rfl, rfl, fun _ f h => ⟨f, h⟩, rfl⟩⟩
      exact outlineOf_concat hc.notes .unread

theorem fitting_name (src : Source σ) (base : Nat) (z : Bytes) :
    Fitting base ((Hooks.noting src).name z) := by
  change Fitting base (if 260 ≤ z.length then throw (.fault (.bounds "desc->name")) else pure ())
  split
  · exact .throw (.inr (.inr (by simp [Abort.IsBounds])))
  · exact .pure ()

theorem productions_fitting (src : Source σ) (base : Nat) : Productions src.noted src.noted
    (Hooks.noting src) (Hooks.noting src) (fun {_} _ y => Fitting base y) where
  toCoding := coding_fitting src base
  fuel := .throw (.inr (.inl rfl))
  next := fitting_next src base
  closing _ := fitting_next src base
  name := fitting_name src base

/-- A place that is held lies in the code. -/
theorem fits_hold (q : Parser (Logged σ Note)) :
    FitsAt base ymkHold q fun i q' => q.Onward q' ∧ i < q'.blk.kinst := by
  have hrun : ymkHold q = .ok (q.blk.kinst % 2 ^ 16)
      { q with blk := q.blk.emit (asmBuild Opcode.panic.code 0 (BitVec.ofNat 16 0)) } := rfl
  have hkinst : (q.blk.emit (asmBuild Opcode.panic.code 0 (BitVec.ofNat 16 0))).kinst =
      q.blk.kinst + 1 := List.length_append
  refine FitsAt.of_ok hrun rfl rfl rfl ⟨⟨?_, rfl, fun _ f h => ⟨f, h⟩, rfl⟩, ?_⟩
  · exact hkinst ▸ Nat.le_succ _
  · exact hkinst ▸ Nat.lt_succ_of_le (Nat.mod_le _ _)

theorem assert_of {cond : Prop} [Decidable cond] (h : cond) (text : String) :
    (assert cond text : ParseM σ Unit) = pure () :=
  if_pos h

theorem ymkHack_apply {p : Parser σ} {i : Nat} (hi : i < p.blk.kinst) (inst : Inst) :
    ymkHack i inst p = .ok () { p with blk := p.blk.setInst i inst } := by
  rw [ymkHack, bind_of_ok (get_apply p), assert_of hi, pure_bind]
  rfl

theorem ymkHackJmp_apply {p : Parser σ} {i : Nat} (hi : i < p.blk.kinst) (op : Opcode) :
    ∃ inst, ymkHackJmp i op p = .ok () { p with blk := p.blk.setInst i inst } := by
  refine ⟨asmBuild op.code Flag.forward (BitVec.ofNat 16 (p.blk.kinst - i)), ?_⟩
  rw [ymkHackJmp, bind_of_ok (get_apply p), assert_of (Nat.le_of_lt hi), pure_bind]
  exact ymkHack_apply hi _

theorem kinst_setInst (core : Chunk) (i : Nat) (inst : Inst) : (core.setInst i inst).kinst = core.kinst :=
  List.length_set ..

theorem fits_hack {i : Nat} (h : q₀.Onward q) (hi : i < q.blk.kinst) (inst : Inst) :
    FitsAt base (ymkHack i inst) q fun _ q' => q₀.Onward q' := by
  refine FitsAt.of_ok (ymkHack_apply hi inst) rfl rfl rfl (h.trans ?_)
  exact ⟨(kinst_setInst _ i inst).ge, rfl, fun _ f h => ⟨f, h⟩, rfl⟩

theorem fits_hackJmp {i : Nat} (h : q₀.Onward q) (hi : i < q.blk.kinst) (op : Opcode) :
    FitsAt base (ymkHackJmp i op) q fun _ q' => q₀.Onward q' := by
  obtain ⟨inst, hrun⟩ := ymkHackJmp_apply hi op
  refine FitsAt.of_ok hrun rfl rfl rfl (h.trans ?_)
  exact ⟨(kinst_setInst _ i inst).ge, rfl, fun _ f h => ⟨f, h⟩, rfl⟩

theorem fits_fillJout {jout : List Nat} (h : q₀.Onward q) (hjout : ∀ i ∈ jout, i < q₀.blk.kinst) :
    FitsAt base (fillJout jout) q fun _ q' => q₀.Onward q' := by
  induction jout generalizing q with
  | nil => exact FitsAt.pure h
  | cons i rest ih =>
      have hi := (hjout i List.mem_cons_self).trans_le h.kinst
      refine (fits_hackJmp h hi _).bind fun _ q' h' => ?_
      exact ih h' fun j hj => hjout j (List.mem_cons_of_mem i hj)

/-! ## Functions -/

/-- What `funcScope` does behind the function object. -/
def scopeBody (fn : Addr) (binds : ParseM σ (List Bytes × Chunk)) (desc : List Bytes → FuncDeclDesc)
    (inner : ParseM σ (List Bytes × Tree .block)) : ParseM σ (List Bytes × Tree .func) := do
  let (names, core) ← binds
  ymkEnter core
  let (params, body) ← inner
  ymkLeave fn
  setBindCount (desc names).nBind fn
  let k ← onBlk fun core => core.kf fn
  ymkHack (desc names).loadP (asmBuild Opcode.push.code Flag.kval (BitVec.ofNat 16 k))
  return (names, .func fn params body)

/-- A computation, and the object of the function popped behind it. -/
def popping {α : Type} (z : ParseM σ α) : ParseM σ α := do
  let a ← z
  modify fun p => { p with stk := p.stk.tail }
  return a

theorem funcScope_eq (h : Hooks σ) (name : Bytes) (binds : ParseM σ (List Bytes × Chunk))
    (desc : List Bytes → FuncDeclDesc) (inner : ParseM σ (List Bytes × Tree .block)) :
    h.funcScope name binds desc inner = (do
      h.site .function
      let fn ← ymdFunc name
      h.function (popping (scopeBody fn binds desc inner))) := by
  simp only [Hooks.funcScope, popping, scopeBody, ymkEmitFunc_eq, bind_assoc, pure_bind]

section

variable {fn : Addr} {f : Func} {binds : ParseM (Logged σ Note) (List Bytes × Chunk)}
  {desc : List Bytes → FuncDeclDesc} {inner : ParseM (Logged σ Note) (List Bytes × Tree .block)}

/-- The chunk of a function is left for the one around it. -/
theorem fits_chunk {α : Type} {x : ParseM (Logged σ Note) α} (core : Chunk) (hx : Fitting base x)
    (hfn : q.heap.obj fn = some (.func f)) :
    FitsAt base (do
      ymkEnter core
      let a ← x
      ymkLeave fn
      return a) q fun _ q' => q.Onward q' := by
  have henter : FitsAt base (ymkEnter core) q
      fun _ q' => q' = { q with blk := core, outer := q.blk :: q.outer } :=
    .of_ok rfl rfl rfl rfl rfl
  refine henter.bind ?_
  rintro - _ rfl
  refine (hx _).bind fun a q₁ h₁ => ?_
  obtain ⟨f₁, hf₁⟩ := h₁.heap fn f hfn
  have hleave : ymkLeave fn q₁ = .ok () { q₁ with
      blk := q₁.outer.headD .zero, outer := q₁.outer.tail
      heap := q₁.heap.set fn (.func { f₁ with core := some q₁.blk }) } := by
    rw [ymkLeave_apply, hf₁]
  have hback : q.Onward { q₁ with
      blk := q₁.outer.headD .zero, outer := q₁.outer.tail
      heap := q₁.heap.set fn (.func { f₁ with core := some q₁.blk }) } := by
    refine ⟨?_, ?_, h₁.heap.trans (.set hf₁ _), h₁.loops⟩
    · rw [h₁.outer]
      exact le_rfl
    · exact congrArg List.tail h₁.outer
  exact (FitsAt.of_ok hleave rfl rfl rfl hback).bind fun _ _ h => FitsAt.pure h

theorem fits_scopeBody (hbinds : Fitting base binds) (hinner : Fitting base inner)
    (hfn : q.heap.obj fn = some (.func f)) (hdesc : ∀ names, (desc names).loadP < q.blk.kinst) :
    FitsAt base (scopeBody fn binds desc inner) q fun _ q' => q.Onward q' := by
  refine (hbinds q).bind fun names q₁ h₁ => ?_
  obtain ⟨f₁, hf₁⟩ := h₁.heap fn f hfn
  obtain ⟨names, core⟩ := names
  have hchunk := fits_chunk core hinner hf₁
  -- behind the chunk: the number of bound values, and the place held for the load
  have hrest : ∀ (x : List Bytes × Tree .block) q₂, q₁.Onward q₂ → FitsAt base (do
      setBindCount (desc names).nBind fn
      let k ← onBlk fun core => core.kf fn
      ymkHack (desc names).loadP (asmBuild Opcode.push.code Flag.kval (BitVec.ofNat 16 k))
      return (names, Tree.func fn x.1 x.2)) q₂ fun _ q' => q.Onward q' := by
    intro x q₂ h₂
    have h := h₁.trans h₂
    obtain ⟨f₂, hf₂⟩ := h.heap fn f hfn
    have hrun : setBindCount (desc names).nBind fn q₂ = .ok () { q₂ with
        heap := q₂.heap.set fn (.func { f₂ with nBind := (desc names).nBind % 2 ^ 16 }) } := by
      rw [setBindCount_apply, hf₂]
    have hcount : FitsAt base (setBindCount (desc names).nBind fn) q₂ fun _ q' => q.Onward q' :=
      .of_ok hrun rfl rfl rfl (h.trans ⟨le_rfl, rfl, .set hf₂ _, rfl⟩)
    refine hcount.bind fun _ q₃ h₃ => ?_
    refine ((fitting_onBlk grows_internK).from h₃).bind fun k q₄ h₄ => ?_
    exact (fits_hack h₄ ((hdesc names).trans_le h₄.kinst) _).bind fun _ _ h => FitsAt.pure h
  have hboth := hchunk.bind hrest
  simp only [bind_assoc, pure_bind] at hboth
  exact hboth

theorem ymdFunc_of_room (name : Bytes) {p : Parser σ} (hroom : p.stk.length < maxStack) :
    ∃ p', ymdFunc name p = .ok p.heap.next p' ∧ p.Onward p' ∧ p'.lex = p.lex ∧ p'.blk = p.blk ∧
      p'.loop = p.loop ∧ p'.stk = .func p.heap.next :: p.stk ∧
      ∃ f, p'.heap.obj p.heap.next = some (.func f) := by
  have hfunc := (ymdFunc_apply name p).trans (if_neg (Nat.not_le.2 hroom))
  refine ⟨_, hfunc, ⟨le_rfl, rfl, ?_, rfl⟩, rfl, rfl, rfl, rfl, _, Heap.obj_alloc_self ..⟩
  exact fun o f hf => ⟨f, Heap.obj_alloc_of_some hf⟩

/-- A nested function has its object on the operand stack while it is read. -/
theorem fits_scope (src : Source σ) (name : Bytes) (desc : List Bytes → FuncDeclDesc) (hbinds : Fitting base binds)
    (hinner : Fitting base inner) (hdesc : ∀ names, (desc names).loadP < q.blk.kinst) :
    FitsAt base ((Hooks.noting src).funcScope name binds desc inner) q fun _ q' => q.Onward q' := by
  intro c hc
  have hnote : (Hooks.noting src).site .function q =
      .ok () { q with lex := (q.lex.1, q.lex.2 ++ [.function]) } := rfl
  have hstep := outlineOf_concat hc.notes .function
  rw [funcScope_eq, bind_of_ok hnote]
  -- `ymd_func` pushes the object, or panics on a full stack, where the note stands already
  by_cases hroom : q.stk.length < maxStack
  · obtain ⟨q₁, hfunc, h₁, hlex, hblk, hloop, hstk, f, hf⟩ := ymdFunc_of_room (σ := Logged σ Note)
      name (p := { q with lex := (q.lex.1, q.lex.2 ++ [.function]) }) hroom
    have hfits : Outlined base { c with funcs := c.funcs + 1 } q₁ := by
      refine ⟨?_, hloop ▸ hc.loops, ?_⟩
      · rw [hlex]
        exact hstep.trans (if_pos (hc.stk ▸ hroom))
      · rw [hstk]
        exact congrArg (· + 1) hc.stk
    have hbody := fits_scopeBody hbinds hinner hf (fun names => hblk ▸ hdesc names) _ hfits
    rw [bind_of_ok hfunc]
    rcases hrun : scopeBody q.heap.next binds desc inner q₁ with ⟨a, q₂⟩ | ⟨e, q₂⟩
    · rw [hrun, hstk] at hbody
      obtain ⟨⟨c₂, hc₂⟩, hstk₂, h₂⟩ := hbody
      have hpop : popping (scopeBody q.heap.next binds desc inner) q₁ =
          .ok a { q₂ with stk := q₂.stk.tail } := bind_of_ok hrun
      have hend : (Hooks.noting src).function (popping (scopeBody q.heap.next binds desc inner)) q₁ =
          .ok a { q₂ with
            lex := (q₂.lex.1, q₂.lex.2 ++ [.functionEnd]), stk := q₂.stk.tail } := bind_of_ok hpop
      rw [hend]
      have hlength := hc₂.stk
      rw [hstk₂, List.length_cons, hc.stk] at hlength
      refine ⟨⟨_, outlineOf_concat hc₂.notes .functionEnd, hc₂.loops, ?_⟩, ?_, ?_⟩
      · change q₂.stk.tail.length = base + (c₂.funcs - 1)
        rw [hstk₂, List.tail_cons, hc.stk]
        omega
      · change q₂.stk.tail = q.stk
        rw [hstk₂, List.tail_cons]
      · exact ⟨(h₁.trans h₂).kinst, (h₁.trans h₂).outer, (h₁.trans h₂).heap, (h₁.trans h₂).loops⟩
    -- the objects of the functions that are open stay behind an error
    · rw [hrun, hstk] at hbody
      have hpop : popping (scopeBody q.heap.next binds desc inner) q₁ = .error e q₂ :=
        bind_of_error hrun
      have hend : (Hooks.noting src).function (popping (scopeBody q.heap.next binds desc inner)) q₁ =
          .error e q₂ := bind_of_error hpop
      rw [hend]
      exact hbody.imp_right fun h => ⟨h.1, (List.suffix_cons _ _).trans h.2.1, h.2.2⟩
  · have hfull : ymdFunc name { q with lex := (q.lex.1, q.lex.2 ++ [.function]) } =
        .error (.panic "Stack overflow!") { q with lex := (q.lex.1, q.lex.2 ++ [.function]) } :=
      (ymdFunc_apply name _).trans (if_pos (Nat.not_lt.1 hroom))
    rw [bind_of_error hfull]
    refine .inl ⟨Abort.not_isRegular_panic _, hstep.trans (if_neg ?_)⟩
    rwa [← hc.stk]

end

/-! ## Loops -/

section

variable {p : Parser σ} {info i₀ : LoopInfo} {rest : List LoopInfo} {iCurr : Nat} {jmt : List Nat}

theorem fillBreaks_ok (hlt : iCurr < p.blk.kinst) (hjmt : ∀ i ∈ jmt, i ≤ iCurr) :
    ∃ core, core.kinst = p.blk.kinst ∧ fillBreaks iCurr jmt p = .ok () { p with blk := core } := by
  induction jmt generalizing p with
  | nil => exact ⟨p.blk, rfl, rfl⟩
  | cons i jmt ih =>
      have hi := hjmt i List.mem_cons_self
      obtain ⟨inst, hrun⟩ := ymkHackJmp_apply (hi.trans_lt hlt) .jmp
      have hkinst := kinst_setInst p.blk i inst
      obtain ⟨core, hcore, hrest⟩ := ih (p := { p with blk := p.blk.setInst i inst })
        (hkinst ▸ hlt) fun j hj => hjmt j (List.mem_cons_of_mem i hj)
      refine ⟨core, hcore.trans hkinst, ?_⟩
      rw [fillBreaks, assert_of hi, pure_bind, bind_of_ok hrun, hrest]

/-- A `break` from further on is found. -/
theorem fillBreaks_error (hlt : iCurr < p.blk.kinst) (hjmt : ¬ ∀ i ∈ jmt, i ≤ iCurr) :
    ∃ text p', fillBreaks iCurr jmt p = .error (.fault (.assertion text)) p' ∧ p'.lex = p.lex := by
  induction jmt generalizing p with
  | nil => exact absurd (fun i hi => by cases hi) hjmt
  | cons i jmt ih =>
      by_cases hi : i ≤ iCurr
      · obtain ⟨inst, hrun⟩ := ymkHackJmp_apply (hi.trans_lt hlt) .jmp
        obtain ⟨text, p', hrest, hlex⟩ := ih (p := { p with blk := p.blk.setInst i inst })
          (kinst_setInst p.blk i inst ▸ hlt) fun h => hjmt (List.forall_mem_cons.2 ⟨hi, h⟩)
        refine ⟨text, p', ?_, hlex⟩
        rw [fillBreaks, assert_of hi, pure_bind, bind_of_ok hrun, hrest]
      · refine ⟨"i_jpt <= i_curr", p, ?_, rfl⟩
        rw [fillBreaks, assert, if_neg hi]
        rfl

/-- The end of `ymk_loop_leave`, behind the `break`s. -/
def leaveCond (info : LoopInfo) : ParseM σ Unit := do
  if ¬ info.death then ymkHackJmp info.iJcond .foreach
  modify fun p => { p with loop := p.loop.tail }

/-- The jump back is there, and the jumps out of the loop are to be filled in. -/
theorem ymkLoopLeave_apply (hloop : p.loop = info :: rest) (hretry : info.iRetry ≤ p.blk.kinst) :
    ∃ core : Chunk, core.kinst = p.blk.kinst + 1 ∧ ymkLoopLeave p =
      (fillBreaks p.blk.kinst info.jmt.reverse >>= fun _ => leaveCond info)
        { p with blk := core } := by
  have hthe : theLoop p = .ok info p := by
    rw [theLoop, bind_of_ok (get_apply p), hloop]
    rfl
  have hjmp : ymkEmitJmp info.iRetry p = .ok () { p with
      blk := p.blk.emit (asmBuild Opcode.jmp.code Flag.backward
        (BitVec.ofNat 16 (p.blk.kinst - info.iRetry))) } := by
    rw [ymkEmitJmp, bind_of_ok (get_apply p), assert_of hretry, pure_bind]
    rfl
  refine ⟨p.blk.emit (asmBuild Opcode.jmp.code Flag.backward
    (BitVec.ofNat 16 (p.blk.kinst - info.iRetry))), List.length_append, ?_⟩
  rw [ymkLoopLeave, bind_of_ok (get_apply p), bind_of_ok hthe, assert_of hretry, pure_bind,
    bind_of_ok hjmp]
  rfl

theorem ymkLoopLeave_ok (hloop : p.loop = info :: rest) (hretry : info.iRetry ≤ p.blk.kinst)
    (hcond : info.death = false → info.iJcond < p.blk.kinst)
    (hjmt : ∀ i ∈ info.jmt, i ≤ p.blk.kinst) :
    ∃ core : Chunk, p.blk.kinst ≤ core.kinst ∧
      ymkLoopLeave p = .ok () { p with blk := core, loop := rest } := by
  obtain ⟨core, hkinst, hrun⟩ := ymkLoopLeave_apply hloop hretry
  obtain ⟨core₁, hcore₁, hbreaks⟩ := fillBreaks_ok (p := { p with blk := core })
    (hkinst ▸ Nat.lt_succ_self _) fun i hi => hjmt i (List.mem_reverse.1 hi)
  have hpop : ∀ core₂ : Chunk, (modify fun p => { p with loop := p.loop.tail } : ParseM σ Unit)
      { p with blk := core₂ } = .ok () { p with blk := core₂, loop := rest } := fun core₂ => by
    rw [modify_apply, hloop, List.tail_cons]
  have hkinst₁ : core₁.kinst = p.blk.kinst + 1 := hcore₁.trans hkinst
  rw [hrun, bind_of_ok hbreaks, leaveCond]
  -- a loop without a condition has no jump to fill in
  cases hdeath : info.death with
  | true =>
      refine ⟨core₁, by omega, ?_⟩
      rw [if_neg (fun h => h rfl)]
      exact hpop core₁
  | false =>
      obtain ⟨inst, hhack⟩ := ymkHackJmp_apply (p := { p with blk := core₁ }) (i := info.iJcond)
        (by have := hcond hdeath; change info.iJcond < core₁.kinst; omega) .foreach
      refine ⟨core₁.setInst info.iJcond inst, ?_, ?_⟩
      · rw [kinst_setInst]
        omega
      · rw [if_pos Bool.false_ne_true, bind_of_ok hhack]
        exact hpop _

theorem ymkLoopLeave_error (hloop : p.loop = info :: rest) (hretry : info.iRetry ≤ p.blk.kinst)
    (hjmt : ¬ ∀ i ∈ info.jmt, i ≤ p.blk.kinst) :
    ∃ text p', ymkLoopLeave p = .error (.fault (.assertion text)) p' ∧ p'.lex = p.lex := by
  obtain ⟨core, hkinst, hrun⟩ := ymkLoopLeave_apply hloop hretry
  have hbreak : ¬ ∀ i ∈ info.jmt.reverse, i ≤ p.blk.kinst :=
    fun h => hjmt fun i hi => h i (List.mem_reverse.2 hi)
  obtain ⟨text, p', hbreaks, hlex⟩ := fillBreaks_error (p := { p with blk := core })
    (hkinst ▸ Nat.lt_succ_self _) hbreak
  exact ⟨text, p', hrun.trans (bind_of_error hbreaks), hlex⟩

end

section

variable (src : Source σ) {info : LoopInfo}

/-- The loop that is read, and those around it. -/
theorem Parser.Onward.in_loop {p₀ p : Parser σ} (h : (p₀.inLoop info).Onward p) :
    ∃ info' rest, p.loop = info' :: rest ∧ info'.places = info.places ∧
      rest.map LoopInfo.places = p₀.loop.map LoopInfo.places := by
  have hloops := h.loops
  cases hloop : p.loop with
  | nil =>
      rw [hloop] at hloops
      cases hloops
  | cons info' rest =>
      rw [hloop] at hloops
      exact ⟨info', rest, rfl, (List.cons.inj hloops).1, (List.cons.inj hloops).2⟩

theorem fits_loopEnter (q : Parser (Logged σ Note)) :
    FitsAt base (Hooks.noting src).loopEnter q fun _ q' => (q.inLoop ⟨0, 0, [], false⟩).Onward q' :=
  fun _ hc => ⟨⟨_, outlineOf_concat hc.notes .loop, congrArg ((0, []) :: ·) hc.loops, hc.stk⟩, rfl,
    ⟨le_rfl, rfl, fun _ f h => ⟨f, h⟩, rfl⟩⟩

/-- The place where the loop starts again is noted and kept. -/
theorem fits_startAgain {α : Type} (set : Nat → LoopInfo → LoopInfo)
    {x : ParseM (Logged σ Note) α} {post : α → Parser (Logged σ Note) → Prop}
    (h : (q₀.inLoop info).Onward q)
    (hset : ∀ i info, (set i info).iRetry = i ∧ (set i info).jmt = info.jmt)
    (hplaces : ∀ i info info', info.places = info'.places → (set i info).places = (set i info').places)
    (hx : ∀ q', (q₀.inLoop (set (q.blk.kinst % 2 ^ 16) info)).Onward q' →
      q'.blk.kinst = q.blk.kinst → FitsAt base x q' post) :
    FitsAt base (do
      (Hooks.noting src).site .retry
      let retry ← ymkIpos
      onLoop (set retry)
      x) q post := by
  intro c hc
  obtain ⟨info', rest, hloop, hinfo, hrest⟩ := h.in_loop
  have hloops : c.loops =
      (info'.iRetry, info'.jmt) :: rest.map fun info => (info.iRetry, info.jmt) := by
    rw [hc.loops, hloop, List.map_cons]
  have hstep := outlineOf_concat hc.notes (.retry q.blk.kinst)
  simp only [Outline.step, hloops] at hstep
  have hrun : (do
      (Hooks.noting src).site .retry
      let retry ← ymkIpos
      onLoop (set retry)
      x) q = x { q with
        lex := (q.lex.1, q.lex.2 ++ [.retry q.blk.kinst])
        loop := set (q.blk.kinst % 2 ^ 16) info' :: rest } := by
    rcases q with ⟨lex, lah, blk, outer, loop, forId, heap, stk⟩
    obtain rfl := hloop
    rfl
  rw [hrun]
  have hset' := hset (q.blk.kinst % 2 ^ 16) info'
  refine hx { q with
    lex := (q.lex.1, q.lex.2 ++ [.retry q.blk.kinst])
    loop := set (q.blk.kinst % 2 ^ 16) info' :: rest } ⟨h.kinst, h.outer, h.heap, ?_⟩ rfl
    ⟨c.funcs, (q.blk.kinst % 2 ^ 16, info'.jmt) :: rest.map fun info => (info.iRetry, info.jmt)⟩
    ⟨hstep, ?_, hc.stk⟩
  · exact congrArg₂ List.cons (hplaces _ _ _ hinfo) hrest
  · simp only [List.map_cons, hset'.1, hset'.2]

theorem fits_setCond {i : Nat} (h : (q₀.inLoop info).Onward q) :
    FitsAt base (onLoop fun info => { info with iJcond := i }) q fun _ q' =>
      (q₀.inLoop { info with iJcond := i }).Onward q' ∧ q'.blk.kinst = q.blk.kinst := by
  intro c hc
  obtain ⟨info', rest, hloop, hinfo, hrest⟩ := h.in_loop
  have hrun : onLoop (fun info => { info with iJcond := i }) q =
      .ok () { q with loop := { info' with iJcond := i } :: rest } := by
    rcases q with ⟨lex, lah, blk, outer, loop, forId, heap, stk⟩
    obtain rfl := hloop
    rfl
  rw [hrun]
  refine ⟨⟨c, hc.notes, ?_, hc.stk⟩, rfl, ⟨h.kinst, h.outer, h.heap, ?_⟩, rfl⟩
  · rw [hc.loops, hloop]
    rfl
  · injection hinfo with hretry hcond
    injection hcond with _ hdeath
    refine congrArg₂ List.cons ?_ hrest
    simp only [LoopInfo.places, hretry, hdeath]

/-- At the end of a loop its places lie in the code, but perhaps for those of its
`break`s. -/
theorem fits_loopLeave (h : (q₀.inLoop info).Onward q) (hretry : info.iRetry ≤ q.blk.kinst)
    (hcond : info.death = false → info.iJcond < q.blk.kinst) :
    FitsAt base (Hooks.noting src).loopLeave q fun _ q' => q₀.Onward q' := by
  intro c hc
  obtain ⟨info', rest, hloop, hinfo, hrest⟩ := h.in_loop
  have hloops : c.loops =
      (info'.iRetry, info'.jmt) :: rest.map fun info => (info.iRetry, info.jmt) := by
    rw [hc.loops, hloop, List.map_cons]
  have hstep := outlineOf_concat hc.notes (.loopEnd q.blk.kinst)
  simp only [Outline.step, hloops] at hstep
  have hnote : (Hooks.noting src).site .leave q =
      .ok () { q with lex := (q.lex.1, q.lex.2 ++ [.loopEnd q.blk.kinst]) } := rfl
  injection hinfo with hiRetry hplaces
  injection hplaces with hiJcond hdeath
  rw [Hooks.loopLeave, bind_of_ok hnote]
  -- a `break` held behind the end of the loop fails the assertion of `ymk_loop_leave`
  by_cases hjmt : ∀ i ∈ info'.jmt, i ≤ q.blk.kinst
  · obtain ⟨core, hkinst, hleave⟩ := ymkLoopLeave_ok
      (p := { q with lex := (q.lex.1, q.lex.2 ++ [.loopEnd q.blk.kinst]) }) hloop
      (hiRetry ▸ hretry) (fun hd => hiJcond ▸ hcond (hdeath ▸ hd)) hjmt
    rw [bind_of_ok hleave]
    exact ⟨⟨_, hstep.trans (if_pos hjmt), rfl, hc.stk⟩, rfl, h.kinst.trans hkinst, h.outer, h.heap,
      hrest⟩
  · obtain ⟨text, q', hleave, hlex⟩ := ymkLoopLeave_error
      (p := { q with lex := (q.lex.1, q.lex.2 ++ [.loopEnd q.blk.kinst]) }) hloop
      (hiRetry ▸ hretry) hjmt
    rw [bind_of_error hleave]
    refine .inl ⟨Abort.not_isRegular_assertion text, ?_⟩
    rw [hlex]
    exact hstep.trans (if_neg hjmt)

/-! ## Jumps -/

theorem isRegular_bounds {t : String} (h : t = "jout" ∨ t = "p->loop->jmt" ∨ t = "p->loop" ∨ t = "desc->name") :
    (Abort.fault (.bounds t)).IsRegular := .inr (.inr h)

theorem fitting_holdBreak : Fitting base (Hooks.noting src).holdBreak := by
  intro q c hc
  have hstep := outlineOf_concat hc.notes (.break' q.blk.kinst)
  rcases q with ⟨lex, lah, blk, outer, _ | ⟨info, loop⟩, forId, heap, stk⟩
  · have hloops : c.loops = [] := hc.loops
    simp only [Outline.step, hloops] at hstep
    exact .inr ⟨isRegular_bounds (by simp), List.suffix_refl _, c, hstep, hc.stk⟩
  · have hloops : c.loops =
        (info.iRetry, info.jmt) :: loop.map fun info => (info.iRetry, info.jmt) := hc.loops
    simp only [Outline.step, hloops] at hstep
    have hgoto : (Hooks.noting src).goto true ⟨lex, lah, blk, outer, info :: loop, forId, heap, stk⟩ =
        (Hooks.plain src.noted).goto true
          ⟨(lex.1, lex.2 ++ [.break' blk.kinst]), lah, blk, outer, info :: loop, forId, heap, stk⟩ := rfl
    rw [plain_goto_apply src.noted true rfl] at hgoto
    -- a full table is no crash for the outline: the events say of it
    by_cases hfull : 128 ≤ info.jmt.length
    · rw [if_pos ⟨rfl, hfull⟩] at hgoto
      rw [Hooks.holdBreak, bind_of_error hgoto]
      exact .inr ⟨isRegular_bounds (by simp), List.suffix_refl _, _, hstep, hc.stk⟩
    · rw [if_neg fun h => hfull h.2] at hgoto
      rw [Hooks.holdBreak, bind_of_ok hgoto]
      refine ⟨⟨_, hstep, rfl, hc.stk⟩, rfl, ?_, rfl, fun _ f h => ⟨f, h⟩, rfl⟩
      exact grows_emit _ blk

theorem fitting_retry : Fitting base ((Hooks.noting src).retry >>= fun target => ymkEmitJmp target) := by
  intro q c hc
  have hstep := outlineOf_concat hc.notes (.continue' q.blk.kinst)
  rcases q with ⟨lex, lah, blk, outer, _ | ⟨info, loop⟩, forId, heap, stk⟩
  · have hloops : c.loops = [] := hc.loops
    simp only [Outline.step, hloops] at hstep
    exact .inr ⟨isRegular_bounds (by simp), List.suffix_refl _, c, hstep, hc.stk⟩
  · have hloops : c.loops =
        (info.iRetry, info.jmt) :: loop.map fun info => (info.iRetry, info.jmt) := hc.loops
    simp only [Outline.step, hloops] at hstep
    have hretry : (Hooks.noting src).retry ⟨lex, lah, blk, outer, info :: loop, forId, heap, stk⟩ =
        .ok info.iRetry
          ⟨(lex.1, lex.2 ++ [.continue' blk.kinst]), lah, blk, outer, info :: loop, forId, heap, stk⟩ :=
      rfl
    rw [bind_of_ok hretry, ymkEmitJmp, bind_of_ok (get_apply _)]
    -- the assertion of `ymk_emit_jmp`: a jump leads back
    by_cases hle : info.iRetry ≤ blk.kinst
    · rw [assert_of hle, pure_bind]
      refine ⟨⟨c, hstep.trans (if_pos hle), hc.loops, hc.stk⟩, rfl, ?_, rfl, fun _ f h => ⟨f, h⟩, rfl⟩
      exact grows_emit _ blk
    · rw [assert, if_neg hle]
      exact .inl ⟨Abort.not_isRegular_assertion _, hstep.trans (if_neg hle)⟩

end

end

end Ymd
