import Ymd.Compiler.Places

/-! # Crashes

Every production is one that the outline fits, so a compilation crashes exactly when
the outline of its notes says so.
-/

namespace Ymd

open Foundation

variable {σ : Type}

/-! ## Operators -/

section

variable {src : Source σ} {base : Nat} {q q₀ : Parser (Logged σ Note)}

theorem fitting_branch (jout : List Nat) : Fitting base ((Hooks.noting src).branch jout) := by
  change Fitting base (if 128 ≤ jout.length then throw (.fault (.bounds "jout")) else pure ())
  exact .ite (.throw (isRegular_bounds (by simp))) (.pure ())

theorem fits_holdJout {jout : List Nat} (hjout : ∀ i ∈ jout, i < q.blk.kinst) :
    FitsAt base ((Hooks.noting src).holdJout jout) q fun jout' q' =>
      q.Onward q' ∧ ∀ i ∈ jout', i < q'.blk.kinst := by
  refine (fitting_branch jout q).bind fun _ q₁ h₁ => (fits_hold q₁).bind fun i q₂ h₂ => ?_
  have h := h₁.trans h₂.1
  refine FitsAt.pure ⟨h, fun j hj => ?_⟩
  rcases List.mem_append.1 hj with hj | hj
  · exact (hjout j hj).trans_le h.kinst
  · exact List.mem_singleton.1 hj ▸ h₂.2

/-- What is held for an operator is filled in behind its second operand. -/
theorem fits_holdLogc (op : BinaryOp) (q : Parser (Logged σ Note)) :
    FitsAt base (ymkHoldLogc op) q fun i q' =>
      q.Onward q' ∧ ∀ q₁, q'.Onward q₁ → FitsAt base (ymkBinary op i) q₁ fun _ q₂ => q.Onward q₂ := by
  have hhold : ∀ op', FitsAt base ymkHold q fun i q' =>
      q.Onward q' ∧ ∀ q₁, q'.Onward q₁ → FitsAt base (ymkHackJmp i op') q₁ fun _ q₂ => q.Onward q₂ :=
    fun op' => (fits_hold q).mono fun i q' h =>
      ⟨h.1, fun q₁ h₁ => fits_hackJmp (h.1.trans h₁) (h.2.trans_le h₁.kinst) op'⟩
  have hnone : ∀ (op' : Opcode) flag, FitsAt base (pure 0) q fun _ q' =>
      q.Onward q' ∧ ∀ q₁, q'.Onward q₁ →
        FitsAt base (ymkEmitOfP op' flag 0) q₁ fun _ q₂ => q.Onward q₂ :=
    fun op' flag => FitsAt.pure ⟨.refl q, fun q₁ h₁ => (fitting_onBlk (grows_emit _)).from h₁⟩
  -- `and` and `or` hold a jump behind the first operand, the others hold nothing
  cases op <;> first
    | exact hhold _
    | exact hnone _ _

/-! ## Notes -/

theorem fitting_note {n : Note} (hn : ∀ c : Outline, c.step base n = some c) :
    Fitting base (note n : ParseM (Logged σ Note) Unit) :=
  fun _ c hc => ⟨⟨c, (outlineOf_concat hc.notes n).trans (hn c), hc.loops, hc.stk⟩, rfl,
    ⟨le_rfl, rfl, fun _ f h => ⟨f, h⟩, rfl⟩⟩

/-- A crash that is noted. -/
theorem fitting_crash {α : Type} {n : Note} {e : Abort}
    (hn : ∀ c : Outline, c.step base n = none) (he : ¬ e.IsRegular) :
    Fitting base (do note n; throw e : ParseM (Logged σ Note) α) :=
  fun _ c hc => .inl ⟨he, (outlineOf_concat hc.notes n).trans (hn c)⟩

theorem fitting_stmt : Fitting base (Hooks.noting src).stmt :=
  Fitting.bind (coding_fitting src base).peek fun _ =>
    .ite (fitting_crash (n := .withStmt) (fun _ => rfl) (Abort.not_isRegular_panic "with")) (.pure ())

end

/-- The recursive calls fit the outline. -/
structure Rec.Fits (base : Nat) (r : Rec (Logged σ Note)) : Prop where
  expr : ∀ limit, Fitting base (r.expr limit)
  block : ∀ n, Fitting base (blockStmts r n)

section

variable {src : Source σ} {base : Nat} {r : Rec (Logged σ Note)} (hr : r.Fits base)
  {q q₀ : Parser (Logged σ Note)}

include hr

theorem Rec.Fits.related : Related (fun {_} _ y => Fitting base y) r r :=
  ⟨hr.expr, fun _ => hr.block _, .inl rfl⟩

theorem fitting_binaries (limit n : Nat) (e : Tree .expr) (op : Option BinaryOp) :
    Fitting base (binaries src.noted r limit n e op) := by
  have hR := productions_fitting src base
  induction n generalizing e op with
  | zero => exact hR.fuel
  | succ n ih =>
      cases op with
      | none => exact .pure _
      | some op =>
          refine .ite (Fitting.bind hR.next fun _ q => ?_) (.pure _)
          refine (fits_holdLogc op q).bind fun i q₁ h₁ => ?_
          refine (hr.expr _ q₁).bind fun x q₂ h₂ => (h₁.2 q₂ h₂).bind fun _ q₃ h₃ => ?_
          exact (ih _ _).from h₃

/-! ## Functions -/

/-- The place where the function is loaded is held in front of it. -/
theorem fits_parseFuncDecl (first : Bytes) (isLocal : Bool) (q : Parser (Logged σ Note)) :
    FitsAt base ((Hooks.noting src).parseFuncDecl src.noted r first isLocal) q fun x q' =>
      q.Onward q' ∧ x.2.loadP < q'.blk.kinst := by
  have hR := productions_fitting src base
  refine (fitting_name src base first q).bind fun _ q₁ h₁ => ?_
  refine (Fitting.from hR.peek h₁).bind fun _ q₂ h₂ => FitsAt.ite (fun _ => ?_) fun _ => ?_
  · refine (Fitting.from (hR.emitPush first) h₂).bind fun _ q₃ h₃ => ?_
    refine (Fitting.from (hR.declPath hr.related.fuel none first) h₃).bind fun x q₄ h₄ => ?_
    refine (fits_hold q₄).bind fun loadP q₅ h₅ => ((hR.emitSetf _) q₅).bind fun _ q₆ h₆ => ?_
    exact FitsAt.pure ⟨(h₄.trans h₅.1).trans h₆, h₅.2.trans_le h₆.kinst⟩
  · refine (fits_hold q₂).bind fun loadP q₃ h₃ => ?_
    have hrest : ∀ q₄, q₃.Onward q₄ → FitsAt base (do
        ymkEmitStore first
        return ([first], (⟨false, first, loadP, 0⟩ : FuncDeclDesc))) q₄ fun x q' =>
          q.Onward q' ∧ x.2.loadP < q'.blk.kinst := fun q₄ h₄ => by
      refine (Fitting.from (hR.emitStore first) h₄).bind fun _ q₅ h₅ => ?_
      exact FitsAt.pure ⟨(h₂.trans h₃.1).trans h₅, h₃.2.trans_le h₅.kinst⟩
    exact FitsAt.ite (fun _ => ((hR.newLocvar first) q₃).bind fun _ q₄ h₄ => hrest q₄ h₄)
      fun _ => hrest q₃ (.refl q₃)

theorem fitting_parseFunc (isLocal : Bool) :
    Fitting base ((Hooks.noting src).parseFunc src.noted r isLocal) := by
  have hR := productions_fitting src base
  have hrest : Fitting base (ymkSymbol src.noted >>= fun first =>
      (Hooks.noting src).parseFuncDecl src.noted r first isLocal >>= fun x =>
        (Hooks.noting src).funcScope x.2.name (pure ([], .zero)) (fun _ => x.2)
          (Hooks.funcInner src.noted r x.2.method) >>= fun y => pure (Tree.funcDecl x.1 y.2)) := by
    refine Fitting.bind hR.symbol fun first q => ?_
    refine (fits_parseFuncDecl hr first isLocal q).bind fun x q₁ h₁ => ?_
    have hscope := fits_scope src x.2.name (fun _ => x.2) (.pure ([], .zero))
      (hR.funcInner hr.related x.2.method) fun _ => h₁.2
    exact (hscope.mono fun _ _ h => h₁.1.trans h).bind fun _ _ h => FitsAt.pure h
  refine Fitting.bind hR.next fun _ => Fitting.bind hR.peek fun _ => .ite ?_ hrest
  exact Fitting.bind (.throw (Abort.isRegular_fail _)) fun _ => hrest

theorem fitting_parseClosure : Fitting base ((Hooks.noting src).parseClosure src.noted r) := by
  have hR := productions_fitting src base
  refine Fitting.bind hR.next fun _ q => (fits_hold q).bind fun loadP q₁ h₁ => FitsAt.get ?_
  have hscope := fits_scope src
    (lit "__blk_xl" ++ lit (toString (src.noted.line q₁.lex)) ++ lit "__")
    (fun binds => ⟨false, [], loadP, binds.length % 2 ^ 16⟩) (hR.closureBinds hr.related)
    (hR.funcInner hr.related false) fun _ => h₁.2
  exact (hscope.mono fun _ _ h => h₁.1.trans h).bind fun _ _ h => FitsAt.pure h

/-! ## Operands -/

omit hr

theorem fitting_decLiteral (raw : Bytes) : Fitting base ((Hooks.noting src).decLiteral raw) := by
  unfold Hooks.decLiteral
  cases hraw : dtoll raw with
  | none =>
      refine fitting_crash (n := .dec raw) (fun c => if_neg ?_) (Abort.not_isRegular_assertion "ok")
      rw [hraw]
      exact Bool.false_ne_true
  | some imm =>
      refine Fitting.bind (fitting_note (n := .dec raw) fun c => if_pos ?_) fun _ =>
        (productions_fitting src base).emitInt imm
      rw [hraw]
      rfl

theorem fitting_hexLiteral (raw : Bytes) : Fitting base ((Hooks.noting src).hexLiteral raw) := by
  unfold Hooks.hexLiteral
  rcases hraw : xtoll raw with f | _ | imm
  · obtain ⟨text, rfl⟩ := xtoll_error hraw
    refine fitting_crash (n := .hex raw) (fun c => ?_) (Abort.not_isRegular_assertion text)
    rw [Outline.step, hraw]
  · refine fitting_crash (n := .hex raw) (fun c => ?_) (Abort.not_isRegular_assertion "ok")
    rw [Outline.step, hraw]
  · refine Fitting.bind (fitting_note (n := .hex raw) fun c => ?_) fun _ =>
      (productions_fitting src base).emitInt imm
    rw [Outline.step, hraw]

include hr

theorem fitting_parseExpr (limit : Nat) :
    Fitting base ((Hooks.noting src).parseExpr src.noted r limit) := by
  have hR := productions_fitting src base
  have hsimple := hR.parseSimple hr.related fitting_decLiteral fitting_hexLiteral
    (fitting_parseClosure hr)
  exact Fitting.bind (hR.parseOperand hr.related hsimple) fun e => Fitting.bind hR.peek fun _ =>
    fitting_binaries hr limit _ e _

/-! ## Branches -/

theorem fits_elifs (n jnxt : Nat) (jout : List Nat) (nsub : Nat) (hnxt : jnxt < q.blk.kinst)
    (hjout : ∀ i ∈ jout, i < q.blk.kinst) :
    FitsAt base ((Hooks.noting src).elifs src.noted r n jnxt jout nsub) q
      fun _ q' => q.Onward q' := by
  have hR := productions_fitting src base
  induction n generalizing jnxt jout nsub q with
  | zero => exact FitsAt.throw (.inr (.inl rfl))
  | succ n ih =>
      refine (hR.peek q).bind fun token q₁ h₁ => ?_
      have hnxt₁ := hnxt.trans_le h₁.kinst
      have hjout₁ : ∀ i ∈ jout, i < q₁.blk.kinst := fun i hi => (hjout i hi).trans_le h₁.kinst
      -- another branch is held, and the jump to it filled in
      have hbranch : ∀ {rest : List Nat → ParseM (Logged σ Note) (Tree .elifs)},
          (∀ jout' q₂, q.Onward q₂ → (∀ i ∈ jout', i < q₂.blk.kinst) →
            FitsAt base (rest jout') q₂ fun _ q' => q.Onward q') →
          FitsAt base (do
            ymcNext src.noted
            let jout ← (Hooks.noting src).holdJout jout
            ymkHackJmp jnxt .jne
            rest jout) q₁ fun _ q' => q.Onward q' := fun hrest => by
        refine (Fitting.from hR.next h₁).bind fun _ q₂ h₂ => ?_
        refine (fits_holdJout fun i hi => (hjout i hi).trans_le h₂.kinst).bind fun jout' q₃ h₃ => ?_
        have h := h₂.trans h₃.1
        refine (fits_hackJmp (.refl q₃) (hnxt.trans_le h.kinst) .jne).bind fun _ q₄ h₄ => ?_
        exact hrest jout' q₄ (h.trans h₄) fun i hi => (h₃.2 i hi).trans_le h₄.kinst
      split
      -- `elif`
      · refine hbranch fun jout' q₂ h₂ hjout' => ((hr.expr 0) q₂).bind fun cond q₃ h₃ => ?_
        refine (fits_hold q₃).bind fun jnxt' q₄ h₄ => ?_
        refine ((hR.parseBlock hr.related) q₄).bind fun body q₅ h₅ => ?_
        have h := (h₃.trans h₄.1).trans h₅
        refine (ih jnxt' jout' (nsub + 1) (h₄.2.trans_le h₅.kinst)
          fun i hi => (hjout' i hi).trans_le h.kinst).bind fun _ q₆ h₆ => ?_
        exact FitsAt.pure ((h₂.trans h).trans h₆)
      -- `else`
      · refine hbranch fun jout' q₂ h₂ hjout' => ?_
        refine ((hR.parseBlock hr.related) q₂).bind fun body q₃ h₃ => ?_
        refine (fits_fillJout h₃ fun i hi => hjout' i (List.mem_reverse.1 hi)).bind
          fun _ q₄ h₄ => ?_
        exact FitsAt.pure (h₂.trans h₄)
      -- neither
      · refine (fits_fillJout (Parser.Onward.refl q₁) fun i hi => hjout₁ i (List.mem_reverse.1 hi)).bind
          fun _ q₂ h₂ => ?_
        have h := h₁.trans h₂
        refine FitsAt.ite (fun _ => ?_) fun _ => FitsAt.pure h
        exact (fits_hackJmp h (hnxt.trans_le h.kinst) .jne).bind fun _ _ h => FitsAt.pure h

theorem fitting_parseIf : Fitting base ((Hooks.noting src).parseIf src.noted r) := by
  have hR := productions_fitting src base
  refine Fitting.bind hR.next fun _ => Fitting.bind (.pure ()) fun _ => ?_
  refine Fitting.bind (hr.expr 0) fun cond q => (fits_hold q).bind fun jnxt q₁ h₁ => ?_
  refine ((hR.parseBlock hr.related) q₁).bind fun body q₂ h₂ => ?_
  refine (fits_elifs hr r.fuel jnxt [] 0 (h₁.2.trans_le h₂.kinst) fun i hi => by cases hi).bind
    fun _ q₃ h₃ => ?_
  exact FitsAt.pure ((h₁.1.trans h₂).trans h₃)

/-! ## Loops -/

/-- The body of a loop, which starts again at a place in front of it. -/
theorem fits_loopBody {info : LoopInfo} (h : (q₀.inLoop info).Onward q)
    (hretry : info.iRetry ≤ q.blk.kinst) (hcond : info.death = false → info.iJcond < q.blk.kinst)
    (s : Tree .block → Tree .stmt) :
    FitsAt base (do
      let body ← parseBlock src.noted r
      (Hooks.noting src).loopLeave
      return s body) q fun _ q' => q₀.Onward q' := by
  have hR := productions_fitting src base
  refine ((hR.parseBlock hr.related) q).bind fun body q₁ h₁ => ?_
  refine (fits_loopLeave src (h.trans h₁) (hretry.trans h₁.kinst)
    fun hd => (hcond hd).trans_le h₁.kinst).bind fun _ _ h => FitsAt.pure h

theorem fits_parseIn (tmp : Bytes) (h : (q₀.inLoop ⟨0, 0, [], false⟩).Onward q) :
    FitsAt base ((Hooks.noting src).parseIn src.noted r tmp) q fun _ q' => q₀.Onward q' := by
  have hR := productions_fitting src base
  have hiter : Fitting base (Hooks.freshIter : ParseM (Logged σ Note) Bytes) := fun q =>
    FitsAt.of_ok rfl rfl rfl rfl ⟨le_rfl, rfl, fun _ f h => ⟨f, h⟩, rfl⟩
  refine (Fitting.from (hR.matching .IN) h).bind fun _ q₁ h₁ => ?_
  refine (Fitting.from (hr.expr 0) h₁).bind fun e q₂ h₂ => ?_
  refine (Fitting.from hiter h₂).bind fun iter q₃ h₃ => ?_
  refine (Fitting.from (hR.newLocvar iter) h₃).bind fun i q₄ h₄ => ?_
  refine (Fitting.from (hR.emit .store Flag.loc i) h₄).bind fun _ q₅ h₅ => ?_
  refine fits_startAgain src (fun retry info => { info with iRetry := retry }) h₅
    (fun _ _ => ⟨rfl, rfl⟩) (fun _ _ _ hplaces => ?_) fun q₆ h₆ hkinst => ?_
  · injection hplaces with _ hplaces
    exact congrArg (Prod.mk _) hplaces
  refine ((hR.emitPush iter) q₆).bind fun _ q₇ h₇ => ?_
  refine (Fitting.from (hR.emitCall .call 1 0 0) h₇).bind fun _ q₈ h₈ => ?_
  refine (fits_hold q₈).bind fun jcond q₉ h₉ => ?_
  have hon := h₈.trans h₉.1
  refine (fits_setCond (h₆.trans hon)).bind fun _ q₁₀ h₁₀ => ?_
  refine ((hR.emitStore tmp) q₁₀).bind fun _ q₁₁ h₁₁ => ?_
  have hle : q₉.blk.kinst ≤ q₁₁.blk.kinst := h₁₀.2 ▸ h₁₁.kinst
  refine fits_loopBody hr (h₁₀.1.trans h₁₁) ?_ (fun _ => h₉.2.trans_le hle) (Tree.forIn tmp e.1)
  exact (Nat.mod_le _ _).trans ((hkinst ▸ hon.kinst).trans hle)

theorem fitting_parseFor : Fitting base ((Hooks.noting src).parseFor src.noted r) := by
  have hR := productions_fitting src base
  refine Fitting.bind hR.next fun _ q => (fits_loopEnter src q).bind fun _ q₁ h₁ => ?_
  refine (Fitting.from hR.peek h₁).bind fun token q₂ h₂ => ?_
  split
  -- a loop without a condition begins where its body does
  · refine fits_startAgain src (fun retry info =>
      { info with death := true, iRetry := retry }) h₂
      (fun _ _ => ⟨rfl, rfl⟩) (fun _ _ _ hplaces => ?_) fun q₃ h₃ hkinst => ?_
    · injection hplaces with _ hplaces
      injection hplaces with hcond
      exact congrArg (fun i => (_, i, true)) hcond
    · exact fits_loopBody hr h₃ (hkinst ▸ Nat.mod_le _ _) nofun .forever
  · refine (Fitting.from hR.next h₂).bind fun _ q₃ h₃ => ?_
    refine (Fitting.from hR.symbol h₃).bind fun tmp q₄ h₄ => ?_
    refine (Fitting.from (hR.newLocvar tmp) h₄).bind fun _ q₅ h₅ => fits_parseIn hr tmp h₅
  · exact (Fitting.from hR.symbol h₂).bind fun tmp q₃ h₃ => fits_parseIn hr tmp h₃
  · exact FitsAt.throw (Abort.isRegular_fail _)

/-! ## Statements -/

theorem fitting_parseStmt : Fitting base ((Hooks.noting src).parseStmt src.noted r) := by
  have hR := productions_fitting src base
  refine hR.parseStmt hr.related (fitting_parseIf hr) (fitting_parseFor hr) (fitting_parseFunc hr) ?_ ?_
  · exact Fitting.bind (fitting_holdBreak src) fun _ => Fitting.bind hR.next fun _ => .pure _
  · have hjmp : Fitting base ((Hooks.noting src).retry >>= fun target => ymkEmitJmp target) :=
      fitting_retry src
    have hcontinue := hjmp.bind fun _ => Fitting.bind hR.next fun _ => .pure (Tree.continue')
    rw [bind_assoc] at hcontinue
    exact hcontinue

omit hr in
theorem fits_parsing (src : Source σ) (base depth : Nat) :
    ((Hooks.noting src).parser src.noted depth).Fits base ∧
      Fitting base ((Hooks.noting src).parser src.noted depth).stmt := by
  have hR := productions_fitting src base
  have hblock : ∀ {r : Rec (Logged σ Note)}, Fitting base r.stmt → ∀ n,
      Fitting base (blockStmts r n) :=
    fun {r} hstmt _ => hR.blockStmts (r := r) hstmt (.inl rfl)
  induction depth with
  | zero => exact ⟨⟨fun _ => hR.fuel, hblock hR.fuel⟩, hR.fuel⟩
  | succ depth ih =>
      have hstmt : Fitting base ((Hooks.noting src).parser src.noted (depth + 1)).stmt :=
        Fitting.bind fitting_stmt fun _ => fitting_parseStmt ih.1
      exact ⟨⟨fitting_parseExpr ih.1, hblock hstmt⟩, hstmt⟩

/-! ## Compilations -/

omit hr in
theorem fits_ymcCompile (src : Source σ) (depth : Nat) {fn : Addr} {f : Func}
    (hfn : q.heap.obj fn = some (.func f)) :
    FitsAt base ((Hooks.noting src).ymcCompile src.noted depth fn) q fun _ q' => q.Onward q' := by
  have hR := productions_fitting src base
  have hbody : Fitting base (do
      let body ← topStmts ((Hooks.noting src).parser src.noted depth) depth
      ymkEmitEnd
      return body) :=
    Fitting.bind (hR.topStmts (r := (Hooks.noting src).parser src.noted depth)
      (fits_parsing src base depth).2 (.inl rfl)) fun _ => Fitting.bind hR.emitEnd fun _ => .pure _
  refine (Fitting.from hR.next (.refl q)).bind fun _ q₁ h₁ => ?_
  obtain ⟨f₁, hf₁⟩ := h₁.heap fn f hfn
  have hrest : ∀ (body : Tree .block) q₂, q₁.Onward q₂ →
      FitsAt base (pure (Tree.func fn [] body)) q₂ fun _ q' => q.Onward q' :=
    fun _ _ h => FitsAt.pure (h₁.trans h)
  have hchunk := (fits_chunk (Chunk.zero.addLz (lit "argv")).1 hbody hf₁).bind hrest
  simp only [bind_assoc, pure_bind] at hchunk
  exact hchunk

omit hr in
/-- With room for its function a compilation succeeds with the function on the operand
stack, or fails with the functions on it that are open, or crashes where the outline
says so. -/
theorem noting_ends (src : Source σ) (depth : Nat) (name : Bytes) (lex : σ) (heap : Heap)
    {stk : List Variable} (hroom : stk.length < maxStack) :
    match (Hooks.noting src).ymdCompile src.noted depth name (.init (lex, []) heap stk) with
    | .ok _ q => q.stk = .func heap.next :: stk ∧
        ∃ c, outlineOf (stk.length + 1) q.lex.2 = some c ∧ q.stk.length = stk.length + 1 + c.funcs
    | .error e q => ¬ e.IsRegular ∧ outlineOf (stk.length + 1) q.lex.2 = none ∨
        e.IsRegular ∧ .func heap.next :: stk <:+ q.stk ∧
          ∃ c, outlineOf (stk.length + 1) q.lex.2 = some c ∧ q.stk.length = stk.length + 1 + c.funcs := by
  obtain ⟨q₁, hfunc, -, hlex, -, hloop, hstk, f, hf⟩ := ymdFunc_of_room (σ := Logged σ Note) name
    (p := .init (lex, []) heap stk) hroom
  have houtlined : Outlined (stk.length + 1) ⟨0, []⟩ q₁ := by
    refine ⟨?_, ?_, ?_⟩
    · rw [hlex]
      rfl
    · rw [hloop]
      rfl
    · rw [hstk]
      rfl
  have hends := fits_ymcCompile src depth hf _ houtlined
  rw [hstk] at hends
  rw [Hooks.ymdCompile, bind_of_ok hfunc]
  rcases hrun : (Hooks.noting src).ymcCompile src.noted depth
    (Parser.init (lex, ([] : List Note)) heap stk).heap.next q₁ with ⟨a, q⟩ | ⟨e, q⟩
  · rw [hrun] at hends
    obtain ⟨⟨c, hc⟩, hstk', -⟩ := hends
    exact ⟨hstk', c, hc.notes, hc.stk⟩
  · rw [hrun] at hends
    exact hends

end

end Ymd
