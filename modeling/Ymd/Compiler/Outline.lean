import Ymd.Compiler.Limits
import Ymd.Compiler.Progress

/-! # The outline of a program

Whether a compilation crashes is said by the places of a program's functions, loops,
jumps and literals. They are noted in front of everything that may crash; a token that
the lexer does not come back with is noted as well, and `ERROR` stands for it.
-/

namespace Ymd

open Foundation

variable {σ : Type}

/-- What is noted. A place is the number of instructions of the function so far. -/
inductive Note
  | withStmt
  | unread
  | dec (raw : Bytes)
  | hex (raw : Bytes)
  | function
  | functionEnd
  | loop
  | retry (place : Nat)
  | break' (place : Nat)
  | continue' (place : Nat)
  | loopEnd (place : Nat)
  deriving DecidableEq

/-- The number of nested functions that are open, and for each open loop the place
where it starts again and those of its `break`s, in 16 bits. -/
structure Outline where
  funcs : Nat
  loops : List (Nat × List Nat)

/-- A note that says nothing of a crash; `base` entries are on the operand stack besides
the nested functions. Jumps may leave a function: the loop around it has places of its
own. -/
def Outline.step (base : Nat) (c : Outline) : Note → Option Outline
  | .withStmt => none
  | .unread => some c
  | .dec raw => if (dtoll raw).isSome then some c else none
  | .hex raw =>
      match xtoll raw with
      | .ok (some _) => some c
      | _ => none
  | .function => if base + c.funcs < maxStack then some { c with funcs := c.funcs + 1 } else none
  | .functionEnd => some { c with funcs := c.funcs - 1 }
  | .loop => some { c with loops := (0, []) :: c.loops }
  | .retry place =>
      match c.loops with
      | [] => some c
      | (_, jmt) :: rest => some { c with loops := (place % 2 ^ 16, jmt) :: rest }
  | .break' place =>
      match c.loops with
      | [] => some c
      | (retry, jmt) :: rest => some { c with loops := (retry, jmt ++ [place % 2 ^ 16]) :: rest }
  | .continue' place =>
      match c.loops with
      | [] => some c
      | (retry, _) :: _ => if retry ≤ place then some c else none
  | .loopEnd place =>
      match c.loops with
      | [] => some c
      | (_, jmt) :: rest => if ∀ i ∈ jmt, i ≤ place then some { c with loops := rest } else none

/-- What is open behind some notes, none of which says of a crash. -/
def outlineOf (base : Nat) (log : List Note) : Option Outline :=
  log.foldlM (Outline.step base) ⟨0, []⟩

theorem outlineOf_concat {base : Nat} {log : List Note} {c : Outline}
    (hlog : outlineOf base log = some c) (n : Note) : outlineOf base (log ++ [n]) = c.step base n := by
  unfold outlineOf at hlog ⊢
  rw [List.foldlM_append, hlog]
  change (do
    let c' ← c.step base n
    some c') = _
  cases c.step base n <;> rfl

/-! ## The parser that notes -/

/-- The same tokens, and `ERROR` instead of one that the lexer does not come back with. -/
def Source.noted (src : Source σ) : Source (Logged σ Note) where
  next x :=
    match src.next x.1 with
    | .ok (lah, lex) => .ok (lah, (lex, x.2))
    | .error _ => .ok (⟨.ERROR, 0, 0, []⟩, (x.1, x.2 ++ [.unread]))
  line x := src.line x.1

/-- The number of instructions of the function so far. -/
def place : ParseM σ Nat := do return (← get).blk.kinst

def noteSite : Site → ParseM (Logged σ Note) Unit
  | .function => note .function
  | .dec raw => note (.dec raw)
  | .hex raw => note (.hex raw)
  | .retry => do note (.retry (← place))
  | .leave => do note (.loopEnd (← place))

/-- The checked parser, with notes. -/
def Hooks.noting (src : Source σ) : Hooks (Logged σ Note) :=
  { Hooks.plain src.noted with
    stmt := do
      if (← ymcPeek) = .WITH then
        note .withStmt
        throw .with
      else return ()
    function := fun x => do
      let a ← x
      note .functionEnd
      return a
    goto := fun isBreak => do
      let here ← place
      note (if isBreak then .break' here else .continue' here)
      (Hooks.plain src.noted).goto isBreak
    mark := fun m => if m = .loopBegin then note .loop else pure ()
    site := noteSite }

/-- The notes of a compilation. -/
def notesOf (src : Source σ) (depth : Nat) (name : Bytes) (lex : σ) (heap : Heap)
    (stk : List Variable) : List Note :=
  (stateOf ((Hooks.noting src).ymdCompile src.noted depth name (.init (lex, []) heap stk))).lex.2

/-! ## Without the notes -/

/-- The second computation does what the first one does, with notes, until the lexer does
not come back with a token. -/
structure Erases (src : Source σ) {α : Type} (x : ParseM σ α) (y : ParseM (Logged σ Note) α) :
    Prop where
  appends : Appends y
  ends : ∀ p log, .unread ∉ log → match x p with
    | .ok a p' => ∃ log', y (p.logged log) = .ok a (p'.logged log') ∧ .unread ∉ log'
    | .error e p' =>
        (∃ log', y (p.logged log) = .error e (p'.logged log') ∧ .unread ∉ log') ∨
          (∃ lex f, e = .fault f ∧ src.next lex = .error f) ∧
            .unread ∈ (stateOf (y (p.logged log))).lex.2

namespace Erases

variable {α β : Type} {src : Source σ} {x : ParseM σ α} {y : ParseM (Logged σ Note) α}
  {f : α → ParseM σ β} {g : α → ParseM (Logged σ Note) β}

theorem of_alike (h : Alike x y) : Erases src x y := by
  refine ⟨h.appends, fun p log hlog => ?_⟩
  have hrun := h p log
  cases hxp : x p with
  | ok a p' =>
      rw [hxp] at hrun
      exact ⟨log, hrun, hlog⟩
  | error e p' =>
      rw [hxp] at hrun
      exact .inl ⟨log, hrun, hlog⟩

theorem bind (hx : Erases src x y) (hf : ∀ a, Erases src (f a) (g a)) :
    Erases src (x >>= f) (y >>= g) := by
  refine ⟨hx.appends.bind fun a => (hf a).appends, fun p log hlog => ?_⟩
  have hrun := hx.ends p log hlog
  cases hxp : x p with
  | ok a p₁ =>
      rw [hxp] at hrun
      obtain ⟨log₁, hy, hlog₁⟩ := hrun
      rw [bind_of_ok hxp, bind_of_ok hy]
      exact (hf a).ends p₁ log₁ hlog₁
  | error e p₁ =>
      rw [hxp] at hrun
      rw [bind_of_error hxp]
      rcases hrun with ⟨log₁, hy, hlog₁⟩ | ⟨hfault, hunread⟩
      · exact .inl ⟨log₁, bind_of_error hy, hlog₁⟩
      · refine .inr ⟨hfault, ?_⟩
        cases hyq : y (p.logged log) with
        | ok a q₁ =>
            rw [hyq] at hunread
            obtain ⟨more, hmore⟩ := (hf a).appends q₁
            rw [bind_of_ok hyq, hmore]
            exact List.mem_append_left more hunread
        | error e' q₁ =>
            rw [hyq] at hunread
            rw [bind_of_error hyq]
            exact hunread

/-- A note that is not of a missing token. -/
theorem noting {y : ParseM (Logged σ Note) Unit} {n : Parser (Logged σ Note) → Note}
    (hy : ∀ q, y q = .ok () { q with lex := (q.lex.1, q.lex.2 ++ [n q]) })
    (hn : ∀ q, n q ≠ .unread) : Erases src (Pure.pure () : ParseM σ Unit) y := by
  refine ⟨fun q => ?_, fun p log hlog => ⟨log ++ [n (p.logged log)], hy _, ?_⟩⟩
  · rw [hy]
    exact ⟨[n q], rfl⟩
  · rw [List.mem_append, List.mem_singleton]
    exact fun h => h.elim hlog (hn _).symm

theorem throw (e : Abort) : Erases src (MonadExcept.throw e : ParseM σ α) (MonadExcept.throw e) :=
  of_alike fun _ _ => rfl

theorem pure (a : α) : Erases src (Pure.pure a : ParseM σ α) (Pure.pure a) := of_alike fun _ _ => rfl

theorem modify {f : Parser σ → Parser σ} {g : Parser (Logged σ Note) → Parser (Logged σ Note)}
    (hfg : ∀ p log, g (p.logged log) = (f p).logged log) :
    Erases src (modify f : ParseM σ Unit) (modify g) :=
  of_alike fun p log => congrArg (EStateM.Result.ok ()) (hfg p log)

theorem get {f : Parser σ → ParseM σ α} {g : Parser (Logged σ Note) → ParseM (Logged σ Note) α}
    (hfg : ∀ p q, SameView src src.noted p q → Erases src (f p) (g q)) :
    Erases src (MonadState.get >>= f) (MonadState.get >>= g) where
  appends q := (hfg { q with lex := q.lex.1 } q ⟨rfl, rfl, rfl, rfl⟩).appends q
  ends p log := (hfg p (p.logged log) ⟨rfl, rfl, rfl, rfl⟩).ends p log

end Erases

theorem ymcNext_noted {src : Source σ} {q : Parser (Logged σ Note)} {next : Ytoken × σ}
    (hnext : src.next q.lex.1 = .ok next) :
    ymcNext src.noted q = .ok () { q with lex := (next.2, q.lex.2), lah := next.1 } := by
  rw [ymcNext_apply]
  unfold Source.noted
  dsimp only
  rw [hnext]

/-- Where the scanner faults, the logged one notes it and hands out an error token. -/
theorem ymcNext_noted_error {src : Source σ} {q : Parser (Logged σ Note)} {f : Fault}
    (hnext : src.next q.lex.1 = .error f) :
    ymcNext src.noted q = .ok () { q with
      lex := (q.lex.1, q.lex.2 ++ [.unread]), lah := ⟨.ERROR, 0, 0, []⟩ } := by
  rw [ymcNext_apply]
  unfold Source.noted
  dsimp only
  rw [hnext]

theorem erases_next (src : Source σ) : Erases src (ymcNext src) (ymcNext src.noted) := by
  constructor
  · intro q
    cases hnext : src.next q.lex.1 with
    | ok next =>
        rw [ymcNext_noted hnext]
        exact appends_refl q
    | error f =>
        rw [ymcNext_noted_error hnext]
        exact ⟨[.unread], rfl⟩
  · intro p log hlog
    have hlex : (p.logged log).lex.1 = p.lex := rfl
    rw [ymcNext_apply]
    cases hnext : src.next p.lex with
    | ok next =>
        rw [ymcNext_noted (hlex ▸ hnext)]
        exact ⟨log, rfl, hlog⟩
    | error f =>
        rw [ymcNext_noted_error (hlex ▸ hnext)]
        exact .inr ⟨⟨_, f, rfl, hnext⟩, List.mem_append_right _ (List.mem_singleton.2 rfl)⟩

/-! ## Every production -/

section

variable (src : Source σ)

theorem erases_site (s : Site) : Erases src (pure () : ParseM σ Unit) (noteSite s) := by
  cases s with
  | function => exact .noting (n := fun _ => .function) (fun _ => rfl) fun _ => nofun
  | dec raw => exact .noting (n := fun _ => .dec raw) (fun _ => rfl) fun _ => nofun
  | hex raw => exact .noting (n := fun _ => .hex raw) (fun _ => rfl) fun _ => nofun
  | retry => exact .noting (n := fun q => .retry q.blk.kinst) (fun _ => rfl) fun _ => nofun
  | leave => exact .noting (n := fun q => .loopEnd q.blk.kinst) (fun _ => rfl) fun _ => nofun

theorem erases_goto (isBreak : Bool) :
    Erases src ((Hooks.checked src).goto isBreak) ((Hooks.noting src).goto isBreak) := by
  have hnote : Erases src (pure () : ParseM σ Unit) (do
      let here ← place
      note (if isBreak then .break' here else .continue' here)) := by
    refine .noting (n := fun q =>
      if isBreak then .break' q.blk.kinst else .continue' q.blk.kinst) (fun _ => rfl) fun q => ?_
    cases isBreak <;> exact nofun
  have hgoto : Erases src ((Hooks.plain src).goto isBreak) ((Hooks.plain src.noted).goto isBreak) :=
    (Erases.of_alike alike_theLoop).bind fun info => Coding.branch (.throw _) (.pure ())
  exact hnote.bind fun _ => hgoto

theorem erases_onLoop (f : LoopInfo → LoopInfo) :
    Erases src (onLoop f : ParseM σ Unit) (onLoop f) :=
  (Erases.of_alike alike_theLoop).bind fun _ => .modify fun _ _ => rfl

/-- The end of a nested function is noted. -/
theorem erases_function {α : Type} {x : ParseM σ α} {y : ParseM (Logged σ Note) α}
    (hx : Erases src x y) : Erases src x ((Hooks.noting src).function y) := by
  have hnote : ∀ a : α, Erases src (pure () >>= fun _ => pure a : ParseM σ α) (do
      note .functionEnd
      return a) := fun a =>
    (Erases.noting (n := fun _ => .functionEnd) (fun _ => rfl) fun _ => nofun).bind fun _ => .pure a
  have h := hx.bind hnote
  simp only [pure_bind, bind_pure] at h
  exact h

theorem erases_stmt : Erases src (Hooks.checked src).stmt (Hooks.noting src).stmt := by
  refine .get fun p q hpq => ?_
  rw [hpq.lah]
  refine Coding.branch ?_ (.pure ())
  exact (Erases.noting (n := fun _ => .withStmt) (fun _ => rfl) fun _ => nofun).bind fun _ => .throw _

theorem emitting_erases : Emitting src src.noted (fun {_} x y => Erases src x y) where
  pure := .pure
  bind := Erases.bind
  fail _ := .throw _
  get := .get
  onBlk f _ := .of_alike (alike_onBlk f)
  assertion _ := .throw _

theorem congruence_erases : Congruence src src.noted (Hooks.checked src) (Hooks.noting src)
    (fun {_} x y => Erases src x y) where
  toEmitting := emitting_erases src
  fuel := .throw _
  next := erases_next src
  closing _ := erases_next src
  name _ := Coding.branch (.throw _) (.pure ())
  holdBreak := (erases_goto src true).bind fun _ => (emitting_erases src).hold.bind fun _ =>
    erases_onLoop src _
  retry := (erases_goto src false).bind fun _ => (Erases.of_alike alike_theLoop).bind fun _ => .pure _
  site := erases_site src
  scope name _ _ desc _ _ hb hx := by
    refine (erases_site src .function).bind fun _ => (Erases.of_alike (alike_ymdFunc name)).bind fun fn => ?_
    refine erases_function src (hb.bind fun names => ?_)
    refine (Erases.of_alike (alike_ymkEnter _)).bind fun _ => hx.bind fun y => ?_
    refine (Erases.of_alike (alike_ymkLeave fn)).bind fun _ => ?_
    rw [ymkEmitFunc_eq, ymkEmitFunc_eq]
    refine Erases.bind ?_ fun _ => .pure _
    refine (Erases.of_alike (alike_setBindCount _ fn)).bind fun _ => (emitting_erases src).kf fn |>.bind fun k => ?_
    exact ((emitting_erases src).hack _ _).bind fun _ => .modify fun _ _ => rfl

theorem pieces_erases :
    Pieces (Hooks.checked src) (Hooks.noting src) (fun {_} x y => Erases src x y) where
  branch _ := Coding.branch (.throw _) (.pure ())
  mark m := by
    cases m with
    | loopBegin => exact .noting (n := fun _ => .loop) (fun _ => rfl) fun _ => nofun
    | ifBegin => exact .pure ()
    | ifEnd => exact .pure ()
    | loopEnd => exact .pure ()
  onLoop := erases_onLoop src
  freshIter := .of_alike fun _ _ => rfl
  loopEnter := .modify fun _ _ => rfl
  loopLeave := by
    have hE := emitting_erases src
    refine .get fun p q hpq => (Erases.of_alike alike_theLoop).bind fun info => ?_
    rw [hpq.blk]
    refine (hE.assert _ _).bind fun _ => (hE.emitJmp _).bind fun _ => ?_
    refine (hE.fillBreaks _ _).bind fun _ => Coding.branch ?_ (.modify fun _ _ => rfl)
    exact (hE.hackJmp _ _).bind fun _ => .modify fun _ _ => rfl

theorem erases_ymdCompile (depth : Nat) (name : Bytes) :
    Erases src ((Hooks.checked src).ymdCompile src depth name)
      ((Hooks.noting src).ymdCompile src.noted depth name) := by
  have hR := congruence_erases src
  have hp := pieces_erases src
  have hparser := (hR.parser (erases_stmt src) (fun hr => hR.parseIf hr hp)
    (fun hr => hR.parseFor hr hp) (.inl rfl : Fuels (fun x y => Erases src x y) depth depth)).2
  refine (Erases.of_alike (alike_ymdFunc name)).bind fun fn => (erases_next src).bind fun _ => ?_
  refine (Erases.of_alike (alike_ymkEnter _)).bind fun _ => ?_
  refine (hR.topStmts hparser (.inl rfl)).bind fun body => hR.emitEnd.bind fun _ => ?_
  exact (Erases.of_alike (alike_ymkLeave fn)).bind fun _ => .pure _

end

end Ymd
