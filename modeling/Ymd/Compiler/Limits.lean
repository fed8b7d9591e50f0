import Ymd.Compiler.Congruence
import Ymd.Compiler.Cursor
import Ymd.Compiler.Log

/-! # The tables of the compiler

`jout`, `p->loop->jmt`, `p->loop` and `desc->name` are used without a look at their
size. What a program needs of them is said by the parser without bounds, which notes
where an `if` or a loop begins and ends, its branches and jumps, and the names of
functions: the compiler stays inside its tables exactly when these notes keep to the
limits.
-/

namespace Ymd

open Foundation

variable {σ : Type}

/-- What the parser without bounds notes. -/
inductive Event
  | mark (m : Mark)
  | branch
  | goto (isBreak : Bool)
  | name (z : Bytes)

/-- The branches so far of the open `if`s, and the `break`s of the open loops. -/
structure Counts where
  ifs : List Nat
  loops : List Nat

/-- An event that keeps to the limits. -/
def Counts.step (c : Counts) : Event → Option Counts
  | .mark .ifBegin => some { c with ifs := 0 :: c.ifs }
  | .mark .ifEnd => some { c with ifs := c.ifs.tail }
  | .mark .loopBegin => some { c with loops := 0 :: c.loops }
  | .mark .loopEnd => some { c with loops := c.loops.tail }
  | .branch =>
      match c.ifs with
      | [] => none
      | n :: rest => if n < 128 then some { c with ifs := (n + 1) :: rest } else none
  | .goto isBreak =>
      match c.loops with
      | [] => none
      | n :: rest =>
          if isBreak = false then some c
          else if n < 128 then some { c with loops := (n + 1) :: rest }
          else none
  | .name z => if z.length < 260 then some c else none

/-- The counts behind some events, as long as they keep to the limits. -/
def countsOf (log : List Event) : Option Counts := log.foldlM Counts.step ⟨[], []⟩

theorem countsOf_append (log more : List Event) :
    countsOf (log ++ more) = (countsOf log).bind fun c => more.foldlM Counts.step c := by
  unfold countsOf
  rw [List.foldlM_append]
  rfl

theorem countsOf_concat {log : List Event} {c : Counts} (hlog : countsOf log = some c) (e : Event) :
    countsOf (log ++ [e]) = c.step e := by
  rw [countsOf_append, hlog, Option.bind_some, List.foldlM_cons]
  cases c.step e <;> rfl

theorem countsOf_append_none {log : List Event} (hlog : countsOf log = none) (more : List Event) :
    countsOf (log ++ more) = none := by
  rw [countsOf_append, hlog]
  rfl

/-! ## The parser without bounds -/

/-- The same tokens, with the events so far beside them. -/
def Source.logged (src : Source σ) : Source (Logged σ Event) where
  next := fun (lex, log) => do
    let (lah, lex) ← src.next lex
    return (lah, (lex, log))
  line x := src.line x.1

/-- No table is ever full, and a jump without a loop is a syntax error. -/
def Hooks.unlimited (src : Source σ) : Hooks (Logged σ Event) where
  stmt := pure ()
  closing _ := ymcNext src.logged
  function x := x
  name z := note (.name z)
  branch _ := note .branch
  goto isBreak := do
    note (.goto isBreak)
    match (← get).loop with
    | [] => throw (.fail "")
    | _ :: _ => pure ()
  mark m := note (.mark m)
  site _ := pure ()

/-- The events of a compilation. -/
def eventsOf (src : Source σ) (depth : Nat) (name : Bytes) (lex : σ) (heap : Heap)
    (stk : List Variable) : List Event :=
  (stateOf ((Hooks.unlimited src).ymdCompile src.logged depth name (.init (lex, []) heap stk))).lex.2

/-- A use of a table behind its end, or of a loop that is not there. -/
def Abort.IsBounds : Abort → Prop
  | .fault (.bounds t) => t = "jout" ∨ t = "p->loop->jmt" ∨ t = "p->loop" ∨ t = "desc->name"
  | _ => False

/-! ## The two parsers side by side -/

/-- The counts `c` are those of the events, and of the loops that are open. -/
structure Counted (c : Counts) (p : Parser σ) (log : List Event) : Prop where
  counts : countsOf log = some c
  loops : c.loops = p.loop.map fun info => info.jmt.length

/-- How the two computations end that start in a state with the counts `c`. -/
def LimitsAt {α : Type} (c : Counts) (x : ParseM σ α) (y : ParseM (Logged σ Event) α)
    (post : Counts → Prop) : Prop :=
  ∀ p log, Counted c p log → match x p with
    | .ok a p' => ∃ log' c', y (p.logged log) = .ok a (p'.logged log') ∧ Counted c' p' log' ∧ post c'
    | .error e _ =>
        e.IsBounds ∧ countsOf (stateOf (y (p.logged log))).lex.2 = none ∨
          ¬ e.IsBounds ∧ ∃ q', y (p.logged log) = .error e q' ∧ countsOf q'.lex.2 ≠ none

/-- The computations keep to the limits alike, from counts with `pre` to counts
with `post`. -/
structure Tracks {α : Type} (pre : Counts → Prop) (x : ParseM σ α) (y : ParseM (Logged σ Event) α)
    (post : Counts → Prop) : Prop where
  appends : Appends y
  ends : ∀ c, pre c → LimitsAt c x y post

/-- The open `if`s, and the number of open loops. -/
def Counts.At (ifs : List Nat) (k : Nat) (c : Counts) : Prop := c.ifs = ifs ∧ c.loops.length = k

/-- The same, where the `if`s and loops that are open are so again at the end. -/
def Limits {α : Type} (x : ParseM σ α) (y : ParseM (Logged σ Event) α) : Prop :=
  ∀ ifs k, Tracks (Counts.At ifs k) x y (Counts.At ifs k)

section

variable {α β : Type} {c : Counts} {x : ParseM σ α} {y : ParseM (Logged σ Event) α} {f : α → ParseM σ β}
  {g : α → ParseM (Logged σ Event) β} {pre post post' : Counts → Prop}

theorem Limits.appends (hx : Limits x y) : Appends y := (hx [] 0).appends

theorem Tracks.mono (hx : Tracks pre x y post) (h : ∀ c, post c → post' c) :
    Tracks pre x y post' := by
  refine ⟨hx.appends, fun c hc p log hlog => ?_⟩
  have hrun := hx.ends c hc p log hlog
  cases hxp : x p with
  | ok a p' =>
      rw [hxp] at hrun
      obtain ⟨log', c', hy, hc', hpost⟩ := hrun
      exact ⟨log', c', hy, hc', h c' hpost⟩
  | error e p' =>
      rw [hxp] at hrun
      exact hrun

theorem Tracks.bind (hx : Tracks pre x y post) (hf : ∀ a, Tracks post (f a) (g a) post') :
    Tracks pre (x >>= f) (y >>= g) post' := by
  refine ⟨hx.appends.bind fun a => (hf a).appends, fun c hc p log hlog => ?_⟩
  have hrun := hx.ends c hc p log hlog
  cases hxp : x p with
  | ok a p₁ =>
      rw [hxp] at hrun
      obtain ⟨log₁, c₁, hy, hc₁, hpost⟩ := hrun
      rw [bind_of_ok hxp, bind_of_ok hy]
      exact (hf a).ends c₁ hpost p₁ log₁ hc₁
  | error e p₁ =>
      rw [hxp] at hrun
      rw [bind_of_error hxp]
      rcases hrun with ⟨he, hnone⟩ | ⟨he, q', hy, hsome⟩
      · refine .inl ⟨he, ?_⟩
        cases hyq : y (p.logged log) with
        | ok a q₁ =>
            rw [hyq] at hnone
            obtain ⟨more, hmore⟩ := (hf a).appends q₁
            rw [bind_of_ok hyq, hmore]
            exact countsOf_append_none hnone more
        | error e' q₁ =>
            rw [hyq] at hnone
            rw [bind_of_error hyq]
            exact hnone
      · exact .inr ⟨he, q', bind_of_error hy, hsome⟩

theorem Limits.bind (hx : Limits x y) (hf : ∀ a, Limits (f a) (g a)) :
    Limits (x >>= f) (y >>= g) :=
  fun ifs k => (hx ifs k).bind fun a => hf a ifs k

/-- Computations that do the same and note nothing. -/
theorem Tracks.of_same (halike : Alike x y)
    (hok : ∀ p a p', x p = .ok a p' → p'.loop = p.loop)
    (herror : ∀ p e p', x p = .error e p' → ¬ e.IsBounds) : Tracks pre x y pre := by
  refine ⟨halike.appends, fun c hc p log hlog => ?_⟩
  have hrun := halike p log
  cases hxp : x p with
  | ok a p' =>
      rw [hxp] at hrun
      refine ⟨log, c, hrun, ⟨hlog.counts, ?_⟩, hc⟩
      rw [hok p a p' hxp]
      exact hlog.loops
  | error e p' =>
      rw [hxp] at hrun
      refine .inr ⟨herror p e p' hxp, _, hrun, ?_⟩
      change countsOf log ≠ none
      rw [hlog.counts]
      exact Option.some_ne_none c

theorem Tracks.pure (a : α) :
    Tracks pre (Pure.pure a : ParseM σ α) (Pure.pure a : ParseM (Logged σ Event) α) pre :=
  .of_same (fun _ _ => rfl) (fun _ _ _ h => by cases h; rfl) fun _ _ _ h => by cases h

/-! ## The pieces of a production -/

/-- Faults of the source of tokens are not about tables. -/
def Source.Apart (src : Source σ) : Prop := ∀ s f, src.next s = .error f → ¬ (Abort.fault f).IsBounds

variable {src : Source σ}

theorem Limits.of_same (halike : Alike x y)
    (hok : ∀ p a p', x p = .ok a p' → p'.loop = p.loop)
    (herror : ∀ p e p', x p = .error e p' → ¬ e.IsBounds) : Limits x y :=
  fun _ _ => Tracks.of_same halike hok herror

theorem Limits.pure (a : α) : Limits (Pure.pure a : ParseM σ α) (Pure.pure a) :=
  fun _ _ => Tracks.pure a

theorem Tracks.throw {e : Abort} (he : ¬ e.IsBounds) :
    Tracks pre (throw e : ParseM σ α) (MonadExcept.throw e) post := by
  refine ⟨appends_refl, fun c _ p log hlog => .inr ⟨he, p.logged log, rfl, ?_⟩⟩
  change countsOf log ≠ none
  rw [hlog.counts]
  exact Option.some_ne_none c

theorem Limits.throw {e : Abort} (he : ¬ e.IsBounds) :
    Limits (throw e : ParseM σ α) (MonadExcept.throw e) :=
  fun _ _ => Tracks.throw he

theorem Tracks.get {f : Parser σ → ParseM σ α} {g : Parser (Logged σ Event) → ParseM (Logged σ Event) α}
    (hfg : ∀ p log, Tracks pre (f p) (g (p.logged log)) post) :
    Tracks pre (MonadState.get >>= f) (MonadState.get >>= g) post := by
  constructor
  · intro q
    rw [bind_of_ok (get_apply q)]
    exact (hfg { q with lex := q.lex.1 } q.lex.2).appends q
  · intro c hc p log hlog
    rw [bind_of_ok (get_apply p), bind_of_ok (get_apply (p.logged log))]
    exact (hfg p log).ends c hc p log hlog

theorem Limits.get {f : Parser σ → ParseM σ α} {g : Parser (Logged σ Event) → ParseM (Logged σ Event) α}
    (hfg : ∀ p log, Limits (f p) (g (p.logged log))) :
    Limits (MonadState.get >>= f) (MonadState.get >>= g) :=
  fun ifs k => Tracks.get fun p log => hfg p log ifs k

theorem limits_next (hsrc : src.Apart) : Limits (ymcNext src) (ymcNext src.logged) := by
  refine Limits.of_same (fun p log => ?_) ?_ ?_
  · rw [ymcNext_apply, ymcNext_apply]
    have hnext : src.logged.next (p.logged log).lex = (do
        let next ← src.next p.lex
        return (next.1, (next.2, log))) := rfl
    rw [hnext]
    cases src.next p.lex <;> rfl
  · intro p a p' hp
    rw [ymcNext_apply] at hp
    cases h : src.next p.lex with
    | ok next =>
        rw [h] at hp
        cases hp
        rfl
    | error f =>
        rw [h] at hp
        cases hp
  · intro p e p' hp
    rw [ymcNext_apply] at hp
    cases h : src.next p.lex with
    | ok next =>
        rw [h] at hp
        cases hp
    | error f =>
        rw [h] at hp
        cases hp
        exact hsrc _ _ h

theorem limits_onBlk (f : Chunk → Chunk × α) : Limits (onBlk f : ParseM σ α) (onBlk f) :=
  .of_same (alike_onBlk f) (fun _ _ _ h => by cases h; rfl) fun _ _ _ h => by cases h

theorem limits_ymdFunc (name : Bytes) : Limits (ymdFunc name : ParseM σ Addr) (ymdFunc name) := by
  refine Limits.of_same (alike_ymdFunc name) ?_ ?_
  · intro p a p' hp
    rw [ymdFunc_apply] at hp
    split at hp <;> cases hp
    rfl
  · intro p e p' hp
    rw [ymdFunc_apply] at hp
    split at hp <;> cases hp
    exact id

theorem limits_ymkEnter (core : Chunk) : Limits (ymkEnter core : ParseM σ Unit) (ymkEnter core) :=
  .of_same (alike_ymkEnter core) (fun _ _ _ h => by cases h; rfl) fun _ _ _ h => by cases h

theorem limits_ymkLeave (fn : Addr) : Limits (ymkLeave fn : ParseM σ Unit) (ymkLeave fn) := by
  refine Limits.of_same (alike_ymkLeave fn) ?_ ?_
  · intro p a p' hp
    rw [ymkLeave_apply] at hp
    rcases hobj : p.heap.obj fn with _ | _ | _ | _ | _ | _ <;> rw [hobj] at hp <;> cases hp
    rfl
  · intro p e p' hp
    rw [ymkLeave_apply] at hp
    rcases hobj : p.heap.obj fn with _ | _ | _ | _ | _ | _ <;> rw [hobj] at hp <;> cases hp <;>
      exact id

theorem limits_setBindCount (n : Nat) (fn : Addr) :
    Limits (setBindCount n fn : ParseM σ Unit) (setBindCount n fn) := by
  refine Limits.of_same (alike_setBindCount n fn) ?_ ?_
  · intro p a p' hp
    rw [setBindCount_apply] at hp
    rcases hobj : p.heap.obj fn with _ | _ | _ | _ | _ | _ <;> rw [hobj] at hp <;> cases hp
    rfl
  · intro p e p' hp
    rw [setBindCount_apply] at hp
    rcases hobj : p.heap.obj fn with _ | _ | _ | _ | _ | _ <;> rw [hobj] at hp <;> cases hp <;>
      exact id

theorem limits_hack (i : Nat) (inst : Inst) : Limits (ymkHack i inst : ParseM σ Unit) (ymkHack i inst) := by
  refine Limits.get fun p log => Limits.bind ?_ fun _ => limits_onBlk _
  change Limits (assert (i < p.blk.kinst) _) (assert (i < p.blk.kinst) _)
  unfold assert
  split
  · exact .pure ()
  · exact .throw id

theorem limits_pop : Limits (modify fun p => { p with stk := p.stk.tail } : ParseM σ Unit)
    (modify fun p => { p with stk := p.stk.tail }) :=
  .of_same (fun _ _ => rfl) (fun _ _ _ h => by cases h; rfl) fun _ _ _ h => by cases h

/-- A nested function. -/
theorem limits_scope (name : Bytes) {b : ParseM σ (List Bytes × Chunk)}
    {b' : ParseM (Logged σ Event) (List Bytes × Chunk)} (desc : List Bytes → FuncDeclDesc)
    {x : ParseM σ (List Bytes × Tree .block)} {x' : ParseM (Logged σ Event) (List Bytes × Tree .block)}
    (hb : Limits b b') (hx : Limits x x') :
    Limits ((Hooks.plain src).funcScope name b desc x)
      ((Hooks.unlimited src).funcScope name b' desc x') := by
  refine (limits_ymdFunc name).bind fun fn => hb.bind fun names => ?_
  refine (limits_ymkEnter _).bind fun _ => hx.bind fun y => (limits_ymkLeave fn).bind fun _ => ?_
  rw [ymkEmitFunc_eq, ymkEmitFunc_eq]
  refine Limits.bind ?_ fun _ => .pure _
  refine (limits_setBindCount _ fn).bind fun _ => (limits_onBlk _).bind fun k => ?_
  exact (limits_hack _ _).bind fun _ => limits_pop

/-! ## The tables -/

theorem limits_name (z : Bytes) :
    Limits ((Hooks.plain src).name z) ((Hooks.unlimited src).name z) := by
  refine fun ifs k => ⟨appends_note _, fun c hc p log hlog => ?_⟩
  have hcounts := countsOf_concat hlog.counts (.name z)
  by_cases hz : 260 ≤ z.length
  · have hfull : (Hooks.plain src).name z p = .error (.fault (.bounds "desc->name")) p := by
      simp only [Hooks.plain, if_pos hz, throw_apply]
    rw [hfull]
    refine .inl ⟨by simp [Abort.IsBounds], hcounts.trans ?_⟩
    exact if_neg (Nat.not_lt.2 hz)
  · have hfits : (Hooks.plain src).name z p = .ok () p := by
      simp only [Hooks.plain, if_neg hz, pure_apply]
    rw [hfits]
    refine ⟨log ++ [.name z], c, rfl, ⟨hcounts.trans ?_, hlog.loops⟩, hc⟩
    exact if_pos (Nat.not_le.1 hz)

/-- Another entry of `jout`, where its length is the number of branches so far. -/
theorem tracks_branch (jout rest : List Nat) (k : Nat) :
    Tracks (Counts.At (jout.length :: rest) k) ((Hooks.plain src).branch jout)
      ((Hooks.unlimited src).branch jout) (Counts.At ((jout.length + 1) :: rest) k) := by
  refine ⟨appends_note _, fun c hc p log hlog => ?_⟩
  have hcounts := countsOf_concat hlog.counts .branch
  simp only [Counts.step, hc.1] at hcounts
  by_cases hfull : 128 ≤ jout.length
  · have herror : (Hooks.plain src).branch jout p = .error (.fault (.bounds "jout")) p := by
      simp only [Hooks.plain, if_pos hfull, throw_apply]
    rw [herror]
    refine .inl ⟨by simp [Abort.IsBounds], hcounts.trans ?_⟩
    exact if_neg (Nat.not_lt.2 hfull)
  · have hok : (Hooks.plain src).branch jout p = .ok () p := by
      simp only [Hooks.plain, if_neg hfull, pure_apply]
    rw [hok]
    have hcount := hcounts.trans (if_pos (Nat.not_le.1 hfull))
    exact ⟨log ++ [.branch], { c with ifs := (jout.length + 1) :: rest }, rfl,
      ⟨hcount, hlog.loops⟩, rfl, hc.2⟩

theorem limits_hold : Limits (ymkHold : ParseM σ Nat) ymkHold :=
  Limits.bind (Limits.get fun _ _ => .pure _) fun _ => (limits_onBlk _).bind fun _ => .pure _

theorem appends_onLoop (f : LoopInfo → LoopInfo) :
    Appends (onLoop f : ParseM (Logged σ Event) Unit) := by
  rintro ⟨lex, lah, blk, outer, _ | ⟨info, loop⟩, forId, heap, stk⟩ <;> exact appends_refl _

theorem appends_goto (isBreak : Bool) : Appends ((Hooks.unlimited src).goto isBreak) := by
  refine (appends_note _).bind fun _ => ?_
  rintro ⟨lex, lah, blk, outer, _ | ⟨info, loop⟩, forId, heap, stk⟩ <;> exact appends_refl _

theorem plain_goto_apply (src : Source σ) (isBreak : Bool) {p : Parser σ} {info : LoopInfo} {rest : List LoopInfo}
    (hloop : p.loop = info :: rest) : (Hooks.plain src).goto isBreak p =
      if isBreak = true ∧ 128 ≤ info.jmt.length then .error (.fault (.bounds "p->loop->jmt")) p
      else .ok () p := by
  have hthe : theLoop p = .ok info p := by
    rw [theLoop, bind_of_ok (get_apply p), hloop]
    rfl
  simp only [Hooks.plain, bind_of_ok hthe]
  split <;> rfl

theorem unlimited_goto_apply (src : Source σ) (isBreak : Bool) {p : Parser σ} {info : LoopInfo}
    {rest : List LoopInfo} (hloop : p.loop = info :: rest) (log : List Event) :
    (Hooks.unlimited src).goto isBreak (p.logged log) =
      .ok () (p.logged (log ++ [.goto isBreak])) := by
  rcases p with ⟨lex, lah, blk, outer, loop, forId, heap, stk⟩
  obtain rfl := hloop
  rfl

/-- The table of a loop has an entry for each of its `break`s. -/
theorem limits_holdBreak :
    Limits (Hooks.plain src).holdBreak (Hooks.unlimited src).holdBreak := by
  have hrest : Appends (do
      let i ← ymkHold
      onLoop fun info => { info with jmt := info.jmt ++ [i] } : ParseM (Logged σ Event) Unit) :=
    limits_hold.appends.bind fun _ => appends_onLoop _
  refine fun ifs k => ⟨(appends_goto true).bind fun _ => hrest, ?_⟩
  rintro c hc ⟨lex, lah, blk, outer, _ | ⟨info, loop⟩, forId, heap, stk⟩ log hlog
  · have hcounts := countsOf_concat hlog.counts (.goto true)
    have hloops : c.loops = [] := hlog.loops
    simp only [Counts.step, hloops] at hcounts
    exact .inl ⟨by simp [Abort.IsBounds], hcounts⟩
  · have hcounts := countsOf_concat hlog.counts (.goto true)
    have hloops : c.loops = info.jmt.length :: loop.map fun info => info.jmt.length := hlog.loops
    have hgoto := plain_goto_apply src true
      (p := ⟨lex, lah, blk, outer, info :: loop, forId, heap, stk⟩) rfl
    have hgoto' := unlimited_goto_apply src true
      (p := ⟨lex, lah, blk, outer, info :: loop, forId, heap, stk⟩) rfl log
    simp only [Counts.step, hloops] at hcounts
    by_cases hfull : 128 ≤ info.jmt.length
    · rw [if_pos ⟨rfl, hfull⟩] at hgoto
      rw [Hooks.holdBreak, Hooks.holdBreak, bind_of_error hgoto, bind_of_ok hgoto']
      refine .inl ⟨by simp [Abort.IsBounds], ?_⟩
      obtain ⟨more, hmore⟩ := hrest (Parser.logged
        ⟨lex, lah, blk, outer, info :: loop, forId, heap, stk⟩ (log ++ [.goto true]))
      rw [hmore]
      exact countsOf_append_none (hcounts.trans (if_neg (Nat.not_lt.2 hfull))) more
    · rw [if_neg fun h => hfull h.2] at hgoto
      have hcount : countsOf (log ++ [.goto true]) = some { c with
          loops := (info.jmt.length + 1) :: loop.map fun info => info.jmt.length } :=
        hcounts.trans (if_pos (Nat.not_le.1 hfull))
      have hhold : (do
          let i ← ymkHold
          onLoop fun info => { info with jmt := info.jmt ++ [i] } : ParseM σ Unit)
            ⟨lex, lah, blk, outer, info :: loop, forId, heap, stk⟩ =
          .ok () ⟨lex, lah, blk.emit (asmBuild Opcode.panic.code 0 (BitVec.ofNat 16 0)), outer,
            { info with jmt := info.jmt ++ [blk.kinst % 2 ^ 16] } :: loop, forId, heap, stk⟩ := rfl
      rw [Hooks.holdBreak, Hooks.holdBreak, bind_of_ok hgoto, bind_of_ok hgoto', hhold]
      refine ⟨_, _, rfl, ⟨hcount, ?_⟩, hc.1, Eq.trans ?_ hc.2⟩
      · simp only [List.map_cons, List.length_append, List.length_singleton]
      · simp only [hloops, List.length_cons]

/-- A jump back to where a loop goes on. -/
theorem limits_retry : Limits (Hooks.plain src).retry (Hooks.unlimited src).retry := by
  have hrest : Appends (do return (← theLoop).iRetry : ParseM (Logged σ Event) Nat) := by
    rintro ⟨lex, lah, blk, outer, _ | ⟨info, loop⟩, forId, heap, stk⟩ <;> exact appends_refl _
  refine fun ifs k => ⟨(appends_goto false).bind fun _ => hrest, ?_⟩
  rintro c hc ⟨lex, lah, blk, outer, _ | ⟨info, loop⟩, forId, heap, stk⟩ log hlog
  · have hcounts := countsOf_concat hlog.counts (.goto false)
    have hloops : c.loops = [] := hlog.loops
    simp only [Counts.step, hloops] at hcounts
    exact .inl ⟨by simp [Abort.IsBounds], hcounts⟩
  · have hcounts := countsOf_concat hlog.counts (.goto false)
    have hloops : c.loops = info.jmt.length :: loop.map fun info => info.jmt.length := hlog.loops
    simp only [Counts.step, hloops, if_true] at hcounts
    have hgoto := plain_goto_apply src false
      (p := ⟨lex, lah, blk, outer, info :: loop, forId, heap, stk⟩) rfl
    have hgoto' := unlimited_goto_apply src false
      (p := ⟨lex, lah, blk, outer, info :: loop, forId, heap, stk⟩) rfl log
    rw [if_neg fun h => Bool.false_ne_true h.1] at hgoto
    rw [Hooks.retry, Hooks.retry, bind_of_ok hgoto, bind_of_ok hgoto']
    exact ⟨log ++ [.goto false], c, rfl, ⟨hcounts, hloops⟩, hc⟩

/-! ## Every production -/

theorem congruence_limits (hsrc : src.Apart) :
    Congruence src src.logged (Hooks.plain src) (Hooks.unlimited src)
      (fun {_} x y => Limits x y) where
  pure := .pure
  bind := Limits.bind
  fail _ := .throw id
  assertion _ := .throw id
  fuel := .throw id
  get hfg := .get fun p _ => hfg p _ ⟨rfl, rfl, rfl, rfl⟩
  next := limits_next hsrc
  onBlk f _ := limits_onBlk f
  closing _ := limits_next hsrc
  name := limits_name
  holdBreak := limits_holdBreak
  retry := limits_retry
  site _ := .pure ()
  scope name _ _ desc _ _ := limits_scope name desc

/-! ## Branches and loops -/

theorem tracks_mark {m : Mark} {pre post : Counts → Prop}
    (hm : ∀ c, pre c → ∃ c', c.step (.mark m) = some c' ∧ c'.loops = c.loops ∧ post c') :
    Tracks pre ((Hooks.plain src).mark m) ((Hooks.unlimited src).mark m) post := by
  refine ⟨appends_note _, fun c hc p log hlog => ?_⟩
  obtain ⟨c', hstep, hloops, hpost⟩ := hm c hc
  refine ⟨log ++ [.mark m], c', rfl, ⟨?_, hloops.trans hlog.loops⟩, hpost⟩
  exact (countsOf_concat hlog.counts _).trans hstep

theorem tracks_loopEnter (ifs : List Nat) (k : Nat) : Tracks (Counts.At ifs k)
    (Hooks.plain src).loopEnter (Hooks.unlimited src).loopEnter (Counts.At ifs (k + 1)) := by
  refine ⟨?_, fun c hc p log hlog => ?_⟩
  · exact Appends.bind appends_refl fun _ => appends_note _
  · refine ⟨log ++ [.mark .loopBegin], { c with loops := 0 :: c.loops }, rfl, ⟨?_, ?_⟩, hc.1, ?_⟩
    · exact countsOf_concat hlog.counts _
    · exact congrArg (0 :: ·) hlog.loops
    · exact congrArg (· + 1) hc.2

theorem tracks_onLoop (f : LoopInfo → LoopInfo) (hf : ∀ info, (f info).jmt = info.jmt)
    (ifs : List Nat) (k : Nat) : Tracks (Counts.At ifs (k + 1)) (onLoop f : ParseM σ Unit)
      (onLoop f) (Counts.At ifs (k + 1)) := by
  refine ⟨appends_onLoop f, ?_⟩
  rintro c hc ⟨lex, lah, blk, outer, _ | ⟨info, loop⟩, forId, heap, stk⟩ log hlog
  · have hloops : c.loops = [] := hlog.loops
    have hlen := hc.2
    rw [hloops] at hlen
    cases hlen
  · refine ⟨log, c, rfl, ⟨hlog.counts, ?_⟩, hc⟩
    have hloops : c.loops = info.jmt.length :: loop.map fun info => info.jmt.length := hlog.loops
    change c.loops = (f info).jmt.length :: loop.map fun info => info.jmt.length
    rw [hloops, hf]

theorem tracks_theLoop (ifs : List Nat) (k : Nat) : Tracks (Counts.At ifs (k + 1))
    (theLoop : ParseM σ LoopInfo) theLoop (Counts.At ifs (k + 1)) := by
  constructor
  · rintro ⟨lex, lah, blk, outer, _ | ⟨info, loop⟩, forId, heap, stk⟩ <;> exact appends_refl _
  rintro c hc ⟨lex, lah, blk, outer, _ | ⟨info, loop⟩, forId, heap, stk⟩ log hlog
  · have hloops : c.loops = [] := hlog.loops
    have hlen := hc.2
    rw [hloops] at hlen
    cases hlen
  · exact ⟨log, c, rfl, hlog, hc⟩

section

variable {r : Rec σ} {r' : Rec (Logged σ Event)} (hsrc : src.Apart)
  (hr : Related (fun {_} x y => Limits x y) r r')

include hsrc hr

/-- `jout` has an entry for each branch of the `if` that is read. -/
theorem tracks_elifs {n n' : Nat} (hn : Fuels (fun {_} (x : ParseM σ _) y => Limits x y) n n')
    (jnxt : Nat) (jout : List Nat) (nsub : Nat) (rest : List Nat) (k : Nat) :
    Tracks (Counts.At (jout.length :: rest) k) ((Hooks.plain src).elifs src r n jnxt jout nsub)
      ((Hooks.unlimited src).elifs src.logged r' n' jnxt jout nsub)
      fun c => ∃ b, Counts.At (b :: rest) k c := by
  have hR := congruence_limits hsrc
  refine hn.rounds (motive := fun n n' => ∀ jnxt jout nsub,
    Tracks (Counts.At (jout.length :: rest) k) ((Hooks.plain src).elifs src r n jnxt jout nsub)
      ((Hooks.unlimited src).elifs src.logged r' n' jnxt jout nsub)
      fun c => ∃ b, Counts.At (b :: rest) k c) (fun _ _ _ => ?_) (fun n' hout _ jout _ => ?_)
    (fun n n' _ ih jnxt jout nsub => ?_) jnxt jout nsub
  · exact (hR.fuel _ _).mono fun c hc => ⟨_, hc⟩
  · exact (hout _ _ _).mono fun c hc => ⟨_, hc⟩
  have hjout : ∀ (f : List Nat → ParseM σ (Tree .elifs)) g,
      (∀ i : Nat, Tracks (Counts.At ((jout ++ [i]).length :: rest) k) (f (jout ++ [i]))
        (g (jout ++ [i])) fun c => ∃ b, Counts.At (b :: rest) k c) →
      Tracks (Counts.At (jout.length :: rest) k) ((Hooks.plain src).holdJout jout >>= f)
        ((Hooks.unlimited src).holdJout jout >>= g) fun c => ∃ b, Counts.At (b :: rest) k c := by
    intro f g hfg
    simp only [Hooks.holdJout, bind_assoc, pure_bind]
    refine (tracks_branch jout rest k).bind fun _ => ((limits_hold _ _).bind fun i => ?_)
    have h := hfg i
    rwa [List.length_append] at h
  refine (hR.peek _ _).bind fun token => ?_
  split
  · refine (hR.next _ _).bind fun _ => hjout _ _ fun i => ?_
    refine (hR.hackJmp _ _ _ _).bind fun _ => (hr.expr 0 _ _).bind fun cond => ?_
    refine (hR.hold _ _).bind fun jnxt => (hR.parseBlock hr _ _).bind fun body => ?_
    exact (ih jnxt (jout ++ [i]) _).bind fun _ => Tracks.pure _
  · refine (hR.next _ _).bind fun _ => hjout _ _ fun i => ?_
    refine (hR.hackJmp _ _ _ _).bind fun _ => (hR.parseBlock hr _ _).bind fun body => ?_
    refine (hR.fillJout _ _ _).bind fun _ => ?_
    exact (Tracks.pure _).mono fun c hc => ⟨_, hc⟩
  · refine (hR.fillJout _ _ _).bind fun _ => ?_
    split
    · refine (hR.hackJmp _ _ _ _).bind fun _ => ?_
      exact (Tracks.pure _).mono fun c hc => ⟨_, hc⟩
    · exact (Tracks.pure _).mono fun c hc => ⟨_, hc⟩

theorem limits_parseIf :
    Limits ((Hooks.plain src).parseIf src r) ((Hooks.unlimited src).parseIf src.logged r') := by
  intro ifs k
  have hR := congruence_limits hsrc
  have hbegin : Tracks (Counts.At ifs k) ((Hooks.plain src).mark .ifBegin)
      ((Hooks.unlimited src).mark .ifBegin) (Counts.At (0 :: ifs) k) :=
    tracks_mark fun c hc => ⟨_, rfl, rfl, congrArg (0 :: ·) hc.1, hc.2⟩
  have hend : Tracks (fun c => ∃ b, Counts.At (b :: ifs) k c) ((Hooks.plain src).mark .ifEnd)
      ((Hooks.unlimited src).mark .ifEnd) (Counts.At ifs k) := by
    refine tracks_mark fun c hc => ?_
    obtain ⟨b, hc⟩ := hc
    exact ⟨_, rfl, rfl, congrArg List.tail hc.1, hc.2⟩
  refine (hR.next _ _).bind fun _ => hbegin.bind fun _ => (hr.expr 0 _ _).bind fun cond => ?_
  refine (hR.hold _ _).bind fun jnxt => (hR.parseBlock hr _ _).bind fun body => ?_
  refine (tracks_elifs hsrc hr hr.fuel jnxt [] 0 ifs k).bind fun rest => ?_
  exact hend.bind fun _ => Tracks.pure _

omit hr in
/-- The end of a loop; its table goes with it. -/
theorem tracks_loopLeave (ifs : List Nat) (k : Nat) : Tracks (Counts.At ifs (k + 1))
    (Hooks.plain src).loopLeave (Hooks.unlimited src).loopLeave (Counts.At ifs k) := by
  have hR := congruence_limits hsrc
  have hpop : Tracks (Counts.At ifs (k + 1))
      (do
        modify fun p => { p with loop := p.loop.tail }
        (Hooks.plain src).mark .loopEnd : ParseM σ Unit)
      (do
        modify fun p => { p with loop := p.loop.tail }
        (Hooks.unlimited src).mark .loopEnd) (Counts.At ifs k) := by
    refine ⟨Appends.bind appends_refl fun _ => appends_note _, fun c hc p log hlog => ?_⟩
    refine ⟨log ++ [.mark .loopEnd], { c with loops := c.loops.tail }, rfl, ⟨?_, ?_⟩, hc.1, ?_⟩
    · exact countsOf_concat hlog.counts _
    · change c.loops.tail = p.loop.tail.map fun info => info.jmt.length
      rw [hlog.loops, List.map_tail]
    · change c.loops.tail.length = k
      rw [List.length_tail, hc.2, Nat.add_sub_cancel]
  simp only [Hooks.loopLeave, ymkLoopLeave, bind_assoc]
  refine (hR.site _ _ _).bind fun _ => Tracks.get fun p log => (tracks_theLoop ifs k).bind fun info => ?_
  refine (hR.assert _ _ _ _).bind fun _ => (hR.emitJmp _ _ _).bind fun _ => ?_
  refine (hR.fillBreaks _ _ _ _).bind fun _ => ?_
  split
  · simp only [bind_assoc]
    exact (hR.hackJmp _ _ _ _).bind fun _ => hpop
  · exact hpop

theorem tracks_parseIn (tmp : Bytes) (ifs : List Nat) (k : Nat) :
    Tracks (Counts.At ifs (k + 1)) ((Hooks.plain src).parseIn src r tmp)
      ((Hooks.unlimited src).parseIn src.logged r' tmp) (Counts.At ifs k) := by
  have hR := congruence_limits hsrc
  have hiter : Limits (Hooks.freshIter : ParseM σ Bytes) Hooks.freshIter :=
    .of_same (fun _ _ => rfl) (fun _ _ _ h => by cases h; rfl) fun _ _ _ h => by cases h
  refine (hR.matching _ _ _).bind fun _ => (hr.expr 0 _ _).bind fun x => ?_
  refine (hiter _ _).bind fun iter => (hR.newLocvar _ _ _).bind fun i => ?_
  refine (hR.emit _ _ _ _ _).bind fun _ => (hR.site _ _ _).bind fun _ => (hR.ipos _ _).bind fun retry => ?_
  refine (tracks_onLoop _ (by intro; rfl) ifs k).bind fun _ => (hR.emitPush _ _ _).bind fun _ => ?_
  refine (hR.emitCall _ _ _ _ _ _).bind fun _ => (hR.hold _ _).bind fun jcond => ?_
  refine (tracks_onLoop _ (by intro; rfl) ifs k).bind fun _ => (hR.emitStore _ _ _).bind fun _ => ?_
  refine (hR.parseBlock hr _ _).bind fun body => (tracks_loopLeave hsrc ifs k).bind fun _ => ?_
  exact Tracks.pure _

theorem limits_parseFor :
    Limits ((Hooks.plain src).parseFor src r) ((Hooks.unlimited src).parseFor src.logged r') := by
  intro ifs k
  have hR := congruence_limits hsrc
  refine (hR.next _ _).bind fun _ => (tracks_loopEnter ifs k).bind fun _ => ?_
  refine (hR.peek _ _).bind fun token => ?_
  split
  · refine (hR.site _ _ _).bind fun _ => (hR.ipos _ _).bind fun retry => (tracks_onLoop _ (by intro; rfl) ifs k).bind fun _ => ?_
    refine (hR.parseBlock hr _ _).bind fun body => (tracks_loopLeave hsrc ifs k).bind fun _ => ?_
    exact Tracks.pure _
  · refine (hR.next _ _).bind fun _ => (hR.symbol _ _).bind fun tmp => ?_
    exact (hR.newLocvar _ _ _).bind fun _ => tracks_parseIn hsrc hr tmp ifs k
  · exact (hR.symbol _ _).bind fun tmp => tracks_parseIn hsrc hr tmp ifs k
  · exact Tracks.throw id

end

end

/-! ## Compilations -/

section

variable {src : Source σ}

theorem limits_ymdCompile (hsrc : src.Apart) (depth : Nat) (name : Bytes) :
    Limits ((Hooks.plain src).ymdCompile src depth name)
      ((Hooks.unlimited src).ymdCompile src.logged depth name) := by
  have hR := congruence_limits hsrc
  have hparser := (hR.parser (.pure ()) (limits_parseIf hsrc) (limits_parseFor hsrc)
    (.inl rfl : Fuels (fun x y => Limits x y) depth depth)).2
  refine (limits_ymdFunc name).bind fun fn => (limits_next hsrc).bind fun _ => ?_
  refine (limits_ymkEnter _).bind fun _ => (hR.topStmts hparser (.inl rfl)).bind fun body => ?_
  exact hR.emitEnd.bind fun _ => (limits_ymkLeave fn).bind fun _ => .pure _

/-- With any source of tokens. -/
theorem compile_keeps_tables_iff (hsrc : src.Apart) (depth : Nat) (name : Bytes) (lex : σ)
    (heap : Heap) (stk : List Variable) :
    (∀ e p', ymdCompile src depth name (.init lex heap stk) = .error e p' → ¬ e.IsBounds) ↔
      (countsOf (eventsOf src depth name lex heap stk)).isSome = true := by
  have hlimits := ((limits_ymdCompile hsrc depth name) [] 0).ends ⟨[], []⟩ ⟨rfl, rfl⟩
    (.init lex heap stk) [] ⟨rfl, rfl⟩
  rw [Hooks.ymdCompile_plain] at hlimits
  have hinit : Parser.logged (.init lex heap stk) ([] : List Event) = .init (lex, []) heap stk := rfl
  rw [hinit] at hlimits
  unfold eventsOf
  cases hrun : ymdCompile src depth name (.init lex heap stk) with
  | ok a p' =>
      rw [hrun] at hlimits
      obtain ⟨log', c', hy, hc', -⟩ := hlimits
      rw [hy]
      have hcounts : countsOf (p'.logged log').lex.2 = some c' := hc'.counts
      simp only [stateOf, hcounts, Option.isSome_some, iff_true]
      exact fun e p h => by cases h
  | error e p' =>
      rw [hrun] at hlimits
      rcases hlimits with ⟨he, hnone⟩ | ⟨he, q', hy, hsome⟩
      · rw [hnone]
        simp only [Option.isSome_none, Bool.false_eq_true, iff_false]
        exact fun h => h e p' rfl he
      · rw [hy]
        have hisSome := Option.isSome_iff_ne_none.2 hsome
        simp only [stateOf, hisSome, iff_true]
        rintro _ _ ⟨⟩
        exact he

theorem lex_apart : Lex.source.Apart := by
  intro lex f h
  rcases Lex.faults_next lex f h with rfl | rfl
  · exact id
  · simp [Abort.IsBounds]

end

/-- A compilation stays inside its tables, and uses no loop that is not there, exactly
when the `if`s, loops, jumps and names of the program keep to the limits. -/
theorem ymdCompile_keeps_tables_iff (name code : Bytes) (heap : Heap) (stk : List Variable) :
    (∀ depth e p', ymdCompile Lex.source depth name (.init (Lex.init code) heap stk) =
        .error e p' → ¬ e.IsBounds) ↔
      ∀ depth, (countsOf (eventsOf Lex.source depth name (Lex.init code) heap stk)).isSome = true :=
  forall_congr' fun depth => compile_keeps_tables_iff lex_apart depth name _ heap stk

/-- `break` without a loop. -/
theorem break_without_loop :
    ∃ p', ymdCompile Lex.source 2 [] (.init (Lex.init (lit "break")) Heap.empty []) =
      .error (.fault (.bounds "p->loop")) p' :=
  ⟨_, rfl⟩

end Ymd
