import Ymd.Compiler.Crashes

/-! # Compilations that return

With more rounds than there is to read a compilation ends, and how it ends is said by
its events and notes: it returns unless they say of a full table or of a crash.
-/

namespace Ymd

open Foundation

variable {σ : Type}

/-- `ymd_compile` returns what `ymc_compile` does, 0 or -1. -/
def Answers {α : Type} : EStateM.Result Abort (Parser σ) α → Prop
  | .ok _ _ => True
  | .error (.fail _) _ => True
  | .error _ _ => False

theorem answers_fail {α : Type} (msg : String) (p : Parser σ) :
    Answers (.error (.fail msg) p : EStateM.Result Abort (Parser σ) α) := trivial

/-- There are rounds enough for what is left to read. -/
def Measure.rounds (m : Measure σ) (lex : σ) : Nat := m.size lex + 2

/-- The events of a compilation keep to the limits of the tables, and its notes say of
no crash and of no token that the lexer does not come back with; `c` is open at their
end. -/
structure EndsWith (src : Source σ) (depth : Nat) (name : Bytes) (lex : σ) (heap : Heap)
    (stk : List Variable) (c : Outline) : Prop where
  counts : (countsOf (eventsOf src depth name lex heap stk)).isSome = true
  read : .unread ∉ notesOf src depth name lex heap stk
  outline : outlineOf (stk.length + 1) (notesOf src depth name lex heap stk) = some c

section

variable {src : Source σ} {m : Measure σ}

theorem takes_ymdCompile (hsize : src.Shrinks m) (depth : Nat) (name : Bytes) :
    Takes m (depth - 1) 0 whatever ((Hooks.checked src).ymdCompile src depth name)
      fun _ => whatever :=
  (still_ymdFunc name).takes.bind fun fn => takes_ymcCompile hsize depth fn

theorem ymdCompile_more {depth depth' : Nat} (hle : depth ≤ depth') (name : Bytes) :
    Extends ((Hooks.checked src).ymdCompile src depth name)
      ((Hooks.checked src).ymdCompile src depth' name) :=
  (congruence_extends src).bind (fun _ => .inl rfl) fun fn => ymcCompile_more src hle fn

theorem detects_ymdCompile (src : Source σ) (depth : Nat) (name : Bytes) :
    Detects ((Hooks.plain src).ymdCompile src depth name)
      ((Hooks.checked src).ymdCompile src depth name) :=
  (congruence_outlasts stopped_bind src (Hooks.plain src).stmt (Hooks.checked src).stmt).bind
    (fun _ => .inl rfl) fun fn => detects_ymcCompile src depth fn

/-- Results with different numbers of rounds are the same. -/
theorem checked_agree {depth depth' : Nat} {name : Bytes} {p : Parser σ}
    (h : ∀ q, (Hooks.checked src).ymdCompile src depth name p ≠ .error .fuel q)
    (h' : ∀ q, (Hooks.checked src).ymdCompile src depth' name p ≠ .error .fuel q) :
    (Hooks.checked src).ymdCompile src depth name p =
      (Hooks.checked src).ymdCompile src depth' name p := by
  rcases Nat.le_total depth depth' with hle | hle
  · rcases ymdCompile_more hle name p with heq | ⟨⟨q, hq⟩, -⟩
    · exact heq
    · exact absurd hq (h q)
  · rcases ymdCompile_more hle name p with heq | ⟨⟨q, hq⟩, -⟩
    · exact heq.symm
    · exact absurd hq (h' q)

variable (name : Bytes) {lex : σ} (heap : Heap) (stk : List Variable) (hsize : src.Shrinks m)
  (hgood : m.good lex)

include hsize hgood

theorem checked_ends (q : Parser σ) :
    (Hooks.checked src).ymdCompile src (m.rounds lex) name (.init lex heap stk) ≠ .error .fuel q := by
  intro hfuel
  have hleft : (Parser.init lex heap stk).left m.size < m.rounds lex - 1 := by
    change m.size lex + 0 < m.size lex + 2 - 1
    omega
  have hends := takes_ymdCompile hsize (m.rounds lex) name (.init lex heap stk) hgood trivial hleft
  rw [hfuel] at hends
  exact hends rfl

/-- A compilation that returns does so within these rounds, and the checked one too. -/
theorem answers_rounds {depth : Nat}
    (h : Answers (ymdCompile src depth name (.init lex heap stk))) :
    ymdCompile src depth name (.init lex heap stk) =
        ymdCompile src (m.rounds lex) name (.init lex heap stk) ∧
      (Hooks.checked src).ymdCompile src (m.rounds lex) name (.init lex heap stk) =
        ymdCompile src (m.rounds lex) name (.init lex heap stk) := by
  have hchecked : (Hooks.checked src).ymdCompile src depth name (.init lex heap stk) =
      ymdCompile src depth name (.init lex heap stk) := by
    rw [← Hooks.ymdCompile_plain] at h ⊢
    rcases detects_ymdCompile src depth name (.init lex heap stk) with heq | ⟨⟨q, hq⟩, -⟩
    · exact heq.symm
    · rw [hq] at h
      exact h.elim
  have hfuel : ∀ q, (Hooks.checked src).ymdCompile src depth name (.init lex heap stk) ≠
      .error .fuel q := fun q hq => by
    rw [← hchecked, hq] at h
    exact h
  -- both have rounds enough, so they agree
  have hagree := checked_agree hfuel (checked_ends name heap stk hsize hgood)
  rw [← hchecked, hagree] at h ⊢
  rw [← Hooks.ymdCompile_plain]
  rcases detects_ymdCompile src (m.rounds lex) name (.init lex heap stk) with heq | ⟨-, q, hq⟩
  · exact ⟨heq.symm, heq.symm⟩
  · rw [hq] at h
    exact h.elim

omit hsize hgood in
theorem plain_eq_checked {e : Abort} {p : Parser σ} (he : e ≠ .with)
    (h : (Hooks.checked src).ymdCompile src (m.rounds lex) name (.init lex heap stk) = .error e p) :
    ymdCompile src (m.rounds lex) name (.init lex heap stk) = .error e p := by
  rw [← Hooks.ymdCompile_plain]
  rcases detects_ymdCompile src (m.rounds lex) name (.init lex heap stk) with heq | ⟨-, q, hq⟩
  · rw [heq, h]
  · rw [hq] at h
    cases h
    exact absurd rfl he

omit hsize hgood in
theorem ymdCompile_full {depth : Nat} {stk : List Variable} (hfull : maxStack ≤ stk.length) :
    ymdCompile src depth name (.init lex heap stk) =
      .error (.panic "Stack overflow!") (.init lex heap stk) :=
  bind_of_error ((ymdFunc_apply name (.init lex heap stk)).trans (if_pos hfull))

omit hsize hgood in
theorem notesOf_eq {depth : Nat} {p : Parser σ} {log : List Note}
    (h : stateOf ((Hooks.noting src).ymdCompile src.noted depth name (.init (lex, []) heap stk)) =
      p.logged log) : notesOf src depth name lex heap stk = log := by
  rw [notesOf, h]
  rfl

omit hsize hgood in
/-- What the notes of a compilation that succeeds say. -/
theorem noted_of_ok (hroom : stk.length < maxStack) {depth : Nat} {f : Tree .func} {p : Parser σ}
    (hrun : (Hooks.checked src).ymdCompile src depth name (.init lex heap stk) = .ok f p) :
    .unread ∉ notesOf src depth name lex heap stk ∧ p.stk = .func heap.next :: stk ∧
      ∃ c, outlineOf (stk.length + 1) (notesOf src depth name lex heap stk) = some c ∧ c.funcs = 0 := by
  have herases := (erases_ymdCompile src depth name).ends (.init lex heap stk) [] List.not_mem_nil
  have hinit : Parser.logged (.init lex heap stk) ([] : List Note) = .init (lex, []) heap stk := rfl
  rw [hinit, hrun] at herases
  obtain ⟨log, hy, hread⟩ := herases
  have hnoting := noting_ends src depth name lex heap hroom
  rw [hy] at hnoting
  obtain ⟨hstk, c, hc, hlength⟩ := hnoting
  rw [notesOf_eq name heap stk (congrArg stateOf hy)]
  refine ⟨hread, hstk, c, hc, ?_⟩
  rw [hstk, List.length_cons] at hlength
  omega

omit hsize hgood in
/-- What they say of one that does not. -/
theorem noted_of_error (hroom : stk.length < maxStack) {depth : Nat} {e : Abort} {p : Parser σ}
    (hrun : (Hooks.checked src).ymdCompile src depth name (.init lex heap stk) = .error e p) :
    (∃ f, e = .fault f) ∧ .unread ∈ notesOf src depth name lex heap stk ∨
      .unread ∉ notesOf src depth name lex heap stk ∧
        (¬ e.IsRegular ∧ outlineOf (stk.length + 1) (notesOf src depth name lex heap stk) = none ∨
          e.IsRegular ∧ .func heap.next :: stk <:+ p.stk ∧
            ∃ c, outlineOf (stk.length + 1) (notesOf src depth name lex heap stk) = some c ∧
              p.stk.length = stk.length + 1 + c.funcs) := by
  have herases := (erases_ymdCompile src depth name).ends (.init lex heap stk) [] List.not_mem_nil
  have hinit : Parser.logged (.init lex heap stk) ([] : List Note) = .init (lex, []) heap stk := rfl
  rw [hinit, hrun] at herases
  rcases herases with ⟨log, hy, hread⟩ | ⟨⟨_, f, rfl, -⟩, hunread⟩
  · have hnoting := noting_ends src depth name lex heap hroom
    rw [hy] at hnoting
    rw [notesOf_eq name heap stk (congrArg stateOf hy)]
    exact .inr ⟨hread, hnoting⟩
  · exact .inl ⟨⟨f, rfl⟩, hunread⟩

/-- With room for its function a compilation succeeds, fails or never returns. -/
theorem compile_cases (hsrc : src.Apart) (hroom : stk.length < maxStack) :
    (∃ c, EndsWith src (m.rounds lex) name lex heap stk c ∧
      ((∃ f p, ymdCompile src (m.rounds lex) name (.init lex heap stk) = .ok f p ∧
          p.stk = .func heap.next :: stk ∧ c.funcs = 0) ∨
        ∃ msg p, ymdCompile src (m.rounds lex) name (.init lex heap stk) = .error (.fail msg) p ∧
          .func heap.next :: stk <:+ p.stk ∧ p.stk.length = stk.length + 1 + c.funcs)) ∨
      (∀ depth, ¬ Answers (ymdCompile src depth name (.init lex heap stk))) ∧
        ¬ ∃ c, EndsWith src (m.rounds lex) name lex heap stk c := by
  have hcounts := compile_keeps_tables_iff hsrc (m.rounds lex) name lex heap stk
  cases hrun : (Hooks.checked src).ymdCompile src (m.rounds lex) name (.init lex heap stk) with
  | ok f p =>
      have hplain : ymdCompile src (m.rounds lex) name (.init lex heap stk) = .ok f p := by
        rw [← Hooks.ymdCompile_plain]
        rcases detects_ymdCompile src (m.rounds lex) name (.init lex heap stk) with
          heq | ⟨-, q, hq⟩
        · rw [heq, hrun]
        · cases hrun.symm.trans hq
      obtain ⟨hread, hstk, c, hc, hfuncs⟩ := noted_of_ok name heap stk hroom hrun
      refine .inl ⟨c, ⟨hcounts.1 ?_, hread, hc⟩, .inl ⟨f, p, hplain, hstk, hfuncs⟩⟩
      intro e p' h
      cases hplain.symm.trans h
  | error e p =>
      -- a syntax error is an answer, every other error is none
      by_cases hfail : ∃ msg, e = .fail msg
      · obtain ⟨msg, rfl⟩ := hfail
        have hplain := plain_eq_checked name heap stk (m := m) Abort.noConfusion hrun
        obtain ⟨hread, hregular⟩ := (noted_of_error name heap stk hroom hrun).resolve_left nofun
        obtain ⟨-, hstk, c, hc, hlength⟩ :=
          hregular.resolve_left fun h => h.1 (Abort.isRegular_fail msg)
        refine .inl ⟨c, ⟨hcounts.1 ?_, hread, hc⟩, .inr ⟨msg, p, hplain, hstk, hlength⟩⟩
        intro e' p' h
        cases hplain.symm.trans h
        exact id
      · refine .inr ⟨fun depth hanswers => ?_, ?_⟩
        · -- the checked compilation would return as well
          obtain ⟨heq, hchecked⟩ := answers_rounds name heap stk hsize hgood hanswers
          rw [heq, ← hchecked, hrun] at hanswers
          cases e with
          | fail msg => exact hfail ⟨msg, rfl⟩
          | panic msg => exact hanswers
          | fault f => exact hanswers
          | fuel => exact hanswers
        · rintro ⟨c, hends⟩
          obtain ⟨-, hnoted⟩ := (noted_of_error name heap stk hroom hrun).resolve_left
            fun h => hends.read h.2
          rcases hnoted with ⟨-, hnone⟩ | ⟨hregular, -⟩
          · cases hends.outline.symm.trans hnone
          · rcases hregular with h | rfl | hbounds
            · exact hfail h
            -- regular, but no syntax error: too few rounds, or a full table
            · exact checked_ends name heap stk hsize hgood p hrun
            · have hplain := plain_eq_checked name heap stk (m := m)
                (by rintro rfl; exact hbounds) hrun
              exact hcounts.2 hends.counts e p hplain hbounds

/-- A compilation returns exactly when there is room for its function and its events and
notes say of no full table and no crash. -/
theorem compile_answers_iff (hsrc : src.Apart) :
    (∃ depth, Answers (ymdCompile src depth name (.init lex heap stk))) ↔
      stk.length < maxStack ∧ ∃ c, EndsWith src (m.rounds lex) name lex heap stk c := by
  by_cases hroom : stk.length < maxStack
  · rw [and_iff_right hroom]
    rcases compile_cases name heap stk hsize hgood hsrc hroom with ⟨c, hc, hends⟩ | ⟨hno, hnone⟩
    · refine iff_of_true ⟨m.rounds lex, ?_⟩ ⟨c, hc⟩
      rcases hends with ⟨f, p, hrun, -⟩ | ⟨msg, p, hrun, -⟩
      · rw [hrun]
        exact trivial
      · rw [hrun]
        exact answers_fail msg p
    · exact iff_of_false (fun ⟨depth, h⟩ => hno depth h) hnone
  · refine iff_of_false (fun ⟨depth, h⟩ => ?_) fun h => hroom h.1
    rw [ymdCompile_full name heap (Nat.not_lt.1 hroom)] at h
    exact h

end

/-! ## Statements -/

section

variable {src : Source σ} {m : Measure σ}

/-- A call of `parse_stmt` that returns has read a token, unless it began with `with`. -/
theorem stmt_reads_iff (hsize : src.Shrinks m) (hgood : ∀ lex, m.good lex) (p : Parser σ) :
    (∀ depth s p', (parser src depth).stmt p = .ok s p' → p'.left m.size < p.left m.size) ↔
      p.lah.token ≠ .WITH := by
  constructor
  · intro h hp
    have hstmt : (parser src 1).stmt p = .ok .empty p := by
      rw [← Hooks.parser_plain]
      exact parseStmt_with _ hp
    exact Nat.lt_irrefl _ (h 1 .empty p hstmt)
  · intro hp depth s p' h
    rw [← Hooks.parser_plain] at h
    have hchecked : ((Hooks.checked src).parser src depth).stmt p = .ok s p' := by
      rcases (detects_parsing src depth).2.1 p hp with heq | ⟨⟨q, hq⟩, -⟩
      · rw [← heq, h]
      · cases h.symm.trans hq
    -- with rounds enough the statement reads the same
    have hmore : ((Hooks.checked src).parser src (depth + (p.left m.size + 2))).stmt p =
        .ok s p' := by
      rcases stmt_more src (Nat.le_add_right depth (p.left m.size + 2)) p with heq | ⟨⟨q, hq⟩, -⟩
      · rw [← heq, hchecked]
      · cases hchecked.symm.trans hq
    have hleft : p.left m.size <
        ((Hooks.checked src).parser src (depth + (p.left m.size + 2))).fuel := by
      rw [parser_fuel]
      omega
    have hreads := (takes_parsing hsize (depth + (p.left m.size + 2))).stmt p (hgood p.lex) trivial
      hleft
    rw [hmore] at hreads
    exact hreads.2.2

end

/-! ## Sequences of tokens -/

section

variable (line : List Ytoken → Nat) (faulty : Bool)

theorem tokenSource_next (ts : List Ytoken) (f : Fault) : (tokenSource line faulty).next ts ≠ .error f := by
  cases ts <;> exact nofun

theorem tokenSource_apart : (tokenSource line faulty).Apart :=
  fun ts f h => absurd h (tokenSource_next line faulty ts f)

/-- Every token is read. -/
theorem unread_notMem_notesOf (depth : Nat) (name : Bytes) (ts : List Ytoken) (heap : Heap)
    (stk : List Variable) : .unread ∉ notesOf (tokenSource line faulty) depth name ts heap stk := by
  have hruns := (erases_ymdCompile (tokenSource line faulty) depth name).ends (.init ts heap stk) []
    List.not_mem_nil
  have hinit : Parser.logged (.init ts heap stk) ([] : List Note) = .init (ts, []) heap stk := rfl
  rw [hinit] at hruns
  rw [notesOf]
  rcases hrun : (Hooks.checked (tokenSource line faulty)).ymdCompile (tokenSource line faulty) depth
    name (.init ts heap stk) with ⟨f, p⟩ | ⟨e, p⟩
  · rw [hrun] at hruns
    obtain ⟨log, hy, hlog⟩ := hruns
    rw [hy]
    exact hlog
  · rw [hrun] at hruns
    rcases hruns with ⟨log, hy, hlog⟩ | ⟨⟨ts', f, -, hf⟩, -⟩
    · rw [hy]
      exact hlog
    · exact absurd hf (tokenSource_next line faulty ts' f)

end

end Ymd
