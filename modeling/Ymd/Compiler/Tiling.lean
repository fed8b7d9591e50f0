import Ymd.Compiler.Tokens

/-! # Runs of the lexer

From call to call the lexer goes on to the end of the text, unless it comes to a
string or a comment that is left open. The tokens and what lies between them make
up the text, but for the tokens whose slices slip.
-/

namespace Ymd

open Foundation

namespace Lex

/-- Behind blanks begins a string or a comment that the text ends in. -/
def LeftOpen (t : Bytes) : Prop := ∃ gap here, t = gap ++ here ∧ Blanks gap ∧ Unclosed here

/-- The states in which the lexer is called while it has not returned `EOS`. -/
inductive Reached (buf : Bytes) : Lex → Prop
  | init : Reached buf (init buf)
  | call {lex lex' : Lex} {tok : Ytoken} (hlex : Reached buf lex) (hnext : next lex = .ok (tok, lex'))
      (hgo : tok.token ≠ .EOS) : Reached buf lex'

/-- The call with this number returns `EOS` or `ERROR`, and none before it. -/
inductive EndsIn : Nat → Lex → Prop
  | last {lex lex' : Lex} {tok : Ytoken} (hnext : next lex = .ok (tok, lex'))
      (hend : tok.token = .EOS ∨ tok.token = .ERROR) : EndsIn 1 lex
  | call {n : Nat} {lex lex' : Lex} {tok : Ytoken} (hnext : next lex = .ok (tok, lex'))
      (hgo : tok.token ≠ .EOS ∧ tok.token ≠ .ERROR) (hrest : EndsIn n lex') : EndsIn (n + 1) lex

/-- One call of `lex_next`. -/
structure Call where
  before : Lex
  tok : Ytoken
  after : Lex

/-- Successful calls, one after the other. -/
inductive Calls : Lex → List Call → Prop
  | nil (lex : Lex) : Calls lex []
  | cons {lex lex' : Lex} {tok : Ytoken} {calls : List Call} (hnext : next lex = .ok (tok, lex'))
      (hok : tok.token ≠ .ERROR) (hrest : Calls lex' calls) : Calls lex (⟨lex, tok, lex'⟩ :: calls)

/-- From where the lexer stood there are blanks, then the slice of the token,
between quotes if it is a string, and then the lexer stands behind it. `EOS` is
returned at the end of the text. -/
def Tiled (call : Call) : Prop :=
  ∃ gap text post, Blanks gap ∧
    call.before.buf.drop call.before.off =
      gap ++ (quotes call.tok.token ++ text ++ quotes call.tok.token) ++ post ∧
    call.tok.off = call.before.off + gap.length + (quotes call.tok.token).length ∧
    if call.tok.token = .EOS then text = [] ∧ post = []
    else Spells call.tok.token text ∧ call.tok.len = text.length ∧
      call.after.buf.drop call.after.off = post ∧ call.after.buf = call.before.buf

/-- A token whose slice is not its own. -/
inductive Slip : Bytes → Prop
  | arrow (post : Bytes) : Slip (45 :: 62 :: post)
  | byte255 (post : Bytes) : Slip (255 :: post)
  | noDigits {x : UInt8} {post : Bytes} (hx : x = 120 ∨ x = 88) (hterm : term (ahead post) = true) :
      Slip (48 :: x :: post)

/-- Behind blanks comes such a token. -/
def Slips (t : Bytes) : Prop := ∃ gap here, t = gap ++ here ∧ Blanks gap ∧ Slip here

section

variable {buf pre post gap here : Bytes} {lex lex' : Lex} {tok : Ytoken}

/-! ## One call -/

theorem next_outcome (hat : At pre (gap ++ here) lex) (hzero : 0 ∉ here) (hgap : Blanks gap)
    (hstart : Start here) (hclosed : ¬ Unclosed here) :
    ∃ tok lex', next lex = .ok (tok, lex') ∧ Outcome (pre ++ gap) here tok lex' := by
  obtain ⟨fuel, lex₁, hrun, hat'⟩ := nextLoop_blanks hgap hat hat.length_lt
  obtain ⟨tok, lex', hnext, houtcome⟩ := nextLoop_outcome fuel hat' hzero hstart hclosed
  exact ⟨tok, lex', hrun.trans hnext, houtcome⟩

theorem next_leftOpen (hat : At pre post lex) (hzero : 0 ∉ post) (hopen : LeftOpen post) :
    ∃ e, next lex = .error e := by
  obtain ⟨gap, here, rfl, hgap, hunclosed⟩ := hopen
  obtain ⟨fuel, lex₁, hrun, hat'⟩ := nextLoop_blanks hgap hat hat.length_lt
  have hzero' : 0 ∉ here := fun h => hzero (List.mem_append_right _ h)
  obtain ⟨e, he⟩ := nextLoop_unclosed fuel hat' hzero' hunclosed
  exact ⟨e, hrun.trans he⟩

/-- A call that finds nothing left open. -/
theorem next_at (hat : At pre post lex) (hzero : 0 ∉ post) (hclosed : ¬ LeftOpen post) :
    ∃ tok lex' gap here, next lex = .ok (tok, lex') ∧ post = gap ++ here ∧ Blanks gap ∧
      Outcome (pre ++ gap) here tok lex' := by
  obtain ⟨gap, here, rfl, hgap, hstart⟩ := exists_start post
  have hzero' : 0 ∉ here := fun h => hzero (List.mem_append_right _ h)
  obtain ⟨tok, lex', hnext, houtcome⟩ := next_outcome hat hzero' hgap hstart
    fun hunclosed => hclosed ⟨gap, here, rfl, hgap, hunclosed⟩
  exact ⟨tok, lex', gap, here, hnext, rfl, hgap, houtcome⟩

/-- A call that returns. -/
theorem outcome_of_next (hat : At pre post lex) (hzero : 0 ∉ post)
    (hnext : next lex = .ok (tok, lex')) :
    ∃ gap here, post = gap ++ here ∧ Blanks gap ∧ Outcome (pre ++ gap) here tok lex' := by
  have hclosed : ¬ LeftOpen post := by
    intro hopen
    obtain ⟨e, he⟩ := next_leftOpen hat hzero hopen
    rw [hnext] at he
    cases he
  obtain ⟨tok', lex'', gap, here, hnext', hpost, hgap, houtcome⟩ := next_at hat hzero hclosed
  cases hnext.symm.trans hnext'
  exact ⟨gap, here, hpost, hgap, houtcome⟩

theorem Spells.ne_nil {tk : Token} {text : Bytes} (hspells : Spells tk text) :
    tk = .STRING ∨ text ≠ [] := by
  cases hspells with
  | char c => exact .inr nofun
  | @word name tk hword =>
      have hall : ∀ entry ∈ operators ++ keywords, lit entry.1 ≠ [] := by decide
      exact .inr (hall (name, tk) hword)
  | symbol => exact .inr nofun
  | string => exact .inl rfl
  | dec _ hsome => exact .inr fun h => hsome (List.append_eq_nil_iff.1 h).2
  | hex => exact .inr nofun

/-- Only the end of the text is left behind. -/
theorem Outcome.at_or_behind (houtcome : Outcome pre here tok lex) :
    (tok.token = .EOS ∧ lex.off = lex.buf.length + 1) ∨
      ∃ pre' post', At pre' post' lex ∧ pre' ++ post' = pre ++ here := by
  cases houtcome with
  | failed _ hall _ hat => exact .inr ⟨_, _, hat, hall⟩
  | ended _ htoken _ hbuf hbehind => exact .inl ⟨htoken, by rw [hbehind, hbuf]⟩
  | token hhere _ _ _ hat => exact .inr ⟨_, _, hat, by rw [hhere, List.append_assoc]⟩
  | dict hhere _ _ hat => exact .inr ⟨_, _, hat, by simp [hhere]⟩
  | early hhere _ _ hat => exact .inr ⟨_, _, hat, by simp [hhere]⟩
  | bare hhere _ _ _ _ hat => exact .inr ⟨_, _, hat, by simp [hhere]⟩

theorem next_behind (hoff : lex.off = lex.buf.length + 1) : ∃ e, next lex = .error e := by
  have hbeyond : lex.charAt lex.off = .error (.bounds "lex->buf") := by
    rw [charAt, if_neg (by omega), if_neg (by omega)]
    rfl
  refine ⟨.bounds "lex->buf", ?_⟩
  change nextLoop (lex.buf.length + 1) lex = _
  rw [nextLoop, stateT_bind_of_ok (a := lex) rfl]
  apply stateT_bind_of_error
  unfold peek
  rw [stateT_bind_of_ok (a := lex) rfl, hbeyond]
  rfl

theorem Outcome.advances (houtcome : Outcome pre here tok lex) :
    tok.token = .ERROR ∨ pre.length < lex.off := by
  cases houtcome with
  | failed htoken => exact .inl htoken
  | ended _ _ _ _ hbehind => exact .inr (by omega)
  | @token text post _ hspells _ _ hat =>
      have hpos : 0 < (quotes tok.token ++ text ++ quotes tok.token).length := by
        apply List.length_pos_iff.2
        rcases hspells.ne_nil with hstring | hsome
        · rw [hstring]
          exact nofun
        · intro hnil
          exact hsome (List.append_eq_nil_iff.1 (List.append_eq_nil_iff.1 hnil).1).2
      right
      rw [hat.2, List.length_append]
      omega
  | dict _ _ _ hat => exact .inr (by rw [hat.2]; simp)
  | early _ _ _ hat => exact .inr (by rw [hat.2]; simp)
  | bare _ _ _ _ _ hat => exact .inr (by rw [hat.2]; simp)

/-! ## Every call before the end -/

theorem Reached.exists_at (hbuf : 0 ∉ buf) (hreached : Reached buf lex) :
    ∃ pre post, At pre post lex ∧ pre ++ post = buf := by
  induction hreached with
  | init => exact ⟨[], buf, at_init buf, rfl⟩
  | call _ hnext hgo ih =>
      obtain ⟨pre, post, hat, rfl⟩ := ih
      have hzero : 0 ∉ post := fun h => hbuf (List.mem_append_right _ h)
      obtain ⟨gap, here, rfl, _, houtcome⟩ := outcome_of_next hat hzero hnext
      obtain ⟨pre', post', hat', hall⟩ := houtcome.at_or_behind.resolve_left fun h => hgo h.1
      exact ⟨pre', post', hat', hall.trans (List.append_assoc _ _ _)⟩

theorem endsIn_of_reached (hbuf : 0 ∉ buf)
    (hclosed : ∀ lex, Reached buf lex → ¬ LeftOpen (lex.buf.drop lex.off))
    (hreached : Reached buf lex) (hat : At pre post lex) (hall : pre ++ post = buf) :
    ∃ n ≤ post.length + 1, EndsIn n lex := by
  induction hn : post.length using Nat.strong_induction_on generalizing lex pre post with
  | _ n ih =>
    have hzero : 0 ∉ post := fun h => hbuf (hall ▸ List.mem_append_right _ h)
    have hopen := hclosed lex hreached
    rw [hat.drop] at hopen
    obtain ⟨tok, lex', gap, here, hnext, rfl, _, houtcome⟩ := next_at hat hzero hopen
    by_cases hend : tok.token = .EOS ∨ tok.token = .ERROR
    · exact ⟨1, by omega, .last hnext hend⟩
    · obtain ⟨hgo, hok⟩ := not_or.1 hend
      obtain ⟨pre', post', hat', hall'⟩ := houtcome.at_or_behind.resolve_left fun h => hgo h.1
      have hlt := houtcome.advances.resolve_left hok
      have hlen := congrArg List.length hall'
      simp only [List.length_append] at hlen hlt hn
      rw [hat'.2] at hlt
      obtain ⟨k, hk, hrest⟩ := ih post'.length (by omega) (hreached.call hnext hgo) hat'
        (hall'.trans ((List.append_assoc _ _ _).trans hall)) rfl
      exact ⟨k + 1, by omega, .call hnext ⟨hgo, hok⟩ hrest⟩

/-- Every call before the end returns inside the text and goes on or fails, and
the end is reached, exactly when no call finds a string or a comment left open. -/
theorem lexer_ends_iff (hbuf : 0 ∉ buf) :
    ((∀ lex, Reached buf lex → ∃ tok lex', next lex = .ok (tok, lex') ∧
        (tok.token = .ERROR ∨ lex.off < lex'.off)) ∧
      ∃ n ≤ buf.length + 1, EndsIn n (init buf)) ↔
    ∀ lex, Reached buf lex → ¬ LeftOpen (lex.buf.drop lex.off) := by
  constructor
  · rintro ⟨hall, _⟩ lex hreached hopen
    obtain ⟨pre, post, hat, rfl⟩ := hreached.exists_at hbuf
    have hzero : 0 ∉ post := fun h => hbuf (List.mem_append_right _ h)
    rw [hat.drop] at hopen
    obtain ⟨e, he⟩ := next_leftOpen hat hzero hopen
    obtain ⟨tok, lex', hnext, _⟩ := hall lex hreached
    rw [he] at hnext
    cases hnext
  · intro hclosed
    refine ⟨fun lex hreached => ?_, endsIn_of_reached hbuf hclosed .init (at_init buf) rfl⟩
    obtain ⟨pre, post, hat, rfl⟩ := hreached.exists_at hbuf
    have hzero : 0 ∉ post := fun h => hbuf (List.mem_append_right _ h)
    have hopen := hclosed lex hreached
    rw [hat.drop] at hopen
    obtain ⟨tok, lex', gap, here, hnext, rfl, _, houtcome⟩ := next_at hat hzero hopen
    refine ⟨tok, lex', hnext, houtcome.advances.imp_right fun hlt => ?_⟩
    rw [List.length_append] at hlt
    rw [hat.2]
    omega

/-! ## Slices -/

theorem Spells.ne_eos {tk : Token} {text : Bytes} (hspells : Spells tk text) : tk ≠ .EOS := by
  cases hspells with
  | @word name tk hword =>
      have hall : ∀ entry ∈ operators ++ keywords, entry.2 ≠ .EOS := by decide
      exact hall (name, tk) hword
  | char => exact nofun
  | symbol => exact nofun
  | string => exact nofun
  | dec => exact nofun
  | hex => exact nofun

theorem Spells.length_of_dict {text : Bytes} (hspells : Spells .DICT text) : text.length = 2 := by
  cases hspells with
  | @word name tk hword =>
      have hall : ∀ entry ∈ operators ++ keywords, entry.2 = .DICT → (lit entry.1).length = 2 := by
        decide
      exact hall (name, .DICT) hword rfl

theorem Spells.length_of_hex {text : Bytes} (hspells : Spells .HEX_LITERAL text) :
    2 < text.length := by
  cases hspells with
  | @word name tk hword =>
      have hall : ∀ entry ∈ operators ++ keywords, entry.2 ≠ .HEX_LITERAL := by decide
      exact absurd rfl (hall (name, .HEX_LITERAL) hword)
  | @hex x ds _ hsome =>
      have hpos := List.length_pos_iff.2 hsome
      simp only [List.length_cons]
      omega

/-- What the lexer makes of them. -/
theorem nextLoop_slip (fuel : Nat) (hat : At pre here lex) (hslip : Slip here) :
    ∃ tok lex', nextLoop (fuel + 1) lex = .ok (tok, lex') ∧
      (tok.token = .DICT ∧ tok.off = pre.length - 1 ∧ lex'.off = pre.length + 2 ∧ 2 ≤ here.length ∨
        tok.token = .EOS ∧ tok.off = pre.length ∧ 0 < here.length ∨
          tok.token = .HEX_LITERAL ∧ tok.len = 2) := by
  cases hslip with
  | arrow post =>
      obtain ⟨lex₁, hmove, hat₁⟩ := move_cons hat (by decide)
      obtain ⟨lex₂, hmove', hat₂⟩ := move_cons hat₁ (by decide)
      refine ⟨lex₁.ytoken .DICT (lex₁.off - 2) 2, lex₂, ?_, .inl ⟨rfl, ?_, ?_, by simp⟩⟩
      · rw [nextLoop, stateT_bind_of_ok (a := lex) rfl, stateT_bind_of_ok (peek_cons hat)]
        simp +decide only [↓reduceIte]
        rw [stateT_bind_of_ok hmove, stateT_bind_of_ok (peek_cons hat₁)]
        simp +decide only [↓reduceIte]
        rw [stateT_bind_of_ok (peek_cons hat₁)]
        simp +decide only [↓reduceIte]
        rw [stateT_bind_of_ok (a := lex₁) rfl, stateT_bind_of_ok hmove']
        rfl
      · change (lex₁.off : Int) - 2 = _
        rw [hat₁.2]
        simp
        omega
      · rw [hat₂.2]
        simp
  | byte255 post =>
      obtain ⟨lex', hrun, hat'⟩ := tokenC_cons hat
      refine ⟨lex.ytoken .EOS lex.off 1, lex', ?_,
        .inr (.inl ⟨rfl, congrArg Int.ofNat hat.2, by simp⟩)⟩
      rw [nextLoop, stateT_bind_of_ok (a := lex) rfl, stateT_bind_of_ok (peek_cons hat)]
      exact hrun
  | @noDigits x post hx hterm =>
      have hne : x ≠ 0 := by
        rintro rfl
        rcases hx with hx | hx <;> cases hx
      obtain ⟨lex₁, hmove, hat₁⟩ := move_cons hat (by decide)
      obtain ⟨lex₂, hmove', hat₂⟩ := move_cons hat₁ hne
      have hno : ∀ c t, post = c :: t → isxdigit (asInt c) = false := by
        rintro c t rfl
        apply Bool.eq_false_iff.2
        intro hdigit
        exact Bool.eq_false_iff.1 (term_of_isxdigit c hdigit) hterm
      have hat₂' : At _ ([] ++ post) lex₂ := hat₂
      obtain ⟨lex₃, hdigits, _⟩ := readDigits_at term_of_isxdigit hat₂' (by simp) hno
        (Nat.succ_pos lex₂.buf.length)
      refine ⟨lex₂.ytoken .HEX_LITERAL (lex₂.off - 2) 2, lex₃, ?_, .inr (.inr ⟨rfl, rfl⟩)⟩
      have hx' : (decide (asInt x = 120) || decide (asInt x = 88)) = true := by
        rcases hx with rfl | rfl <;> decide
      rw [nextLoop, stateT_bind_of_ok (a := lex) rfl, stateT_bind_of_ok (peek_cons hat)]
      simp +decide only [↓reduceIte]
      rw [stateT_bind_of_ok hmove]
      change (if (decide (asInt x = 120) || decide (asInt x = 88)) = true then readHex
        else do back; readDec 0) lex₁ = _
      rw [if_pos hx']
      unfold readHex
      rw [stateT_bind_of_ok hmove', stateT_bind_of_ok (a := lex₂) rfl,
        stateT_bind_of_ok (hdigits 2), hterm]
      rfl

/-- One call that finds the lexer in the text. -/
theorem tiled_iff (hat : At pre post lex) (hzero : 0 ∉ post) (hnext : next lex = .ok (tok, lex'))
    (hok : tok.token ≠ .ERROR) : Tiled ⟨lex, tok, lex'⟩ ↔ ¬ Slips post := by
  constructor
  · rintro ⟨gap', text, post', hgap', hsplit, hoff', htiled⟩ ⟨gap, here, rfl, hgap, hslip⟩
    obtain ⟨fuel, lex₁, hrun, hat'⟩ := nextLoop_blanks hgap hat hat.length_lt
    obtain ⟨tok', lex'', hslipped, hcase⟩ := nextLoop_slip fuel hat' hslip
    cases hnext.symm.trans (hrun.trans hslipped)
    have hoff := hat.2
    have hlen := hat.length_eq
    have hsame := congrArg List.length hsplit
    rw [hat.drop] at hsame
    simp only [List.length_append] at hsame hcase hlen
    simp only at hoff' htiled
    -- each slip leaves a slice that is no token at its place
    rcases hcase with ⟨htoken, hslice, hbehind, htwo⟩ | ⟨htoken, hslice, hsome⟩ | ⟨htoken, htwo⟩
    · -- the slice begins one byte in front of the arrow
      simp only [htoken] at hoff' htiled hsame
      obtain ⟨hspells, _, hdrop, hbuf⟩ := htiled
      have htext := hspells.length_of_dict
      have hpost := congrArg List.length hdrop
      rw [List.length_drop, hbuf] at hpost
      simp [quotes] at hoff' hsame
      omega
    · simp only [htoken, if_true] at hoff' htiled hsame
      obtain ⟨rfl, rfl⟩ := htiled
      simp [quotes] at hoff' hsame
      omega
    · simp only [htoken] at htiled
      obtain ⟨hspells, htext, _⟩ := htiled
      have hthree := hspells.length_of_hex
      omega
  · intro hno
    obtain ⟨gap, here, rfl, hgap, houtcome⟩ := outcome_of_next hat hzero hnext
    have hdrop := hat.drop
    have hoff := hat.2
    -- the last three outcomes are the slips
    cases houtcome with
    | failed htoken => exact absurd htoken hok
    | ended hhere htoken hslice =>
        subst hhere
        refine ⟨gap, [], [], hgap, ?_, ?_, ?_⟩
        · simp [hdrop, htoken, quotes]
        · simp [hslice, htoken, quotes, hoff]
        · rw [if_pos htoken]
          exact ⟨rfl, rfl⟩
    | @token text post hhere hspells hslice hlen hat' =>
        refine ⟨gap, text, post, hgap, ?_, ?_, ?_⟩
        · simp [hdrop, hhere]
        · simp [hslice, hoff]
        · have hneos : tok.token ≠ .EOS := by
            intro h
            rw [h] at hspells
            exact hspells.ne_eos rfl
          rw [if_neg hneos]
          refine ⟨hspells, hlen, hat'.drop, ?_⟩
          rw [hat'.1, hat.1, hhere]
          simp
    | dict hhere => exact absurd ⟨gap, here, rfl, hgap, hhere ▸ .arrow _⟩ hno
    | early hhere => exact absurd ⟨gap, here, rfl, hgap, hhere ▸ .byte255 _⟩ hno
    | bare hhere hx hterm => exact absurd ⟨gap, here, rfl, hgap, hhere ▸ .noDigits hx hterm⟩ hno

theorem tiled_iff_of_calls {calls : List Call} (hcalls : Calls lex calls) (hat : At pre post lex)
    (hbuf : 0 ∉ pre ++ post) : (∀ call ∈ calls, Tiled call) ↔
      ∀ call ∈ calls, ¬ Slips (call.before.buf.drop call.before.off) := by
  induction hcalls generalizing pre post with
  | nil lex => simp
  | @cons lex lex' tok calls hnext hok hrest ih =>
      have hzero : 0 ∉ post := fun h => hbuf (List.mem_append_right _ h)
      rw [List.forall_mem_cons, List.forall_mem_cons, tiled_iff hat hzero hnext hok, hat.drop]
      apply and_congr_right
      intro _
      obtain ⟨gap, here, rfl, _, houtcome⟩ := outcome_of_next hat hzero hnext
      rcases houtcome.at_or_behind with ⟨_, hbehind⟩ | ⟨pre', post', hat', hall⟩
      · -- nothing can be read behind the end
        cases hrest with
        | nil => simp
        | cons hnext' =>
            obtain ⟨e, he⟩ := next_behind hbehind
            rw [he] at hnext'
            cases hnext'
      · apply ih hat'
        rwa [hall, List.append_assoc]

/-- In a run of successful calls the tokens and the blanks between them make up
the text exactly when no call comes to `->`, to the byte 255 or to `0x` without
digits. -/
theorem tokens_tile_iff {calls : List Call} (hbuf : 0 ∉ buf) (hcalls : Calls (init buf) calls) :
    (∀ call ∈ calls, Tiled call) ↔
      ∀ call ∈ calls, ¬ Slips (call.before.buf.drop call.before.off) :=
  tiled_iff_of_calls hcalls (at_init buf) hbuf

/-- Without quotes, hashes and slashes nothing is left open. -/
theorem not_leftOpen (hbuf : 0 ∉ buf) (hclean : 34 ∉ buf ∧ 35 ∉ buf ∧ 47 ∉ buf)
    (hreached : Reached buf lex) : ¬ LeftOpen (lex.buf.drop lex.off) := by
  obtain ⟨pre, post, hat, rfl⟩ := hreached.exists_at hbuf
  rw [hat.drop]
  rintro ⟨gap, here, rfl, _, hunclosed⟩
  obtain ⟨hquote, hhash, hslash⟩ := hclean
  cases hunclosed with
  | string => exact hquote (by simp)
  | hash => exact hhash (by simp)
  | slashes => exact hslash (by simp)

end

theorem lexer_ends_index : (∀ lex, Reached (lit "a[0x2f] -> b\n") lex →
    ∃ tok lex', next lex = .ok (tok, lex') ∧ (tok.token = .ERROR ∨ lex.off < lex'.off)) ∧
      ∃ n ≤ (lit "a[0x2f] -> b\n").length + 1, EndsIn n (init (lit "a[0x2f] -> b\n")) :=
  (lexer_ends_iff (by decide)).2 fun _ hreached => not_leftOpen (by decide) (by decide) hreached

/-- A string that is left open is read at the end of the text for ever, a comment
that is left open beyond it. -/
theorem lexer_open_texts : next (init (lit "\"a")) = .error .looping ∧
    (∀ fuel len, readRawChars fuel len ⟨lit "\"a", 2, 1, 2⟩ = .error .looping) ∧
      next (init (lit "\n# a")) = .error (.bounds "lex->buf") := by
  have hat : At (lit "\"a") [] ⟨lit "\"a", 2, 1, 2⟩ := ⟨rfl, rfl⟩
  exact ⟨rfl, fun _ len => readRawChars_end hat len, rfl⟩

/-- Minus signs, zeros and the byte 255 are needed for a slip. -/
theorem not_slips {t : Bytes} (hclean : 45 ∉ t ∧ 255 ∉ t ∧ 48 ∉ t) : ¬ Slips t := by
  rintro ⟨gap, here, rfl, _, hslip⟩
  obtain ⟨hminus, hbyte, hzero⟩ := hclean
  cases hslip with
  | arrow => exact hminus (by simp)
  | byte255 => exact hbyte (by simp)
  | noDigits => exact hzero (by simp)

/-- The calls for `a >= "b"`. -/
def comparison : List Call :=
  [⟨init (lit "a >= \"b\""), ⟨.SYMBOL, 0, 1, lit "a"⟩, ⟨lit "a >= \"b\"", 1, 1, 1⟩⟩,
    ⟨⟨lit "a >= \"b\"", 1, 1, 1⟩, ⟨.GE, 2, 2, lit ">="⟩, ⟨lit "a >= \"b\"", 4, 1, 4⟩⟩,
    ⟨⟨lit "a >= \"b\"", 4, 1, 4⟩, ⟨.STRING, 6, 1, lit "b"⟩, ⟨lit "a >= \"b\"", 8, 1, 8⟩⟩,
    ⟨⟨lit "a >= \"b\"", 8, 1, 8⟩, ⟨.EOS, 8, 1, []⟩, ⟨lit "a >= \"b\"", 9, 1, 9⟩⟩]

theorem tokens_tile_comparison : Calls (init (lit "a >= \"b\"")) comparison ∧
    ∀ call ∈ comparison, Tiled call := by
  have hcalls : Calls (init (lit "a >= \"b\"")) comparison :=
    .cons rfl nofun (.cons rfl nofun (.cons rfl nofun (.cons rfl nofun (.nil _))))
  refine ⟨hcalls, (tokens_tile_iff (by decide) hcalls).2 fun call hcall => not_slips ?_⟩
  have hall : ∀ call ∈ comparison, 45 ∉ call.before.buf.drop call.before.off ∧
      255 ∉ call.before.buf.drop call.before.off ∧ 48 ∉ call.before.buf.drop call.before.off := by
    decide
  exact hall call hcall

/-- `->` at the start of the text gets the byte in front of the text, and the
byte 255 ends a text that goes on. -/
theorem tokens_slip :
    (∃ calls, Calls (init (lit "->")) calls ∧ ∃ call ∈ calls, ¬ Tiled call) ∧
      ∃ calls, Calls (init [255, 97]) calls ∧ ∃ call ∈ calls, ¬ Tiled call := by
  constructor
  · have hnext : next (init (lit "->")) = .ok (⟨.DICT, -1, 2, lit "-"⟩, ⟨lit "->", 2, 1, 2⟩) := rfl
    refine ⟨_, .cons hnext nofun (.nil _), _, List.mem_cons_self, ?_⟩
    rw [tiled_iff (at_init _) (by decide) hnext nofun]
    exact not_not.2 ⟨[], lit "->", rfl, .nil, .arrow []⟩
  · have hnext : next (init [255, 97]) = .ok (⟨.EOS, 0, 1, [255]⟩, ⟨[255, 97], 1, 1, 1⟩) := rfl
    refine ⟨_, .cons hnext nofun (.nil _), _, List.mem_cons_self, ?_⟩
    rw [tiled_iff (at_init _) (by decide) hnext nofun]
    exact not_not.2 ⟨[], [255, 97], rfl, .nil, .byte255 [97]⟩

end Lex

end Ymd
