import Ymd.Code.Numerals
import Ymd.Compiler.Parse
import Ymd.Compiler.Tiling

/-! # Hexadecimal literals

The lexer takes `0x` or `0X` and any number of digits; `xtoll` has its own idea of
a prefix and of a length.
-/

namespace Ymd

open Foundation

namespace Lex

section

variable {buf pre post here : Bytes} {x : UInt8} {lex lex' : Lex} {tok : Ytoken}

theorem isxdigit_iff (c : UInt8) : isxdigit (asInt c) = true ↔ IsHex c := by
  revert c
  unfold IsHex
  exact forall_byte (by decide +kernel)

/-- The slice of a hexadecimal token, with the two characters of the prefix. -/
theorem readHex_text (hat : At (pre ++ [48]) (x :: post) lex) (hx : x = 120 ∨ x = 88)
    (hrun : readHex lex = .ok (tok, lex')) (htoken : tok.token = .HEX_LITERAL) :
    ∃ ds, tok.text = 48 :: x :: ds ∧ ∀ d ∈ ds, IsHex d := by
  have hne : x ≠ 0 := by
    rintro rfl
    rcases hx with hx | hx <;> cases hx
  obtain ⟨ds, rest, rfl, hds, hrest⟩ := exists_span (fun c => isxdigit (asInt c)) post
  obtain ⟨lex₁, hmove, hat₁⟩ := move_cons hat hne
  obtain ⟨lex₂, hdigits, -, -⟩ := readDigits_at term_of_isxdigit hat₁ hds hrest hat₁.length_lt
  have hback : At pre (48 :: x :: ds ++ rest) { lex₁ with off := pre.length } := by
    refine ⟨?_, rfl⟩
    change lex₁.buf = _
    rw [hat₁.1]
    simp
  have hoff : (lex₁.off : Int) - 2 = pre.length := by
    rw [hat₁.2]
    simp
  have hslice : lex₁.slice (lex₁.off - 2) (2 + ds.length) = 48 :: x :: ds := by
    rw [hoff, Nat.add_comm]
    exact hback.slice rfl
  unfold readHex at hrun
  rw [stateT_bind_of_ok hmove, stateT_bind_of_ok (a := lex₁) rfl,
    stateT_bind_of_ok (hdigits 2)] at hrun
  cases hrun
  exact ⟨ds, hslice, fun d hd => (isxdigit_iff d).1 (hds d hd)⟩

theorem Outcome.hex (houtcome : Outcome pre here tok lex) (htoken : tok.token = .HEX_LITERAL) :
    ∃ x post, here = 48 :: x :: post ∧ (x = 120 ∨ x = 88) := by
  cases houtcome with
  | failed h => rw [htoken] at h; cases h
  | ended _ h => rw [htoken] at h; cases h
  | @token text post hhere hspells =>
      rw [htoken] at hhere hspells
      cases hspells with
      | @word name tk hword =>
          have hall : ∀ entry ∈ operators ++ keywords, entry.2 ≠ .HEX_LITERAL := by decide
          exact absurd rfl (hall (name, .HEX_LITERAL) hword)
      | @hex x ds hx => exact ⟨x, ds ++ post, by simpa [quotes] using hhere, hx⟩
  | dict _ h => rw [htoken] at h; cases h
  | early _ h => rw [htoken] at h; cases h
  | @bare x post hhere hx => exact ⟨x, post, hhere, hx⟩

/-- The token of any call is the prefix and digits, none perhaps. -/
theorem hex_text (hbuf : 0 ∉ buf) (hreached : Reached buf lex)
    (hnext : next lex = .ok (tok, lex')) (htoken : tok.token = .HEX_LITERAL) :
    ∃ x ds, tok.text = 48 :: x :: ds ∧ (x = 120 ∨ x = 88) ∧ ∀ d ∈ ds, IsHex d := by
  obtain ⟨pre, post, hat, rfl⟩ := hreached.exists_at hbuf
  have hzero : 0 ∉ post := fun h => hbuf (List.mem_append_right _ h)
  obtain ⟨gap, here, rfl, hgap, houtcome⟩ := outcome_of_next hat hzero hnext
  obtain ⟨x, t, rfl, hx⟩ := houtcome.hex htoken
  obtain ⟨fuel, lex₁, hblanks, hat₁⟩ := nextLoop_blanks hgap hat hat.length_lt
  obtain ⟨lex₂, hmove, hat₂⟩ := move_cons hat₁ (by decide)
  have hahead : (decide (asInt x = 120) || decide (asInt x = 88)) = true := by
    rcases hx with rfl | rfl <;> decide
  have hread : readHex lex₂ = .ok (tok, lex') := by
    rw [← hnext]
    change _ = nextLoop (lex.buf.length + 1) lex
    rw [hblanks, nextLoop, stateT_bind_of_ok (a := lex₁) rfl, stateT_bind_of_ok (peek_cons hat₁)]
    simp +decide only [↓reduceIte]
    rw [stateT_bind_of_ok hmove]
    change _ = (if (decide (asInt x = 120) || decide (asInt x = 88)) = true then readHex
      else do back; readDec 0) lex₂
    rw [if_pos hahead]
  obtain ⟨ds, htext, hds⟩ := readHex_text hat₂ hx hread htoken
  exact ⟨x, ds, htext, hx, hds⟩

end

end Lex

section

variable {buf : Bytes} {lex lex' : Lex} {tok : Ytoken}

/-- The conversion passes its assertions and gives the number that the token
spells, modulo 2^64. -/
def Converts (raw : Bytes) : Prop :=
  xtoll raw = .ok (some (BitVec.ofNat 64 (hexValue (raw.drop 2))))

/-- What the parser does with the number. -/
theorem parseSimple_hex {σ : Type} (src : Source σ) (r : Rec σ) {p : Parser σ} {imm : YmdInt}
    (htoken : p.lah.token = .HEX_LITERAL) (himm : xtoll p.lah.text = .ok (some imm)) :
    parseSimple src r p = (do
      ymkEmitInt imm
      ymcNext src
      return Tree.hex p.lah.text) p := by
  have hpeek : (ymcPeek : ParseM σ Token) p = .ok .HEX_LITERAL p := by
    rw [← htoken]
    rfl
  unfold parseSimple
  rw [bind_of_ok hpeek]
  dsimp only
  rw [bind_of_ok (get_apply p), himm]

theorem converts_iff (hbuf : 0 ∉ buf) (hreached : Lex.Reached buf lex)
    (hnext : Lex.next lex = .ok (tok, lex')) (htoken : tok.token = .HEX_LITERAL) :
    Converts tok.text ↔ ∃ ds, tok.text = 48 :: 120 :: ds ∧ ds ≠ [] ∧ Folds ds := by
  obtain ⟨x, ds, htext, hx, hds⟩ := Lex.hex_text hbuf hreached hnext htoken
  rw [Converts, htext, xtoll_cons, List.drop_succ_cons, List.drop_succ_cons, List.drop_zero]
  constructor
  · intro h
    split at h
    · cases h
    next hsome =>
      split at h
      next hlower =>
        rw [Except.ok.injEq, xtollLoop_reverse hds] at h
        exact ⟨ds, by rw [hlower], hsome, h⟩
      · cases h
  · rintro ⟨ds', heq, hsome, hfolds⟩
    cases heq
    rw [if_neg hsome, if_pos rfl, (xtollLoop_reverse hds).2 hfolds]

/-- A hexadecimal token is converted as it reads exactly when its prefix is in
lower case, a digit follows, and the digits beyond the last sixteen come around
to digits that have their bits. The number is then pushed. -/
theorem hex_literal_iff (hbuf : 0 ∉ buf) (hreached : Lex.Reached buf lex)
    (hnext : Lex.next lex = .ok (tok, lex')) (htoken : tok.token = .HEX_LITERAL) :
    (Converts tok.text ↔ ∃ ds, tok.text = 48 :: 120 :: ds ∧ ds ≠ [] ∧ Folds ds) ∧
      (Converts tok.text → ∀ {σ : Type} (src : Source σ) (r : Rec σ) (p : Parser σ), p.lah = tok →
        parseSimple src r p = (do
          ymkEmitInt (BitVec.ofNat 64 (hexValue (tok.text.drop 2)))
          ymcNext src
          return Tree.hex tok.text) p) := by
  refine ⟨converts_iff hbuf hreached hnext htoken, ?_⟩
  rintro hconverts σ src r p rfl
  exact parseSimple_hex src r htoken hconverts

end

theorem hex_literal_2f : Converts (lit "0x2f") ↔
    ∃ ds, lit "0x2f" = 48 :: 120 :: ds ∧ ds ≠ [] ∧ Folds ds :=
  have hnext : Lex.next (Lex.init (lit "0x2f")) =
      .ok (⟨.HEX_LITERAL, 0, 4, lit "0x2f"⟩, ⟨lit "0x2f", 4, 1, 4⟩) := rfl
  (hex_literal_iff (by decide) .init hnext rfl).1

/-- The lexer takes the prefix `0X`, and the conversion does not. -/
theorem hex_prefix_upper : ¬ ∀ (buf : Bytes) (lex lex' : Lex) (tok : Ytoken), 0 ∉ buf →
    Lex.Reached buf lex → Lex.next lex = .ok (tok, lex') → tok.token = .HEX_LITERAL →
      Converts tok.text := by
  intro h
  have hnext : Lex.next (Lex.init (lit "0X1F")) =
      .ok (⟨.HEX_LITERAL, 0, 4, lit "0X1F"⟩, ⟨lit "0X1F", 4, 1, 4⟩) := rfl
  have hconverts := h (lit "0X1F") _ _ _ (by decide) .init hnext rfl
  cases hconverts

end Ymd
