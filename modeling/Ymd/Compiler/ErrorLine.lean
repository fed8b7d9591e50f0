import Ymd.Compiler.Tiling

/-! # The line of an error

`lex_line` goes back by the column to the beginning of the line and from the
cursor on to its end. The column always leads to the beginning of a line; behind
the end of the text, and for a line that fills the buffer, the bounds are left.
-/

namespace Ymd

open Foundation

namespace Lex

/-- The second loop of `lex_line`. -/
def lineEnd (lex : Lex) : Nat → Nat → Except Fault Nat
  | 0, _ => throw .looping
  | fuel + 1, i => do
      let ch ← lex.charAt i
      if ch = 10 ∨ ch = 0 then return i
      else lineEnd lex fuel (i + 1)

/-- What `lex_line` has read, from `start` to the byte at `stop`, and what it has
written. -/
structure ErrorLine where
  start : Nat
  stop : Nat
  out : Bytes

/-- `lex_line` for a buffer of `n` bytes. -/
def line (lex : Lex) (n : Nat) : Except Fault ErrorLine := do
  if lex.iColumn < 0 then throw .looping
  let line : Int := lex.off - lex.iColumn
  let i ← lex.lineEnd (lex.buf.length + 1) lex.off
  if line < 0 then throw (.bounds "lex->buf")
  let k := min (i - line.toNat) n
  if n ≤ k then throw (.bounds "buf")
  return ⟨line.toNat, i, lex.slice line k ++ [0]⟩

/-- A line begins at `i`. -/
def LineStart (buf : Bytes) (i : Nat) : Prop := ∀ j, i = j + 1 → buf[j]? = some 10

/-- `lex_line` reads from the beginning of a line to the NUL at most, and writes no
more bytes than there is room for. -/
def InBounds (lex : Lex) (n : Nat) : Prop :=
  ∃ found, lex.line n = .ok found ∧ LineStart lex.buf found.start ∧
    found.start ≤ found.stop ∧ found.stop ≤ lex.buf.length ∧ found.out.length ≤ n

/-! ## The column -/

/-- The column counts from the beginning of a line. -/
def Column (lex : Lex) : Prop :=
  ∃ line : Nat, LineStart lex.buf line ∧ 0 ≤ lex.iColumn ∧ (lex.off : Int) = line + lex.iColumn

/-- The cursor goes on in its line. -/
structure Onward (lex lex' : Lex) : Prop where
  buf : lex'.buf = lex.buf
  off : lex.off ≤ lex'.off
  column : (lex'.off : Int) - lex'.iColumn = lex.off - lex.iColumn

namespace Onward

variable {lex lex' lex'' : Lex}

theorem refl (lex : Lex) : Onward lex lex := ⟨rfl, le_rfl, rfl⟩

theorem trans (h : Onward lex lex') (h' : Onward lex' lex'') : Onward lex lex'' :=
  ⟨h'.buf.trans h.buf, h.off.trans h'.off, h'.column.trans h.column⟩

theorem one (lex : Lex) : Onward lex { lex with off := lex.off + 1, iColumn := lex.iColumn + 1 } where
  buf := rfl
  off := Nat.le_succ _
  column := by
    simp only [Nat.cast_add, Nat.cast_one]
    omega

theorem keeps (h : Onward lex lex') (hcolumn : Column lex) : Column lex' := by
  obtain ⟨line, hline, hpos, hoff⟩ := hcolumn
  have hle := h.off
  have heq := h.column
  exact ⟨line, h.buf.symm ▸ hline, by omega, by omega⟩

end Onward

section

variable {α β : Type} {lex lex' lex'' : Lex} {tok : Ytoken} {ch : Int}

theorem getLex_ok {x : Lex} (h : (get : LexM Lex) lex = .ok (x, lex')) : x = lex ∧ lex' = lex := by
  cases h
  exact ⟨rfl, rfl⟩

theorem liftChar_ok {c : UInt8} {i : Nat}
    (h : (liftM (lex.charAt i) : LexM UInt8) lex'' = .ok (c, lex')) :
    lex.charAt i = .ok c ∧ lex' = lex'' := by
  cases hchar : lex.charAt i with
  | error f =>
      rw [hchar] at h
      cases h
  | ok d =>
      rw [stateT_lift_of_ok hchar] at h
      cases h
      exact ⟨rfl, rfl⟩

theorem peek_ok (h : peek lex = .ok (ch, lex')) :
    lex' = lex ∧ ∃ c, lex.charAt lex.off = .ok c ∧ ch = asInt c := by
  obtain ⟨x, lex₁, hget, h₁⟩ := stateT_bind_ok_iff.1 h
  obtain ⟨rfl, rfl⟩ := getLex_ok hget
  obtain ⟨c, lex₂, hchar, h₂⟩ := stateT_bind_ok_iff.1 h₁
  obtain ⟨hchar, rfl⟩ := liftChar_ok hchar
  cases h₂
  exact ⟨rfl, c, hchar, rfl⟩

theorem read_ok (h : read lex = .ok (ch, lex')) :
    lex' = { lex with off := lex.off + 1, iColumn := lex.iColumn + 1 } ∧
      ∃ c, lex.charAt lex.off = .ok c ∧ ch = asInt c := by
  obtain ⟨x, lex₁, hget, h₁⟩ := stateT_bind_ok_iff.1 h
  obtain ⟨rfl, rfl⟩ := getLex_ok hget
  obtain ⟨c, lex₂, hchar, h₂⟩ := stateT_bind_ok_iff.1 h₁
  obtain ⟨hchar, rfl⟩ := liftChar_ok hchar
  cases h₂
  exact ⟨rfl, c, hchar, rfl⟩

theorem move_ok (h : move lex = .ok (ch, lex')) :
    (lex' = lex ∧ lex.charAt lex.off = .ok 0) ∨
      lex' = { lex with off := lex.off + 1, iColumn := lex.iColumn + 1 } := by
  obtain ⟨x, lex₁, hget, h₁⟩ := stateT_bind_ok_iff.1 h
  obtain ⟨rfl, rfl⟩ := getLex_ok hget
  obtain ⟨c, lex₂, hchar, h₂⟩ := stateT_bind_ok_iff.1 h₁
  obtain ⟨hchar, rfl⟩ := liftChar_ok hchar
  by_cases hc : c = 0
  · rw [if_pos hc] at h₂
    cases h₂
    exact .inl ⟨rfl, hc ▸ hchar⟩
  · rw [if_neg hc] at h₂
    obtain ⟨d, lex₃, hchar', h₃⟩ := stateT_bind_ok_iff.1 h₂
    obtain ⟨-, rfl⟩ := liftChar_ok hchar'
    cases h₃
    exact .inr rfl

/-- What `lex_move` has moved over is taken back, unless it is the end of the text. -/
theorem move_back_ok {u : Unit} {c : UInt8} (hchar : lex.charAt lex.off = .ok c) (hc : c ≠ 0)
    (hmove : move lex = .ok (ch, lex')) (hback : back lex' = .ok (u, lex'')) : lex'' = lex := by
  rcases move_ok hmove with ⟨-, hzero⟩ | rfl
  · rw [hchar] at hzero
    exact absurd (Except.ok.inj hzero) hc
  · cases hback
    simp

theorem onward_read (h : read lex = .ok (ch, lex')) : Onward lex lex' := by
  obtain ⟨rfl, -⟩ := read_ok h
  exact .one lex

theorem onward_move (h : move lex = .ok (ch, lex')) : Onward lex lex' := by
  rcases move_ok h with ⟨rfl, -⟩ | rfl
  · exact .refl lex'
  · exact .one lex

theorem onward_tokenC (h : tokenC lex = .ok (tok, lex')) : Onward lex lex' := by
  obtain ⟨x, lex₁, hget, h₁⟩ := stateT_bind_ok_iff.1 h
  obtain ⟨rfl, rfl⟩ := getLex_ok hget
  obtain ⟨c, lex₂, hchar, h₂⟩ := stateT_bind_ok_iff.1 h₁
  obtain ⟨-, rfl⟩ := liftChar_ok hchar
  obtain ⟨ch, lex₃, hread, h₃⟩ := stateT_bind_ok_iff.1 h₂
  cases h₃
  exact onward_read hread

theorem onward_tokenL {m : Int} {tk : Token} {c : UInt8} (hchar : lex.charAt lex.off = .ok c)
    (hc : c ≠ 0) (h : tokenL m tk lex = .ok (tok, lex')) : Onward lex lex' := by
  obtain ⟨ch, lex₁, hmove, h₁⟩ := stateT_bind_ok_iff.1 h
  split at h₁
  · obtain ⟨u, lex₂, hback, h₂⟩ := stateT_bind_ok_iff.1 h₁
    obtain rfl := move_back_ok hchar hc hmove hback
    exact onward_tokenC h₂
  · obtain ⟨x, lex₂, hget, h₂⟩ := stateT_bind_ok_iff.1 h₁
    obtain ⟨rfl, rfl⟩ := getLex_ok hget
    obtain ⟨ch', lex₃, hmove', h₃⟩ := stateT_bind_ok_iff.1 h₂
    cases h₃
    exact (onward_move hmove).trans (onward_move hmove')

theorem onward_tokenCmp {twice c : UInt8} {withEq doubled : Token}
    (hchar : lex.charAt lex.off = .ok c) (hc : c ≠ 0)
    (h : tokenCmp twice withEq doubled lex = .ok (tok, lex')) : Onward lex lex' := by
  obtain ⟨x, lex₁, hget, h₁⟩ := stateT_bind_ok_iff.1 h
  obtain ⟨rfl, rfl⟩ := getLex_ok hget
  obtain ⟨d, lex₂, hchar', h₂⟩ := stateT_bind_ok_iff.1 h₁
  obtain ⟨-, rfl⟩ := liftChar_ok hchar'
  split at h₂
  · exact onward_tokenL hchar hc h₂
  · split at h₂
    · exact onward_tokenL hchar hc h₂
    · exact onward_tokenC h₂

theorem onward_readDigits {digit : Int → Bool} {fuel len : Nat} {r : Nat × Bool}
    (h : readDigits digit fuel len lex = .ok (r, lex')) : Onward lex lex' := by
  induction fuel generalizing len lex with
  | zero => cases h
  | succ fuel ih =>
      obtain ⟨ch, lex₁, hread, h₁⟩ := stateT_bind_ok_iff.1 h
      split at h₁
      · obtain ⟨u, lex₂, hback, h₂⟩ := stateT_bind_ok_iff.1 h₁
        obtain ⟨rfl, -⟩ := read_ok hread
        cases hback
        cases h₂
        simpa using Onward.refl lex
      · split at h₁
        · exact (onward_read hread).trans (ih h₁)
        · cases h₁
          exact onward_read hread

theorem onward_readDec {neg : Nat} (h : readDec neg lex = .ok (tok, lex')) : Onward lex lex' := by
  obtain ⟨x, lex₁, hget, h₁⟩ := stateT_bind_ok_iff.1 h
  obtain ⟨rfl, rfl⟩ := getLex_ok hget
  obtain ⟨r, lex₂, hdigits, h₂⟩ := stateT_bind_ok_iff.1 h₁
  dsimp only at h₂
  split at h₂ <;> cases h₂ <;> exact onward_readDigits hdigits

theorem onward_readHex (h : readHex lex = .ok (tok, lex')) : Onward lex lex' := by
  obtain ⟨ch, lex₁, hmove, h₁⟩ := stateT_bind_ok_iff.1 h
  obtain ⟨x, lex₂, hget, h₂⟩ := stateT_bind_ok_iff.1 h₁
  obtain ⟨rfl, rfl⟩ := getLex_ok hget
  obtain ⟨r, lex₃, hdigits, h₃⟩ := stateT_bind_ok_iff.1 h₂
  cases h₃
  exact (onward_move hmove).trans (onward_readDigits hdigits)

theorem onward_readSymChars {fuel len : Nat} {r : Nat × Bool}
    (h : readSymChars fuel len lex = .ok (r, lex')) : Onward lex lex' := by
  induction fuel generalizing len lex with
  | zero => cases h
  | succ fuel ih =>
      obtain ⟨ch, lex₁, hpeek, h₁⟩ := stateT_bind_ok_iff.1 h
      obtain ⟨rfl, -⟩ := peek_ok hpeek
      split at h₁
      · obtain ⟨ch', lex₂, hmove, h₂⟩ := stateT_bind_ok_iff.1 h₁
        exact (onward_move hmove).trans (ih h₂)
      · cases h₁
        exact .refl _

theorem onward_readSym (h : readSym lex = .ok (tok, lex')) : Onward lex lex' := by
  obtain ⟨x, lex₁, hget, h₁⟩ := stateT_bind_ok_iff.1 h
  obtain ⟨rfl, rfl⟩ := getLex_ok hget
  obtain ⟨r, lex₂, hchars, h₂⟩ := stateT_bind_ok_iff.1 h₁
  cases h₂
  exact onward_readSymChars hchars

theorem onward_readRawChars {fuel len : Nat} {r : Nat × Bool}
    (h : readRawChars fuel len lex = .ok (r, lex')) : Onward lex lex' := by
  induction fuel generalizing len lex with
  | zero => cases h
  | succ fuel ih =>
      obtain ⟨ch, lex₁, hpeek, h₁⟩ := stateT_bind_ok_iff.1 h
      obtain ⟨rfl, -⟩ := peek_ok hpeek
      split at h₁
      · cases h₁
        exact .refl _
      · split at h₁
        · obtain ⟨ch', lex₂, hmove, h₂⟩ := stateT_bind_ok_iff.1 h₁
          obtain ⟨ch'', lex₃, hmove', h₃⟩ := stateT_bind_ok_iff.1 h₂
          exact ((onward_move hmove).trans (onward_move hmove')).trans (ih h₃)
        · split at h₁
          · cases h₁
            exact .refl _
          · obtain ⟨ch', lex₂, hmove, h₂⟩ := stateT_bind_ok_iff.1 h₁
            exact (onward_move hmove).trans (ih h₂)

theorem onward_readRaw (h : readRaw lex = .ok (tok, lex')) : Onward lex lex' := by
  obtain ⟨ch, lex₁, hmove, h₁⟩ := stateT_bind_ok_iff.1 h
  obtain ⟨x, lex₂, hget, h₂⟩ := stateT_bind_ok_iff.1 h₁
  obtain ⟨rfl, rfl⟩ := getLex_ok hget
  obtain ⟨r, lex₃, hchars, h₃⟩ := stateT_bind_ok_iff.1 h₂
  have hon := (onward_move hmove).trans (onward_readRawChars hchars)
  dsimp only at h₃
  split at h₃
  · obtain ⟨ch', lex₄, hmove', h₄⟩ := stateT_bind_ok_iff.1 h₃
    cases h₄
    exact hon.trans (onward_move hmove')
  · cases h₃
    exact hon

theorem getElem?_of_charAt {c : UInt8} {i : Nat} (h : lex.charAt i = .ok c) (hc : c ≠ 0) :
    lex.buf[i]? = some c := by
  unfold charAt at h
  split at h
  next hlt =>
    have heq : lex.buf.getD i 0 = c := Except.ok.inj h
    rw [← heq, List.getElem?_eq_getElem hlt]
    simp [hlt]
  next =>
    split at h
    · exact absurd (Except.ok.inj h).symm hc
    · cases h

/-- The text is the same, and the column still counts from the beginning of a line. -/
def Lined (lex lex' : Lex) : Prop := lex'.buf = lex.buf ∧ (Column lex → Column lex')

theorem Onward.lined (h : Onward lex lex') : Lined lex lex' := ⟨h.buf, h.keeps⟩

theorem Lined.trans (h : Lined lex lex') (h' : Lined lex' lex'') : Lined lex lex'' :=
  ⟨h'.1.trans h.1, fun hcolumn => h'.2 (h.2 hcolumn)⟩

/-- Behind a line break the column is zero. -/
theorem lined_newline (h : Onward lex lex') (hbreak : lex.buf[lex.off]? = some 10)
    (hoff : lex'.off = lex.off + 1) (iLine : Nat) :
    Lined lex { lex' with iLine := iLine, iColumn := 0 } := by
  refine ⟨h.buf, fun _ => ⟨lex'.off, ?_, le_rfl, by simp⟩⟩
  intro j hj
  obtain rfl : j = lex.off := by omega
  change lex'.buf[lex.off]? = some 10
  rw [h.buf]
  exact hbreak

theorem lined_skipLine {fuel : Nat} {u : Unit} (h : skipLine fuel lex = .ok (u, lex')) :
    Lined lex lex' := by
  induction fuel generalizing lex with
  | zero => cases h
  | succ fuel ih =>
      obtain ⟨ch, lex₁, hread, h₁⟩ := stateT_bind_ok_iff.1 h
      have hon := onward_read hread
      split at h₁
      · exact hon.lined.trans (ih h₁)
      next hten =>
        obtain ⟨rfl, c, hchar, rfl⟩ := read_ok hread
        obtain rfl : c = 10 := (asInt_inj (d := 10) (by decide)).1 (not_not.1 hten)
        cases h₁
        exact lined_newline hon (getElem?_of_charAt hchar (by decide)) rfl _

/-- What `x` does to the text and the column when it is called in `lex`. -/
def LinesAt (lex : Lex) (x : LexM α) : Prop := ∀ a lex', x lex = .ok (a, lex') → Lined lex lex'

theorem LinesAt.ite {c : Prop} [Decidable c] {y z : LexM α} (hy : c → LinesAt lex y)
    (hz : ¬ c → LinesAt lex z) : LinesAt lex (if c then y else z) := by
  by_cases hc : c
  · rw [if_pos hc]
    exact hy hc
  · rw [if_neg hc]
    exact hz hc

theorem LinesAt.bind {x : LexM α} {f : α → LexM β}
    (hx : ∀ a lex', x lex = .ok (a, lex') → Lined lex lex' ∧ LinesAt lex' (f a)) :
    LinesAt lex (x >>= f) := by
  intro b lex'' h
  obtain ⟨a, lex', hrun, hrest⟩ := stateT_bind_ok_iff.1 h
  obtain ⟨hlined, hf⟩ := hx a lex' hrun
  exact hlined.trans (hf b lex'' hrest)

theorem LinesAt.pure (a : α) : LinesAt lex (pure a) := by
  intro b lex' h
  cases h
  exact (Onward.refl lex).lined

theorem LinesAt.of_onward {x : LexM α} (hx : ∀ a lex', x lex = .ok (a, lex') → Onward lex lex') :
    LinesAt lex x :=
  fun a lex' h => (hx a lex' h).lined

/-- A character is moved over, and the rest looks where the lexer stands then. -/
theorem LinesAt.move {f : Int → LexM α}
    (hf : ∀ ch lex', Lex.move lex = .ok (ch, lex') → LinesAt lex' (f ch)) :
    LinesAt lex (Lex.move >>= f) :=
  .bind fun ch lex' h => ⟨(onward_move h).lined, hf ch lex' h⟩

/-- One character has been moved over and is taken back. -/
theorem linesAt_back {ch : Int} {c : UInt8} {y : LexM α} (hchar : lex.charAt lex.off = .ok c)
    (hc : c ≠ 0) (hmove : Lex.move lex = .ok (ch, lex')) (hy : LinesAt lex y) :
    ∀ a lex'', (do back; y : LexM α) lex' = .ok (a, lex'') → Lined lex lex'' := by
  intro a lex'' h
  obtain ⟨u, lex₁, hback, hrest⟩ := stateT_bind_ok_iff.1 h
  obtain rfl := move_back_ok hchar hc hmove hback
  exact hy a lex'' hrest

theorem linesAt_minus {c : UInt8} (hchar : lex.charAt lex.off = .ok c) (hc : c ≠ 0) :
    LinesAt lex (do
      let _ ← Lex.move
      if isdigit (← peek) then readDec 1
      else if (← peek) = 62 then
        let lex ← get
        let _ ← Lex.move
        return lex.ytoken .DICT (lex.off - 2) 2
      else
        back
        tokenC) := by
  intro tok lex' h
  obtain ⟨ch, lex₁, hmove, h₁⟩ := stateT_bind_ok_iff.1 h
  obtain ⟨ch₁, lex₂, hpeek, h₂⟩ := stateT_bind_ok_iff.1 h₁
  obtain ⟨rfl, -⟩ := peek_ok hpeek
  split at h₂
  · exact (onward_move hmove).lined.trans (onward_readDec h₂).lined
  · obtain ⟨ch₂, lex₃, hpeek', h₃⟩ := stateT_bind_ok_iff.1 h₂
    obtain ⟨rfl, -⟩ := peek_ok hpeek'
    split at h₃
    · obtain ⟨x, lex₄, hget, h₄⟩ := stateT_bind_ok_iff.1 h₃
      obtain ⟨rfl, rfl⟩ := getLex_ok hget
      obtain ⟨ch₃, lex₅, hmove', h₅⟩ := stateT_bind_ok_iff.1 h₄
      cases h₅
      exact ((onward_move hmove).trans (onward_move hmove')).lined
    · exact linesAt_back hchar hc hmove (.of_onward fun _ _ => onward_tokenC) _ _ h₃

theorem linesAt_nextLoop (fuel : Nat) : LinesAt lex (nextLoop fuel) := by
  induction fuel generalizing lex with
  | zero => exact fun _ _ h => nomatch h
  | succ fuel ih =>
      refine .bind fun x lex₁ hget => ?_
      obtain ⟨rfl, rfl⟩ := getLex_ok hget
      refine ⟨(Onward.refl _).lined, .bind fun ch lex₂ hpeek => ?_⟩
      obtain ⟨rfl, c, hchar, rfl⟩ := peek_ok hpeek
      refine ⟨(Onward.refl _).lined, .ite (fun _ => .of_onward fun _ _ => onward_tokenC) fun hstop => ?_⟩
      have hc : c ≠ 0 := by
        rintro rfl
        exact hstop rfl
      have htokenL : ∀ m tk, LinesAt lex₂ (tokenL m tk) := fun m tk =>
        .of_onward fun _ _ => onward_tokenL hchar hc
      have htokenCmp : ∀ twice withEq doubled, LinesAt lex₂ (tokenCmp twice withEq doubled) :=
        fun twice withEq doubled => .of_onward fun _ _ => onward_tokenCmp hchar hc
      have hskip : LinesAt lex₂ (do
          skipLine (lex₂.buf.length + 1)
          nextLoop fuel) := .bind fun _ _ hskip => ⟨lined_skipLine hskip, ih⟩
      refine .ite (fun _ => htokenCmp _ _ _) fun _ => .ite (fun _ => htokenCmp _ _ _) fun _ => ?_
      refine .ite (fun _ => htokenL _ _) fun _ => .ite (fun _ => htokenL _ _) fun _ => ?_
      refine .ite (fun _ => htokenL _ _) fun _ => .ite (fun _ => htokenL _ _) fun _ => ?_
      refine .ite (fun _ => .of_onward fun _ _ => onward_readSym) fun _ => ?_
      refine .ite (fun _ => .of_onward fun _ _ => onward_readRaw) fun _ => ?_
      refine .ite (fun _ => linesAt_minus hchar hc) fun _ => .ite (fun _ => ?_) fun _ => ?_
      · -- a comment, or the character `/`
        intro tok lex' h
        obtain ⟨ch, lex₁, hmove, h₁⟩ := stateT_bind_ok_iff.1 h
        split at h₁
        · obtain ⟨u, lex₃, hskip, h₂⟩ := stateT_bind_ok_iff.1 h₁
          exact ((onward_move hmove).lined.trans (lined_skipLine hskip)).trans (ih _ _ h₂)
        · exact linesAt_back hchar hc hmove (.of_onward fun _ _ => onward_tokenC) _ _ h₁
      refine .ite (fun _ => hskip) fun _ => .ite (fun _ => ?_) fun _ => .ite (fun _ => ?_) fun _ => ?_
      · refine .move fun ch lex' hmove => .ite (fun _ => .pure _) fun _ => ?_
        exact .move fun _ _ _ => .pure _
      · intro tok lex' h
        obtain ⟨ch, lex₁, hmove, h₁⟩ := stateT_bind_ok_iff.1 h
        split at h₁
        · exact (onward_move hmove).lined.trans (onward_readHex h₁).lined
        · exact linesAt_back hchar hc hmove (.of_onward fun _ _ => onward_readDec) _ _ h₁
      refine .ite (fun hten => ?_) fun _ => .ite (fun _ => ?_) fun _ => ?_
      · intro tok lex' h
        obtain ⟨ch, lex₁, hmove, h₁⟩ := stateT_bind_ok_iff.1 h
        obtain ⟨u, lex₃, hmodify, h₂⟩ := stateT_bind_ok_iff.1 h₁
        obtain rfl : c = 10 := (asInt_inj (d := 10) (by decide)).1 hten
        cases hmodify
        have hon := onward_move hmove
        rcases move_ok hmove with ⟨-, hzero⟩ | rfl
        · rw [hchar] at hzero
          cases hzero
        · exact (lined_newline hon (getElem?_of_charAt hchar (by decide)) rfl _).trans (ih _ _ h₂)
      · exact .bind fun _ _ hread => ⟨(onward_read hread).lined, ih⟩
      · refine .ite (fun _ => .of_onward fun _ _ => onward_readDec) fun _ => ?_
        exact .ite (fun _ => .of_onward fun _ _ => onward_readSym) fun _ => .pure _

theorem lined_next (h : next lex = .ok (tok, lex')) : Lined lex lex' := by
  obtain ⟨x, lex₁, hget, hloop⟩ := stateT_bind_ok_iff.1 h
  obtain ⟨rfl, rfl⟩ := getLex_ok hget
  exact linesAt_nextLoop _ _ _ hloop

end

/-! ## The bounds -/

section

variable {buf pre post : Bytes} {lex lex' : Lex} {n : Nat}

/-- The states behind every call up to the one that returns `EOS`. -/
def Seen (buf : Bytes) (lex : Lex) : Prop :=
  lex = init buf ∨ ∃ lex₀ tok, Reached buf lex₀ ∧ next lex₀ = .ok (tok, lex)

theorem column_init (buf : Bytes) : Column (init buf) :=
  ⟨0, nofun, le_rfl, rfl⟩

theorem Reached.lined (h : Reached buf lex) : lex.buf = buf ∧ Column lex := by
  induction h with
  | init => exact ⟨rfl, column_init buf⟩
  | call _ hnext _ ih =>
      obtain ⟨hbuf, hcolumn⟩ := lined_next hnext
      exact ⟨hbuf.trans ih.1, hcolumn ih.2⟩

theorem Seen.lined (h : Seen buf lex) : lex.buf = buf ∧ Column lex := by
  rcases h with rfl | ⟨lex₀, tok, hreached, hnext⟩
  · exact ⟨rfl, column_init buf⟩
  · obtain ⟨hbuf, hcolumn⟩ := lined_next hnext
    exact ⟨hbuf.trans hreached.lined.1, hcolumn hreached.lined.2⟩

/-- The bytes from the cursor to the end of its line. -/
def restOfLine (lex : Lex) : Nat := ((lex.buf.drop lex.off).takeWhile (· ≠ 10)).length

theorem charAt_length (hbuf : lex.buf = pre ++ post) :
    lex.charAt pre.length = .ok (post.headD 0) := by
  have hat : At pre post { lex with off := pre.length } := ⟨hbuf, rfl⟩
  exact charAt_off hat

theorem lineEnd_at {fuel : Nat} (hbuf : lex.buf = pre ++ post) (hzero : 0 ∉ post)
    (hfuel : post.length < fuel) : lex.lineEnd fuel pre.length =
      .ok (pre.length + (post.takeWhile (· ≠ 10)).length) := by
  induction post generalizing pre fuel with
  | nil =>
      obtain ⟨fuel, rfl⟩ := Nat.exists_eq_add_of_lt hfuel
      have hchar : lex.charAt pre.length = .ok 0 := charAt_length hbuf
      rw [lineEnd, except_bind_of_ok hchar]
      rfl
  | cons c post ih =>
      obtain ⟨fuel, rfl⟩ : ∃ k, fuel = k + 1 := ⟨fuel - 1, by simp at hfuel; omega⟩
      have hchar : lex.charAt pre.length = .ok c := charAt_length hbuf
      obtain ⟨hc, hzero⟩ := List.ne_and_not_mem_of_not_mem_cons hzero
      rw [lineEnd, except_bind_of_ok hchar]
      by_cases hten : c = 10
      · subst hten
        rfl
      · have hgo : ¬ (c = 10 ∨ c = 0) := by
          rintro (h | h)
          · exact hten h
          · exact hc h.symm
        have hbuf' : lex.buf = pre ++ [c] ++ post := by simpa using hbuf
        have hstep := ih hbuf' hzero (Nat.lt_of_succ_lt_succ hfuel)
        rw [List.length_append, List.length_singleton] at hstep
        rw [if_neg hgo, hstep, List.takeWhile_cons_of_pos (by simpa using hten), List.length_cons]
        congr 1
        omega

/-- Behind the text there is nothing to be read. -/
theorem lineEnd_behind {i : Nat} (hi : lex.buf.length < i) (fuel : Nat) :
    lex.lineEnd (fuel + 1) i = .error (.bounds "lex->buf") := by
  have hchar : lex.charAt i = .error (.bounds "lex->buf") := by
    rw [charAt, if_neg (by omega), if_neg (by omega)]
    rfl
  rw [lineEnd, hchar]
  rfl

theorem lineEnd_off (hzero : 0 ∉ lex.buf) (hoff : lex.off ≤ lex.buf.length) :
    lex.lineEnd (lex.buf.length + 1) lex.off = .ok (lex.off + restOfLine lex) := by
  have hpre : (lex.buf.take lex.off).length = lex.off := List.length_take_of_le hoff
  have hbuf : lex.buf = lex.buf.take lex.off ++ lex.buf.drop lex.off :=
    (List.take_append_drop _ _).symm
  have hfuel : (lex.buf.drop lex.off).length < lex.buf.length + 1 := by
    rw [List.length_drop]
    omega
  have hend := lineEnd_at hbuf (fun hmem => hzero (List.mem_of_mem_drop hmem)) hfuel
  rwa [hpre] at hend

/-- With the column at a beginning of a line, `lex_line` fails only behind the text and
for a line that fills the buffer. -/
theorem line_eq {start : Nat} (hzero : 0 ∉ lex.buf) (hpos : 0 ≤ lex.iColumn)
    (hstart : (lex.off : Int) = start + lex.iColumn) (hoff : lex.off ≤ lex.buf.length) (n : Nat) :
    lex.line n = if n ≤ lex.off + restOfLine lex - start then .error (.bounds "buf")
      else .ok ⟨start, lex.off + restOfLine lex,
        lex.slice start (lex.off + restOfLine lex - start) ++ [0]⟩ := by
  have hline : (lex.off : Int) - lex.iColumn = start := by omega
  unfold line
  rw [if_neg (Int.not_lt.2 hpos), hline]
  change (lex.lineEnd (lex.buf.length + 1) lex.off >>= _) = _
  rw [except_bind_of_ok (lineEnd_off hzero hoff), if_neg (Int.not_lt.2 (Int.natCast_nonneg start)),
    Int.toNat_natCast]
  by_cases hfull : n ≤ lex.off + restOfLine lex - start
  · rw [if_pos hfull, if_pos (by omega)]
    rfl
  · rw [if_neg hfull, if_neg (by omega), Nat.min_eq_left (by omega)]
    rfl

/-- In every state the lexer comes to, `lex_line` keeps the bounds exactly when the end of
the text has not been passed and the line is shorter than the buffer. -/
theorem line_inBounds_iff (hbuf : 0 ∉ buf) (hseen : Seen buf lex) (n : Nat) :
    InBounds lex n ↔ lex.off ≤ lex.buf.length ∧ lex.iColumn + restOfLine lex < n := by
  obtain ⟨rfl, start, hstart, hpos, hoff⟩ := hseen.lined
  constructor
  · rintro ⟨found, hline, -⟩
    have hle : lex.off ≤ lex.buf.length := by
      by_contra hgt
      unfold line at hline
      rw [if_neg (Int.not_lt.2 hpos), lineEnd_behind (Nat.not_le.1 hgt)] at hline
      cases hline
    refine ⟨hle, ?_⟩
    rw [line_eq hbuf hpos hoff hle] at hline
    split at hline
    · cases hline
    · omega
  · rintro ⟨hle, hshort⟩
    have hrest : restOfLine lex ≤ lex.buf.length - lex.off := by
      have hsub := (List.takeWhile_sublist (fun c : UInt8 => decide (c ≠ 10))
        (l := lex.buf.drop lex.off)).length_le
      rwa [List.length_drop] at hsub
    have hfound := line_eq hbuf hpos hoff hle n
    rw [if_neg (by omega)] at hfound
    refine ⟨_, hfound, hstart, ?_, ?_, ?_⟩
    · dsimp only
      omega
    · dsimp only
      omega
    · have hslice : (lex.slice start (lex.off + restOfLine lex - start)).length ≤
          lex.off + restOfLine lex - start := by
        unfold slice
        rw [List.length_take]
        omega
      rw [List.length_append, List.length_singleton]
      omega

/-- The call for the first word of a text. -/
theorem line_inBounds_word : InBounds ⟨lit "a b", 1, 1, 1⟩ 4 := by
  have hseen : Seen (lit "a b") ⟨lit "a b", 1, 1, 1⟩ := .inr ⟨init (lit "a b"), _, .init, rfl⟩
  exact (line_inBounds_iff (by decide) hseen 4).2 ⟨by decide, by decide⟩

/-- Behind the end of a text the byte behind the NUL is read, and a line that fills the
buffer has its NUL written behind it. -/
theorem line_out_of_bounds :
    (Seen (lit "a") ⟨lit "a", 2, 1, 2⟩ ∧ ¬ InBounds ⟨lit "a", 2, 1, 2⟩ 1024) ∧
      Seen (lit "ab") (init (lit "ab")) ∧ ¬ InBounds (init (lit "ab")) 2 := by
  have hword : next (init (lit "a")) = .ok (⟨.SYMBOL, 0, 1, lit "a"⟩, ⟨lit "a", 1, 1, 1⟩) := rfl
  have hend : Seen (lit "a") ⟨lit "a", 2, 1, 2⟩ :=
    .inr ⟨⟨lit "a", 1, 1, 1⟩, _, .call .init hword nofun, rfl⟩
  refine ⟨⟨hend, ?_⟩, .inl rfl, ?_⟩
  · rintro ⟨found, hline, -⟩
    cases hline
  · rintro ⟨found, hline, -⟩
    cases hline

end

end Lex

end Ymd
