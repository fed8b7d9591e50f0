import Ymd.Code.Numerals

/-! # Escapes in string literals

`stresc` with the pointer into its text and the buffer it fills, and what it is
for: a text is a sequence of characters and escapes, and each of them stands for
one or two bytes.
-/

namespace Ymd

/-! ## The scanner -/

/-- `*i`: the text ends with a NUL, and behind that nothing may be read. -/
def textAt (s : Bytes) (i : Nat) : Except Fault UInt8 :=
  if i < s.length then pure (s.getD i 0)
  else if i = s.length then pure 0
  else throw (.bounds "i")

/-- `priv_need` with a chunk of one byte: `realloc`, and zeros in the new part. -/
def privNeed (raw : Bytes) (n align : Nat) : Bytes :=
  if n % align ≠ 0 then raw else raw.take n ++ List.replicate align 0

/-- `priv_add`. -/
def privAdd (priv : Bytes) (n : Nat) (c : UInt8) : Except Fault Bytes :=
  if n < (privNeed priv n 64).length then pure ((privNeed priv n 64).set n c)
  else throw (.bounds "priv")

/-- The reading half of `ESC_BYTE`; `none` where it goes to `error`. -/
def escByteAt (s : Bytes) (i : Nat) : Except Fault (Option (UInt8 × Nat)) := do
  match xtol (← textAt s i) with
  | none => return none
  | some hi =>
      match xtol (← textAt s (i + 1)) with
      | none => return none
      | some lo => return some (UInt8.ofNat (hi.toNat * 16 + lo.toNat), i + 2)

/-- The loop of `stresc` from the position `i` on, with `n` bytes in the buffer;
`none` where it returns -1. -/
def strescScan (s : Bytes) : Nat → (i n : Nat) → (priv : Bytes) →
    Except Fault (Option (Nat × Bytes))
  | 0, _, _, _ => throw .looping
  | fuel + 1, i, n, priv => do
      let c ← textAt s i
      if c = 0 then return some (n, priv)
      else if c = 92 then
        let e ← textAt s (i + 1)
        if e = 120 then
          match ← escByteAt s (i + 2) with
          | none => return none
          | some (b, j) => strescScan s fuel j (n + 1) (← privAdd priv n b)
        else if e = 117 then
          match ← escByteAt s (i + 2) with
          | none => return none
          | some (b, j) =>
              let priv ← privAdd priv n b
              match ← escByteAt s j with
              | none => return none
              | some (b', j) => strescScan s fuel j (n + 2) (← privAdd priv (n + 1) b')
        else
          match escChar e with
          | none => return none
          | some b => strescScan s fuel (i + 2) (n + 1) (← privAdd priv n b)
      else strescScan s fuel (i + 1) (n + 1) (← privAdd priv n c)

/-- `stresc`: the number of bytes and the buffer. -/
def strescAt (s : Bytes) : Except Fault (Option (Nat × Bytes)) :=
  strescScan s (s.length + 1) 0 0 []

/-! ## Characters and escapes -/

/-- The escapes of one character, with what they stand for. -/
def escapes : List (UInt8 × UInt8) :=
  [(97, 7), (98, 8), (102, 12), (110, 10), (114, 13), (116, 9), (118, 11), (48, 0), (92, 92),
    (34, 34)]

/-- Two digits that spell a byte. -/
def SpellsByte (hi lo b : UInt8) : Prop :=
  IsHex hi ∧ IsHex lo ∧ b.toNat = hexDigit hi * 16 + hexDigit lo

/-- A character or an escape, with the bytes it stands for. -/
inductive Piece : Bytes → Bytes → Prop
  | plain {c : UInt8} (hc : c ≠ 92) : Piece [c] [c]
  | char {e b : UInt8} (hmem : (e, b) ∈ escapes) : Piece [92, e] [b]
  | byte {hi lo b : UInt8} (hb : SpellsByte hi lo b) : Piece [92, 120, hi, lo] [b]
  | wide {hi lo hi' lo' b b' : UInt8} (hb : SpellsByte hi lo b) (hb' : SpellsByte hi' lo' b') :
      Piece [92, 117, hi, lo, hi', lo'] [b, b']

/-- The decoding of a text from left to right. -/
inductive Decodes : Bytes → Bytes → Prop
  | nil : Decodes [] []
  | cons {p q s t : Bytes} (hpiece : Piece p q) (hrest : Decodes s t) : Decodes (p ++ s) (q ++ t)

/-- Behind characters and escapes comes a backslash that begins no escape. -/
def Malformed (s : Bytes) : Prop :=
  ∃ front t rest, s = front ++ 92 :: rest ∧ Decodes front t ∧
    ∀ p q, Piece p q → ¬ p <+: 92 :: rest

/-- Each byte of `t` is spelled `\xHH`. -/
inductive HexSpelled : Bytes → Bytes → Prop
  | nil : HexSpelled [] []
  | cons {hi lo b : UInt8} {s t : Bytes} (hb : SpellsByte hi lo b) (hrest : HexSpelled s t) :
      HexSpelled (92 :: 120 :: hi :: lo :: s) (b :: t)

theorem HexSpelled.decodes {s t : Bytes} (h : HexSpelled s t) : Decodes s t := by
  induction h with
  | nil => exact .nil
  | cons hb _ ih => exact .cons (.byte hb) ih

/-! ## Bytes in two digits -/

theorem SpellsByte.eq {hi lo b : UInt8} (h : SpellsByte hi lo b) :
    b = UInt8.ofNat (hexDigit hi * 16 + hexDigit lo) := by
  rw [← h.2.2, UInt8.ofNat_toNat]

theorem spellsByte_ofNat {hi lo : UInt8} (hhi : IsHex hi) (hlo : IsHex lo) :
    SpellsByte hi lo (UInt8.ofNat (hexDigit hi * 16 + hexDigit lo)) := by
  have hhigh := hexDigit_lt hhi
  have hlow := hexDigit_lt hlo
  refine ⟨hhi, hlo, UInt8.toNat_ofNat_of_lt' ?_⟩
  calc hexDigit hi * 16 + hexDigit lo < 256 := by omega
    _ = UInt8.size := rfl

theorem toNat_hexDigit {c : UInt8} (hc : IsHex c) :
    (BitVec.ofNat 64 (hexDigit c)).toNat = hexDigit c := by
  have hlt := hexDigit_lt hc
  rw [BitVec.toNat_ofNat, Nat.mod_eq_of_lt (by omega)]

theorem not_isHex_zero : ¬ IsHex 0 := by
  unfold IsHex
  decide

section

variable {s pre front rest priv p q t : Bytes} {fuel : Nat}

theorem textAt_append {k : Nat} (hk : k ≤ rest.length) :
    textAt (pre ++ rest) (pre.length + k) = .ok (rest.getD k 0) := by
  unfold textAt
  rw [List.length_append]
  by_cases hlt : k < rest.length
  · rw [if_pos (by omega), List.getD_append_right _ _ _ _ (Nat.le_add_right _ _),
      Nat.add_sub_cancel_left]
    rfl
  · have heq : k = rest.length := by omega
    rw [if_neg (by omega), if_pos (by omega), heq, List.getD_eq_default _ _ (Nat.le_refl _)]
    rfl

/-- Two digits are read, or nothing behind the NUL is. -/
theorem escByteAt_append (pre rest : Bytes) :
    (∃ hi lo b r, rest = hi :: lo :: r ∧ SpellsByte hi lo b ∧
      escByteAt (pre ++ rest) pre.length = .ok (some (b, pre.length + 2))) ∨
    (∀ hi lo b r, rest = hi :: lo :: r → ¬ SpellsByte hi lo b) ∧
      escByteAt (pre ++ rest) pre.length = .ok none := by
  have hfirst : textAt (pre ++ rest) pre.length = .ok (rest.getD 0 0) :=
    textAt_append (Nat.zero_le _)
  unfold escByteAt
  rw [hfirst]
  by_cases hhi : IsHex (rest.getD 0 0)
  · cases rest with
    | nil => exact absurd hhi not_isHex_zero
    | cons hi rest =>
        have hsecond : textAt (pre ++ hi :: rest) (pre.length + 1) = .ok (rest.getD 0 0) :=
          textAt_append (Nat.succ_pos _)
        rw [List.getD_cons_zero] at hhi ⊢
        by_cases hlo : IsHex (rest.getD 0 0)
        · cases rest with
          | nil => exact absurd hlo not_isHex_zero
          | cons lo rest =>
              rw [List.getD_cons_zero] at hlo hsecond
              refine .inl ⟨hi, lo, _, rest, rfl, spellsByte_ofNat hhi hlo, ?_⟩
              simp only [bind, Except.bind, pure, Except.pure, xtol_eq hhi, hsecond, xtol_eq hlo,
                toNat_hexDigit hhi, toNat_hexDigit hlo]
        · refine .inr ⟨?_, ?_⟩
          · rintro hi' lo b r heq ⟨-, hlo', -⟩
            cases heq
            exact hlo hlo'
          · simp only [bind, Except.bind, pure, Except.pure, xtol_eq hhi, hsecond, xtol_none hlo]
  · refine .inr ⟨?_, ?_⟩
    · rintro hi lo b r rfl ⟨hhi', -, -⟩
      exact hhi hhi'
    · simp only [bind, Except.bind, pure, Except.pure, xtol_none hhi]

theorem escByteAt_of_spells {hi lo b : UInt8} (hb : SpellsByte hi lo b) (pre rest : Bytes) :
    escByteAt (pre ++ hi :: lo :: rest) pre.length = .ok (some (b, pre.length + 2)) := by
  rcases escByteAt_append pre (hi :: lo :: rest) with ⟨hi', lo', b', r, heq, hb', hrun⟩ | ⟨hno, -⟩
  · cases heq
    rw [hrun, hb.eq, hb'.eq]
  · exact absurd hb (hno hi lo b rest rfl)

theorem escChar_iff (e b : UInt8) : escChar e = some b ↔ (e, b) ∈ escapes := by
  have hall : ∀ n < 256, escChar (UInt8.ofNat n) =
      (escapes.find? fun entry => entry.1 = UInt8.ofNat n).map Prod.snd := by
    decide +kernel
  have hfind := hall e.toNat e.toNat_lt
  rw [UInt8.ofNat_toNat] at hfind
  have hone : ∀ entry ∈ escapes, ∀ entry' ∈ escapes, entry.1 = entry'.1 → entry = entry' := by
    simp [escapes]
  rw [hfind, Option.map_eq_some_iff]
  constructor
  · rintro ⟨entry, hentry, rfl⟩
    have hfst := List.find?_some hentry
    rw [decide_eq_true_eq] at hfst
    rw [← hfst]
    exact List.mem_of_find?_eq_some hentry
  · intro hmem
    obtain ⟨entry, hentry⟩ := Option.isSome_iff_exists.1
      ((List.find?_isSome (p := fun entry : UInt8 × UInt8 => decide (entry.1 = e))).2
        ⟨(e, b), hmem, decide_eq_true rfl⟩)
    have hfst := List.find?_some hentry
    rw [decide_eq_true_eq] at hfst
    have heq := hone entry (List.mem_of_find?_eq_some hentry) (e, b) hmem hfst
    exact ⟨entry, hentry, by rw [heq]⟩

/-! ## The buffer -/

/-- The buffer begins with the bytes of `t`, and ends less than 64 bytes behind
them, at a multiple of 64. -/
structure Filled (priv t : Bytes) : Prop where
  bytes : priv.take t.length = t
  room : t.length ≤ priv.length
  tight : priv.length < t.length + 64
  aligned : priv.length % 64 = 0

theorem filled_nil : Filled [] [] := ⟨rfl, Nat.le_refl _, by decide, rfl⟩

theorem privAdd_filled (h : Filled priv t) (c : UInt8) :
    ∃ priv', privAdd priv t.length c = .ok priv' ∧ Filled priv' (t ++ [c]) := by
  obtain ⟨hbytes, hroom, htight, haligned⟩ := h
  have hgrown : (privNeed priv t.length 64).take t.length = t ∧
      t.length < (privNeed priv t.length 64).length ∧
        (privNeed priv t.length 64).length ≤ t.length + 64 ∧
          (privNeed priv t.length 64).length % 64 = 0 := by
    unfold privNeed
    split
    next hin => exact ⟨hbytes, by omega, by omega, haligned⟩
    next hfull =>
      rw [hbytes]
      rw [List.length_append, List.length_replicate]
      exact ⟨List.take_left, by omega, Nat.le_refl _, by omega⟩
  obtain ⟨htake, hlt, hle, hmod⟩ := hgrown
  refine ⟨_, if_pos hlt, ?_, ?_, ?_, ?_⟩
  · rw [List.length_append, List.length_singleton, List.take_add_one,
      List.take_set_of_le (Nat.le_refl _),
      htake, List.getElem?_set_self hlt]
    rfl
  · rw [List.length_set, List.length_append, List.length_singleton]
    exact hlt
  · rw [List.length_set, List.length_append, List.length_singleton]
    omega
  · rw [List.length_set]
    exact hmod

/-! ## One round -/

/-- A round of the loop in front of a character or an escape. -/
theorem scan_piece (hs : s = pre ++ (p ++ rest)) (hzero : 0 ∉ s) (hpiece : Piece p q)
    (h : Filled priv t) (fuel : Nat) : ∃ priv', Filled priv' (t ++ q) ∧
      strescScan s (fuel + 1) pre.length t.length priv
        = strescScan s fuel (pre ++ p).length (t ++ q).length priv' := by
  have hfirst : ∀ {c : UInt8} {r : Bytes}, p ++ rest = c :: r → textAt s pre.length = .ok c := by
    intro c r heq
    rw [hs, heq]
    exact textAt_append (k := 0) (Nat.zero_le _)
  have hsecond : ∀ {c d : UInt8} {r : Bytes}, p ++ rest = c :: d :: r →
      textAt s (pre.length + 1) = .ok d := by
    intro c d r heq
    rw [hs, heq]
    exact textAt_append (k := 1) (Nat.succ_le_succ (Nat.zero_le _))
  cases hpiece with
  | @plain c hc =>
      have hne : c ≠ 0 := by
        rintro rfl
        apply hzero
        rw [hs]
        simp
      obtain ⟨priv', hadd, hfilled⟩ := privAdd_filled h c
      refine ⟨priv', hfilled, ?_⟩
      rw [strescScan, hfirst rfl]
      simp only [bind, Except.bind, if_neg hne, if_neg hc, hadd, List.length_append,
        List.length_singleton]
  | @char e b hmem =>
      obtain ⟨priv', hadd, hfilled⟩ := privAdd_filled h b
      refine ⟨priv', hfilled, ?_⟩
      have hsmall : ∀ entry ∈ escapes, entry.1 ≠ 120 ∧ entry.1 ≠ 117 := by simp [escapes]
      obtain ⟨hx, hu⟩ : e ≠ 120 ∧ e ≠ 117 := hsmall (e, b) hmem
      rw [strescScan, hfirst rfl]
      simp only [bind, Except.bind, if_neg (show (92 : UInt8) ≠ 0 by decide), if_true,
        hsecond rfl, if_neg hx, if_neg hu, (escChar_iff e b).2 hmem, hadd, List.length_append,
        List.length_cons, List.length_nil]
  | @byte hi lo b hb =>
      obtain ⟨priv', hadd, hfilled⟩ := privAdd_filled h b
      refine ⟨priv', hfilled, ?_⟩
      have hread := escByteAt_of_spells hb (pre ++ [92, 120]) rest
      rw [show (pre ++ [92, 120]) ++ hi :: lo :: rest = s by rw [hs]; simp,
        List.length_append] at hread
      rw [strescScan, hfirst rfl]
      simp only [bind, Except.bind, if_neg (show (92 : UInt8) ≠ 0 by decide), if_true,
        hsecond rfl, List.length_append, List.length_cons, List.length_nil] at hread ⊢
      rw [hread]
      simp only [hadd]
  -- the byte of the first two digits is added before the others are read
  | @wide hi lo hi' lo' b b' hb hb' =>
      obtain ⟨priv₁, hadd₁, hfilled₁⟩ := privAdd_filled h b
      obtain ⟨priv₂, hadd₂, hfilled₂⟩ := privAdd_filled hfilled₁ b'
      rw [List.length_append, List.length_singleton] at hadd₂
      refine ⟨priv₂, by simpa using hfilled₂, ?_⟩
      have hread₁ := escByteAt_of_spells hb (pre ++ [92, 117]) (hi' :: lo' :: rest)
      have hread₂ := escByteAt_of_spells hb' (pre ++ [92, 117, hi, lo]) rest
      rw [show (pre ++ [92, 117]) ++ hi :: lo :: hi' :: lo' :: rest = s by rw [hs]; simp,
        List.length_append] at hread₁
      rw [show (pre ++ [92, 117, hi, lo]) ++ hi' :: lo' :: rest = s by rw [hs]; simp,
        List.length_append] at hread₂
      rw [strescScan, hfirst rfl]
      simp only [bind, Except.bind, if_neg (show (92 : UInt8) ≠ 0 by decide), if_true,
        if_neg (show (117 : UInt8) ≠ 120 by decide), hsecond rfl, List.length_append,
        List.length_cons, List.length_nil] at hread₁ hread₂ ⊢
      rw [hread₁]
      simp only [hadd₁, hread₂, hadd₂]

/-- A round of the loop in front of a backslash that begins no escape. -/
theorem scan_malformed (hs : s = pre ++ 92 :: rest)
    (hno : ∀ p q, Piece p q → ¬ p <+: 92 :: rest) (h : Filled priv t) (fuel : Nat) :
    strescScan s (fuel + 1) pre.length t.length priv = .ok none := by
  have hfirst : textAt s pre.length = .ok 92 := by
    rw [hs]
    exact textAt_append (k := 0) (Nat.zero_le _)
  have hsecond : textAt s (pre.length + 1) = .ok (rest.getD 0 0) := by
    rw [hs]
    exact textAt_append (k := 1) (Nat.succ_le_succ (Nat.zero_le _))
  rw [strescScan, hfirst]
  simp only [bind, Except.bind, if_neg (show (92 : UInt8) ≠ 0 by decide), if_true, hsecond]
  cases rest with
  | nil => rfl
  | cons e rest =>
      rw [List.getD_cons_zero]
      have hlen : (pre ++ [92, e]).length = pre.length + 2 := by simp
      have hsplit : s = (pre ++ [92, e]) ++ rest := by rw [hs]; simp
      by_cases hx : e = 120
      · rw [if_pos hx]
        rcases escByteAt_append (pre ++ [92, e]) rest with ⟨hi, lo, b, r, rfl, hb, -⟩ | ⟨-, hrun⟩
        · subst hx
          exact absurd ⟨r, rfl⟩ (hno _ _ (.byte hb))
        · rw [← hsplit, hlen] at hrun
          rw [hrun]
          rfl
      · rw [if_neg hx]
        by_cases hu : e = 117
        · rw [if_pos hu]
          rcases escByteAt_append (pre ++ [92, e]) rest with
            ⟨hi, lo, b, r, rfl, hb, hrun⟩ | ⟨-, hrun⟩
          · rw [← hsplit, hlen] at hrun
            obtain ⟨priv', hadd, -⟩ := privAdd_filled h b
            rw [hrun]
            simp only [hadd]
            rcases escByteAt_append (pre ++ [92, e, hi, lo]) r with
              ⟨hi', lo', b', r', rfl, hb', -⟩ | ⟨-, hrun'⟩
            · subst hu
              exact absurd ⟨r', rfl⟩ (hno _ _ (.wide hb hb'))
            · rw [show (pre ++ [92, e, hi, lo]) ++ r = s by rw [hs]; simp,
                show (pre ++ [92, e, hi, lo]).length = pre.length + 2 + 2 by simp] at hrun'
              rw [hrun']
              rfl
          · rw [← hsplit, hlen] at hrun
            rw [hrun]
            rfl
        · rw [if_neg hu]
          cases hchar : escChar e with
          | none => rfl
          | some b => exact absurd ⟨rest, rfl⟩ (hno _ _ (.char ((escChar_iff e b).1 hchar)))

/-! ## The whole text -/

theorem Piece.length_pos (hpiece : Piece p q) : 0 < p.length := by
  cases hpiece <;> exact Nat.succ_pos _

theorem scan_decodes (pre rest : Bytes) {fuel : Nat} (hs : s = pre ++ (front ++ rest))
    (hzero : 0 ∉ s) (hfront : Decodes front q) (h : Filled priv t) (hfuel : front.length < fuel) :
    ∃ fuel' priv', Filled priv' (t ++ q) ∧
      strescScan s fuel pre.length t.length priv
        = strescScan s (fuel' + 1) (pre ++ front).length (t ++ q).length priv' := by
  induction hfront generalizing pre priv t fuel with
  | nil =>
      obtain ⟨fuel, rfl⟩ : ∃ n, fuel = n + 1 := ⟨fuel - 1, by omega⟩
      exact ⟨fuel, priv, by rwa [List.append_nil], by rw [List.append_nil, List.append_nil]⟩
  | @cons p q front' t' hpiece _ ih =>
      have hpos := hpiece.length_pos
      rw [List.length_append] at hfuel
      obtain ⟨fuel, rfl⟩ : ∃ n, fuel = n + 1 := ⟨fuel - 1, by omega⟩
      rw [List.append_assoc] at hs
      obtain ⟨priv₁, hfilled₁, hrun₁⟩ := scan_piece hs hzero hpiece h fuel
      obtain ⟨fuel', priv₂, hfilled₂, hrun₂⟩ := ih (pre ++ p) (by rw [hs]; simp) hfilled₁
        (show front'.length < fuel by omega)
      refine ⟨fuel', priv₂, by rwa [← List.append_assoc], ?_⟩
      rw [hrun₁, hrun₂, List.append_assoc, List.append_assoc]

theorem strescAt_decodes (hzero : 0 ∉ s) (h : Decodes s t) :
    ∃ priv, strescAt s = .ok (some (t.length, priv)) ∧ priv.take t.length = t := by
  obtain ⟨fuel, priv, hfilled, hrun⟩ := scan_decodes [] []
    (List.append_nil s).symm hzero h filled_nil (Nat.lt_succ_self _)
  refine ⟨priv, ?_, hfilled.bytes⟩
  have hend : textAt s ([] ++ s).length = .ok 0 := by
    unfold textAt
    rw [List.nil_append, if_neg (Nat.lt_irrefl _), if_pos rfl]
    rfl
  rw [strescAt]
  refine hrun.trans ?_
  rw [strescScan, hend]
  rfl

theorem strescAt_malformed (hzero : 0 ∉ s) (h : Malformed s) : strescAt s = .ok none := by
  obtain ⟨front, t, rest, rfl, hfront, hno⟩ := h
  have hfuel : front.length < (front ++ 92 :: rest).length + 1 := by
    rw [List.length_append]
    omega
  obtain ⟨fuel, priv, hfilled, hrun⟩ := scan_decodes [] (92 :: rest) rfl hzero hfront
    filled_nil hfuel
  rw [strescAt]
  exact hrun.trans (scan_malformed rfl hno hfilled fuel)

/-- Every text is decoded or malformed. -/
theorem decodes_or_malformed (s : Bytes) : (∃ t, Decodes s t) ∨ Malformed s := by
  induction hn : s.length using Nat.strong_induction_on generalizing s with
  | _ n ih =>
    have hstep : ∀ {p q rest : Bytes}, Piece p q → s = p ++ rest →
        (∃ t, Decodes s t) ∨ Malformed s := by
      rintro p q rest hpiece rfl
      have hpos := hpiece.length_pos
      rw [List.length_append] at hn
      rcases ih rest.length (by omega) rest rfl with ⟨t, ht⟩ | ⟨front, t, r, rfl, hfront, hno⟩
      · exact .inl ⟨q ++ t, .cons hpiece ht⟩
      · exact .inr ⟨p ++ front, q ++ t, r, (List.append_assoc _ _ _).symm, .cons hpiece hfront, hno⟩
    cases s with
    | nil => exact .inl ⟨[], .nil⟩
    | cons c rest =>
        by_cases hc : c = 92
        · subst hc
          by_cases hescape : ∃ p q, Piece p q ∧ p <+: 92 :: rest
          · obtain ⟨p, q, hpiece, r, hr⟩ := hescape
            exact hstep hpiece hr.symm
          · exact .inr ⟨[], [], rest, rfl, .nil, fun p q hpiece hprefix =>
              hescape ⟨p, q, hpiece, hprefix⟩⟩
        · exact hstep (.plain hc) (show c :: rest = [c] ++ rest by rfl)

theorem strescAt_eq_none_iff (hzero : 0 ∉ s) : strescAt s = .ok none ↔ Malformed s := by
  refine ⟨fun h => ?_, strescAt_malformed hzero⟩
  rcases decodes_or_malformed s with ⟨t, ht⟩ | hmalformed
  · obtain ⟨priv, hrun, -⟩ := strescAt_decodes hzero ht
    rw [h] at hrun
    cases hrun
  · exact hmalformed

theorem decodes_iff (hzero : 0 ∉ s) (t : Bytes) : Decodes s t ↔
    ∃ priv, strescAt s = .ok (some (t.length, priv)) ∧ priv.take t.length = t := by
  refine ⟨strescAt_decodes hzero, ?_⟩
  rintro ⟨priv, hrun, hbytes⟩
  rcases decodes_or_malformed s with ⟨t', ht'⟩ | hmalformed
  · obtain ⟨priv', hrun', hbytes'⟩ := strescAt_decodes hzero ht'
    rw [hrun, Except.ok.injEq, Option.some.injEq, Prod.mk.injEq] at hrun'
    obtain ⟨hlen, rfl⟩ := hrun'
    rw [← hlen, hbytes] at hbytes'
    rwa [hbytes']
  · rw [strescAt_malformed hzero hmalformed] at hrun
    cases hrun

theorem HexSpelled.zero_notMem (h : HexSpelled s t) : 0 ∉ s := by
  induction h with
  | nil => exact List.not_mem_nil
  | cons hb _ ih =>
      have hhi : _ ≠ (0 : UInt8) := fun h => not_isHex_zero (h ▸ hb.1)
      have hlo : _ ≠ (0 : UInt8) := fun h => not_isHex_zero (h ▸ hb.2.1)
      simp [ih, hhi.symm, hlo.symm]

/-- Nothing is read behind the NUL, and the text is malformed or the buffer holds
what it stands for. -/
theorem stresc_spec (hzero : 0 ∉ s) :
    (∃ r, strescAt s = .ok r) ∧ (strescAt s = .ok none ↔ Malformed s) ∧
      (∀ t, Decodes s t ↔
        ∃ priv, strescAt s = .ok (some (t.length, priv)) ∧ priv.take t.length = t) ∧
      ∀ z t, HexSpelled z t →
        ∃ priv, strescAt z = .ok (some (t.length, priv)) ∧ priv.take t.length = t := by
  refine ⟨?_, strescAt_eq_none_iff hzero, decodes_iff hzero, ?_⟩
  · rcases decodes_or_malformed s with ⟨t, ht⟩ | hmalformed
    · obtain ⟨priv, hrun, -⟩ := strescAt_decodes hzero ht
      exact ⟨_, hrun⟩
    · exact ⟨_, strescAt_malformed hzero hmalformed⟩
  · intro z t ht
    exact strescAt_decodes ht.zero_notMem ht.decodes

/-! ## The scanner without its buffer -/

theorem escByte_of_spells {hi lo b : UInt8} (hb : SpellsByte hi lo b) (rest : Bytes) :
    escByte (hi :: lo :: rest) = some (b, rest) := by
  rw [escByte, xtol_eq hb.1, xtol_eq hb.2.1]
  simp only [toNat_hexDigit hb.1, toNat_hexDigit hb.2.1, ← hb.eq]

theorem escByte_cases (rest : Bytes) :
    (∃ hi lo b r, rest = hi :: lo :: r ∧ SpellsByte hi lo b ∧ escByte rest = some (b, r)) ∨
      escByte rest = none := by
  match rest with
  | [] => exact .inr rfl
  | [_] => exact .inr rfl
  | hi :: lo :: r =>
      by_cases hhi : IsHex hi
      · by_cases hlo : IsHex lo
        · have hb := spellsByte_ofNat hhi hlo
          exact .inl ⟨hi, lo, _, r, rfl, hb, escByte_of_spells hb r⟩
        · rw [escByte, xtol_eq hhi, xtol_none hlo]
          exact .inr rfl
      · rw [escByte, xtol_none hhi]
        exact .inr rfl

theorem strescLoop_piece (hpiece : Piece p q) (rest : Bytes) (fuel : Nat) :
    strescLoop (fuel + 1) (p ++ rest) = (strescLoop fuel rest).map (q ++ ·) := by
  cases hpiece with
  | @plain c hc =>
      have hrun : strescLoop (fuel + 1) (c :: rest)
          = (strescLoop fuel rest).bind fun t => some (c :: t) := by
        cases rest with
        | nil => simp [strescLoop, hc]
        | cons d rest =>
            rw [strescLoop, if_neg hc]
            rfl
      rw [List.singleton_append, hrun]
      cases strescLoop fuel rest <;> rfl
  | @char e b hmem =>
      have hsmall : ∀ entry ∈ escapes, entry.1 ≠ 120 ∧ entry.1 ≠ 117 := by simp [escapes]
      obtain ⟨hx, hu⟩ : e ≠ 120 ∧ e ≠ 117 := hsmall (e, b) hmem
      rw [List.cons_append, List.singleton_append, strescLoop, if_pos rfl]
      simp only [if_neg hx, if_neg hu, (escChar_iff e b).2 hmem]
      cases strescLoop fuel rest <;> rfl
  | @byte hi lo b hb =>
      rw [List.cons_append, List.cons_append, List.cons_append, List.singleton_append, strescLoop,
        if_pos rfl]
      simp only [if_true, escByte_of_spells hb]
      cases hrest : strescLoop fuel rest <;> simp [hrest]
  | @wide hi lo hi' lo' b b' hb hb' =>
      rw [List.cons_append, List.cons_append, List.cons_append, List.cons_append,
        List.cons_append, List.singleton_append, strescLoop, if_pos rfl]
      simp only [if_neg (show (117 : UInt8) ≠ 120 by decide), if_true, escByte_of_spells hb]
      cases hrest : strescLoop fuel rest <;> simp [escByte_of_spells hb', hrest]

theorem strescLoop_malformed (hno : ∀ p q, Piece p q → ¬ p <+: 92 :: rest) (fuel : Nat) :
    strescLoop (fuel + 1) (92 :: rest) = none := by
  cases rest with
  | nil => rw [strescLoop, if_pos rfl]
  | cons e rest =>
      rw [strescLoop, if_pos rfl]
      by_cases hx : e = 120
      · subst hx
        rcases escByte_cases rest with ⟨hi, lo, b, r, rfl, hb, -⟩ | hnone
        · exact absurd ⟨r, rfl⟩ (hno _ _ (.byte hb))
        · rw [if_pos rfl, hnone]
          rfl
      · rw [if_neg hx]
        by_cases hu : e = 117
        · subst hu
          rw [if_pos rfl]
          rcases escByte_cases rest with ⟨hi, lo, b, r, rfl, hb, hread⟩ | hnone
          · rcases escByte_cases r with ⟨hi', lo', b', r', rfl, hb', -⟩ | hnone
            · exact absurd ⟨r', rfl⟩ (hno _ _ (.wide hb hb'))
            · rw [hread]
              simp [hnone]
          · rw [hnone]
            rfl
        · rw [if_neg hu]
          cases hchar : escChar e with
          | none => rfl
          | some b => exact absurd ⟨rest, rfl⟩ (hno _ _ (.char ((escChar_iff e b).1 hchar)))

theorem strescLoop_decodes (hfront : Decodes front q) (rest : Bytes) {fuel : Nat}
    (hfuel : front.length ≤ fuel) : ∃ fuel', fuel ≤ fuel' + front.length ∧
      strescLoop fuel (front ++ rest) = (strescLoop fuel' rest).map (q ++ ·) := by
  induction hfront generalizing fuel with
  | nil => exact ⟨fuel, Nat.le_refl _, by simp⟩
  | @cons p q front' t' hpiece _ ih =>
      have hpos := hpiece.length_pos
      rw [List.length_append] at hfuel
      obtain ⟨fuel, rfl⟩ : ∃ n, fuel = n + 1 := ⟨fuel - 1, by omega⟩
      obtain ⟨fuel', hle, hrun⟩ := ih (show front'.length ≤ fuel by omega)
      refine ⟨fuel', by rw [List.length_append]; omega, ?_⟩
      rw [List.append_assoc, strescLoop_piece hpiece, hrun, Option.map_map]
      congr 1
      funext t
      exact (List.append_assoc _ _ _).symm

/-- The scanner that the parser's model uses returns the bytes in the buffer. -/
theorem stresc_eq (hzero : 0 ∉ s) :
    ∃ r, strescAt s = .ok r ∧ stresc s = r.map fun (n, priv) => priv.take n := by
  rcases decodes_or_malformed s with ⟨t, ht⟩ | hmalformed
  · obtain ⟨priv, hrun, hbytes⟩ := strescAt_decodes hzero ht
    obtain ⟨fuel, -, hloop⟩ := strescLoop_decodes ht [] (Nat.le_refl _)
    refine ⟨_, hrun, ?_⟩
    rw [List.append_nil] at hloop
    rw [stresc, hloop, strescLoop]
    simp [hbytes]
  · refine ⟨_, strescAt_malformed hzero hmalformed, ?_⟩
    obtain ⟨front, t, rest, rfl, hfront, hno⟩ := hmalformed
    obtain ⟨fuel, hle, hloop⟩ := strescLoop_decodes hfront (92 :: rest)
      (show front.length ≤ (front ++ 92 :: rest).length by simp)
    obtain ⟨fuel, rfl⟩ : ∃ n, fuel = n + 1 := by
      rw [List.length_append, List.length_cons] at hle
      exact ⟨fuel - 1, by omega⟩
    rw [stresc, hloop, strescLoop_malformed hno]
    rfl

end

theorem stresc_spec_wide : ∃ priv, strescAt (lit "\\x41\\u0042") = .ok (some (3, priv)) ∧
    priv.take 3 = [65, 0, 66] := by
  have hA : SpellsByte 52 49 65 := by
    unfold SpellsByte IsHex
    decide
  have hzero : SpellsByte 48 48 0 := by
    unfold SpellsByte IsHex
    decide
  have hB : SpellsByte 52 50 66 := by
    unfold SpellsByte IsHex
    decide
  exact ((stresc_spec (s := lit "\\x41\\u0042") (by decide)).2.2.1 [65, 0, 66]).1
    (.cons (.byte hA) (.cons (.wide hzero hB) .nil))

end Ymd
