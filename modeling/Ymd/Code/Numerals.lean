import Ymd.Code.Literal
import Ymd.Foundation.Numerals
import Ymd.Value.Rendering
import Mathlib.Data.List.GetD

/-! # The value of a literal

The loops of `dtoll` and `xtoll` go over the digits from the last one on. What
they return is the numeral modulo 2^64; for a hexadecimal one as long as its
digits do not come around.
-/

namespace Ymd

open Foundation

/-! ## Digits -/

def IsDec (c : UInt8) : Prop := 48 ≤ c ∧ c ≤ 57

def IsHex (c : UInt8) : Prop := 48 ≤ c ∧ c ≤ 57 ∨ 97 ≤ c ∧ c ≤ 102 ∨ 65 ≤ c ∧ c ≤ 70

def decDigit (c : UInt8) : Nat := c.toNat - 48

def hexDigit (c : UInt8) : Nat :=
  if c ≤ 57 then c.toNat - 48 else if 97 ≤ c then c.toNat - 87 else c.toNat - 55

/-- The number that decimal digits spell. -/
def decValue (ds : Bytes) : Nat := numeral 10 (ds.map decDigit)

/-- The number that hexadecimal digits spell. -/
def hexValue (ds : Bytes) : Nat := numeral 16 (ds.map hexDigit)

theorem dtol_eq {c : UInt8} (hc : IsDec c) : dtol c = some (BitVec.ofNat 64 (decDigit c)) := by
  obtain ⟨hlow, hhigh⟩ := hc
  rw [dtol, if_pos ⟨hlow, hhigh⟩]
  congr 1
  apply BitVec.eq_of_toNat_eq
  rw [UInt8.le_iff_toNat_le] at hlow hhigh
  have h48 : (48 : UInt8).toNat = 48 := rfl
  have hsub : (c - 48).toNat = c.toNat - 48 :=
    UInt8.toNat_sub_of_le _ _ (UInt8.le_iff_toNat_le.2 hlow)
  have hlt := c.toNat_lt
  rw [BitVec.toNat_setWidth, BitVec.toNat_ofNat]
  exact congrArg (· % 2 ^ 64) hsub

theorem dtol_none {c : UInt8} (hc : ¬ IsDec c) : dtol c = none := if_neg hc

theorem hexDigit_lt {c : UInt8} (hc : IsHex c) : hexDigit c < 16 := by
  simp only [IsHex, UInt8.le_iff_toNat_le] at hc
  simp only [hexDigit, UInt8.le_iff_toNat_le]
  simp at hc ⊢
  split_ifs <;> omega

theorem xtol_eq {c : UInt8} (hc : IsHex c) : xtol c = some (BitVec.ofNat 64 (hexDigit c)) := by
  have hnat : ∀ n < 256, IsHex (UInt8.ofNat n) →
      xtol (UInt8.ofNat n) = some (BitVec.ofNat 64 (hexDigit (UInt8.ofNat n))) := by
    unfold IsHex
    decide +kernel
  have hall := hnat c.toNat c.toNat_lt
  rw [UInt8.ofNat_toNat] at hall
  exact hall hc

theorem xtol_none {c : UInt8} (hc : ¬ IsHex c) : xtol c = none := by
  unfold IsHex at hc
  obtain ⟨hdec, hlow, hup⟩ : ¬ (48 ≤ c ∧ c ≤ 57) ∧ ¬ (97 ≤ c ∧ c ≤ 102) ∧ ¬ (65 ≤ c ∧ c ≤ 70) := by
    tauto
  rw [xtol, if_neg hdec, if_neg hlow, if_neg hup]

/-! ## Decimal numbers -/

theorem dtollLoop_eq {ds : Bytes} (hds : ∀ d ∈ ds, IsDec d) (rv pow : YmdInt) :
    dtollLoop ds rv pow
      = some (rv + BitVec.ofNat 64 (Nat.ofDigits 10 (ds.map decDigit)) * pow) := by
  induction ds generalizing rv pow with
  | nil => simp [dtollLoop]
  | cons d ds ih =>
      rw [List.forall_mem_cons] at hds
      rw [dtollLoop, dtol_eq hds.1]
      simp only
      rw [ih hds.2, List.map_cons, Nat.ofDigits_cons, BitVec.ofNat_add, BitVec.ofNat_mul]
      congr 1
      have hten : BitVec.ofNat 64 10 = (10 : YmdInt) := rfl
      rw [hten]
      ring

theorem dtollLoop_none {ds : Bytes} (hds : ¬ ∀ d ∈ ds, IsDec d) (rv pow : YmdInt) :
    dtollLoop ds rv pow = none := by
  induction ds generalizing rv pow with
  | nil => exact absurd (fun d hd => absurd hd List.not_mem_nil) hds
  | cons d ds ih =>
      rw [dtollLoop]
      by_cases hd : IsDec d
      · rw [dtol_eq hd]
        apply ih
        intro hall
        exact hds (List.forall_mem_cons.2 ⟨hd, hall⟩)
      · rw [dtol_none hd]

/-- The whole loop, on digits from left to right. -/
theorem dtollLoop_reverse (ds : Bytes) (v : YmdInt) : dtollLoop ds.reverse 0 1 = some v ↔
    (∀ d ∈ ds, IsDec d) ∧ v = BitVec.ofNat 64 (decValue ds) := by
  by_cases hds : ∀ d ∈ ds, IsDec d
  · have hrev : ∀ d ∈ ds.reverse, IsDec d := fun d hd => hds d (List.mem_reverse.1 hd)
    rw [dtollLoop_eq hrev, decValue, numeral_eq, ← List.map_reverse, Option.some.injEq,
      zero_add, mul_one]
    exact ⟨fun h => ⟨hds, h.symm⟩, fun h => h.2.symm⟩
  · have hrev : ¬ ∀ d ∈ ds.reverse, IsDec d :=
      fun hall => hds fun d hd => hall d (List.mem_reverse.2 hd)
    rw [dtollLoop_none hrev]
    simp [hds]

/-- The spellings of decimal numbers: the empty one is 0. -/
inductive Decimal : Bytes → Int → Prop
  | plain {ds : Bytes} (hds : ∀ d ∈ ds, IsDec d) : Decimal ds (decValue ds)
  | minus {ds : Bytes} (hsome : ds ≠ []) (hds : ∀ d ∈ ds, IsDec d) :
      Decimal (45 :: ds) (-(decValue ds : Int))

theorem dtoll_eq_some_iff (s : Bytes) (v : YmdInt) :
    dtoll s = some v ↔ ∃ n, Decimal s n ∧ v = BitVec.ofInt 64 n := by
  have hminus : ¬ IsDec 45 := by unfold IsDec; decide
  unfold dtoll
  split
  next hsign =>
    obtain ⟨hlen, hhead⟩ := hsign
    obtain ⟨ds, rfl⟩ := List.head?_eq_some_iff.1 hhead
    rw [List.tail_cons, Option.map_eq_some_iff]
    simp only [dtollLoop_reverse]
    constructor
    · rintro ⟨u, ⟨hds, rfl⟩, rfl⟩
      refine ⟨_, .minus ?_ hds, ?_⟩
      · rintro rfl
        exact absurd hlen (by decide)
      · rw [BitVec.ofInt_neg, BitVec.ofInt_natCast]
    · rintro ⟨n, hn, rfl⟩
      cases hn with
      | plain hds => exact absurd (hds 45 List.mem_cons_self) hminus
      | minus _ hds => exact ⟨_, ⟨hds, rfl⟩, by rw [BitVec.ofInt_neg, BitVec.ofInt_natCast]⟩
  next hsign =>
    rw [dtollLoop_reverse]
    constructor
    · rintro ⟨hds, rfl⟩
      exact ⟨_, .plain hds, (BitVec.ofInt_natCast _ _).symm⟩
    · rintro ⟨n, hn, rfl⟩
      cases hn with
      | plain hds => exact ⟨hds, BitVec.ofInt_natCast _ _⟩
      | minus hsome hds =>
          exfalso
          apply hsign
          exact ⟨Nat.succ_lt_succ (List.length_pos_iff.2 hsome), rfl⟩

theorem isDec_of_isDigit {c : Char} (hc : c.isDigit = true) :
    IsDec (UInt8.ofNat c.toNat) ∧ decDigit (UInt8.ofNat c.toNat) = c.toNat - '0'.toNat := by
  rw [Char.isDigit, Bool.and_eq_true, decide_eq_true_eq, decide_eq_true_eq] at hc
  have hlow : 48 ≤ c.toNat := hc.1
  have hhigh : c.toNat ≤ 57 := hc.2
  have hnat : (UInt8.ofNat c.toNat).toNat = c.toNat :=
    UInt8.toNat_ofNat_of_lt' (Nat.lt_of_le_of_lt hhigh (by decide))
  refine ⟨?_, by rw [decDigit, hnat]; rfl⟩
  rw [IsDec, UInt8.le_iff_toNat_le, UInt8.le_iff_toNat_le, hnat]
  exact ⟨hlow, hhigh⟩

theorem isDec_repr (n : Nat) : ∀ d ∈ lit n.repr, IsDec d := by
  intro d hd
  rw [lit, Nat.toList_repr] at hd
  obtain ⟨c, hc, rfl⟩ := List.mem_map.1 hd
  exact (isDec_of_isDigit (Nat.isDigit_of_mem_toDigits (by decide) (by decide) hc)).1

theorem decValue_repr (n : Nat) : decValue (lit n.repr) = n := by
  have hdigits : ((Nat.toDigits 10 n).map fun c => UInt8.ofNat c.toNat).map decDigit
      = (Nat.toDigits 10 n).map fun c => c.toNat - '0'.toNat := by
    rw [List.map_map]
    apply List.map_congr_left
    intro c hc
    exact (isDec_of_isDigit (Nat.isDigit_of_mem_toDigits (by decide) (by decide) hc)).2
  calc decValue (lit n.repr)
      = numeral 10 ((Nat.toDigits 10 n).map fun c => c.toNat - '0'.toNat) := by
        rw [decValue, lit, Nat.toList_repr, hdigits]
    _ = Nat.ofDigitChars 10 (Nat.toDigits 10 n) 0 := by
        rw [numeral, List.foldl_map, Nat.ofDigitChars_eq_foldl]
    _ = n := Nat.ofDigitChars_ten_toDigits

/-- What `%lld` prints. -/
theorem decimal_spells (i : Int) : Decimal (decimal i) i := by
  cases i with
  | ofNat n =>
      have hspells := Decimal.plain (isDec_repr n)
      rwa [decValue_repr] at hspells
  | negSucc n =>
      have hsome : lit (n + 1).repr ≠ [] := by
        rw [lit, Nat.toList_repr]
        exact fun h => Nat.toDigits_ne_nil (List.map_eq_nil_iff.1 h)
      have hspells := Decimal.minus hsome (isDec_repr (n + 1))
      have hsign : decimal (Int.negSucc n) = 45 :: lit (n + 1).repr := by
        change lit ("-" ++ (n + 1).repr) = _
        rw [lit, String.toList_append, List.map_append]
        rfl
      rw [decValue_repr] at hspells
      rw [hsign]
      exact hspells

/-- `libx_atoi`; no value where the conversion fails. -/
def libxAtoi (arg0 : Bytes) : Option Variable := (dtoll arg0).map .int

/-- `libx_str`. -/
def libxStr (heap : Heap) (env : PrintEnv) (depth : Nat) (arg0 : Variable) :
    Except Fault Variable :=
  match tostring heap env depth arg0 ⟨Fmtx.init, fun _ => false⟩ with
  | .ok _ s => .ok (.kstr s.ctx.buf)
  | .error f _ => .error f

theorem libxStr_int (heap : Heap) (env : PrintEnv) (depth : Nat) (i : YmdInt) :
    libxStr heap env (depth + 1) (.int i) = .ok (.kstr (decimal i.toInt)) := by
  have hlen := length_decimal_int i
  obtain ⟨ctx, hrun, -, hbuf⟩ := @Emits.print 24 (decimal i.toInt) (fun _ => false)
    (by decide) (by omega) .init (Nat.le_refl _) (by simp [Fmtx.init, Fmtx.last]; omega)
  have hprint : tostring heap env (depth + 1) (.int i) ⟨Fmtx.init, fun _ => false⟩
      = .ok () ⟨ctx, fun _ => false⟩ := hrun
  rw [libxStr, hprint]
  simp [hbuf, Fmtx.init]

/-- The strings that `dtoll` accepts are the decimal numbers, with their values;
what `str` makes of an integer is read back. -/
theorem dtoll_decimal : (∀ s v, dtoll s = some v ↔ ∃ n, Decimal s n ∧ v = BitVec.ofInt 64 n) ∧
    ∀ heap env depth i, ∃ z, libxStr heap env (depth + 1) (.int i) = .ok (.kstr z) ∧
      libxAtoi z = some (.int i) := by
  refine ⟨dtoll_eq_some_iff, fun heap env depth i => ⟨_, libxStr_int heap env depth i, ?_⟩⟩
  have hread : dtoll (decimal i.toInt) = some i :=
    (dtoll_eq_some_iff _ i).2 ⟨_, decimal_spells _, BitVec.ofInt_toInt.symm⟩
  rw [libxAtoi, hread, Option.map_some]

/-! ## Hexadecimal numbers -/

/-- The bits of the digits from the last one on, the first of them with `n`
digits behind it. -/
theorem xtollLoop_eq {ds : Bytes} (hds : ∀ d ∈ ds, IsHex d) (n : Nat) (rv : YmdInt) :
    ∃ v, xtollLoop ds n rv = some v ∧ ∀ b < 64, v.getLsbD b = true ↔
      rv.getLsbD b = true ∨
        ∃ j < ds.length, (n + j) % 16 = b / 4 ∧ (hexDigit (ds.getD j 0)).testBit (b % 4) = true := by
  induction ds generalizing n rv with
  | nil => exact ⟨rv, rfl, fun b _ => by simp⟩
  | cons d ds ih =>
      rw [List.forall_mem_cons] at hds
      obtain ⟨v, hv, hbits⟩ := ih hds.2 (n + 1)
        (rv ||| BitVec.ofNat 64 (hexDigit d) <<< (n * 4 % 64))
      refine ⟨v, ?_, fun b hb => ?_⟩
      · rw [xtollLoop, xtol_eq hds.1]
        exact hv
      · have hdigit : (BitVec.ofNat 64 (hexDigit d) <<< (n * 4 % 64)).getLsbD b = true ↔
            n % 16 = b / 4 ∧ (hexDigit d).testBit (b % 4) = true := by
          have hlt := hexDigit_lt hds.1
          rw [BitVec.getLsbD_shiftLeft, BitVec.getLsbD_ofNat]
          simp only [Bool.and_eq_true, decide_eq_true_eq, Bool.not_eq_true', decide_eq_false_iff_not]
          constructor
          · rintro ⟨⟨-, hge⟩, -, hbit⟩
            have hsmall : b - n * 4 % 64 < 4 := by
              by_contra hbig
              have hzero := Nat.testBit_lt_two_pow (Nat.lt_of_lt_of_le hlt
                (Nat.pow_le_pow_right (n := 2) (by decide) (Nat.not_lt.1 hbig)))
              rw [hzero] at hbit
              cases hbit
            have hq : n % 16 = b / 4 := by omega
            refine ⟨hq, ?_⟩
            rwa [show b % 4 = b - n * 4 % 64 by omega]
          · rintro ⟨hq, hbit⟩
            refine ⟨⟨hb, by omega⟩, by omega, ?_⟩
            rwa [show b - n * 4 % 64 = b % 4 by omega]
        rw [hbits b hb, BitVec.getLsbD_or, Bool.or_eq_true, hdigit, or_assoc]
        apply or_congr_right
        constructor
        · rintro (⟨hq, hbit⟩ | ⟨j, hj, hq, hbit⟩)
          · exact ⟨0, Nat.succ_pos _, hq, hbit⟩
          · exact ⟨j + 1, Nat.succ_lt_succ hj, by rw [← hq]; congr 1; omega, hbit⟩
        · rintro ⟨j, hj, hq, hbit⟩
          cases j with
          | zero => exact .inl ⟨hq, hbit⟩
          | succ j =>
              exact .inr ⟨j, Nat.lt_of_succ_lt_succ hj, by rw [← hq]; congr 1; omega, hbit⟩

/-- The bits of the digits beyond the last sixteen are bits of the digits they
come around to. -/
def Folds (ds : Bytes) : Prop :=
  ∀ j < ds.length, ∀ b < 4, (hexDigit (ds.reverse.getD j 0)).testBit b = true →
    (hexDigit (ds.reverse.getD (j % 16) 0)).testBit b = true

theorem testBit_hexValue {ds : Bytes} (hds : ∀ d ∈ ds, IsHex d) (b : Nat) :
    (hexValue ds).testBit b = (hexDigit (ds.reverse.getD (b / 4) 0)).testBit (b % 4) := by
  have hsmall : ∀ d ∈ (ds.reverse).map hexDigit, d < 2 ^ 4 := by
    intro d hd
    obtain ⟨c, hc, rfl⟩ := List.mem_map.1 hd
    exact hexDigit_lt (hds c (List.mem_reverse.1 hc))
  have hget : (ds.reverse.map hexDigit).getD (b / 4) 0 = hexDigit (ds.reverse.getD (b / 4) 0) :=
    List.getD_map ds.reverse 0 hexDigit
  rw [hexValue, numeral_eq, ← List.map_reverse, show (16 : Nat) = 2 ^ 4 by rfl,
    testBit_ofDigits (by decide) hsmall, hget]

/-- The loop of `xtoll` returns the numeral modulo 2^64 if nothing comes around. -/
theorem xtollLoop_reverse {ds : Bytes} (hds : ∀ d ∈ ds, IsHex d) :
    xtollLoop ds.reverse 0 0 = some (BitVec.ofNat 64 (hexValue ds)) ↔ Folds ds := by
  have hrev : ∀ d ∈ ds.reverse, IsHex d := fun d hd => hds d (List.mem_reverse.1 hd)
  obtain ⟨v, hv, hbits⟩ := xtollLoop_eq hrev 0 0
  have hzero : ∀ b, (0 : YmdInt).getLsbD b = false := fun b => BitVec.getLsbD_zero
  simp only [List.length_reverse, Nat.zero_add, hzero, Bool.false_eq_true, false_or] at hbits
  rw [hv, Option.some.injEq]
  constructor
  · rintro rfl j hj b hb hbit
    have hread := (hbits (j % 16 * 4 + b) (by omega)).2
      ⟨j, hj, by omega, by rwa [show (j % 16 * 4 + b) % 4 = b by omega]⟩
    rw [BitVec.getLsbD_ofNat, Bool.and_eq_true, testBit_hexValue hds,
      show (j % 16 * 4 + b) / 4 = j % 16 by omega,
      show (j % 16 * 4 + b) % 4 = b by omega] at hread
    exact hread.2
  · intro hfolds
    apply BitVec.eq_of_getLsbD_eq
    intro b hb
    rw [Bool.eq_iff_iff, hbits b hb, BitVec.getLsbD_ofNat, decide_eq_true hb, Bool.true_and]
    rw [testBit_hexValue hds]
    constructor
    · rintro ⟨j, hj, hq, hbit⟩
      rw [← hq]
      exact hfolds j hj (b % 4) (Nat.mod_lt _ (by decide)) hbit
    · intro hbit
      by_cases hlen : b / 4 < ds.length
      · exact ⟨b / 4, hlen, Nat.mod_eq_of_lt (by omega), hbit⟩
      · have hbeyond : ds.reverse.getD (b / 4) 0 = 0 := by
          rw [List.getD_eq_getElem?_getD,
            List.getElem?_eq_none (by rw [List.length_reverse]; omega)]
          rfl
        rw [hbeyond] at hbit
        simp [hexDigit] at hbit

theorem xtoll_cons {x : UInt8} {ds : Bytes} : xtoll (48 :: x :: ds) =
    if ds = [] then .error (.assertion "k > 2")
    else if x = 120 then .ok (xtollLoop ds.reverse 0 0)
    else .error (.assertion "raw[1] == 'x'") := by
  cases ds with
  | nil => rfl
  | cons d ds =>
      by_cases hx : x = 120
      · simp [xtoll, hx, pure, Except.pure]
      · simp [xtoll, hx, throw, throwThe, MonadExceptOf.throw]

end Ymd
