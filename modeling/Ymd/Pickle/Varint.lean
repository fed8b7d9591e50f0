import Ymd.Value.Variable

/-! # Variable length integers

The encoders and decoders of `encoding.c` and `encoding.h`. An integer is cut
into groups of seven bits, the highest first; every byte but the last has its
top bit set.
-/

namespace Ymd

/-- `((x & 0x7F << (c*7)) >> (c*7))`, stored in a byte. -/
def group {w : Nat} (x : BitVec w) (c : Nat) : UInt8 :=
  UInt8.ofBitVec (((x &&& (0x7f#w <<< (c * 7))) >>> (c * 7)).setWidth 8)

/-- The code at the labels `bit_..`: all groups from `c` down. -/
def fillGroups {w : Nat} (x : BitVec w) : (c : Nat) → Bytes
  | 0 => [group x 0]
  | c + 1 => (group x (c + 1) ||| 0x80) :: fillGroups x c

/-- The label `uint64encode` jumps to. -/
def topGroup64 (x : BitVec 64) : Nat :=
  if x &&& 0xFFFE000000000000#64 ≠ 0 ∧ group x 9 ≠ 0 then 9
  else if x &&& 0xFFFE000000000000#64 ≠ 0 ∧ group x 8 ≠ 0 then 8
  else if x &&& 0xFFFE000000000000#64 ≠ 0 ∧ group x 7 ≠ 0 then 7
  else if x &&& 0x1FFFFF0000000#64 ≠ 0 ∧ group x 6 ≠ 0 then 6
  else if x &&& 0x1FFFFF0000000#64 ≠ 0 ∧ group x 5 ≠ 0 then 5
  else if x &&& 0x1FFFFF0000000#64 ≠ 0 ∧ group x 4 ≠ 0 then 4
  else if x &&& 0xFFFFF80#64 ≠ 0 ∧ group x 3 ≠ 0 then 3
  else if x &&& 0xFFFFF80#64 ≠ 0 ∧ group x 2 ≠ 0 then 2
  else if x &&& 0xFFFFF80#64 ≠ 0 ∧ group x 1 ≠ 0 then 1
  else 0

/-- `uint64encode`. -/
def uint64encode (x : BitVec 64) : Bytes := fillGroups x (topGroup64 x)

/-- The label `uint32encode` jumps to. -/
def topGroup32 (x : BitVec 32) : Nat :=
  if group x 4 ≠ 0 then 4
  else if group x 3 ≠ 0 then 3
  else if group x 2 ≠ 0 then 2
  else if group x 1 ≠ 0 then 1
  else 0

/-- `uint32encode`. -/
def uint32encode (x : BitVec 32) : Bytes := fillGroups x (topGroup32 x)

/-- The loop of `uint64decode` from the value `x` on, with the bytes behind the
integer; `none` when the bytes end before it does. -/
def decodeFrom : Bytes → BitVec 64 → Option (BitVec 64 × Bytes)
  | [], _ => none
  | c :: rest, x =>
      if 0x80 ≤ c then decodeFrom rest ((x ||| (c &&& 0x7f).toBitVec.setWidth 64) <<< 7)
      else some (x ||| c.toBitVec.setWidth 64, rest)

/-- `uint64decode`. -/
def uint64decode (z : Bytes) : Option (BitVec 64 × Bytes) := decodeFrom z 0

/-- `uint32decode`. -/
def uint32decode (z : Bytes) : Option (BitVec 32 × Bytes) :=
  (uint64decode z).map fun (x, rest) => (x.setWidth 32, rest)

/-- `zigzag64encode` and `zigzag32encode`: the sign goes into the lowest bit. -/
def zigzagEncode {w : Nat} (i : BitVec w) : BitVec w :=
  if i.slt 0 then ((-i) <<< 1) ||| 1 else i <<< 1

/-- `zigzag64decode` and `zigzag32decode`. -/
def zigzagDecode {w : Nat} (u : BitVec w) : BitVec w :=
  if u &&& 1 ≠ 0 then -(u >>> 1) else u >>> 1

/-- `zigzag64encode`. -/
def zigzag64encode (i : YmdInt) : BitVec 64 := zigzagEncode i

/-- `zigzag64decode`. -/
def zigzag64decode (u : BitVec 64) : YmdInt := zigzagDecode u

/-- `zigzag32encode`. -/
def zigzag32encode (i : BitVec 32) : BitVec 32 := zigzagEncode i

/-- `zigzag32decode`. -/
def zigzag32decode (u : BitVec 32) : BitVec 32 := zigzagDecode u

/-- `sint64encode`. -/
def sint64encode (i : YmdInt) : Bytes := uint64encode (zigzag64encode i)

/-- `sint64decode`. -/
def sint64decode (z : Bytes) : Option (YmdInt × Bytes) :=
  (uint64decode z).map fun (x, rest) => (zigzag64decode x, rest)

/-- `sint32encode`. -/
def sint32encode (i : BitVec 32) : Bytes := uint32encode (zigzag32encode i)

/-- `sint32decode`. -/
def sint32decode (z : Bytes) : Option (BitVec 32 × Bytes) :=
  (uint32decode z).map fun (x, rest) => (zigzag32decode x, rest)

/-! ## Groups as digits -/

theorem mask_shift {w : Nat} (x m : BitVec w) (k : Nat) :
    (x &&& (m <<< k)) >>> k = (x >>> k) &&& m := by
  apply BitVec.eq_of_getLsbD_eq
  intro i hi
  by_cases hin : k + i < w
  · have hge : ¬ k + i < k := by omega
    simp [hin, hge, BitVec.getLsbD_eq_getElem hi]
  · simp [BitVec.getLsbD_of_ge _ _ (Nat.not_lt.1 hin)]

theorem toNat_group {w : Nat} (hw : 7 ≤ w) (x : BitVec w) (c : Nat) :
    (group x c).toNat = x.toNat / 2 ^ (c * 7) % 128 := by
  have hmask : (0x7f#w).toNat = 2 ^ 7 - 1 := by
    rw [BitVec.toNat_ofNat]
    apply Nat.mod_eq_of_lt
    calc 127 < 2 ^ 7 := by decide
      _ ≤ 2 ^ w := Nat.pow_le_pow_right (by decide) hw
  have hlt : x.toNat / 2 ^ (c * 7) % 128 < 128 := Nat.mod_lt _ (by decide)
  rw [group, mask_shift, UInt8.toNat_ofBitVec, BitVec.toNat_setWidth, BitVec.toNat_and, hmask,
    Nat.and_two_pow_sub_one_eq_mod, BitVec.toNat_ushiftRight, Nat.shiftRight_eq_div_pow]
  exact Nat.mod_eq_of_lt (by omega)

theorem toNat_or_high {b : UInt8} (hb : b.toNat < 128) : (b ||| 0x80).toNat = b.toNat + 128 := by
  have h80 : (0x80 : UInt8).toNat = 2 ^ 7 * 1 := rfl
  rw [UInt8.toNat_or, h80, Nat.or_comm, ← Nat.two_pow_add_eq_or_of_lt hb]
  omega

/-- One group is read: it goes into the seven bits that are still zero. -/
theorem toNat_or_group {X k : Nat} {acc d : BitVec 64}
    (hacc : acc.toNat = X / 2 ^ ((k + 1) * 7) * 128) (hd : d.toNat = X / 2 ^ (k * 7) % 128) :
    (acc ||| d).toNat = X / 2 ^ (k * 7) := by
  have hdiv : X / 2 ^ ((k + 1) * 7) = X / 2 ^ (k * 7) / 2 ^ 7 := by
    rw [Nat.div_div_eq_div_mul, ← Nat.pow_add]
    congr 2
    omega
  have hsmall : d.toNat < 2 ^ 7 := by omega
  rw [BitVec.toNat_or, hacc, hdiv, show (128 : Nat) = 2 ^ 7 by rfl, Nat.mul_comm,
    ← Nat.two_pow_add_eq_or_of_lt hsmall, hd]
  omega

/-- Decoding the groups from `k` down, with the groups above them read. -/
theorem decodeFrom_fillGroups {w : Nat} (hw : 7 ≤ w) (hw64 : w ≤ 64) (x : BitVec w) (k : Nat)
    (acc : BitVec 64) (hacc : acc.toNat = x.toNat / 2 ^ ((k + 1) * 7) * 128) (rest : Bytes) :
    decodeFrom (fillGroups x k ++ rest) acc = some (x.setWidth 64, rest) := by
  have hx : x.toNat < 2 ^ 64 :=
    Nat.lt_of_lt_of_le x.isLt (Nat.pow_le_pow_right (by decide) hw64)
  induction k generalizing acc with
  | zero =>
      have hd : (group x 0).toNat = x.toNat / 2 ^ (0 * 7) % 128 := toNat_group hw x 0
      have hlow : ¬ 0x80 ≤ group x 0 := by
        rw [UInt8.le_iff_toNat_le, hd]
        have h80 : (0x80 : UInt8).toNat = 128 := rfl
        omega
      have hsum : acc ||| (group x 0).toBitVec.setWidth 64 = x.setWidth 64 := by
        apply BitVec.eq_of_toNat_eq
        rw [toNat_or_group hacc]
        · rw [BitVec.toNat_setWidth, Nat.mod_eq_of_lt hx]
          simp
        · rw [BitVec.toNat_setWidth, Nat.mod_eq_of_lt, ← hd]
          · rfl
          · exact Nat.lt_of_lt_of_le (group x 0).toBitVec.isLt (by decide)
      rw [fillGroups, List.singleton_append, decodeFrom, if_neg hlow, hsum]
  | succ k ih =>
      have hd : (group x (k + 1)).toNat = x.toNat / 2 ^ ((k + 1) * 7) % 128 := toNat_group hw x _
      have hsmall : (group x (k + 1)).toNat < 128 := by omega
      have hhigh := toNat_or_high hsmall
      have hcont : 0x80 ≤ group x (k + 1) ||| 0x80 := by
        rw [UInt8.le_iff_toNat_le, hhigh]
        have h80 : (0x80 : UInt8).toNat = 128 := rfl
        omega
      have hlow : (group x (k + 1) ||| 0x80) &&& 0x7f = group x (k + 1) := by
        have h7f : (0x7f : UInt8).toNat = 2 ^ 7 - 1 := rfl
        apply UInt8.toNat_inj.mp
        rw [UInt8.toNat_and, hhigh, h7f, Nat.and_two_pow_sub_one_eq_mod]
        omega
      rw [fillGroups, List.cons_append, decodeFrom, if_pos hcont, hlow]
      apply ih
      have hsum := toNat_or_group (d := (group x (k + 1)).toBitVec.setWidth 64) hacc (by
        rw [BitVec.toNat_setWidth, Nat.mod_eq_of_lt, ← hd]
        · rfl
        · exact Nat.lt_of_lt_of_le (group x (k + 1)).toBitVec.isLt (by decide))
      -- what has been read fits, so the shift loses no bit
      have hroom : x.toNat / 2 ^ ((k + 1) * 7) * 128 < 2 ^ 64 := by
        have hle : 2 ^ 7 ≤ 2 ^ ((k + 1) * 7) := Nat.pow_le_pow_right (by decide) (by omega)
        have hmul := Nat.div_mul_le_self x.toNat (2 ^ ((k + 1) * 7))
        calc x.toNat / 2 ^ ((k + 1) * 7) * 128
            ≤ x.toNat / 2 ^ ((k + 1) * 7) * 2 ^ ((k + 1) * 7) := Nat.mul_le_mul_left _ hle
          _ ≤ x.toNat := hmul
          _ < 2 ^ 64 := hx
      rw [BitVec.toNat_shiftLeft, hsum, Nat.shiftLeft_eq, show 2 ^ 7 = 128 by rfl,
        Nat.mod_eq_of_lt hroom]

/-- A number with no group above `k`. -/
theorem group_eq_zero {w : Nat} (hw : 7 ≤ w) {x : BitVec w} {c : Nat} (hc : group x c = 0) :
    x.toNat / 2 ^ (c * 7) % 128 = 0 := by
  rw [← toNat_group hw, hc]
  rfl

theorem toNat_lt_topGroup32 (x : BitVec 32) : x.toNat < 2 ^ ((topGroup32 x + 1) * 7) := by
  have hx := x.isLt
  have hgroup : ∀ c, ¬ group x c ≠ 0 → x.toNat / 2 ^ (c * 7) % 128 = 0 :=
    fun c hc => group_eq_zero (by decide) (not_not.1 hc)
  unfold topGroup32
  split
  next => omega
  next h4 =>
    have h4 := hgroup 4 h4
    split
    next => omega
    next h3 =>
      have h3 := hgroup 3 h3
      split
      next => omega
      next h2 =>
        have h2 := hgroup 2 h2
        split
        next => omega
        next h1 =>
          have h1 := hgroup 1 h1
          omega

/-- A test that fails because of the mask in front of it. -/
theorem group_eq_zero_of_mask {x mask : BitVec 64} {c : Nat}
    (hcover : (0x7f#64 <<< (c * 7)) &&& mask = 0x7f#64 <<< (c * 7))
    (hno : ¬ (x &&& mask ≠ 0 ∧ group x c ≠ 0)) : x.toNat / 2 ^ (c * 7) % 128 = 0 := by
  apply group_eq_zero (by decide)
  by_contra hne
  apply hno
  refine ⟨fun hmask => hne ?_, hne⟩
  rw [group, ← hcover, BitVec.and_comm _ mask, ← BitVec.and_assoc, hmask]
  simp

theorem toNat_lt_topGroup64 (x : BitVec 64) : x.toNat < 2 ^ ((topGroup64 x + 1) * 7) := by
  have hx := x.isLt
  unfold topGroup64
  split
  next => omega
  next h9 =>
    have h9 := group_eq_zero_of_mask (by decide) h9
    split
    next => omega
    next h8 =>
      have h8 := group_eq_zero_of_mask (by decide) h8
      split
      next => omega
      next h7 =>
        have h7 := group_eq_zero_of_mask (by decide) h7
        split
        next => omega
        next h6 =>
          have h6 := group_eq_zero_of_mask (by decide) h6
          split
          next => omega
          next h5 =>
            have h5 := group_eq_zero_of_mask (by decide) h5
            split
            next => omega
            next h4 =>
              have h4 := group_eq_zero_of_mask (by decide) h4
              split
              next => omega
              next h3 =>
                have h3 := group_eq_zero_of_mask (by decide) h3
                split
                next => omega
                next h2 =>
                  have h2 := group_eq_zero_of_mask (by decide) h2
                  split
                  next => omega
                  next h1 =>
                    have h1 := group_eq_zero_of_mask (by decide) h1
                    omega

theorem length_fillGroups {w : Nat} (x : BitVec w) (c : Nat) : (fillGroups x c).length = c + 1 := by
  induction c with
  | zero => rfl
  | succ c ih => rw [fillGroups, List.length_cons, ih]

theorem length_uint32encode (x : BitVec 32) : (uint32encode x).length ≤ 5 := by
  rw [uint32encode, length_fillGroups]
  unfold topGroup32
  repeat' split
  all_goals decide

theorem length_uint64encode (x : BitVec 64) : (uint64encode x).length ≤ 10 := by
  rw [uint64encode, length_fillGroups]
  unfold topGroup64
  repeat' split
  all_goals decide

/-! ## Round trips -/

theorem uint64decode_encode (x : BitVec 64) (rest : Bytes) :
    uint64decode (uint64encode x ++ rest) = some (x, rest) := by
  have hacc : (0 : BitVec 64).toNat = x.toNat / 2 ^ ((topGroup64 x + 1) * 7) * 128 := by
    rw [Nat.div_eq_of_lt (toNat_lt_topGroup64 x)]
    rfl
  rw [uint64decode, uint64encode, decodeFrom_fillGroups (by decide) (by decide) x _ 0 hacc,
    BitVec.setWidth_eq]

theorem uint32decode_encode (x : BitVec 32) (rest : Bytes) :
    uint32decode (uint32encode x ++ rest) = some (x, rest) := by
  have hacc : (0 : BitVec 64).toNat = x.toNat / 2 ^ ((topGroup32 x + 1) * 7) * 128 := by
    rw [Nat.div_eq_of_lt (toNat_lt_topGroup32 x)]
    rfl
  rw [uint32decode, uint64decode, uint32encode,
    decodeFrom_fillGroups (by decide) (by decide) x _ 0 hacc, Option.map_some]
  simp

theorem toNat_shiftLeft_one {w : Nat} {i : BitVec w} (hi : i.toNat < 2 ^ (w - 1)) (hw : 0 < w) :
    (i <<< 1).toNat = i.toNat * 2 := by
  have hpow : 2 ^ w = 2 ^ (w - 1) * 2 := by
    rw [← Nat.pow_succ, Nat.succ_eq_add_one, Nat.sub_add_cancel hw]
  rw [BitVec.toNat_shiftLeft, Nat.shiftLeft_eq, Nat.pow_one, Nat.mod_eq_of_lt (by omega)]

/-- Every integer but the smallest comes back. -/
theorem zigzagDecode_encode {w : Nat} (hw : 1 < w) {i : BitVec w} (hi : i ≠ BitVec.intMin w) :
    zigzagDecode (zigzagEncode i) = i := by
  have hpow : 2 ^ w = 2 ^ (w - 1) * 2 := by
    rw [← Nat.pow_succ, Nat.succ_eq_add_one, Nat.sub_add_cancel (by omega)]
  have hone : (1 : BitVec w).toNat = 1 := Nat.mod_eq_of_lt (Nat.one_lt_two_pow (by omega))
  have hmin : i.toNat ≠ 2 ^ (w - 1) := by
    intro hnat
    apply hi
    apply BitVec.eq_of_toNat_eq
    rw [hnat, BitVec.toNat_intMin, Nat.mod_eq_of_lt (by omega)]
  have hlt := i.isLt
  have hsign : i.slt 0 = true ↔ 2 ^ (w - 1) ≤ i.toNat := by
    rw [show (0 : BitVec w) = 0#w by rfl, BitVec.slt_zero_eq_msb, BitVec.msb_eq_decide,
      decide_eq_true_eq]
  unfold zigzagEncode
  split
  next hneg =>
    have hge := hsign.1 hneg
    have hsmall : (-i).toNat < 2 ^ (w - 1) := by
      rw [BitVec.toNat_neg, Nat.mod_eq_of_lt (by omega)]
      omega
    have hshift : ((-i) <<< 1).toNat = (-i).toNat * 2 := toNat_shiftLeft_one hsmall (by omega)
    have hcode : ((-i) <<< 1 ||| 1).toNat = (-i).toNat * 2 + 1 := by
      rw [BitVec.toNat_or, hshift, hone, Nat.mul_comm, show (2 : Nat) = 2 ^ 1 by rfl,
        ← Nat.two_pow_add_eq_or_of_lt (by decide)]
    -- the lowest bit says that the number was negative
    have hodd : ((-i) <<< 1 ||| 1) &&& 1 ≠ 0 := by
      intro hzero
      have hbit := congrArg BitVec.toNat hzero
      rw [BitVec.toNat_and, hcode, hone, Nat.and_one_is_mod] at hbit
      have hz : (0 : BitVec w).toNat = 0 := BitVec.toNat_zero
      omega
    have hback : ((-i) <<< 1 ||| 1) >>> 1 = -i := by
      apply BitVec.eq_of_toNat_eq
      rw [BitVec.toNat_ushiftRight, hcode, Nat.shiftRight_eq_div_pow]
      omega
    rw [zigzagDecode, if_pos hodd, hback, BitVec.neg_neg]
  next hpos =>
    have hsmall : i.toNat < 2 ^ (w - 1) := Nat.not_le.1 fun hge => hpos (hsign.2 hge)
    have hshift : (i <<< 1).toNat = i.toNat * 2 := toNat_shiftLeft_one hsmall (by omega)
    have heven : ¬ (i <<< 1) &&& 1 ≠ 0 := by
      rw [not_not]
      apply BitVec.eq_of_toNat_eq
      rw [BitVec.toNat_and, hshift, hone, Nat.and_one_is_mod]
      have hz : (0 : BitVec w).toNat = 0 := BitVec.toNat_zero
      omega
    rw [zigzagDecode, if_neg heven]
    apply BitVec.eq_of_toNat_eq
    rw [BitVec.toNat_ushiftRight, hshift, Nat.shiftRight_eq_div_pow]
    omega

theorem zigzag64decode_encode {i : YmdInt} (hi : i ≠ BitVec.intMin 64) :
    zigzag64decode (zigzag64encode i) = i :=
  zigzagDecode_encode (by decide) hi

theorem zigzag32decode_encode {i : BitVec 32} (hi : i ≠ BitVec.intMin 32) :
    zigzag32decode (zigzag32encode i) = i :=
  zigzagDecode_encode (by decide) hi

theorem sint64decode_encode {i : YmdInt} (hi : i ≠ BitVec.intMin 64) (rest : Bytes) :
    sint64decode (sint64encode i ++ rest) = some (i, rest) := by
  rw [sint64decode, sint64encode, uint64decode_encode, Option.map_some]
  simp only [zigzag64decode_encode hi]

end Ymd
