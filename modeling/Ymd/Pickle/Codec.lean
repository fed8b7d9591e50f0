import Ymd.Pickle.Varint

/-! # The integer codec

What the encoders of `encoding.c` write and what the decoders count. The
writers run one block after another from a label on; the readers are one loop
with a counter.
-/

namespace Ymd

/-- The loop of `uint64decode` with its counter `i`; `none` when the bytes end
before the integer does. -/
def decodeLoop : Bytes → Nat → BitVec 64 → Option (BitVec 64 × Nat)
  | [], _, _ => none
  | c :: rest, i, x =>
      if 0x80 ≤ c then decodeLoop rest (i + 1) ((x ||| (c &&& 0x7f).toBitVec.setWidth 64) <<< 7)
      else some (x ||| c.toBitVec.setWidth 64, i + 1)

/-- `uint64decode` with the count it stores in `*k`. -/
def uint64decodeK (z : Bytes) : Option (BitVec 64 × Nat) := decodeLoop z 0 0

/-- `uint32decode` with the count it stores in `*k`. -/
def uint32decodeK (z : Bytes) : Option (BitVec 32 × Nat) :=
  (uint64decodeK z).map fun (x, k) => (x.setWidth 32, k)

/-- `sint64decode` with the count it stores in `*k`. -/
def sint64decodeK (z : Bytes) : Option (YmdInt × Nat) :=
  (uint64decodeK z).map fun (x, k) => (zigzag64decode x, k)

/-- `sint32decode` with the count it stores in `*k`. -/
def sint32decodeK (z : Bytes) : Option (BitVec 32 × Nat) :=
  (uint32decodeK z).map fun (x, k) => (zigzag32decode x, k)

/-! ## The count -/

theorem length_decodeFrom {z rest : Bytes} {x y : BitVec 64}
    (h : decodeFrom z x = some (y, rest)) : rest.length < z.length := by
  induction z generalizing x with
  | nil => cases h
  | cons c z ih =>
      rw [decodeFrom] at h
      split at h
      · exact Nat.lt_succ_of_lt (ih h)
      · simp only [Option.some.injEq, Prod.mk.injEq] at h
        rw [← h.2]
        exact Nat.lt_succ_self _

/-- The counter is the number of bytes in front of what the decoder leaves. -/
theorem decodeLoop_eq (z : Bytes) (i : Nat) (x : BitVec 64) :
    decodeLoop z i x = (decodeFrom z x).map fun (y, rest) => (y, i + (z.length - rest.length)) := by
  induction z generalizing i x with
  | nil => rfl
  | cons c z ih =>
      rw [decodeLoop, decodeFrom]
      split
      · rw [ih]
        cases hfrom : decodeFrom z ((x ||| (c &&& 0x7f).toBitVec.setWidth 64) <<< 7) with
        | none => rfl
        | some read =>
            have hlt := length_decodeFrom hfrom
            simp only [Option.map_some, List.length_cons]
            congr 2
            omega
      · simp only [Option.map_some, List.length_cons]
        congr 2
        omega

theorem uint64decodeK_encode (x : BitVec 64) (rest : Bytes) :
    uint64decodeK (uint64encode x ++ rest) = some (x, (uint64encode x).length) := by
  have hread : decodeFrom (uint64encode x ++ rest) 0 = some (x, rest) := uint64decode_encode x rest
  rw [uint64decodeK, decodeLoop_eq, hread, Option.map_some, List.length_append]
  simp

theorem uint32decodeK_encode (x : BitVec 32) (rest : Bytes) :
    uint32decodeK (uint32encode x ++ rest) = some (x, (uint32encode x).length) := by
  have hacc : (0 : BitVec 64).toNat = x.toNat / 2 ^ ((topGroup32 x + 1) * 7) * 128 := by
    rw [Nat.div_eq_of_lt (toNat_lt_topGroup32 x)]
    rfl
  have hread := decodeFrom_fillGroups (by decide) (by decide) x _ 0 hacc rest
  rw [uint32decodeK, uint64decodeK, uint32encode, decodeLoop_eq, hread, Option.map_some,
    Option.map_some, List.length_append]
  simp

/-- The bytes read bound the value: seven bits a byte, on top of those read before. -/
theorem toNat_lt_decodeLoop {z : Bytes} {i n m : Nat} {x y : BitVec 64}
    (hx : x.toNat < 2 ^ ((m + 1) * 7)) (h : decodeLoop z i x = some (y, i + n)) :
    y.toNat < 2 ^ ((m + n) * 7) := by
  have hroom : 2 ^ 7 ≤ 2 ^ ((m + 1) * 7) := Nat.pow_le_pow_right (by decide) (by omega)
  induction z generalizing i n m x with
  | nil => cases h
  | cons c z ih =>
      rw [decodeLoop] at h
      split at h
      next hcont =>
        have hn : ∃ n', n = n' + 1 := by
          rw [decodeLoop_eq, Option.map_eq_some_iff] at h
          obtain ⟨read, -, hread⟩ := h
          simp only [Prod.mk.injEq] at hread
          exact ⟨n - 1, by omega⟩
        obtain ⟨n', rfl⟩ := hn
        have hlow : ((c &&& 0x7f).toBitVec.setWidth 64).toNat < 2 ^ ((m + 1) * 7) := by
          have hmask : (c &&& 0x7f).toNat < 2 ^ 7 := by
            rw [UInt8.toNat_and]
            exact Nat.lt_of_le_of_lt Nat.and_le_right (by decide)
          rw [BitVec.toNat_setWidth]
          exact Nat.lt_of_le_of_lt (Nat.mod_le _ _) (Nat.lt_of_lt_of_le hmask hroom)
        have hor := Nat.or_lt_two_pow hx hlow
        have hnext : ((x ||| (c &&& 0x7f).toBitVec.setWidth 64) <<< 7).toNat
            < 2 ^ ((m + 1 + 1) * 7) := by
          have hpow : 2 ^ ((m + 1 + 1) * 7) = 2 ^ ((m + 1) * 7) * 2 ^ 7 := by
            rw [← Nat.pow_add]
            congr 1
            omega
          rw [BitVec.toNat_shiftLeft, Nat.shiftLeft_eq, BitVec.toNat_or, hpow]
          exact Nat.lt_of_le_of_lt (Nat.mod_le _ _) (Nat.mul_lt_mul_of_pos_right hor (by decide))
        have hgrow : 2 ^ 7 ≤ 2 ^ ((m + 1 + 1) * 7) := Nat.pow_le_pow_right (by decide) (by omega)
        have hlast := ih hnext (i := i + 1) (n := n') (by rw [h]; congr 2; omega) hgrow
        rwa [show m + 1 + n' = m + (n' + 1) by omega] at hlast
      next hlast =>
        simp only [Option.some.injEq, Prod.mk.injEq] at h
        have hn : n = 1 := by omega
        have hlow : (c.toBitVec.setWidth 64).toNat < 2 ^ ((m + 1) * 7) := by
          have hsmall : c.toNat < 2 ^ 7 := by
            rw [UInt8.le_iff_toNat_le] at hlast
            exact Nat.not_le.1 hlast
          rw [BitVec.toNat_setWidth]
          exact Nat.lt_of_le_of_lt (Nat.mod_le _ _) (Nat.lt_of_lt_of_le hsmall hroom)
        rw [← h.1, hn, BitVec.toNat_or]
        exact Nat.or_lt_two_pow hx hlow

/-! ## The label -/

theorem le_toNat_of_group {w : Nat} (hw : 7 ≤ w) {x : BitVec w} {c : Nat} (hc : group x c ≠ 0) :
    2 ^ (c * 7) ≤ x.toNat := by
  by_contra hlt
  apply hc
  apply UInt8.toNat_inj.mp
  rw [toNat_group hw, Nat.div_eq_of_lt (Nat.not_le.1 hlt)]
  rfl

theorem group_topGroup64 (x : BitVec 64) (hk : topGroup64 x ≠ 0) : group x (topGroup64 x) ≠ 0 := by
  revert hk
  unfold topGroup64
  split_ifs with h9 h8 h7 h6 h5 h4 h3 h2 h1
  · exact fun _ => h9.2
  · exact fun _ => h8.2
  · exact fun _ => h7.2
  · exact fun _ => h6.2
  · exact fun _ => h5.2
  · exact fun _ => h4.2
  · exact fun _ => h3.2
  · exact fun _ => h2.2
  · exact fun _ => h1.2
  · exact fun hk => absurd rfl hk

theorem group_topGroup32 (x : BitVec 32) (hk : topGroup32 x ≠ 0) : group x (topGroup32 x) ≠ 0 := by
  revert hk
  unfold topGroup32
  split_ifs with h4 h3 h2 h1
  · exact fun _ => h4
  · exact fun _ => h3
  · exact fun _ => h2
  · exact fun _ => h1
  · exact fun hk => absurd rfl hk

/-- Two labels that fit the same number are the same. -/
theorem topGroup_unique {n j k : Nat} (hj : n < 2 ^ ((j + 1) * 7)) (hk : n < 2 ^ ((k + 1) * 7))
    (hj0 : j ≠ 0 → 2 ^ (j * 7) ≤ n) (hk0 : k ≠ 0 → 2 ^ (k * 7) ≤ n) : j = k := by
  have hle : ∀ {a b : Nat}, n < 2 ^ ((b + 1) * 7) → (a ≠ 0 → 2 ^ (a * 7) ≤ n) → a ≤ b := by
    intro a b hb ha
    by_contra hlt
    have hpow : 2 ^ (a * 7) < 2 ^ ((b + 1) * 7) := Nat.lt_of_le_of_lt (ha (by omega)) hb
    have hexp := (Nat.pow_lt_pow_iff_right (by decide)).1 hpow
    omega
  exact Nat.le_antisymm (hle hk hj0) (hle hj hk0)

theorem group_setWidth (x : BitVec 32) (c : Nat) : group (x.setWidth 64) c = group x c := by
  apply UInt8.toNat_inj.mp
  rw [toNat_group (by decide), toNat_group (by decide), BitVec.toNat_setWidth,
    Nat.mod_eq_of_lt (Nat.lt_trans x.isLt (by decide))]

theorem topGroup64_setWidth (x : BitVec 32) : topGroup64 (x.setWidth 64) = topGroup32 x := by
  have hnat : (x.setWidth 64).toNat = x.toNat := by
    rw [BitVec.toNat_setWidth, Nat.mod_eq_of_lt (Nat.lt_trans x.isLt (by decide))]
  apply topGroup_unique (n := x.toNat)
  · rw [← hnat]
    exact toNat_lt_topGroup64 _
  · exact toNat_lt_topGroup32 x
  · intro hk
    rw [← hnat]
    exact le_toNat_of_group (by decide) (group_topGroup64 _ hk)
  · intro hk
    exact le_toNat_of_group (by decide) (group_topGroup32 x hk)

theorem fillGroups_setWidth (x : BitVec 32) (k : Nat) :
    fillGroups (x.setWidth 64) k = fillGroups x k := by
  induction k with
  | zero => rw [fillGroups, fillGroups, group_setWidth]
  | succ k ih => rw [fillGroups, fillGroups, group_setWidth, ih]

theorem uint32encode_eq (x : BitVec 32) : uint32encode x = uint64encode (x.setWidth 64) := by
  rw [uint32encode, uint64encode, topGroup64_setWidth, fillGroups_setWidth]

/-! ## The shape of what is written -/

theorem group_lt {w : Nat} (hw : 7 ≤ w) (x : BitVec w) (c : Nat) : group x c < 0x80 := by
  rw [UInt8.lt_iff_toNat_lt, toNat_group hw]
  exact Nat.mod_lt _ (by decide)

/-- The last byte of a number is the one with a clear top bit. -/
theorem fillGroups_split {w : Nat} (hw : 7 ≤ w) (x : BitVec w) (k : Nat) :
    ∃ front, fillGroups x k = front ++ [group x 0] ∧ ∀ b ∈ front, 0x80 ≤ b := by
  induction k with
  | zero => exact ⟨[], rfl, fun b hb => absurd hb List.not_mem_nil⟩
  | succ k ih =>
      obtain ⟨front, heq, hhigh⟩ := ih
      refine ⟨(group x (k + 1) ||| 0x80) :: front, by rw [fillGroups, heq, List.cons_append], ?_⟩
      intro b hb
      rcases List.mem_cons.1 hb with rfl | hb
      · have hlt := group_lt hw x (k + 1)
        rw [UInt8.lt_iff_toNat_lt] at hlt
        rw [UInt8.le_iff_toNat_le, toNat_or_high hlt]
        exact Nat.le_add_left _ _
      · exact hhigh b hb

theorem head_fillGroups {w : Nat} (hw : 7 ≤ w) {x : BitVec w} {k : Nat}
    (hk : k ≠ 0 → group x k ≠ 0) : (fillGroups x k).head? ≠ some 0x80 := by
  cases k with
  | zero =>
      have hlt := group_lt hw x 0
      intro h
      rw [fillGroups, List.head?_cons, Option.some.injEq] at h
      rw [h] at hlt
      exact absurd hlt (by decide)
  | succ k =>
      have hlt := group_lt hw x (k + 1)
      rw [UInt8.lt_iff_toNat_lt] at hlt
      intro h
      rw [fillGroups, List.head?_cons, Option.some.injEq] at h
      have hnat := congrArg UInt8.toNat h
      rw [toNat_or_high hlt, show (0x80 : UInt8).toNat = 128 by rfl] at hnat
      apply hk (Nat.succ_ne_zero k)
      apply UInt8.toNat_inj.mp
      rw [show (0 : UInt8).toNat = 0 by rfl]
      omega

theorem length_uint64encode_le {x : BitVec 64} {z : Bytes} {n : Nat}
    (h : uint64decodeK z = some (x, n)) : (uint64encode x).length ≤ n := by
  rw [uint64encode, length_fillGroups]
  by_cases hk : topGroup64 x = 0
  · rw [uint64decodeK, decodeLoop_eq, Option.map_eq_some_iff] at h
    obtain ⟨read, hfrom, hread⟩ := h
    have hlt := length_decodeFrom hfrom
    simp only [Prod.mk.injEq] at hread
    omega
  · have hlow := le_toNat_of_group (by decide) (group_topGroup64 x hk)
    have hhigh : x.toNat < 2 ^ ((0 + n) * 7) := by
      apply toNat_lt_decodeLoop (z := z) (i := 0) (x := 0) (by decide)
      rw [Nat.zero_add]
      exact h
    have hexp := (Nat.pow_lt_pow_iff_right (by decide)).1 (Nat.lt_of_le_of_lt hlow hhigh)
    omega

theorem varint64_codec (x : BitVec 64) :
    ∃ front last, uint64encode x = front ++ [last] ∧ front.length + 1 ≤ 10 ∧
      (∀ b ∈ front, 0x80 ≤ b) ∧ last < 0x80 ∧ (uint64encode x).head? ≠ some 0x80 ∧
      (∀ z n, uint64decodeK z = some (x, n) → (uint64encode x).length ≤ n) ∧
      ∀ rest, uint64decodeK (uint64encode x ++ rest) = some (x, (uint64encode x).length) := by
  obtain ⟨front, heq, hhigh⟩ := fillGroups_split (by decide) x (topGroup64 x)
  have hlen : front.length + 1 ≤ 10 := by
    have hle := length_uint64encode x
    rwa [uint64encode, heq, List.length_append, List.length_singleton] at hle
  refine ⟨front, group x 0, heq, hlen, hhigh, group_lt (by decide) x 0, ?_, ?_, ?_⟩
  · exact head_fillGroups (by decide) (group_topGroup64 x)
  · intro z n h
    exact length_uint64encode_le h
  · exact uint64decodeK_encode x

/-- Both encoders write the same bytes, which the 32-bit decoder reads. -/
theorem varint32_agrees (x : BitVec 32) :
    uint32encode x = uint64encode (x.setWidth 64) ∧ (uint32encode x).length ≤ 5 ∧
      ∀ rest, uint32decodeK (uint32encode x ++ rest) = some (x, (uint32encode x).length) := by
  refine ⟨uint32encode_eq x, length_uint32encode x, ?_⟩
  exact uint32decodeK_encode x

/-! ## Signed integers -/

theorem sint64decodeK_encode (i : YmdInt) (rest : Bytes) :
    sint64decodeK (sint64encode i ++ rest)
      = some (zigzag64decode (zigzag64encode i), (sint64encode i).length) := by
  rw [sint64decodeK, sint64encode, uint64decodeK_encode, Option.map_some]

theorem sint32decodeK_encode (i : BitVec 32) (rest : Bytes) :
    sint32decodeK (sint32encode i ++ rest)
      = some (zigzag32decode (zigzag32encode i), (sint32encode i).length) := by
  rw [sint32decodeK, sint32encode, uint32decodeK_encode, Option.map_some]

/-- The negation of the smallest integer wraps around: its sign bit is shifted
out, and it is read back as zero. -/
theorem signed_varint_codec (i : YmdInt) (j : BitVec 32) (rest : Bytes) :
    (sint64decodeK (sint64encode i ++ rest) = some (i, (sint64encode i).length) ↔
      i ≠ BitVec.intMin 64) ∧
    (sint32decodeK (sint32encode j ++ rest) = some (j, (sint32encode j).length) ↔
      j ≠ BitVec.intMin 32) := by
  constructor
  · rw [sint64decodeK_encode, Option.some.injEq, Prod.mk.injEq]
    constructor
    · rintro ⟨hback, -⟩ rfl
      exact absurd hback (by decide)
    · intro hi
      exact ⟨zigzag64decode_encode hi, rfl⟩
  · rw [sint32decodeK_encode, Option.some.injEq, Prod.mk.injEq]
    constructor
    · rintro ⟨hback, -⟩ rfl
      exact absurd hback (by decide)
    · intro hj
      exact ⟨zigzag32decode_encode hj, rfl⟩

/-- The smallest integers of both widths do not come back. -/
theorem signed_varint_intMin :
    ¬ ((∀ (i : YmdInt) (rest : Bytes), sint64decodeK (sint64encode i ++ rest)
        = some (i, (sint64encode i).length)) ∧
      ∀ (i : BitVec 32) (rest : Bytes), sint32decodeK (sint32encode i ++ rest)
        = some (i, (sint32encode i).length)) := by
  intro h
  have hmin := h.1 (BitVec.intMin 64) []
  rw [sint64decodeK_encode, Option.some.injEq, Prod.mk.injEq] at hmin
  exact absurd hmin.1 (by decide)

end Ymd
