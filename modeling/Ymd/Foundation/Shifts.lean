import Mathlib.Algebra.BigOperators.Group.List.Basic
import Mathlib.Algebra.Order.Ring.Int
import Mathlib.Data.List.Infix

/-! # Words under shifts

A word that is shifted up and down many times. A bit moves with every shift and is
lost for good where it leaves the word, so that what is left depends on how far
the shifts together have ever gone in each direction.
-/

namespace Ymd.Foundation

variable {w : Nat}

/-- A shift of `d` places: upwards, or downwards where `d` is negative. -/
def shiftBy : (d : Int) → BitVec w → BitVec w
  | .ofNat n, x => x <<< n
  | .negSucc n, x => x >>> (n + 1)

/-- The shifts of a list, the newest first. -/
def shifts (ds : List Int) (x : BitVec w) : BitVec w := ds.foldr shiftBy x

/-- The bit at `j` stays inside a word of `w` bits under all shifts. -/
def Stays (w : Nat) (ds : List Int) (j : Nat) : Prop :=
  ∀ t ∈ ds.tails, 0 ≤ j + t.sum ∧ j + t.sum < w

theorem stays_map {α : Type} (f : α → Int) (cs : List α) (j : Nat) :
    Stays w (cs.map f) j ↔
      ∀ early ∈ cs.tails, 0 ≤ j + (early.map f).sum ∧ j + (early.map f).sum < w := by
  unfold Stays
  induction cs with
  | nil => simp
  | cons c cs ih =>
      rw [List.map_cons, List.tails_cons, List.tails_cons, List.forall_mem_cons,
        List.forall_mem_cons, ih, List.map_cons]

theorem getLsbD_shiftBy (d : Int) (x : BitVec w) (i : Nat) :
    (shiftBy d x).getLsbD i = true ↔ i < w ∧ ∃ j : Nat, x.getLsbD j = true ∧ j + d = i := by
  cases d with
  | ofNat n =>
      simp only [shiftBy, BitVec.getLsbD_shiftLeft, Bool.and_eq_true, decide_eq_true_eq,
        Bool.not_eq_true', decide_eq_false_iff_not, Int.ofNat_eq_natCast]
      constructor
      · rintro ⟨⟨hi, hn⟩, hbit⟩
        exact ⟨hi, i - n, hbit, by omega⟩
      · rintro ⟨hi, j, hbit, hj⟩
        obtain rfl : i = j + n := by omega
        exact ⟨⟨hi, by omega⟩, by simpa using hbit⟩
  | negSucc n =>
      simp only [shiftBy, BitVec.getLsbD_ushiftRight]
      constructor
      · intro hbit
        have hlt := BitVec.lt_of_getLsbD hbit
        exact ⟨by omega, _, hbit, by omega⟩
      · rintro ⟨_, j, hbit, hj⟩
        obtain rfl : j = n + 1 + i := by omega
        exact hbit

/-- The bits of a word after shifts are those that stayed inside. -/
theorem getLsbD_shifts (ds : List Int) (x : BitVec w) (i : Nat) :
    (shifts ds x).getLsbD i = true ↔
      ∃ j : Nat, x.getLsbD j = true ∧ j + ds.sum = i ∧ Stays w ds j := by
  induction ds generalizing i with
  | nil =>
      simp only [shifts, List.foldr_nil, Stays, List.tails, List.mem_singleton, forall_eq,
        List.sum_nil]
      constructor
      · intro hbit
        have hlt := BitVec.lt_of_getLsbD hbit
        exact ⟨i, hbit, by omega, by omega, by omega⟩
      · rintro ⟨j, hbit, hj, _⟩
        obtain rfl : i = j := by omega
        exact hbit
  | cons d ds ih =>
      have hstays : ∀ j, Stays w (d :: ds) j ↔
          (0 ≤ (j : Int) + (d + ds.sum) ∧ (j : Int) + (d + ds.sum) < w) ∧ Stays w ds j := by
        intro j
        simp only [Stays, List.tails, List.forall_mem_cons, List.sum_cons]
      simp only [shifts, List.foldr_cons, List.sum_cons, hstays]
      rw [getLsbD_shiftBy]
      constructor
      · rintro ⟨hi, k, hbit, hk⟩
        obtain ⟨j, hj, hsum, hin⟩ := (ih k).1 hbit
        exact ⟨j, hj, by omega, ⟨by omega, by omega⟩, hin⟩
      · rintro ⟨j, hj, hsum, ⟨hlow, hhigh⟩, hin⟩
        have hnow := hin ds ((List.mem_tails _ _).2 (List.suffix_refl _))
        obtain ⟨k, hk⟩ := Int.eq_ofNat_of_zero_le hnow.1
        exact ⟨by omega, k, (ih k).2 ⟨j, hj, hk, hin⟩, by omega⟩

/-- A word is not shifted to zero exactly when one of its bits stays inside. -/
theorem shifts_ne_zero_iff (ds : List Int) (x : BitVec w) :
    shifts ds x ≠ 0 ↔ ∃ j : Nat, x.getLsbD j = true ∧ Stays w ds j := by
  constructor
  · intro hne
    obtain ⟨i, hi⟩ : ∃ i, (shifts ds x).getLsbD i = true := by
      by_contra hno
      apply hne
      apply BitVec.eq_of_getLsbD_eq
      intro i _
      simpa using not_exists.1 hno i
    obtain ⟨j, hj, _, hin⟩ := (getLsbD_shifts ds x i).1 hi
    exact ⟨j, hj, hin⟩
  · rintro ⟨j, hj, hin⟩ hzero
    have hnow := hin ds ((List.mem_tails _ _).2 (List.suffix_refl _))
    obtain ⟨i, hi⟩ := Int.eq_ofNat_of_zero_le hnow.1
    have hbit := (getLsbD_shifts ds x i).2 ⟨j, hj, hi, hin⟩
    rw [hzero] at hbit
    simp at hbit

end Ymd.Foundation
