import Mathlib.Data.Nat.Digits.Defs

/-! # Positional numerals

A numeral is read from its highest digit on. Its digits from the lowest on are
those of `Nat.ofDigits`, and in a base that is a power of two every digit has
bits of its own.
-/

namespace Ymd.Foundation

/-- The number that digits spell, the highest first. -/
def numeral (base : Nat) (ds : List Nat) : Nat := ds.foldl (fun n d => base * n + d) 0

theorem numeral_eq (base : Nat) (ds : List Nat) :
    numeral base ds = Nat.ofDigits base ds.reverse := by
  rw [Nat.ofDigits_eq_foldr, List.foldr_reverse, numeral]
  congr
  funext n d
  exact Nat.add_comm _ _

theorem testBit_ofDigits {k : Nat} (hk : 0 < k) {ds : List Nat} (hds : ∀ d ∈ ds, d < 2 ^ k)
    (b : Nat) : (Nat.ofDigits (2 ^ k) ds).testBit b = (ds.getD (b / k) 0).testBit (b % k) := by
  induction ds generalizing b with
  | nil => simp
  | cons d ds ih =>
      rw [List.forall_mem_cons] at hds
      rw [Nat.ofDigits_cons, Nat.add_comm, Nat.testBit_two_pow_mul_add _ hds.1]
      by_cases hb : b < k
      · rw [if_pos hb, Nat.div_eq_of_lt hb, Nat.mod_eq_of_lt hb, List.getD_cons_zero]
      · have hle := Nat.not_lt.1 hb
        have hdiv : b / k = (b - k) / k + 1 := by
          rw [← Nat.add_div_right _ hk, Nat.sub_add_cancel hle]
        have hmod : b % k = (b - k) % k := Nat.mod_eq_sub_mod hle
        rw [if_neg hb, ih hds.2, hdiv, hmod, List.getD_cons_succ]

end Ymd.Foundation
