import Mathlib.Data.List.Lex
import Mathlib.Order.Lattice

/-! # Prefix codes and the lexicographic order

No word of a prefix code is the beginning of another one, so the order of two
words does not depend on what follows them.
-/

namespace Ymd.Foundation

variable {ι α : Type*}

/-- Decoding the first word of a text is unambiguous. -/
def PrefixFree (code : ι → List α) : Prop :=
  ∀ a b s t, code a ++ s = code b ++ t → a = b

theorem PrefixFree.injective {code : ι → List α} (hcode : PrefixFree code) :
    Function.Injective code := fun a b heq => hcode a b [] [] (by rw [heq])

variable [LinearOrder α]

theorem append_lt_append_of_lt {u v : List α} (hlt : u < v) (hsplit : ∀ w, v ≠ u ++ w)
    (s t : List α) : u ++ s < v ++ t := by
  induction u generalizing v with
  | nil => exact absurd (List.nil_append v).symm (hsplit v)
  | cons x u ih =>
      cases v with
      | nil => exact absurd hlt (List.not_lt_nil _)
      | cons y v =>
          rw [List.cons_append, List.cons_append, List.cons_lt_cons_iff]
          obtain hxy | ⟨rfl, huv⟩ := List.cons_lt_cons_iff.mp hlt
          · exact Or.inl hxy
          · refine Or.inr ⟨rfl, ih huv fun w hw => hsplit w ?_⟩
            rw [List.cons_append, hw]

theorem append_lt_append_left_iff (u s t : List α) : u ++ s < u ++ t ↔ s < t := by
  induction u with
  | nil => rfl
  | cons x u ih => simp [ih]

theorem PrefixFree.append_lt_append {code : ι → List α} (hcode : PrefixFree code) {a b : ι}
    (hlt : code a < code b) (s t : List α) : code a ++ s < code b ++ t := by
  refine append_lt_append_of_lt hlt (fun w hw => ?_) s t
  have hab : b = a := hcode b a [] w (by rw [List.append_nil, hw])
  exact absurd hlt (hab ▸ lt_irrefl _)

end Ymd.Foundation
