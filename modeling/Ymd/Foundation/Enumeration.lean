import Mathlib.Tactic.Common

/-! # Answered to repeated calls

A cursor is called again and again, each time in an environment of its own. It
enumerates a list if it answers with the elements in order and then, for ever,
with none.
-/

namespace Ymd.Foundation

variable {σ ε α : Type} {call : σ → ε → Option α → σ → Prop}

/-- The calls in the environments of the list are answered by `f`. -/
def Answered (call : σ → ε → Option α → σ → Prop) : σ → (Nat → Option α) → List ε → Prop
  | _, _, [] => True
  | s, f, e :: rest =>
      ∃ s', call s e (f 0) s' ∧ Answered call s' (fun k => f (k + 1)) rest

/-- The elements of a list, and then none. -/
def Enumerates (call : σ → ε → Option α → σ → Prop) (s : σ) (as : List α) (es : List ε) : Prop :=
  Answered call s (fun k => as[k]?) es

/-- An invariant between a cursor and the elements to come, kept by every call. -/
theorem enumerates_of_invariant (inv : σ → List α → Prop) {valid : ε → Prop}
    (hnext : ∀ s a as e, inv s (a :: as) → valid e → ∃ s', call s e (some a) s' ∧ inv s' as)
    (hend : ∀ s e, inv s [] → valid e → ∃ s', call s e none s' ∧ inv s' [])
    {s : σ} {as : List α} {es : List ε} (hinv : inv s as) (hvalid : ∀ e ∈ es, valid e) :
    Enumerates call s as es := by
  induction es generalizing s as with
  | nil => trivial
  | cons e es ih =>
      rw [List.forall_mem_cons] at hvalid
      cases as with
      | nil =>
          obtain ⟨s', hcall, hinv'⟩ := hend s e hinv hvalid.1
          exact ⟨s', hcall, ih hinv' hvalid.2⟩
      | cons a as =>
          obtain ⟨s', hcall, hinv'⟩ := hnext s a as e hinv hvalid.1
          exact ⟨s', hcall, ih hinv' hvalid.2⟩

/-- A cursor that does not move once it has ended. -/
theorem enumerates_nil {valid : ε → Prop} {s : σ} (hend : ∀ e, valid e → call s e none s)
    {es : List ε} (hvalid : ∀ e ∈ es, valid e) : Enumerates call s [] es := by
  apply enumerates_of_invariant (fun t as => t = s ∧ as = []) ?_ ?_ ⟨rfl, rfl⟩ hvalid
  · rintro t a as e ⟨-, h⟩
    cases h
  · rintro t e ⟨rfl, -⟩ he
    exact ⟨t, hend e he, rfl, rfl⟩

end Ymd.Foundation
