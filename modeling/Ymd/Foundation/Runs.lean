import Mathlib.Tactic.Common

/-! # Guarded runs of a labelled transition system

A run makes steps that are allowed by a guard on the state in front of them. An
invariant has to survive the allowed steps only.
-/

namespace Ymd.Foundation

variable {σ α : Type} {step : σ → α → σ → Prop} {guard : σ → α → Prop}

/-- Runs of `step` whose steps all meet `guard`. -/
inductive Runs (step : σ → α → σ → Prop) (guard : σ → α → Prop) (s : σ) : σ → Prop
  | refl : Runs step guard s s
  | tail {t u : σ} {a : α} (hrun : Runs step guard s t) (hguard : guard t a) (hstep : step t a u) :
      Runs step guard s u

namespace Runs

theorem single {s t : σ} {a : α} (hguard : guard s a) (hstep : step s a t) :
    Runs step guard s t :=
  .tail .refl hguard hstep

theorem trans {s t u : σ} (hst : Runs step guard s t) (htu : Runs step guard t u) :
    Runs step guard s u := by
  induction htu with
  | refl => exact hst
  | tail _ hguard hstep ih => exact .tail ih hguard hstep

theorem mono {guard' : σ → α → Prop} (hguards : ∀ t a, guard t a → guard' t a) {s t : σ}
    (hrun : Runs step guard s t) : Runs step guard' s t := by
  induction hrun with
  | refl => exact .refl
  | tail _ hguard hstep ih => exact .tail ih (hguards _ _ hguard) hstep

/-- What every allowed step preserves holds in every state reached. -/
theorem invariant {inv : σ → Prop}
    (hpreserved : ∀ t a u, inv t → guard t a → step t a u → inv u)
    {s t : σ} (hrun : Runs step guard s t) (hs : inv s) : inv t := by
  induction hrun with
  | refl => exact hs
  | tail _ hguard hstep ih => exact hpreserved _ _ _ ih hguard hstep

/-- The same under an invariant that is known already. -/
theorem invariant_of {known inv : σ → Prop}
    (hknown : ∀ t a u, known t → guard t a → step t a u → known u)
    (hpreserved : ∀ t a u, known t → known u → inv t → guard t a → step t a u → inv u)
    {s t : σ} (hrun : Runs step guard s t) (hs : known s) (hinv : inv s) : inv t := by
  have hboth : (fun u => known u ∧ inv u) t := by
    apply hrun.invariant ?_ ⟨hs, hinv⟩
    intro t a u ⟨hkt, hit⟩ hguard hstep
    have hku := hknown t a u hkt hguard hstep
    exact ⟨hku, hpreserved t a u hkt hku hit hguard hstep⟩
  exact hboth.2

end Runs

end Ymd.Foundation
