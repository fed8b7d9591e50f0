import Ymd.Foundation.Outcome
import Ymd.Foundation.Runs

/-! # Computations carried out by a transition system

A computation with errors says what a piece of code means. A transition system
carries it out from the configurations `pre` allows: where the computation gives `a`,
it gets to a configuration that `post` allows, and where the computation stops with
an error, to one that stops with the same error. Sequences of code follow sequences
of computations.
-/

namespace Ymd.Foundation

variable {ε σ κ ι α β : Type}

section

variable (step : κ → ι → κ → Prop) (guard : κ → ι → Prop) (stops : ε → σ → κ → Prop)
  (inv : σ → Prop)

/-- From `k` the system gets to where the result leads. -/
def CarriesOut (k : κ) (post : α → σ → κ → Prop) : EStateM.Result ε σ α → Prop
  | .ok a s => inv s ∧ ∃ k', Runs step guard k k' ∧ post a s k'
  | .error e s => ∃ k', Runs step guard k k' ∧ stops e s k'

/-- The system carries out a computation; `inv` holds wherever it starts, and where it
ends. -/
def Realises (pre : σ → κ → Prop) (x : EStateM ε σ α) (post : α → σ → κ → Prop) : Prop :=
  ∀ s k, inv s → pre s k → CarriesOut step guard stops inv k post (x s)

end

section

variable {step : κ → ι → κ → Prop} {guard : κ → ι → Prop} {stops : ε → σ → κ → Prop}
  {inv : σ → Prop} {pre pre' : σ → κ → Prop} {mid mid' : α → σ → κ → Prop} {post : β → σ → κ → Prop}
  {k k' : κ} {r : EStateM.Result ε σ α} {x : EStateM ε σ α} {f : α → EStateM ε σ β}

theorem CarriesOut.after (hrun : Runs step guard k' k)
    (h : CarriesOut step guard stops inv k mid r) : CarriesOut step guard stops inv k' mid r := by
  cases r with
  | ok a s =>
      obtain ⟨hs, k'', hto, hpost⟩ := h
      exact ⟨hs, k'', hrun.trans hto, hpost⟩
  | error e s =>
      obtain ⟨k'', hto, hstops⟩ := h
      exact ⟨k'', hrun.trans hto, hstops⟩

namespace Realises

theorem pure {b : β}
    (hrun : ∀ s k, inv s → pre s k → ∃ k', Runs step guard k k' ∧ post b s k') :
    Realises step guard stops inv pre (pure b) post :=
  fun s k hs hk => ⟨hs, hrun s k hs hk⟩

/-- The system does something first that means nothing. -/
theorem after
    (hrun : ∀ s k, inv s → pre' s k → ∃ k', Runs step guard k k' ∧ pre s k')
    (hx : Realises step guard stops inv pre x mid) : Realises step guard stops inv pre' x mid := by
  intro s k hs hk
  obtain ⟨k', hto, hk'⟩ := hrun s k hs hk
  exact (hx s k' hs hk').after hto

theorem bind_of (hx : Realises step guard stops inv pre x mid)
    (hf : ∀ s a s', x s = .ok a s' → Realises step guard stops inv (mid a) (f a) post) :
    Realises step guard stops inv pre (x >>= f) post := by
  intro s k hs hk
  have hfirst := hx s k hs hk
  cases hxs : x s with
  | ok a s' =>
      rw [hxs] at hfirst
      obtain ⟨hs', k', hto, hmid⟩ := hfirst
      rw [bind_of_ok hxs]
      exact (hf s a s' hxs s' k' hs' hmid).after hto
  | error e s' =>
      rw [hxs] at hfirst
      rw [bind_of_error hxs]
      exact hfirst

theorem bind (hx : Realises step guard stops inv pre x mid)
    (hf : ∀ a, Realises step guard stops inv (mid a) (f a) post) :
    Realises step guard stops inv pre (x >>= f) post :=
  hx.bind_of fun _ a _ _ => hf a

/-- The system does something more when the computation has ended. -/
theorem onward
    (hrun : ∀ a s k, inv s → mid a s k → ∃ k', Runs step guard k k' ∧ mid' a s k')
    (hx : Realises step guard stops inv pre x mid) : Realises step guard stops inv pre x mid' := by
  intro s k hs hk
  have hout := hx s k hs hk
  cases hxs : x s with
  | ok a s' =>
      rw [hxs] at hout
      obtain ⟨hs', k', hto, hmid⟩ := hout
      obtain ⟨k'', hto', hmid'⟩ := hrun a s' k' hs' hmid
      exact ⟨hs', k'', hto.trans hto', hmid'⟩
  | error e s' =>
      rw [hxs] at hout
      exact hout

end Realises

end

end Ymd.Foundation
