import Ymd.Foundation.Outcome

/-! # What computations may stop with

A property of every error that a computation can end with, without a state, in one
state, or in any. Sequences and branches have it when their parts do.
-/

namespace Ymd.Foundation

variable {ε σ α β : Type} {post : ε → Prop}

/-! ## Without a state -/

def Raises (post : ε → Prop) (x : Except ε α) : Prop := ∀ e, x = .error e → post e

namespace Raises

variable {x y : Except ε α} {f : α → Except ε β}

theorem pure (a : α) : Raises post (pure a : Except ε α) := nofun

theorem throw {e : ε} (he : post e) : Raises post (throw e : Except ε α) := by
  rintro _ ⟨⟩
  exact he

theorem bind (hx : Raises post x) (hf : ∀ a, Raises post (f a)) : Raises post (x >>= f) := by
  cases x with
  | ok a => exact hf a
  | error e =>
      rintro _ ⟨⟩
      exact hx e rfl

theorem ite {c : Prop} [Decidable c] (hx : Raises post x) (hy : Raises post y) :
    Raises post (if c then x else y) := by
  by_cases hc : c
  · rw [if_pos hc]
    exact hx
  · rw [if_neg hc]
    exact hy

theorem foldlM {f : β → α → Except ε β} (hf : ∀ b a, Raises post (f b a)) (as : List α) (b : β) :
    Raises post (as.foldlM f b) := by
  induction as generalizing b with
  | nil => exact pure b
  | cons a as ih => exact bind (hf b a) ih

end Raises

/-! ## With a state -/

def ThrowsAt (post : ε → Prop) (x : EStateM ε σ α) (s : σ) : Prop :=
  ∀ e s', x s = .error e s' → post e

/-- Whatever the state is. -/
def Throws (post : ε → Prop) (x : EStateM ε σ α) : Prop := ∀ s, ThrowsAt post x s

theorem ThrowsAt.of_ok {x : EStateM ε σ α} {s s' : σ} {a : α} (h : x s = .ok a s') :
    ThrowsAt post x s := by
  intro e s'' hrun
  rw [h] at hrun
  cases hrun

theorem ThrowsAt.of_error {x : EStateM ε σ α} {s s' : σ} {e : ε} (h : x s = .error e s')
    (he : post e) : ThrowsAt post x s := by
  intro e' s'' hrun
  rw [h] at hrun
  cases hrun
  exact he

theorem ThrowsAt.bind {x : EStateM ε σ α} {f : α → EStateM ε σ β} {s : σ} (hx : ThrowsAt post x s)
    (hf : ∀ a s', x s = .ok a s' → ThrowsAt post (f a) s') : ThrowsAt post (x >>= f) s := by
  intro e s'' hrun
  cases hxs : x s with
  | ok a s' =>
      rw [bind_of_ok hxs] at hrun
      exact hf a s' hxs e s'' hrun
  | error e' s' =>
      rw [bind_of_error hxs] at hrun
      cases hrun
      exact hx _ _ hxs

namespace Throws

variable {x y : EStateM ε σ α} {f : α → EStateM ε σ β}

theorem pure (a : α) : Throws post (pure a : EStateM ε σ α) := fun _ => .of_ok rfl

theorem get : Throws post (MonadState.get : EStateM ε σ σ) := fun _ => .of_ok rfl

theorem set (s : σ) : Throws post (MonadState.set s : EStateM ε σ PUnit) := fun _ => .of_ok rfl

theorem modify (g : σ → σ) : Throws post (modify g : EStateM ε σ PUnit) := fun _ => .of_ok rfl

theorem throw {e : ε} (he : post e) : Throws post (throw e : EStateM ε σ α) := by
  rintro s _ _ ⟨⟩
  exact he

theorem bind (hx : Throws post x) (hf : ∀ a, Throws post (f a)) : Throws post (x >>= f) :=
  fun s => (hx s).bind fun a s' _ => hf a s'

theorem ite {c : Prop} [Decidable c] (hx : Throws post x) (hy : Throws post y) :
    Throws post (if c then x else y) := by
  by_cases hc : c
  · rw [if_pos hc]
    exact hx
  · rw [if_neg hc]
    exact hy

end Throws

end Ymd.Foundation
