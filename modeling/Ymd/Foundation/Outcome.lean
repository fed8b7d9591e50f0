import Mathlib.Tactic.Common

/-! # Computations that keep their state when they stop

Sequencing lemmas for state monads with errors: a sequence succeeds when its
parts do, one after the other. `Keeps` is a relation between the states in front
of and behind a computation, however it ends.
-/

namespace Ymd.Foundation

variable {ε σ α β : Type} {x : EStateM ε σ α} {f : α → EStateM ε σ β}

theorem bind_ok_iff {s s'' : σ} {b : β} :
    (x >>= f) s = .ok b s'' ↔ ∃ a s', x s = .ok a s' ∧ f a s' = .ok b s'' := by
  change (EStateM.bind x f s = _) ↔ _
  unfold EStateM.bind
  cases x s with
  | ok a s' => simp
  | error e s' => simp

theorem bind_of_ok {s s' : σ} {a : α} (hx : x s = .ok a s') : (x >>= f) s = f a s' := by
  change EStateM.bind x f s = _
  unfold EStateM.bind
  rw [hx]

theorem bind_of_error {s s' : σ} {e : ε} (hx : x s = .error e s') :
    (x >>= f) s = .error e s' := by
  change EStateM.bind x f s = _
  unfold EStateM.bind
  rw [hx]

theorem pure_ok_iff {s s' : σ} {a b : α} :
    (pure a : EStateM ε σ α) s = .ok b s' ↔ a = b ∧ s = s' := by
  change EStateM.Result.ok a s = _ ↔ _
  simp

@[simp] theorem pure_apply (a : α) (s : σ) : (pure a : EStateM ε σ α) s = .ok a s := rfl

@[simp] theorem throw_apply (e : ε) (s : σ) : (throw e : EStateM ε σ α) s = .error e s := rfl

@[simp] theorem get_apply (s : σ) : (get : EStateM ε σ σ) s = .ok s s := rfl

@[simp] theorem set_apply (s s' : σ) : (set s' : EStateM ε σ PUnit) s = .ok () s' := rfl

@[simp] theorem modify_apply (g : σ → σ) (s : σ) :
    (modify g : EStateM ε σ PUnit) s = .ok () (g s) := rfl

/-- A state that is lost with an error. -/
theorem stateT_bind_of_ok {x : StateT σ (Except ε) α} {f : α → StateT σ (Except ε) β} {s s' : σ}
    {a : α} (hx : x s = .ok (a, s')) : (x >>= f) s = f a s' := by
  change StateT.bind x f s = _
  unfold StateT.bind
  rw [hx]
  rfl

theorem stateT_lift_of_ok {x : Except ε α} {a : α} (hx : x = .ok a) (s : σ) :
    (liftM x : StateT σ (Except ε) α) s = .ok (a, s) := by
  rw [hx]
  rfl

theorem stateT_bind_of_error {x : StateT σ (Except ε) α} {f : α → StateT σ (Except ε) β} {s : σ}
    {e : ε} (hx : x s = .error e) : (x >>= f) s = .error e := by
  change StateT.bind x f s = _
  unfold StateT.bind
  rw [hx]
  rfl

theorem stateT_bind_ok_iff {x : StateT σ (Except ε) α} {f : α → StateT σ (Except ε) β} {s s'' : σ}
    {b : β} : (x >>= f) s = .ok (b, s'') ↔ ∃ a s', x s = .ok (a, s') ∧ f a s' = .ok (b, s'') := by
  change StateT.bind x f s = _ ↔ _
  unfold StateT.bind
  cases hx : x s with
  | ok r =>
      constructor
      · exact fun h => ⟨r.1, r.2, rfl, h⟩
      · rintro ⟨a, s', heq, hrun⟩
        cases heq
        exact hrun
  | error e =>
      constructor
      · rintro ⟨⟩
      · rintro ⟨_, _, heq, _⟩
        cases heq

/-- The same without a state. -/
theorem except_bind_of_ok {x : Except ε α} {f : α → Except ε β} {a : α} (hx : x = .ok a) :
    (x >>= f) = f a := by
  rw [hx]
  rfl

theorem except_bind_ok_iff {x : Except ε α} {f : α → Except ε β} {b : β} :
    (x >>= f) = .ok b ↔ ∃ a, x = .ok a ∧ f a = .ok b := by
  change Except.bind x f = _ ↔ _
  unfold Except.bind
  cases x with
  | ok a => simp
  | error e => simp

/-! ## Relations that every outcome keeps -/

/-- The state behind a computation. -/
def stateOf : EStateM.Result ε σ α → σ
  | .ok _ s => s
  | .error _ s => s

/-- Whatever the outcome, the states in front of and behind it are related. -/
def Keeps (rel : σ → σ → Prop) (x : EStateM ε σ α) : Prop := ∀ s, rel s (stateOf (x s))

namespace Keeps

variable {rel : σ → σ → Prop}

theorem ok (hx : Keeps rel x) {s s' : σ} {a : α} (h : x s = .ok a s') : rel s s' := by
  have hs := hx s
  rwa [h] at hs

theorem error (hx : Keeps rel x) {s s' : σ} {e : ε} (h : x s = .error e s') : rel s s' := by
  have hs := hx s
  rwa [h] at hs

theorem mono {rel' : σ → σ → Prop} (himp : ∀ s t, rel s t → rel' s t) (hx : Keeps rel x) :
    Keeps rel' x :=
  fun s => himp _ _ (hx s)

theorem pure (hrefl : ∀ s, rel s s) (a : α) : Keeps rel (pure a : EStateM ε σ α) :=
  fun s => hrefl s

theorem throw (hrefl : ∀ s, rel s s) (e : ε) : Keeps rel (throw e : EStateM ε σ α) :=
  fun s => hrefl s

theorem get (hrefl : ∀ s, rel s s) : Keeps rel (MonadState.get : EStateM ε σ σ) :=
  fun s => hrefl s

theorem bind_of (htrans : ∀ s t u, rel s t → rel t u → rel s u) (hx : Keeps rel x)
    (hf : ∀ s a s', x s = .ok a s' → rel s' (stateOf (f a s'))) : Keeps rel (x >>= f) := by
  intro s
  cases hxs : x s with
  | ok a s' =>
      rw [bind_of_ok hxs]
      exact htrans _ _ _ (hx.ok hxs) (hf s a s' hxs)
  | error e s' =>
      rw [bind_of_error hxs]
      exact hx.error hxs

theorem bind (htrans : ∀ s t u, rel s t → rel t u → rel s u) (hx : Keeps rel x)
    (hf : ∀ a, Keeps rel (f a)) : Keeps rel (x >>= f) :=
  bind_of htrans hx fun _ a s' _ => hf a s'

theorem ite {c : Prop} [Decidable c] {y z : EStateM ε σ α} (hy : c → Keeps rel y)
    (hz : ¬ c → Keeps rel z) : Keeps rel (if c then y else z) := by
  by_cases hc : c
  · rw [if_pos hc]
    exact hy hc
  · rw [if_neg hc]
    exact hz hc

end Keeps

/-! ## Results -/

/-- Every result of a computation has a property. -/
def Gives (post : α → Prop) (x : EStateM ε σ α) : Prop := ∀ s a s', x s = .ok a s' → post a

namespace Gives

variable {post : β → Prop}

theorem pure {b : β} (h : post b) : Gives post (pure b : EStateM ε σ β) := by
  intro s b' s' hrun
  rwa [← (pure_ok_iff.1 hrun).1]

theorem throw (e : ε) : Gives post (throw e : EStateM ε σ β) := by
  intro s b s' hrun
  cases hrun

theorem bind (hf : ∀ a, Gives post (f a)) : Gives post (x >>= f) := by
  intro s b s'' hrun
  obtain ⟨a, s', _, hrest⟩ := bind_ok_iff.1 hrun
  exact hf a s' b s'' hrest

theorem ite {c : Prop} [Decidable c] {y z : EStateM ε σ β} (hy : Gives post y)
    (hz : Gives post z) : Gives post (if c then y else z) := by
  by_cases hc : c
  · rw [if_pos hc]
    exact hy
  · rw [if_neg hc]
    exact hz

end Gives

end Ymd.Foundation
