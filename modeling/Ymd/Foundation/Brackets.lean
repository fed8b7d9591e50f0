import Mathlib.Data.List.Basic

/-! # Words of brackets

A word over tokens some of which open a bracket and ask for a closing token. A
fragment is a part of a word that is read with the closing tokens `d` due and leaves
`d'` due: it may be matched, or go wrong somewhere, and then it stays wrong whatever
follows.
-/

namespace Ymd.Foundation

/-- What opens a bracket, with the token that closes it, and what closes one. -/
structure Bracketing (τ : Type) where
  closer : τ → Option τ
  closes : τ → Bool

namespace Bracketing

variable {τ : Type} [DecidableEq τ] (B : Bracketing τ)

/-- The closing tokens that are due behind a token. -/
def step (due : List τ) (t : τ) : Option (List τ) :=
  match B.closer t with
  | some c => some (c :: due)
  | none =>
      if B.closes t = true then
        match due with
        | [] => none
        | c :: rest => if c = t then some rest else none
      else some due

def run (ts : List τ) (due : List τ) : Option (List τ) := ts.foldlM B.step due

/-- Every bracket is closed by its own token, in order. -/
def Balanced (ts : List τ) : Prop := B.run ts [] = some []

/-- At most what is due in front of the word gets closed in it. -/
def Fragment (d d' : List τ) (ts : List τ) : Prop :=
  ∀ w due, d.length ≤ w.length → B.run ts (w ++ due) = none ∨
    ∃ w', B.run ts (w ++ due) = some (w' ++ due) ∧ w.length + d'.length ≤ w'.length + d.length

def Matched (d d' : List τ) (ts : List τ) : Prop := ∀ due, B.run ts (d ++ due) = some (d' ++ due)

/-- Something is closed by another token, or not at all. -/
def Mismatched (d d' : List τ) (ts : List τ) : Prop :=
  ∀ due, B.run ts (d ++ due) = none ∨
    ∃ w', B.run ts (d ++ due) = some (w' ++ due) ∧ d'.length < w'.length

variable {B} {d d' d'' : List τ} {ts ts' : List τ} {t c : τ}

theorem run_append (due : List τ) : B.run (ts ++ ts') due = (B.run ts due).bind (B.run ts') := by
  unfold run
  rw [List.foldlM_append]
  rfl

@[simp] theorem run_nil (due : List τ) : B.run [] due = some due := rfl

theorem run_cons (due : List τ) : B.run (t :: ts) due = (B.step due t).bind (B.run ts) := rfl

theorem run_singleton (due : List τ) : B.run [t] due = B.step due t := by
  unfold run
  rw [List.foldlM_cons]
  cases B.step due t <;> rfl

theorem Fragment.append (h : B.Fragment d d' ts) (h' : B.Fragment d' d'' ts') :
    B.Fragment d d'' (ts ++ ts') := by
  intro w due hw
  rw [run_append]
  rcases h w due hw with hnone | ⟨w', hrun, hlen⟩
  · rw [hnone]
    exact .inl rfl
  · rw [hrun, Option.bind_some]
    rcases h' w' due (by omega) with hnone | ⟨w'', hrun', hlen'⟩
    · exact .inl hnone
    · exact .inr ⟨w'', hrun', by omega⟩

theorem Matched.append (h : B.Matched d d' ts) (h' : B.Matched d' d'' ts') :
    B.Matched d d'' (ts ++ ts') := by
  intro due
  rw [run_append, h, Option.bind_some, h']

theorem Matched.append_mismatched (h : B.Matched d d' ts) (h' : B.Mismatched d' d'' ts') :
    B.Mismatched d d'' (ts ++ ts') := by
  intro due
  rw [run_append, h, Option.bind_some]
  exact h' due

theorem Mismatched.append (h : B.Mismatched d d' ts) (h' : B.Fragment d' d'' ts') :
    B.Mismatched d d'' (ts ++ ts') := by
  intro due
  rw [run_append]
  rcases h due with hnone | ⟨w', hrun, hlen⟩
  · rw [hnone]
    exact .inl rfl
  · rw [hrun, Option.bind_some]
    rcases h' w' due (Nat.le_of_lt hlen) with hnone | ⟨w'', hrun', hlen'⟩
    · exact .inl hnone
    · exact .inr ⟨w'', hrun', by omega⟩

theorem Fragment.nil (d : List τ) : B.Fragment d d [] := fun w _ _ => .inr ⟨w, rfl, Nat.le_refl _⟩

theorem Matched.nil (d : List τ) : B.Matched d d [] := fun _ => rfl

/-- What one token does, whatever it is: it closes at most one bracket. -/
theorem step_cases (due : List τ) (t : τ) :
    (∃ c, B.closer t = some c ∧ B.step due t = some (c :: due)) ∨
      (B.closer t = none ∧ B.closes t = false ∧ B.step due t = some due) ∨
      B.closer t = none ∧ B.closes t = true ∧
        (B.step due t = none ∨ ∃ rest, due = t :: rest ∧ B.step due t = some rest) := by
  unfold step
  cases hcloser : B.closer t with
  | some c => exact .inl ⟨c, rfl, rfl⟩
  | none =>
      cases hcloses : B.closes t with
      | false => exact .inr (.inl ⟨rfl, rfl, rfl⟩)
      | true =>
          refine .inr (.inr ⟨rfl, rfl, ?_⟩)
          cases due with
          | nil => exact .inl rfl
          | cons c rest =>
              by_cases hc : c = t
              · exact .inr ⟨rest, by rw [hc], if_pos hc⟩
              · exact .inl (if_neg hc)

/-- A token in the place where one bracket is to be closed. -/
theorem fragment_slot (c : τ) (d : List τ) (t : τ) : B.Fragment (c :: d) d [t] := by
  intro w due hw
  rw [List.length_cons] at hw ⊢
  rw [run_singleton]
  cases w with
  | nil => exact absurd hw (by simp)
  | cons a w =>
      rcases B.step_cases (a :: w ++ due) t with ⟨k, -, hstep⟩ | ⟨-, -, hstep⟩ | ⟨-, -, hstep⟩
      · exact .inr ⟨k :: a :: w, hstep, by simp only [List.length_cons]; omega⟩
      · exact .inr ⟨a :: w, hstep, by simp only [List.length_cons]; omega⟩
      · rcases hstep with hstep | ⟨rest, hrest, hstep⟩
        · exact .inl hstep
        · obtain rfl : w ++ due = rest := (List.cons.inj hrest).2
          exact .inr ⟨w, hstep, by simp only [List.length_cons]; omega⟩

theorem mismatched_slot (d : List τ) (ht : t ≠ c) : B.Mismatched (c :: d) d [t] := by
  intro due
  rw [run_singleton]
  rcases B.step_cases (c :: d ++ due) t with ⟨k, -, hstep⟩ | ⟨-, -, hstep⟩ | ⟨-, -, hstep⟩
  · exact .inr ⟨k :: c :: d, hstep, by simp only [List.length_cons]; omega⟩
  · exact .inr ⟨c :: d, hstep, by simp only [List.length_cons]; omega⟩
  · rcases hstep with hstep | ⟨rest, hrest, hstep⟩
    · exact .inl hstep
    · exact absurd (List.cons.inj hrest).1.symm ht

theorem matched_slot (d : List τ) (hcloser : B.closer c = none) (hcloses : B.closes c = true) :
    B.Matched (c :: d) d [c] := by
  intro due
  rw [run_singleton]
  unfold step
  rw [hcloser]
  simp [hcloses]

theorem fragment_open (d : List τ) (hc : B.closer t = some c) : B.Fragment d (c :: d) [t] := by
  intro w due _
  rw [run_singleton]
  unfold step
  rw [hc]
  exact .inr ⟨c :: w, rfl, by simp only [List.length_cons]; omega⟩

theorem matched_open (d : List τ) (hc : B.closer t = some c) : B.Matched d (c :: d) [t] := by
  intro due
  rw [run_singleton]
  unfold step
  rw [hc]
  rfl

/-- A token that is no bracket. -/
theorem step_plain (due : List τ) (hcloser : B.closer t = none) (hcloses : B.closes t = false) :
    B.step due t = some due := by
  unfold step
  rw [hcloser]
  simp [hcloses]

theorem fragment_plain (d : List τ) (hcloser : B.closer t = none) (hcloses : B.closes t = false) :
    B.Fragment d d [t] := by
  intro w due _
  rw [run_singleton, step_plain _ hcloser hcloses]
  exact .inr ⟨w, rfl, Nat.le_refl _⟩

theorem matched_plain (d : List τ) (hcloser : B.closer t = none) (hcloses : B.closes t = false) :
    B.Matched d d [t] := by
  intro due
  rw [run_singleton, step_plain _ hcloser hcloses]

theorem Matched.balanced (h : B.Matched [] [] ts) : B.Balanced ts := h []

theorem Mismatched.not_balanced (h : B.Mismatched [] [] ts) : ¬ B.Balanced ts := by
  intro hbal
  unfold Balanced at hbal
  rcases h [] with hnone | ⟨w', hrun, hlen⟩
  · rw [List.append_nil, hbal] at hnone
    cases hnone
  · rw [List.append_nil, hbal, List.append_nil] at hrun
    cases hrun
    exact absurd hlen (Nat.lt_irrefl _)

end Bracketing

end Ymd.Foundation
