import Mathlib.Data.Set.Card
import Mathlib.Logic.Relation

/-! # Depth-first marking

A marking visits what hangs on its roots and is not marked yet. While it runs,
what is marked but not finished is on the recursion; what it has marked when it
returns has marked children. Every call marks something that was white, which
bounds the depth of the recursion.
-/

namespace Ymd.Foundation

variable {α : Type} {kids : α → List α}

/-- There is a way from one of the roots. -/
def Reached (kids : α → List α) (roots : List α) (b : α) : Prop :=
  ∃ a ∈ roots, Relation.ReflTransGen (fun a c => c ∈ kids a) a b

theorem Reached.root {roots : List α} {a : α} (ha : a ∈ roots) : Reached kids roots a :=
  ⟨a, ha, .refl⟩

theorem Reached.kid {roots : List α} {a b : α} (ha : Reached kids roots a) (hb : b ∈ kids a) :
    Reached kids roots b := by
  obtain ⟨r, hr, hpath⟩ := ha
  exact ⟨r, hr, hpath.tail hb⟩

theorem Reached.mono {roots roots' : List α} (hsub : ∀ a ∈ roots, a ∈ roots') {b : α}
    (hb : Reached kids roots b) : Reached kids roots' b := by
  obtain ⟨r, hr, hpath⟩ := hb
  exact ⟨r, hsub r hr, hpath⟩

/-- What closed marks that contain the roots contain. -/
theorem Reached.mem_of_closed {roots : List α} {B : Set α} (hroots : ∀ a ∈ roots, a ∈ B)
    (hclosed : ∀ a ∈ B, ∀ b ∈ kids a, b ∈ B) {b : α} (hb : Reached kids roots b) : b ∈ B := by
  obtain ⟨r, hr, hpath⟩ := hb
  induction hpath with
  | refl => exact hroots r hr
  | tail _ hstep ih => exact hclosed _ ih _ hstep

/-- A marking of the roots has taken the marks from `B` to `B'`. -/
structure Marking (kids : α → List α) (roots : List α) (B B' : Set α) : Prop where
  grows : B ⊆ B'
  marks : ∀ a ∈ roots, a ∈ B'
  sound : ∀ b ∈ B', b ∈ B ∨ Reached kids roots b
  closed : ∀ b ∈ B', b ∉ B → ∀ c ∈ kids b, c ∈ B'

namespace Marking

variable {roots roots' : List α} {B B' B'' : Set α} {a : α}

theorem nil : Marking kids [] B B where
  grows := subset_rfl
  marks := fun _ ha => absurd ha List.not_mem_nil
  sound := fun _ hb => .inl hb
  closed := fun _ hb hno => absurd hb hno

/-- A root that is marked already is not visited. -/
theorem seen (ha : a ∈ B) : Marking kids [a] B B where
  grows := subset_rfl
  marks := fun _ hb => List.mem_singleton.1 hb ▸ ha
  sound := fun _ hb => .inl hb
  closed := fun _ hb hno => absurd hb hno

theorem append (h : Marking kids roots B B') (h' : Marking kids roots' B' B'') :
    Marking kids (roots ++ roots') B B'' where
  grows := h.grows.trans h'.grows
  marks := by
    intro a ha
    obtain ha | ha := List.mem_append.1 ha
    · exact h'.grows (h.marks a ha)
    · exact h'.marks a ha
  sound := by
    intro b hb
    obtain hb | hb := h'.sound b hb
    · exact (h.sound b hb).imp_right fun hr => hr.mono fun _ => List.mem_append_left _
    · exact .inr (hb.mono fun _ => List.mem_append_right _)
  closed := by
    intro b hb hno c hc
    by_cases hb' : b ∈ B'
    · exact h'.grows (h.closed b hb' hno c hc)
    · exact h'.closed b hb hb' c hc

/-- A root is marked, and then what hangs on it is visited. -/
theorem enter (h : Marking kids (kids a) (insert a B) B') : Marking kids [a] B B' where
  grows := (Set.subset_insert a B).trans h.grows
  marks := by
    intro b hb
    rw [List.mem_singleton.1 hb]
    exact h.grows (Set.mem_insert a B)
  sound := by
    intro b hb
    obtain hb | ⟨r, hr, hpath⟩ := h.sound b hb
    · obtain rfl | hb := hb
      · exact .inr (.root (List.mem_singleton.2 rfl))
      · exact .inl hb
    · exact .inr ⟨a, List.mem_singleton.2 rfl, .head hr hpath⟩
  closed := by
    intro b hb hno c hc
    by_cases heq : b = a
    · subst heq
      exact h.marks c hc
    · exact h.closed b hb (fun hin => hin.elim heq hno) c hc

/-- From no marks at all, a marking marks what is reached from its roots. -/
theorem exact (h : Marking kids roots ∅ B') {b : α} : b ∈ B' ↔ Reached kids roots b := by
  constructor
  · intro hb
    exact (h.sound b hb).resolve_left (Set.notMem_empty b)
  · apply Reached.mem_of_closed h.marks
    exact fun a ha => h.closed a ha (Set.notMem_empty _)

end Marking

/-! ## The depth of the recursion -/

/-- How many of the live vertices are not marked. -/
noncomputable def white (live : Finset α) (B : Set α) : Nat := (↑live \ B).ncard

variable {live : Finset α} {B B' : Set α}

theorem finite_white (live : Finset α) (B : Set α) : (↑live \ B).Finite :=
  live.finite_toSet.subset Set.sdiff_subset

theorem white_le (hgrows : B ⊆ B') : white live B' ≤ white live B :=
  Set.ncard_le_ncard (Set.sdiff_subset_sdiff_right hgrows) (finite_white live B)

theorem white_insert_lt {a : α} (ha : a ∈ live) (hwhite : a ∉ B) :
    white live (insert a B) < white live B := by
  apply Set.ncard_lt_ncard _ (finite_white live B)
  rw [Set.ssubset_iff_of_subset (Set.sdiff_subset_sdiff_right (Set.subset_insert a B))]
  exact ⟨a, ⟨ha, hwhite⟩, fun hin => hin.2 (Set.mem_insert a B)⟩

theorem white_le_card : white live B ≤ live.card := by
  rw [← Set.ncard_coe_finset]
  exact Set.ncard_le_ncard Set.sdiff_subset live.finite_toSet

/-! ## A marking that can be computed -/

theorem setOf_mem_cons (a : α) (marks : List α) :
    {b | b ∈ a :: marks} = insert a {b | b ∈ marks} := by
  ext b
  exact List.mem_cons

section

variable [DecidableEq α] {roots marks : List α} {depth : Nat}

/-- What is not marked yet is marked, and then what hangs on it is visited. -/
def markFrom (kids : α → List α) : (depth : Nat) → List α → List α → List α
  | 0, marks, _ => marks
  | depth + 1, marks, roots =>
      roots.foldl (fun marks a =>
        if a ∈ marks then marks else markFrom kids depth (a :: marks) (kids a)) marks

theorem markFrom_nil (kids : α → List α) (depth : Nat) (marks : List α) :
    markFrom kids depth marks [] = marks := by
  cases depth <;> rfl

/-- With a call for every live vertex that is white, the recursion is a marking. -/
theorem marking_markFrom (hlive : ∀ a ∉ live, kids a = [])
    (hdepth : white live {b | b ∈ marks} < depth) :
    Marking kids roots {b | b ∈ marks} {b | b ∈ markFrom kids depth marks roots} := by
  induction depth generalizing marks roots with
  | zero => exact absurd hdepth (Nat.not_lt_zero _)
  | succ depth ih =>
      -- the loop over the roots; the marks only grow
      induction roots generalizing marks with
      | nil =>
          rw [markFrom_nil]
          exact .nil
      | cons a roots ihroots =>
          by_cases ha : a ∈ marks
          · have hloop : markFrom kids (depth + 1) marks (a :: roots) =
                markFrom kids (depth + 1) marks roots := by
              rw [markFrom, List.foldl_cons, if_pos ha, markFrom]
            have hseen : Marking kids [a] {b | b ∈ marks} {b | b ∈ marks} := .seen ha
            rw [hloop]
            exact hseen.append (ihroots hdepth)
          · have hloop : markFrom kids (depth + 1) marks (a :: roots) =
                markFrom kids (depth + 1) (markFrom kids depth (a :: marks) (kids a)) roots := by
              rw [markFrom, List.foldl_cons, if_neg ha, markFrom]
            have hinside : Marking kids (kids a) {b | b ∈ a :: marks}
                {b | b ∈ markFrom kids depth (a :: marks) (kids a)} := by
              by_cases hin : a ∈ live
              · apply ih
                rw [setOf_mem_cons]
                exact Nat.lt_of_lt_of_le (white_insert_lt hin ha) (Nat.le_of_lt_succ hdepth)
              · rw [hlive a hin, markFrom_nil]
                exact .nil
            rw [setOf_mem_cons] at hinside
            rw [hloop]
            refine hinside.enter.append (ihroots ?_)
            exact Nat.lt_of_le_of_lt (white_le hinside.enter.grows) hdepth

/-- From no marks at all, what is marked is what is reached. -/
theorem mem_markFrom_iff (hlive : ∀ a ∉ live, kids a = []) (hdepth : live.card < depth) {b : α} :
    b ∈ markFrom kids depth [] roots ↔ Reached kids roots b := by
  have hmarking : Marking kids roots {b | b ∈ ([] : List α)}
      {b | b ∈ markFrom kids depth [] roots} :=
    marking_markFrom hlive (Nat.lt_of_le_of_lt white_le_card hdepth)
  have hempty : {b | b ∈ ([] : List α)} = (∅ : Set α) := by
    ext b
    simp
  rw [hempty] at hmarking
  exact hmarking.exact

end

end Ymd.Foundation
