import Mathlib.Data.List.Nodup
import Mathlib.Logic.Function.Basic

/-! # Singly linked chains in an addressed memory

A memory gives every cell an optional successor. A path lists the cells
visited between two pointers, a chain is a path that ends in the null pointer.
The lemmas say how one pointer assignment changes the visited list.
-/

namespace Ymd.Foundation

variable {α : Type*}

/-- Following `next` from the pointer `start` visits exactly `cells` and
arrives at the pointer `stop`. -/
def Path (next : α → Option α) : Option α → List α → Option α → Prop
  | start, [], stop => start = stop
  | start, cell :: cells, stop => start = some cell ∧ Path next (next cell) cells stop

/-- A path to the null pointer. -/
def Chain (next : α → Option α) (start : Option α) (cells : List α) : Prop :=
  Path next start cells none

namespace Path

variable {next next' : α → Option α} {start stop middle : Option α} {cells first second : List α}

@[simp] theorem nil_iff : Path next start [] stop ↔ start = stop := Iff.rfl

@[simp] theorem cons_iff {cell : α} :
    Path next start (cell :: cells) stop ↔
      start = some cell ∧ Path next (next cell) cells stop := Iff.rfl

theorem append_iff : Path next start (first ++ second) stop ↔
    ∃ middle, Path next start first middle ∧ Path next middle second stop := by
  induction first generalizing start with
  | nil => simp
  | cons cell first ih => simp [ih, and_assoc]

/-- Only the successors of the visited cells matter. -/
theorem congr (hagree : ∀ cell ∈ cells, next' cell = next cell)
    (hpath : Path next start cells stop) : Path next' start cells stop := by
  induction cells generalizing start with
  | nil => exact hpath
  | cons cell cells ih =>
      obtain ⟨hstart, hrest⟩ := hpath
      refine ⟨hstart, ih (fun c hc => hagree c (List.mem_cons_of_mem _ hc)) ?_⟩
      rwa [hagree cell List.mem_cons_self]

end Path

namespace Chain

variable {next next' : α → Option α} {start : Option α} {cells before after : List α}

@[simp] theorem nil_iff : Chain next start [] ↔ start = none := Iff.rfl

@[simp] theorem cons_iff {cell : α} :
    Chain next start (cell :: cells) ↔ start = some cell ∧ Chain next (next cell) cells := Iff.rfl

theorem congr (hagree : ∀ cell ∈ cells, next' cell = next cell)
    (hchain : Chain next start cells) : Chain next' start cells :=
  Path.congr hagree hchain

/-- The memory determines the visited list. -/
theorem unique {cells' : List α} (hchain : Chain next start cells)
    (hchain' : Chain next start cells') : cells = cells' := by
  induction cells generalizing start cells' with
  | nil =>
      cases cells' with
      | nil => rfl
      | cons cell cells' =>
          rw [nil_iff] at hchain
          rw [cons_iff, hchain] at hchain'
          exact absurd hchain'.1 (by simp)
  | cons cell cells ih =>
      obtain ⟨hstart, hrest⟩ := hchain
      cases cells' with
      | nil =>
          rw [nil_iff, hstart] at hchain'
          exact absurd hchain' (by simp)
      | cons other cells' =>
          obtain ⟨hstart', hrest'⟩ := hchain'
          obtain rfl : cell = other := Option.some.inj (hstart.symm.trans hstart')
          rw [ih hrest hrest']

/-- The part of a chain behind one of its cells is the chain of its successor. -/
theorem tail_of_append {cell : α} (hchain : Chain next start (before ++ cell :: after)) :
    Chain next (next cell) after := by
  obtain ⟨_, _, _, hrest⟩ := Path.append_iff.mp hchain
  exact hrest

/-- A chain that ends never visits a cell twice. -/
theorem nodup (hchain : Chain next start cells) : cells.Nodup := by
  induction cells generalizing start with
  | nil => exact List.nodup_nil
  | cons cell cells ih =>
      refine List.nodup_cons.mpr ⟨?_, ih hchain.2⟩
      intro hmem
      obtain ⟨before, after, hsplit⟩ := List.append_of_mem hmem
      have hrest : Chain next (next cell) cells := hchain.2
      have htail : Chain next (next cell) after := by
        rw [hsplit] at hrest
        exact tail_of_append hrest
      have hlength := congrArg List.length (unique hrest htail)
      rw [hsplit] at hlength
      simp only [List.length_append, List.length_cons] at hlength
      omega

/-- Linking a new cell behind `prev`: the new cell takes over the successor. -/
theorem insert_after {prev cell : α}
    (hchain : Chain next start (before ++ prev :: after)) (hfresh : cell ∉ before ++ prev :: after)
    (hprev : next' prev = some cell) (hcell : next' cell = next prev)
    (hframe : ∀ c, c ≠ prev → c ≠ cell → next' c = next c) :
    Chain next' start (before ++ prev :: cell :: after) := by
  have hnodup := nodup hchain
  have hbefore : ∀ c ∈ before, next' c = next c := by
    intro c hc
    refine hframe c ?_ (fun heq => hfresh (heq ▸ List.mem_append_left _ hc))
    rintro rfl
    exact (List.nodup_append.mp hnodup).2.2 c hc c List.mem_cons_self rfl
  have hafter : ∀ c ∈ after, next' c = next c := by
    intro c hc
    refine hframe c ?_ (fun heq => hfresh (by
      rw [← heq]; exact List.mem_append_right _ (List.mem_cons_of_mem _ hc)))
    rintro rfl
    exact (List.nodup_cons.mp (List.nodup_append.mp hnodup).2.1).1 hc
  obtain ⟨middle, hfirst, hmiddle, hrest⟩ := Path.append_iff.mp hchain
  refine Path.append_iff.mpr ⟨middle, hfirst.congr hbefore, hmiddle, ?_⟩
  refine ⟨hprev, ?_⟩
  rw [hcell]
  exact hrest.congr hafter

/-- Replacing the cell behind `prev` by a fresh copy of it. -/
theorem replace_after {prev cell copy : α}
    (hchain : Chain next start (before ++ prev :: cell :: after))
    (hfresh : copy ∉ before ++ prev :: cell :: after)
    (hprev : next' prev = some copy) (hcopy : next' copy = next cell)
    (hframe : ∀ c, c ≠ prev → c ≠ cell → c ≠ copy → next' c = next c) :
    Chain next' start (before ++ prev :: copy :: after) := by
  have hnodup := nodup hchain
  have hparts := List.nodup_append.mp hnodup
  have hprevNodup := List.nodup_cons.mp hparts.2.1
  have hcellNodup := List.nodup_cons.mp hprevNodup.2
  have hbefore : ∀ c ∈ before, next' c = next c := by
    intro c hc
    refine hframe c ?_ ?_ (fun heq => hfresh (heq ▸ List.mem_append_left _ hc))
    · rintro rfl
      exact hparts.2.2 c hc c List.mem_cons_self rfl
    · rintro rfl
      exact hparts.2.2 c hc c (List.mem_cons_of_mem _ List.mem_cons_self) rfl
  have hafter : ∀ c ∈ after, next' c = next c := by
    intro c hc
    refine hframe c ?_ ?_ (fun heq => hfresh (by
      rw [← heq]
      exact List.mem_append_right _ (List.mem_cons_of_mem _ (List.mem_cons_of_mem _ hc))))
    · rintro rfl
      exact hprevNodup.1 (List.mem_cons_of_mem _ hc)
    · rintro rfl
      exact hcellNodup.1 hc
  obtain ⟨middle, hfirst, hmiddle, _, hrest⟩ := Path.append_iff.mp hchain
  refine Path.append_iff.mpr ⟨middle, hfirst.congr hbefore, hmiddle, hprev, ?_⟩
  rw [hcopy]
  exact hrest.congr hafter

end Chain

end Ymd.Foundation
