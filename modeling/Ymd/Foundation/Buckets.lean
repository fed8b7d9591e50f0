import Mathlib.Data.List.Forall2
import Mathlib.Data.List.Nodup

/-! # Bucket tables

A table of chains in which every element is in the chain of its home. Elements
are pushed in front of chains, and chains lose elements.
-/

namespace Ymd.Foundation

variable {α : Type*} {home home' : α → Nat} {slot slot' : List (List α)} {i : Nat} {x : α}

/-- Every element is in the chain of its home. -/
def Housed (home : α → Nat) (slot : List (List α)) : Prop :=
  ∀ i chain, slot[i]? = some chain → ∀ x ∈ chain, home x = i

namespace Housed

theorem empty (n : Nat) : Housed home (List.replicate n []) := by
  intro i chain hchain x hx
  have hempty : chain = [] := List.eq_of_mem_replicate (List.mem_of_getElem? hchain)
  rw [hempty] at hx
  cases hx

theorem congr (hhoused : Housed home slot) (hhome : ∀ x ∈ slot.flatten, home' x = home x) :
    Housed home' slot := by
  intro i chain hchain x hx
  rw [hhome x (List.mem_flatten.2 ⟨chain, List.mem_of_getElem? hchain, hx⟩)]
  exact hhoused i chain hchain x hx

/-- An element is found in the chain of its home. -/
theorem mem_chain (hhoused : Housed home slot) (hx : x ∈ slot.flatten) :
    ∃ chain, slot[home x]? = some chain ∧ x ∈ chain := by
  obtain ⟨chain, hchain, hin⟩ := List.mem_flatten.1 hx
  obtain ⟨i, hi⟩ := List.getElem?_of_mem hchain
  have hhome := hhoused i chain hi x hin
  subst hhome
  exact ⟨chain, hi, hin⟩

theorem push (hhoused : Housed home slot) (x : α) :
    Housed home (slot.modify (home x) (x :: ·)) := by
  intro i chain hchain y hy
  by_cases hi : home x = i
  · subst hi
    rw [List.getElem?_modify_eq, Option.map_eq_map, Option.map_eq_some_iff] at hchain
    obtain ⟨old, hold, rfl⟩ := hchain
    cases hy with
    | head => rfl
    | tail _ hin => exact hhoused _ old hold y hin
  · rw [List.getElem?_modify_ne _ _ hi] at hchain
    exact hhoused i chain hchain y hy

theorem shrink (hhoused : Housed home slot) (hsub : List.Forall₂ List.Sublist slot' slot) :
    Housed home slot' := by
  intro i chain hchain x hx
  obtain ⟨hi, rfl⟩ := List.getElem?_eq_some_iff.1 hchain
  have hi' : i < slot.length := hsub.length_eq ▸ hi
  have hle : slot'[i].Sublist slot[i] := (List.forall₂_iff_get.1 hsub).2 i hi hi'
  exact hhoused i slot[i] (List.getElem?_eq_getElem hi') x (hle.subset hx)

end Housed

/-- A push adds one element to the table. -/
theorem flatten_push (hi : i < slot.length) (x : α) :
    (slot.modify i (x :: ·)).flatten.Perm (x :: slot.flatten) := by
  induction slot generalizing i with
  | nil => cases hi
  | cons chain slot ih =>
      cases i with
      | zero => exact List.Perm.refl _
      | succ i =>
          rw [List.modify_succ_cons, List.flatten_cons, List.flatten_cons]
          have hpush : (chain ++ (slot.modify i (x :: ·)).flatten).Perm (chain ++ x :: slot.flatten) :=
            (ih (Nat.lt_of_succ_lt_succ hi)).append_left chain
          exact hpush.trans List.perm_middle

theorem shrink_trans {slot'' : List (List α)} (hsub : List.Forall₂ List.Sublist slot'' slot')
    (hsub' : List.Forall₂ List.Sublist slot' slot) : List.Forall₂ List.Sublist slot'' slot := by
  induction hsub generalizing slot with
  | nil => exact hsub'
  | cons hchain _ ih =>
      cases hsub' with
      | cons hchain' hrest' => exact .cons (hchain.trans hchain') (ih hrest')

theorem flatten_shrink (hsub : List.Forall₂ List.Sublist slot' slot) :
    slot'.flatten.Sublist slot.flatten := by
  induction hsub with
  | nil => exact List.Sublist.refl _
  | cons hchain _ ih => exact hchain.append ih

end Ymd.Foundation
