import Mathlib.Data.Fintype.Card
import Mathlib.Logic.Relation
import Mathlib.Tactic.Common

/-! # Relations without cycles

Descent along a relation ends where there is no cycle: a recursion that ends
rules cycles out, and on finitely many elements the converse holds.
-/

namespace Ymd.Foundation

variable {α : Type} {r : α → α → Prop}

theorem not_transGen_self_of_acc {a : α} (hacc : Acc r a) : ¬ Relation.TransGen r a a := by
  have htrans := hacc.transGen
  induction htrans with
  | intro a _ ih => exact fun hcycle => ih a hcycle (hacc.inv_of_transGen hcycle) hcycle

/-- Among the elements of a finite set. -/
theorem wellFounded_of_acyclic {nodes : Set α} (hfinite : nodes.Finite)
    (hcycle : ∀ a ∈ nodes, ¬ Relation.TransGen r a a) :
    WellFounded fun a b : nodes => r a.1 b.1 := by
  let s (a b : nodes) : Prop := r a.1 b.1
  have hnodes : Finite nodes := hfinite.to_subtype
  have hirrefl : ∀ a : nodes, ¬ Relation.TransGen s a a := fun a ha =>
    hcycle a.1 a.2 (Relation.TransGen.lift Subtype.val (fun _ _ hstep => hstep) _ _ ha)
  have : Std.Irrefl (Relation.TransGen s) := ⟨hirrefl⟩
  have hwf : WellFounded (Relation.TransGen s) := Finite.wellFounded_of_trans_of_irrefl _
  have hsub : Subrelation s (Relation.TransGen s) := fun hstep => .single hstep
  exact hsub.wf hwf

end Ymd.Foundation
