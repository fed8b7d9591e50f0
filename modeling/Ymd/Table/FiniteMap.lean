import Ymd.Table.HashMapRefinement
import Ymd.Value.Compare

/-! # Hash maps with scalar keys

On integers, booleans and strings the generic functions are lawful, so a hash
map with such keys is a finite map.
-/

namespace Ymd

open Foundation

theorem equalsWith_scalar (ops : KeyOps) (heap : Heap) {a b : Variable} (ha : a.IsScalarKey)
    (hb : b.IsScalarKey) : equalsWith ops heap a b = pure (decide (a = b)) := by
  by_cases htype : a.type = b.type
  · cases a <;> cases b <;> first
      | exact ha.elim
      | exact hb.elim
      | exact absurd htype (by decide)
      | exact if_neg fun hne => hne htype
  · have hne : a ≠ b := fun heq => htype (heq ▸ rfl)
    simp [equalsWith, htype, hne]

/-- Scalar keys need no nested call. -/
theorem lawfulKeys_scalar (heap : Heap) (depth : Nat) :
    Hmap.LawfulKeys (valueOps heap (depth + 1)) Variable.IsScalarKey scalarHash where
  notNil := Variable.IsScalarKey.isNil_eq_false
  hash := by
    intro k hkey
    cases k <;> first
      | exact hkey.elim
      | rfl
  equals := fun ha hb => equalsWith_scalar _ heap ha hb

/-- From `hmap_new` on, every run of puts and stores under scalar keys succeeds,
with one resize active at a time, and leaves the finite map of the stores. -/
theorem hmap_refines_finite_map (heap : Heap) (depth : Nat) {count : Int}
    (hcount : count < 2 ^ 30) :
    ∃ map, Hmap.new count = pure map ∧
      ∀ log : List (Variable × Variable), (∀ entry ∈ log, entry.1.IsScalarKey) →
        ∃ map', (∀ resizes, Hmap.putAll (valueOps heap (depth + 1)) (resizes + 1) map log =
            pure map') ∧
          (∀ key : Variable, key.IsScalarKey → Hmap.get (valueOps heap (depth + 1)) map' key =
            pure ((lastStored log key).getD .nil)) ∧
          (∀ i, (map'.item i).flag ≠ .free → (map'.item i).k ∈ log.map Prod.fst) ∧
          ∀ key ∈ log.map Prod.fst, ∃! i, (map'.item i).flag ≠ .free ∧ (map'.item i).k = key := by
  obtain ⟨shift, hshift, hnew⟩ := Hmap.new_spec hcount
  refine ⟨Hmap.zalloc shift, hnew, fun log hkeys => ?_⟩
  have hlaw := lawfulKeys_scalar heap depth
  obtain ⟨map', hrun, hrep⟩ := Hmap.putAll_represents hlaw hshift log hkeys
  refine ⟨map', hrun, fun key hkey => hrep.get_eq hlaw hkey, fun i hi => ?_, fun key hkey => ?_⟩
  · rw [← lastStored_isSome, (hrep.holds _ _).mp ⟨i, hi, rfl, rfl⟩]
    rfl
  · exact (hrep.existsUnique_slot key).mpr hkey

/-- A table of two slots that has to grow for its third key. -/
theorem hmap_refines_finite_map_two_slots :
    ∃ map map', Hmap.new 1 = pure map ∧
      Hmap.putAll (valueOps Heap.empty 1) 1 map
        [(.int 1, .int 7), (.kstr [97], .nil), (.bool 1, .int 8), (.int 1, .int 9)] = pure map' ∧
      Hmap.get (valueOps Heap.empty 1) map' (.int 1) = pure (.int 9) ∧
      Hmap.get (valueOps Heap.empty 1) map' (.int 2) = pure .nil := by
  obtain ⟨map, hnew, hruns⟩ := hmap_refines_finite_map Heap.empty 0 (show (1 : Int) < 2 ^ 30 by decide)
  obtain ⟨map', hrun, hget, _⟩ := hruns
    [(.int 1, .int 7), (.kstr [97], .nil), (.bool 1, .int 8), (.int 1, .int 9)] (by decide)
  exact ⟨map, map', hnew, hrun 0, hget (.int 1) trivial, hget (.int 2) trivial⟩

end Ymd
