import Mathlib.Data.List.Induction
import Mathlib.Logic.Function.Basic

/-! # Finite maps as logs of stores

A keyed container is specified by the stores made so far, oldest first: a key
holds the value stored last under it.
-/

namespace Ymd.Foundation

variable {K V : Type*} [DecidableEq K]

/-- The value stored last under a key, if there was any store. -/
def lastStored (log : List (K × V)) (key : K) : Option V := log.reverse.lookup key

@[simp] theorem lastStored_nil (key : K) : lastStored ([] : List (K × V)) key = none := rfl

theorem lastStored_concat (log : List (K × V)) (key : K) (value : V) :
    lastStored (log ++ [(key, value)]) = Function.update (lastStored log) key (some value) := by
  funext other
  by_cases heq : other = key
  · subst heq
    simp [lastStored]
  · have hbeq : (other == key) = false := by simpa using heq
    simp [lastStored, List.lookup_cons, hbeq, Function.update_of_ne heq]

theorem lastStored_isSome {log : List (K × V)} {key : K} :
    (lastStored log key).isSome ↔ key ∈ log.map Prod.fst := by
  induction log using List.reverseRecOn with
  | nil => simp
  | append_singleton log entry ih =>
      obtain ⟨other, value⟩ := entry
      rw [lastStored_concat]
      by_cases heq : key = other
      · simp [heq]
      · simp [ih, heq]

/-- Under distinct keys every store is the last one. -/
theorem lastStored_eq_some {log : List (K × V)} (hnodup : (log.map Prod.fst).Nodup) {key : K}
    {value : V} : lastStored log key = some value ↔ (key, value) ∈ log := by
  induction log using List.reverseRecOn with
  | nil => simp
  | append_singleton log entry ih =>
      obtain ⟨other, last⟩ := entry
      rw [List.map_append, List.nodup_append] at hnodup
      obtain ⟨hlog, _, hdistinct⟩ := hnodup
      rw [lastStored_concat]
      by_cases heq : key = other
      · subst heq
        have hnotin : (key, value) ∉ log := fun hin =>
          hdistinct key (List.mem_map_of_mem hin) key (by simp) rfl
        simp [hnotin, eq_comm]
      · rw [Function.update_of_ne heq, ih hlog]
        simp [heq]

end Ymd.Foundation
