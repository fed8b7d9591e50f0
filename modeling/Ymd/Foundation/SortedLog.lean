import Ymd.Foundation.StoreLog
import Mathlib.Data.Finset.Card
import Mathlib.Data.List.Pairwise
import Mathlib.Order.Defs.LinearOrder

/-! # Sorted maps as logs of stores

Keys are compared through a rank in a linear order, and keys of one rank are
the same key. The sorted list of the entries stored last under each rank is
determined by the log.
-/

namespace Ymd.Foundation

variable {K V α : Type*} [LinearOrder α] (rank : K → α)

/-- The log with every entry filed under the rank of its key. -/
def ranked (log : List (K × V)) : List (α × (K × V)) := log.map fun entry => (rank entry.1, entry)

/-- The entries stored last, in ascending order of their keys. -/
structure SortedLog (log entries : List (K × V)) : Prop where
  sorted : entries.Pairwise fun a b => rank a.1 < rank b.1
  mem : ∀ entry, entry ∈ entries ↔ lastStored (ranked rank log) (rank entry.1) = some entry

variable {rank} {log entries lower upper : List (K × V)}

theorem lastStored_ranked_concat (log : List (K × V)) (entry : K × V) :
    lastStored (ranked rank (log ++ [entry])) =
      Function.update (lastStored (ranked rank log)) (rank entry.1) (some entry) := by
  rw [← lastStored_concat]
  simp [ranked]

/-- The value stored last under a rank. -/
theorem lastStored_ranked_value (log : List (K × V)) (r : α) :
    (lastStored (ranked rank log) r).map Prod.snd =
      lastStored (log.map fun entry => (rank entry.1, entry.2)) r := by
  induction log using List.reverseRecOn with
  | nil => rfl
  | append_singleton log entry ih =>
      rw [lastStored_ranked_concat, List.map_append, List.map_singleton, lastStored_concat]
      by_cases hr : r = rank entry.1
      · rw [hr, Function.update_self, Function.update_self, Option.map_some]
      · rw [Function.update_of_ne hr, Function.update_of_ne hr, ih]

/-- An entry found under a rank has a key of that rank. -/
theorem rank_of_lastStored {r : α} {entry : K × V}
    (hlast : lastStored (ranked rank log) r = some entry) : rank entry.1 = r := by
  induction log using List.reverseRecOn with
  | nil => simp [ranked] at hlast
  | append_singleton log other ih =>
      rw [lastStored_ranked_concat] at hlast
      by_cases hr : r = rank other.1
      · rw [hr, Function.update_self, Option.some.injEq] at hlast
        rw [← hlast, hr]
      · rw [Function.update_of_ne hr] at hlast
        exact ih hlast

namespace SortedLog

theorem nil : SortedLog rank ([] : List (K × V)) [] where
  sorted := List.Pairwise.nil
  mem := fun entry => by simp [ranked]

/-- The log determines the sorted list. -/
theorem unique {entries' : List (K × V)} (hentries : SortedLog rank log entries)
    (hentries' : SortedLog rank log entries') : entries = entries' := by
  have hnodup : ∀ {l : List (K × V)}, SortedLog rank log l → l.Nodup := fun hl =>
    hl.sorted.imp fun hlt heq => absurd (heq ▸ hlt) (lt_irrefl _)
  have hperm : entries.Perm entries' := by
    rw [List.perm_ext_iff_of_nodup (hnodup hentries) (hnodup hentries')]
    intro entry
    rw [hentries.mem, hentries'.mem]
  exact hperm.eq_of_pairwise (fun a b _ _ hab hba => absurd hba (lt_asymm hab))
    hentries.sorted hentries'.sorted

/-- A store between the entries of smaller and of larger keys. -/
theorem of_split {entry : K × V} (hsorted : (lower ++ upper).Pairwise fun a b => rank a.1 < rank b.1)
    (hlower : ∀ e ∈ lower, rank e.1 < rank entry.1) (hupper : ∀ e ∈ upper, rank entry.1 < rank e.1)
    (hothers : ∀ e, rank e.1 ≠ rank entry.1 →
      (e ∈ lower ++ upper ↔ lastStored (ranked rank log) (rank e.1) = some e)) :
    SortedLog rank (log ++ [entry]) (lower ++ entry :: upper) := by
  have hparts := List.pairwise_append.mp hsorted
  constructor
  · refine List.pairwise_append.mpr ⟨hparts.1, List.pairwise_cons.mpr ⟨hupper, hparts.2.1⟩, ?_⟩
    intro a ha b hb
    obtain rfl | hb := List.mem_cons.mp hb
    · exact hlower a ha
    · exact hparts.2.2 a ha b hb
  · intro other
    rw [lastStored_ranked_concat]
    by_cases hr : rank other.1 = rank entry.1
    · have hnot : other ∉ lower ∧ other ∉ upper := by
        constructor
        · exact fun hin => absurd (hlower other hin) (hr ▸ lt_irrefl _)
        · exact fun hin => absurd (hupper other hin) (hr ▸ lt_irrefl _)
      simp [hr, hnot, eq_comm]
    · have hne : other ≠ entry := fun heq => hr (heq ▸ rfl)
      rw [Function.update_of_ne hr, ← hothers other hr]
      simp [hne]

/-- A store under a key that no entry has. -/
theorem insert (hentries : SortedLog rank log (lower ++ upper)) {entry : K × V}
    (hlower : ∀ e ∈ lower, rank e.1 < rank entry.1)
    (hupper : ∀ e ∈ upper, rank entry.1 < rank e.1) :
    SortedLog rank (log ++ [entry]) (lower ++ entry :: upper) :=
  of_split hentries.sorted hlower hupper fun e _ => hentries.mem e

/-- A store under the key of an entry replaces it. -/
theorem replace {old : K × V} (hentries : SortedLog rank log (lower ++ old :: upper))
    {entry : K × V} (hrank : rank old.1 = rank entry.1) :
    SortedLog rank (log ++ [entry]) (lower ++ entry :: upper) := by
  have hparts := List.pairwise_append.mp hentries.sorted
  have hcons := List.pairwise_cons.mp hparts.2.1
  refine of_split ?_ ?_ ?_ ?_
  · exact List.pairwise_append.mpr ⟨hparts.1, hcons.2,
      fun a ha b hb => hparts.2.2 a ha b (List.mem_cons_of_mem _ hb)⟩
  · exact fun e he => hrank ▸ hparts.2.2 e he old List.mem_cons_self
  · exact fun e he => hrank ▸ hcons.1 e he
  · intro e hr
    have hne : e ≠ old := fun heq => hr (heq ▸ hrank)
    rw [← hentries.mem e]
    simp [hne]

/-- A log in ascending order is its own list of entries. -/
theorem self (hsorted : log.Pairwise fun a b => rank a.1 < rank b.1) : SortedLog rank log log := by
  induction log using List.reverseRecOn with
  | nil => exact nil
  | append_singleton log entry ih =>
      have hparts := List.pairwise_append.mp hsorted
      have hlog : SortedLog rank log (log ++ []) := by simpa using ih hparts.1
      exact hlog.insert (fun e he => hparts.2.2 e he entry List.mem_cons_self) (by simp)

/-- There is one entry for each rank that was stored under. -/
theorem length_eq (hentries : SortedLog rank log entries) :
    entries.length = (log.map fun entry => rank entry.1).toFinset.card := by
  have hnodup : (entries.map fun entry => rank entry.1).Nodup := by
    rw [List.nodup_iff_pairwise_ne, List.pairwise_map]
    exact hentries.sorted.imp fun hlt => ne_of_lt hlt
  have hsame : (entries.map fun entry => rank entry.1).toFinset =
      (log.map fun entry => rank entry.1).toFinset := by
    ext r
    have hkeys : r ∈ log.map (fun entry => rank entry.1) ↔
        (lastStored (ranked rank log) r).isSome := by
      rw [lastStored_isSome]
      simp [ranked]
    rw [List.mem_toFinset, List.mem_toFinset, hkeys, List.mem_map, Option.isSome_iff_exists]
    constructor
    · rintro ⟨entry, hin, rfl⟩
      exact ⟨entry, (hentries.mem entry).mp hin⟩
    · rintro ⟨entry, hlast⟩
      have hr := rank_of_lastStored hlast
      exact ⟨entry, (hentries.mem entry).mpr (hr ▸ hlast), hr⟩
  rw [← hsame, List.toFinset_card_of_nodup hnodup, List.length_map]

end SortedLog

end Ymd.Foundation
