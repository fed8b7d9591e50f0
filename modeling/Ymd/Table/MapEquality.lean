import Ymd.Table.FiniteMap
import Ymd.Table.Lookups

/-! # When two hash maps are equal

`hmap_equals` looks up every entry of one map in the other and counts, but it
begins by comparing the sizes of the tables. So it tells maps with the same
contents apart that have been created or have grown to different sizes.
-/

namespace Ymd

open Foundation

namespace Hmap

variable {ops : KeyOps} {IsKey : Variable → Prop} {hashOf : Variable → BitVec 64} {map rhs : Hmap}

theorem nodup_keys (hlinked : Linked IsKey hashOf map.item) : (map.entries.map Prod.fst).Nodup := by
  rw [entries, List.map_filterMap]
  apply List.Nodup.filterMap
  · intro i j k hi hj
    split at hi
    next => cases hi
    next hflag =>
      split at hj
      next => cases hj
      next hflag' =>
        exact hlinked.inj i j hflag hflag' (Option.some.inj (hi.trans hj.symm))
  · exact List.nodup_reverse.2 (List.nodup_finRange _)

/-- All entries are found, each under an equal value. -/
theorem equalEntries_eq_true {find : Variable → Except Fault Variable}
    (entries : List (Variable × Variable)) : equalEntries ops find entries = .ok true ↔
      ∀ k v, (k, v) ∈ entries → ∃ w, find k = .ok w ∧ ops.equals v w = .ok true := by
  induction entries with
  | nil => simp [equalEntries, pure, Except.pure]
  | cons entry rest ih =>
      obtain ⟨k, v⟩ := entry
      simp only [equalEntries, except_bind_ok_iff]
      constructor
      · rintro ⟨w, hw, same, hsame, hrest⟩ k' v' hmem
        cases same with
        | false => cases hrest
        | true =>
            rcases List.mem_cons.1 hmem with heq | hmem
            · cases heq
              exact ⟨w, hw, hsame⟩
            · exact ih.1 hrest k' v' hmem
      · intro hall
        obtain ⟨w, hw, hsame⟩ := hall k v List.mem_cons_self
        exact ⟨w, hw, true, hsame, ih.2 fun k' v' hmem => hall k' v' (List.mem_cons_of_mem _ hmem)⟩

variable {log log' : List (Variable × Variable)}

theorem Represents.find_eq (hlaw : LawfulKeys ops IsKey hashOf)
    (hrep : Represents IsKey hashOf map log) {key : Variable} (hkey : IsKey key) :
    find ops map key = pure ((lastStored log key).getD .nil) := by
  have hget := hrep.get_eq hlaw hkey
  rwa [get, hlaw.notNil hkey] at hget

theorem Represents.mem_keys (hrep : Represents IsKey hashOf map log) {key : Variable} :
    key ∈ map.entries.map Prod.fst ↔ (lastStored log key).isSome := by
  rw [List.mem_map, Option.isSome_iff_exists]
  constructor
  · rintro ⟨⟨k, v⟩, hmem, rfl⟩
    exact ⟨v, (hrep.holds k v).1 (mem_entries.1 hmem)⟩
  · rintro ⟨v, hv⟩
    exact ⟨(key, v), mem_entries.2 ((hrep.holds key v).2 hv), rfl⟩

/-- Maps of values none of which equals nil are equal when their tables have one
size and their contents agree. -/
theorem Represents.equals_iff (hlaw : LawfulKeys ops IsKey hashOf)
    (hmap : Represents IsKey hashOf map log) (hrhs : Represents IsKey hashOf rhs log')
    (hnil : ∀ key v, lastStored log key = some v → ops.equals v .nil ≠ .ok true) :
    hmapEquals ops map rhs = .ok true ↔ map.shift = rhs.shift ∧
      ∀ key, Option.Rel (fun v w => ops.equals v w = .ok true) (lastStored log key)
        (lastStored log' key) := by
  have hfind : ∀ k v, (k, v) ∈ map.entries →
      find ops rhs k = .ok ((lastStored log' k).getD .nil) := by
    intro k v hmem
    obtain ⟨i, hflag, rfl, _⟩ := mem_entries.1 hmem
    exact hrhs.find_eq hlaw (hmap.wf.linked.key i hflag)
  unfold hmapEquals
  by_cases hshift : map.shift = rhs.shift
  swap
  · rw [if_pos hshift]
    exact iff_of_false nofun fun h => hshift h.1
  rw [if_neg (not_not.2 hshift)]
  constructor
  · intro hrun
    obtain ⟨same, hsame, hcount⟩ := except_bind_ok_iff.1 hrun
    have hboth : (same && map.entries.length == rhs.entries.length) = true := Except.ok.inj hcount
    obtain ⟨rfl, hlen⟩ := Bool.and_eq_true_iff.1 hboth
    rw [equalEntries_eq_true] at hsame
    -- every key of one map is a key of the other, which has no more of them
    have hsub : map.entries.map Prod.fst ⊆ rhs.entries.map Prod.fst := by
      intro key hkey
      obtain ⟨⟨k, v⟩, hmem, rfl⟩ := List.mem_map.1 hkey
      obtain ⟨w, hw, hequal⟩ := hsame k v hmem
      rw [hfind k v hmem] at hw
      rw [hrhs.mem_keys]
      cases hlast : lastStored log' k with
      | none =>
          rw [hlast] at hw
          cases hw
          exact absurd hequal (hnil k v ((hmap.holds k v).1 (mem_entries.1 hmem)))
      | some u => rfl
    have hperm := (List.subperm_of_subset (nodup_keys hmap.wf.linked) hsub).perm_of_length_le
      (by rw [List.length_map, List.length_map, eq_of_beq hlen])
    refine ⟨hshift, fun key => ?_⟩
    cases hlast : lastStored log key with
    | none =>
        have habsent : key ∉ rhs.entries.map Prod.fst := by
          rw [← hperm.mem_iff, hmap.mem_keys, hlast]
          nofun
        rw [hrhs.mem_keys, Option.not_isSome_iff_eq_none] at habsent
        rw [habsent]
        exact .none
    | some v =>
        have hmem : (key, v) ∈ map.entries := mem_entries.2 ((hmap.holds key v).2 hlast)
        obtain ⟨w, hw, hequal⟩ := hsame key v hmem
        rw [hfind key v hmem] at hw
        have hkey : (lastStored log' key).isSome :=
          hrhs.mem_keys.1 (hsub (List.mem_map_of_mem hmem))
        obtain ⟨u, hu⟩ := Option.isSome_iff_exists.1 hkey
        rw [hu] at hw ⊢
        cases hw
        exact .some hequal
  · rintro ⟨_, hrel⟩
    have hsame : equalEntries ops (find ops rhs) map.entries = .ok true := by
      rw [equalEntries_eq_true]
      intro k v hmem
      refine ⟨_, hfind k v hmem, ?_⟩
      have hrelk := hrel k
      rw [(hmap.holds k v).1 (mem_entries.1 hmem)] at hrelk
      cases hlast : lastStored log' k with
      | none =>
          rw [hlast] at hrelk
          cases hrelk
      | some w =>
          rw [hlast] at hrelk
          cases hrelk with
          | some hequal => exact hequal
    have hkeys : ∀ key, key ∈ map.entries.map Prod.fst ↔ key ∈ rhs.entries.map Prod.fst := by
      intro key
      rw [hmap.mem_keys, hrhs.mem_keys]
      have hrelk := hrel key
      generalize lastStored log key = l, lastStored log' key = r at hrelk
      cases hrelk with
      | none => exact Iff.rfl
      | some _ => exact iff_of_true rfl rfl
    have hperm := (List.perm_ext_iff_of_nodup (nodup_keys hmap.wf.linked)
      (nodup_keys hrhs.wf.linked)).2 hkeys
    have hlen := hperm.length_eq
    rw [List.length_map, List.length_map] at hlen
    rw [hsame, hlen]
    simp [bind, Except.bind, pure, Except.pure]

end Hmap

/-! ## Maps that scripts build -/

/-- A map that `hmap_new` has created and that has been filled by puts of values
under scalar keys. -/
structure Built (map : Hmap) (log : List (Variable × Variable)) : Prop where
  keys : ∀ entry ∈ log, entry.1.IsScalarKey
  values : ∀ entry ∈ log, entry.2 ≠ .nil
  run : ∃ count heap depth resizes start, Hmap.new count = .ok start ∧
    Hmap.putAll (valueOps heap (depth + 1)) (resizes + 1) start log = .ok map

theorem zalloc_of_new {count : Int} {start : Hmap} (hnew : Hmap.new count = .ok start) :
    ∃ shift, 0 < shift ∧ start = Hmap.zalloc shift := by
  have hjoin : ∀ x : Except Fault Nat, (do
      let shift ← x
      if 0 < shift then pure (Hmap.zalloc shift) else throw (Fault.assertion "shift > 0")) =
        .ok start → ∃ shift, 0 < shift ∧ start = Hmap.zalloc shift := by
    intro x hx
    obtain ⟨shift, _, hstart⟩ := except_bind_ok_iff.1 hx
    split at hstart
    next hpos => exact ⟨shift, hpos, (Except.ok.inj hstart).symm⟩
    next => cases hstart
  unfold Hmap.new at hnew
  split at hnew
  next => exact hjoin (pure 5) hnew
  next => exact hjoin (Hmap.log2x count) hnew

variable {map rhs : Hmap} {log log' : List (Variable × Variable)}

theorem Built.represents (hbuilt : Built map log) :
    Hmap.Represents Variable.IsScalarKey scalarHash map log := by
  obtain ⟨count, heap, depth, resizes, start, hnew, hrun⟩ := hbuilt.run
  obtain ⟨shift, hshift, rfl⟩ := zalloc_of_new hnew
  obtain ⟨map', hrun', hrep⟩ :=
    Hmap.putAll_represents (lawfulKeys_scalar heap depth) hshift log hbuilt.keys
  rw [hrun' resizes] at hrun
  cases hrun
  exact hrep

theorem Built.value_ne_nil (hbuilt : Built map log) {key v : Variable}
    (hv : lastStored log key = some v) : v ≠ .nil := by
  have hmem := hbuilt.values
  clear hbuilt
  induction log using List.reverseRecOn with
  | nil => cases hv
  | append_singleton log entry ih =>
      obtain ⟨k, u⟩ := entry
      rw [lastStored_concat] at hv
      by_cases heq : key = k
      · rw [heq, Function.update_self] at hv
        cases hv
        exact hmem (k, v) (by simp)
      · rw [Function.update_of_ne heq] at hv
        exact ih hv fun e he => hmem e (List.mem_append_left _ he)

theorem equals_nil_ne_true (heap : Heap) (depth : Nat) {v : Variable} (hv : v ≠ .nil) :
    (valueOps heap (depth + 1)).equals v .nil ≠ .ok true := by
  have htype : v.type ≠ Variable.nil.type := by
    cases v <;> first
      | exact absurd rfl hv
      | exact Nat.succ_ne_zero _
  intro h
  have hfalse : equalsWith (valueOps heap depth) heap v .nil = .ok false := if_pos htype
  cases h.symm.trans hfalse

/-- One map, or the same keys with equal values under each. -/
def SameContents (heap : Heap) (depth : Nat) (o p : Addr) (log log' : List (Variable × Variable)) :
    Prop :=
  o = p ∨ ∀ key, Option.Rel (fun v w => (valueOps heap depth).equals v w = .ok true)
    (lastStored log key) (lastStored log' key)

/-- Equality of maps is equality of their contents exactly where the tables have
one size or the contents differ. -/
theorem hmap_equals_extensional_iff (heap : Heap) (depth : Nat) {o p : Addr}
    (ho : heap.obj o = some (.hmap map)) (hp : heap.obj p = some (.hmap rhs))
    (hmap : Built map log) (hrhs : Built rhs log') :
    ((valueOps heap (depth + 2)).equals (.hmap o) (.hmap p) = .ok true ↔
        SameContents heap (depth + 1) o p log log') ↔
      o = p ∨ map.shift = rhs.shift ∨ ¬ SameContents heap (depth + 1) o p log log' := by
  have hrun : (valueOps heap (depth + 2)).equals (.hmap o) (.hmap p) =
      if o = p then .ok true else hmapEquals (valueOps heap (depth + 1)) map rhs := by
    have htype : ¬ (Variable.hmap o).type ≠ (Variable.hmap p).type := not_not.2 rfl
    change equalsWith _ heap (.hmap o) (.hmap p) = _
    simp only [equalsWith, if_neg htype, Heap.hmap_eq_ok.2 ho, Heap.hmap_eq_ok.2 hp]
    rfl
  rw [hrun]
  by_cases hsame : o = p
  · rw [if_pos hsame]
    exact iff_of_true (iff_of_true rfl (.inl hsame)) (.inl hsame)
  rw [if_neg hsame, hmap.represents.equals_iff (lawfulKeys_scalar heap depth) hrhs.represents
    fun key v hv => equals_nil_ne_true heap depth (hmap.value_ne_nil hv)]
  have hcontents : SameContents heap (depth + 1) o p log log' ↔
      ∀ key, Option.Rel (fun v w => (valueOps heap (depth + 1)).equals v w = .ok true)
        (lastStored log key) (lastStored log' key) :=
    ⟨fun h => h.resolve_left hsame, .inr⟩
  rw [← hcontents]
  constructor
  · intro hiff
    by_cases hc : SameContents heap (depth + 1) o p log log'
    · exact .inr (.inl (hiff.2 hc).1)
    · exact .inr (.inr hc)
  · rintro (heq | hshift | hno)
    · exact absurd heq hsame
    · exact ⟨fun h => h.2, fun h => ⟨hshift, h⟩⟩
    · exact iff_of_false (fun h => hno h.2) hno

/-- One pair under the key `"a"`. -/
def onePair : List (Variable × Variable) := [(.kstr [97], .int 1)]

/-- The pair in a table of 32 slots, as `{}` has them, and in a table for one
pair. -/
theorem onePair_built : ∃ map rhs, Built map onePair ∧ Built rhs onePair ∧ map.shift = 5 ∧
    rhs.shift = 1 := by
  have hbuild : ∀ (count : Int) (shift : Nat), 0 < shift → Hmap.new count = .ok (Hmap.zalloc shift) →
      (Hmap.putAll (valueOps Heap.empty 1) 1 (Hmap.zalloc shift) onePair).toOption.map Hmap.shift =
        some shift → ∃ map, Built map onePair ∧ map.shift = shift := by
    intro count shift hpos hnew hshift
    have hkeys : ∀ entry ∈ onePair, entry.1.IsScalarKey := by decide
    obtain ⟨map, hrun, _⟩ := Hmap.putAll_represents (lawfulKeys_scalar Heap.empty 0) hpos onePair hkeys
    have hrun := hrun 0
    rw [Nat.zero_add] at hrun
    rw [hrun] at hshift
    exact ⟨map, ⟨hkeys, by decide, count, Heap.empty, 0, 0, _, hnew, hrun⟩, Option.some.inj hshift⟩
  obtain ⟨map, hmap, hshift⟩ := hbuild 0 5 (by decide) rfl (by decide +kernel)
  obtain ⟨rhs, hrhs, hshift'⟩ := hbuild 1 1 (by decide) rfl (by decide +kernel)
  exact ⟨map, rhs, hmap, hrhs, hshift, hshift'⟩

theorem hmap_equals_extensional_pair : ∃ (heap : Heap) (map rhs : Hmap),
    heap.obj 0 = some (.hmap map) ∧ heap.obj 1 = some (.hmap rhs) ∧ Built map onePair ∧
      Built rhs onePair ∧
      (((valueOps heap 2).equals (.hmap 0) (.hmap 1) = .ok true ↔
          SameContents heap 1 0 1 onePair onePair) ↔
        0 = 1 ∨ map.shift = rhs.shift ∨ ¬ SameContents heap 1 0 1 onePair onePair) := by
  obtain ⟨map, rhs, hmap, hrhs, _⟩ := onePair_built
  refine ⟨((Heap.empty.alloc (.hmap map)).1.alloc (.hmap rhs)).1, map, rhs, rfl, rfl, hmap, hrhs, ?_⟩
  exact hmap_equals_extensional_iff _ 0 rfl rfl hmap hrhs

theorem hmap_equals_extensional_counterexample :
    ¬ ∀ (heap : Heap) (depth : Nat) (o p : Addr) (map rhs : Hmap)
      (log log' : List (Variable × Variable)), heap.obj o = some (.hmap map) →
        heap.obj p = some (.hmap rhs) → Built map log → Built rhs log' →
        ((valueOps heap (depth + 2)).equals (.hmap o) (.hmap p) = .ok true ↔
          SameContents heap (depth + 1) o p log log') := by
  intro hall
  obtain ⟨map, rhs, hmap, hrhs, hshift, hshift'⟩ := onePair_built
  have hiff := hall ((Heap.empty.alloc (.hmap map)).1.alloc (.hmap rhs)).1 0 0 1 map rhs onePair
    onePair rfl rfl hmap hrhs
  have hsame : (valueOps ((Heap.empty.alloc (.hmap map)).1.alloc (.hmap rhs)).1 2).equals
      (.hmap 0) (.hmap 1) = .ok true := by
    apply hiff.2
    refine .inr fun key => ?_
    by_cases hkey : key = .kstr [97]
    · subst hkey
      exact .some rfl
    · have hnone : lastStored onePair key = none := by
        rw [← Option.not_isSome_iff_eq_none, lastStored_isSome]
        simpa [onePair] using hkey
      rw [hnone]
      exact .none
  have hfalse : (valueOps ((Heap.empty.alloc (.hmap map)).1.alloc (.hmap rhs)).1 2).equals
      (.hmap 0) (.hmap 1) = .ok false := by
    change hmapEquals _ map rhs = _
    unfold hmapEquals
    rw [if_pos (by rw [hshift, hshift']; decide)]
    rfl
  cases hsame.symm.trans hfalse

end Ymd
