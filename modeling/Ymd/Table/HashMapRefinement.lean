import Ymd.Foundation.StoreLog
import Ymd.Table.HashMapChains
import Mathlib.Data.Fintype.Card

/-! # The hash map refines a finite map

A put never fails, and rehashing never runs out of free slots: the new table
has more than twice as many slots as there are entries to move, so a resize
is never entered while another one is active.
-/

namespace Ymd.Hmap

open Foundation

section

variable {ops : KeyOps} {IsKey : Variable → Prop} {hashOf : Variable → BitVec 64} {shift : Nat}

/-- The number of entries. -/
def used (item : Items shift) : Nat :=
  (Finset.univ.filter fun i => (item i).flag ≠ .free).card

/-- A map as the operations leave it. -/
structure Wf (IsKey : Variable → Prop) (hashOf : Variable → BitVec 64) (map : Hmap) : Prop where
  shift_pos : 0 < map.shift
  free_last : (map.free : Nat) = 2 ^ map.shift - 1
  linked : Linked IsKey hashOf map.item

theorem Wf.zalloc (hshift : 0 < shift) : Wf IsKey hashOf (zalloc shift) where
  shift_pos := hshift
  free_last := rfl
  linked := Linked.zero

theorem used_zalloc (shift : Nat) : used (Hmap.zalloc shift).item = 0 := by
  simp [used, Hmap.zalloc, Kvi.zero]

theorem used_le_succ {item item' : Items shift} (new : Fin (2 ^ shift))
    (hframe : ∀ i, i ≠ new → (item' i).flag ≠ .free → (item i).flag ≠ .free) :
    used item' ≤ used item + 1 := by
  have hsubset : (Finset.univ.filter fun i => (item' i).flag ≠ .free) ⊆
      insert new (Finset.univ.filter fun i => (item i).flag ≠ .free) := by
    intro i hi
    rw [Finset.mem_filter] at hi
    rw [Finset.mem_insert, Finset.mem_filter]
    by_cases heq : i = new
    · exact Or.inl heq
    · exact Or.inr ⟨Finset.mem_univ i, hframe i heq hi.2⟩
  exact (Finset.card_le_card hsubset).trans (Finset.card_insert_le _ _)

theorem Linked.length_le {item : Items shift} {start : Option (Fin (2 ^ shift))}
    {cells : List (Fin (2 ^ shift))} (hchain : Chain (nextOf item) start cells) :
    cells.length ≤ 2 ^ shift := by
  simpa using hchain.nodup.length_le_card

/-! ## The loops -/

theorem allocFrom_some {n i : Nat} {item : Fin n → Kvi n} {hi : i < n} {fnd : Fin n}
    (hfnd : allocFrom item i hi = some fnd) : (item fnd).flag = .free := by
  induction i with
  | zero => exact nomatch hfnd
  | succ i ih =>
      unfold allocFrom at hfnd
      split at hfnd
      next hflag =>
        obtain rfl := Option.some.inj hfnd
        exact hflag
      next => exact ih hfnd

theorem allocFrom_none {n i : Nat} {item : Fin n → Kvi n} {hi : i < n}
    (hnone : allocFrom item i hi = none) (j : Fin n) (hpos : 0 < (j : Nat)) (hj : (j : Nat) ≤ i) :
    (item j).flag ≠ .free := by
  induction i with
  | zero => omega
  | succ i ih =>
      unfold allocFrom at hnone
      split at hnone
      next => exact nomatch hnone
      next hflag =>
        by_cases heq : (j : Nat) = i + 1
        · have hj' : j = ⟨i + 1, hi⟩ := Fin.ext heq
          rw [hj']
          exact hflag
        · exact ih hnone (by omega)

/-- With fewer entries than slots behind slot 0 there is a free slot. -/
theorem Wf.exists_free {map : Hmap} (hwf : Wf IsKey hashOf map)
    (hroom : used map.item < 2 ^ map.shift - 1) : ∃ fnd, map.allocFree = some fnd := by
  cases hfree : map.allocFree with
  | some fnd => exact ⟨fnd, rfl⟩
  | none =>
      let zero : Fin (2 ^ map.shift) := ⟨0, Nat.two_pow_pos map.shift⟩
      have hsubset : Finset.univ.erase zero ⊆
          Finset.univ.filter fun i => (map.item i).flag ≠ .free := by
        intro j hj
        have hne : j ≠ zero := Finset.ne_of_mem_erase hj
        have hpos : 0 < (j : Nat) := Nat.pos_of_ne_zero fun h => hne (Fin.ext h)
        have hle : (j : Nat) ≤ map.free := by
          have := j.isLt
          rw [hwf.free_last]
          omega
        exact Finset.mem_filter.mpr ⟨Finset.mem_univ j, allocFrom_none hfree j hpos hle⟩
      have hcard := Finset.card_le_card hsubset
      rw [Finset.card_erase_of_mem (Finset.mem_univ zero), Finset.card_univ, Fintype.card_fin]
        at hcard
      exact absurd hroom (Nat.not_lt.mpr hcard)

theorem hits_eq (hlaw : LawfulKeys ops IsKey hashOf) {item : Items shift}
    (hlinked : Linked IsKey hashOf item) {key : Variable} (hkey : IsKey key)
    {i : Fin (2 ^ shift)} (hused : (item i).flag ≠ .free) :
    hits ops (item i) key (hashOf key) = pure (decide ((item i).k = key)) := by
  unfold hits
  rw [hlinked.hash i hused]
  split
  next => exact hlaw.equals (hlinked.key i hused) hkey
  next hne =>
    have : (item i).k ≠ key := fun heq => hne (congrArg hashOf heq)
    simp [this]

/-- The loop over a chain finds the key, or stops at the last cell. -/
theorem search_cases (hlaw : LawfulKeys ops IsKey hashOf) {item : Items shift}
    (hlinked : Linked IsKey hashOf item) {key : Variable} (hkey : IsKey key)
    {cells : List (Fin (2 ^ shift))} {start : Fin (2 ^ shift)} {fuel : Nat}
    (hchain : Chain (nextOf item) (some start) cells) (hfuel : cells.length ≤ fuel)
    (hused : ∀ c ∈ cells, (item c).flag ≠ .free) :
    (∃ j ∈ cells, (item j).k = key ∧
        search ops item key (hashOf key) fuel start = pure (j, true)) ∨
      (∀ j ∈ cells, (item j).k ≠ key) ∧ ∃ before pos, cells = before ++ [pos] ∧
        search ops item key (hashOf key) fuel start = pure (pos, false) := by
  induction cells generalizing start fuel with
  | nil => exact nomatch hchain
  | cons cell cells ih =>
      obtain ⟨hstart, hrest⟩ := hchain
      obtain rfl := Option.some.inj hstart
      cases fuel with
      | zero => simp at hfuel
      | succ fuel =>
          have hstartUsed := hused start List.mem_cons_self
          have hhit := hits_eq hlaw hlinked hkey hstartUsed
          by_cases heq : (item start).k = key
          · refine Or.inl ⟨start, List.mem_cons_self, heq, ?_⟩
            rw [search, hhit]
            simp [heq]
          · change Chain (nextOf item) (item start).next cells at hrest
            cases hnext : (item start).next with
            | none =>
                rw [hnext] at hrest
                cases cells with
                | nil =>
                    refine Or.inr ⟨by simpa using heq, [], start, rfl, ?_⟩
                    rw [search, hhit]
                    simp [heq, hnext]
                | cons other cells => exact nomatch hrest.1
            | some next =>
                rw [hnext] at hrest
                -- the key is not in this cell, and the search follows the chain
                have hstep : search ops item key (hashOf key) (fuel + 1) start =
                    search ops item key (hashOf key) fuel next := by
                  rw [search, hhit]
                  simp [heq, hnext]
                rw [hstep]
                have htail := ih hrest (by simpa using hfuel)
                  (fun c hc => hused c (List.mem_cons_of_mem _ hc))
                obtain ⟨j, hj, hjk, hsearch⟩ | ⟨hnot, before, pos, hsplit, hsearch⟩ := htail
                · exact Or.inl ⟨j, List.mem_cons_of_mem _ hj, hjk, hsearch⟩
                · refine Or.inr ⟨?_, start :: before, pos, by simp [hsplit], hsearch⟩
                  simpa [heq] using hnot

/-- The loop of `index_if_node` finds the cell before the slot. -/
theorem prevOf_eq {item : Items shift} {slot prev start : Fin (2 ^ shift)} {fuel : Nat}
    {before after : List (Fin (2 ^ shift))}
    (hchain : Chain (nextOf item) (some start) (before ++ prev :: slot :: after))
    (hfuel : before.length < fuel) : prevOf item slot fuel start = pure prev := by
  induction before generalizing start fuel with
  | nil =>
      obtain ⟨hstart, hnext, _⟩ := hchain
      obtain rfl := Option.some.inj hstart
      change (item start).next = some slot at hnext
      cases fuel with
      | zero => simp at hfuel
      | succ fuel => rw [prevOf, if_pos hnext]
  | cons cell before ih =>
      have hnodup := hchain.nodup
      obtain ⟨hstart, hrest⟩ := hchain
      obtain rfl := Option.some.inj hstart
      cases fuel with
      | zero => simp at hfuel
      | succ fuel =>
          change Chain (nextOf item) (item start).next (before ++ prev :: slot :: after) at hrest
          have hne : (item start).next ≠ some slot := by
            intro heq
            rw [heq] at hrest
            cases before with
            | nil =>
                have hps : slot = prev := Option.some.inj hrest.1
                simp [hps] at hnodup
            | cons other before =>
                have hps : slot = other := Option.some.inj hrest.1
                simp [hps] at hnodup
          rw [prevOf, if_neg hne]
          cases hnext : (item start).next with
          | none =>
              rw [hnext] at hrest
              cases before with
              | nil => exact nomatch hrest.1
              | cons other before => exact nomatch hrest.1
          | some next =>
              rw [hnext] at hrest
              exact ih hrest (by simpa using hfuel)

/-! ## One put -/

/-- What `hindex` achieves, seen once the key is written to the entry: other
keys keep their values. -/
structure Indexed (IsKey : Variable → Prop) (hashOf : Variable → BitVec 64) (map : Hmap)
    (key : Variable) (e : Entry) : Prop where
  wf : Wf IsKey hashOf (e.setKey key).map
  inUse : ((e.setKey key).map.item e.slot).flag ≠ .free
  others : ∀ k v, k ≠ key → (Holds (e.setKey key).map.item k v ↔ Holds map.item k v)

theorem setKey_of_mem {map : Hmap} {pos : Fin (2 ^ map.shift)} {key : Variable}
    (hk : (map.item pos).k = key) : (Entry.setKey ⟨map, pos⟩ key).map = map := by
  subst hk
  simp [Entry.setKey]

theorem Wf.withItem {map : Hmap} (hwf : Wf IsKey hashOf map) {item : Items map.shift}
    (hlinked : Linked IsKey hashOf item) : Wf IsKey hashOf { map with item := item } :=
  ⟨hwf.shift_pos, hwf.free_last, hlinked⟩

/-- `hindex` on a free home slot. -/
theorem indexed_free {map : Hmap} (hwf : Wf IsKey hashOf map) {key : Variable} (hkey : IsKey key)
    (habsent : Absent map.item key) {p : Fin (2 ^ map.shift)}
    (hp : position map.shift (hashOf key) = p) (hfree : (map.item p).flag = .free) :
    let head : Kvi (2 ^ map.shift) := { map.item p with flag := .slot, hash := hashOf key }
    let e : Entry := ⟨{ map with item := Function.update map.item p head }, p⟩
    Indexed IsKey hashOf map key e ∧ used (e.setKey key).map.item ≤ used map.item + 1 := by
  intro head e
  have hself : (e.setKey key).map.item p =
      { map.item p with flag := .slot, hash := hashOf key, k := key } := by
    simp [e, Entry.setKey, head]
  have hframe : ∀ i, i ≠ p → (e.setKey key).map.item i = map.item i := by
    intro i hi
    simp [e, Entry.setKey, hi]
  refine ⟨⟨hwf.withItem ?_, ?_, ?_⟩, ?_⟩
  · exact hwf.linked.fillHome hkey habsent hp hfree hself hframe
  · change ((e.setKey key).map.item p).flag ≠ .free
    rw [hself]
    simp
  · intro k v hk
    constructor
    · rintro ⟨i, hi, hik, hiv⟩
      have hne : i ≠ p := by
        intro heq
        rw [heq, hself] at hik
        exact hk hik.symm
      rw [hframe i hne] at hi hik hiv
      exact ⟨i, hi, hik, hiv⟩
    · rintro ⟨i, hi, hik, hiv⟩
      have hne : i ≠ p := fun heq => hi (heq ▸ hfree)
      exact ⟨i, by rwa [hframe i hne], by rwa [hframe i hne], by rwa [hframe i hne]⟩
  · refine used_le_succ p fun i hi hused => ?_
    rwa [hframe i hi] at hused


/-- `index_if_head` linking a new node behind the last cell. -/
theorem indexed_append {map : Hmap} (hwf : Wf IsKey hashOf map) {key : Variable}
    (hkey : IsKey key) (habsent : Absent map.item key) {p pos fnd : Fin (2 ^ map.shift)}
    {cells : List (Fin (2 ^ map.shift))} (hp : position map.shift (hashOf key) = p)
    (hhead : (map.item p).flag = .slot)
    (hchain : Chain (nextOf map.item) (some p) (cells ++ [pos]))
    (hfree : (map.item fnd).flag = .free) :
    let node : Kvi (2 ^ map.shift) :=
      { map.item fnd with hash := hashOf key, flag := .node, next := (map.item pos).next }
    let item := Function.update map.item fnd node
    let item := Function.update item pos { item pos with next := some fnd }
    let e : Entry := ⟨{ map with item := item }, fnd⟩
    Indexed IsKey hashOf map key e ∧ used (e.setKey key).map.item ≤ used map.item + 1 := by
  intro node item item' e
  obtain ⟨cells', hchain', hmem⟩ := hwf.linked.heads p hhead
  obtain rfl : cells' = cells ++ [pos] := hchain'.unique hchain
  have hposUsed : (map.item pos).flag ≠ .free := ((hmem pos).mp (by simp)).1
  have hne : fnd ≠ pos := fun heq => hposUsed (heq ▸ hfree)
  have hlast : (map.item pos).next = none := hchain.tail_of_append
  have hself : (e.setKey key).map.item fnd =
      { map.item fnd with hash := hashOf key, flag := .node, k := key, next := none } := by
    simp [e, Entry.setKey, item', item, node, hne, hlast]
  have hpos : (e.setKey key).map.item pos = { map.item pos with next := some fnd } := by
    simp [e, Entry.setKey, item', item, hne.symm]
  have hframe : ∀ i, i ≠ fnd → i ≠ pos → (e.setKey key).map.item i = map.item i := by
    intro i hif hip
    simp [e, Entry.setKey, item', item, hif, hip]
  -- the last cell of the chain gets a link, and nothing else of it changes
  have hsame : ∀ i, i ≠ fnd → ((e.setKey key).map.item i).flag = (map.item i).flag ∧
      ((e.setKey key).map.item i).k = (map.item i).k ∧
      ((e.setKey key).map.item i).v = (map.item i).v := by
    intro i hif
    by_cases hip : i = pos
    · rw [hip, hpos]
      exact ⟨rfl, rfl, rfl⟩
    · rw [hframe i hif hip]
      exact ⟨rfl, rfl, rfl⟩
  refine ⟨⟨hwf.withItem ?_, ?_, ?_⟩, ?_⟩
  · exact hwf.linked.appendNode hkey habsent hp hhead hchain hfree hself hpos hframe
  · change ((e.setKey key).map.item fnd).flag ≠ .free
    rw [hself]
    simp
  · intro k v hk
    constructor
    · rintro ⟨i, hi, hik, hiv⟩
      have hif : i ≠ fnd := by
        intro heq
        rw [heq, hself] at hik
        exact hk hik.symm
      obtain ⟨hflag, hkk, hvv⟩ := hsame i hif
      exact ⟨i, hflag ▸ hi, hkk ▸ hik, hvv ▸ hiv⟩
    · rintro ⟨i, hi, hik, hiv⟩
      obtain ⟨hflag, hkk, hvv⟩ := hsame i (fun heq => hi (heq ▸ hfree))
      exact ⟨i, hflag ▸ hi, hkk ▸ hik, hvv ▸ hiv⟩
  · refine used_le_succ fnd fun i hi hused => ?_
    rwa [(hsame i hi).1] at hused

/-- `index_if_node` moving the foreign node out of the home slot. -/
theorem indexed_move {map : Hmap} (hwf : Wf IsKey hashOf map) {key : Variable}
    (hkey : IsKey key) (habsent : Absent map.item key) {slot prev fnd : Fin (2 ^ map.shift)}
    {before after : List (Fin (2 ^ map.shift))} (hp : position map.shift (hashOf key) = slot)
    (hnode : (map.item slot).flag = .node)
    (hchain : Chain (nextOf map.item) (some (home hashOf map.item slot))
      (before ++ prev :: slot :: after))
    (hfree : (map.item fnd).flag = .free) :
    let node : Kvi (2 ^ map.shift) :=
      { hash := hashOf (map.item slot).k, flag := .node, k := (map.item slot).k,
        next := (map.item slot).next, v := (map.item slot).v }
    let item := Function.update map.item fnd node
    let item := Function.update item prev { item prev with next := some fnd }
    let item := Function.update item slot
      { item slot with hash := hashOf key, flag := .slot, next := none }
    let e : Entry := ⟨{ map with item := item }, slot⟩
    Indexed IsKey hashOf map key e ∧ used (e.setKey key).map.item ≤ used map.item + 1 := by
  intro node item item' item'' e
  have hslotUsed : (map.item slot).flag ≠ .free := by rw [hnode]; decide
  obtain ⟨cells, hcells, hmem⟩ := hwf.linked.heads _ (hwf.linked.homed slot hslotUsed)
  obtain rfl : cells = before ++ prev :: slot :: after := hcells.unique hchain
  have hprevUsed : (map.item prev).flag ≠ .free := ((hmem prev).mp (by simp)).1
  have hsf : slot ≠ fnd := fun heq => hslotUsed (heq ▸ hfree)
  have hpf : prev ≠ fnd := fun heq => hprevUsed (heq ▸ hfree)
  have hps : prev ≠ slot := by
    rintro rfl
    have hnodup := (List.nodup_append.mp hchain.nodup).2.1
    simp at hnodup
  -- the table between the two halves: the node is moved, its old slot is free
  let moved : Items map.shift := Function.update (Function.update (Function.update map.item fnd
    { map.item slot with flag := .node }) prev { map.item prev with next := some fnd }) slot
    { map.item slot with flag := .free, next := none }
  have hmovedFnd : moved fnd = { map.item slot with flag := .node } := by
    simp [moved, hsf.symm, hpf.symm]
  have hmovedPrev : moved prev = { map.item prev with next := some fnd } := by
    simp [moved, hps]
  have hmovedSlot : moved slot = { map.item slot with flag := .free, next := none } := by
    simp [moved]
  have hmovedFrame : ∀ i, i ≠ fnd → i ≠ prev → i ≠ slot → moved i = map.item i := by
    intro i hif hip his
    simp [moved, hif, hip, his]
  have hmoved : Linked IsKey hashOf moved :=
    hwf.linked.moveNode hnode hchain hfree hmovedFnd hmovedPrev hmovedSlot hmovedFrame
  have hmovedHolds : ∀ k v, Holds moved k v ↔ Holds map.item k v := by
    intro k v
    constructor
    · rintro ⟨i, hi, hik, hiv⟩
      by_cases his : i = slot
      · rw [his, hmovedSlot] at hi
        exact absurd rfl hi
      · by_cases hif : i = fnd
        · rw [hif, hmovedFnd] at hik hiv
          exact ⟨slot, hslotUsed, hik, hiv⟩
        · by_cases hip : i = prev
          · rw [hip, hmovedPrev] at hi hik hiv
            exact ⟨prev, hi, hik, hiv⟩
          · rw [hmovedFrame i hif hip his] at hi hik hiv
            exact ⟨i, hi, hik, hiv⟩
    · rintro ⟨i, hi, hik, hiv⟩
      by_cases his : i = slot
      · subst his
        refine ⟨fnd, ?_, ?_, ?_⟩ <;> rw [hmovedFnd]
        · simp
        · exact hik
        · exact hiv
      · have hif : i ≠ fnd := fun heq => hi (heq ▸ hfree)
        by_cases hip : i = prev
        · subst hip
          refine ⟨i, ?_, ?_, ?_⟩ <;> rw [hmovedPrev]
          · exact hi
          · exact hik
          · exact hiv
        · rw [← hmovedFrame i hif hip his] at hi hik hiv
          exact ⟨i, hi, hik, hiv⟩
  have hmovedAbsent : Absent moved key := by
    intro i hi hik
    obtain ⟨j, hj, hjk, _⟩ := (hmovedHolds key (moved i).v).mp ⟨i, hi, hik, rfl⟩
    exact habsent j hj hjk
  have hself : (e.setKey key).map.item slot =
      { moved slot with flag := .slot, hash := hashOf key, k := key } := by
    simp [e, Entry.setKey, item'', item', item, hsf, hps.symm, hmovedSlot]
  have hslotHash := hwf.linked.hash slot hslotUsed
  have hframe : ∀ i, i ≠ slot → (e.setKey key).map.item i = moved i := by
    intro i his
    by_cases hip : i = prev
    · subst hip
      simp [e, Entry.setKey, item'', item', item, his, hpf, hmovedPrev]
    · by_cases hif : i = fnd
      · subst hif
        simp [e, Entry.setKey, item'', item', item, his, hip, hmovedFnd, node, ← hslotHash]
      · simp [e, Entry.setKey, item'', item', item, his, hip, hif,
          hmovedFrame i hif hip his]
  refine ⟨⟨hwf.withItem ?_, ?_, ?_⟩, ?_⟩
  · exact hmoved.fillHome hkey hmovedAbsent hp (by rw [hmovedSlot]) hself hframe
  · change ((e.setKey key).map.item slot).flag ≠ .free
    rw [hself]
    simp
  · intro k v hk
    rw [← hmovedHolds k v]
    constructor
    · rintro ⟨i, hi, hik, hiv⟩
      have his : i ≠ slot := by
        intro heq
        rw [heq, hself] at hik
        exact hk hik.symm
      rw [hframe i his] at hi hik hiv
      exact ⟨i, hi, hik, hiv⟩
    · rintro ⟨i, hi, hik, hiv⟩
      have his : i ≠ slot := by
        intro heq
        rw [heq, hmovedSlot] at hi
        exact hi rfl
      rw [← hframe i his] at hi hik hiv
      exact ⟨i, hi, hik, hiv⟩
  · refine used_le_succ fnd fun i hif hused => ?_
    by_cases his : i = slot
    · exact his ▸ hslotUsed
    · rw [hframe i his] at hused
      by_cases hip : i = prev
      · exact hip ▸ hprevUsed
      · rwa [hmovedFrame i hif hip his] at hused

/-- A key whose home slot is no head has no entry. -/
theorem Linked.absent_of_home {item : Items shift} (hlinked : Linked IsKey hashOf item)
    {key : Variable} (hflag : (item (position shift (hashOf key))).flag ≠ .slot) :
    Absent item key := by
  rintro i hi rfl
  exact hflag (hlinked.homed i hi)

/-- A key is absent when the chain of its home slot does not hold it. -/
theorem Linked.absent_of_chain {item : Items shift} {key : Variable}
    {cells : List (Fin (2 ^ shift))}
    (hmem : ∀ i, i ∈ cells ↔ (item i).flag ≠ .free ∧
      home hashOf item i = position shift (hashOf key))
    (hnot : ∀ j ∈ cells, (item j).k ≠ key) : Absent item key := by
  rintro i hi rfl
  exact hnot i ((hmem i).mpr ⟨hi, rfl⟩) rfl

theorem indexed_found {map : Hmap} (hwf : Wf IsKey hashOf map) {key : Variable}
    {pos : Fin (2 ^ map.shift)} (hpos : (map.item pos).flag ≠ .free)
    (hk : (map.item pos).k = key) : Indexed IsKey hashOf map key ⟨map, pos⟩ := by
  have hmap := setKey_of_mem hk
  refine ⟨by rwa [hmap], ?_, ?_⟩
  · have hitem : (Entry.setKey ⟨map, pos⟩ key).map.item = map.item := by
      subst hk
      simp [Entry.setKey]
    rwa [hitem]
  · intro k v _
    rw [hmap]

/-- A node has a predecessor on the chain of its home slot. -/
theorem Linked.exists_prev {item : Items shift} (hlinked : Linked IsKey hashOf item)
    {slot : Fin (2 ^ shift)} (hnode : (item slot).flag = .node) :
    ∃ before prev after, Chain (nextOf item) (some (home hashOf item slot))
      (before ++ prev :: slot :: after) := by
  have hused : (item slot).flag ≠ .free := by rw [hnode]; decide
  obtain ⟨cells, hchain, hmem⟩ := hlinked.heads _ (hlinked.homed slot hused)
  obtain ⟨front, after, rfl⟩ := List.append_of_mem ((hmem slot).mpr ⟨hused, rfl⟩)
  cases hfront : front using List.reverseRecOn with
  | nil =>
      -- the slot would be the head of its chain
      subst hfront
      exact absurd (Option.some.inj hchain.1) (hlinked.home_ne_of_node hnode)
  | append_singleton before prev =>
      subst hfront
      exact ⟨before, prev, after, by simpa using hchain⟩

/-- `hindex` while there is a free slot: it does not matter how the table
would grow, and at most one slot is taken. -/
theorem indexWith_of_free (hlaw : LawfulKeys ops IsKey hashOf) {map : Hmap}
    (hwf : Wf IsKey hashOf map) {key : Variable} (hkey : IsKey key)
    {fnd : Fin (2 ^ map.shift)} (hfree : map.allocFree = some fnd) :
    ∃ e, (∀ grow, indexWith ops grow map key = pure e) ∧ Indexed IsKey hashOf map key e ∧
      e.map.shift = map.shift ∧ used (e.setKey key).map.item ≤ used map.item + 1 := by
  have hfndFree : (map.item fnd).flag = .free := allocFrom_some hfree
  cases hflag : (map.item (position map.shift (hashOf key))).flag with
  | free =>
      have habsent : Absent map.item key :=
        hwf.linked.absent_of_home (by rw [hflag]; decide)
      obtain ⟨hindexed, hcount⟩ := indexed_free hwf hkey habsent rfl hflag
      refine ⟨_, fun grow => ?_, hindexed, rfl, hcount⟩
      simp only [indexWith, hlaw.hash hkey, pure_bind, hflag]
  | slot =>
      obtain ⟨cells, hchain, hmem⟩ := hwf.linked.heads _ hflag
      have hsearch := search_cases hlaw hwf.linked hkey hchain (Linked.length_le hchain)
        (fun c hc => ((hmem c).mp hc).1)
      obtain ⟨j, hj, hjk, hsearch⟩ | ⟨hnot, before, pos, rfl, hsearch⟩ := hsearch
      · refine ⟨⟨map, j⟩, fun grow => ?_, indexed_found hwf ((hmem j).mp hj).1 hjk, rfl, ?_⟩
        · simp only [indexWith, hlaw.hash hkey, pure_bind, hflag, indexIfHead, hsearch, if_true]
        · rw [setKey_of_mem hjk]
          omega
      · have habsent := Linked.absent_of_chain hmem hnot
        obtain ⟨hindexed, hcount⟩ := indexed_append hwf hkey habsent rfl hflag hchain hfndFree
        refine ⟨_, fun grow => ?_, hindexed, rfl, hcount⟩
        have hlast : (map.item pos).next = none := hchain.tail_of_append
        simp only [indexWith, hlaw.hash hkey, pure_bind, hflag, indexIfHead, hsearch, hfree,
          hlast, Bool.false_eq_true, if_false, Option.isSome_none]
  | node =>
      have habsent : Absent map.item key :=
        hwf.linked.absent_of_home (by rw [hflag]; decide)
      obtain ⟨before, prev, after, hchain⟩ := hwf.linked.exists_prev hflag
      obtain ⟨hindexed, hcount⟩ := indexed_move hwf hkey habsent rfl hflag hchain hfndFree
      have hslotUsed : (map.item (position map.shift (hashOf key))).flag ≠ .free := by
        rw [hflag]; decide
      have hslotHash := hlaw.hash (hwf.linked.key _ hslotUsed)
      have hlength := Linked.length_le hchain
      have hprev : prevOf map.item (position map.shift (hashOf key)) (2 ^ map.shift)
          (home hashOf map.item (position map.shift (hashOf key))) = pure prev := by
        refine prevOf_eq hchain ?_
        simp only [List.length_append, List.length_cons] at hlength
        omega
      refine ⟨_, fun grow => ?_, hindexed, rfl, hcount⟩
      rw [home] at hprev
      simp only [indexWith, hlaw.hash hkey, pure_bind, hflag, indexIfNode, hfree, hslotHash, hprev]

/-- What `*hmap_put(map, key) = v` achieves. -/
structure Stored (IsKey : Variable → Prop) (hashOf : Variable → BitVec 64) (map : Hmap)
    (key v : Variable) (map' : Hmap) : Prop where
  wf : Wf IsKey hashOf map'
  holds : ∀ k w, Holds map'.item k w ↔ if k = key then w = v else Holds map.item k w

/-- Storing through a pointer replaces the value of that entry's key. -/
theorem Linked.holds_store {item : Items shift} (hlinked : Linked IsKey hashOf item)
    {slot : Fin (2 ^ shift)} (hused : (item slot).flag ≠ .free) (v k w : Variable) :
    Holds (Function.update item slot { item slot with v := v }) k w ↔
      if k = (item slot).k then w = v else Holds item k w := by
  have hother : ∀ i, i ≠ slot →
      Function.update item slot { item slot with v := v } i = item i := fun i hi => by simp [hi]
  by_cases hk : k = (item slot).k
  · rw [if_pos hk]
    constructor
    · rintro ⟨i, hi, hik, hiw⟩
      by_cases his : i = slot
      · simpa [his] using hiw.symm
      · rw [hother i his] at hi hik
        exact absurd (hlinked.inj i slot hi hused (hik.trans hk)) his
    · rintro rfl
      exact ⟨slot, by simpa using hused, by simp [hk], by simp⟩
  · rw [if_neg hk]
    constructor
    · rintro ⟨i, hi, hik, hiw⟩
      have his : i ≠ slot := by
        rintro rfl
        exact hk (by simpa using hik.symm)
      rw [hother i his] at hi hik hiw
      exact ⟨i, hi, hik, hiw⟩
    · rintro ⟨i, hi, hik, hiw⟩
      have his : i ≠ slot := by
        rintro rfl
        exact hk hik.symm
      exact ⟨i, by rwa [hother i his], by rwa [hother i his], by rwa [hother i his]⟩

theorem Indexed.stored {map : Hmap} {key : Variable} {e : Entry}
    (hindexed : Indexed IsKey hashOf map key e) (v : Variable) :
    Stored IsKey hashOf map key v ((e.setKey key).store v) := by
  obtain ⟨hwf, hinUse, hothers⟩ := hindexed
  have hslotKey : ((e.setKey key).map.item e.slot).k = key := by simp [Entry.setKey]
  refine ⟨⟨hwf.shift_pos, hwf.free_last, hwf.linked.store hinUse⟩, fun k w => ?_⟩
  refine (hwf.linked.holds_store hinUse v k w).trans ?_
  rw [hslotKey]
  by_cases hk : k = key
  · rw [if_pos hk, if_pos hk]
  · rw [if_neg hk, if_neg hk, hothers k w hk]

theorem used_store {item : Items shift} (slot : Fin (2 ^ shift)) (v : Variable) :
    used (Function.update item slot { item slot with v := v }) = used item := by
  unfold used
  congr 1
  refine Finset.filter_congr fun i _ => ?_
  by_cases hi : i = slot <;> simp [hi]

/-- One `*hmap_put(map, key) = v` while there is a free slot. -/
theorem putWith_of_free (hlaw : LawfulKeys ops IsKey hashOf) {map : Hmap}
    (hwf : Wf IsKey hashOf map) {key : Variable} (hkey : IsKey key)
    {fnd : Fin (2 ^ map.shift)} (hfree : map.allocFree = some fnd) (v : Variable) :
    ∃ e, (∀ grow, putWith ops grow map key = pure e) ∧
      Stored IsKey hashOf map key v (e.store v) ∧ (e.store v).shift = map.shift ∧
      used (e.store v).item ≤ used map.item + 1 := by
  obtain ⟨e, hindex, hindexed, hshift, hcount⟩ := indexWith_of_free hlaw hwf hkey hfree
  refine ⟨e.setKey key, fun grow => ?_, hindexed.stored v, hshift, ?_⟩
  · simp [putWith, hlaw.notNil hkey, hindex grow]
  · exact (used_store e.slot v).trans_le hcount

/-! ## Rehashing -/

/-- The new table after the old entries in `done` have been put. -/
structure Loaded (IsKey : Variable → Prop) (hashOf : Variable → BitVec 64) (bak : Items shift)
    (done : List (Fin (2 ^ shift))) (map : Hmap) : Prop where
  wf : Wf IsKey hashOf map
  shift : map.shift = shift + 1
  used_le : used map.item ≤ done.length
  holds : ∀ k v, Holds map.item k v ↔
    ∃ i ∈ done, (bak i).flag ≠ .free ∧ (bak i).k = k ∧ (bak i).v = v

/-- The doubled table has room for one more entry than the old table has slots. -/
theorem Loaded.exists_free {bak : Items shift} {done : List (Fin (2 ^ shift))} {map : Hmap}
    (hshift : 0 < shift) (hloaded : Loaded IsKey hashOf bak done map) (hdone : done.Nodup) :
    ∃ fnd, map.allocFree = some fnd := by
  apply hloaded.wf.exists_free
  have hlength : done.length ≤ 2 ^ shift := by simpa using hdone.length_le_card
  have hused := hloaded.used_le
  have htwo : 2 ^ 1 ≤ 2 ^ shift := Nat.pow_le_pow_right (by decide) hshift
  have hslots : 2 ^ map.shift = 2 ^ shift * 2 := by rw [hloaded.shift, Nat.pow_succ]
  omega

/-- A free slot of the old table holds nothing to move. -/
theorem Loaded.skip {bak : Items shift} {done : List (Fin (2 ^ shift))} {map : Hmap}
    (hloaded : Loaded IsKey hashOf bak done map) {i : Fin (2 ^ shift)}
    (hfree : (bak i).flag = .free) : Loaded IsKey hashOf bak (done ++ [i]) map := by
  refine ⟨hloaded.wf, hloaded.shift, ?_, fun k v => ?_⟩
  · have := hloaded.used_le
    simp only [List.length_append, List.length_singleton]
    omega
  · rw [hloaded.holds]
    simp [or_and_right, exists_or, hfree]

theorem Loaded.put {bak : Items shift} (hbak : Linked IsKey hashOf bak)
    {done : List (Fin (2 ^ shift))} {map map' : Hmap} (hloaded : Loaded IsKey hashOf bak done map)
    {i : Fin (2 ^ shift)} (hused : (bak i).flag ≠ .free)
    (hstored : Stored IsKey hashOf map (bak i).k (bak i).v map') (hshift : map'.shift = map.shift)
    (hcount : used map'.item ≤ used map.item + 1) :
    Loaded IsKey hashOf bak (done ++ [i]) map' := by
  refine ⟨hstored.wf, hshift.trans hloaded.shift, ?_, fun k v => ?_⟩
  · have := hloaded.used_le
    simp only [List.length_append, List.length_singleton]
    omega
  · rw [hstored.holds]
    by_cases hk : k = (bak i).k
    · rw [if_pos hk]
      constructor
      · rintro rfl
        exact ⟨i, by simp, hused, hk.symm, rfl⟩
      · rintro ⟨j, _, hj, hjk, hjv⟩
        have : j = i := hbak.inj j i hj hused (hjk.trans hk)
        rw [← hjv, this]
    · rw [if_neg hk, hloaded.holds]
      constructor
      · rintro ⟨j, hjin, hj⟩
        exact ⟨j, List.mem_append_left _ hjin, hj⟩
      · rintro ⟨j, hjin, hj, hjk, hjv⟩
        obtain hjin | hjin := List.mem_append.mp hjin
        · exact ⟨j, hjin, hj, hjk, hjv⟩
        · rw [List.mem_singleton.mp hjin] at hjk
          exact absurd hjk.symm hk

theorem rehash_spec (hlaw : LawfulKeys ops IsKey hashOf) (hshift : 0 < shift)
    {bak : Items shift} (hbak : Linked IsKey hashOf bak) {done rest : List (Fin (2 ^ shift))}
    {map : Hmap} (hnodup : (done ++ rest).Nodup) (hloaded : Loaded IsKey hashOf bak done map) :
    ∃ map', (∀ grow, rehash ops grow bak rest map = pure map') ∧
      Loaded IsKey hashOf bak (done ++ rest) map' := by
  induction rest generalizing done map with
  | nil => exact ⟨map, fun _ => rfl, by simpa using hloaded⟩
  | cons i rest ih =>
      have hsplit : done ++ i :: rest = (done ++ [i]) ++ rest := by simp
      rw [hsplit] at hnodup ⊢
      by_cases hfree : (bak i).flag = .free
      · obtain ⟨map', hrun, hdone⟩ := ih hnodup (hloaded.skip hfree)
        exact ⟨map', fun grow => by rw [rehash, if_pos hfree, hrun], hdone⟩
      · have hdone : done.Nodup := (List.nodup_append.mp (List.nodup_append.mp hnodup).1).1
        obtain ⟨fnd, hfnd⟩ := hloaded.exists_free hshift hdone
        obtain ⟨e, hput, hstored, heshift, hcount⟩ :=
          putWith_of_free hlaw hloaded.wf (hbak.key i hfree) hfnd (bak i).v
        obtain ⟨map', hrun, hfinal⟩ := ih hnodup (hloaded.put hbak hfree hstored heshift hcount)
        refine ⟨map', fun grow => ?_, hfinal⟩
        simp only [rehash, if_neg hfree, hput grow, pure_bind, hrun]

/-- A resize moves every entry and leaves a free slot, without growing again. -/
theorem resizeWith_spec (hlaw : LawfulKeys ops IsKey hashOf) {map : Hmap}
    (hwf : Wf IsKey hashOf map) :
    ∃ map', (∀ grow, resizeWith ops grow map (map.shift + 1) = pure map') ∧
      Wf IsKey hashOf map' ∧ (∃ fnd, map'.allocFree = some fnd) ∧
      ∀ k v, Holds map'.item k v ↔ Holds map.item k v := by
  have hstart : Loaded IsKey hashOf map.item [] (zalloc (map.shift + 1)) := by
    refine ⟨Wf.zalloc (Nat.succ_pos _), rfl, by rw [used_zalloc]; exact Nat.zero_le _, ?_⟩
    intro k v
    simp [Holds, zalloc, Kvi.zero]
  have hnodup : ([] ++ List.finRange (2 ^ map.shift)).Nodup := List.nodup_finRange _
  obtain ⟨map', hrun, hloaded⟩ := rehash_spec hlaw hwf.shift_pos hwf.linked hnodup hstart
  refine ⟨map', fun grow => ?_, hloaded.wf,
    hloaded.exists_free hwf.shift_pos (List.nodup_finRange _), fun k v => ?_⟩
  · have hpos := hwf.shift_pos
    simp only [resizeWith, Nat.lt_succ_self, if_true, if_neg hpos.ne', hrun]
  · rw [hloaded.holds]
    simp [Holds]

/-- `hindex` always succeeds, and at most one resize is active in it. -/
theorem index_spec (hlaw : LawfulKeys ops IsKey hashOf) {map : Hmap}
    (hwf : Wf IsKey hashOf map) {key : Variable} (hkey : IsKey key) :
    ∃ e, (∀ depth, index ops (depth + 1) map key = pure e) ∧
      Indexed IsKey hashOf map key e := by
  cases hfree : map.allocFree with
  | some fnd =>
      obtain ⟨e, hindex, hindexed, _⟩ := indexWith_of_free hlaw hwf hkey hfree
      exact ⟨e, fun depth => hindex _, hindexed⟩
  | none =>
      obtain ⟨grown, hresize, hgrown, ⟨fnd, hfnd⟩, hholds⟩ := resizeWith_spec hlaw hwf
      obtain ⟨e, hretry, hretried, _⟩ := indexWith_of_free hlaw hgrown hkey hfnd
      have hgrow : ∀ depth, grow ops (depth + 1) map key = pure e := by
        intro depth
        simp only [grow, hresize, pure_bind, hretry]
      have hindexed : Indexed IsKey hashOf map key e :=
        ⟨hretried.wf, hretried.inUse, fun k v hk => (hretried.others k v hk).trans (hholds k v)⟩
      cases hflag : (map.item (position map.shift (hashOf key))).flag with
      | free =>
          have habsent : Absent map.item key :=
        hwf.linked.absent_of_home (by rw [hflag]; decide)
          refine ⟨_, fun depth => ?_, (indexed_free hwf hkey habsent rfl hflag).1⟩
          simp only [index, indexWith, hlaw.hash hkey, pure_bind, hflag]
      | slot =>
          obtain ⟨cells, hchain, hmem⟩ := hwf.linked.heads _ hflag
          have hsearch := search_cases hlaw hwf.linked hkey hchain (Linked.length_le hchain)
            (fun c hc => ((hmem c).mp hc).1)
          obtain ⟨j, hj, hjk, hsearch⟩ | ⟨_, _, pos, _, hsearch⟩ := hsearch
          · refine ⟨⟨map, j⟩, fun depth => ?_, indexed_found hwf ((hmem j).mp hj).1 hjk⟩
            simp only [index, indexWith, hlaw.hash hkey, pure_bind, hflag, indexIfHead, hsearch,
              if_true]
          · refine ⟨e, fun depth => ?_, hindexed⟩
            simp only [index, indexWith, hlaw.hash hkey, pure_bind, hflag, indexIfHead, hsearch,
              hfree, Bool.false_eq_true, if_false, hgrow]
      | node =>
          refine ⟨e, fun depth => ?_, hindexed⟩
          simp only [index, indexWith, hlaw.hash hkey, pure_bind, hflag, indexIfNode, hfree, hgrow]

/-! ## Lookups and runs -/

theorem find_spec (hlaw : LawfulKeys ops IsKey hashOf) {map : Hmap}
    (hwf : Wf IsKey hashOf map) {key : Variable} (hkey : IsKey key) :
    (∃ v, Holds map.item key v ∧ find ops map key = pure v) ∨
      Absent map.item key ∧ find ops map key = pure .nil := by
  cases hflag : (map.item (position map.shift (hashOf key))).flag with
  | free =>
      refine Or.inr ⟨hwf.linked.absent_of_home (by rw [hflag]; decide), ?_⟩
      simp only [find, hlaw.hash hkey, pure_bind, hflag]
  | node =>
      refine Or.inr ⟨hwf.linked.absent_of_home (by rw [hflag]; decide), ?_⟩
      simp only [find, hlaw.hash hkey, pure_bind, hflag]
  | slot =>
      obtain ⟨cells, hchain, hmem⟩ := hwf.linked.heads _ hflag
      have hsearch := search_cases hlaw hwf.linked hkey hchain (Linked.length_le hchain)
        (fun c hc => ((hmem c).mp hc).1)
      obtain ⟨j, hj, hjk, hsearch⟩ | ⟨hnot, _, pos, _, hsearch⟩ := hsearch
      · refine Or.inl ⟨(map.item j).v, ⟨j, ((hmem j).mp hj).1, hjk, rfl⟩, ?_⟩
        simp only [find, hlaw.hash hkey, pure_bind, hflag, hsearch, if_true]
      · refine Or.inr ⟨Linked.absent_of_chain hmem hnot, ?_⟩
        simp only [find, hlaw.hash hkey, pure_bind, hflag, hsearch, Bool.false_eq_true, if_false]

/-- The map holds exactly the values stored last. -/
structure Represents (IsKey : Variable → Prop) (hashOf : Variable → BitVec 64) (map : Hmap)
    (log : List (Variable × Variable)) : Prop where
  wf : Wf IsKey hashOf map
  holds : ∀ k v, Holds map.item k v ↔ lastStored log k = some v

theorem Represents.zalloc (hshift : 0 < shift) :
    Represents IsKey hashOf (Hmap.zalloc shift) [] := by
  refine ⟨Wf.zalloc hshift, fun k v => ?_⟩
  simp [Holds, Hmap.zalloc, Kvi.zero]

theorem Represents.putStore (hlaw : LawfulKeys ops IsKey hashOf) {map : Hmap}
    {log : List (Variable × Variable)} (hrep : Represents IsKey hashOf map log) {key : Variable}
    (hkey : IsKey key) (v : Variable) :
    ∃ map', (∀ depth, putStore ops (depth + 1) map key v = pure map') ∧
      Represents IsKey hashOf map' (log ++ [(key, v)]) := by
  obtain ⟨e, hindex, hindexed⟩ := index_spec hlaw hrep.wf hkey
  have hstored := hindexed.stored v
  refine ⟨(e.setKey key).store v, fun depth => ?_, hstored.wf, fun k w => ?_⟩
  · have hput : put ops (depth + 1) map key = pure (e.setKey key) := by
      have hindex' : indexWith ops (grow ops (depth + 1)) map key = pure e := hindex depth
      simp [put, putWith, hlaw.notNil hkey, hindex']
    simp only [Hmap.putStore, hput, pure_bind]
  · rw [hstored.holds, lastStored_concat]
    by_cases hk : k = key
    · rw [if_pos hk, hk, Function.update_self, Option.some.injEq, eq_comm]
    · rw [if_neg hk, Function.update_of_ne hk, hrep.holds]

theorem putAll_concat (depth : Nat) (map : Hmap) (log : List (Variable × Variable))
    (k v : Variable) : putAll ops depth map (log ++ [(k, v)]) =
      (do let map ← putAll ops depth map log; putStore ops depth map k v) := by
  induction log generalizing map with
  | nil => simp [putAll]
  | cons entry log ih =>
      simp only [List.cons_append, putAll, bind_assoc]
      exact congrArg _ (funext fun map => ih map)

/-- A run of puts and stores from an empty map. -/
theorem putAll_represents (hlaw : LawfulKeys ops IsKey hashOf) (hshift : 0 < shift)
    (log : List (Variable × Variable)) (hkeys : ∀ entry ∈ log, IsKey entry.1) :
    ∃ map', (∀ depth, putAll ops (depth + 1) (Hmap.zalloc shift) log = pure map') ∧
      Represents IsKey hashOf map' log := by
  induction log using List.reverseRecOn with
  | nil => exact ⟨Hmap.zalloc shift, fun _ => rfl, Represents.zalloc hshift⟩
  | append_singleton log entry ih =>
      obtain ⟨k, v⟩ := entry
      obtain ⟨map, hrun, hrep⟩ := ih fun e he => hkeys e (List.mem_append_left _ he)
      obtain ⟨map', hstep, hrep'⟩ := hrep.putStore hlaw (hkeys (k, v) (by simp)) v
      refine ⟨map', fun depth => ?_, hrep'⟩
      rw [putAll_concat, hrun, pure_bind, hstep]

theorem Represents.get_eq (hlaw : LawfulKeys ops IsKey hashOf) {map : Hmap}
    {log : List (Variable × Variable)} (hrep : Represents IsKey hashOf map log) {key : Variable}
    (hkey : IsKey key) : get ops map key = pure ((lastStored log key).getD .nil) := by
  have hget : get ops map key = find ops map key := by simp [get, hlaw.notNil hkey]
  rw [hget]
  obtain ⟨v, hholds, hfind⟩ | ⟨habsent, hfind⟩ := find_spec hlaw hrep.wf hkey
  · rw [hfind, (hrep.holds key v).mp hholds, Option.getD_some]
  · have hnone : lastStored log key = none := by
      cases hlast : lastStored log key with
      | none => rfl
      | some v =>
          obtain ⟨i, hi, hik, _⟩ := (hrep.holds key v).mpr hlast
          exact absurd hik (habsent i hi)
    rw [hfind, hnone, Option.getD_none]

theorem Represents.existsUnique_slot {map : Hmap} {log : List (Variable × Variable)}
    (hrep : Represents IsKey hashOf map log) (key : Variable) :
    (∃! i, (map.item i).flag ≠ .free ∧ (map.item i).k = key) ↔ key ∈ log.map Prod.fst := by
  rw [← lastStored_isSome, Option.isSome_iff_exists]
  constructor
  · rintro ⟨i, ⟨hi, hik⟩, _⟩
    exact ⟨(map.item i).v, (hrep.holds key _).mp ⟨i, hi, hik, rfl⟩⟩
  · rintro ⟨v, hv⟩
    obtain ⟨i, hi, hik, _⟩ := (hrep.holds key v).mpr hv
    refine ⟨i, ⟨hi, hik⟩, ?_⟩
    rintro j ⟨hj, hjk⟩
    exact hrep.wf.linked.inj j i hj hi (hjk.trans hik.symm)

/-- `hmap_new` succeeds for every count below 2^30. -/
theorem new_spec {count : Int} (hcount : count < 2 ^ 30) :
    ∃ shift, 0 < shift ∧ Hmap.new count = pure (Hmap.zalloc shift) := by
  by_cases hneg : count ≤ 0
  · exact ⟨5, by decide, by simp [Hmap.new, hneg]⟩
  · have hexists : ((List.range 32).find? fun i => decide (count < shl1 i)).isSome := by
      rw [List.find?_isSome]
      refine ⟨30, by decide, ?_⟩
      have : shl1 30 = 2 ^ 30 := by decide
      rw [this]
      simpa using hcount
    obtain ⟨shift, hshift⟩ := Option.isSome_iff_exists.mp hexists
    have hlt : count < shl1 shift := by simpa using List.find?_some hshift
    have hpos : 0 < shift := by
      rw [Nat.pos_iff_ne_zero]
      rintro rfl
      have : shl1 0 = 1 := by decide
      omega
    refine ⟨shift, hpos, ?_⟩
    simp [Hmap.new, hneg, log2x, hshift, hpos]

end

end Ymd.Hmap
