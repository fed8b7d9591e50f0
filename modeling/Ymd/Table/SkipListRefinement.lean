import Ymd.Foundation.SortedLog
import Ymd.Table.SkipListLevels

/-! # The skip list refines a sorted map

The search of a key arrives, on every level, at the last node with a smaller
key. The levels of the nodes decide how it gets there, not where it arrives.
-/

namespace Ymd

/-- On the keys in question `compare` and `equals` agree with a linear order. -/
structure OrderedKeys {α : Type*} [LinearOrder α] (ops : KeyOps) (IsKey : Variable → Prop)
    (rank : Variable → α) : Prop where
  notNil : ∀ {key}, IsKey key → key.isNil = false
  equals : ∀ {a b}, IsKey a → IsKey b → ops.equals a b = pure (decide (rank a = rank b))
  compare : ∀ {a b}, IsKey a → IsKey b →
    ∃ c, ops.compare a b = pure c ∧ (c < 0 ↔ rank a < rank b)

namespace Skls

open Foundation

variable {α : Type*} [LinearOrder α] {ops : KeyOps} {IsKey : Variable → Prop}
  {rank : Variable → α} {list : Skls} {cells lower upper : List Nat} {key : Variable}

/-! ## The search -/

/-- The search on one level stops behind the nodes with smaller keys. -/
theorem walk_spec (hlaw : OrderedKeys ops IsKey rank) (hkey : IsKey key) {i x fuel : Nat}
    {near far : List Nat} (hchain : Chain (list.succ i) (list.succ i x) (near ++ far))
    (hheight : ∀ c ∈ x :: near, i < (list.node c).n)
    (hkeys : ∀ c ∈ near ++ far, IsKey (list.node c).k)
    (hnear : ∀ c ∈ near, rank (list.node c).k < rank key)
    (hfar : ∀ c ∈ far, ¬ rank (list.node c).k < rank key) (hfuel : near.length < fuel) :
    walk ops list key i fuel x = pure (near.getLastD x) := by
  obtain ⟨fuel, rfl⟩ : ∃ n, fuel = n + 1 := ⟨fuel - 1, by omega⟩
  have hx : i < (list.node x).n := hheight x List.mem_cons_self
  induction near generalizing x fuel with
  | nil =>
      simp only [walk, fwdAt_of_lt hx, pure_bind, List.getLastD_nil]
      cases far with
      | nil =>
          have hend : list.succ i x = none := hchain
          rw [hend]
      | cons y far =>
          have hnext : list.succ i x = some y := hchain.1
          obtain ⟨c, hcompare, hc⟩ := hlaw.compare (hkeys y List.mem_cons_self) hkey
          have hge : ¬ c < 0 := fun h => hfar y List.mem_cons_self (hc.mp h)
          simp only [hnext, hcompare, pure_bind, if_neg hge]
  | cons y near ih =>
      have hnext : list.succ i x = some y := hchain.1
      have hy : y ∈ (y :: near) ++ far := List.mem_append_left _ List.mem_cons_self
      obtain ⟨c, hcompare, hc⟩ := hlaw.compare (hkeys y hy) hkey
      have hlt : c < 0 := hc.mpr (hnear y List.mem_cons_self)
      obtain ⟨fuel, rfl⟩ : ∃ n, fuel = n + 1 := ⟨fuel - 1, by simp at hfuel; omega⟩
      have hrest := ih hchain.2 (fun c hc => hheight c (List.mem_cons_of_mem _ hc))
        (fun c hc => hkeys c (List.mem_cons_of_mem _ hc))
        (fun c hc => hnear c (List.mem_cons_of_mem _ hc)) fuel
        (by simpa using hfuel) (hheight y (by simp))
      rw [walk]
      simp only [fwdAt_of_lt hx, pure_bind, hnext, hcompare, if_pos hlt, hrest,
        List.getLastD_cons]

/-- The keys of the first part are smaller than `key`, those of the second are not. -/
structure Split (rank : Variable → α) (list : Skls) (key : Variable)
    (lower upper : List Nat) : Prop where
  lower : ∀ c ∈ lower, rank (list.node c).k < rank key
  upper : ∀ c ∈ upper, ¬ rank (list.node c).k < rank key

theorem exists_split (key : Variable)
    (hsorted : cells.Pairwise fun a b => rank (list.node a).k < rank (list.node b).k) :
    ∃ lower upper, cells = lower ++ upper ∧ Split rank list key lower upper := by
  induction cells with
  | nil => exact ⟨[], [], rfl, by simp, by simp⟩
  | cons x cells ih =>
      obtain ⟨hx, hsorted⟩ := List.pairwise_cons.mp hsorted
      by_cases hlt : rank (list.node x).k < rank key
      · obtain ⟨lower, upper, hcells, hsplit⟩ := ih hsorted
        refine ⟨x :: lower, upper, by rw [hcells, List.cons_append], fun c hc => ?_, hsplit.upper⟩
        obtain rfl | hc := List.mem_cons.mp hc
        · exact hlt
        · exact hsplit.lower c hc
      · refine ⟨[], x :: cells, rfl, by simp, fun c hc => ?_⟩
        obtain rfl | hc := List.mem_cons.mp hc
        · exact hlt
        · exact fun h => hlt ((hx c hc).trans h)

/-- Where the search may stand before it goes down to level `i - 1`. -/
def Reached (list : Skls) (lower : List Nat) (i x : Nat) : Prop :=
  x = head ∨ x ∈ lower ∧ i ≤ (list.node x).n

theorem walk_level (hlaw : OrderedKeys ops IsKey rank) (hkey : IsKey key)
    (hlinked : Linked list (lower ++ upper)) (hsize : 0 < list.size)
    (hkeys : ∀ c ∈ lower ++ upper, IsKey (list.node c).k) (hsplit : Split rank list key lower upper)
    {i x : Nat} (hi : i < maxLevel) (hx : Reached list lower (i + 1) x) :
    walk ops list key i list.size x = pure (list.pred lower i) := by
  have hlevelKeys : ∀ c ∈ list.onLevel i (lower ++ upper), IsKey (list.node c).k :=
    fun c hc => hkeys c (mem_onLevel.mp hc).1
  have hfar : ∀ c ∈ list.onLevel i upper, ¬ rank (list.node c).k < rank key :=
    fun c hc => hsplit.upper c (mem_onLevel.mp hc).1
  have hshort : (list.onLevel i lower).length < list.size := by
    have hle : (list.onLevel i lower).length ≤ (lower ++ upper).length :=
      (List.filter_sublist.trans (List.sublist_append_left _ _)).length_le
    have := hlinked.length_lt_size hsize
    omega
  have hchain := hlinked.chain i hi
  rw [onLevel_append] at hchain hlevelKeys
  obtain rfl | ⟨hin, hheight⟩ := hx
  · refine walk_spec hlaw hkey hchain.2 (fun c hc => ?_) hlevelKeys
      (fun c hc => hsplit.lower c (mem_onLevel.mp hc).1) hfar hshort
    obtain rfl | hc := List.mem_cons.mp hc
    · rw [hlinked.head_height]
      exact hi
    · exact (mem_onLevel.mp hc).2
  · -- the walk starts in the middle of the level
    obtain ⟨before, near, hlevel⟩ := List.append_of_mem (mem_onLevel.mpr ⟨hin, hheight⟩)
    have hpred : list.pred lower i = near.getLastD x := by
      unfold pred
      rw [hlevel, getLastD_append_cons]
    have hnearIn : ∀ c ∈ x :: near, c ∈ list.onLevel i lower := fun c hc => by
      rw [hlevel]
      exact List.mem_append_right _ hc
    rw [hpred]
    rw [hlevel, List.append_assoc, ← List.cons_append] at hchain
    rw [hlevel] at hlevelKeys hshort
    refine walk_spec hlaw hkey hchain.tail_of_append
      (fun c hc => (mem_onLevel.mp (hnearIn c hc)).2) (fun c hc => ?_)
      (fun c hc => hsplit.lower c (mem_onLevel.mp (hnearIn c (List.mem_cons_of_mem _ hc))).1)
      hfar ?_
    · apply hlevelKeys
      simp only [List.mem_append, List.mem_cons] at hc ⊢
      tauto
    · simp only [List.length_append, List.length_cons] at hshort
      omega

/-- The search from level `i - 1` down. -/
theorem descend_spec (hlaw : OrderedKeys ops IsKey rank) (hkey : IsKey key)
    (hlinked : Linked list (lower ++ upper)) (hsize : 0 < list.size)
    (hkeys : ∀ c ∈ lower ++ upper, IsKey (list.node c).k) (hsplit : Split rank list key lower upper)
    {i x : Nat} (hi : i ≤ maxLevel) (hx : Reached list lower i x) (update : Update) :
    descend ops list key i x update = pure (if i = 0 then x else list.pred lower 0,
      fun j => if j < i then some (list.pred lower j) else update j) := by
  induction i generalizing x update with
  | zero => simp [descend]
  | succ i ih =>
      have hnext : Reached list lower i (list.pred lower i) := by
        obtain heq | ⟨hin, hlt⟩ := pred_cases list lower i
        · exact Or.inl heq
        · exact Or.inr ⟨hin, hlt.le⟩
      simp only [descend, walk_level hlaw hkey hlinked hsize hkeys hsplit hi hx, pure_bind,
        ih (by omega) hnext]
      congr 2
      · by_cases hzero : i = 0
        · simp [hzero]
        · simp [hzero]
      · funext j
        by_cases hj : j = i
        · simp [hj]
        · have hiff : j < i + 1 ↔ j < i := by omega
          simp [hj, hiff]

/-- The search for a key among nodes that are split at it. -/
theorem descend_head (hlaw : OrderedKeys ops IsKey rank) (hkey : IsKey key)
    (hlinked : Linked list (lower ++ upper)) (hsize : 0 < list.size)
    (hkeys : ∀ c ∈ lower ++ upper, IsKey (list.node c).k)
    (hsplit : Split rank list key lower upper) :
    ∃ update : Update, descend ops list key list.lv head (fun _ => none) =
        pure (list.pred lower 0, update) ∧ ∀ i < list.lv, update i = some (list.pred lower i) := by
  refine ⟨fun i => if i < list.lv then some (list.pred lower i) else none, ?_, fun i hi => ?_⟩
  · rw [descend_spec hlaw hkey hlinked hsize hkeys hsplit hlinked.lv_le (Or.inl rfl)]
    by_cases hzero : list.lv = 0
    · have hnil := hlinked.onLevel_eq_nil (Nat.le_of_eq hzero)
      rw [onLevel_append, List.append_eq_nil_iff] at hnil
      rw [if_pos hzero, pred, hnil.1, List.getLastD_nil]
    · rw [if_neg hzero]
  · exact if_pos hi

/-- On level 0 the search stops in front of the first node of the second part. -/
theorem fwdAt_pred (hlinked : Linked list (lower ++ upper)) :
    list.fwdAt (list.pred lower 0) 0 = pure upper.head? := by
  have hchain := hlinked.chain_upper (show 0 < maxLevel by decide)
  have hzero := hlinked.onLevel_zero
  rw [onLevel_append] at hzero
  have hupper : list.onLevel 0 upper = upper := by
    have hlength := congrArg List.length hzero
    rw [List.length_append, List.length_append] at hlength
    have hlower : (list.onLevel 0 lower).length ≤ lower.length := List.length_filter_le _ _
    have hle : (list.onLevel 0 upper).length ≤ upper.length := List.length_filter_le _ _
    exact List.filter_sublist.eq_of_length (by change (list.onLevel 0 upper).length = _; omega)
  rw [hupper] at hchain
  rw [fwdAt_of_lt (hlinked.pred_height (by decide))]
  cases upper with
  | nil => rw [hchain, List.head?_nil]
  | cons x upper => rw [hchain.1, List.head?_cons]

/-! ## Operations -/

/-- The entry a node holds. -/
def entry (list : Skls) (x : Nat) : Variable × Variable := ((list.node x).k, (list.node x).v)

/-- The nodes hold the entries stored last, in ascending order. -/
structure Represents (IsKey : Variable → Prop) (rank : Variable → α) (list : Skls)
    (log : List (Variable × Variable)) (cells : List Nat) : Prop where
  linked : Linked list cells
  size_pos : 0 < list.size
  keys : ∀ c ∈ cells, IsKey (list.node c).k
  entries : SortedLog rank log (cells.map list.entry)

theorem Represents.new : Represents IsKey rank Skls.new [] [] where
  linked := Linked.new
  size_pos := Nat.one_pos
  keys := by simp
  entries := SortedLog.nil

theorem Represents.sorted {log : List (Variable × Variable)}
    (hrep : Represents IsKey rank list log cells) :
    cells.Pairwise fun a b => rank (list.node a).k < rank (list.node b).k := by
  have hsorted := hrep.entries.sorted
  rwa [List.pairwise_map] at hsorted

/-- The node the search stops at is the node of the key, if there is one. -/
theorem hit_cases (hlaw : OrderedKeys ops IsKey rank) (hkey : IsKey key)
    (hkeys : ∀ c ∈ upper, IsKey (list.node c).k)
    (hsorted : upper.Pairwise fun a b => rank (list.node a).k < rank (list.node b).k)
    (hupper : ∀ c ∈ upper, ¬ rank (list.node c).k < rank key) :
    (∃ x rest, upper = x :: rest ∧ rank (list.node x).k = rank key ∧
      hit ops list key upper.head? = pure (some x)) ∨
    (∀ c ∈ upper, rank key < rank (list.node c).k) ∧ hit ops list key upper.head? = pure none := by
  cases upper with
  | nil => exact Or.inr ⟨by simp, rfl⟩
  | cons x rest =>
      have hequals := hlaw.equals (hkeys x List.mem_cons_self) hkey
      by_cases heq : rank (list.node x).k = rank key
      · refine Or.inl ⟨x, rest, rfl, heq, ?_⟩
        simp [hit, hequals, heq]
      · have hlt : rank key < rank (list.node x).k :=
          lt_of_le_of_ne (not_lt.mp (hupper x List.mem_cons_self)) (Ne.symm heq)
        refine Or.inr ⟨fun c hc => ?_, ?_⟩
        · obtain rfl | hc := List.mem_cons.mp hc
          · exact hlt
          · exact hlt.trans ((List.pairwise_cons.mp hsorted).1 c hc)
        · simp [hit, hequals, heq]

/-- The list after `skls_put` returned node `x` and `v` was stored through it. -/
def setEntry (list : Skls) (x : Nat) (key v : Variable) : Skls :=
  { list with node := Function.update list.node x { list.node x with k := key, v := v } }

theorem store_setKey (list : Skls) (x : Nat) (key v : Variable) :
    store ⟨{ list with node := Function.update list.node x { list.node x with k := key } }, x⟩ v =
      list.setEntry x key v := by
  simp [store, setEntry]

theorem Linked.setEntry (hlinked : Linked list cells) (x : Nat) (key v : Variable) :
    Linked (list.setEntry x key v) cells := by
  refine hlinked.congr rfl rfl rfl (fun y => ?_) fun y => ?_
  · by_cases hy : y = x <;> simp [Skls.setEntry, hy]
  · by_cases hy : y = x <;> simp [Skls.setEntry, hy]

theorem setEntry_node {x y : Nat} {v : Variable} (hy : y ≠ x) :
    (list.setEntry x key v).node y = list.node y := Function.update_of_ne hy _ _

theorem entry_setEntry (x : Nat) (v : Variable) : (list.setEntry x key v).entry x = (key, v) := by
  simp [entry, setEntry]

theorem map_entry_setEntry {x : Nat} (hnodup : (lower ++ x :: upper).Nodup) (v : Variable) :
    (lower ++ x :: upper).map (list.setEntry x key v).entry =
      lower.map list.entry ++ (key, v) :: upper.map list.entry := by
  have hlower : ∀ c ∈ lower, c ≠ x := fun c hc =>
    (List.nodup_append.mp hnodup).2.2 c hc x List.mem_cons_self
  have hupper : ∀ c ∈ upper, c ≠ x := fun c hc heq =>
    (List.nodup_cons.mp (List.nodup_append.mp hnodup).2.1).1 (heq ▸ hc)
  rw [List.map_append, List.map_cons, entry_setEntry]
  congr 1
  · exact List.map_congr_left fun c hc => by rw [entry, setEntry_node (hlower c hc), entry]
  · congr 1
    exact List.map_congr_left fun c hc => by rw [entry, setEntry_node (hupper c hc), entry]

theorem keys_setEntry {x : Nat} (hkey : IsKey key) (v : Variable)
    (hkeys : ∀ c ∈ cells, c ≠ x → IsKey (list.node c).k) :
    ∀ c ∈ cells, IsKey ((list.setEntry x key v).node c).k := by
  intro c hc
  by_cases heq : c = x
  · rw [heq]
    simpa [setEntry] using hkey
  · rw [setEntry_node heq]
    exact hkeys c hc heq

/-- A put and the store through its result, at any level of the new node. -/
theorem Represents.putStore (hlaw : OrderedKeys ops IsKey rank)
    {log : List (Variable × Variable)} (hrep : Represents IsKey rank list log cells)
    (hkey : IsKey key) (v : Variable) {lvl : Nat} (hpos : 1 ≤ lvl) (hlvl : lvl ≤ maxLevel) :
    ∃ list' cells', putStore ops list key v lvl = pure list' ∧
      Represents IsKey rank list' (log ++ [(key, v)]) cells' := by
  obtain ⟨lower, upper, rfl, hsplit⟩ := exists_split key hrep.sorted
  have hparts := List.pairwise_append.mp hrep.sorted
  obtain ⟨update, hdescend, hupdate⟩ :=
    descend_head hlaw hkey hrep.linked hrep.size_pos hrep.keys hsplit
  have hput : ∀ e, index ops list key lvl = pure e → Skls.putStore ops list key v lvl =
      pure (e.list.setEntry e.node key v) := by
    intro e hindex
    simp [Skls.putStore, put, hlaw.notNil hkey, hindex, store_setKey]
  -- the key is in the list already, or a node is linked in between the two parts
  obtain ⟨x, rest, rfl, hrank, hhit⟩ | ⟨hupper, hhit⟩ := hit_cases hlaw hkey
    (fun c hc => hrep.keys c (List.mem_append_right _ hc)) hparts.2.1 hsplit.upper
  · have hindex : index ops list key lvl = pure ⟨list, x⟩ := by
      simp only [index, hdescend, pure_bind, fwdAt_pred hrep.linked, hhit]
    refine ⟨_, lower ++ x :: rest, hput _ hindex, hrep.linked.setEntry x key v, hrep.size_pos,
      keys_setEntry hkey v fun c hc _ => hrep.keys c hc, ?_⟩
    have hentries := hrep.entries
    rw [List.map_append, List.map_cons] at hentries
    rw [map_entry_setEntry hrep.linked.nodup]
    exact hentries.replace hrank
  · obtain ⟨list', happend, hlinked', hsize', hframe⟩ :=
      append_spec hrep.linked hrep.size_pos hpos hlvl hupdate
    have hindex : index ops list key lvl = pure ⟨list', list.size⟩ := by
      simp only [index, hdescend, pure_bind, fwdAt_pred hrep.linked, hhit, happend]
    have hne : ∀ c ∈ lower ++ upper, c ≠ list.size := fun c hc =>
      hrep.linked.ne_size hrep.size_pos (List.mem_cons_of_mem _ hc)
    refine ⟨_, lower ++ list.size :: upper, hput _ hindex, hlinked'.setEntry list.size key v,
      ?_, keys_setEntry hkey v fun c hc hsize => ?_, ?_⟩
    · change 0 < list'.size
      omega
    · rw [(hframe c hsize).1]
      apply hrep.keys
      simp only [List.mem_append, List.mem_cons, hsize, false_or] at hc
      exact List.mem_append.mpr hc
    · have hold : ∀ part, part ⊆ lower ++ upper → part.map list'.entry = part.map list.entry := by
        intro part hpart
        refine List.map_congr_left fun c hc => ?_
        obtain ⟨hk, hv⟩ := hframe c (hne c (hpart hc))
        rw [entry, entry, hk, hv]
      have hentries := hrep.entries
      rw [List.map_append] at hentries
      rw [map_entry_setEntry hlinked'.nodup, hold lower (List.subset_append_left _ _),
        hold upper (List.subset_append_right _ _)]
      refine hentries.insert (fun e he => ?_) fun e he => ?_
      · obtain ⟨c, hc, rfl⟩ := List.mem_map.mp he
        exact hsplit.lower c hc
      · obtain ⟨c, hc, rfl⟩ := List.mem_map.mp he
        exact hupper c hc

theorem Represents.get_eq (hlaw : OrderedKeys ops IsKey rank) {log : List (Variable × Variable)}
    (hrep : Represents IsKey rank list log cells) (hkey : IsKey key) :
    get ops list key =
      pure ((lastStored (log.map fun entry => (rank entry.1, entry.2)) (rank key)).getD .nil) := by
  obtain ⟨lower, upper, rfl, hsplit⟩ := exists_split key hrep.sorted
  have hparts := List.pairwise_append.mp hrep.sorted
  obtain ⟨update, hdescend, _⟩ := descend_head hlaw hkey hrep.linked hrep.size_pos hrep.keys hsplit
  rw [← lastStored_ranked_value]
  obtain ⟨x, rest, rfl, hrank, hhit⟩ | ⟨hupper, hhit⟩ := hit_cases hlaw hkey
    (fun c hc => hrep.keys c (List.mem_append_right _ hc)) hparts.2.1 hsplit.upper
  · have hlast := (hrep.entries.mem (list.entry x)).mp (List.mem_map_of_mem (by simp))
    change lastStored _ (rank (list.node x).k) = _ at hlast
    rw [hrank] at hlast
    have hfind : find ops list key = pure (list.node x).v := by
      simp only [find, hdescend, pure_bind, fwdAt_pred hrep.linked, hhit]
    simp [get, hlaw.notNil hkey, hfind, hlast, entry]
  · have hnone : lastStored (ranked rank log) (rank key) = none := by
      cases hlast : lastStored (ranked rank log) (rank key) with
      | none => rfl
      | some e =>
          have hr := rank_of_lastStored hlast
          have hin := (hrep.entries.mem e).mpr (hr ▸ hlast)
          obtain ⟨c, hc, rfl⟩ := List.mem_map.mp hin
          change rank (list.node c).k = _ at hr
          obtain hc | hc := List.mem_append.mp hc
          · exact absurd hr (ne_of_lt (hsplit.lower c hc))
          · exact absurd hr (ne_of_gt (hupper c hc))
    have hfind : find ops list key = pure .nil := by
      simp only [find, hdescend, pure_bind, fwdAt_pred hrep.linked, hhit]
    simp [get, hlaw.notNil hkey, hfind, hnone]

/-- The traversal of level 0 visits the entries in order. -/
theorem traverseFrom_eq {start : Option Nat} (hchain : Chain (list.succ 0) start cells)
    (hheight : ∀ c ∈ cells, 0 < (list.node c).n) {fuel : Nat} (hfuel : cells.length ≤ fuel) :
    traverseFrom list fuel start = pure (cells.map list.entry) := by
  induction cells generalizing start fuel with
  | nil =>
      have hend : start = none := hchain
      subst hend
      cases fuel <;> rfl
  | cons x cells ih =>
      obtain ⟨rfl, hrest⟩ := hchain
      cases fuel with
      | zero => simp at hfuel
      | succ fuel =>
          have htail := ih hrest (fun c hc => hheight c (List.mem_cons_of_mem _ hc))
            (by simpa using hfuel)
          simp only [traverseFrom, fwdAt_of_lt (hheight x List.mem_cons_self), pure_bind, htail,
            List.map_cons, entry]

theorem Represents.traverse_eq {log : List (Variable × Variable)}
    (hrep : Represents IsKey rank list log cells) :
    traverse list = pure (cells.map list.entry) := by
  have hchain := hrep.linked.chain 0 (by decide)
  rw [hrep.linked.onLevel_zero] at hchain
  have hhead : 0 < (list.node head).n := by rw [hrep.linked.head_height]; decide
  have hlength := hrep.linked.length_lt_size hrep.size_pos
  rw [traverse, fwdAt_of_lt hhead, pure_bind]
  exact traverseFrom_eq hchain.2 (fun c hc => (hrep.linked.height c hc).1) hlength.le

/-! ## Runs -/

theorem putAll_concat (list : Skls) (log : List ((Variable × Variable) × Nat))
    (k v : Variable) (lvl : Nat) : putAll ops list (log ++ [((k, v), lvl)]) =
      (do let list ← putAll ops list log; Skls.putStore ops list k v lvl) := by
  induction log generalizing list with
  | nil => simp [putAll]
  | cons entry log ih =>
      simp only [List.cons_append, putAll, bind_assoc]
      exact congrArg _ (funext fun list => ih list)

/-- A run of puts and stores from an empty list, for every sequence of levels. -/
theorem putAll_represents (hlaw : OrderedKeys ops IsKey rank)
    (log : List ((Variable × Variable) × Nat)) (hkeys : ∀ e ∈ log, IsKey e.1.1)
    (hlevels : ∀ e ∈ log, 1 ≤ e.2 ∧ e.2 ≤ maxLevel) :
    ∃ list cells, putAll ops Skls.new log = pure list ∧
      Represents IsKey rank list (log.map Prod.fst) cells := by
  induction log using List.reverseRecOn with
  | nil => exact ⟨Skls.new, [], rfl, Represents.new⟩
  | append_singleton log e ih =>
      obtain ⟨⟨k, v⟩, lvl⟩ := e
      obtain ⟨list, cells, hrun, hrep⟩ := ih (fun e he => hkeys e (List.mem_append_left _ he))
        fun e he => hlevels e (List.mem_append_left _ he)
      have hlast : ((k, v), lvl) ∈ log ++ [((k, v), lvl)] := by simp
      obtain ⟨list', cells', hstep, hrep'⟩ := hrep.putStore hlaw (hkeys _ hlast) v
        (hlevels _ hlast).1 (hlevels _ hlast).2
      refine ⟨list', cells', ?_, by rwa [List.map_append, List.map_singleton]⟩
      rw [putAll_concat, hrun, pure_bind, hstep]

end Skls

end Ymd
