import Ymd.Foundation.Outcome
import Ymd.Table.HashMapRefinement
import Ymd.Table.SkipListRefinement
import Ymd.Value.Compare

/-! # Lookups that return

What a lookup needs of the key operations to come to an end: the loops of a
sound container end, whatever the comparisons say.
-/

namespace Ymd

open Foundation

namespace Hmap

variable {ops : KeyOps} {map : Hmap} {key : Variable} {h : BitVec 64}

theorem mem_entries {k v : Variable} : (k, v) ∈ map.entries ↔ Holds map.item k v := by
  simp only [entries, List.mem_filterMap, List.mem_reverse, List.mem_finRange, true_and]
  constructor
  · rintro ⟨i, hi⟩
    split at hi
    next => cases hi
    next hflag =>
      cases hi
      exact ⟨i, hflag, rfl, rfl⟩
  · rintro ⟨i, hflag, rfl, rfl⟩
    exact ⟨i, if_neg hflag⟩

/-- Every chain ends, and there are entries only on it. -/
def Sound (map : Hmap) : Prop :=
  ∀ p, (map.item p).flag = .slot → ∃ cells, Chain (nextOf map.item) (some p) cells ∧
    ∀ i ∈ cells, (map.item i).flag ≠ .free

theorem Linked.sound {IsKey : Variable → Prop} {hashOf : Variable → BitVec 64}
    (hlinked : Linked IsKey hashOf map.item) : map.Sound := by
  intro p hp
  obtain ⟨cells, hchain, hmem⟩ := hlinked.heads p hp
  exact ⟨cells, hchain, fun i hi => ((hmem i).1 hi).1⟩

/-- The loop over a chain whose keys can all be compared. -/
theorem search_returns (ops : KeyOps) (key : Variable) (h : BitVec 64) {n : Nat} {item : Fin n → Kvi n} {cells : List (Fin n)} {start : Fin n}
    {fuel : Nat} (hchain : Chain (fun i => (item i).next) (some start) cells)
    (hfuel : cells.length ≤ fuel) (hkeys : ∀ c ∈ cells, ∃ b, ops.equals (item c).k key = .ok b) :
    ∃ j ∈ cells, ∃ found, search ops item key h fuel start = .ok (j, found) := by
  induction cells generalizing start fuel with
  | nil => exact nomatch hchain
  | cons cell cells ih =>
      obtain ⟨hstart, hrest⟩ := hchain
      obtain rfl := Option.some.inj hstart
      cases fuel with
      | zero => simp at hfuel
      | succ fuel =>
          obtain ⟨hit, hhit⟩ : ∃ hit, hits ops (item start) key h = .ok hit := by
            unfold hits
            split
            next => exact hkeys start List.mem_cons_self
            next => exact ⟨false, rfl⟩
          rw [search, hhit]
          cases hit with
          | true => exact ⟨start, List.mem_cons_self, true, rfl⟩
          | false =>
              change Chain _ (item start).next cells at hrest
              cases hnext : (item start).next with
              | none =>
                  refine ⟨start, List.mem_cons_self, false, ?_⟩
                  simp only [bind, Except.bind, Bool.false_eq_true, if_false]
                  rfl
              | some next =>
                  rw [hnext] at hrest
                  obtain ⟨j, hj, found, hsearch⟩ := ih hrest (by simpa using hfuel)
                    fun c hc => hkeys c (List.mem_cons_of_mem _ hc)
                  refine ⟨j, List.mem_cons_of_mem _ hj, found, ?_⟩
                  simpa [bind, Except.bind, hnext] using hsearch

/-- A lookup comes to nothing or to the value of an entry. -/
theorem find_returns (hsound : map.Sound) (hhash : ops.hash key = .ok h)
    (hkeys : ∀ k v, (k, v) ∈ map.entries → ∃ b, ops.equals k key = .ok b) :
    ∃ w, find ops map key = .ok w ∧ (w = .nil ∨ ∃ k, (k, w) ∈ map.entries) := by
  rw [find, except_bind_of_ok hhash]
  dsimp only
  cases hflag : (map.item (position map.shift h)).flag with
  | free => exact ⟨.nil, rfl, .inl rfl⟩
  | node => exact ⟨.nil, rfl, .inl rfl⟩
  | slot =>
      obtain ⟨cells, hchain, hused⟩ := hsound _ hflag
      obtain ⟨j, hj, found, hsearch⟩ := search_returns ops key h hchain
        (Linked.length_le hchain) fun c hc => hkeys _ _ (mem_entries.2 ⟨c, hused c hc, rfl, rfl⟩)
      dsimp only
      rw [except_bind_of_ok hsearch]
      cases found with
      | false => exact ⟨.nil, rfl, .inl rfl⟩
      | true => exact ⟨_, rfl, .inr ⟨_, mem_entries.2 ⟨j, hused j hj, rfl, rfl⟩⟩⟩

end Hmap

namespace Skls

variable {ops : KeyOps} {list : Skls} {key : Variable} {cells : List Nat} {i x : Nat}

/-- The nodes lie on the levels, the head in front of them. -/
def Sound (list : Skls) : Prop := 0 < list.size ∧ ∃ cells, Linked list cells

/-- The loop along a level whose keys can all be compared. -/
theorem walk_returns (ops : KeyOps) (key : Variable) (fuel : Nat) {far : List Nat}
    (hchain : Chain (list.succ i) (list.succ i x) far)
    (hheight : ∀ c ∈ x :: far, i < (list.node c).n)
    (hkeys : ∀ c ∈ far, ∃ r, ops.compare (list.node c).k key = .ok r) (hfuel : far.length < fuel) :
    ∃ y, walk ops list key i fuel x = .ok y ∧ (y = x ∨ y ∈ far) := by
  induction far generalizing x fuel with
  | nil =>
      obtain ⟨fuel, rfl⟩ : ∃ n, fuel = n + 1 := ⟨fuel - 1, by simp at hfuel; omega⟩
      have hend : list.succ i x = none := hchain
      refine ⟨x, ?_, .inl rfl⟩
      rw [walk, fwdAt_of_lt (hheight x List.mem_cons_self), hend]
      rfl
  | cons y far ih =>
      obtain ⟨fuel, rfl⟩ : ∃ n, fuel = n + 1 := ⟨fuel - 1, by simp at hfuel; omega⟩
      obtain ⟨hnext, hrest⟩ := hchain
      obtain ⟨r, hr⟩ := hkeys y List.mem_cons_self
      have hstep : walk ops list key i (fuel + 1) x =
          if r < 0 then walk ops list key i fuel y else .ok x := by
        rw [walk, fwdAt_of_lt (hheight x List.mem_cons_self), hnext]
        simp only [pure_bind, hr]
        rfl
      rw [hstep]
      split
      next =>
        obtain ⟨z, hz, hmem⟩ := ih fuel hrest (fun c hc => hheight c (List.mem_cons_of_mem _ hc))
          (fun c hc => hkeys c (List.mem_cons_of_mem _ hc)) (by simpa using hfuel)
        refine ⟨z, hz, .inr ?_⟩
        rcases hmem with rfl | hmem
        · exact List.mem_cons_self
        · exact List.mem_cons_of_mem _ hmem
      next => exact ⟨x, rfl, .inl rfl⟩

theorem walk_level_returns (hlinked : Linked list cells) (hsize : 0 < list.size)
    (hkeys : ∀ c ∈ cells, ∃ r, ops.compare (list.node c).k key = .ok r) (hi : i < maxLevel)
    (hx : Reached list cells (i + 1) x) :
    ∃ y, walk ops list key i list.size x = .ok y ∧ Reached list cells i y := by
  have hchain := hlinked.chain i hi
  have hshort : (list.onLevel i cells).length < list.size :=
    (List.length_filter_le _ _).trans_lt (hlinked.length_lt_size hsize)
  have hlevel : ∀ c ∈ list.onLevel i cells, c ∈ cells ∧ i < (list.node c).n :=
    fun c hc => mem_onLevel.1 hc
  have hreached : ∀ y ∈ list.onLevel i cells, Reached list cells i y :=
    fun y hy => .inr ⟨(hlevel y hy).1, (hlevel y hy).2.le⟩
  rcases hx with rfl | ⟨hin, hheight⟩
  · obtain ⟨y, hy, hmem⟩ := walk_returns ops key list.size hchain.2 (by
      intro c hc
      rcases List.mem_cons.1 hc with rfl | hc
      · rw [hlinked.head_height]
        exact hi
      · exact (hlevel c hc).2) (fun c hc => hkeys c (hlevel c hc).1) hshort
    refine ⟨y, hy, ?_⟩
    rcases hmem with rfl | hmem
    · exact .inl rfl
    · exact hreached y hmem
  · -- the walk starts in the middle of the level
    obtain ⟨before, far, hsplit⟩ := List.append_of_mem (mem_onLevel.2 ⟨hin, hheight⟩)
    have hfar : ∀ c ∈ x :: far, c ∈ list.onLevel i cells := by
      intro c hc
      rw [hsplit]
      exact List.mem_append_right _ hc
    rw [hsplit, ← List.cons_append] at hchain
    rw [hsplit, List.length_append, List.length_cons] at hshort
    obtain ⟨y, hy, hmem⟩ := walk_returns ops key list.size hchain.tail_of_append
      (fun c hc => (hlevel c (hfar c hc)).2)
      (fun c hc => hkeys c (hlevel c (hfar c (List.mem_cons_of_mem _ hc))).1) (by omega)
    refine ⟨y, hy, hreached y (hfar y ?_)⟩
    rcases hmem with rfl | hmem
    · exact List.mem_cons_self
    · exact List.mem_cons_of_mem _ hmem

theorem descend_returns (hlinked : Linked list cells) (hsize : 0 < list.size)
    (hkeys : ∀ c ∈ cells, ∃ r, ops.compare (list.node c).k key = .ok r) (hi : i ≤ maxLevel)
    (hx : Reached list cells i x) (update : Update) :
    ∃ y update', descend ops list key i x update = .ok (y, update') ∧ Reached list cells 0 y := by
  induction i generalizing x update with
  | zero => exact ⟨x, update, rfl, hx⟩
  | succ i ih =>
      obtain ⟨y, hy, hreached⟩ := walk_level_returns hlinked hsize hkeys hi hx
      obtain ⟨z, update', hz, hfin⟩ :=
        ih (Nat.le_of_succ_le hi) hreached (Function.update update i (some y))
      refine ⟨z, update', ?_, hfin⟩
      rw [descend, hy]
      exact hz

/-- On level 0 there is a node of the list behind the place, or none. -/
theorem fwdAt_zero (hlinked : Linked list cells) (hx : Reached list cells 0 x) :
    ∃ y, list.fwdAt x 0 = .ok y ∧ ∀ z, y = some z → z ∈ cells := by
  have hchain := hlinked.chain 0 (by decide)
  rw [hlinked.onLevel_zero] at hchain
  have hmem : x ∈ head :: cells := by
    rcases hx with rfl | ⟨hin, _⟩
    · exact List.mem_cons_self
    · exact List.mem_cons_of_mem _ hin
  have hheight : 0 < (list.node x).n := by
    rcases List.mem_cons.1 hmem with rfl | hin
    · rw [hlinked.head_height]
      decide
    · exact (hlinked.height x hin).1
  refine ⟨list.succ 0 x, fwdAt_of_lt hheight, fun z hz => ?_⟩
  obtain ⟨before, after, hsplit⟩ := List.append_of_mem hmem
  rw [hsplit] at hchain
  have hrest := hchain.tail_of_append
  cases after with
  | nil =>
      have hend : list.succ 0 x = none := hrest
      rw [hz] at hend
      cases hend
  | cons w after =>
      obtain ⟨hw, _⟩ := hrest
      obtain rfl := Option.some.inj (hz.symm.trans hw)
      cases before with
      | nil =>
          rw [List.nil_append, List.cons.injEq] at hsplit
          rw [hsplit.2]
          exact List.mem_cons_self
      | cons b before =>
          rw [List.cons_append, List.cons.injEq] at hsplit
          rw [hsplit.2]
          simp

/-- A lookup comes to nothing or to the value of an entry. -/
theorem find_returns (hlinked : Linked list cells) (hsize : 0 < list.size)
    (hkeys : ∀ c ∈ cells, (∃ r, ops.compare (list.node c).k key = .ok r) ∧
      ∃ b, ops.equals (list.node c).k key = .ok b) :
    ∃ w, find ops list key = .ok w ∧ (w = .nil ∨ ∃ k, (k, w) ∈ cells.map list.entry) := by
  obtain ⟨x, update, hdescend, hx⟩ := descend_returns hlinked hsize (fun c hc => (hkeys c hc).1)
    hlinked.lv_le (.inl rfl) fun _ => none
  obtain ⟨y, hy, hmem⟩ := fwdAt_zero hlinked hx
  rw [find, except_bind_of_ok hdescend]
  dsimp only
  rw [except_bind_of_ok hy]
  cases y with
  | none => exact ⟨.nil, rfl, .inl rfl⟩
  | some z =>
      obtain ⟨_, b, hb⟩ := hkeys z (hmem z rfl)
      have hhit : hit ops list key (some z) = .ok (if b then some z else none) := by
        simp only [hit, hb]
        rfl
      rw [except_bind_of_ok hhit]
      cases b with
      | false => exact ⟨.nil, rfl, .inl rfl⟩
      | true => exact ⟨_, rfl, .inr ⟨_, List.mem_map_of_mem (hmem z rfl)⟩⟩

/-- The traversal visits the entries in order. -/
theorem Linked.traverse_eq (hlinked : Linked list cells) (hsize : 0 < list.size) :
    traverse list = .ok (cells.map list.entry) := by
  have hchain := hlinked.chain 0 (by decide)
  rw [hlinked.onLevel_zero] at hchain
  have hhead : 0 < (list.node head).n := by
    rw [hlinked.head_height]
    decide
  rw [traverse, fwdAt_of_lt hhead, pure_bind]
  exact traverseFrom_eq hchain.2 (fun c hc => (hlinked.height c hc).1)
    (hlinked.length_lt_size hsize).le

theorem Sound.traverse_returns (hsound : list.Sound) : ∃ entries, traverse list = .ok entries := by
  obtain ⟨hsize, cells, hlinked⟩ := hsound
  exact ⟨_, hlinked.traverse_eq hsize⟩

end Skls

end Ymd
