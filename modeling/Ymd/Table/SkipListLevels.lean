import Ymd.Foundation.Chain
import Ymd.Table.SkipList

/-! # The levels of a skip list

The nodes form one list, and level `i` is a chain through those of them that
are higher than `i`. A new node goes between two parts of the list, on each of
its levels behind the last node of the first part.
-/

namespace Ymd.Skls

open Foundation

variable {list : Skls} {cells lower upper : List Nat} {x i lvl : Nat}

/-- The successors on level `i`. -/
def succ (list : Skls) (i : Nat) : Nat → Option Nat := fun x => (list.node x).fwd i

/-- The nodes of `cells` that are on level `i`. -/
def onLevel (list : Skls) (i : Nat) (cells : List Nat) : List Nat :=
  cells.filter fun x => i < (list.node x).n

/-- The last node on level `i` that is the head or in `lower`. -/
def pred (list : Skls) (lower : List Nat) (i : Nat) : Nat := (list.onLevel i lower).getLastD head

/-- The nodes are `cells`, in this order on every level. -/
structure Linked (list : Skls) (cells : List Nat) : Prop where
  mem : ∀ x, x ∈ cells ↔ 0 < x ∧ x < list.size
  height : ∀ x ∈ cells, 1 ≤ (list.node x).n ∧ (list.node x).n ≤ list.lv
  lv_le : list.lv ≤ maxLevel
  head_height : (list.node head).n = maxLevel
  chain : ∀ i < maxLevel, Chain (list.succ i) (some head) (head :: list.onLevel i cells)
  count_eq : list.count = cells.length

theorem mem_onLevel : x ∈ list.onLevel i cells ↔ x ∈ cells ∧ i < (list.node x).n := by
  simp [onLevel]

theorem onLevel_append : list.onLevel i (lower ++ upper) =
    list.onLevel i lower ++ list.onLevel i upper := List.filter_append _ _

theorem onLevel_congr {list' : Skls} (hsame : ∀ x ∈ cells, (list'.node x).n = (list.node x).n) :
    list'.onLevel i cells = list.onLevel i cells := by
  unfold onLevel
  apply List.filter_congr
  intro x hx
  rw [hsame x hx]

/-- A higher level is a part of a lower one. -/
theorem onLevel_sublist {j : Nat} (hij : i ≤ j) :
    (list.onLevel j cells).Sublist (list.onLevel i cells) := by
  unfold onLevel
  apply List.monotone_filter_right
  intro x hx
  simp only [decide_eq_true_eq] at hx ⊢
  omega

theorem getLastD_eq_or_mem (l : List Nat) (a : Nat) : l.getLastD a = a ∨ l.getLastD a ∈ l := by
  induction l generalizing a with
  | nil => exact Or.inl rfl
  | cons b l ih =>
      rw [List.getLastD_cons]
      obtain heq | hin := ih b
      · rw [heq]
        exact Or.inr List.mem_cons_self
      · exact Or.inr (List.mem_cons_of_mem _ hin)

theorem exists_getLastD (l : List Nat) (a : Nat) : ∃ before, a :: l = before ++ [l.getLastD a] := by
  induction l generalizing a with
  | nil => exact ⟨[], rfl⟩
  | cons b l ih =>
      obtain ⟨before, hbefore⟩ := ih b
      exact ⟨a :: before, by rw [List.getLastD_cons, List.cons_append, ← hbefore]⟩

theorem getLastD_append_cons (before near : List Nat) (b a : Nat) :
    (before ++ b :: near).getLastD a = near.getLastD b := by
  induction before generalizing a with
  | nil => rw [List.nil_append, List.getLastD_cons]
  | cons c before ih => rw [List.cons_append, List.getLastD_cons, ih]

theorem pred_cases (list : Skls) (lower : List Nat) (i : Nat) : list.pred lower i = head ∨
    list.pred lower i ∈ lower ∧ i < (list.node (list.pred lower i)).n := by
  obtain heq | hin := getLastD_eq_or_mem (list.onLevel i lower) head
  · exact Or.inl heq
  · exact Or.inr (mem_onLevel.mp hin)

namespace Linked

theorem new : Linked Skls.new [] where
  mem := fun x => by
    simp only [List.not_mem_nil, false_iff, Skls.new]
    omega
  height := fun x hx => nomatch hx
  lv_le := Nat.zero_le _
  head_height := rfl
  chain := fun i _ => ⟨rfl, rfl⟩
  count_eq := rfl

theorem pred_height (hlinked : Linked list (lower ++ upper)) (hi : i < maxLevel) :
    i < (list.node (list.pred lower i)).n := by
  obtain heq | ⟨_, hlt⟩ := pred_cases list lower i
  · rw [heq, hlinked.head_height]
    exact hi
  · exact hlt

theorem pred_lt_size (hlinked : Linked list (lower ++ upper)) (hsize : 0 < list.size) :
    list.pred lower i < list.size := by
  obtain heq | ⟨hin, _⟩ := pred_cases list lower i
  · rw [heq]
    exact hsize
  · exact ((hlinked.mem _).mp (List.mem_append_left _ hin)).2

/-- Above the highest node there is nothing but the head. -/
theorem onLevel_eq_nil (hlinked : Linked list cells) (hi : list.lv ≤ i) :
    list.onLevel i cells = [] := by
  unfold onLevel
  rw [List.filter_eq_nil_iff]
  intro x hx
  have := (hlinked.height x hx).2
  simp only [decide_eq_true_eq]
  omega

theorem onLevel_zero (hlinked : Linked list cells) : list.onLevel 0 cells = cells := by
  unfold onLevel
  rw [List.filter_eq_self]
  intro x hx
  have := (hlinked.height x hx).1
  simp only [decide_eq_true_eq]
  omega

theorem nodup (hlinked : Linked list cells) : cells.Nodup := by
  have hnodup := (hlinked.chain 0 (by decide)).nodup
  rw [hlinked.onLevel_zero] at hnodup
  exact (List.nodup_cons.mp hnodup).2

theorem length_lt_size (hlinked : Linked list cells) (hsize : 0 < list.size) :
    cells.length < list.size := by
  have hsubset : cells ⊆ (List.range list.size).erase 0 := by
    intro x hx
    have hin := (hlinked.mem x).mp hx
    rw [List.mem_erase_of_ne (by omega)]
    exact List.mem_range.mpr hin.2
  have hle := (hlinked.nodup.subperm hsubset).length_le
  rw [List.length_erase_of_mem (List.mem_range.mpr hsize), List.length_range] at hle
  omega

/-- On level `i` the second part follows the last node of the first one. -/
theorem chain_upper (hlinked : Linked list (lower ++ upper)) (hi : i < maxLevel) :
    Chain (list.succ i) (list.succ i (list.pred lower i)) (list.onLevel i upper) := by
  have hchain := hlinked.chain i hi
  obtain ⟨before, hbefore⟩ := exists_getLastD (list.onLevel i lower) head
  rw [onLevel_append, ← List.cons_append, hbefore, List.append_assoc] at hchain
  exact hchain.tail_of_append

/-- Only the keys and the values of the nodes changed. -/
theorem congr {list' : Skls} (hlinked : Linked list cells) (hsize : list'.size = list.size)
    (hcount : list'.count = list.count) (hlv : list'.lv = list.lv)
    (hn : ∀ x, (list'.node x).n = (list.node x).n)
    (hfwd : ∀ x, (list'.node x).fwd = (list.node x).fwd) : Linked list' cells where
  mem := fun x => by rw [hsize, hlinked.mem]
  height := fun x hx => by rw [hn, hlv]; exact hlinked.height x hx
  lv_le := by rw [hlv]; exact hlinked.lv_le
  head_height := by rw [hn]; exact hlinked.head_height
  chain := fun i hi => by
    have hsucc : list'.succ i = list.succ i := funext fun x => by simp [succ, hfwd]
    rw [hsucc, onLevel_congr fun x _ => hn x]
    exact hlinked.chain i hi
  count_eq := by rw [hcount]; exact hlinked.count_eq

end Linked

/-! ## Linking a new node -/

/-- The list after the first `j` rounds of the linking loop. -/
structure LinkedUpTo (list : Skls) (lower : List Nat) (x j : Nat) (list' : Skls) : Prop where
  size : list'.size = list.size
  count : list'.count = list.count
  lv : list'.lv = list.lv
  key : ∀ y, (list'.node y).k = (list.node y).k
  value : ∀ y, (list'.node y).v = (list.node y).v
  height : ∀ y, (list'.node y).n = (list.node y).n
  below : ∀ i < j, list'.succ i =
    Function.update (Function.update (list.succ i) x (list.succ i (list.pred lower i)))
      (list.pred lower i) (some x)
  above : ∀ i, j ≤ i → list'.succ i = list.succ i

theorem fwdAt_of_lt (hlt : i < (list.node x).n) : list.fwdAt x i = pure (list.succ i x) := by
  simp [fwdAt, hlt, succ]

/-- One pointer assignment, and what it leaves alone. -/
theorem setFwd_spec (hlt : i < (list.node x).n) (target : Option Nat) :
    ∃ list', list.setFwd x i target = pure list' ∧ list'.size = list.size ∧
      list'.count = list.count ∧ list'.lv = list.lv ∧
      (∀ y, (list'.node y).k = (list.node y).k ∧ (list'.node y).v = (list.node y).v ∧
        (list'.node y).n = (list.node y).n) ∧
      list'.succ i = Function.update (list.succ i) x target ∧
      ∀ j, j ≠ i → list'.succ j = list.succ j := by
  let node : Sknd := { list.node x with fwd := Function.update (list.node x).fwd i target }
  refine ⟨{ list with node := Function.update list.node x node }, by rw [setFwd, if_pos hlt],
    rfl, rfl, rfl, fun y => ?_, ?_, fun j hj => ?_⟩
  · by_cases hy : y = x <;> simp [hy, node]
  · funext y
    by_cases hy : y = x <;> simp [succ, hy, node]
  · funext y
    by_cases hy : y = x <;> simp [succ, hy, hj, node]

theorem linkLevel_spec {update : Update} {list' : Skls} {j : Nat}
    (hstep : LinkedUpTo list lower x j list') (hx : j < (list.node x).n)
    (hpred : j < (list.node (list.pred lower j)).n) (hne : x ≠ list.pred lower j)
    (hj : j < maxLevel) (hupdate : update j = some (list.pred lower j)) :
    ∃ list'', linkLevel x update list' j = pure list'' ∧
      LinkedUpTo list lower x (j + 1) list'' := by
  have hsame : list'.succ j = list.succ j := hstep.above j (Nat.le_refl j)
  have hpred' : j < (list'.node (list.pred lower j)).n := by rwa [hstep.height]
  have hx' : j < (list'.node x).n := by rwa [hstep.height]
  obtain ⟨first, hfirst, hsize, hcount, hlv, hnode, hsucc, hothers⟩ :=
    setFwd_spec hx' (list'.succ j (list.pred lower j))
  have hpredFirst : j < (first.node (list.pred lower j)).n := by rwa [(hnode _).2.2]
  obtain ⟨second, hsecond, hsize', hcount', hlv', hnode', hsucc', hothers'⟩ :=
    setFwd_spec hpredFirst (some x)
  refine ⟨second, ?_, ?_⟩
  · simp only [linkLevel, updateAt, hupdate, if_pos hj, pure_bind, fwdAt_of_lt hpred', hfirst,
      hsecond]
  · refine ⟨?_, ?_, ?_, fun y => ?_, fun y => ?_, fun y => ?_, fun i hi => ?_, fun i hi => ?_⟩
    · rw [hsize', hsize, hstep.size]
    · rw [hcount', hcount, hstep.count]
    · rw [hlv', hlv, hstep.lv]
    · rw [(hnode' y).1, (hnode y).1, hstep.key]
    · rw [(hnode' y).2.1, (hnode y).2.1, hstep.value]
    · rw [(hnode' y).2.2, (hnode y).2.2, hstep.height]
    · by_cases heq : i = j
      · subst heq
        rw [hsucc', hsucc, hsame]
      · rw [hothers' i heq, hothers i heq]
        exact hstep.below i (by omega)
    · rw [hothers' i (by omega), hothers i (by omega)]
      exact hstep.above i (by omega)

/-- The linking loop. -/
theorem foldlM_linkLevel {update : Update} (hx : (list.node x).n = lvl) (hlvl : lvl ≤ maxLevel)
    (hpred : ∀ i < lvl, i < (list.node (list.pred lower i)).n)
    (hne : ∀ i, x ≠ list.pred lower i)
    (hupdate : ∀ i < lvl, update i = some (list.pred lower i)) {j : Nat} (hj : j ≤ lvl) :
    ∃ list', (List.range j).foldlM (linkLevel x update) list = pure list' ∧
      LinkedUpTo list lower x j list' := by
  induction j with
  | zero =>
      refine ⟨list, rfl, rfl, rfl, rfl, fun _ => rfl, fun _ => rfl, fun _ => rfl, ?_, fun _ _ => rfl⟩
      intro i hi
      exact absurd hi (Nat.not_lt_zero i)
  | succ j ih =>
      obtain ⟨list', hrun, hstep⟩ := ih (by omega)
      obtain ⟨list'', hround, hdone⟩ := linkLevel_spec hstep (by omega) (hpred j (by omega))
        (hne j) (by omega) (hupdate j (by omega))
      refine ⟨list'', ?_, hdone⟩
      rw [List.range_succ, List.foldlM_append, hrun, pure_bind]
      simp only [List.foldlM_cons, List.foldlM_nil, hround, pure_bind]

/-! ## Appending -/

theorem alloc_node {y : Nat} (hy : y ≠ list.size) : (list.alloc lvl).node y = list.node y :=
  Function.update_of_ne hy _ _

theorem alloc_node_size : (list.alloc lvl).node list.size = mknode lvl :=
  Function.update_self _ _ _

theorem Linked.ne_size (hlinked : Linked list cells) (hsize : 0 < list.size) {y : Nat}
    (hy : y ∈ head :: cells) : y ≠ list.size := by
  obtain rfl | hy := List.mem_cons.mp hy
  · exact Nat.ne_of_lt hsize
  · exact Nat.ne_of_lt ((hlinked.mem y).mp hy).2

theorem Linked.alloc_onLevel (hlinked : Linked list cells) (hsize : 0 < list.size)
    {part : List Nat} (hpart : part ⊆ cells) :
    (list.alloc lvl).onLevel i part = list.onLevel i part :=
  onLevel_congr fun y hy => by
    rw [alloc_node (hlinked.ne_size hsize (List.mem_cons_of_mem _ (hpart hy)))]

theorem Linked.alloc_pred (hlinked : Linked list (lower ++ upper)) (hsize : 0 < list.size) :
    (list.alloc lvl).pred lower i = list.pred lower i := by
  unfold pred
  rw [hlinked.alloc_onLevel hsize (List.subset_append_left _ _)]

/-- The chain of a level after the loop: the new node is on it when it is high enough. -/
theorem Linked.chain_insert (hlinked : Linked list (lower ++ upper)) (hsize : 0 < list.size)
    {list' : Skls} (hdone : LinkedUpTo (list.alloc lvl) lower list.size lvl list')
    (hi : i < maxLevel) :
    Chain (list'.succ i) (some head) (head :: list'.onLevel i (lower ++ list.size :: upper)) := by
  have hheight : ∀ y, (list'.node y).n = ((list.alloc lvl).node y).n := hdone.height
  have hnew : (list'.node list.size).n = lvl := by rw [hheight, alloc_node_size]; rfl
  have hlower : list'.onLevel i lower = list.onLevel i lower := by
    rw [onLevel_congr fun y _ => hheight y,
      hlinked.alloc_onLevel hsize (List.subset_append_left _ _)]
  have hupper : list'.onLevel i upper = list.onLevel i upper := by
    rw [onLevel_congr fun y _ => hheight y,
      hlinked.alloc_onLevel hsize (List.subset_append_right _ _)]
  have hne : ∀ y ∈ head :: list.onLevel i (lower ++ upper), y ≠ list.size := by
    intro y hy
    apply hlinked.ne_size hsize
    obtain rfl | hy := List.mem_cons.mp hy
    · exact List.mem_cons_self
    · exact List.mem_cons_of_mem _ (mem_onLevel.mp hy).1
  have hchain : Chain ((list.alloc lvl).succ i) (some head)
      (head :: list.onLevel i (lower ++ upper)) := by
    refine (hlinked.chain i hi).congr fun y hy => ?_
    simp only [succ, alloc_node (hne y hy)]
  by_cases hlow : i < lvl
  · have hpredNe : list.size ≠ list.pred lower i := (Nat.ne_of_lt (hlinked.pred_lt_size hsize)).symm
    have hcell : list'.onLevel i (list.size :: upper) = list.size :: list.onLevel i upper := by
      rw [← hupper]
      exact List.filter_cons_of_pos (by simpa [hnew] using hlow)
    have hfresh : list.size ∉ head :: list.onLevel i (lower ++ upper) := fun hin =>
      hne _ hin rfl
    -- split the old chain behind the last node of the first part
    obtain ⟨before, hbefore⟩ := exists_getLastD (list.onLevel i lower) head
    change _ = before ++ [list.pred lower i] at hbefore
    rw [onLevel_append, ← List.cons_append, hbefore, List.append_assoc] at hchain hfresh
    rw [onLevel_append, hlower, ← List.cons_append, hbefore, List.append_assoc, hcell]
    have hsucc := hdone.below i hlow
    rw [hlinked.alloc_pred hsize] at hsucc
    refine Chain.insert_after hchain hfresh ?_ ?_ ?_
    · rw [hsucc, Function.update_self]
    · rw [hsucc, Function.update_of_ne hpredNe, Function.update_self]
    · intro c hprev hc
      rw [hsucc, Function.update_of_ne hprev, Function.update_of_ne hc]
  · have hcell : list'.onLevel i (list.size :: upper) = list.onLevel i upper := by
      rw [← hupper]
      exact List.filter_cons_of_neg (by simpa [hnew] using hlow)
    rw [onLevel_append, hlower, hcell, ← onLevel_append, hdone.above i (by omega)]
    exact hchain

/-- What the loop makes of a list is a list again, with the new node in it. -/
theorem Linked.insert (hlinked : Linked list (lower ++ upper)) (hsize : 0 < list.size)
    (hpos : 1 ≤ lvl) (hlvl : lvl ≤ maxLevel) {list' : Skls}
    (hdone : LinkedUpTo (list.alloc lvl) lower list.size lvl list') :
    Linked list' (lower ++ list.size :: upper) where
  mem := fun y => by
    have hold := hlinked.mem y
    have hgrown : list'.size = list.size + 1 := hdone.size
    rw [List.mem_append] at hold
    rw [List.mem_append, List.mem_cons, hgrown, or_left_comm, hold]
    omega
  height := fun y hy => by
    have hlv : list'.lv = max list.lv lvl := hdone.lv
    rw [hdone.height, hlv]
    by_cases heq : y = list.size
    · rw [heq, alloc_node_size]
      change 1 ≤ lvl ∧ lvl ≤ max list.lv lvl
      omega
    · have hold : y ∈ lower ++ upper := by
        simp only [List.mem_append, List.mem_cons, heq, false_or] at hy
        exact List.mem_append.mpr hy
      have := hlinked.height y hold
      rw [alloc_node heq]
      omega
  lv_le := by
    have hlv : list'.lv = max list.lv lvl := hdone.lv
    have := hlinked.lv_le
    omega
  head_height := by
    rw [hdone.height, alloc_node (hlinked.ne_size hsize List.mem_cons_self)]
    exact hlinked.head_height
  chain := fun i hi => hlinked.chain_insert hsize hdone hi
  count_eq := by
    have hcount : list'.count = list.count + 1 := hdone.count
    rw [hcount, hlinked.count_eq]
    simp only [List.length_append, List.length_cons]
    omega

/-- `append` puts the new node between the two parts, whatever its level. -/
theorem append_spec (hlinked : Linked list (lower ++ upper)) (hsize : 0 < list.size)
    (hpos : 1 ≤ lvl) (hlvl : lvl ≤ maxLevel) {update : Update}
    (hupdate : ∀ i < list.lv, update i = some (list.pred lower i)) :
    ∃ list', append list update lvl = pure ⟨list', list.size⟩ ∧
      Linked list' (lower ++ list.size :: upper) ∧ list'.size = list.size + 1 ∧
      ∀ y, y ≠ list.size →
        (list'.node y).k = (list.node y).k ∧ (list'.node y).v = (list.node y).v := by
  have hpredNe : ∀ i, list.size ≠ (list.alloc lvl).pred lower i := fun i => by
    rw [hlinked.alloc_pred hsize]
    exact (Nat.ne_of_lt (hlinked.pred_lt_size hsize)).symm
  have hheight : ∀ i < lvl, i < ((list.alloc lvl).node ((list.alloc lvl).pred lower i)).n :=
    fun i hi => by
      rw [alloc_node (hpredNe i).symm, hlinked.alloc_pred hsize]
      exact hlinked.pred_height (by omega)
  have hupdate' : ∀ i < lvl, (if list.lv ≤ i ∧ i < lvl then some head else update i) =
      some ((list.alloc lvl).pred lower i) := fun i hi => by
    rw [hlinked.alloc_pred hsize]
    by_cases hlv : list.lv ≤ i
    · have hnil := hlinked.onLevel_eq_nil hlv
      rw [onLevel_append, List.append_eq_nil_iff] at hnil
      rw [if_pos ⟨hlv, hi⟩, pred, hnil.1, List.getLastD_nil]
    · rw [if_neg (fun h => hlv h.1), hupdate i (by omega)]
  have hnew : ((list.alloc lvl).node list.size).n = lvl := by rw [alloc_node_size]; rfl
  obtain ⟨list', hrun, hdone⟩ :=
    foldlM_linkLevel hnew hlvl hheight hpredNe hupdate' (Nat.le_refl lvl)
  refine ⟨list', ?_, hlinked.insert hsize hpos hlvl hdone, hdone.size, fun y hy => ?_⟩
  · rw [append, hrun, pure_bind]
  · rw [hdone.key, hdone.value, alloc_node hy]
    exact ⟨rfl, rfl⟩

end Ymd.Skls
