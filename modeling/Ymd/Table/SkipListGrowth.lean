import Ymd.Foundation.Outcome
import Ymd.Table.SkipListRefinement
import Mathlib.Data.List.TakeWhile

/-! # Skip lists under any keys

A search asks the order of two keys anew at every level, and gets the same answer. So
the levels stay linked whatever the order is, as long as it has an answer at all.
-/

namespace Ymd.Skls

open Foundation

variable {ops : KeyOps} {list : Skls} {cells front mid upper : List Nat} {key : Variable}
  {i x y lvl : Nat}

/-- The search on a level goes on behind the node. -/
def Passes (ops : KeyOps) (list : Skls) (key : Variable) (c : Nat) : Prop :=
  ∃ r, ops.compare (list.node c).k key = .ok r ∧ r < 0

/-- The search on a level ends in front of the node. -/
def Stops (ops : KeyOps) (list : Skls) (key : Variable) (c : Nat) : Prop :=
  ∃ r, ops.compare (list.node c).k key = .ok r ∧ ¬ r < 0

theorem Passes.not_stops {c : Nat} (hpasses : Passes ops list key c) : ¬ Stops ops list key c := by
  rintro ⟨r, hr, hge⟩
  obtain ⟨r', hr', hlt⟩ := hpasses
  obtain rfl := Except.ok.inj (hr.symm.trans hr')
  exact hge hlt

/-- What the search on a level has seen when it ends. -/
theorem walk_ok {fuel : Nat} {far : List Nat} (hchain : Chain (list.succ i) (list.succ i x) far)
    (hheight : ∀ c ∈ x :: far, i < (list.node c).n)
    (hwalk : walk ops list key i fuel x = .ok y) :
    ∃ near rest, far = near ++ rest ∧ y = near.getLastD x ∧ (∀ c ∈ near, Passes ops list key c) ∧
      ∀ z ∈ rest.head?, Stops ops list key z := by
  induction fuel generalizing x far with
  | zero => cases hwalk
  | succ fuel ih =>
      rw [List.forall_mem_cons] at hheight
      rw [walk, fwdAt_of_lt hheight.1, pure_bind] at hwalk
      cases far with
      | nil =>
          rw [show list.succ i x = none from hchain] at hwalk
          obtain rfl := Except.ok.inj hwalk
          exact ⟨[], [], rfl, rfl, by simp, by simp⟩
      | cons c far =>
          obtain ⟨hnext, hrest⟩ := hchain
          rw [hnext] at hwalk
          obtain ⟨r, hcompare, hwalk⟩ := except_bind_ok_iff.1 hwalk
          by_cases hlt : r < 0
          · rw [if_pos hlt] at hwalk
            obtain ⟨near, rest, rfl, rfl, hnear, hstop⟩ := ih hrest hheight.2 hwalk
            refine ⟨c :: near, rest, rfl, by rw [List.getLastD_cons], ?_, hstop⟩
            rw [List.forall_mem_cons]
            exact ⟨⟨r, hcompare, hlt⟩, hnear⟩
          · rw [if_neg hlt] at hwalk
            obtain rfl := Except.ok.inj hwalk
            refine ⟨[], c :: far, rfl, rfl, by simp, fun z hz => ?_⟩
            obtain rfl := Option.some.inj hz
            exact ⟨r, hcompare, hlt⟩

/-- The search stands on `x` above level `i`: the nodes of `mid` are too low to have
been seen, and the next node seen ended the search. -/
structure Between (ops : KeyOps) (list : Skls) (key : Variable) (cells : List Nat) (i x : Nat)
    (front mid upper : List Nat) : Prop where
  cells : head :: cells = front ++ x :: (mid ++ upper)
  height : i ≤ (list.node x).n
  low : ∀ c ∈ mid, (list.node c).n ≤ i
  stop : ∀ z ∈ upper.head?, i < (list.node z).n ∧ Stops ops list key z

theorem onLevel_nil_of_low {part : List Nat} (hlow : ∀ c ∈ part, (list.node c).n ≤ i) :
    list.onLevel i part = [] := by
  rw [onLevel, List.filter_eq_nil_iff]
  intro c hc
  simpa using hlow c hc

theorem onLevel_cons_of_lt {part : List Nat} (hx : i < (list.node x).n) :
    list.onLevel i (x :: part) = x :: list.onLevel i part :=
  List.filter_cons_of_pos (by simpa using hx)

theorem chain_head (hlinked : Linked list cells) (hi : i < maxLevel) :
    Chain (list.succ i) (some head) (list.onLevel i (head :: cells)) := by
  rw [onLevel_cons_of_lt (by rw [hlinked.head_height]; exact hi)]
  exact hlinked.chain i hi

/-- The search on level `i` ends inside the nodes it has not seen, if it moves at all. -/
theorem Between.walk (hlinked : Linked list cells) (hi : i < maxLevel)
    (hbetween : Between ops list key cells (i + 1) x front mid upper) {fuel : Nat}
    (hwalk : Skls.walk ops list key i fuel x = .ok y) :
    ∃ front' mid' upper', Between ops list key cells i y front' mid' upper' ∧
      list.pred (front' ++ [y]) i = y ∧
      ∀ j > i, list.pred (front' ++ [y]) j = list.pred (front ++ [x]) j := by
  have hx : i < (list.node x).n := hbetween.height
  have hchain := chain_head hlinked hi
  rw [hbetween.cells, onLevel_append, onLevel_cons_of_lt hx] at hchain
  have hheight : ∀ c ∈ x :: list.onLevel i (mid ++ upper), i < (list.node c).n := by
    rw [List.forall_mem_cons]
    exact ⟨hx, fun c hc => (mem_onLevel.1 hc).2⟩
  obtain ⟨near, rest, hfar, rfl, hnear, hstop⟩ := walk_ok hchain.tail_of_append hheight hwalk
  -- the node that ended the search above ends this one at the latest
  obtain ⟨t, hmid, hrest⟩ : ∃ t, list.onLevel i mid = near ++ t ∧
      rest = t ++ list.onLevel i upper := by
    rw [onLevel_append] at hfar
    obtain ⟨t, hnear', hupper⟩ | h := List.append_eq_append_iff.1 hfar
    · cases t with
      | nil => exact ⟨[], by rw [hnear', List.append_nil, List.append_nil], hupper.symm⟩
      | cons z t =>
          obtain ⟨w, upper, rfl⟩ : ∃ w rest, upper = w :: rest := by
            cases upper with
            | nil => cases hupper
            | cons w upper => exact ⟨w, upper, rfl⟩
          obtain ⟨hw, hstops⟩ := hbetween.stop w rfl
          rw [onLevel_cons_of_lt (by omega)] at hupper
          obtain ⟨rfl, -⟩ := List.cons.inj hupper
          exact absurd hstops (hnear w (by rw [hnear']; simp)).not_stops
    · exact h
  obtain ⟨before, hbefore⟩ := exists_getLastD near x
  have hy : list.onLevel i (x :: mid) = before ++ [near.getLastD x] ++ t := by
    rw [onLevel_cons_of_lt hx, hmid, ← List.cons_append, hbefore]
  generalize near.getLastD x = y at hy
  -- what is in front of `y`, and behind it up to the next node on this level
  obtain ⟨part, back, hpart, hfirst, hback⟩ := List.filter_eq_append_iff.1 hy
  obtain ⟨a, b, rfl, -, hb⟩ := List.filter_eq_append_iff.1 hfirst
  obtain ⟨c, d, rfl, -, hylevel, hd⟩ := List.filter_eq_cons_iff.1 hb
  have hylt : i < (list.node y).n := by simpa using hylevel
  have hwhole : x :: mid = (a ++ c) ++ y :: (d ++ back) := by
    rw [hpart]
    simp only [List.append_assoc, List.cons_append]
  have hq : list.onLevel i (d ++ back) = t := by
    rw [onLevel_append]
    exact (congrArg₂ (· ++ ·) hd hback).trans (List.nil_append t)
  obtain ⟨low, high, hlowhigh, hlow, hhigh⟩ : ∃ low high, d ++ back = low ++ high ∧
      (∀ c ∈ low, (list.node c).n ≤ i) ∧ ∀ z ∈ high.head?, i < (list.node z).n := by
    refine ⟨_, _, (List.takeWhile_append_dropWhile (p := fun c => (list.node c).n ≤ i)).symm,
      fun c hc => by simpa using List.mem_takeWhile_imp hc, fun z hz => ?_⟩
    have hnot := List.head?_dropWhile_not (fun c => decide ((list.node c).n ≤ i)) (d ++ back)
    rw [Option.mem_def.1 hz] at hnot
    simpa using hnot
  have hhead : head :: cells = (front ++ (a ++ c)) ++ y :: (low ++ (high ++ upper)) := by
    rw [hbetween.cells, ← List.cons_append, hwhole, hlowhigh]
    simp only [List.append_assoc, List.cons_append]
  refine ⟨front ++ (a ++ c), low, high ++ upper, ⟨hhead, hylt.le, hlow, ?_⟩, ?_, ?_⟩
  · intro z hz
    cases high with
    | nil =>
        obtain ⟨hzlt, hstops⟩ := hbetween.stop z hz
        exact ⟨by omega, hstops⟩
    | cons w high =>
        obtain rfl : w = z := Option.some.inj hz
        refine ⟨hhigh w rfl, hstop w ?_⟩
        rw [hlowhigh, onLevel_append, onLevel_nil_of_low hlow,
          onLevel_cons_of_lt (hhigh w rfl)] at hq
        rw [hrest, ← hq]
        rfl
  · rw [pred, onLevel_append, onLevel_cons_of_lt hylt]
    exact List.getLastD_concat
  · intro j hj
    -- behind `x` there are only nodes too low for level `j`
    obtain ⟨p, hp, hsub⟩ : ∃ p, (a ++ c) ++ [y] = x :: p ∧ ∀ e ∈ p, e ∈ mid := by
      cases hac : a ++ c with
      | nil =>
          rw [hac] at hwhole
          obtain ⟨rfl, -⟩ := List.cons.inj hwhole
          exact ⟨[], rfl, by simp⟩
      | cons e p =>
          rw [hac] at hwhole
          obtain ⟨rfl, hmid'⟩ := List.cons.inj hwhole
          refine ⟨p ++ [y], rfl, fun e he => ?_⟩
          rw [hmid']
          rcases List.mem_append.1 he with he | he
          · exact List.mem_append_left _ he
          · exact List.mem_append_right _ (List.mem_singleton.1 he ▸ List.mem_cons_self)
    have hnone : list.onLevel j p = [] := onLevel_nil_of_low fun e he =>
      (hbetween.low e (hsub e he)).trans hj
    have hsame : list.onLevel j (front ++ (a ++ c) ++ [y]) = list.onLevel j (front ++ [x]) := by
      rw [List.append_assoc, hp, ← List.singleton_append, ← List.append_assoc, onLevel_append, hnone,
        List.append_nil]
    rw [pred, hsame, pred]

/-- The search from level `i - 1` down. -/
theorem Between.descend (hlinked : Linked list cells) (hi : i ≤ maxLevel)
    (hbetween : Between ops list key cells i x front mid upper) {update update' : Update}
    (hupdate : ∀ j, i ≤ j → j < list.lv → update j = some (list.pred (front ++ [x]) j))
    (hdescend : Skls.descend ops list key i x update = .ok (y, update')) :
    ∃ front' upper', head :: cells = front' ++ y :: upper' ∧
      ∀ j < list.lv, update' j = some (list.pred (front' ++ [y]) j) := by
  induction i generalizing x front mid upper update with
  | zero =>
      obtain ⟨rfl, rfl⟩ := Prod.mk.inj (Except.ok.inj hdescend)
      exact ⟨front, mid ++ upper, hbetween.cells, fun j hj => hupdate j (Nat.zero_le j) hj⟩
  | succ i ih =>
      obtain ⟨z, hwalk, hdescend⟩ := except_bind_ok_iff.1 hdescend
      obtain ⟨front', mid', upper', hbetween', hlevel, habove⟩ := hbetween.walk hlinked hi hwalk
      refine ih (Nat.le_of_succ_le hi) hbetween' (fun j hij hj => ?_) hdescend
      by_cases hji : j = i
      · rw [hji, Function.update_self, hlevel]
      · rw [Function.update_of_ne hji, hupdate j (by omega) hj, habove j (by omega)]

/-- A search that ends has found where a node can be linked. -/
theorem descend_ok (hlinked : Linked list cells) {update : Update}
    (hdescend : Skls.descend ops list key list.lv head (fun _ => none) = .ok (y, update)) :
    ∃ lower upper, cells = lower ++ upper ∧ ∀ j < list.lv, update j = some (list.pred lower j) := by
  have hbetween : Between ops list key cells list.lv head [] cells [] := by
    refine ⟨by simp, ?_, fun c hc => (hlinked.height c hc).2, by simp⟩
    rw [hlinked.head_height]
    exact hlinked.lv_le
  obtain ⟨front, upper, hcells, hupdate⟩ := hbetween.descend hlinked hlinked.lv_le
    (fun j hij hj => absurd hj (Nat.not_lt.2 hij)) hdescend
  have hpred : ∀ j < list.lv, ∀ lower, list.pred (head :: lower) j = list.pred lower j := by
    intro j hj lower
    have hhead : j < (list.node head).n := by
      rw [hlinked.head_height]
      exact hj.trans_le hlinked.lv_le
    rw [pred, onLevel_cons_of_lt hhead, List.getLastD_cons, pred]
  cases front with
  | nil =>
      obtain ⟨rfl, rfl⟩ := List.cons.inj hcells
      exact ⟨[], cells, rfl, fun j hj => by rw [hupdate j hj, List.nil_append, hpred j hj]⟩
  | cons c front =>
      obtain ⟨rfl, hrest⟩ := List.cons.inj hcells
      refine ⟨front ++ [y], upper, hrest.trans (List.append_cons ..), fun j hj => ?_⟩
      rw [hupdate j hj, List.cons_append, hpred j hj]

theorem put_ok {e : SkEntry} (hput : put ops list key lvl = .ok e) :
    ∃ x, index ops list key lvl = .ok x ∧
      e = ⟨{ x.list with
        node := Function.update x.list.node x.node { x.list.node x.node with k := key } }, x.node⟩ := by
  unfold put at hput
  split at hput
  · cases hput
  · obtain ⟨x, hindex, he⟩ := except_bind_ok_iff.1 hput
    exact ⟨x, hindex, (Except.ok.inj he).symm⟩

/-- A put that succeeds leaves the nodes linked. -/
theorem Linked.putStore (hlinked : Linked list cells) (hsize : 0 < list.size) (hpos : 1 ≤ lvl)
    (hlvl : lvl ≤ maxLevel) {v : Variable} {list' : Skls}
    (hput : putStore ops list key v lvl = .ok list') :
    ∃ cells', Linked list' cells' ∧ 0 < list'.size := by
  obtain ⟨e, hput₁, hstore⟩ := except_bind_ok_iff.1 hput
  obtain rfl := Except.ok.inj hstore
  obtain ⟨x, hindex, rfl⟩ := put_ok hput₁
  rw [store_setKey]
  obtain ⟨⟨z, update⟩, hdescend, hindex₁⟩ := except_bind_ok_iff.1 hindex
  obtain ⟨next, -, hindex₂⟩ := except_bind_ok_iff.1 hindex₁
  obtain ⟨found, -, hindex₃⟩ := except_bind_ok_iff.1 hindex₂
  cases found with
  | some y =>
      obtain rfl := Except.ok.inj hindex₃
      exact ⟨cells, hlinked.setEntry y key v, hsize⟩
  | none =>
      obtain ⟨lower, upper, rfl, hupdate⟩ := descend_ok hlinked hdescend
      obtain ⟨grown, happend, hgrown, hsize', -⟩ := append_spec hlinked hsize hpos hlvl hupdate
      obtain rfl := Except.ok.inj (hindex₃.symm.trans happend)
      refine ⟨_, hgrown.setEntry list.size key v, ?_⟩
      change 0 < grown.size
      omega

/-- Level 0 says which nodes there are, and in which order. -/
theorem Linked.cells_unique {cells' : List Nat} (hlinked : Linked list cells)
    (hlinked' : Linked list cells') : cells = cells' := by
  have hchain := hlinked.chain 0 (by decide)
  have hchain' := hlinked'.chain 0 (by decide)
  rw [hlinked.onLevel_zero] at hchain
  rw [hlinked'.onLevel_zero] at hchain'
  exact (List.cons.inj (hchain.unique hchain')).2

/-- The lists that puts make, each in the heap of its time. -/
inductive Built : Skls → Prop
  | new : Built Skls.new
  | put {ops : KeyOps} {list list' : Skls} {k v : Variable} {lvl : Nat} (hlist : Built list)
      (hpos : 1 ≤ lvl) (hlvl : lvl ≤ maxLevel) (hput : putStore ops list k v lvl = .ok list') :
      Built list'

theorem Built.putAll {ops : KeyOps} {list' : Skls} {log : List ((Variable × Variable) × Nat)}
    (hlist : Built list) (hlevels : ∀ e ∈ log, 1 ≤ e.2 ∧ e.2 ≤ maxLevel)
    (hputs : Skls.putAll ops list log = .ok list') : Built list' := by
  induction log generalizing list with
  | nil =>
      obtain rfl := Except.ok.inj hputs
      exact hlist
  | cons e log ih =>
      obtain ⟨next, hput, hrest⟩ := except_bind_ok_iff.1 hputs
      obtain ⟨⟨hpos, hlvl⟩, hlevels⟩ := List.forall_mem_cons.1 hlevels
      exact ih (hlist.put hpos hlvl hput) hlevels hrest

theorem Built.linked (hbuilt : Built list) : ∃ cells, Linked list cells ∧ 0 < list.size := by
  induction hbuilt with
  | new => exact ⟨[], Linked.new, Nat.one_pos⟩
  | put _ hpos hlvl hput ih =>
      obtain ⟨cells, hlinked, hsize⟩ := ih
      exact hlinked.putStore hsize hpos hlvl hput

end Ymd.Skls
