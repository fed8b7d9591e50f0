import Ymd.Library.Iterators
import Ymd.Pickle.Restore
import Ymd.Table.FiniteMap
import Ymd.Table.Lookups
import Ymd.Table.Occupied
import Ymd.Table.SkipListGrowth
import Ymd.Table.SortedMap

/-! # Iterators are complete

The iterator of a container that is not changed meanwhile shows its entries one after
the other, each as its value, its key, or both, and then nothing more.
-/

namespace Ymd

open Foundation

/-! ## Pushing an entry -/

section

variable {l : Ctx} {k v : Variable}

theorem pushAdd_eq {o : Addr} {elem rest : List Variable} (hstk : l.stk = .dyay o :: rest)
    (hobj : l.heap.obj o = some (.dyay elem)) (hroom : l.stk.length < maxStack) :
    (ymdPush v >>= fun _ => ymdAdd) l
      = .ok () { l with heap := l.heap.set o (.dyay (elem ++ [v])) } := by
  rw [bind_of_ok (ymdPush_of_lt hroom)]
  have hadd := ymdAdd_of_top (l := { l with stk := v :: l.stk }) (v := v) (S := rest)
    (by rw [hstk]) hobj
  rw [← hstk] at hadd
  exact hadd

/-- The pair is an array of its own. -/
theorem pushPair_left (hroom : l.Room) :
    ∃ l', pushPair k v l = .ok () l' ∧ Answer.Left l 1 l' (some (.pair k v)) := by
  have hlt : l.stk.length + 2 ≤ maxStack := hroom
  obtain ⟨o, ho⟩ : ∃ o, l.heap.next = o := ⟨_, rfl⟩
  have hdyay : ymdDyay l
      = .ok () { l with stk := .dyay o :: l.stk, heap := (l.heap.alloc (.dyay [])).1 } := by
    have hpush := ymdPush_of_lt (l := { l with heap := (l.heap.alloc (.dyay [])).1 })
      (v := .dyay o) (show l.stk.length < maxStack by omega)
    rw [← ho] at hpush ⊢
    exact hpush
  have hobj : (l.heap.alloc (.dyay [])).1.obj o = some (.dyay []) := by
    rw [← ho]
    exact Heap.obj_alloc_self
  have hframe : ∀ a ≠ o, (l.heap.alloc (.dyay [])).1.obj a = l.heap.obj a := fun a ha =>
    Heap.obj_alloc_of_ne (ho ▸ ha)
  generalize (l.heap.alloc (.dyay [])).1 = heap₁ at hdyay hobj hframe
  have hkey := pushAdd_eq (l := { l with stk := .dyay o :: l.stk, heap := heap₁ }) (v := k) rfl hobj
    (show l.stk.length + 1 < maxStack by omega)
  have hobj₂ : (heap₁.set o (.dyay [k])).obj o = some (.dyay [k]) := Heap.obj_set_self hobj
  have hvalue := pushAdd_eq
    (l := { l with stk := .dyay o :: l.stk, heap := heap₁.set o (.dyay [k]) }) (v := v) rfl hobj₂
    (show l.stk.length + 1 < maxStack by omega)
  refine ⟨_, ?_, rfl, o, (heap₁.set o (.dyay [k])).set o (.dyay [k, v]), ?_, ?_, ?_, rfl⟩
  · rw [pushPair, bind_of_ok hdyay]
    obtain ⟨_, l', hpush, hadd⟩ := bind_ok_iff.1 hkey
    rw [bind_of_ok hpush, bind_of_ok hadd]
    exact hvalue
  · rw [← ho]
    exact l.heap.fresh _ le_rfl
  · exact Heap.dyay_eq_ok.2 (Heap.obj_set_self hobj₂)
  · intro a ha
    rw [Heap.obj_set_of_ne ha, Heap.obj_set_of_ne ha, hframe a ha]

theorem ymdPush_left (hroom : l.Room) :
    ∃ l', ymdPush v l = .ok () l' ∧ Answer.Left l 1 l' (some (.one v)) := by
  have hlt : l.stk.length + 2 ≤ maxStack := hroom
  exact ⟨_, ymdPush_of_lt (by omega), rfl, rfl⟩

theorem pushNil_left (hroom : l.Room) :
    ∃ l', ymdPush .nil l = .ok () l' ∧ Answer.Left l 1 l' none := by
  have hlt : l.stk.length + 2 ≤ maxStack := hroom
  exact ⟨_, ymdPush_of_lt (by omega), .inr ⟨rfl, rfl⟩⟩

end

/-! ## What the three functions show -/

/-- A function that lists a container, the flag of its iterators, and what they show of
an entry. -/
inductive Lists : (List Variable → VmM Iter) → YmdInt → (Variable → Variable → Answer) → Prop
  | range : Lists libxRange iterValue fun _ v => .one v
  | rank : Lists libxRank iterKv fun k v => .pair k v
  | ranki : Lists libxRanki iterKey fun k _ => .one k

section

variable {f : List Variable → VmM Iter} {flag : YmdInt} {shows : Variable → Variable → Answer}
  {l : Ctx}

theorem Lists.apply (hlists : Lists f flag shows) (obj : Variable) :
    f [obj] l = newContainIter obj flag l := by
  cases hlists <;> rfl

theorem pushEntry_left (hlists : Lists f flag shows) (hroom : l.Room) (k v : Variable) :
    ∃ l', pushEntry flag k v l = .ok () l' ∧ Answer.Left l 1 l' (some (shows k v)) := by
  cases hlists with
  | range => exact ymdPush_left hroom
  | rank => exact pushPair_left hroom
  | ranki => exact ymdPush_left hroom

/-! ## Arrays -/

/-- The elements of an array under their indices. -/
def indexed (elem : List Variable) : List (Variable × Variable) :=
  elem.mapIdx fun i v => (.int (BitVec.ofNat 64 i), v)

/-- A pointer of the iterator counts the elements that have been shown. -/
def AtElem (shows : Variable → Variable → Answer) (flag : YmdInt) (o : Addr)
    (elem : List Variable) (it : Iter) (as : List Answer) : Prop :=
  ∃ i idx, it = .dyayIter i elem.length idx flag o ∧ (flag ≠ iterValue → idx = BitVec.ofNat 64 i) ∧
    as = ((indexed elem).drop i).map fun e => shows e.1 e.2

theorem elemAt_ok {o : Addr} {elem : List Variable} {i : Nat} {v : Variable}
    (hobj : l.heap.dyay o = .ok elem) (hv : elem[i]? = some v) : elemAt o i l = .ok v l := by
  rw [elemAt, bind_of_ok (get_apply _), bind_of_ok (check_of_ok hobj), hv]
  rfl

theorem indexed_drop {elem : List Variable} {i : Nat} {v : Variable} (hv : elem[i]? = some v) :
    (indexed elem).drop i
      = (.int (BitVec.ofNat 64 i), v) :: (indexed elem).drop (i + 1) := by
  obtain ⟨hi, rfl⟩ := List.getElem?_eq_some_iff.1 hv
  have hlen : i < (indexed elem).length := by rwa [indexed, List.length_mapIdx]
  rw [List.drop_eq_getElem_cons hlen]
  congr 1
  simp [indexed]

theorem dyayIter_next (hlists : Lists f flag shows) {o : Addr} {elem : List Variable} {it : Iter}
    {a : Answer} {as : List Answer} (hat : AtElem shows flag o elem it (a :: as))
    (hroom : l.Room) (hobj : l.heap.dyay o = .ok elem) :
    ∃ it', it.Calls l (some a) it' ∧ AtElem shows flag o elem it' as := by
  obtain ⟨i, idx, rfl, hidx, has⟩ := hat
  obtain ⟨v, hv⟩ : ∃ v, elem[i]? = some v := by
    refine ⟨_, List.getElem?_eq_getElem (?_ : i < elem.length)⟩
    by_contra hge
    rw [List.drop_of_length_le (by rw [indexed, List.length_mapIdx]; omega)] at has
    cases has
  rw [indexed_drop hv, List.map_cons] at has
  obtain ⟨rfl, rfl⟩ := List.cons.inj has
  have hlt : ¬ elem.length ≤ i := Nat.not_le.2 (List.getElem?_eq_some_iff.1 hv).1
  have hload := elemAt_ok hobj hv
  cases hlists with
  | range =>
      obtain ⟨l', hpush, hleft⟩ := ymdPush_left (v := v) hroom
      refine ⟨.dyayIter (i + 1) elem.length idx iterValue o, ⟨1, l', ?_, hleft⟩,
        i + 1, idx, rfl, fun h => absurd rfl h, rfl⟩
      rw [Iter.call, dyayIter, if_neg hlt, if_neg (by decide), if_pos rfl, bind_of_ok hload,
        bind_of_ok hpush]
      rfl
  | rank =>
      obtain rfl := hidx (by decide)
      obtain ⟨l', hpush, hleft⟩ := pushPair_left (k := .int (BitVec.ofNat 64 i)) (v := v) hroom
      refine ⟨.dyayIter (i + 1) elem.length (BitVec.ofNat 64 i + 1) iterKv o, ⟨1, l', ?_, hleft⟩,
        i + 1, _, rfl, fun _ => (BitVec.ofNat_add i 1).symm, rfl⟩
      rw [Iter.call, dyayIter, if_neg hlt, if_neg (by decide), if_neg (by decide), if_pos rfl,
        bind_of_ok hload, bind_of_ok hpush]
      rfl
  | ranki =>
      obtain rfl := hidx (by decide)
      obtain ⟨l', hpush, hleft⟩ := ymdPush_left (v := .int (BitVec.ofNat 64 i)) hroom
      refine ⟨.dyayIter (i + 1) elem.length (BitVec.ofNat 64 i + 1) iterKey o, ⟨1, l', ?_, hleft⟩,
        i + 1, _, rfl, fun _ => (BitVec.ofNat_add i 1).symm, rfl⟩
      rw [Iter.call, dyayIter, if_neg hlt, if_pos rfl, ymdInt, bind_of_ok hpush]
      rfl

theorem dyayIter_end {o : Addr} {elem : List Variable} {it : Iter}
    (hat : AtElem shows flag o elem it []) :
    ∃ it', it.Calls l none it' ∧ AtElem shows flag o elem it' [] := by
  obtain ⟨i, idx, rfl, hidx, has⟩ := hat
  have hge : elem.length ≤ i := by
    have hlen := List.drop_eq_nil_iff.1 (List.map_eq_nil_iff.1 has.symm)
    rwa [indexed, List.length_mapIdx] at hlen
  refine ⟨_, ⟨0, l, ?_, .inl ⟨rfl, rfl⟩⟩, i, idx, rfl, hidx, has⟩
  rw [Iter.call, dyayIter, if_pos hge]
  rfl

/-! ## Hash maps -/

/-- The entry in a slot that is in use. -/
def Kvi.entry {n : Nat} (i : Kvi n) : Option (Variable × Variable) :=
  if i.flag = .free then none else some (i.k, i.v)

/-- The entries from a slot on. -/
def slotsFrom (map : Hmap) (i : Nat) : List (Variable × Variable) :=
  ((List.finRange (2 ^ map.shift)).drop i).filterMap fun j => (map.item j).entry

theorem slotsFrom_zero (map : Hmap) : slotsFrom map 0 = map.slots := rfl

theorem slotsFrom_lt {map : Hmap} {i : Nat} (hi : i < 2 ^ map.shift) :
    slotsFrom map i = ((map.item ⟨i, hi⟩).entry).toList ++ slotsFrom map (i + 1) := by
  have hlen : i < (List.finRange (2 ^ map.shift)).length := by rwa [List.length_finRange]
  rw [slotsFrom, List.drop_eq_getElem_cons hlen, List.filterMap_cons]
  simp only [List.getElem_finRange, Fin.cast_mk]
  cases (map.item ⟨i, hi⟩).entry <;> rfl

theorem slotsFrom_ge {map : Hmap} {i : Nat} (hi : 2 ^ map.shift ≤ i) : slotsFrom map i = [] := by
  rw [slotsFrom, List.drop_of_length_le (by rwa [List.length_finRange])]
  rfl

/-- A pointer of the iterator stands on a slot in use or behind the last slot. -/
def OnSlot (map : Hmap) (i : Nat) : Prop :=
  i = 2 ^ map.shift ∨ ∃ hi : i < 2 ^ map.shift, (map.item ⟨i, hi⟩).flag ≠ .free

/-- The free slots in front of the next one in use are skipped, and nothing else. -/
theorem move2valid_spec (map : Hmap) {left i : Nat} (hleft : i + left = 2 ^ map.shift) :
    ∃ i', move2valid map (2 ^ map.shift) left i = .ok i' ∧ OnSlot map i' ∧
      slotsFrom map i' = slotsFrom map i := by
  induction left generalizing i with
  | zero => exact ⟨i, rfl, .inl hleft, rfl⟩
  | succ left ih =>
      have hi : i < 2 ^ map.shift := by omega
      have hkvi : kviAt map i = .ok (map.item ⟨i, hi⟩) := dif_pos hi
      rw [move2valid, if_pos hi, except_bind_of_ok hkvi]
      by_cases hfree : (map.item ⟨i, hi⟩).flag = .free
      · obtain ⟨i', hmove, hon, hslots⟩ := ih (i := i + 1) (by omega)
        refine ⟨i', by rw [if_pos hfree, hmove], hon, ?_⟩
        rw [hslots, slotsFrom_lt hi, Kvi.entry, if_pos hfree]
        rfl
      · exact ⟨i, by rw [if_neg hfree]; rfl, .inr ⟨hi, hfree⟩, rfl⟩

/-- The entries to come are those from the pointer on. -/
def AtSlot (shows : Variable → Variable → Answer) (flag : YmdInt) (o : Addr) (map : Hmap)
    (it : Iter) (as : List Answer) : Prop :=
  ∃ i, it = .hmapIter i (2 ^ map.shift) flag o ∧ OnSlot map i ∧
    as = (slotsFrom map i).map fun e => shows e.1 e.2

theorem hmapIter_next (hlists : Lists f flag shows) {o : Addr} {map : Hmap} {it : Iter}
    {a : Answer} {as : List Answer} (hat : AtSlot shows flag o map it (a :: as)) (hroom : l.Room)
    (hobj : l.heap.hmap o = .ok map) :
    ∃ it', it.Calls l (some a) it' ∧ AtSlot shows flag o map it' as := by
  obtain ⟨i, rfl, hend | ⟨hi, hused⟩, has⟩ := hat
  · rw [slotsFrom_ge hend.ge] at has
    cases has
  rw [slotsFrom_lt hi, Kvi.entry, if_neg hused, Option.toList_some, List.singleton_append,
    List.map_cons] at has
  obtain ⟨rfl, rfl⟩ := List.cons.inj has
  have hleft : i + 1 + (2 ^ map.shift - (i + 1)) = 2 ^ map.shift := by omega
  obtain ⟨i', hmove, hon, hslots⟩ := move2valid_spec map hleft
  obtain ⟨l', hpush, hleft⟩ := pushEntry_left hlists hroom (map.item ⟨i, hi⟩).k (map.item ⟨i, hi⟩).v
  refine ⟨.hmapIter i' (2 ^ map.shift) flag o, ⟨1, l', ?_, hleft⟩, i', rfl, hon, by rw [hslots]⟩
  have hkvi : kviAt map i = .ok (map.item ⟨i, hi⟩) := dif_pos hi
  rw [Iter.call, hmapIter, if_neg (Nat.not_le.2 hi), bind_of_ok (get_apply _),
    bind_of_ok (check_of_ok hobj), bind_of_ok (check_of_ok hkvi), bind_of_ok hpush,
    bind_of_ok (check_of_ok hmove)]
  rfl

theorem hmapIter_end {o : Addr} {map : Hmap} {it : Iter} (hat : AtSlot shows flag o map it [])
    (hroom : l.Room) : ∃ it', it.Calls l none it' ∧ AtSlot shows flag o map it' [] := by
  obtain ⟨i, rfl, hon, has⟩ := hat
  have hge : 2 ^ map.shift ≤ i := by
    rcases hon with hend | ⟨hi, hused⟩
    · exact hend.ge
    · rw [slotsFrom_lt hi, Kvi.entry, if_neg hused] at has
      cases has
  obtain ⟨l', hpush, hleft⟩ := pushNil_left hroom
  refine ⟨_, ⟨1, l', ?_, hleft⟩, i, rfl, hon, has⟩
  rw [Iter.call, hmapIter, if_pos hge, bind_of_ok hpush]
  rfl

/-! ## Skip lists -/

/-- The entries to come are those of the nodes from the pointer on. -/
def AtNode (shows : Variable → Variable → Answer) (flag : YmdInt) (o : Addr) (list : Skls)
    (it : Iter) (as : List Answer) : Prop :=
  ∃ i cells, it = .sklsIter i flag o ∧ Chain (list.succ 0) i cells ∧
    (∀ x ∈ cells, 0 < (list.node x).n) ∧ as = (cells.map list.entry).map fun e => shows e.1 e.2

theorem sklsIter_next (hlists : Lists f flag shows) {o : Addr} {list : Skls} {it : Iter}
    {a : Answer} {as : List Answer} (hat : AtNode shows flag o list it (a :: as)) (hroom : l.Room)
    (hobj : l.heap.skls o = .ok list) :
    ∃ it', it.Calls l (some a) it' ∧ AtNode shows flag o list it' as := by
  obtain ⟨i, cells, rfl, hchain, hheight, has⟩ := hat
  cases cells with
  | nil => cases has
  | cons x cells =>
      obtain ⟨rfl, hrest⟩ := hchain
      rw [List.forall_mem_cons] at hheight
      rw [List.map_cons, List.map_cons] at has
      obtain ⟨rfl, rfl⟩ := List.cons.inj has
      obtain ⟨l', hpush, hleft⟩ := pushEntry_left hlists hroom (list.node x).k (list.node x).v
      refine ⟨.sklsIter (list.succ 0 x) flag o, ⟨1, l', ?_, hleft⟩, _, cells, rfl, hrest,
        hheight.2, rfl⟩
      have hfwd : list.fwdAt x 0 = .ok (list.succ 0 x) := Skls.fwdAt_of_lt hheight.1
      rw [Iter.call, sklsIter, bind_of_ok (get_apply _), bind_of_ok (check_of_ok hobj),
        bind_of_ok hpush, bind_of_ok (check_of_ok hfwd)]
      rfl

theorem sklsIter_end {o : Addr} {list : Skls} {it : Iter} (hat : AtNode shows flag o list it [])
    (hroom : l.Room) : ∃ it', it.Calls l none it' ∧ AtNode shows flag o list it' [] := by
  obtain ⟨i, cells, rfl, hchain, hheight, has⟩ := hat
  obtain rfl : cells = [] := List.map_eq_nil_iff.1 (List.map_eq_nil_iff.1 has.symm)
  obtain rfl : i = none := hchain
  obtain ⟨l', hpush, hleft⟩ := pushNil_left hroom
  refine ⟨_, ⟨1, l', ?_, hleft⟩, none, [], rfl, rfl, hheight, rfl⟩
  rw [Iter.call, sklsIter, bind_of_ok hpush]
  rfl

/-! ## All calls -/

/-- The function makes an iterator that shows the entries of the container at `o`, in
whatever states it is called, as long as the container stays as it is. -/
def Complete (f : List Variable → VmM Iter) (shows : Variable → Variable → Answer) (l : Ctx)
    (obj : Variable) (o : Addr) (entries : List (Variable × Variable)) : Prop :=
  ∃ it, f [obj] l = .ok it l ∧ ∀ ls : List Ctx,
    (∀ l' ∈ ls, l'.heap.obj o = l.heap.obj o ∧ l'.Room) →
    Enumerates Iter.Calls it (entries.map fun e => shows e.1 e.2) ls

theorem complete_dyay (hlists : Lists f flag shows) {o : Addr} {elem : List Variable}
    (hobj : l.heap.dyay o = .ok elem) : Complete f shows l (.dyay o) o (indexed elem) := by
  have hvalid : ∀ l' : Ctx, l'.heap.obj o = l.heap.obj o → l'.heap.dyay o = .ok elem := fun l' h =>
    Heap.dyay_eq_ok.2 (h.trans (Heap.dyay_eq_ok.1 hobj))
  refine ⟨.dyayIter 0 elem.length 0 flag o, ?_, fun ls hls => ?_⟩
  · rw [hlists.apply, newContainIter, bind_of_ok (get_apply _), bind_of_ok (check_of_ok hobj)]
    rfl
  · refine enumerates_of_invariant (AtElem shows flag o elem) ?_ ?_ ?_ hls
    · exact fun it a as l' hat hl' => dyayIter_next hlists hat hl'.2 (hvalid l' hl'.1)
    · exact fun it l' hat _ => dyayIter_end hat
    · exact ⟨0, 0, rfl, fun _ => rfl, rfl⟩

theorem complete_hmap (hlists : Lists f flag shows) {o : Addr} {map : Hmap}
    (hobj : l.heap.hmap o = .ok map) : Complete f shows l (.hmap o) o map.slots := by
  have hvalid : ∀ l' : Ctx, l'.heap.obj o = l.heap.obj o → l'.heap.hmap o = .ok map := fun l' h =>
    Heap.hmap_eq_ok.2 (h.trans (Heap.hmap_eq_ok.1 hobj))
  obtain ⟨i, hmove, hon, hslots⟩ := move2valid_spec map (Nat.zero_add _)
  have hnew : f [.hmap o] l = (if 2 ^ map.shift ≤ i then return .libxEnd
      else return .hmapIter i (2 ^ map.shift) flag o : VmM Iter) l := by
    rw [hlists.apply, newContainIter, bind_of_ok (get_apply _), bind_of_ok (check_of_ok hobj),
      bind_of_ok (check_of_ok hmove)]
  rw [← slotsFrom_zero, ← hslots]
  by_cases hend : 2 ^ map.shift ≤ i
  · refine ⟨.libxEnd, by rw [hnew, if_pos hend]; rfl, fun ls hls => ?_⟩
    rw [slotsFrom_ge hend]
    exact libxEnd_enumerates ls
  · refine ⟨.hmapIter i (2 ^ map.shift) flag o, by rw [hnew, if_neg hend]; rfl, fun ls hls => ?_⟩
    refine enumerates_of_invariant (AtSlot shows flag o map) ?_ ?_ ⟨i, rfl, hon, rfl⟩ hls
    · exact fun it a as l' hat hl' => hmapIter_next hlists hat hl'.2 (hvalid l' hl'.1)
    · exact fun it l' hat hl' => hmapIter_end hat hl'.2

theorem complete_skls (hlists : Lists f flag shows) {o : Addr} {list : Skls} {cells : List Nat}
    (hobj : l.heap.skls o = .ok list) (hlinked : list.Linked cells) :
    Complete f shows l (.skls o) o (cells.map list.entry) := by
  have hvalid : ∀ l' : Ctx, l'.heap.obj o = l.heap.obj o → l'.heap.skls o = .ok list := fun l' h =>
    Heap.skls_eq_ok.2 (h.trans (Heap.skls_eq_ok.1 hobj))
  have hhead : 0 < (list.node Skls.head).n := by
    rw [hlinked.head_height]
    decide
  have hchain := (hlinked.chain 0 (by decide)).2
  rw [hlinked.onLevel_zero] at hchain
  have hfirst : ∀ i, list.succ 0 Skls.head = i →
      check (list.fwdAt Skls.head 0) l = .ok i l := fun i hi =>
    check_of_ok ((Skls.fwdAt_of_lt hhead).trans (congrArg _ hi))
  cases cells with
  | nil =>
      refine ⟨.libxEnd, ?_, fun ls hls => libxEnd_enumerates ls⟩
      rw [hlists.apply, newContainIter, bind_of_ok (get_apply _), bind_of_ok (check_of_ok hobj),
        bind_of_ok (hfirst none hchain)]
      rfl
  | cons x cells =>
      refine ⟨.sklsIter (some x) flag o, ?_, fun ls hls => ?_⟩
      · rw [hlists.apply, newContainIter, bind_of_ok (get_apply _), bind_of_ok (check_of_ok hobj),
          bind_of_ok (hfirst (some x) hchain.1)]
        rfl
      refine enumerates_of_invariant (AtNode shows flag o list) ?_ ?_ ?_ hls
      · exact fun it a as l' hat hl' => sklsIter_next hlists hat hl'.2 (hvalid l' hl'.1)
      · exact fun it l' hat hl' => sklsIter_end hat hl'.2
      · refine ⟨some x, x :: cells, rfl, hchain.1 ▸ hchain, fun y hy => ?_, rfl⟩
        exact (hlinked.height y hy).1

end

/-- The iterators of `range`, `rank` and `ranki` show every element of an array in order
of its index, every slot of a hash map that is in use and every node of a skip list
once, and then nothing more. Where `hash` and `equals` tell the keys that were put apart,
the slots hold each of them once; where `compare` orders them, the nodes are in ascending
order. -/
theorem iterators_complete {f : List Variable → VmM Iter} {flag : YmdInt}
    {shows : Variable → Variable → Answer} (hlists : Lists f flag shows) (l : Ctx) (o : Addr) :
    (∀ elem, l.heap.dyay o = .ok elem → Complete f shows l (.dyay o) o (indexed elem)) ∧
    (∀ map, l.heap.hmap o = .ok map → Complete f shows l (.hmap o) o map.slots ∧
      ∀ ops IsKey hashOf resizes count empty log, Hmap.LawfulKeys ops IsKey hashOf →
        (∀ e ∈ log, IsKey e.1) → Hmap.new count = .ok empty →
        Hmap.putAll ops (resizes + 1) empty log = .ok map →
        (map.slots.map Prod.fst).Nodup ∧
          ∀ k v, (k, v) ∈ map.slots ↔ lastStored log k = some v) ∧
    ∀ list, l.heap.skls o = .ok list → list.Built → ∃ cells : List Nat,
      Complete f shows l (.skls o) o (cells.map list.entry) ∧
      list.traverse = .ok (cells.map list.entry) ∧ cells.Nodup ∧
      (∀ x, x ∈ cells ↔ 0 < x ∧ x < list.size) ∧
      ∀ (α : Type) [LinearOrder α] ops IsKey (rank : Variable → α) log, OrderedKeys ops IsKey rank →
        (∀ e ∈ log, IsKey e.1.1) → (∀ e ∈ log, 1 ≤ e.2 ∧ e.2 ≤ Skls.maxLevel) →
        Skls.putAll ops Skls.new log = .ok list →
        cells.Pairwise fun x y => ∃ c < 0, ops.compare (list.node x).k (list.node y).k = .ok c := by
  refine ⟨fun elem => complete_dyay hlists, fun map hobj => ⟨complete_hmap hlists hobj, ?_⟩,
    fun list hobj hbuilt => ?_⟩
  · intro ops IsKey hashOf resizes count empty log hlaw hkeys hnew hputs
    obtain ⟨shift, hshift, rfl⟩ := Hmap.new_ok hnew
    obtain ⟨map', hrun, hrep⟩ := Hmap.putAll_represents hlaw hshift log hkeys
    obtain rfl := Except.ok.inj (hputs.symm.trans (hrun resizes))
    exact ⟨hrep.wf.nodup_slots, fun k v => Hmap.mem_slots.trans (hrep.holds k v)⟩
  · obtain ⟨cells, hlinked, hsize⟩ := hbuilt.linked
    refine ⟨cells, complete_skls hlists hobj hlinked, hlinked.traverse_eq hsize, hlinked.nodup,
      hlinked.mem, ?_⟩
    intro α _ ops IsKey rank log hlaw hkeys hlevels hputs
    obtain ⟨list', cells', hrun, hrep⟩ := Skls.putAll_represents hlaw log hkeys hlevels
    obtain rfl := Except.ok.inj (hputs.symm.trans hrun)
    obtain rfl : cells = cells' := hlinked.cells_unique hrep.linked
    refine hrep.sorted.imp_of_mem fun {x y} hx hy hlt => ?_
    obtain ⟨c, hc, hsign⟩ := hlaw.compare (hrep.keys x hx) (hrep.keys y hy)
    exact ⟨c, hsign.2 hlt, hc⟩

/-! ### Iterators over tables -/

private def mapFrom (r : Except Fault Hmap) : Hmap := r.toOption.getD (.zalloc 5)

private def listFrom (r : Except Fault Skls) : Skls := r.toOption.getD .new

private theorem mapFrom_ok {r : Except Fault Hmap} (h : r.toOption.isSome = true) :
    r = .ok (mapFrom r) := by
  cases r with
  | error f => cases h
  | ok map => rfl

private theorem listFrom_ok {r : Except Fault Skls} (h : r.toOption.isSome = true) :
    r = .ok (listFrom r) := by
  cases r with
  | error f => cases h
  | ok list => rfl

private def threePuts : List (Variable × Variable) :=
  [(.int 9, .bool 1), (.kstr [97], .nil), (.int 5, .int 50)]

/-- A map with free slots, and a list with nodes on three levels. -/
private def threeMap : Hmap := mapFrom (Hmap.putAll (valueOps .empty 1) 1 (.zalloc 5) threePuts)

private def threeList : Skls :=
  listFrom (Skls.putAll (valueOps .empty 1) .new (threePuts.zip [2, 1, 3]))

private def tablesCtx : Ctx :=
  { Ctx.initial fun _ => 1 with
    heap := ((Heap.empty.alloc (.hmap threeMap)).1.alloc (.skls threeList)).1 }

/-- What `rank` shows of the map and `ranki` of the list. -/
theorem iterators_complete_tables :
    (threeMap.slots.map Prod.fst).Nodup ∧ threeMap.slots.length = 3 ∧
    (∃ it, libxRank [.hmap 0] tablesCtx = .ok it tablesCtx ∧ Enumerates Iter.Calls it
      (threeMap.slots.map fun e => .pair e.1 e.2) [tablesCtx, tablesCtx, tablesCtx, tablesCtx]) ∧
    ∃ it, libxRanki [.skls 1] tablesCtx = .ok it tablesCtx ∧ Enumerates Iter.Calls it
      [.one (.int 5), .one (.int 9), .one (.kstr [97])]
      [tablesCtx, tablesCtx, tablesCtx, tablesCtx] := by
  have hvalid : ∀ o, ∀ l ∈ [tablesCtx, tablesCtx, tablesCtx, tablesCtx],
      l.heap.obj o = tablesCtx.heap.obj o ∧ l.Room := by
    intro o l hl
    obtain rfl : l = tablesCtx := by
      simpa only [List.mem_cons, List.not_mem_nil, or_false, or_self] using hl
    exact ⟨rfl, show 2 ≤ 128 by decide⟩
  obtain ⟨hmap, hputs⟩ := (iterators_complete .rank tablesCtx 0).2.1 threeMap rfl
  obtain ⟨hnodup, -⟩ := hputs _ _ _ 0 (-1) (.zalloc 5) threePuts (lawfulKeys_scalar .empty 0)
    (by decide) rfl (mapFrom_ok (by decide +kernel))
  obtain ⟨it, hnew, hcalls⟩ := hmap
  refine ⟨hnodup, by decide +kernel, ⟨it, hnew, hcalls _ (hvalid 0)⟩, ?_⟩
  have hlist : threeList.Built :=
    Skls.Built.new.putAll (by decide) (listFrom_ok (by decide +kernel))
  obtain ⟨cells, ⟨it, hnew, hcalls⟩, htraverse, -⟩ :=
    (iterators_complete .ranki tablesCtx 1).2.2 threeList rfl hlist
  have hentries : threeList.traverse.toOption =
      some [(.int 5, .int 50), (.int 9, .bool 1), (.kstr [97], .nil)] := by
    decide +kernel
  rw [htraverse] at hentries
  rw [Option.some.inj hentries] at hcalls
  exact ⟨it, hnew, hcalls _ (hvalid 1)⟩

/-- The maps `{}` and `{1 : 10}`. -/
private def mapsHeap : Heap :=
  ((Heap.empty.alloc (.hmap (.zalloc 5))).1.alloc
    (.hmap (mapFrom (Hmap.putAll (valueOps .empty 1) 1 (.zalloc 5) [(.int 1, .int 10)])))).1

private def mapPuts : List ((Variable × Variable) × Nat) :=
  [((.hmap 0, .int 1), 1), ((.hmap 1, .int 2), 1)]

private def mapsList : Skls := listFrom (Skls.putAll (valueOps mapsHeap 3) .new mapPuts)

private def mapsCtx : Ctx :=
  { Ctx.initial fun _ => 1 with
    heap := (mapsHeap.alloc (.skls mapsList)).1 }

/-- An array, empty and with an element. -/
private def emptyArray : Heap := (Heap.empty.alloc (.dyay [])).1

private def grownArray : Heap := emptyArray.set 0 (.dyay [.int 5])

private def firstMap : Hmap :=
  mapFrom (Hmap.putAll (valueOps emptyArray 2) 1 (.zalloc 5) [(.dyay 0, .int 1)])

private def secondMap : Hmap :=
  mapFrom (Hmap.putAll (valueOps grownArray 2) 1 firstMap [(.dyay 0, .int 2)])

private def arrayKeyCtx : Ctx :=
  { Ctx.initial fun _ => 1 with
    heap := (grownArray.alloc (.hmap secondMap)).1 }

/-- `ranki` shows `{1 : 10}` in front of `{}`, though `compare` does not find it below; and
it shows an array twice that has grown between two puts under it. -/
theorem iterators_show_out_of_order :
    (Skls.putAll (valueOps mapsHeap 3) .new mapPuts = .ok mapsList ∧
      (∃ it, libxRanki [.skls 2] mapsCtx = .ok it mapsCtx ∧ Enumerates Iter.Calls it
        [.one (.hmap 1), .one (.hmap 0)] [mapsCtx, mapsCtx, mapsCtx]) ∧
      ¬ ∃ c < 0, (valueOps mapsHeap 3).compare (.hmap 1) (.hmap 0) = .ok c) ∧
    Hmap.putAll (valueOps emptyArray 2) 1 (.zalloc 5) [(.dyay 0, .int 1)] = .ok firstMap ∧
    Hmap.putAll (valueOps grownArray 2) 1 firstMap [(.dyay 0, .int 2)] = .ok secondMap ∧
    ∃ it, libxRanki [.hmap 1] arrayKeyCtx = .ok it arrayKeyCtx ∧ Enumerates Iter.Calls it
      [.one (.dyay 0), .one (.dyay 0)] [arrayKeyCtx, arrayKeyCtx, arrayKeyCtx] := by
  have hvalid : ∀ l₀ : Ctx, l₀.Room → ∀ o, ∀ l ∈ [l₀, l₀, l₀],
      l.heap.obj o = l₀.heap.obj o ∧ l.Room := by
    intro l₀ hroom o l hl
    obtain rfl : l = l₀ := by
      simpa only [List.mem_cons, List.not_mem_nil, or_false, or_self] using hl
    exact ⟨rfl, hroom⟩
  have hputs : Skls.putAll (valueOps mapsHeap 3) .new mapPuts = .ok mapsList :=
    listFrom_ok (by decide +kernel)
  refine ⟨⟨hputs, ?_, ?_⟩, mapFrom_ok (by decide +kernel), mapFrom_ok (by decide +kernel), ?_⟩
  · obtain ⟨cells, hlinked, hsize⟩ := (Skls.Built.new.putAll (by decide) hputs).linked
    obtain ⟨it, hnew, hcalls⟩ := complete_skls .ranki (l := mapsCtx) (o := 2) rfl hlinked
    have hentries : mapsList.traverse.toOption = some [(.hmap 1, .int 2), (.hmap 0, .int 1)] := by
      decide +kernel
    rw [hlinked.traverse_eq hsize] at hentries
    rw [Option.some.inj hentries] at hcalls
    exact ⟨it, hnew, hcalls _ (hvalid mapsCtx (show 2 ≤ 128 by decide) 2)⟩
  · rintro ⟨c, hneg, hc⟩
    have hone : ((valueOps mapsHeap 3).compare (.hmap 1) (.hmap 0)).toOption = some 1 := by
      decide +kernel
    rw [hc] at hone
    obtain rfl := Option.some.inj hone
    exact absurd hneg (by decide)
  · obtain ⟨it, hnew, hcalls⟩ := complete_hmap .ranki (l := arrayKeyCtx) (o := 1) rfl
    have hslots : secondMap.slots.map (fun e => Answer.one e.1) =
        [.one (.dyay 0), .one (.dyay 0)] := by
      have hkeys : secondMap.slots.map Prod.fst = [.dyay 0, .dyay 0] := by decide +kernel
      rw [← Function.comp_def Answer.one, ← List.map_map, hkeys]
      rfl
    rw [hslots] at hcalls
    exact ⟨it, hnew, hcalls _ (hvalid arrayKeyCtx (show 2 ≤ 128 by decide) 1)⟩

end Ymd
