import Ymd.Foundation.Outcome
import Ymd.Table.Lookups
import Ymd.Table.NewSlot

/-! # Equal values with one hash

`hash` folds the entries of a hash map in the order of the slots, and the slots
of colliding keys depend on the order of the puts. Equality looks the entries up
and does not see the order. So equal values have one hash where the containers
inside them keep equal entries in one order.
-/

namespace Ymd

open Foundation

/-- Wherever the comparison of two values comes to two hash maps or skip lists,
their entries are equal one by one in the order of the loops. -/
def SameOrder (heap : Heap) : (depth : Nat) → Variable → Variable → Prop
  | 0, _, _ => True
  | depth + 1, v, w =>
      let same (v w : Variable) : Prop :=
        (valueOps heap depth).equals v w = .ok true ∧ SameOrder heap depth v w
      let sameEntries := List.Forall₂ fun (e e' : Variable × Variable) =>
        same e.1 e'.1 ∧ same e.2 e'.2
      match v, w with
      | .dyay o, .dyay p => o ≠ p → ∀ arr rhs, heap.dyay o = .ok arr → heap.dyay p = .ok rhs →
          ∀ e ∈ arr.zip rhs, SameOrder heap depth e.1 e.2
      | .hmap o, .hmap p => o ≠ p → ∀ map rhs, heap.hmap o = .ok map → heap.hmap p = .ok rhs →
          sameEntries map.entries rhs.entries
      | .skls o, .skls p => o ≠ p → ∀ list rhs entries rhsEntries, heap.skls o = .ok list →
          heap.skls p = .ok rhs → list.traverse = .ok entries → rhs.traverse = .ok rhsEntries →
            sameEntries entries rhsEntries
      | _, _ => True

section

variable {ops : KeyOps} {heap : Heap} {a b : Variable} {depth : Nat}

/-! ## The loops of hash -/

theorem hashElems_congr {elem elem' : List Variable} (hlen : elem.length = elem'.length)
    (hhash : ∀ e ∈ elem.zip elem', ops.hash e.1 = ops.hash e.2) {i : Nat} (hi : i ≤ elem.length)
    (h : BitVec 64) : hashElems ops elem i h = hashElems ops elem' i h := by
  induction i generalizing h with
  | zero => rfl
  | succ i ih =>
      have hi' : i < elem'.length := hlen ▸ hi
      have hzip : i < (elem.zip elem').length := by
        rw [List.length_zip]
        exact lt_min hi hi'
      have hmem := List.getElem_mem hzip
      rw [List.getElem_zip] at hmem
      have hval : ops.hash (elem.getD i .nil) = ops.hash (elem'.getD i .nil) := by
        rw [List.getD_eq_getElem?_getD, List.getD_eq_getElem?_getD, List.getElem?_eq_getElem hi,
          List.getElem?_eq_getElem hi']
        exact hhash _ hmem
      simp only [hashElems, hval, ih (Nat.le_of_succ_le hi)]

theorem hashDyay_congr {elem elem' : List Variable} (hlen : elem.length = elem'.length)
    (hhash : ∀ e ∈ elem.zip elem', ops.hash e.1 = ops.hash e.2) :
    hashDyay ops elem = hashDyay ops elem' := by
  unfold hashDyay
  rw [hashElems_congr hlen hhash le_rfl, hlen]

theorem hashEntries_congr {entries entries' : List (Variable × Variable)}
    (hhash : List.Forall₂ (fun e e' => ops.hash e.1 = ops.hash e'.1 ∧ ops.hash e.2 = ops.hash e'.2)
      entries entries') (h : BitVec 64) :
    hashEntries ops entries h = hashEntries ops entries' h := by
  induction hhash generalizing h with
  | nil => rfl
  | cons hentry _ ih => simp only [hashEntries, hentry.1, hentry.2, ih]

/-! ## The loops of equals -/

theorem equalElems_eq_true (pairs : List (Variable × Variable)) :
    equalElems ops pairs = .ok true ↔ ∀ p ∈ pairs, ops.equals p.1 p.2 = .ok true := by
  induction pairs with
  | nil => simp [equalElems, pure, Except.pure]
  | cons p pairs ih =>
      obtain ⟨l, r⟩ := p
      simp only [equalElems, except_bind_ok_iff, List.forall_mem_cons]
      constructor
      · rintro ⟨same, hsame, hrest⟩
        cases same with
        | false => cases hrest
        | true => exact ⟨hsame, ih.1 hrest⟩
      · rintro ⟨hsame, hrest⟩
        exact ⟨true, hsame, ih.2 hrest⟩

theorem dyayEquals_eq_true {arr rhs : List Variable} : dyayEquals ops arr rhs = .ok true ↔
    arr.length = rhs.length ∧ ∀ e ∈ arr.zip rhs, ops.equals e.1 e.2 = .ok true := by
  unfold dyayEquals
  split
  next hlen =>
    rw [equalElems_eq_true]
    simp only [List.mem_reverse, hlen, true_and]
  next hlen => exact iff_of_false nofun fun h => hlen h.1

/-- Equal values have one type. -/
theorem type_eq_of_equals (hequals : equalsWith ops heap a b = .ok true) : a.type = b.type := by
  by_contra htype
  unfold equalsWith at hequals
  rw [if_pos htype] at hequals
  cases hequals

theorem hash_eq_of_equals (hequals : (valueOps heap depth).equals a b = .ok true)
    (horder : SameOrder heap depth a b) :
    (valueOps heap depth).hash a = (valueOps heap depth).hash b := by
  induction depth generalizing a b with
  | zero => rfl
  | succ depth ih =>
      change equalsWith (valueOps heap depth) heap a b = .ok true at hequals
      have htype := type_eq_of_equals hequals
      -- entries that are equal one by one are folded to the same number
      have hentries : ∀ {entries entries' : List (Variable × Variable)},
          List.Forall₂ (fun e e' =>
            ((valueOps heap depth).equals e.1 e'.1 = .ok true ∧ SameOrder heap depth e.1 e'.1) ∧
            ((valueOps heap depth).equals e.2 e'.2 = .ok true ∧ SameOrder heap depth e.2 e'.2))
              entries entries' →
          hashEntries (valueOps heap depth) entries 0 =
            hashEntries (valueOps heap depth) entries' 0 := by
        intro entries entries' hall
        apply hashEntries_congr
        exact hall.imp fun _ _ hsame => ⟨ih hsame.1.1 hsame.1.2, ih hsame.2.1 hsame.2.2⟩
      unfold equalsWith at hequals
      rw [if_neg (not_not.2 htype)] at hequals
      split at hequals
      next =>
        cases b <;> first
          | rfl
          | cases htype
      next o p =>
        split at hequals
        next heq => rw [heq]
        next hne =>
          simp only [except_bind_ok_iff] at hequals
          obtain ⟨arr, harr, rhs, hrhs, hsame⟩ := hequals
          obtain ⟨hlen, hsame⟩ := dyayEquals_eq_true.1 hsame
          have hhash : ∀ e ∈ arr.zip rhs,
              (valueOps heap depth).hash e.1 = (valueOps heap depth).hash e.2 :=
            fun e he => ih (hsame e he) (horder hne arr rhs harr hrhs e he)
          simp only [valueOps, hashWith, harr, hrhs, bind, Except.bind]
          exact hashDyay_congr hlen hhash
      next o p =>
        split at hequals
        next heq => rw [heq]
        next hne =>
          simp only [except_bind_ok_iff] at hequals
          obtain ⟨map, hmap, rhs, hrhs, _⟩ := hequals
          simp only [valueOps, hashWith, hmap, hrhs, bind, Except.bind]
          exact hentries (horder hne map rhs hmap hrhs)
      next o p =>
        split at hequals
        next heq => rw [heq]
        next hne =>
          simp only [except_bind_ok_iff, sklsEquals] at hequals
          obtain ⟨list, hlist, rhs, hrhs, rhsEntries, hrhsEntries, entries, hlistEntries, _⟩ := hequals
          simp only [valueOps, hashWith, hlist, hrhs, hlistEntries, hrhsEntries, bind, Except.bind]
          exact hentries (horder hne list rhs entries rhsEntries hlist hrhs hlistEntries hrhsEntries)
      next => cases hequals
      next => rw [of_decide_eq_true (Except.ok.inj hequals)]

/-! ## Lookups -/

namespace Hmap

theorem search_congr {n : Nat} {item : Fin n → Kvi n} {cells : List (Fin n)} {start : Fin n}
    {h : BitVec 64} {fuel : Nat} (hchain : Chain (fun i => (item i).next) (some start) cells)
    (hkeys : ∀ c ∈ cells, ops.equals (item c).k a = ops.equals (item c).k b) :
    search ops item a h fuel start = search ops item b h fuel start := by
  induction cells generalizing start fuel with
  | nil => exact nomatch hchain
  | cons cell cells ih =>
      obtain ⟨hstart, hrest⟩ := hchain
      obtain rfl := Option.some.inj hstart
      cases fuel with
      | zero => rfl
      | succ fuel =>
          have hhits : hits ops (item start) a h = hits ops (item start) b h := by
            unfold hits
            rw [hkeys start List.mem_cons_self]
          rw [search, search, hhits]
          cases hnext : (item start).next with
          | none => rfl
          | some next =>
              change Chain _ (item start).next cells at hrest
              rw [hnext] at hrest
              simp only [ih hrest fun c hc => hkeys c (List.mem_cons_of_mem _ hc)]

theorem find_congr {map : Hmap} (hsound : map.Sound) (hhash : ops.hash a = ops.hash b)
    (hkeys : ∀ k v, (k, v) ∈ map.entries → ops.equals k a = ops.equals k b) :
    find ops map a = find ops map b := by
  unfold find
  rw [hhash]
  congr 1
  funext h
  cases hflag : (map.item (position map.shift h)).flag with
  | free => simp only [hflag]
  | node => simp only [hflag]
  | slot =>
      obtain ⟨cells, hchain, hused⟩ := hsound _ hflag
      simp only [search_congr hchain fun c hc =>
        hkeys _ _ (mem_entries.2 ⟨c, hused c hc, rfl, rfl⟩)]

end Hmap

theorem isNil_eq_of_type (htype : a.type = b.type) : a.isNil = b.isNil := by
  cases a <;> cases b <;> first
    | rfl
    | cases htype

/-- A map whose keys tell two equal values not apart holds the same under both. -/
theorem get_eq_of_equals {depth : Nat} (hequals : (valueOps heap depth).equals a b = .ok true)
    (horder : SameOrder heap depth a b) {map : Hmap} (hsound : map.Sound)
    (hkeys : ∀ k v, (k, v) ∈ map.entries →
      (valueOps heap depth).equals k a = (valueOps heap depth).equals k b) :
    Hmap.get (valueOps heap depth) map b = Hmap.get (valueOps heap depth) map a := by
  have hhash := hash_eq_of_equals hequals horder
  have htype : a.type = b.type := by
    cases depth with
    | zero => cases hequals
    | succ depth => exact type_eq_of_equals hequals
  unfold Hmap.get
  rw [isNil_eq_of_type htype, Hmap.find_congr hsound hhash hkeys]

/-- Two equal values whose containers keep one order have one hash, and a map
whose keys tell them not apart holds the same under both. -/
theorem hash_and_lookup_agree (heap : Heap) (depth : Nat) (a b : Variable)
    (hequals : (valueOps heap depth).equals a b = .ok true) (horder : SameOrder heap depth a b) :
    (valueOps heap depth).hash a = (valueOps heap depth).hash b ∧
      ∀ map : Hmap, map.Sound → (∀ k v, (k, v) ∈ map.entries →
        (valueOps heap depth).equals k a = (valueOps heap depth).equals k b) →
          Hmap.get (valueOps heap depth) map b = Hmap.get (valueOps heap depth) map a :=
  ⟨hash_eq_of_equals hequals horder, fun _ hsound => get_eq_of_equals hequals horder hsound⟩

/-- Puts under lawful keys only make such maps. -/
theorem get_eq_of_reached {depth resizes : Nat} {IsKey : Variable → Prop}
    {hashOf : Variable → BitVec 64} (hlaw : Hmap.LawfulKeys (valueOps heap depth) IsKey hashOf)
    {map : Hmap} (hreached : Hmap.Reached (valueOps heap depth) IsKey (resizes + 1) map)
    (hequals : (valueOps heap depth).equals a b = .ok true) (horder : SameOrder heap depth a b)
    (hkeys : ∀ k v, (k, v) ∈ map.entries →
      (valueOps heap depth).equals k a = (valueOps heap depth).equals k b) :
    Hmap.get (valueOps heap depth) map b = Hmap.get (valueOps heap depth) map a :=
  get_eq_of_equals hequals horder (hreached.ok hlaw).1.linked.sound hkeys

end

/-- A map created by `{}` and filled by the puts. -/
def filled (log : List (Variable × Variable)) : Hmap :=
  ((Hmap.putAll (valueOps Heap.empty 1) 1 (Hmap.zalloc 5) log).toOption).getD (Hmap.zalloc 5)

/-- Two keys of slot 1. -/
def colliding : List (Variable × Variable) := [(.int 1, .int 10), (.int 2, .int 20)]

/-- Two maps filled in one order, and one filled in the other. -/
def threeMaps : Heap :=
  (((Heap.empty.alloc (.hmap (filled colliding))).1.alloc (.hmap (filled colliding))).1.alloc
    (.hmap (filled colliding.reverse))).1

theorem filled_entries : (filled colliding).entries = [(.int 2, .int 20), (.int 1, .int 10)] := by
  decide +kernel

example : (filled colliding.reverse).entries = [(.int 1, .int 10), (.int 2, .int 20)] := by
  decide +kernel

/-- A map with 7 under the first of them. -/
def keyed : Hmap :=
  ((Hmap.putStore (valueOps threeMaps 2) 1 (Hmap.zalloc 5) (.hmap 0) (.int 7)).toOption).getD
    (Hmap.zalloc 5)

theorem keyed_sound : keyed.Sound := by
  intro p hp
  have hnext : (keyed.item p).next = none := by
    have hall : ∀ i : Fin (2 ^ 5), (keyed.item i).next = none := by decide +kernel
    exact hall p
  refine ⟨[p], ⟨rfl, hnext⟩, fun i hi => ?_⟩
  rw [List.mem_singleton.1 hi, hp]
  nofun

theorem hash_and_lookup_agree_maps :
    (valueOps threeMaps 2).equals (.hmap 0) (.hmap 1) = .ok true ∧
      SameOrder threeMaps 2 (.hmap 0) (.hmap 1) ∧
      (valueOps threeMaps 2).hash (.hmap 0) = (valueOps threeMaps 2).hash (.hmap 1) ∧
      Hmap.get (valueOps threeMaps 2) keyed (.hmap 1) = .ok (.int 7) := by
  have hequals : (valueOps threeMaps 2).equals (.hmap 0) (.hmap 1) = .ok true := by
    decide +kernel
  have horder : SameOrder threeMaps 2 (.hmap 0) (.hmap 1) := by
    intro _ map rhs hmap hrhs
    obtain rfl : filled colliding = map := Except.ok.inj hmap
    obtain rfl : filled colliding = rhs := Except.ok.inj hrhs
    rw [filled_entries]
    exact .cons ⟨⟨rfl, trivial⟩, rfl, trivial⟩ (.cons ⟨⟨rfl, trivial⟩, rfl, trivial⟩ .nil)
  obtain ⟨hhash, hlookup⟩ := hash_and_lookup_agree threeMaps 2 _ _ hequals horder
  refine ⟨hequals, horder, hhash, ?_⟩
  have hentries : keyed.entries = [(.hmap 0, .int 7)] := by decide +kernel
  rw [hlookup keyed keyed_sound]
  · decide +kernel
  · intro k v hmem
    rw [hentries] at hmem
    cases List.mem_singleton.1 hmem
    rw [hequals]
    rfl

/-- The same two pairs put in the two orders: the maps are equal, their hashes
differ, and what is stored under one is not found with the other. -/
theorem equal_maps_hash_apart :
    (Hmap.putAll (valueOps Heap.empty 1) 1 (Hmap.zalloc 5) colliding).toOption.isSome ∧
      (Hmap.putAll (valueOps Heap.empty 1) 1 (Hmap.zalloc 5) colliding.reverse).toOption.isSome ∧
      ((valueOps threeMaps 2).equals (.hmap 0) (.hmap 2)).toOption = some true ∧
      ((valueOps threeMaps 2).hash (.hmap 0)).toOption ≠
        ((valueOps threeMaps 2).hash (.hmap 2)).toOption ∧
      (Hmap.putStore (valueOps threeMaps 2) 1 (Hmap.zalloc 5) (.hmap 0) (.int 7)).toOption.isSome ∧
      (Hmap.get (valueOps threeMaps 2) keyed (.hmap 0)).toOption = some (.int 7) ∧
      (Hmap.get (valueOps threeMaps 2) keyed (.hmap 2)).toOption = some .nil := by
  decide +kernel

end Ymd
