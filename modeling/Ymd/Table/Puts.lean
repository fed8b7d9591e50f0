import Ymd.Foundation.Outcome
import Ymd.Table.HashMapRefinement
import Ymd.Table.SkipListRefinement

/-! # Puts under any key

`hmap_put` and `skls_put` compare the keys they have with the key that is put. The
hash map does what it would do with identical keys for the key that the comparison
finds, its twin, or for the key itself; only in the end the key is written over the
twin.
-/

namespace Ymd

open Foundation

namespace Hmap

section

variable {hashOf : Variable → BitVec 64} {map : Hmap} {key twin : Variable}

/-- The map has an entry with the key. -/
def HasKey (map : Hmap) (k : Variable) : Prop :=
  ∃ i, (map.item i).flag ≠ .free ∧ (map.item i).k = k

/-- A map as the operations leave it, and a key: the keys of the map are told
apart, and the key is told apart from all of them but its twin. -/
structure Admits (ops : KeyOps) (hashOf : Variable → BitVec 64) (map : Hmap)
    (key twin : Variable) : Prop where
  wf : Wf map.HasKey hashOf map
  notNil : ∀ {k}, map.HasKey k ∨ k = key → k.isNil = false
  hash : ∀ {k}, map.HasKey k ∨ k = key → ops.hash k = pure (hashOf k)
  equals : ∀ {a b}, map.HasKey a → map.HasKey b → ops.equals a b = pure (decide (a = b))
  found : ∀ {a}, map.HasKey a → ops.equals a key = pure (decide (a = twin))
  meets : ∀ {a}, map.HasKey a → ops.equals key a = pure (decide (a = twin))
  self : ops.equals key key = pure true
  twin_cases : twin = key ∨ map.HasKey twin
  hash_twin : hashOf twin = hashOf key

/-- Comparisons that tell all keys apart. -/
def exactOps (hashOf : Variable → BitVec 64) : KeyOps where
  hash := fun k => pure (hashOf k)
  equals := fun a b => pure (decide (a = b))
  compare := fun _ _ => pure 0

theorem lawfulKeys_exact {IsKey : Variable → Prop} (hnil : ∀ {k}, IsKey k → k.isNil = false) :
    LawfulKeys (exactOps hashOf) IsKey hashOf where
  notNil := hnil
  hash := fun _ => rfl
  equals := fun _ _ => rfl

variable {ops : KeyOps} {IsKey : Variable → Prop} {shift : Nat}

/-- How the comparisons see a key: as they see its twin if all keys are told
apart. -/
structure SeenAs (ops : KeyOps) (IsKey : Variable → Prop) (hashOf : Variable → BitVec 64)
    (key twin : Variable) : Prop where
  hash : ∀ {k}, IsKey k → ops.hash k = pure (hashOf k)
  hash_key : ops.hash key = pure (hashOf twin)
  found : ∀ {a}, IsKey a → ops.equals a key = pure (decide (a = twin))

theorem search_seenAs (hseen : SeenAs ops IsKey hashOf key twin) {item : Items shift}
    (hlinked : Linked IsKey hashOf item) {cells : List (Fin (2 ^ shift))}
    {start : Fin (2 ^ shift)} (hchain : Chain (nextOf item) (some start) cells)
    (hused : ∀ c ∈ cells, (item c).flag ≠ .free) (h : BitVec 64) (fuel : Nat) :
    search ops item key h fuel start = search (exactOps hashOf) item twin h fuel start := by
  induction cells generalizing start fuel with
  | nil => exact nomatch hchain
  | cons cell cells ih =>
      obtain ⟨hstart, hrest⟩ := hchain
      obtain rfl := Option.some.inj hstart
      change Chain (nextOf item) (item start).next cells at hrest
      have hkey := hlinked.key start (hused start List.mem_cons_self)
      have hhits : hits ops (item start) key h = hits (exactOps hashOf) (item start) twin h := by
        unfold hits
        rw [hseen.found hkey]
        rfl
      cases fuel with
      | zero => rfl
      | succ fuel =>
          simp only [search, hhits]
          cases hnext : (item start).next with
          | none => rfl
          | some next =>
              rw [hnext] at hrest
              have htail := ih hrest (fun c hc => hused c (List.mem_cons_of_mem _ hc)) fuel
              simp only [htail]

/-- `hindex`, but for what it does to a full table. -/
theorem indexWith_seenAs (hseen : SeenAs ops IsKey hashOf key twin)
    (hwf : Wf IsKey hashOf map) {grow grow' : Grow}
    (hgrow : map.allocFree = none → grow map key = grow' map twin) :
    indexWith ops grow map key = indexWith (exactOps hashOf) grow' map twin := by
  have hhash : (exactOps hashOf).hash twin = pure (hashOf twin) := rfl
  simp only [indexWith, hseen.hash_key, hhash, pure_bind]
  cases hflag : (map.item (position map.shift (hashOf twin))).flag with
  | free => rfl
  | slot =>
      obtain ⟨cells, hchain, hmem⟩ := hwf.linked.heads _ hflag
      have hsearch := search_seenAs hseen hwf.linked hchain (fun c hc => ((hmem c).1 hc).1)
        (hashOf twin) (2 ^ map.shift)
      simp only [indexIfHead, hsearch]
      cases hfree : map.allocFree with
      | none => simp only [hgrow hfree]
      | some fnd => rfl
  | node =>
      have hkey := hwf.linked.key (position map.shift (hashOf twin)) (by rw [hflag]; decide)
      have hslot : (exactOps hashOf).hash (map.item (position map.shift (hashOf twin))).k =
          pure (hashOf (map.item (position map.shift (hashOf twin))).k) := rfl
      simp only [indexIfNode, hseen.hash hkey, hslot]
      cases hfree : map.allocFree with
      | none => exact hgrow hfree
      | some fnd => rfl

theorem SeenAs.of_lawful (hlaw : LawfulKeys ops IsKey hashOf) (hkey : IsKey key) :
    SeenAs ops IsKey hashOf key key where
  hash := fun hk => hlaw.hash hk
  hash_key := hlaw.hash hkey
  found := fun ha => hlaw.equals ha hkey

theorem rehash_exact (hlaw : LawfulKeys ops IsKey hashOf) (hshift : 0 < shift)
    {bak : Items shift} (hbak : Linked IsKey hashOf bak) {done rest : List (Fin (2 ^ shift))}
    (hnodup : (done ++ rest).Nodup) (hloaded : Loaded IsKey hashOf bak done map)
    (grow grow' : Grow) :
    rehash ops grow bak rest map = rehash (exactOps hashOf) grow' bak rest map := by
  induction rest generalizing done map with
  | nil => rfl
  | cons i rest ih =>
      have hsplit : done ++ i :: rest = (done ++ [i]) ++ rest := by simp
      rw [hsplit] at hnodup
      by_cases hfree : (bak i).flag = .free
      · rw [rehash, if_pos hfree, rehash, if_pos hfree]
        exact ih hnodup (hloaded.skip hfree)
      · have hdone : done.Nodup := (List.nodup_append.mp (List.nodup_append.mp hnodup).1).1
        obtain ⟨fnd, hfnd⟩ := hloaded.exists_free hshift hdone
        have hkey := hbak.key i hfree
        obtain ⟨e, hput, hstored, heshift, hcount⟩ :=
          putWith_of_free hlaw hloaded.wf hkey hfnd (bak i).v
        have hindex : indexWith ops grow map (bak i).k =
            indexWith (exactOps hashOf) grow' map (bak i).k := by
          apply indexWith_seenAs (SeenAs.of_lawful hlaw hkey) hloaded.wf
          intro hnone
          rw [hfnd] at hnone
          cases hnone
        have hexact : putWith (exactOps hashOf) grow' map (bak i).k = pure e := by
          rw [← hput grow, putWith, putWith, hindex]
        rw [rehash, if_neg hfree, rehash, if_neg hfree, hput grow, hexact, pure_bind, pure_bind]
        exact ih hnodup (hloaded.put hbak hfree hstored heshift hcount)

theorem resizeWith_exact (hlaw : LawfulKeys ops IsKey hashOf) (hwf : Wf IsKey hashOf map)
    (grow grow' : Grow) : resizeWith ops grow map (map.shift + 1) =
      resizeWith (exactOps hashOf) grow' map (map.shift + 1) := by
  have hstart : Loaded IsKey hashOf map.item [] (zalloc (map.shift + 1)) := by
    refine ⟨Wf.zalloc (Nat.succ_pos _), rfl, by rw [used_zalloc]; exact Nat.zero_le _, ?_⟩
    intro k v
    simp [Holds, zalloc, Kvi.zero]
  have hnodup : ([] ++ List.finRange (2 ^ map.shift)).Nodup := List.nodup_finRange _
  have hrehash := rehash_exact hlaw hwf.shift_pos hwf.linked hnodup hstart grow grow'
  have hpos := hwf.shift_pos
  simp only [resizeWith, Nat.lt_succ_self, if_true, if_neg hpos.ne', hrehash]

/-- `hindex` finds or makes the entry of the twin. -/
theorem Admits.index_eq (hadmits : Admits ops hashOf map key twin) (depth : Nat) :
    index ops (depth + 1) map key = index (exactOps hashOf) (depth + 1) map twin := by
  have hlaw : LawfulKeys ops map.HasKey hashOf :=
    ⟨fun hk => hadmits.notNil (.inl hk), fun hk => hadmits.hash (.inl hk), hadmits.equals⟩
  have hseen : SeenAs ops map.HasKey hashOf key twin := by
    refine ⟨fun hk => hadmits.hash (.inl hk), ?_, hadmits.found⟩
    rw [hadmits.hash (.inr rfl), hadmits.hash_twin]
  apply indexWith_seenAs hseen hadmits.wf
  intro _
  obtain ⟨grown, hresize, hgrown, ⟨fnd, hfnd⟩, -⟩ := resizeWith_spec hlaw hadmits.wf
  have hexact := resizeWith_exact hlaw hadmits.wf (grow ops depth) (grow (exactOps hashOf) depth)
  rw [hresize] at hexact
  simp only [grow, hresize, ← hexact, pure_bind]
  apply indexWith_seenAs hseen hgrown
  intro hnone
  rw [hfnd] at hnone
  cases hnone

/-- The entry of a key that is there. -/
theorem index_present (hlaw : LawfulKeys ops IsKey hashOf) (hwf : Wf IsKey hashOf map)
    (hkey : IsKey key) (hpresent : map.HasKey key) (grow : Grow) :
    ∃ j, indexWith ops grow map key = pure ⟨map, j⟩ ∧ (map.item j).flag ≠ .free ∧
      (map.item j).k = key := by
  obtain ⟨i, hi, hik⟩ := hpresent
  have hflag := hwf.linked.homed i hi
  rw [home, hik] at hflag
  obtain ⟨cells, hchain, hmem⟩ := hwf.linked.heads _ hflag
  have hsearch := search_cases hlaw hwf.linked hkey hchain (Linked.length_le hchain)
    (fun c hc => ((hmem c).mp hc).1)
  obtain ⟨j, hj, hjk, hsearch⟩ | ⟨hnot, -⟩ := hsearch
  · refine ⟨j, ?_, ((hmem j).1 hj).1, hjk⟩
    simp only [indexWith, hlaw.hash hkey, pure_bind, hflag, indexIfHead, hsearch, if_true]
  · exact absurd hik (Linked.absent_of_chain hmem hnot i hi)

/-! ## The key in the place of its twin -/

theorem Linked.rekey {item : Items shift} (hlinked : Linked IsKey hashOf item)
    {slot : Fin (2 ^ shift)} (hused : (item slot).flag ≠ .free)
    (hhash : hashOf (item slot).k = hashOf key)
    (hnew : (item slot).k = key ∨ Absent item key) :
    Linked (fun k => IsKey k ∨ k = key) hashOf
      (Function.update item slot { item slot with k := key }) := by
  have hnext : nextOf (Function.update item slot { item slot with k := key }) = nextOf item := by
    funext i
    by_cases hi : i = slot <;> simp [nextOf, hi]
  have hflag : ∀ i, (Function.update item slot { item slot with k := key } i).flag
      = (item i).flag := by
    intro i
    by_cases hi : i = slot <;> simp [hi]
  have hash : ∀ i, (Function.update item slot { item slot with k := key } i).hash
      = (item i).hash := by
    intro i
    by_cases hi : i = slot <;> simp [hi]
  have hhashOf : ∀ i, hashOf (Function.update item slot { item slot with k := key } i).k
      = hashOf (item i).k := by
    intro i
    by_cases hi : i = slot <;> simp [hi, hhash]
  have hhome : home hashOf (Function.update item slot { item slot with k := key })
      = home hashOf item := by
    funext i
    simp only [home, hhashOf]
  -- the links stay: only the key of one slot changes, and it has the same hash
  refine ⟨?_, ?_, ?_, ?_, ?_, ?_⟩
  · intro i hi
    rw [hflag] at hi
    have hne : i ≠ slot := by
      rintro rfl
      exact hused hi
    rw [Function.update_of_ne hne]
    exact hlinked.blank i hi
  · intro i hi
    rw [hflag] at hi
    by_cases his : i = slot
    · exact .inr (by simp [his])
    · rw [Function.update_of_ne his]
      exact .inl (hlinked.key i hi)
  · simpa only [hflag, hash, hhashOf] using hlinked.hash
  · -- no other slot has the key
    have hother : ∀ i, i ≠ slot → (item i).flag ≠ .free → (item i).k ≠ key := by
      intro i his hi hik
      rcases hnew with hslot | habsent
      · exact his (hlinked.inj i slot hi hused (hik.trans hslot.symm))
      · exact habsent i hi hik
    intro i j hi hj hij
    rw [hflag] at hi hj
    by_cases his : i = slot
    · by_cases hjs : j = slot
      · rw [his, hjs]
      · rw [his, Function.update_self, Function.update_of_ne hjs] at hij
        exact absurd hij.symm (hother j hjs hj)
    · by_cases hjs : j = slot
      · rw [hjs, Function.update_self, Function.update_of_ne his] at hij
        exact absurd hij (hother i his hi)
      · rw [Function.update_of_ne his, Function.update_of_ne hjs] at hij
        exact hlinked.inj i j hi hj hij
  · simpa only [hflag, hhome] using hlinked.homed
  · simpa only [hflag, hhome, hnext] using hlinked.heads

theorem Linked.holds_rekey {item : Items shift} (hlinked : Linked IsKey hashOf item)
    {slot : Fin (2 ^ shift)} (hused : (item slot).flag ≠ .free)
    (hnew : (item slot).k = key ∨ Absent item key) (k v : Variable) :
    Holds (Function.update item slot { item slot with k := key }) k v ↔
      if k = key then v = (item slot).v else k ≠ (item slot).k ∧ Holds item k v := by
  have hother : ∀ i, i ≠ slot →
      Function.update item slot { item slot with k := key } i = item i := fun i hi => by simp [hi]
  by_cases hk : k = key
  · rw [if_pos hk]
    constructor
    · rintro ⟨i, hi, hik, hiv⟩
      by_cases his : i = slot
      · simpa [his] using hiv.symm
      · rw [hother i his] at hi hik
        rcases hnew with hslot | habsent
        · exact absurd (hlinked.inj i slot hi hused (hik.trans (hk.trans hslot.symm))) his
        · exact absurd (hik.trans hk) (habsent i hi)
    · rintro rfl
      exact ⟨slot, by simpa using hused, by simp [hk], by simp⟩
  · rw [if_neg hk]
    constructor
    · rintro ⟨i, hi, hik, hiv⟩
      have his : i ≠ slot := by
        rintro rfl
        exact hk (by simpa using hik.symm)
      rw [hother i his] at hi hik hiv
      refine ⟨fun hks => his ?_, i, hi, hik, hiv⟩
      exact hlinked.inj i slot hi hused (hik.trans hks)
    · rintro ⟨hks, i, hi, hik, hiv⟩
      have his : i ≠ slot := by
        rintro rfl
        exact hks hik.symm
      exact ⟨i, by rwa [hother i his], by rwa [hother i his], by rwa [hother i his]⟩

theorem Wf.restrict {IsKey' : Variable → Prop} (hwf : Wf IsKey hashOf map)
    (hkeys : ∀ k, map.HasKey k → IsKey' k) : Wf IsKey' hashOf map where
  shift_pos := hwf.shift_pos
  free_last := hwf.free_last
  linked := { hwf.linked with key := fun i hi => hkeys _ ⟨i, hi, rfl⟩ }

theorem hasKey_iff {k : Variable} : map.HasKey k ↔ ∃ v, Holds map.item k v := by
  constructor
  · rintro ⟨i, hi, hik⟩
    exact ⟨_, i, hi, hik, rfl⟩
  · rintro ⟨v, i, hi, hik, -⟩
    exact ⟨i, hi, hik⟩

/-- What a put achieves: the entry of the twin, or a new one, is the key's. -/
structure PutAt (hashOf : Variable → BitVec 64) (map : Hmap) (key twin : Variable) (e : Entry) :
    Prop where
  inUse : (e.map.item e.slot).flag ≠ .free
  key_eq : e.key = key
  wf : Wf e.map.HasKey hashOf e.map
  holds : ∀ k v, Holds e.map.item k v ↔
    if k = key then v = e.value else k ≠ twin ∧ Holds map.item k v
  present : map.HasKey key → e.map = map

theorem Admits.twin_eq (hadmits : Admits ops hashOf map key twin) (hkey : map.HasKey key) :
    twin = key := by
  have hsame := (hadmits.found hkey).symm.trans hadmits.self
  have hdecide : decide (key = twin) = true := Except.ok.inj hsame
  exact (of_decide_eq_true hdecide).symm

theorem Admits.put_spec (hadmits : Admits ops hashOf map key twin) (depth : Nat) :
    ∃ e, put ops (depth + 1) map key = pure e ∧ PutAt hashOf map key twin e := by
  have hnil : ∀ {k}, map.HasKey k ∨ k = twin → k.isNil = false := by
    rintro k (hk | rfl)
    · exact hadmits.notNil (.inl hk)
    · exact hadmits.notNil (hadmits.twin_cases.symm.imp id id)
  have hexact : LawfulKeys (exactOps hashOf) (fun k => map.HasKey k ∨ k = twin) hashOf :=
    lawfulKeys_exact hnil
  have hwf : Wf (fun k => map.HasKey k ∨ k = twin) hashOf map :=
    hadmits.wf.restrict fun _ => .inl
  obtain ⟨e, hindex, hindexed⟩ := index_spec hexact hwf (.inr rfl)
  have hput : put ops (depth + 1) map key = pure (e.setKey key) := by
    have hindex' : indexWith ops (grow ops (depth + 1)) map key = pure e :=
      (hadmits.index_eq depth).trans (hindex depth)
    simp [put, putWith, hadmits.notNil (.inr rfl), hindex']
  have hslot : ((e.setKey twin).map.item e.slot).k = twin := by simp [Entry.setKey]
  -- the put under `twin`, with the key of its slot exchanged
  have hrekey : (e.setKey key).map = { (e.setKey twin).map with
      item := Function.update (e.setKey twin).map.item e.slot
        { (e.setKey twin).map.item e.slot with k := key } } := by
    simp only [Entry.setKey, Function.update_self]
    congr 1
    exact (Function.update_idem _ _ _).symm
  have hnew : ((e.setKey twin).map.item e.slot).k = key ∨ Absent (e.setKey twin).map.item key := by
    rw [hslot]
    by_cases heq : twin = key
    · exact .inl heq
    refine .inr fun i hi hik => heq ?_
    have hholds := (hindexed.others key _ (Ne.symm heq)).1 ⟨i, hi, hik, rfl⟩
    exact hadmits.twin_eq (hasKey_iff.2 ⟨_, hholds⟩)
  have hlinked := hindexed.wf.linked
  have hhash : hashOf ((e.setKey twin).map.item e.slot).k = hashOf key := by
    rw [hslot, hadmits.hash_twin]
  have hvalue : (e.setKey key).value = ((e.setKey twin).map.item e.slot).v := by
    simp [Entry.value, Entry.setKey]
  refine ⟨e.setKey key, hput, ?_, ?_, ?_, fun k v => ?_, fun hpresent => ?_⟩
  · have hused := hindexed.inUse
    simpa [Entry.setKey] using hused
  · simp [Entry.key, Entry.setKey]
  · rw [hrekey]
    exact Wf.restrict ⟨hindexed.wf.shift_pos, hindexed.wf.free_last,
      hlinked.rekey hindexed.inUse hhash hnew⟩ fun _ hk => hk
  · rw [hvalue, hrekey]
    refine (hlinked.holds_rekey hindexed.inUse hnew k v).trans ?_
    rw [hslot]
    by_cases hk : k = key
    · rw [if_pos hk, if_pos hk]
    · rw [if_neg hk, if_neg hk]
      exact and_congr_right fun hne => hindexed.others k v hne
  · obtain rfl := hadmits.twin_eq hpresent
    obtain ⟨j, hj, -, hjk⟩ := index_present hexact hwf (.inr rfl) hpresent (grow (exactOps hashOf) 1)
    have hsame : e = ⟨map, j⟩ := Except.ok.inj ((hindex 0).symm.trans hj)
    rw [hsame]
    exact setKey_of_mem hjk

/-! ## The store behind a put -/

variable {e : Entry}

theorem PutAt.holds_store (hput : PutAt hashOf map key twin e) (v k w : Variable) :
    Holds (e.store v).item k w ↔ if k = key then w = v else k ≠ twin ∧ Holds map.item k w := by
  refine (hput.wf.linked.holds_store hput.inUse v k w).trans ?_
  have hkey : (e.map.item e.slot).k = key := hput.key_eq
  rw [hkey]
  by_cases hk : k = key
  · rw [if_pos hk, if_pos hk]
  · rw [if_neg hk, if_neg hk, hput.holds, if_neg hk]

theorem PutAt.wf_store (hput : PutAt hashOf map key twin e) (v : Variable) :
    Wf (e.store v).HasKey hashOf (e.store v) :=
  Wf.restrict ⟨hput.wf.shift_pos, hput.wf.free_last, hput.wf.linked.store hput.inUse⟩
    fun _ hk => hk

/-- The keys of the map behind the store. -/
theorem PutAt.hasKey_store (hput : PutAt hashOf map key twin e) {v k : Variable}
    (hk : (e.store v).HasKey k) : k = key ∨ k ≠ key ∧ k ≠ twin ∧ map.HasKey k := by
  obtain ⟨w, hw⟩ := hasKey_iff.1 hk
  rw [hput.holds_store] at hw
  by_cases heq : k = key
  · exact .inl heq
  · rw [if_neg heq] at hw
    exact .inr ⟨heq, hw.1, hasKey_iff.2 ⟨w, hw.2⟩⟩

/-- Behind the store the keys are told apart again. -/
theorem Admits.lawful_store (hadmits : Admits ops hashOf map key twin)
    (hput : PutAt hashOf map key twin e) (v : Variable) :
    LawfulKeys ops (e.store v).HasKey hashOf := by
  have hkeys : ∀ {k}, (e.store v).HasKey k → map.HasKey k ∨ k = key := fun hk =>
    (hput.hasKey_store hk).symm.imp_left fun h => h.2.2
  refine ⟨fun hk => hadmits.notNil (hkeys hk), fun hk => hadmits.hash (hkeys hk), ?_⟩
  intro a b ha hb
  obtain rfl | ⟨hane, hatwin, ha⟩ := hput.hasKey_store ha
  · obtain rfl | ⟨hbne, hbtwin, hb⟩ := hput.hasKey_store hb
    · rw [hadmits.self, decide_eq_true rfl]
    · rw [hadmits.meets hb, decide_eq_false hbtwin, decide_eq_false (Ne.symm hbne)]
  · obtain rfl | ⟨hbne, hbtwin, hb⟩ := hput.hasKey_store hb
    · rw [hadmits.found ha, decide_eq_false hatwin, decide_eq_false hane]
    · exact hadmits.equals ha hb

/-- Behind the store every entry is read back, by operations that see the keys in the
same way. -/
theorem Admits.get_store (hadmits : Admits ops hashOf map key twin)
    (hput : PutAt hashOf map key twin e) {v k w : Variable}
    (hold : Holds (e.store v).item k w) : get ops (e.store v) k = pure w := by
  have hlaw := hadmits.lawful_store hput v
  have hwf := hput.wf_store v
  have hk : (e.store v).HasKey k := hasKey_iff.2 ⟨w, hold⟩
  have hget : get ops (e.store v) k = find ops (e.store v) k := by
    simp [get, hlaw.notNil hk]
  obtain ⟨i, hi, hik, hiw⟩ := hold
  obtain ⟨w', ⟨j, hj, hjk, hjw⟩, hfind⟩ | ⟨habsent, -⟩ := find_spec hlaw hwf hk
  · obtain rfl := hwf.linked.inj i j hi hj (hik.trans hjk.symm)
    rw [hget, hfind, ← hjw, hiw]
  · exact absurd hik (habsent i hi)

end

end Hmap

namespace Skls

variable {α : Type*} [LinearOrder α] {ops : KeyOps} {IsKey : Variable → Prop}
  {rank : Variable → α} {list : Skls} {log : List (Variable × Variable)} {cells : List Nat}
  {key : Variable} {lvl : Nat}

/-- The node of a key that is there. -/
theorem put_present (hlaw : OrderedKeys ops IsKey rank)
    (hrep : Represents IsKey rank list log cells) (hkey : IsKey key) {c : Nat} (hc : c ∈ cells)
    (hck : (list.node c).k = key) : put ops list key lvl = pure ⟨list, c⟩ := by
  obtain ⟨lower, upper, rfl, hsplit⟩ := exists_split key hrep.sorted
  have hparts := List.pairwise_append.mp hrep.sorted
  obtain ⟨update, hdescend, -⟩ :=
    descend_head hlaw hkey hrep.linked hrep.size_pos hrep.keys hsplit
  have hlower : c ∉ lower := by
    intro hin
    have hlt := hsplit.lower c hin
    rw [hck] at hlt
    exact lt_irrefl _ hlt
  have hupper := (List.mem_append.1 hc).resolve_left hlower
  obtain ⟨x, rest, rfl, -, hhit⟩ | ⟨habove, -⟩ := hit_cases hlaw hkey
    (fun c hc => hrep.keys c (List.mem_append_right _ hc)) hparts.2.1 hsplit.upper
  · obtain rfl : c = x := by
      obtain hcx | hrest := List.mem_cons.1 hupper
      · exact hcx
      · have hlt := (List.pairwise_cons.1 hparts.2.1).1 c hrest
        rw [hck] at hlt
        exact absurd hlt (hsplit.upper x List.mem_cons_self)
    have hindex : index ops list key lvl = pure ⟨list, c⟩ := by
      simp only [index, hdescend, pure_bind, fwdAt_pred hrep.linked, hhit]
    have hsame : Function.update list.node c { list.node c with k := key } = list.node := by
      rw [← hck]
      exact Function.update_eq_self c list.node
    simp only [put, hlaw.notNil hkey, Bool.false_eq_true, if_false, hindex, pure_bind, hsame]
  · have hlt := habove c hupper
    rw [hck] at hlt
    exact absurd hlt (lt_irrefl _)

/-- What a put achieves: whatever is stored behind it, the list holds it under the
key. -/
structure PutAt (IsKey : Variable → Prop) (rank : Variable → α) (list : Skls)
    (log : List (Variable × Variable)) (cells : List Nat) (key : Variable) (e : SkEntry) :
    Prop where
  stored : ∀ v, ∃ cells', Represents IsKey rank (store e v) (log ++ [(key, v)]) cells'
  present : ∀ c ∈ cells, (list.node c).k = key → e.list = list

theorem Represents.put_spec (hlaw : OrderedKeys ops IsKey rank)
    (hrep : Represents IsKey rank list log cells) (hkey : IsKey key) (hpos : 1 ≤ lvl)
    (hlvl : lvl ≤ maxLevel) :
    ∃ e, put ops list key lvl = pure e ∧ PutAt IsKey rank list log cells key e := by
  have hstore : ∀ v, ∃ e cells', put ops list key lvl = pure e ∧
      Represents IsKey rank (store e v) (log ++ [(key, v)]) cells' := by
    intro v
    obtain ⟨list', cells', hrun, hrep'⟩ := hrep.putStore hlaw hkey v hpos hlvl
    obtain ⟨e, hput, hlist⟩ := except_bind_ok_iff.1 hrun
    cases hlist
    exact ⟨e, cells', hput, hrep'⟩
  obtain ⟨e, -, hput, -⟩ := hstore .nil
  refine ⟨e, hput, fun v => ?_, fun c hc hck => ?_⟩
  · obtain ⟨e', cells', hput', hrep'⟩ := hstore v
    obtain rfl : e = e' := Except.ok.inj (hput.symm.trans hput')
    exact ⟨cells', hrep'⟩
  · have hpresent : put ops list key lvl = pure ⟨list, c⟩ := put_present hlaw hrep hkey hc hck
    obtain rfl : e = ⟨list, c⟩ := Except.ok.inj (hput.symm.trans hpresent)
    rfl

/-- The pointer of a put is to the value that is there. -/
theorem store_value (e : SkEntry) : store e (e.list.node e.node).v = e.list := by
  rw [store, Function.update_eq_self]

/-- Every entry is read back. -/
theorem Represents.get_mem (hlaw : OrderedKeys ops IsKey rank)
    (hrep : Represents IsKey rank list log cells) {k w : Variable}
    (hold : (k, w) ∈ cells.map list.entry) : get ops list k = pure w := by
  obtain ⟨c, hc, hentry⟩ := List.mem_map.1 hold
  obtain rfl : (list.node c).k = k := congrArg Prod.fst hentry
  rw [hrep.get_eq hlaw (hrep.keys c hc), ← lastStored_ranked_value, (hrep.entries.mem _).1 hold]
  rfl

/-- The entries behind a put and a store. -/
theorem Represents.mem_stored {list' : Skls} {cells' : List Nat} {v : Variable}
    (hrep : Represents IsKey rank list log cells)
    (hrep' : Represents IsKey rank list' (log ++ [(key, v)]) cells') (k w : Variable) :
    (k, w) ∈ cells'.map list'.entry ↔
      if rank k = rank key then k = key ∧ w = v else (k, w) ∈ cells.map list.entry := by
  rw [hrep'.entries.mem, lastStored_ranked_concat]
  by_cases hk : rank k = rank key
  · rw [if_pos hk, hk, Function.update_self, Option.some.injEq, Prod.mk.injEq, eq_comm (a := key),
      eq_comm (a := v)]
  · rw [if_neg hk, Function.update_of_ne hk, hrep.entries.mem]

end Skls

end Ymd
