import Ymd.Foundation.Outcome
import Ymd.Table.FiniteMap

/-! # The value of a new entry

`hmap_put` hands out a pointer to the value of the key's entry. For a new key it
is a fresh slot in all routes but one: where the home slot holds a node of
another chain, the node moves away and the slot keeps its value.
-/

namespace Ymd

open Foundation

/-- A free slot holds the value it was allocated with. -/
def Kvi.Blank {n : Nat} (i : Kvi n) : Prop := i.flag = .free → i.v = .nil

namespace Hmap

def Blank (map : Hmap) : Prop := ∀ i, (map.item i).Blank

/-- The home slot of the hash value holds no node of another chain, or one with
no value. -/
def Vacant (map : Hmap) (h : BitVec 64) : Prop :=
  (map.item (position map.shift h)).flag = .node → (map.item (position map.shift h)).v = .nil

end Hmap

/-- The same for every slot but the one that is pointed to. -/
def Entry.BlankApart (e : Entry) : Prop := ∀ i, i ≠ e.slot → (e.map.item i).Blank

namespace Hmap

section

variable {ops : KeyOps} {IsKey : Variable → Prop} {hashOf : Variable → BitVec 64} {grow : Grow}
  {map : Hmap} {key : Variable} {e : Entry}

theorem blank_zalloc (shift : Nat) : Blank (zalloc shift) := fun _ _ => rfl

/-- Only one slot is written, or nothing but the link of another one. -/
theorem blank_update {n : Nat} {item : Fin n → Kvi n} {i j : Fin n} {x : Kvi n}
    (hitem : (item i).Blank) (hx : i = j → x.Blank) : (Function.update item j x i).Blank := by
  by_cases hij : i = j
  · rw [hij, Function.update_self]
    exact hx hij
  · rw [Function.update_of_ne hij]
    exact hitem

/-! ## One `hindex` with a free slot -/

theorem indexWith_blank (hmap : Blank map)
    (hgrow : map.allocFree = none → ∀ e, grow map key = .ok e → e.BlankApart)
    (h : indexWith ops grow map key = .ok e) : e.BlankApart := by
  obtain ⟨hash, -, h⟩ := except_bind_ok_iff.1 h
  dsimp only at h
  split at h
  next =>
    cases h
    intro i hi
    exact blank_update (hmap i) fun heq => absurd heq hi
  next =>
    rw [indexIfHead, except_bind_ok_iff] at h
    obtain ⟨⟨pos, found⟩, -, h⟩ := h
    dsimp only at h
    split at h
    · cases h
      exact fun i _ => hmap i
    · cases hfree : map.allocFree with
      | none =>
          rw [hfree] at h
          exact hgrow hfree e h
      | some fnd =>
          rw [hfree] at h
          dsimp only at h
          split at h
          · cases h
          · cases h
            have hnode : ∀ {x : Kvi (2 ^ map.shift)} {i}, i ≠ fnd →
                (Function.update map.item fnd x i).Blank := fun {x i} hi =>
              blank_update (hmap i) fun heq => absurd heq hi
            intro i hi
            refine blank_update (hnode hi) fun heq => ?_
            rw [← heq]
            exact hnode hi
  next =>
    rw [indexIfNode] at h
    cases hfree : map.allocFree with
    | none =>
        rw [hfree] at h
        exact hgrow hfree e h
    | some fnd =>
        rw [hfree] at h
        obtain ⟨slotHash, -, h⟩ := except_bind_ok_iff.1 h
        obtain ⟨prev, -, h⟩ := except_bind_ok_iff.1 h
        cases h
        have hnode : ∀ i, (Function.update map.item fnd ⟨(map.item (position map.shift hash)).next,
            slotHash, (map.item (position map.shift hash)).k, (map.item (position map.shift hash)).v,
            .node⟩ i).Blank := fun i => blank_update (hmap i) fun _ hflag => by cases hflag
        intro i hi
        refine blank_update ?_ fun heq => absurd heq hi
        exact blank_update (hnode i) fun _ => hnode prev

theorem value_update (item : Items map.shift) (p : Fin (2 ^ map.shift)) (x : Kvi (2 ^ map.shift)) :
    Entry.value ⟨{ map with item := Function.update item p x }, p⟩ = x.v :=
  congrArg Kvi.v (Function.update_self p x item)

/-- What the pointer for a new key points to. -/
theorem indexWith_value (hlaw : LawfulKeys ops IsKey hashOf) (hwf : Wf IsKey hashOf map)
    (hkey : IsKey key) (habsent : Absent map.item key) (hmap : Blank map)
    {fnd : Fin (2 ^ map.shift)} (hfree : map.allocFree = some fnd)
    (h : indexWith ops grow map key = .ok e) : e.value = .nil ↔ Vacant map (hashOf key) := by
  have hfndFree : (map.item fnd).flag = .free := allocFrom_some hfree
  have hfndNil := hmap fnd hfndFree
  rw [indexWith, hlaw.hash hkey, pure_bind] at h
  dsimp only at h
  cases hflag : (map.item (position map.shift (hashOf key))).flag with
  | free =>
      rw [hflag] at h
      cases h
      have hself : (map.item (position map.shift (hashOf key))).v = .nil := hmap _ hflag
      rw [value_update]
      refine ⟨fun _ hnode => ?_, fun _ => hself⟩
      rw [hflag] at hnode
      cases hnode
  | slot =>
      rw [hflag] at h
      obtain ⟨cells, hchain, hmem⟩ := hwf.linked.heads _ hflag
      have hsearch := search_cases hlaw hwf.linked hkey hchain (Linked.length_le hchain)
        (fun c hc => ((hmem c).mp hc).1)
      obtain ⟨j, hj, hjk, -⟩ | ⟨-, before, pos, rfl, hsearch⟩ := hsearch
      · exact absurd hjk (habsent j ((hmem j).mp hj).1)
      · have hlast : (map.item pos).next = none := hchain.tail_of_append
        simp only [indexIfHead, hsearch, pure_bind, hfree, hlast, Bool.false_eq_true, if_false,
          Option.isSome_none] at h
        cases h
        -- the new cell was free, and linking it leaves its value
        have hself : ∀ x : Kvi (2 ^ map.shift), x.v = (map.item fnd).v → ∀ next,
            (Function.update (Function.update map.item fnd x) pos
              { Function.update map.item fnd x pos with next := next } fnd).v = .nil := by
          intro x hx next
          by_cases heq : fnd = pos
          · rw [← heq, Function.update_self, Function.update_self, hx, hfndNil]
          · rw [Function.update_of_ne heq, Function.update_self, hx, hfndNil]
        refine ⟨fun _ hnode => ?_, fun _ => hself { map.item fnd with
          hash := hashOf key
          flag := .node
          next := (map.item pos).next } rfl (some fnd)⟩
        rw [hflag] at hnode
        cases hnode
  | node =>
      rw [hflag] at h
      dsimp only at h
      rw [indexIfNode, hfree] at h
      obtain ⟨slotHash, -, h⟩ := except_bind_ok_iff.1 h
      obtain ⟨prev, -, h⟩ := except_bind_ok_iff.1 h
      cases h
      have hne : position map.shift (hashOf key) ≠ fnd := by
        intro heq
        rw [heq, hfndFree] at hflag
        cases hflag
      -- the moved node keeps its value in the slot that the new key gets
      have hlink : ∀ x : Kvi (2 ^ map.shift), ∀ i ≠ fnd, ∀ next,
          (Function.update (Function.update map.item fnd x) prev
            { Function.update map.item fnd x prev with next := next } i).v = (map.item i).v := by
        intro x i hi next
        by_cases heq : i = prev
        · rw [← heq, Function.update_self, Function.update_of_ne hi]
        · rw [Function.update_of_ne heq, Function.update_of_ne hi]
      rw [value_update]
      change (_ : Variable) = .nil ↔ _
      rw [hlink _ _ hne _]
      exact ⟨fun hvalue _ => hvalue, fun hvacant => hvacant hflag⟩

/-! ## Puts, stores and a growing table -/

theorem setKey_value (key : Variable) : (e.setKey key).value = e.value := by
  have hself := congrArg Kvi.v
    (Function.update_self e.slot { e.map.item e.slot with k := key } e.map.item)
  exact hself

theorem setKey_blank (hapart : e.BlankApart) (key : Variable) : (e.setKey key).BlankApart :=
  fun i hi => blank_update (hapart i hi) fun heq => absurd heq hi

theorem blank_of_inUse (hapart : e.BlankApart) (hused : (e.map.item e.slot).flag ≠ .free) :
    e.map.Blank := by
  intro i
  by_cases hi : i = e.slot
  · rw [hi]
    exact fun hflag => absurd hflag hused
  · exact hapart i hi

theorem store_blank (hapart : e.BlankApart) (hused : (e.map.item e.slot).flag ≠ .free)
    (v : Variable) : (e.store v).Blank := by
  intro i
  exact blank_update (blank_of_inUse hapart hused i) fun _ hflag => absurd hflag hused

theorem rehash_blank (hlaw : LawfulKeys ops IsKey hashOf) {shift : Nat} (hshift : 0 < shift)
    {bak : Items shift} (hbak : Linked IsKey hashOf bak) {done rest : List (Fin (2 ^ shift))}
    {map' : Hmap} (hnodup : (done ++ rest).Nodup) (hloaded : Loaded IsKey hashOf bak done map)
    (hmap : map.Blank) (h : rehash ops grow bak rest map = .ok map') : map'.Blank := by
  induction rest generalizing done map with
  | nil =>
      cases h
      exact hmap
  | cons i rest ih =>
      have hsplit : done ++ i :: rest = (done ++ [i]) ++ rest := by simp
      rw [hsplit] at hnodup
      rw [rehash] at h
      by_cases hfree : (bak i).flag = .free
      · rw [if_pos hfree] at h
        exact ih hnodup (hloaded.skip hfree) hmap h
      · have hdone : done.Nodup := (List.nodup_append.mp (List.nodup_append.mp hnodup).1).1
        have hkey := hbak.key i hfree
        obtain ⟨fnd, hfnd⟩ := hloaded.exists_free hshift hdone
        obtain ⟨e, hindex, hindexed, heshift, hcount⟩ :=
          indexWith_of_free hlaw hloaded.wf hkey hfnd
        have hput : putWith ops grow map (bak i).k = .ok (e.setKey (bak i).k) := by
          rw [putWith, hlaw.notNil hkey, hindex grow]
          rfl
        have hfull : ∀ grow : Grow, map.allocFree = none →
            ∀ e, grow map (bak i).k = .ok e → e.BlankApart := by
          intro grow hnone
          rw [hfnd] at hnone
          cases hnone
        have hapart := setKey_blank (indexWith_blank hmap (hfull grow) (hindex grow)) (bak i).k
        have hcount' : used ((e.setKey (bak i).k).store (bak i).v).item ≤ used map.item + 1 :=
          (used_store e.slot (bak i).v).trans_le hcount
        rw [if_neg hfree, hput] at h
        exact ih hnodup (hloaded.put hbak hfree (hindexed.stored _) heshift hcount')
          (store_blank hapart hindexed.inUse _) h

/-- A table that grows takes nothing but its entries with it. -/
theorem resizeWith_blank (hlaw : LawfulKeys ops IsKey hashOf) (hwf : Wf IsKey hashOf map)
    {map' : Hmap} (h : resizeWith ops grow map (map.shift + 1) = .ok map') : map'.Blank := by
  have hstart : Loaded IsKey hashOf map.item [] (zalloc (map.shift + 1)) := by
    refine ⟨Wf.zalloc (Nat.succ_pos _), rfl, by rw [used_zalloc]; exact Nat.zero_le _, ?_⟩
    intro k v
    simp [Holds, zalloc, Kvi.zero]
  have hnodup : ([] ++ List.finRange (2 ^ map.shift)).Nodup := List.nodup_finRange _
  rw [resizeWith, if_pos (Nat.lt_succ_self _), if_neg hwf.shift_pos.ne'] at h
  exact rehash_blank hlaw hwf.shift_pos hwf.linked hnodup hstart (blank_zalloc _) h

variable (ops) in
/-- The table in which a new key gets its slot: a full one grows first. -/
def tableFor (depth : Nat) (map : Hmap) : Except Fault Hmap :=
  match map.allocFree with
  | some _ => pure map
  | none => resizeWith ops (Hmap.grow ops depth) map (map.shift + 1)

theorem position_ne_zero {shift : Nat} (hshift : 0 < shift) (h : BitVec 64) :
    (position shift h : Nat) ≠ 0 := by
  have hodd : (((h - 1) ||| 1).toNat) % 2 = 1 := by
    rw [BitVec.toNat_or, show (1 : BitVec 64).toNat = 1 by rfl]
    generalize (h - 1).toNat = n
    rw [Nat.or_mod_two_pow (n := 1)]
    rcases Nat.mod_two_eq_zero_or_one n with heq | heq <;> rw [pow_one, heq] <;> rfl
  have hdvd : 2 ∣ 2 ^ shift := dvd_pow_self 2 hshift.ne'
  intro hzero
  have hmod := Nat.mod_mod_of_dvd ((h - 1) ||| 1).toNat hdvd
  change ((h - 1) ||| 1).toNat % 2 ^ shift = 0 at hzero
  rw [hzero, hodd] at hmod
  cases hmod

/-- In a full table the home slot of a key is in use. -/
theorem Wf.home_inUse (hwf : Wf IsKey hashOf map) (hfull : map.allocFree = none) (h : BitVec 64) :
    (map.item (position map.shift h)).flag ≠ .free := by
  apply allocFrom_none hfull
  · exact Nat.pos_of_ne_zero (position_ne_zero hwf.shift_pos h)
  · rw [hwf.free_last]
    have hlt := (position map.shift h).isLt
    omega

theorem absent_iff {shift : Nat} {item : Items shift} :
    Absent item key ↔ ∀ v, ¬ Holds item key v := by
  constructor
  · rintro habsent v ⟨i, hi, hik, -⟩
    exact habsent i hi hik
  · intro hno i hi hik
    exact hno _ ⟨i, hi, hik, rfl⟩

/-- The second `hindex`, in the table that has grown. -/
theorem grow_spec (hlaw : LawfulKeys ops IsKey hashOf) (hwf : Wf IsKey hashOf map) (depth : Nat)
    (key : Variable) :
    ∃ grown fnd, resizeWith ops (Hmap.grow ops depth) map (map.shift + 1) = .ok grown ∧
      Wf IsKey hashOf grown ∧ grown.Blank ∧ grown.allocFree = some fnd ∧
      (∀ k v, Holds grown.item k v ↔ Holds map.item k v) ∧
      Hmap.grow ops (depth + 1) map key = indexWith ops (Hmap.grow ops depth) grown key := by
  obtain ⟨grown, hresize, hgrown, ⟨fnd, hfnd⟩, hholds⟩ := resizeWith_spec hlaw hwf
  have hblank := resizeWith_blank hlaw hwf (hresize (Hmap.grow ops depth))
  refine ⟨grown, fnd, hresize _, hgrown, hblank, hfnd, hholds, ?_⟩
  simp only [Hmap.grow, hresize, pure_bind]

theorem index_blank (hlaw : LawfulKeys ops IsKey hashOf) (hwf : Wf IsKey hashOf map)
    (hmap : map.Blank) {depth : Nat}
    (h : indexWith ops (Hmap.grow ops (depth + 1)) map key = .ok e) : e.BlankApart := by
  refine indexWith_blank hmap (fun _ e hgrow => ?_) h
  obtain ⟨grown, fnd, -, -, hblank, hfnd, -, hrun⟩ := grow_spec hlaw hwf depth key
  rw [hrun] at hgrow
  refine indexWith_blank hblank (fun hnone => ?_) hgrow
  rw [hfnd] at hnone
  cases hnone

theorem index_value (hlaw : LawfulKeys ops IsKey hashOf) (hwf : Wf IsKey hashOf map)
    (hkey : IsKey key) (habsent : Absent map.item key) (hmap : map.Blank) {depth : Nat}
    (h : indexWith ops (Hmap.grow ops (depth + 1)) map key = .ok e) :
    e.value = .nil ↔ ∃ room, tableFor ops depth map = .ok room ∧ Vacant room (hashOf key) := by
  cases hfree : map.allocFree with
  | some fnd =>
      have htable : tableFor ops depth map = .ok map := by
        rw [tableFor, hfree]
        rfl
      rw [indexWith_value hlaw hwf hkey habsent hmap hfree h, htable]
      simp
  | none =>
      obtain ⟨grown, fnd, hresize, hgrown, hblank, hfnd, hholds, hrun⟩ :=
        grow_spec hlaw hwf depth key
      have htable : tableFor ops depth map = .ok grown := by
        rw [tableFor, hfree]
        exact hresize
      have habsent' : Absent grown.item key := by
        rw [absent_iff] at habsent ⊢
        exact fun v hv => habsent v ((hholds key v).1 hv)
      have hindex : indexWith ops (Hmap.grow ops depth) grown key = .ok e := by
        rw [← hrun, ← h, indexWith, hlaw.hash hkey, pure_bind]
        dsimp only
        cases hflag : (map.item (position map.shift (hashOf key))).flag with
        | free => exact absurd hflag (hwf.home_inUse hfree _)
        | slot =>
            obtain ⟨cells, hchain, hmem⟩ := hwf.linked.heads _ hflag
            have hsearch := search_cases hlaw hwf.linked hkey hchain (Linked.length_le hchain)
              (fun c hc => ((hmem c).mp hc).1)
            obtain ⟨j, hj, hjk, -⟩ | ⟨-, before, pos, rfl, hsearch⟩ := hsearch
            · exact absurd hjk (habsent j ((hmem j).mp hj).1)
            · simp only [indexIfHead, hsearch, pure_bind, hfree, Bool.false_eq_true, if_false]
        | node => simp only [indexIfNode, hfree]
      rw [indexWith_value hlaw hgrown hkey habsent' hblank hfnd hindex, htable]
      simp

/-! ## Runs -/

variable (ops IsKey) in
/-- The maps that puts and stores under keys reach. -/
inductive Reached (depth : Nat) : Hmap → Prop
  | new {count : Int} {map : Hmap} (hcount : count < 2 ^ 30) (hnew : Hmap.new count = .ok map) :
      Reached depth map
  | put {map : Hmap} {key : Variable} {e : Entry} (hmap : Reached depth map) (hkey : IsKey key)
      (hput : Hmap.put ops depth map key = .ok e) : Reached depth e.map
  | store {map : Hmap} {key : Variable} {e : Entry} (hmap : Reached depth map) (hkey : IsKey key)
      (hput : Hmap.put ops depth map key = .ok e) (v : Variable) : Reached depth (e.store v)

/-- One `hmap_put`. -/
theorem put_spec (hlaw : LawfulKeys ops IsKey hashOf) (hwf : Wf IsKey hashOf map)
    (hkey : IsKey key) (hmap : map.Blank) (depth : Nat) :
    ∃ e, Hmap.put ops (depth + 1) map key = .ok (e.setKey key) ∧ Indexed IsKey hashOf map key e ∧
      (e.setKey key).BlankApart ∧ (Absent map.item key → ((e.setKey key).value = .nil ↔
        ∃ room, tableFor ops depth map = .ok room ∧ Vacant room (hashOf key))) := by
  obtain ⟨e, hindex, hindexed⟩ := index_spec hlaw hwf hkey
  have hindex' : indexWith ops (Hmap.grow ops (depth + 1)) map key = .ok e := hindex depth
  refine ⟨e, ?_, hindexed, setKey_blank (index_blank hlaw hwf hmap hindex') key, fun habsent => ?_⟩
  · rw [Hmap.put, putWith, hlaw.notNil hkey, hindex']
    rfl
  · rw [setKey_value]
    exact index_value hlaw hwf hkey habsent hmap hindex'

theorem Reached.ok (hlaw : LawfulKeys ops IsKey hashOf) {depth : Nat}
    (hreached : Reached ops IsKey (depth + 1) map) : Wf IsKey hashOf map ∧ map.Blank := by
  induction hreached with
  | @new count map hcount hnew =>
      obtain ⟨shift, hshift, hnew'⟩ := new_spec hcount
      cases hnew.symm.trans hnew'
      exact ⟨Wf.zalloc hshift, blank_zalloc shift⟩
  | @put map key e _ hkey hput ih =>
      obtain ⟨x, hput', hindexed, hapart, -⟩ := put_spec hlaw ih.1 hkey ih.2 depth
      cases hput.symm.trans hput'
      exact ⟨hindexed.wf, blank_of_inUse hapart hindexed.inUse⟩
  | @store map key e _ hkey hput v ih =>
      obtain ⟨x, hput', hindexed, hapart, -⟩ := put_spec hlaw ih.1 hkey ih.2 depth
      cases hput.symm.trans hput'
      exact ⟨(hindexed.stored v).wf, store_blank hapart hindexed.inUse v⟩

end

/-- A put of a new key under scalar keys: the other keys keep their values, and
the pointer is to `nil` unless a node with a value had to move out of the way. -/
theorem put_new_iff (heap : Heap) (depth resizes : Nat) {map : Hmap}
    (hreached : Reached (valueOps heap (depth + 1)) Variable.IsScalarKey (resizes + 1) map)
    {key : Variable} (hkey : key.IsScalarKey) (habsent : Absent map.item key) :
    ∃ e, Hmap.put (valueOps heap (depth + 1)) (resizes + 1) map key = .ok e ∧ e.key = key ∧
      (∀ k v, k ≠ key → (Holds e.map.item k v ↔ Holds map.item k v)) ∧
      (e.value = .nil ↔ ∃ room, tableFor (valueOps heap (depth + 1)) resizes map = .ok room ∧
        Vacant room (scalarHash key)) := by
  have hlaw := lawfulKeys_scalar heap depth
  obtain ⟨hwf, hblank⟩ := hreached.ok hlaw
  obtain ⟨e, hput, hindexed, -, hvalue⟩ := put_spec hlaw hwf hkey hblank resizes
  refine ⟨_, hput, ?_, hindexed.others, hvalue habsent⟩
  have hself := congrArg Kvi.k
    (Function.update_self e.slot { e.map.item e.slot with k := key } e.map.item)
  exact hself

/-- In a table of four slots the keys 2 and 6 have the same home slot, and the
node of 6 lies in the home slot of 4: the value of 6 is found under 4. -/
private theorem node_in_home_slot : ∃ map e, Reached (valueOps Heap.empty 1) Variable.IsScalarKey 1 map ∧
    Absent map.item (.int 4) ∧ Hmap.put (valueOps Heap.empty 1) 1 map (.int 4) = .ok e ∧
      e.value = .int 60 := by
  have hrun : (do
      let e₁ ← Hmap.put (valueOps Heap.empty 1) 1 (zalloc 2) (.int 2)
      let e₂ ← Hmap.put (valueOps Heap.empty 1) 1 (e₁.store (.int 20)) (.int 6)
      let e₃ ← Hmap.put (valueOps Heap.empty 1) 1 (e₂.store (.int 60)) (.int 4)
      return (e₃.value, decide (∀ i, ((e₂.store (.int 60)).item i).flag ≠ KviFlag.free →
        ((e₂.store (.int 60)).item i).k ≠ Variable.int 4))) = .ok (.int 60, true) := by
    decide +kernel
  obtain ⟨e₁, hput₁, hrun⟩ := except_bind_ok_iff.1 hrun
  obtain ⟨e₂, hput₂, hrun⟩ := except_bind_ok_iff.1 hrun
  obtain ⟨e₃, hput₃, hrun⟩ := except_bind_ok_iff.1 hrun
  have hpair := Except.ok.inj hrun
  rw [Prod.mk.injEq, decide_eq_true_eq] at hpair
  have hzero : Reached (valueOps Heap.empty 1) Variable.IsScalarKey 1 (zalloc 2) :=
    .new (show (3 : Int) < 2 ^ 30 by decide) rfl
  have hone := hzero.store (show (Variable.int 2).IsScalarKey from trivial) hput₁ (.int 20)
  have htwo := hone.store (show (Variable.int 6).IsScalarKey from trivial) hput₂ (.int 60)
  exact ⟨_, e₃, htwo, hpair.2, hput₃, hpair.1⟩

theorem put_new_four : ∃ map e, Reached (valueOps Heap.empty 1) Variable.IsScalarKey 1 map ∧
    Hmap.put (valueOps Heap.empty 1) 1 map (.int 4) = .ok e ∧ e.value = .int 60 ∧
      e.key = .int 4 ∧ (∀ k v, k ≠ .int 4 → (Holds e.map.item k v ↔ Holds map.item k v)) ∧
      (e.value = .nil ↔ ∃ room, tableFor (valueOps Heap.empty 1) 0 map = .ok room ∧
        Vacant room (scalarHash (.int 4))) := by
  obtain ⟨map, e, hreached, habsent, hput, hvalue⟩ := node_in_home_slot
  obtain ⟨e', hput', hkey, hothers, hnil⟩ :=
    put_new_iff Heap.empty 0 0 hreached (show (Variable.int 4).IsScalarKey from trivial) habsent
  cases hput.symm.trans hput'
  exact ⟨map, e, hreached, hput, hvalue, hkey, hothers, hnil⟩

theorem put_new_moved : ¬ ∀ (heap : Heap) (depth resizes : Nat) (map : Hmap) (key : Variable)
    (e : Entry), Reached (valueOps heap (depth + 1)) Variable.IsScalarKey (resizes + 1) map →
      key.IsScalarKey → Absent map.item key →
        Hmap.put (valueOps heap (depth + 1)) (resizes + 1) map key = .ok e → e.value = .nil := by
  intro h
  obtain ⟨map, e, hreached, habsent, hput, hvalue⟩ := node_in_home_slot
  have hnil := h Heap.empty 0 0 map (.int 4) e hreached trivial habsent hput
  rw [hvalue] at hnil
  cases hnil

end Hmap

end Ymd
