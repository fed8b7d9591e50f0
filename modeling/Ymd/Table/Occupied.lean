import Ymd.Foundation.Outcome
import Ymd.Table.HashMap
import Ymd.Table.SkipList

/-! # What a store leaves in the other entries

A map or a list without `nil` keeps being one when something other than `nil` is stored
under a key. Until then the entry of a new key holds `nil`.
-/

namespace Ymd

open Foundation

theorem ne_nil_of_isNil {v : Variable} (h : ¬ v.isNil = true) : v ≠ .nil := by
  rintro rfl
  exact h rfl

theorem eq_nil_of_isNil {v : Variable} (h : v.isNil = true) : v = .nil := by
  cases v <;> first
    | rfl
    | cases h

/-! ## Hash maps -/

section

variable {ops : KeyOps} {grow : Hmap.Grow} {map : Hmap} {key v : Variable} {e : Entry}

/-- A slot in use has neither `nil` for its key nor for its value. -/
def Kvi.NoNil {n : Nat} (i : Kvi n) : Prop := i.flag ≠ .free → i.k ≠ .nil ∧ i.v ≠ .nil

def Hmap.NoNil (map : Hmap) : Prop := ∀ i, (map.item i).NoNil

/-- The same for every slot but the one that is pointed to. -/
def Entry.NoNilApart (e : Entry) : Prop := ∀ i, i ≠ e.slot → (e.map.item i).NoNil

namespace Hmap

theorem noNil_zalloc (shift : Nat) : (zalloc shift).NoNil := fun _ hflag => absurd rfl hflag

theorem new_ok {count : Int} (h : Hmap.new count = .ok map) :
    ∃ shift, 0 < shift ∧ map = Hmap.zalloc shift := by
  have hzalloc : ∀ shift : Nat, (if 0 < shift then pure (zalloc shift)
      else throw (Fault.assertion "shift > 0") : Except Fault Hmap) = .ok map →
      0 < shift ∧ map = zalloc shift := by
    intro shift h
    split at h
    next hpos => exact ⟨hpos, (Except.ok.inj h).symm⟩
    next => cases h
  rw [Hmap.new] at h
  split at h
  · obtain ⟨shift, -, h⟩ := except_bind_ok_iff.1 h
    exact ⟨shift, hzalloc shift h⟩
  · obtain ⟨shift, -, h⟩ := except_bind_ok_iff.1 h
    exact ⟨shift, hzalloc shift h⟩

theorem noNil_new {count : Int} (h : Hmap.new count = .ok map) : map.NoNil := by
  obtain ⟨shift, -, rfl⟩ := new_ok h
  exact noNil_zalloc shift

theorem NoNil.apart (hmap : map.NoNil) (slot : Fin (2 ^ map.shift)) :
    Entry.NoNilApart ⟨map, slot⟩ :=
  fun i _ => hmap i

/-- Only one slot is written, or nothing but the link of another one. -/
theorem noNil_update {n : Nat} {item : Fin n → Kvi n} {i j : Fin n} {x : Kvi n}
    (hitem : (item i).NoNil) (hx : i = j → x.NoNil) : (Function.update item j x i).NoNil := by
  by_cases hij : i = j
  · rw [hij, Function.update_self]
    exact hx hij
  · rw [Function.update_of_ne hij]
    exact hitem

section

variable (hgrow : ∀ map key e, NoNil map → grow map key = .ok e → e.NoNilApart)

include hgrow

theorem indexIfHead_noNil (hmap : map.NoNil) {slot : Fin (2 ^ map.shift)} {h : BitVec 64}
    (hindex : indexIfHead ops grow map key slot h = .ok e) : e.NoNilApart := by
  rw [indexIfHead, except_bind_ok_iff] at hindex
  obtain ⟨⟨pos, found⟩, -, hindex⟩ := hindex
  dsimp only at hindex
  split at hindex
  · cases hindex
    exact hmap.apart pos
  · cases hfree : map.allocFree with
    | none =>
        rw [hfree] at hindex
        exact hgrow _ _ _ hmap hindex
    | some fnd =>
        rw [hfree] at hindex
        dsimp only at hindex
        split at hindex
        · cases hindex
        · cases hindex
          have hnode : ∀ {x : Kvi (2 ^ map.shift)} {i}, i ≠ fnd →
              (Function.update map.item fnd x i).NoNil := fun {x i} hi =>
            noNil_update (hmap i) fun heq => absurd heq hi
          intro i hi
          refine noNil_update (hnode hi) fun heq => ?_
          rw [← heq]
          exact hnode hi

theorem indexIfNode_noNil (hmap : map.NoNil) {slot : Fin (2 ^ map.shift)} {h : BitVec 64}
    (hslot : (map.item slot).flag ≠ .free)
    (hindex : indexIfNode ops grow map key slot h = .ok e) : e.NoNilApart := by
  rw [indexIfNode] at hindex
  cases hfree : map.allocFree with
  | none =>
      rw [hfree] at hindex
      exact hgrow _ _ _ hmap hindex
  | some fnd =>
      rw [hfree] at hindex
      obtain ⟨slotHash, -, hindex⟩ := except_bind_ok_iff.1 hindex
      obtain ⟨prev, -, hindex⟩ := except_bind_ok_iff.1 hindex
      cases hindex
      -- the node that moves keeps its key and its value
      have hnode : ∀ i, (Function.update map.item fnd ⟨(map.item slot).next, slotHash,
          (map.item slot).k, (map.item slot).v, .node⟩ i).NoNil := fun i =>
        noNil_update (hmap i) fun _ _ => hmap slot hslot
      intro i hi
      refine noNil_update ?_ fun heq => absurd heq hi
      exact noNil_update (hnode i) fun _ => hnode prev

theorem indexWith_noNil (hmap : map.NoNil) (hindex : indexWith ops grow map key = .ok e) :
    e.NoNilApart := by
  rw [indexWith, except_bind_ok_iff] at hindex
  obtain ⟨h, -, hindex⟩ := hindex
  dsimp only at hindex
  split at hindex
  · cases hindex
    intro i hi
    exact noNil_update (hmap i) fun heq => absurd heq hi
  · exact indexIfHead_noNil hgrow hmap hindex
  · exact indexIfNode_noNil hgrow hmap (by simp [*]) hindex

end

/-! ## The key and the value of the entry -/

theorem putWith_noNil (hgrow : ∀ map key e, NoNil map → grow map key = .ok e → e.NoNilApart)
    (hmap : map.NoNil) (hput : putWith ops grow map key = .ok e) :
    e.NoNilApart ∧ e.key ≠ .nil := by
  rw [putWith] at hput
  split at hput
  · cases hput
  · next hkey =>
      obtain ⟨x, hx, hput⟩ := except_bind_ok_iff.1 hput
      obtain rfl := Except.ok.inj hput
      have hapart := indexWith_noNil hgrow hmap hx
      refine ⟨fun i hi => noNil_update (hapart i hi) fun heq => absurd heq hi, ?_⟩
      have hself := congrArg Kvi.k
        (Function.update_self x.slot { x.map.item x.slot with k := key } x.map.item)
      exact fun heq => ne_nil_of_isNil hkey (hself.symm.trans heq)

theorem noNil_store (hapart : e.NoNilApart) (hkey : e.key ≠ .nil) (hv : v ≠ .nil) :
    (e.store v).NoNil := by
  intro i
  by_cases hi : i = e.slot
  · have hself : (e.store v).item e.slot = { e.map.item e.slot with v := v } :=
      Function.update_self ..
    rw [hi, hself]
    exact fun _ => ⟨hkey, hv⟩
  · exact noNil_update (hapart i hi) fun heq => absurd heq hi

/-- An entry that is there already holds its value until it is stored to. -/
theorem noNil_of_value (hapart : e.NoNilApart) (hkey : e.key ≠ .nil) (hv : e.value ≠ .nil) :
    e.map.NoNil := by
  intro i
  by_cases hi : i = e.slot
  · rw [hi]
    exact fun _ => ⟨hkey, hv⟩
  · exact hapart i hi

theorem rehash_noNil (hgrow : ∀ map key e, NoNil map → grow map key = .ok e → e.NoNilApart)
    {shift : Nat} {bak : Items shift} (hbak : ∀ i, (bak i).NoNil) {slots : List (Fin (2 ^ shift))}
    {map' : Hmap} (hmap : map.NoNil) (h : rehash ops grow bak slots map = .ok map') :
    map'.NoNil := by
  induction slots generalizing map with
  | nil =>
      obtain rfl := Except.ok.inj h
      exact hmap
  | cons i rest ih =>
      rw [rehash] at h
      split at h
      · exact ih hmap h
      · next hflag =>
          obtain ⟨pv, hput, h⟩ := except_bind_ok_iff.1 h
          obtain ⟨hapart, hkey⟩ := putWith_noNil hgrow hmap hput
          exact ih (noNil_store hapart hkey (hbak i hflag).2) h

theorem grow_noNil (depth : Nat) (map : Hmap) (key : Variable) (e : Entry) (hmap : map.NoNil)
    (h : Hmap.grow ops depth map key = .ok e) : e.NoNilApart := by
  induction depth generalizing map key e with
  | zero => cases h
  | succ depth ih =>
      obtain ⟨map', hresize, h⟩ := except_bind_ok_iff.1 h
      rw [resizeWith] at hresize
      split at hresize
      · exact indexWith_noNil ih (rehash_noNil ih hmap (noNil_zalloc _) hresize) h
      · cases hresize

/-- What `hmap_put` leaves. -/
theorem put_noNil {depth : Nat} (hmap : map.NoNil) (h : put ops depth map key = .ok e) :
    e.NoNilApart ∧ e.key ≠ .nil :=
  putWith_noNil (grow_noNil depth) hmap h

end Hmap

end

/-! ## Skip lists -/

section

variable {ops : KeyOps} {list list' : Skls} {key v : Variable} {lvl : Nat} {e : SkEntry}

/-- No node but the head has `nil` for its key or its value. -/
def Skls.NoNil (list : Skls) : Prop :=
  ∀ x, x ≠ Skls.head → x < list.size → (list.node x).k ≠ .nil ∧ (list.node x).v ≠ .nil

def SkEntry.NoNilApart (e : SkEntry) : Prop :=
  ∀ x, x ≠ Skls.head → x < e.list.size → x ≠ e.node →
    (e.list.node x).k ≠ .nil ∧ (e.list.node x).v ≠ .nil

namespace Skls

theorem noNil_new : Skls.new.NoNil := by
  intro x hx hlt
  exact absurd (Nat.lt_one_iff.1 hlt) hx

/-- Linking changes no key and no value. -/
structure SameData (list list' : Skls) : Prop where
  size : list'.size = list.size
  key : ∀ x, (list'.node x).k = (list.node x).k
  value : ∀ x, (list'.node x).v = (list.node x).v

theorem SameData.refl (list : Skls) : SameData list list := ⟨rfl, fun _ => rfl, fun _ => rfl⟩

theorem SameData.trans {list'' : Skls} (h : SameData list list') (h' : SameData list' list'') :
    SameData list list'' :=
  ⟨h'.size.trans h.size, fun x => (h'.key x).trans (h.key x), fun x => (h'.value x).trans (h.value x)⟩

theorem setFwd_sameData {x i : Nat} {target : Option Nat} (h : list.setFwd x i target = .ok list') :
    SameData list list' := by
  unfold setFwd at h
  split at h
  · obtain rfl := Except.ok.inj h
    refine ⟨rfl, fun y => ?_, fun y => ?_⟩
    · by_cases hy : y = x
      · rw [hy]
        exact (congrArg Sknd.k (Function.update_self x _ list.node)).trans rfl
      · exact congrArg Sknd.k (Function.update_of_ne hy ..)
    · by_cases hy : y = x
      · rw [hy]
        exact (congrArg Sknd.v (Function.update_self x _ list.node)).trans rfl
      · exact congrArg Sknd.v (Function.update_of_ne hy ..)
  · cases h

theorem linkLevel_sameData {x i : Nat} {update : Update}
    (h : linkLevel x update list i = .ok list') : SameData list list' := by
  obtain ⟨u, -, h⟩ := except_bind_ok_iff.1 h
  obtain ⟨next, -, h⟩ := except_bind_ok_iff.1 h
  obtain ⟨mid, hmid, h⟩ := except_bind_ok_iff.1 h
  exact (setFwd_sameData hmid).trans (setFwd_sameData h)

theorem linkAll_sameData {x : Nat} {update : Update} {levels : List Nat}
    (h : levels.foldlM (linkLevel x update) list = .ok list') : SameData list list' := by
  induction levels generalizing list with
  | nil =>
      obtain rfl := Except.ok.inj h
      exact .refl list
  | cons i rest ih =>
      obtain ⟨mid, hmid, h⟩ := except_bind_ok_iff.1 h
      exact (linkLevel_sameData hmid).trans (ih h)

theorem append_noNil {update : Update} (hlist : list.NoNil)
    (h : append list update lvl = .ok e) : e.NoNilApart := by
  obtain ⟨linked, hlinked, h⟩ := except_bind_ok_iff.1 h
  obtain rfl := Except.ok.inj h
  have hsame := linkAll_sameData hlinked
  intro x hhead hlt hne
  change (linked.node x).k ≠ .nil ∧ (linked.node x).v ≠ .nil
  have hlt : x < list.size + 1 := Nat.lt_of_lt_of_eq hlt hsame.size
  have hold : (list.alloc lvl).node x = list.node x := Function.update_of_ne hne ..
  rw [hsame.key, hsame.value, hold]
  exact hlist x hhead (Nat.lt_of_le_of_ne (Nat.le_of_lt_succ hlt) hne)

theorem index_noNil (hlist : list.NoNil) (h : index ops list key lvl = .ok e) : e.NoNilApart := by
  obtain ⟨⟨x, update⟩, -, h⟩ := except_bind_ok_iff.1 h
  obtain ⟨next, -, h⟩ := except_bind_ok_iff.1 h
  obtain ⟨found, -, h⟩ := except_bind_ok_iff.1 h
  cases found with
  | some x =>
      obtain rfl := Except.ok.inj h
      exact fun y hhead hlt _ => hlist y hhead hlt
  | none => exact append_noNil hlist h

/-- What `skls_put` leaves. -/
theorem put_noNil (hlist : list.NoNil) (h : put ops list key lvl = .ok e) :
    e.NoNilApart ∧ (e.list.node e.node).k ≠ .nil := by
  rw [put] at h
  split at h
  · cases h
  · next hkey =>
      obtain ⟨x, hx, h⟩ := except_bind_ok_iff.1 h
      obtain rfl := Except.ok.inj h
      have hapart := index_noNil hlist hx
      refine ⟨fun y hhead hlt hy => ?_, ?_⟩
      · have hother := hapart y hhead hlt hy
        rw [← Function.update_of_ne hy { x.list.node x.node with k := key } x.list.node] at hother
        exact hother
      · have hself := congrArg Sknd.k
          (Function.update_self x.node { x.list.node x.node with k := key } x.list.node)
        exact fun heq => ne_nil_of_isNil hkey (hself.symm.trans heq)

theorem noNil_store (hapart : e.NoNilApart) (hkey : (e.list.node e.node).k ≠ .nil)
    (hv : v ≠ .nil) : (Skls.store e v).NoNil := by
  intro x hhead hlt
  by_cases hx : x = e.node
  · have hself : (store e v).node e.node = { e.list.node e.node with v := v } :=
      Function.update_self ..
    rw [hx, hself]
    exact ⟨hkey, hv⟩
  · have hother : (store e v).node x = e.list.node x := Function.update_of_ne hx ..
    rw [hother]
    exact hapart x hhead hlt hx

theorem noNil_of_value (hapart : e.NoNilApart) (hkey : (e.list.node e.node).k ≠ .nil)
    (hv : (e.list.node e.node).v ≠ .nil) : e.list.NoNil := by
  intro x hhead hlt
  by_cases hx : x = e.node
  · rw [hx]
    exact ⟨hkey, hv⟩
  · exact hapart x hhead hlt hx

end Skls

end

end Ymd
