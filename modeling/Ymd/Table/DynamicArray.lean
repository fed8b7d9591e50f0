import Ymd.Foundation.Outcome
import Ymd.Value.Variable
import Mathlib.Data.List.InsertIdx
import Mathlib.Logic.Function.Basic

/-! # The dynamic array

The model of `dynamic_array.c` with its block of memory, and the list that it
keeps. What `mm_realloc` adds to a block is not initialized.
-/

namespace Ymd

open Foundation

/-- `struct dyay`; `elem` has `max` slots. -/
structure Dyay where
  count : Nat
  max : Nat
  elem : Nat → Variable

namespace Dyay

/-- `MAX_ADD`. -/
def maxAdd : Nat := 16

/-- `dyay_new`; `junk` is what the memory holds that is not initialized. -/
def new (junk : Nat → Variable) (max : Int) : Dyay where
  count := 0
  max := max.toNat
  elem := fun i => if i < max.toNat then .nil else junk i

/-- A load from `arr->elem`. -/
def load (arr : Dyay) (i : Nat) : Except Fault Variable :=
  if i < arr.max then pure (arr.elem i) else throw (.bounds "arr->elem")

/-- A store to `arr->elem`. -/
def store (arr : Dyay) (i : Nat) (v : Variable) : Except Fault Dyay :=
  if i < arr.max then pure { arr with elem := Function.update arr.elem i v }
  else throw (.bounds "arr->elem")

/-- The index of `dyay_get`. -/
def get (arr : Dyay) (i : YmdInt) : Except Fault Nat :=
  if i.slt 0 ∨ (arr.count : Int) ≤ i.toInt then
    throw (.assertion "i >= 0LL && i < (ymd_int_t)arr->count")
  else pure i.toNat

/-- `resize`, with the assertion of `mm_realloc`. -/
def resize (arr : Dyay) : Except Fault Dyay :=
  if 2 ^ 31 ≤ arr.count * 3 then throw .overflow
  else
    let n := arr.count * 3 / 2 + maxAdd
    if arr.max < n then pure { arr with max := n } else throw (.assertion "n > old")

/-- The first lines of `dyay_add` and `dyay_insert`. -/
def room (arr : Dyay) : Except Fault Dyay := if arr.max ≤ arr.count then arr.resize else pure arr

/-- `dyay_add`: the slot it points to comes last. -/
def add (arr : Dyay) : Except Fault (Dyay × Nat) := do
  let arr ← arr.room
  let arr ← arr.store arr.count .nil
  return ({ arr with count := arr.count + 1 }, arr.count)

/-- The loop of `dyay_insert`, in front of `j--`. -/
def shift (i : Nat) : Nat → Dyay → Except Fault Dyay
  | 0, arr => pure arr
  | j + 1, arr =>
      if i < j + 1 then do
        let arr ← arr.store (j + 1) (← arr.load j)
        shift i j arr
      else pure arr

/-- `dyay_insert`: the slot it points to still holds the old element. -/
def insert (arr : Dyay) (i : YmdInt) : Except Fault (Dyay × Nat) := do
  let arr ← arr.room
  if i.slt 0 then throw (.assertion "i >= 0")
  else if (arr.count : Int) ≤ i.toInt then throw (.assertion "i < arr->count")
  else
    let arr ← shift i.toNat arr.count arr
    return ({ arr with count := arr.count + 1 }, i.toNat)

/-- What is done with an array. -/
inductive Op
  | add (v : Variable)
  | insert (i : YmdInt) (v : Variable)
  | get (i : YmdInt)

/-- An operation, with the store through the pointer it returns or the load. -/
def Op.run (arr : Dyay) : Op → Except Fault (Dyay × Option Variable)
  | .add v => do
      let (arr, slot) ← arr.add
      return (← arr.store slot v, none)
  | .insert i v => do
      let (arr, slot) ← arr.insert i
      return (← arr.store slot v, none)
  | .get i => do return (arr, some (← arr.load (← arr.get i)))

/-- Operations one after the other, with what the loads give. -/
def runAll : Dyay → List Op → Except Fault (Dyay × List Variable)
  | arr, [] => pure (arr, [])
  | arr, op :: ops => do
      let (arr, found) ← op.run arr
      let (arr, rest) ← runAll arr ops
      return (arr, found.toList ++ rest)

/-! ## The list -/

/-- The elements. -/
def toList (arr : Dyay) : List Variable := (List.range arr.count).map arr.elem

/-- What an operation does with a list. -/
def Op.onList (elems : List Variable) : Op → List Variable
  | .add v => elems ++ [v]
  | .insert i v => elems.insertIdx i.toNat v
  | .get _ => elems

/-- What it gives. -/
def Op.found (elems : List Variable) : Op → Option Variable
  | .get i => elems[i.toNat]?
  | _ => none

/-- The index is one of the list, and the list has room below `2 ^ 29`. -/
def Op.Valid (elems : List Variable) : Op → Prop
  | .add _ => elems.length < 2 ^ 29
  | .insert i _ => elems.length < 2 ^ 29 ∧ 0 ≤ i.toInt ∧ i.toInt < elems.length
  | .get i => 0 ≤ i.toInt ∧ i.toInt < elems.length

/-- Every operation of a sequence is valid where it comes. -/
def AllValid : List Variable → List Op → Prop
  | _, [] => True
  | elems, op :: ops => op.Valid elems ∧ AllValid (op.onList elems) ops

/-- The list behind operations. -/
def listOf (elems : List Variable) (ops : List Op) : List Variable := ops.foldl Op.onList elems

/-- What the operations give. -/
def foundOf : List Variable → List Op → List Variable
  | _, [] => []
  | elems, op :: ops => (op.found elems).toList ++ foundOf (op.onList elems) ops

section

variable {arr arr' : Dyay} {i j : Nat} {v : Variable} {index : YmdInt}

@[simp] theorem length_toList (arr : Dyay) : arr.toList.length = arr.count := by
  simp [toList]

theorem getElem?_toList (arr : Dyay) (i : Nat) :
    arr.toList[i]? = if i < arr.count then some (arr.elem i) else none := by
  unfold toList
  rw [List.getElem?_map]
  split
  next hi => simp [hi]
  next hi => simp [Nat.not_lt.1 hi]

theorem store_of_lt (hi : i < arr.max) (v : Variable) :
    arr.store i v = .ok { arr with elem := Function.update arr.elem i v } := if_pos hi

theorem load_of_lt (hi : i < arr.max) : arr.load i = .ok (arr.elem i) := if_pos hi

/-! ## Growth -/

/-- The block has a free slot behind the elements, and is the old one or larger. -/
structure Roomy (arr arr' : Dyay) : Prop where
  count : arr'.count = arr.count
  elem : arr'.elem = arr.elem
  free : arr'.count < arr'.max
  grown : arr' = arr ∨ arr.count = arr.max ∧ arr.max < arr'.max

theorem room_ok (hle : arr.count ≤ arr.max) (hsmall : arr.count < 2 ^ 29) :
    ∃ arr', arr.room = .ok arr' ∧ Roomy arr arr' := by
  unfold room
  by_cases hfull : arr.max ≤ arr.count
  · have heq : arr.count = arr.max := Nat.le_antisymm hle hfull
    have hgrows : arr.max < arr.count * 3 / 2 + maxAdd := by
      unfold maxAdd
      omega
    rw [if_pos hfull, resize, if_neg (by omega)]
    dsimp only
    rw [if_pos hgrows]
    exact ⟨_, rfl, rfl, rfl, heq ▸ hgrows, .inr ⟨heq, hgrows⟩⟩
  · rw [if_neg hfull]
    exact ⟨arr, rfl, rfl, rfl, Nat.not_le.1 hfull, .inl rfl⟩

/-- The loop moves what comes from `i` on up to `j` by one slot. -/
theorem shift_ok (hj : j < arr.max) : shift i j arr =
    .ok { arr with elem := fun k => if i < k ∧ k ≤ j then arr.elem (k - 1) else arr.elem k } := by
  induction j generalizing arr with
  | zero =>
      have helem : (fun k => if i < k ∧ k ≤ 0 then arr.elem (k - 1) else arr.elem k) = arr.elem := by
        funext k
        exact if_neg (by omega)
      rw [shift, helem]
      rfl
  | succ j ih =>
      rw [shift]
      by_cases hi : i < j + 1
      · have hrest := @ih ⟨arr.count, arr.max, Function.update arr.elem (j + 1) (arr.elem j)⟩
          (Nat.lt_of_succ_lt hj)
        rw [if_pos hi, except_bind_of_ok (load_of_lt (Nat.lt_of_succ_lt hj)),
          except_bind_of_ok (store_of_lt hj _), hrest]
        congr 2
        funext k
        dsimp only
        rcases Nat.lt_trichotomy k (j + 1) with hlt | rfl | hgt
        · have hk : k - 1 ≠ j + 1 := by omega
          have hle : k ≤ j ↔ k ≤ j + 1 := ⟨by omega, by omega⟩
          rw [Function.update_of_ne hk, Function.update_of_ne (Nat.ne_of_lt hlt)]
          simp only [hle]
        · rw [if_neg (by omega), if_pos ⟨hi, le_rfl⟩, Function.update_self, Nat.add_sub_cancel]
        · rw [if_neg (by omega), if_neg (by omega), Function.update_of_ne (Nat.ne_of_gt hgt)]
      · have helem : (fun k => if i < k ∧ k ≤ j + 1 then arr.elem (k - 1) else arr.elem k) =
            arr.elem := by
          funext k
          exact if_neg (by omega)
        rw [if_neg hi, helem]
        rfl

/-! ## Operations -/

/-- An operation has done to the elements what it does to a list. -/
structure Refines (arr : Dyay) (op : Op) (arr' : Dyay) (found : Option Variable) : Prop where
  elems : arr'.toList = op.onList arr.toList
  found : found = op.found arr.toList
  count : arr'.count ≤ arr'.max
  grown : arr'.max = arr.max ∨ arr.count = arr.max ∧ arr.max < arr'.max

theorem Roomy.max_eq (h : Roomy arr arr') :
    arr'.max = arr.max ∨ arr.count = arr.max ∧ arr.max < arr'.max := by
  rcases h.grown with rfl | hgrown
  · exact .inl rfl
  · exact .inr hgrown

theorem add_refines (hle : arr.count ≤ arr.max) (hsmall : arr.count < 2 ^ 29) (v : Variable) :
    ∃ arr', (Op.add v).run arr = .ok (arr', none) ∧ Refines arr (.add v) arr' none := by
  obtain ⟨big, hroom, hroomy⟩ := room_ok hle hsmall
  refine ⟨{ big with count := big.count + 1, elem := Function.update big.elem big.count v }, ?_,
    ?_, rfl, hroomy.free, hroomy.max_eq⟩
  · have hadd : arr.add =
        .ok (⟨big.count + 1, big.max, Function.update big.elem big.count .nil⟩, big.count) := by
      rw [add, except_bind_of_ok hroom, except_bind_of_ok (store_of_lt hroomy.free _)]
      rfl
    have hstore := @store_of_lt
      ⟨big.count + 1, big.max, Function.update big.elem big.count .nil⟩ _ hroomy.free v
    rw [Op.run, except_bind_of_ok hadd]
    dsimp only
    rw [except_bind_of_ok hstore]
    dsimp only
    rw [Function.update_idem]
    rfl
  · ext1 k
    rw [getElem?_toList]
    change _ = (arr.toList ++ [v])[k]?
    rw [List.getElem?_append, length_toList, getElem?_toList, hroomy.count, hroomy.elem]
    dsimp only
    rcases Nat.lt_trichotomy k arr.count with hlt | rfl | hgt
    · rw [if_pos (Nat.lt_succ_of_lt hlt), if_pos hlt, if_pos hlt,
        Function.update_of_ne (Nat.ne_of_lt hlt)]
    · simp
    · have hnone : [v][k - arr.count]? = none := List.getElem?_eq_none (by simp; omega)
      rw [if_neg (by omega), if_neg (by omega), hnone]

theorem insert_refines (hle : arr.count ≤ arr.max) (hsmall : arr.count < 2 ^ 29)
    (hlow : 0 ≤ index.toInt) (hhigh : index.toInt < arr.count) (v : Variable) :
    ∃ arr', (Op.insert index v).run arr = .ok (arr', none) ∧
      Refines arr (.insert index v) arr' none := by
  obtain ⟨big, hroom, hroomy⟩ := room_ok hle hsmall
  have hindex : index.toNat < arr.count := by
    have heq := toNat_of_nonneg hlow
    omega
  refine ⟨⟨big.count + 1, big.max, Function.update (fun k =>
      if index.toNat < k ∧ k ≤ big.count then big.elem (k - 1) else big.elem k) index.toNat v⟩, ?_,
    ?_, rfl, hroomy.free, hroomy.max_eq⟩
  · have hinsert : arr.insert index = .ok (⟨big.count + 1, big.max, fun k =>
        if index.toNat < k ∧ k ≤ big.count then big.elem (k - 1) else big.elem k⟩, index.toNat) := by
      have hlow' : ¬ index.slt 0 = true := Bool.eq_false_iff.1 (slt_zero_iff.2 hlow)
      have hhigh' : ¬ (big.count : Int) ≤ index.toInt := by
        rw [hroomy.count]
        exact Int.not_le.2 hhigh
      rw [insert, except_bind_of_ok hroom, if_neg hlow', if_neg hhigh',
        except_bind_of_ok (shift_ok hroomy.free)]
      rfl
    have hslot : index.toNat < big.max := by
      rw [← hroomy.count] at hindex
      exact hindex.trans hroomy.free
    have hstore := @store_of_lt ⟨big.count + 1, big.max, fun k =>
      if index.toNat < k ∧ k ≤ big.count then big.elem (k - 1) else big.elem k⟩ _ hslot v
    rw [Op.run, except_bind_of_ok hinsert]
    dsimp only
    rw [except_bind_of_ok hstore]
    rfl
  · ext1 k
    rw [getElem?_toList]
    change _ = (arr.toList.insertIdx index.toNat v)[k]?
    rw [List.getElem?_insertIdx, hroomy.count, hroomy.elem]
    dsimp only
    rcases Nat.lt_trichotomy k index.toNat with hlt | rfl | hgt
    · rw [if_pos (by omega), if_pos hlt, Function.update_of_ne (Nat.ne_of_lt hlt),
        if_neg (by omega), getElem?_toList, if_pos (hlt.trans hindex)]
    · simp [Nat.lt_succ_of_lt hindex, hindex.le]
    · rw [if_neg (Nat.not_lt.2 hgt.le), if_neg (Nat.ne_of_gt hgt), getElem?_toList,
        Function.update_of_ne (Nat.ne_of_gt hgt)]
      by_cases hk : k < arr.count + 1
      · rw [if_pos hk, if_pos ⟨hgt, Nat.lt_succ_iff.1 hk⟩, if_pos (by omega)]
      · rw [if_neg hk, if_neg (by omega)]

theorem get_refines (hle : arr.count ≤ arr.max) (hlow : 0 ≤ index.toInt)
    (hhigh : index.toInt < arr.count) : ∃ found, (Op.get index).run arr = .ok (arr, found) ∧
      Refines arr (.get index) arr found := by
  have hindex : index.toNat < arr.count := by
    have heq := toNat_of_nonneg hlow
    omega
  have hget : arr.get index = .ok index.toNat := by
    refine if_neg ?_
    rintro (hneg | hbig)
    · rw [slt_zero_iff.2 hlow] at hneg
      cases hneg
    · omega
  refine ⟨some (arr.elem index.toNat), ?_, rfl, ?_, hle, .inl rfl⟩
  · rw [Op.run, except_bind_of_ok hget, except_bind_of_ok (load_of_lt (hindex.trans_le hle))]
    rfl
  · change _ = arr.toList[index.toNat]?
    rw [getElem?_toList, if_pos hindex]

theorem op_refines {op : Op} (hle : arr.count ≤ arr.max) (hvalid : op.Valid arr.toList) :
    ∃ arr' found, op.run arr = .ok (arr', found) ∧ Refines arr op arr' found := by
  cases op with
  | add v =>
      obtain ⟨arr', hrun, hrefines⟩ := add_refines hle (by simpa [Op.Valid] using hvalid) v
      exact ⟨arr', none, hrun, hrefines⟩
  | insert i v =>
      obtain ⟨hsmall, hlow, hhigh⟩ := hvalid
      rw [length_toList] at hsmall hhigh
      obtain ⟨arr', hrun, hrefines⟩ := insert_refines hle hsmall hlow hhigh v
      exact ⟨arr', none, hrun, hrefines⟩
  | get i =>
      obtain ⟨hlow, hhigh⟩ := hvalid
      rw [length_toList] at hhigh
      obtain ⟨found, hrun, hrefines⟩ := get_refines hle hlow hhigh
      exact ⟨arr, found, hrun, hrefines⟩

/-! ## Runs -/

theorem runAll_refines {ops : List Op} (hle : arr.count ≤ arr.max)
    (hvalid : AllValid arr.toList ops) : ∃ arr',
      runAll arr ops = .ok (arr', foundOf arr.toList ops) ∧ arr'.toList = listOf arr.toList ops ∧
        arr'.count ≤ arr'.max := by
  induction ops generalizing arr with
  | nil => exact ⟨arr, rfl, rfl, hle⟩
  | cons op ops ih =>
      obtain ⟨hop, hrest⟩ := hvalid
      obtain ⟨mid, found, hrun, hrefines⟩ := op_refines hle hop
      rw [← hrefines.elems] at hrest
      obtain ⟨arr', hall, helems, hcount⟩ := ih hrefines.count hrest
      refine ⟨arr', ?_, ?_, hcount⟩
      · rw [runAll, except_bind_of_ok hrun]
        dsimp only
        rw [except_bind_of_ok hall, foundOf, ← hrefines.found, ← hrefines.elems]
        rfl
      · rw [helems, hrefines.elems]
        rfl

theorem allValid_append {elems : List Variable} {pre post : List Op}
    (h : AllValid elems (pre ++ post)) : AllValid elems pre ∧ AllValid (listOf elems pre) post := by
  induction pre generalizing elems with
  | nil => exact ⟨trivial, h⟩
  | cons op pre ih =>
      obtain ⟨hop, hrest⟩ := h
      obtain ⟨hpre, hpost⟩ := ih hrest
      exact ⟨⟨hop, hpre⟩, hpost⟩

theorem toList_new (junk : Nat → Variable) (max : Int) : (new junk max).toList = [] := rfl

/-- From any capacity on, an array does what the list does under any valid operations, and
it grows only when it is full, to a larger block. -/
theorem dyay_refines_list (junk : Nat → Variable) (max : Int) {ops : List Op}
    (hvalid : AllValid [] ops) :
    (∃ arr, runAll (new junk max) ops = .ok (arr, foundOf [] ops) ∧ arr.toList = listOf [] ops ∧
      arr.count ≤ arr.max) ∧
    ∀ pre op post, ops = pre ++ op :: post → ∃ arr arr' found,
      runAll (new junk max) pre = .ok (arr, foundOf [] pre) ∧ op.run arr = .ok (arr', found) ∧
        Refines arr op arr' found := by
  have hnew : (new junk max).count ≤ (new junk max).max := Nat.zero_le _
  refine ⟨runAll_refines hnew hvalid, ?_⟩
  rintro pre op post rfl
  obtain ⟨hpre, hop, -⟩ := allValid_append hvalid
  obtain ⟨arr, hrun, helems, hcount⟩ := runAll_refines hnew hpre
  rw [toList_new] at helems hrun
  rw [← helems] at hop
  obtain ⟨arr', found, hstep, hrefines⟩ := op_refines hcount hop
  exact ⟨arr, arr', found, hrun, hstep, hrefines⟩

end

/-- An array without a block gets one, and the second element goes in front. -/
theorem dyay_refines_list_two : ∃ arr,
    runAll (new (fun _ => .nil) 0) [.add (.int 1), .insert 0 (.int 2), .get 1] =
      .ok (arr, [.int 1]) ∧ arr.toList = [.int 2, .int 1] ∧ arr.count ≤ arr.max := by
  have hvalid : AllValid [] [.add (.int 1), .insert 0 (.int 2), .get 1] :=
    ⟨Nat.two_pow_pos 29, ⟨by simp [Op.onList], by decide, by decide⟩, ⟨by decide, by decide⟩,
      trivial⟩
  exact (dyay_refines_list (fun _ => .nil) 0 hvalid).1

end Dyay

end Ymd
