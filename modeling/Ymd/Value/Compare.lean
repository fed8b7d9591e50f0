import Ymd.Machine.Heap

/-! # Hashing, equality and order of values

The generic functions of `value.c` and the `hash_`, `_equals` and `_compare`
functions of the containers. Containers hold values, so the functions call
each other; `valueOps depth` is what they do with `depth` nested calls. An
assertion that is reached for functions and managed data is a fault.
-/

namespace Ymd

/-- `safe_compare`. -/
def safeCompare {α : Type} [LT α] [DecidableLT α] (l r : α) : Int :=
  if l < r then -1 else if r < l then 1 else 0

/-- `kz_compare`. -/
def kzCompare : Bytes → Bytes → Int
  | [], [] => 0
  | [], _ :: _ => -1
  | _ :: _, [] => 1
  | c1 :: z1, c2 :: z2 => if c1 < c2 then -1 else if c2 < c1 then 1 else kzCompare z1 z2

/-- `rv += c` on an `int`. -/
def addInt (rv c : Int) : Int := (rv + c).bmod (2 ^ 32)

section

variable (ops : KeyOps)

/-- The loop of `hash_dyay`, from element `i - 1` down. -/
def hashElems (elem : List Variable) : Nat → BitVec 64 → Except Fault (BitVec 64)
  | 0, h => pure h
  | i + 1, h => do
      let hi ← ops.hash (elem.getD i .nil)
      hashElems elem i (if i % 2 = 1 then h ^^^ hi else h + hi)

/-- `hash_dyay`. -/
def hashDyay (elem : List Variable) : Except Fault (BitVec 64) :=
  let count := BitVec.ofNat 32 elem.length
  hashElems ops elem elem.length ((count * count).signExtend 64)

/-- The loops of `hash_hmap` and `hash_skls` over the entries. -/
def hashEntries : List (Variable × Variable) → BitVec 64 → Except Fault (BitVec 64)
  | [], h => pure h
  | (k, v) :: entries, h => do
      let hk ← ops.hash k
      let hv ← ops.hash v
      hashEntries entries ((h + hk) ^^^ hv)

/-- The entries of a map in the order of the loops `while (i--)`. -/
def Hmap.entries (map : Hmap) : List (Variable × Variable) :=
  (List.finRange (2 ^ map.shift)).reverse.filterMap fun i =>
    if (map.item i).flag = .free then none else some ((map.item i).k, (map.item i).v)

/-- The pairs of a map in the order of the loops from `initial` on. -/
def Hmap.slots (map : Hmap) : List (Variable × Variable) :=
  (List.finRange (2 ^ map.shift)).filterMap fun i =>
    if (map.item i).flag = .free then none else some ((map.item i).k, (map.item i).v)

/-- `hash_mand`. -/
def hashMand (m : Mand) : BitVec 64 := m.final / 8 ^^^ kzHash m.land

/-- `hash`. -/
def hashWith (heap : Heap) (v : Variable) : Except Fault (BitVec 64) :=
  match v with
  | .nil => pure 0
  | .int _ | .bool _ | .kstr _ | .ext _ => pure (scalarHash v)
  | .dyay o => do hashDyay ops (← heap.dyay o)
  | .hmap o => do hashEntries ops (← heap.hmap o).entries 0
  | .skls o => do hashEntries ops (← (← heap.skls o).traverse) 0
  | .mand o => do pure (hashMand (← heap.mand o))
  | .func _ => throw (.assertion "0")

/-- The loop of `dyay_equals`, from the last element down. -/
def equalElems : List (Variable × Variable) → Except Fault Bool
  | [] => pure true
  | (l, r) :: rest => do
      if ← ops.equals l r then equalElems rest else pure false

/-- `dyay_equals` on two arrays. -/
def dyayEquals (arr rhs : List Variable) : Except Fault Bool :=
  if arr.length = rhs.length then equalElems ops (arr.zip rhs).reverse else pure false

/-- The loops of `hmap_equals` and `skls_equals`: every value is the one found
on the other side. -/
def equalEntries (find : Variable → Except Fault Variable) :
    List (Variable × Variable) → Except Fault Bool
  | [] => pure true
  | (k, v) :: rest => do
      if ← ops.equals v (← find k) then equalEntries find rest else pure false

/-- `hmap_equals` on two maps. -/
def hmapEquals (map rhs : Hmap) : Except Fault Bool := do
  if map.shift ≠ rhs.shift then pure false
  else
    let same ← equalEntries ops (Hmap.find ops rhs) map.entries
    pure (same && map.entries.length == rhs.entries.length)

/-- `skls_equals` on two lists. -/
def sklsEquals (list rhs : Skls) : Except Fault Bool := do
  let rhsEntries ← rhs.traverse
  let entries ← list.traverse
  let same ← equalEntries ops (Skls.find ops rhs) entries
  pure (same && entries.length == rhsEntries.length)

/-- `equals`. The operands are values, so two variables at one address are not
told apart from two variables with one content. -/
def equalsWith (heap : Heap) (lhs rhs : Variable) : Except Fault Bool :=
  if lhs.type ≠ rhs.type then pure false
  else match lhs, rhs with
    | .nil, _ => pure true
    | .dyay o, .dyay p =>
        if o = p then pure true else do dyayEquals ops (← heap.dyay o) (← heap.dyay p)
    | .hmap o, .hmap p =>
        if o = p then pure true else do hmapEquals ops (← heap.hmap o) (← heap.hmap p)
    | .skls o, .skls p =>
        if o = p then pure true else do sklsEquals ops (← heap.skls o) (← heap.skls p)
    | .mand _, _ => throw (.assertion "0")
    | l, r => pure (decide (l = r))

/-- `dyay_compare` on two arrays. -/
def dyayCompare : List Variable → List Variable → Except Fault Int
  | [], [] => pure 0
  | [], _ :: _ => pure (-1)
  | _ :: _, [] => pure 1
  | l :: arr, r :: rhs => do
      if (← ops.compare l r) < 0 then pure (-1)
      else if 0 < (← ops.compare l r) then pure 1
      else dyayCompare arr rhs

/-- The loops of `hmap_compare` and `skls_compare`. -/
def compareEntries (find : Variable → Except Fault Variable) :
    List (Variable × Variable) → Int → Except Fault Int
  | [], rv => pure rv
  | (k, v) :: rest, rv => do
      let c ← ops.compare v (← find k)
      compareEntries find rest (addInt rv c)

/-- `compare`. -/
def compareWith (heap : Heap) (lhs rhs : Variable) : Except Fault Int :=
  if lhs.type ≠ rhs.type then pure (safeCompare lhs.type rhs.type)
  else match lhs, rhs with
    | .nil, _ => pure 0
    | .int l, .int r => pure (safeCompare l.toInt r.toInt)
    | .bool l, .bool r => pure (safeCompare l.toInt r.toInt)
    | .kstr l, .kstr r => pure (kzCompare l r)
    | .ext _, _ => pure 0
    | .dyay o, .dyay p =>
        if o = p then pure 0 else do dyayCompare ops (← heap.dyay o) (← heap.dyay p)
    | .hmap o, .hmap p =>
        if o = p then pure 0
        else do compareEntries ops (Hmap.find ops (← heap.hmap p)) (← heap.hmap o).entries 0
    | .skls o, .skls p =>
        if o = p then pure 0
        else do compareEntries ops (Skls.find ops (← heap.skls p)) (← (← heap.skls o).traverse) 0
    | _, _ => throw (.assertion "0")

end

/-- `hash`, `equals` and `compare` with at most `depth` nested calls. -/
def valueOps (heap : Heap) : (depth : Nat) → KeyOps
  | 0 => ⟨fun _ => throw .nesting, fun _ _ => throw .nesting, fun _ _ => throw .nesting⟩
  | depth + 1 =>
      ⟨hashWith (valueOps heap depth) heap, equalsWith (valueOps heap depth) heap,
        compareWith (valueOps heap depth) heap⟩

end Ymd
