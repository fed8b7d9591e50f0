import Ymd.Value.Variable
import Mathlib.Logic.Function.Basic
import Mathlib.Data.List.FinRange

/-! # The hash map

The model of `hash_map.c`. A table of `1 << shift` slots holds the collision
chains inside itself, so a pointer to a `struct kvi` is a slot number and can
not leave the table. Loops along `next` carry the number of slots as fuel, and
running out of it is a fault of its own.
-/

namespace Ymd

/-- `KVI_FREE`, `KVI_SLOT` and `KVI_NODE`. -/
inductive KviFlag
  | free
  | slot
  | node
  deriving DecidableEq, Repr

/-- `struct kvi` in a table of `n` slots. -/
structure Kvi (n : Nat) where
  next : Option (Fin n)
  hash : BitVec 64
  k : Variable
  v : Variable
  flag : KviFlag
  deriving DecidableEq, Repr

/-- What `mm_zalloc` leaves in a slot. -/
def Kvi.zero {n : Nat} : Kvi n := ⟨none, 0, .nil, .nil, .free⟩

/-- The slots of a table. -/
abbrev Items (shift : Nat) := Fin (2 ^ shift) → Kvi (2 ^ shift)

/-- `struct hmap`; the pointer `free` is the slot the search for a free slot
starts from. -/
structure Hmap where
  shift : Nat
  item : Items shift
  free : Fin (2 ^ shift)

/-- A map together with a pointer to one of its entries. -/
structure Entry where
  map : Hmap
  slot : Fin (2 ^ map.shift)

namespace Entry

/-- The key in the entry. -/
def key (e : Entry) : Variable := (e.map.item e.slot).k

/-- The value the entry points to. -/
def value (e : Entry) : Variable := (e.map.item e.slot).v

/-- `x->k = *key`. -/
def setKey (e : Entry) (key : Variable) : Entry :=
  ⟨{ e.map with
      item := Function.update e.map.item e.slot { e.map.item e.slot with k := key } }, e.slot⟩

/-- The map after `*p = v` through the pointer to the entry's value. -/
def store (e : Entry) (v : Variable) : Hmap :=
  { e.map with item := Function.update e.map.item e.slot { e.map.item e.slot with v := v } }

end Entry

namespace Hmap

/-- `1 << i` in a 32-bit `int`. -/
def shl1 (i : Nat) : Int := ((1 : BitVec 32) <<< i).toInt

/-- `log2x`: the first shift that exceeds `n`. -/
def log2x (n : Int) : Except Fault Nat :=
  match (List.range 32).find? (fun i => decide (n < shl1 i)) with
  | some i => pure i
  | none => throw (.assertion "0")

/-- `position`: the home slot of a hash value. -/
def position (shift : Nat) (h : BitVec 64) : Fin (2 ^ shift) :=
  ⟨((h - 1) ||| 1).toNat % 2 ^ shift, Nat.mod_lt _ (Nat.two_pow_pos shift)⟩

/-- The map over freshly zeroed slots, `free` at the last one. -/
def zalloc (shift : Nat) : Hmap where
  shift := shift
  item := fun _ => Kvi.zero
  free := ⟨2 ^ shift - 1, Nat.sub_lt (Nat.two_pow_pos shift) Nat.one_pos⟩

/-- `hmap_new`. -/
def new (count : Int) : Except Fault Hmap := do
  let shift ← if count ≤ 0 then pure 5 else log2x count
  if 0 < shift then pure (zalloc shift) else throw (.assertion "shift > 0")

/-- The loop of `alloc_free`, downwards from slot `i`; slot 0 is never taken. -/
def allocFrom {n : Nat} (item : Fin n → Kvi n) : (i : Nat) → i < n → Option (Fin n)
  | 0, _ => none
  | i + 1, hi =>
      if (item ⟨i + 1, hi⟩).flag = .free then some ⟨i + 1, hi⟩
      else allocFrom item i (Nat.lt_of_succ_lt hi)

/-- `alloc_free`. -/
def allocFree (map : Hmap) : Option (Fin (2 ^ map.shift)) :=
  allocFrom map.item map.free map.free.isLt

section

variable (ops : KeyOps)

/-- `i->hash == h && equals(&i->k, key)`. -/
def hits {n : Nat} (i : Kvi n) (key : Variable) (h : BitVec 64) : Except Fault Bool :=
  if i.hash = h then ops.equals i.k key else pure false

/-- The loop over a collision chain shared by `hfind` and `index_if_head`: the
last slot visited, and whether the key was found in it. -/
def search {n : Nat} (item : Fin n → Kvi n) (key : Variable) (h : BitVec 64) :
    Nat → Fin n → Except Fault (Fin n × Bool)
  | 0, _ => throw .looping
  | fuel + 1, i => do
      let hit ← hits ops (item i) key h
      if hit then pure (i, true)
      else match (item i).next with
        | none => pure (i, false)
        | some j => search item key h fuel j

/-- `hfind`; `knil` when the key is not there. -/
def find (map : Hmap) (key : Variable) : Except Fault Variable := do
  let h ← ops.hash key
  let slot := position map.shift h
  match (map.item slot).flag with
  | .slot => do
      let (i, found) ← search ops map.item key h (2 ^ map.shift) slot
      pure (if found then (map.item i).v else .nil)
  | .free => pure .nil
  | .node => pure .nil

/-- What the indexing functions do when no slot is free. -/
abbrev Grow := Hmap → Variable → Except Fault Entry

variable (grow : Grow)

/-- `index_if_head`: the home slot heads its own chain. -/
def indexIfHead (map : Hmap) (key : Variable) (slot : Fin (2 ^ map.shift)) (h : BitVec 64) :
    Except Fault Entry := do
  let (pos, found) ← search ops map.item key h (2 ^ map.shift) slot
  if found then pure ⟨map, pos⟩
  else match map.allocFree with
    | none => grow map key
    | some fnd =>
        if (map.item pos).next.isSome then throw (.assertion "!pos->next")
        else
          let node : Kvi (2 ^ map.shift) :=
            { map.item fnd with hash := h, flag := .node, next := (map.item pos).next }
          let item := Function.update map.item fnd node
          let item := Function.update item pos { item pos with next := some fnd }
          pure ⟨{ map with item := item }, fnd⟩

/-- The loop of `index_if_node` for the slot whose successor is `slot`. -/
def prevOf {n : Nat} (item : Fin n → Kvi n) (slot : Fin n) : Nat → Fin n → Except Fault (Fin n)
  | 0, _ => throw .looping
  | fuel + 1, prev =>
      if (item prev).next = some slot then pure prev
      else match (item prev).next with
        | none => throw (.assertion "prev")
        | some next => prevOf item slot fuel next

/-- `index_if_node`: the home slot holds a node of another chain, which moves
to a free slot. The value of the slot is left as it is. -/
def indexIfNode (map : Hmap) (key : Variable) (slot : Fin (2 ^ map.shift)) (h : BitVec 64) :
    Except Fault Entry :=
  match map.allocFree with
  | none => grow map key
  | some fnd => do
      let slotHash ← ops.hash (map.item slot).k
      let prev ← prevOf map.item slot (2 ^ map.shift) (position map.shift slotHash)
      let node : Kvi (2 ^ map.shift) :=
        { hash := slotHash, flag := .node, k := (map.item slot).k,
          next := (map.item slot).next, v := (map.item slot).v }
      let item := Function.update map.item fnd node
      let item := Function.update item prev { item prev with next := some fnd }
      let item := Function.update item slot
        { item slot with hash := h, flag := .slot, next := none }
      pure ⟨{ map with item := item }, slot⟩

/-- `hindex`, with what to do on a full table as a parameter. -/
def indexWith (map : Hmap) (key : Variable) : Except Fault Entry := do
  let h ← ops.hash key
  let slot := position map.shift h
  match (map.item slot).flag with
  | .free =>
      let head : Kvi (2 ^ map.shift) := { map.item slot with flag := .slot, hash := h }
      pure ⟨{ map with item := Function.update map.item slot head }, slot⟩
  | .slot => indexIfHead ops grow map key slot h
  | .node => indexIfNode ops grow map key slot h

/-- `hmap_put`; the result points to the value of the key's entry. -/
def putWith (map : Hmap) (key : Variable) : Except Fault Entry := do
  if key.isNil then throw (.assertion "!is_nil(key)")
  let x ← indexWith ops grow map key
  pure (x.setKey key)

/-- The loop of `resize` that puts the old entries into the new slots. -/
def rehash {shift : Nat} (bak : Items shift) : List (Fin (2 ^ shift)) → Hmap → Except Fault Hmap
  | [], map => pure map
  | i :: rest, map =>
      if (bak i).flag = .free then rehash bak rest map
      else do
        let pv ← putWith ops grow map (bak i).k
        rehash bak rest (pv.store (bak i).v)

/-- `resize`. -/
def resizeWith (map : Hmap) (shift : Nat) : Except Fault Hmap :=
  if map.shift < shift then
    rehash ops grow map.item (if map.shift = 0 then [] else List.finRange (2 ^ map.shift))
      (zalloc shift)
  else throw (.assertion "shift > map->shift")

end

section

variable (ops : KeyOps)

/-- `resize(map, map->shift + 1)` and the second `hindex` behind it. `depth`
bounds how many calls of `resize` may be active at once. -/
def grow : (depth : Nat) → Grow
  | 0 => fun _ _ => throw .nesting
  | depth + 1 => fun map key => do
      let map ← resizeWith ops (grow depth) map (map.shift + 1)
      indexWith ops (grow depth) map key

/-- `hindex`. -/
def index (depth : Nat) : Hmap → Variable → Except Fault Entry := indexWith ops (grow ops depth)

/-- `hmap_put`. -/
def put (depth : Nat) : Hmap → Variable → Except Fault Entry := putWith ops (grow ops depth)

/-- `hmap_get`. -/
def get (map : Hmap) (key : Variable) : Except Fault Variable := do
  if key.isNil then throw (.assertion "!is_nil(key)")
  find ops map key

/-- `*hmap_put(map, k) = v`. -/
def putStore (depth : Nat) (map : Hmap) (k v : Variable) : Except Fault Hmap := do
  let x ← put ops depth map k
  pure (x.store v)

/-- A sequence of `*hmap_put(map, k) = v`. -/
def putAll (depth : Nat) : Hmap → List (Variable × Variable) → Except Fault Hmap
  | map, [] => pure map
  | map, (k, v) :: rest => do
      let map ← putStore ops depth map k v
      putAll depth map rest

end

end Hmap

end Ymd
