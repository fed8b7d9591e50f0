import Ymd.Value.Variable
import Mathlib.Logic.Function.Basic

/-! # The skip list

The model of `skip_list.c`. Nodes are numbered in allocation order, the head is
node 0. The level of a new node is an argument: the source draws it from
`rand()`. Reading `fwd[i]` of a node with `n <= i` is a fault.
-/

namespace Ymd

/-- `struct sknd`; `fwd i` is `fwd[i]` for `i < n`. -/
structure Sknd where
  k : Variable
  v : Variable
  n : Nat
  fwd : Nat → Option Nat

/-- `struct skls`, with the memory of its nodes and the number of nodes in it. -/
structure Skls where
  count : Nat
  lv : Nat
  node : Nat → Sknd
  size : Nat

/-- A list together with a pointer to one of its nodes. -/
structure SkEntry where
  list : Skls
  node : Nat

/-- The array `update` of `skindex`. -/
abbrev Update := Nat → Option Nat

namespace Skls

/-- `MAX_LEVEL`. -/
def maxLevel : Nat := 16

/-- The loop of `randlv` at level `lvl` over the draws of `rand_range(100)`. -/
def climb : List Nat → Nat → Nat
  | [], lvl => lvl
  | draw :: draws, lvl => if draw < 50 ∧ lvl < maxLevel then climb draws (lvl + 1) else lvl

/-- `randlv`. -/
def randlv (draws : List Nat) : Nat := climb draws 1

/-- `mknode`. -/
def mknode (lv : Nat) : Sknd := ⟨.nil, .nil, lv, fun _ => none⟩

/-- `skls_new`. -/
def new : Skls := ⟨0, 0, fun _ => mknode maxLevel, 1⟩

/-- `list->head`. -/
def head : Nat := 0

/-- `x->fwd[i]`. -/
def fwdAt (list : Skls) (x i : Nat) : Except Fault (Option Nat) :=
  if i < (list.node x).n then pure ((list.node x).fwd i) else throw (.bounds "fwd")

/-- `x->fwd[i] = target`. -/
def setFwd (list : Skls) (x i : Nat) (target : Option Nat) : Except Fault Skls :=
  if i < (list.node x).n then
    let node := { list.node x with fwd := Function.update (list.node x).fwd i target }
    pure { list with node := Function.update list.node x node }
  else throw (.bounds "fwd")

/-- `update[i]`, dereferenced. -/
def updateAt (update : Update) (i : Nat) : Except Fault Nat :=
  match update i with
  | some x => if i < maxLevel then pure x else throw (.bounds "update")
  | none => throw (.bounds "update")

section

variable (ops : KeyOps) (list : Skls) (key : Variable)

/-- The inner loop of the search, along level `i`. -/
def walk (i : Nat) : Nat → Nat → Except Fault Nat
  | 0, _ => throw .looping
  | fuel + 1, x => do
      match ← list.fwdAt x i with
      | none => pure x
      | some y =>
          let c ← ops.compare (list.node y).k key
          if c < 0 then walk i fuel y else pure x

/-- The outer loop of `skindex`, from level `i - 1` down to 0. -/
def descend : Nat → Nat → Update → Except Fault (Nat × Update)
  | 0, x, update => pure (x, update)
  | i + 1, x, update => do
      let x ← walk ops list key i list.size x
      descend i x (Function.update update i (some x))

/-- The node the search stops at on level 0, `x && equals(&x->k, key)`. -/
def hit (x : Option Nat) : Except Fault (Option Nat) :=
  match x with
  | none => pure none
  | some x => do
      let eq ← ops.equals (list.node x).k key
      pure (if eq then some x else none)

/-- `skfind`: the descent of `skindex` without `update`. -/
def find : Except Fault Variable := do
  let (x, _) ← descend ops list key list.lv head (fun _ => none)
  let found ← hit ops list key (← list.fwdAt x 0)
  match found with
  | some x => pure (list.node x).v
  | none => pure .nil

end

/-- One round of the linking loop of `append`. -/
def linkLevel (x : Nat) (update : Update) (list : Skls) (i : Nat) : Except Fault Skls := do
  let u ← updateAt update i
  let list ← list.setFwd x i (← list.fwdAt u i)
  list.setFwd u i (some x)

/-- The new node of `append`, counted but not linked. -/
def alloc (list : Skls) (lvl : Nat) : Skls where
  count := list.count + 1
  lv := max list.lv lvl
  node := Function.update list.node list.size (mknode lvl)
  size := list.size + 1

/-- `append` with `lvl = randlv()`. -/
def append (list : Skls) (update : Update) (lvl : Nat) : Except Fault SkEntry := do
  let update : Update := fun i => if list.lv ≤ i ∧ i < lvl then some head else update i
  let linked ← (List.range lvl).foldlM (linkLevel list.size update) (list.alloc lvl)
  pure ⟨linked, list.size⟩

section

variable (ops : KeyOps)

/-- `skindex`. -/
def index (list : Skls) (key : Variable) (lvl : Nat) : Except Fault SkEntry := do
  let (x, update) ← descend ops list key list.lv head (fun _ => none)
  let found ← hit ops list key (← list.fwdAt x 0)
  match found with
  | some x => pure ⟨list, x⟩
  | none => append list update lvl

/-- `skls_put`; the result points to the value of the key's node. -/
def put (list : Skls) (key : Variable) (lvl : Nat) : Except Fault SkEntry := do
  if key.isNil then throw (.assertion "!is_nil(key)")
  let x ← index ops list key lvl
  let node := { x.list.node x.node with k := key }
  pure ⟨{ x.list with node := Function.update x.list.node x.node node }, x.node⟩

/-- `skls_get`. -/
def get (list : Skls) (key : Variable) : Except Fault Variable := do
  if key.isNil then throw (.assertion "!is_nil(key)")
  find ops list key

end

/-- The list after `*p = v` through a pointer to the value of a node. -/
def store (x : SkEntry) (v : Variable) : Skls :=
  { x.list with node := Function.update x.list.node x.node { x.list.node x.node with v := v } }

/-- `*skls_put(list, k) = v`. -/
def putStore (ops : KeyOps) (list : Skls) (k v : Variable) (lvl : Nat) : Except Fault Skls := do
  let x ← put ops list k lvl
  pure (store x v)

/-- A sequence of `*skls_put(list, k) = v`, each with the level `randlv` would
return in it. -/
def putAll (ops : KeyOps) : Skls → List ((Variable × Variable) × Nat) → Except Fault Skls
  | list, [] => pure list
  | list, ((k, v), lvl) :: rest => do
      let list ← putStore ops list k v lvl
      putAll ops list rest

/-- The loop over level 0 that `skls_count` and the iterators run. -/
def traverseFrom (list : Skls) : Nat → Option Nat → Except Fault (List (Variable × Variable))
  | _, none => pure []
  | 0, some _ => throw .looping
  | fuel + 1, some x => do
      let rest ← traverseFrom list fuel (← list.fwdAt x 0)
      pure (((list.node x).k, (list.node x).v) :: rest)

/-- The entries in the order of level 0. -/
def traverse (list : Skls) : Except Fault (List (Variable × Variable)) := do
  traverseFrom list list.size (← list.fwdAt head 0)

end Skls

end Ymd
