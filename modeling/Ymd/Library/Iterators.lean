import Ymd.Foundation.Enumeration
import Ymd.Pickle.Load

/-! # Iterators

The closures behind `range`, `rank` and `ranki`. The bound variables of a closure are
the fields of its iterator; a pointer into the block of an array or of a hash map
counts the slots in front of it.
-/

namespace Ymd

open Foundation

/-- `ITER_KEY`. -/
def iterKey : YmdInt := 0

/-- `ITER_VALUE`. -/
def iterValue : YmdInt := 1

/-- `ITER_KV`. -/
def iterKv : YmdInt := 2

inductive Iter
  | libxEnd
  | stepIter (i m s : YmdInt)
  | dyayIter (i m : Nat) (idx flag : YmdInt) (self : Addr)
  | hmapIter (i m : Nat) (flag : YmdInt) (self : Addr)
  | sklsIter (i : Option Nat) (flag : YmdInt) (self : Addr)
  deriving DecidableEq

/-! ## Calls of an iterator -/

/-- `ymd_int`. -/
def ymdInt (i : YmdInt) : VmM Unit := ymdPush (.int i)

/-- `*i` in the block of an array. -/
def elemAt (self : Addr) (i : Nat) : VmM Variable := do
  let elem ← check ((← get).heap.dyay self)
  match elem[i]? with
  | some v => return v
  | none => fault (.bounds "i")

/-- `ymd_dyay` with what `ymd_add` puts there. -/
def pushPair (k v : Variable) : VmM Unit := do
  ymdDyay
  ymdPush k
  ymdAdd
  ymdPush v
  ymdAdd

/-- `step_iter`; the counter wraps around. -/
def stepIter (i m s : YmdInt) : VmM (Int × Iter) := do
  let rv : Variable :=
    if (0 : YmdInt).slt s ∧ i.slt m then .int i
    else if s.slt 0 ∧ m.slt i then .int i
    else .nil
  ymdPush rv
  return (1, .stepIter (i + s) m s)

/-- `dyay_iter`. -/
def dyayIter (i m : Nat) (idx flag : YmdInt) (self : Addr) : VmM (Int × Iter) := do
  if m ≤ i then return (0, .dyayIter i m idx flag self)
  else if flag = iterKey then
    ymdInt idx
    return (1, .dyayIter (i + 1) m (idx + 1) flag self)
  else if flag = iterValue then
    ymdPush (← elemAt self i)
    return (1, .dyayIter (i + 1) m idx flag self)
  else if flag = iterKv then
    pushPair (.int idx) (← elemAt self i)
    return (1, .dyayIter (i + 1) m (idx + 1) flag self)
  else fault (.assertion "0")

/-- What `i` points to in the table of a hash map. -/
def kviAt (map : Hmap) (i : Nat) : Except Fault (Kvi (2 ^ map.shift)) :=
  if h : i < 2 ^ map.shift then pure (map.item ⟨i, h⟩) else throw (.bounds "i")

/-- `move2valid`, with `left` slots in front of the end. -/
def move2valid (map : Hmap) (m : Nat) : (left : Nat) → (i : Nat) → Except Fault Nat
  | 0, i => pure i
  | left + 1, i =>
      if i < m then do
        if (← kviAt map i).flag = .free then move2valid map m left (i + 1) else pure i
      else pure i

/-- The `switch` over the flag in `hmap_iter` and `skls_iter`. -/
def pushEntry (flag : YmdInt) (k v : Variable) : VmM Unit :=
  if flag = iterKey then ymdPush k
  else if flag = iterValue then ymdPush v
  else if flag = iterKv then pushPair k v
  else fault (.assertion "0")

/-- `hmap_iter`. -/
def hmapIter (i m : Nat) (flag : YmdInt) (self : Addr) : VmM (Int × Iter) := do
  if m ≤ i then
    ymdPush .nil
    return (1, .hmapIter i m flag self)
  else
    let map ← check ((← get).heap.hmap self)
    let kvi ← check (kviAt map i)
    pushEntry flag kvi.k kvi.v
    let next ← check (move2valid map m (m - (i + 1)) (i + 1))
    return (1, .hmapIter next m flag self)

/-- `skls_iter`. -/
def sklsIter (i : Option Nat) (flag : YmdInt) (self : Addr) : VmM (Int × Iter) := do
  match i with
  | none =>
      ymdPush .nil
      return (1, .sklsIter none flag self)
  | some x =>
      let list ← check ((← get).heap.skls self)
      pushEntry flag (list.node x).k (list.node x).v
      return (1, .sklsIter (← check (list.fwdAt x 0)) flag self)

/-- A call of the closure: the number of values it returns, and its bound variables
behind it. -/
def Iter.call : Iter → VmM (Int × Iter)
  | .libxEnd => return (0, .libxEnd)
  | .stepIter i m s => Ymd.stepIter i m s
  | .dyayIter i m idx flag self => Ymd.dyayIter i m idx flag self
  | .hmapIter i m flag self => Ymd.hmapIter i m flag self
  | .sklsIter i flag self => Ymd.sklsIter i flag self

/-! ## The functions that make them -/

/-- `new_step_iter`. -/
def newStepIter (i m s : YmdInt) : Iter :=
  if s = 0 ∨ (m.slt i ∧ (0 : YmdInt).slt s) ∨ (i.slt m ∧ s.slt 0) ∨ i = m then .libxEnd
  else .stepIter i m s

/-- `new_contain_iter`. -/
def newContainIter (obj : Variable) (flag : YmdInt) : VmM Iter :=
  match obj with
  | .dyay o => do
      let elem ← check ((← get).heap.dyay o)
      return .dyayIter 0 elem.length 0 flag o
  | .hmap o => do
      let map ← check ((← get).heap.hmap o)
      let m := 2 ^ map.shift
      let i ← check (move2valid map m m 0)
      if m ≤ i then return .libxEnd else return .hmapIter i m flag o
  | .skls o => do
      let list ← check ((← get).heap.skls o)
      match ← check (list.fwdAt Skls.head 0) with
      | none => return .libxEnd
      | some x => return .sklsIter (some x) flag o
  | _ => panic "Type is not be supported"

/-- `libx_range`. -/
def libxRange (argv : List Variable) : VmM Iter := do
  match argv with
  | [] => panic "Bad argument, need > 1"
  | [obj] => newContainIter obj iterValue
  | [a, b] => do
      let i ← lift (intOf a)
      let m ← lift (intOf b)
      return newStepIter i m (if m.slt i then -1 else 1)
  | [a, b, c] => do
      return newStepIter (← lift (intOf a)) (← lift (intOf b)) (← lift (intOf c))
  | _ => panic "Bad arguments, need 1 to 3"

/-- `ymd_argv_get(l, 0)` of `libx_rank` and `libx_ranki`. -/
def argvFirst (argv : List Variable) : VmM Variable :=
  match argv with
  | [] => panic "Bad argument, need > 1"
  | obj :: _ => return obj

/-- `libx_rank`. -/
def libxRank (argv : List Variable) : VmM Iter := do newContainIter (← argvFirst argv) iterKv

/-- `libx_ranki`. -/
def libxRanki (argv : List Variable) : VmM Iter := do newContainIter (← argvFirst argv) iterKey

/-! ## What a call answers -/

/-- The value that a call leaves, or the two values of the array that it leaves. -/
inductive Answer
  | one (v : Variable)
  | pair (k v : Variable)

/-- The call that began with `l` and returned `rv` values left the answer on the
stack; without one it left no value or nil. -/
def Answer.Left (l : Ctx) (rv : Int) (l' : Ctx) : Option Answer → Prop
  | none => (rv = 0 ∧ l' = l) ∨ (rv = 1 ∧ l' = { l with stk := .nil :: l.stk })
  | some (.one v) => rv = 1 ∧ l' = { l with stk := v :: l.stk }
  | some (.pair k v) => rv = 1 ∧ ∃ o heap, l.heap.obj o = none ∧ heap.dyay o = .ok [k, v] ∧
      (∀ a ≠ o, heap.obj a = l.heap.obj a) ∧ l' = { l with stk := .dyay o :: l.stk, heap := heap }

/-- A call of the iterator, its answer, and the iterator behind it. -/
def Iter.Calls (it : Iter) (l : Ctx) (answer : Option Answer) (it' : Iter) : Prop :=
  ∃ rv l', it.call l = .ok (rv, it') l' ∧ Answer.Left l rv l' answer

/-- There is room on the stack for what a call pushes. -/
def Ctx.Room (l : Ctx) : Prop := l.stk.length + 2 ≤ maxStack

theorem libxEnd_enumerates (ls : List Ctx) : Enumerates Iter.Calls .libxEnd [] ls :=
  enumerates_nil (fun l _ => ⟨0, l, rfl, .inl ⟨rfl, rfl⟩⟩) (fun _ _ => trivial : ∀ _ ∈ ls, True)

end Ymd
