import Ymd.Pickle.Load
import Ymd.Table.Occupied

/-! # Containers in the hands of a script

The functions of `libc.c` that store into containers, next to the instructions that do.
-/

namespace Ymd

/-! ## `libc.c` -/

/-- `dyay_of`. -/
def dyayOf : Variable → Partial Addr
  | .dyay o => .ok o
  | _ => .panic "Variable is not `dyay`"

theorem dyayOf_ok {v : Variable} {o : Addr} (h : dyayOf v = .ok o) : v = .dyay o := by
  cases v <;> cases h
  rfl

/-- `ymd_argv_chk`, on the arguments of the running function. -/
def ymdArgvChk (argv : List Variable) (need : Nat) : VmM Unit :=
  if argv.length < need then
    throw (.panic (lit "Bad argument, need > " ++ lit (toString need)))
  else pure ()

/-- `ymd_argv_get`. -/
def ymdArgvGet (argv : List Variable) (i : Nat) : VmM Variable := do
  ymdArgvChk argv (i + 1)
  return argv.getD i .nil

/-- `dyay_insert`, and the store through its result. -/
def dyayInsert (o : Addr) (i : YmdInt) (elem : Variable) : VmM Unit := do
  let arr ← check ((← get).heap.dyay o)
  if i.slt 0 ∨ (arr.length : Int) ≤ i.toInt then fault (.assertion "i < arr->count")
  else storeObj o (.dyay (arr.insertIdx i.toNat elem))

/-- `dyay_add`, and the store through its result. -/
def dyayAdd (o : Addr) (elem : Variable) : VmM Unit := do
  let arr ← check ((← get).heap.dyay o)
  storeObj o (.dyay (arr ++ [elem]))

/-- `do_insert`. -/
def doInsert (argv : List Variable) (self : Addr) : VmM Unit := do
  ymdArgvChk argv 2
  match argv.length with
  | 2 =>
      let elem ← ymdArgvGet argv 1
      if elem.isNil then panic "Element of array can not be `nil`"
      ymdPush (.dyay self)
      ymdPush elem
      ymdAdd
      ymdPop 1
  | 3 =>
      let i ← lift (intOf (← ymdArgvGet argv 1))
      let arr ← check ((← get).heap.dyay self)
      if i.slt 0 ∨ (arr.length : Int) ≤ i.toInt then
        throw (.panic (lit "array index out of range, " ++ lit (toString i.toInt)))
      let elem ← ymdArgvGet argv 2
      if elem.isNil then panic "Element in array can not be `nil`"
      dyayInsert self i elem
  | n => throw (.panic (lit "Too many arguments, " ++ lit (toString n)))

/-- What the functions report about a value that is no container. -/
def notSupported {α : Type} (v : Variable) : VmM α :=
  throw (.panic (lit "This type: `" ++ lit (typeofName v) ++ lit "` is not be support"))

section

variable (env : Env)

/-- `checked_put`. -/
def checkedPut (arg0 k v : Variable) : VmM Unit := do
  checkPair k v
  match arg0 with
  | .hmap o => do
      let x ← hmapPut env o k
      storeObj o (.hmap (x.store v))
  | .skls o => do
      let x ← sklsPut env o k
      storeObj o (.skls (Skls.store x v))
  | _ => notSupported arg0

/-- `libx_insert`. -/
def libxInsert (argv : List Variable) : VmM Unit := do
  match ← ymdArgvGet argv 0 with
  | .dyay o => doInsert argv o
  | arg0 =>
      let k ← ymdArgvGet argv 1
      let v ← ymdArgvGet argv 2
      checkedPut env arg0 k v

/-- The loop of `libx_append` on an array. -/
def appendElems (o : Addr) : List Variable → VmM Unit
  | [] => pure ()
  | elem :: rest => do
      dyayAdd o elem
      appendElems o rest

/-- `pair->elem[0]` and `pair->elem[1]` of an argument, whatever its count. An array
without elements has no block; the block behind a single element that was added to an
array is zeroed, which reads as `nil`. -/
def pairOf (arg : Variable) : VmM (Variable × Variable) := do
  let o ← lift (dyayOf arg)
  match ← check ((← get).heap.dyay o) with
  | k :: v :: _ => return (k, v)
  | [k] => return (k, .nil)
  | [] => fault (.bounds "pair->elem")

/-- The loop of `libx_append` on a map. -/
def appendPairs (put : (k v : Variable) → VmM Unit) : List Variable → VmM Unit
  | [] => pure ()
  | arg :: rest => do
      let (k, v) ← pairOf arg
      put k v
      appendPairs put rest

/-- `libx_append`. -/
def libxAppend (argv : List Variable) : VmM Unit := do
  match ← ymdArgvGet argv 0 with
  | .dyay o => do
      ymdArgvChk argv 2
      appendElems o (argv.drop 1)
  | .hmap o => do
      ymdArgvChk argv 2
      appendPairs (fun k v => do
        let x ← hmapPut env o k
        storeObj o (.hmap (x.store v))) (argv.drop 1)
  | .skls o => do
      ymdArgvChk argv 2
      appendPairs (fun k v => do
        let x ← sklsPut env o k
        storeObj o (.skls (Skls.store x v))) (argv.drop 1)
  | arg0 => notSupported arg0

end

end Ymd
