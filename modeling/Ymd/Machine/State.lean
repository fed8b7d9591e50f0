import Ymd.Foundation.Outcome
import Ymd.Machine.Operators
import Ymd.Value.Compare

/-! # The state of the machine

The model of `struct ymd_context`, the operand stack functions of `state.h` and
the access to containers in `state.c`. The C stack of calls is kept with the
chain of call infos: each one knows what waits for its return.
-/

namespace Ymd

/-- Who called: an instruction of `vm_run` that adjusts the stack to a number
of results, a native function through `ymd_call` or through `ymd_pcall`, or the
host through `ymd_xcall`. -/
inductive Kont
  | exec (adjust : Nat)
  | native
  | pcall
  | root
  deriving DecidableEq

/-- `struct call_info`; `loc` is an index into the local area. `args` is what
the call was made with, which the source does not keep. -/
structure CallInfo where
  run : Addr
  pc : Nat
  loc : Nat
  kont : Kont
  args : List Variable
  deriving DecidableEq

/-- `struct call_jmpbuf`; `chain` is the number of call infos that stay when it
is jumped to. -/
structure Jmpbuf where
  level : Nat
  chain : Nat
  deriving DecidableEq

/-- `struct ymd_context` and what it reaches of the machine. `info` begins with
the running function, `stk` with the top. `rv` is what the last call of a native
function or of the host returned, `levels` gives what `randlv` returns from now
on. -/
structure Ctx where
  info : List CallInfo
  loc : Nat → Variable
  stk : List Variable
  jpt : List Jmpbuf
  rv : Int
  heap : Heap
  global : Addr
  levels : Nat → Nat

/-- `ymd_init` before it defines symbols: there is the global map only. -/
def Ctx.initial (levels : Nat → Nat) : Ctx where
  info := []
  loc := fun _ => .nil
  stk := []
  jpt := []
  rv := 0
  heap := (Heap.empty.alloc (.hmap (Hmap.zalloc 5))).1
  global := 0
  levels := levels

abbrev VmM := EStateM Stop Ctx

/-- What the machine takes from outside: the depth of the C stack for the
recursion over values, and the outcome of `regcomp` and `regexec`. -/
structure Env where
  depth : Nat
  regex : Bytes → Bytes → Except Bytes Bool

def panic {α : Type} (msg : String) : VmM α := throw (.panic (lit msg))

def fault {α : Type} (f : Fault) : VmM α := throw (.fault f)

/-- A computation on values inside the machine. -/
def lift {α : Type} : Partial α → VmM α
  | .ok a => pure a
  | .error stop => throw stop

/-- A C function that may fault inside the machine. -/
def check {α : Type} (x : Except Fault α) : VmM α := lift (.ofFault x)

/-! ## The operand stack -/

/-- `ymd_push` and the store through its result. -/
def ymdPush (v : Variable) : VmM Unit := do
  let l ← get
  if maxStack ≤ l.stk.length then panic "Stack overflow!"
  set { l with stk := v :: l.stk }

/-- `ymd_top` for an index from the top. -/
def ymdTop (i : Nat) : VmM Variable := do
  let l ← get
  if l.stk = [] then panic "Stack empty!"
  match l.stk[i]? with
  | some v => return v
  | none => panic "Stack out of range"

/-- A store through the result of `ymd_top`. -/
def setTop (i : Nat) (v : Variable) : VmM Unit := do
  let _ ← ymdTop i
  modify fun l => { l with stk := l.stk.set i v }

/-- `ymd_pop`. -/
def ymdPop (n : Nat) : VmM Unit := do
  let l ← get
  if 0 < n ∧ l.stk = [] then panic "Stack empty!"
  if l.stk.length < n then panic "Bad pop!"
  set { l with stk := l.stk.drop n }

/-- The loop of `ymd_adjust`. -/
def pushNils : Nat → VmM Unit
  | 0 => pure ()
  | n + 1 => do
      ymdPush .nil
      pushNils n

/-- `ymd_adjust`. -/
def ymdAdjust (adjust : Nat) (ret : Int) : VmM Unit :=
  if adjust < ret then ymdPop (ret - adjust).toNat
  else pushNils (adjust - ret).toNat

/-! ## Objects -/

/-- `*o = obj`. -/
def storeObj (o : Addr) (obj : Obj) : VmM Unit :=
  modify fun l => { l with heap := l.heap.set o obj }

/-- `gc_new`. -/
def gcNew (obj : Obj) : VmM Addr := do
  let l ← get
  set { l with heap := (l.heap.alloc obj).1 }
  return (l.heap.alloc obj).2

/-- `randlv`. -/
def randlv : VmM Nat := do
  let l ← get
  set { l with levels := fun i => l.levels (i + 1) }
  return l.levels 0

section

variable (env : Env)

/-- `hash`, `equals` and `compare`. -/
def keyOps : VmM KeyOps := do return valueOps (← get).heap env.depth

/-- `hmap_put` on a map that is an object; the result is the entry it points to. -/
def hmapPut (o : Addr) (key : Variable) : VmM Entry := do
  let map ← check ((← get).heap.hmap o)
  let x ← check (map.put (← keyOps env) env.depth key)
  storeObj o (.hmap x.map)
  return x

/-- `skls_put` on a list that is an object; the result is the node it points to. -/
def sklsPut (o : Addr) (key : Variable) : VmM SkEntry := do
  let list ← check ((← get).heap.skls o)
  let x ← check (list.put (← keyOps env) key (← randlv))
  storeObj o (.skls x.list)
  return x

/-- `hmap_get` on a map that is an object. -/
def hmapGet (o : Addr) (key : Variable) : VmM Variable := do
  let map ← check ((← get).heap.hmap o)
  check (map.get (← keyOps env) key)

/-- `skls_get` on a list that is an object. -/
def sklsGet (o : Addr) (key : Variable) : VmM Variable := do
  let list ← check ((← get).heap.skls o)
  check (list.get (← keyOps env) key)

/-- `mand_x(var)->proto`, a map or a list. -/
def protoOf (o : Addr) : VmM (Addr × Obj) := do
  let l ← get
  match (← check (l.heap.mand o)).proto with
  | none => panic "Management memory has no metatable yet"
  | some proto =>
      match l.heap.obj proto with
      | some obj => return (proto, obj)
      | none => fault Heap.badCast

/-- The `switch` of `vm_get`. -/
def vmGetOn (var key : Variable) : VmM Variable :=
  match var with
  | .skls o => sklsGet env o key
  | .hmap o => hmapGet env o key
  | .dyay o => do
      let arr ← check ((← get).heap.dyay o)
      let i ← lift (intOf key)
      if i.slt 0 ∨ (arr.length : Int) ≤ i.toInt then
        throw (.panic (lit "Array out of range, index:" ++ lit (toString (i.setWidth 32).toInt) ++
          lit ", count:" ++ lit (toString arr.length)))
      else return arr.getD i.toNat .nil
  | .mand o => do
      match ← protoOf o with
      | (proto, .hmap _) => hmapGet env proto key
      | (proto, .skls _) => sklsGet env proto key
      | _ => fault (.assertion "o->proto->type == T_HMAP || o->proto->type == T_SKLS")
  | _ => panic "Variable can not be index"

/-- `vm_get`. -/
def vmGet (var key : Variable) : VmM Variable := do
  if key.isNil then panic "No any key will be `nil`"
  vmGetOn env var key

/-- The check of `vm_iput` and `do_put` on the value. -/
def checkValue (v : Variable) : VmM Unit :=
  if v.isNil then panic "Value can not be `nil` in k-v pair" else pure ()

/-- `vm_iput` on a map that is an object. -/
def hmapIput (o : Addr) (key v : Variable) : VmM Unit := do
  let x ← hmapPut env o key
  checkValue v
  storeObj o (.hmap (x.store v))

/-- `vm_iput` on a list that is an object. -/
def sklsIput (o : Addr) (key v : Variable) : VmM Unit := do
  let x ← sklsPut env o key
  checkValue v
  storeObj o (.skls (Skls.store x v))

/-- `vm_iput` on an array. -/
def dyayIput (o : Addr) (key v : Variable) : VmM Unit := do
  let arr ← check ((← get).heap.dyay o)
  let i ← lift (intOf key)
  if i.slt 0 ∨ (arr.length : Int) ≤ i.toInt then
    fault (.assertion "i >= 0LL && i < (ymd_int_t)arr->count")
  else
    checkValue v
    storeObj o (.dyay (arr.set i.toNat v))

/-- The `switch` of `vm_put`, and then the value. -/
def vmIputOn (var key v : Variable) : VmM Unit :=
  match var with
  | .skls o => sklsIput env o key v
  | .hmap o => hmapIput env o key v
  | .dyay o => dyayIput o key v
  | .mand o => do
      match ← protoOf o with
      | (proto, .hmap _) => hmapIput env proto key v
      | (proto, .skls _) => sklsIput env proto key v
      | _ => fault (.assertion "o->proto->type == T_HMAP || o->proto->type == T_SKLS")
  | _ => panic "Variable can not be put"

/-- `vm_iput`. -/
def vmIput (var key v : Variable) : VmM Unit := do
  if key.isNil then panic "No any key will be `nil`"
  vmIputOn env var key v

end

end Ymd
