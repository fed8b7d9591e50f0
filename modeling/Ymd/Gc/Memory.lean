import Ymd.Value.Compare

/-! # Collected memory

The objects of `value.h` as the collector sees them: what refers to them, what
they refer to, and their marks. Strings are objects here. A chain of objects,
linked through `next`, is the list of its objects.
-/

namespace Ymd.Gc

/-- `struct variable`: a reference comes with the type of its object. -/
inductive Variable
  | nil
  | int (i : YmdInt)
  | bool (i : YmdInt)
  | ext (p : BitVec 64)
  | kstr (o : Addr)
  | func (o : Addr)
  | dyay (o : Addr)
  | hmap (o : Addr)
  | skls (o : Addr)
  | mand (o : Addr)
  deriving DecidableEq, Repr

/-- `value.ref`, of the types from `T_REF` on. -/
def Variable.ref : Variable → Option Addr
  | .kstr o | .func o | .dyay o | .hmap o | .skls o | .mand o => some o
  | _ => none

/-- `struct func`; `bind` is empty before the first value is bound, and `core`
is `none` for a native function. -/
structure Func where
  proto : Addr
  bind : List Variable
  nBind : Nat
  argv : Option Addr
  core : Option Addr
  deriving DecidableEq, Repr

/-- `struct chunk`. -/
structure Chunk where
  ref : Nat
  kval : List Variable
  lz : List Addr
  file : Addr
  deriving DecidableEq, Repr

/-- `struct kvi`. -/
structure Kvi where
  flag : BitVec 8
  k : Variable
  v : Variable
  deriving DecidableEq, Repr

/-- A collected object behind its `GC_HEAD`. -/
inductive Obj
  | kstr (land : Bytes) (hash : BitVec 64)
  | func (fn : Func)
  | dyay (elem : List Variable)
  | hmap (item : List Kvi)
  | skls (node : List (Variable × Variable))
  | mand (proto : Option Addr) (final : BitVec 64) (land : Bytes)
  deriving DecidableEq, Repr

/-- `struct kpool`. -/
structure Kpool where
  slot : List (List Addr)
  used : Int
  shift : Nat

/-- `struct call_info`; `loc` is an index into the locals. -/
structure CallInfo where
  run : Addr
  loc : Nat

/-- `struct ymd_mach` and its context, as far as a collection reads them. The
frames and the operand stack are lists, the newest first and last. -/
structure Vm where
  obj : Addr → Option Obj
  marked : Addr → BitVec 16
  chunk : Addr → Option Chunk
  next : Addr
  alloced : List Addr
  pause : Int
  grab : Int
  kpool : Kpool
  global : Addr
  info : List CallInfo
  loc : List Variable
  stk : List Variable

/-! ## Marks -/

/-- `GC_BLACK_BIT0`. -/
def blackBit0 : BitVec 16 := 1

/-- `GC_GRAY_BIT0`. -/
def grayBit0 : BitVec 16 := 1 <<< 4

/-- `o->marked |= GC_BLACK_BIT0`. -/
def blacken (o : Addr) (m : Addr → BitVec 16) : Addr → BitVec 16 :=
  Function.update m o (m o ||| blackBit0)

/-- `(o->marked & bits) != 0`. -/
def hasBits (m : Addr → BitVec 16) (o : Addr) (bits : BitVec 16) : Bool := m o &&& bits ≠ 0

/-- `marked`: what is no reference counts as marked. -/
def marked (m : Addr → BitVec 16) (var : Variable) (flag : BitVec 16) : Bool :=
  match var.ref with
  | some o => hasBits m o flag
  | none => true

namespace Vm

variable (vm : Vm)

/-! ## Objects -/

/-- A cast of a pointer to an object that is not there is a fault. -/
def cast {α : Type} (o : Addr) (pick : Obj → Option α) : Except Fault α :=
  match (vm.obj o).bind pick with
  | some a => pure a
  | none => throw (.bounds "value.ref")

def kstr (o : Addr) : Except Fault Bytes :=
  vm.cast o fun
    | .kstr land _ => some land
    | _ => none

def func (o : Addr) : Except Fault Func :=
  vm.cast o fun
    | .func fn => some fn
    | _ => none

def dyay (o : Addr) : Except Fault (List Variable) :=
  vm.cast o fun
    | .dyay elem => some elem
    | _ => none

def hmap (o : Addr) : Except Fault (List Kvi) :=
  vm.cast o fun
    | .hmap item => some item
    | _ => none

def skls (o : Addr) : Except Fault (List (Variable × Variable)) :=
  vm.cast o fun
    | .skls node => some node
    | _ => none

/-- `o->proto`. -/
def mandProto (o : Addr) : Except Fault (Option Addr) :=
  vm.cast o fun
    | .mand proto _ _ => some proto
    | _ => none

/-- `u.core`. -/
def core (c : Addr) : Except Fault Chunk :=
  match vm.chunk c with
  | some core => pure core
  | none => throw (.bounds "u.core")

/-- `func_nlocal`. -/
def funcNlocal (fn : Func) : Except Fault Int :=
  match fn.core with
  | none => pure 0
  | some c => do return (← vm.core c).lz.length - fn.nBind

end Vm

end Ymd.Gc
