import Ymd.Machine.Heap

/-! # Operators on values

What the arithmetic and logic instructions of `vm_run` compute from their
operands, apart from the operand stack.
-/

namespace Ymd

/-- Why the machine leaves the code it runs: `ymd_panic`, or a fault. -/
inductive Stop
  | panic (msg : Bytes)
  | fault (f : Fault)
  deriving DecidableEq

abbrev Partial := Except Stop

namespace Partial

/-- `ymd_panic`. -/
def panic {α : Type} (msg : String) : Partial α := .error (.panic (lit msg))

def fault {α : Type} (f : Fault) : Partial α := .error (.fault f)

/-- A C function that may fault but does not panic. -/
def ofFault {α : Type} : Except Fault α → Partial α
  | .ok a => .ok a
  | .error f => .error (.fault f)

end Partial

/-- `int_of`. -/
def intOf : Variable → Partial YmdInt
  | .int i => .ok i
  | _ => .panic "Variable is not `int`"

/-- `kstr_of`. -/
def kstrOf : Variable → Partial Bytes
  | .kstr z => .ok z
  | _ => .panic "Variable is not `kstr`"

/-- `func_of`. -/
def funcOf : Variable → Partial Addr
  | .func o => .ok o
  | _ => .panic "Variable is not `func`"

/-- `vm_bool`: the payload is cut to an `int`. -/
def vmBool : Variable → Bool
  | .nil => false
  | .bool i => i.setWidth 32 ≠ 0
  | _ => true

/-- `vset_bool` of a C truth value. -/
def boolVar (b : Bool) : Variable := .bool (if b then 1 else 0)

/-- `typeof_name`. -/
def typeofName : Variable → String
  | .nil => "nil"
  | .int _ => "int"
  | .bool _ => "bool"
  | .ext _ => "lite"
  | .kstr _ => "string"
  | .func _ => "function"
  | .dyay _ => "array"
  | .hmap _ => "hashmap"
  | .skls _ => "skiplist"
  | .mand _ => "managed"

/-! The left operand of the source is `rhs`, the one on top of the stack `lhs`. -/

/-- `I_MUL`, `I_SUB` and the bit operations. -/
def arith (f : YmdInt → YmdInt → YmdInt) (rhs lhs : Variable) : Partial Variable := do
  return .int (f (← intOf rhs) (← intOf lhs))

/-- `I_ADD`. -/
def opAdd (rhs lhs : Variable) : Partial Variable :=
  match rhs with
  | .int i => do return .int (i + (← intOf lhs))
  | .kstr z => do return .kstr (z ++ (← kstrOf lhs))
  | _ => .panic "Operator + don't support this type"

/-- The division of the processor, which traps on the least number by -1. -/
def quotient (f : YmdInt → YmdInt → YmdInt) (opd1 opd2 : YmdInt) : Partial Variable :=
  if opd1 = BitVec.intMin 64 ∧ opd2 = -1 then .fault .overflow else .ok (.int (f opd1 opd2))

/-- `I_DIV`. -/
def opDiv (rhs lhs : Variable) : Partial Variable := do
  let opd2 ← intOf lhs
  if opd2 = 0 then .panic "Div to zero" else quotient BitVec.sdiv (← intOf rhs) opd2

/-- `I_MOD`. -/
def opMod (rhs lhs : Variable) : Partial Variable := do
  let opd1 ← intOf lhs
  if opd1 = 0 then .panic "Mod to zero" else quotient BitVec.srem (← intOf rhs) opd1

/-- The loop of `I_POW`. -/
def powLoop (opd0 : YmdInt) : Nat → YmdInt
  | 0 => 1
  | n + 1 => powLoop opd0 n * opd0

/-- `I_POW`. -/
def opPow (rhs lhs : Variable) : Partial Variable := do
  let opd0 ← intOf rhs
  let opd1 ← intOf lhs
  if opd1.slt 0 then .panic "Pow must be great or equals 0"
  else if opd0 = 0 ∧ opd1 ≠ 0 then return .int 0
  else return .int (powLoop opd0 opd1.toNat)

/-- `I_SHIFT`; the processor takes the count modulo 64. -/
def opShift (flag : BitVec 8) (rhs lhs : Variable) : Partial Variable := do
  let n ← intOf lhs
  if n.slt 0 then .panic "Shift must be great than 0"
  else
    let count := n.toNat % 64
    let i ← intOf rhs
    if flag = Flag.left then return .int (i <<< count)
    else if flag = Flag.rightL then return .int (i >>> count)
    else if flag = Flag.rightA then return .int (i.sshiftRight count)
    else .fault (.assertion "0")

/-- `I_INVB`, which flips the payload whatever the type is. -/
def opInvb : Variable → Partial Variable
  | .nil => .ok .nil
  | .int i => .ok (.int (~~~i))
  | .bool i => .ok (.bool (~~~i))
  | .ext p => .ok (.ext (~~~p))
  | _ => .fault (.bounds "opd0->value.ref")

/-- `I_NOT`. -/
def opNot (opd : Variable) : Variable := boolVar (!vmBool opd)

/-- `I_TYPEOF`. -/
def opTypeof (opd : Variable) : Variable := .kstr (lit (typeofName opd))

/-- `I_INV`. -/
def opInv (opd : Variable) : Partial Variable := do return .int (-(← intOf opd))

end Ymd
