import Mathlib.Data.BitVec
import Mathlib.Tactic.Common

/-! # Script values

The tagged values of `value.h`. A constant string is represented by its bytes,
since strings are immutable and compared by content; every other reference is
the address of an object.
-/

namespace Ymd

abbrev Addr := Nat

/-- The bytes of a string, without the terminating NUL. -/
abbrev Bytes := List UInt8

/-- The bytes of a string literal of the source. -/
def lit (s : String) : Bytes := s.toList.map fun c => UInt8.ofNat c.toNat

/-- `ymd_int_t`: a 64-bit integer, signed where the code compares or divides. -/
abbrev YmdInt := BitVec 64

/-- Why a C function does not return: a failed `assert`, an access outside an
array, a loop that does not end, recursion deeper than the C stack, or a
division whose quotient has no representation. -/
inductive Fault
  | assertion (cond : String)
  | bounds (array : String)
  | looping
  | nesting
  | overflow
  deriving DecidableEq, Repr

/-- `struct variable`: the type tag and the payload it selects. -/
inductive Variable
  | nil
  | int (i : YmdInt)
  | bool (i : YmdInt)
  | ext (p : BitVec 64)
  | kstr (z : Bytes)
  | func (o : Addr)
  | dyay (o : Addr)
  | hmap (o : Addr)
  | skls (o : Addr)
  | mand (o : Addr)
  deriving DecidableEq, Repr

namespace Variable

/-- The tags `T_NIL` to `T_MAND`. -/
def type : Variable → Nat
  | nil => 0
  | int _ => 1
  | bool _ => 2
  | ext _ => 3
  | kstr _ => 4
  | func _ => 5
  | dyay _ => 6
  | hmap _ => 7
  | skls _ => 8
  | mand _ => 9

def isNil : Variable → Bool
  | nil => true
  | _ => false

/-- The keys most scripts use: integers, booleans and strings. -/
def IsScalarKey : Variable → Prop
  | int _ => True
  | bool _ => True
  | kstr _ => True
  | _ => False

instance : DecidablePred IsScalarKey := fun v => by
  cases v <;> unfold IsScalarKey <;> infer_instance

theorem IsScalarKey.isNil_eq_false {v : Variable} (hkey : v.IsScalarKey) : v.isNil = false := by
  cases v <;> first | rfl | exact hkey.elim

end Variable

/-- The three operations of `value.c` that keyed containers call on their
keys. Each may fault, for a type it does not accept. -/
structure KeyOps where
  hash : Variable → Except Fault (BitVec 64)
  equals : Variable → Variable → Except Fault Bool
  compare : Variable → Variable → Except Fault Int

/-- `kz_hash`: the bytes are `char`, so they are sign-extended. -/
def kzHash (z : Bytes) : BitVec 64 :=
  z.foldl (fun n c => n ^^^ ((n <<< 5) + c.toBitVec.signExtend 64 + (n >>> 2))) 1315423911#64

/-- `hash` on the scalar types. -/
def scalarHash : Variable → BitVec 64
  | .int i => i
  | .bool i => if i = 0 then 2 else 3
  | .ext p => p / 8
  | .kstr z => kzHash z
  | _ => 0

theorem slt_zero_iff {i : YmdInt} : i.slt 0 = false ↔ 0 ≤ i.toInt := by
  have hzero : (0 : YmdInt).toInt = 0 := rfl
  rw [BitVec.slt_eq_decide, hzero, decide_eq_false_iff_not, not_lt]

theorem toNat_of_nonneg {i : YmdInt} (hi : 0 ≤ i.toInt) : (i.toNat : Int) = i.toInt := by
  rw [BitVec.toInt_eq_toNat_cond] at hi ⊢
  split at hi <;> rename_i hsmall
  · rw [if_pos hsmall]
  · omega

end Ymd
