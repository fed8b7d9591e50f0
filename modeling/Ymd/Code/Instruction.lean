import Mathlib.Data.BitVec
import Mathlib.Tactic.Common

/-! # Instructions

The instruction words of `assembly.h`: an opcode in the highest byte, a flag
byte and a 16-bit parameter. A call keeps the number of arguments in the flag
and splits its parameter into the return adjustment and the method name.
-/

namespace Ymd

/-- `ymd_inst_t`. -/
abbrev Inst := BitVec 32

/-- The opcodes `I_PANIC` to `I_NOT`. -/
inductive Opcode
  | panic | selfcall | store | ret | jne | jmp | foreach | setf | push | test | jnt | jnn
  | typeof | inv | mul | div | add | sub | mod | pow | andb | orb | xorb | invb | shift
  | call | newmap | newskl | newdya | bind | getf | not
  deriving DecidableEq, Repr

namespace Opcode

def code : Opcode → BitVec 8
  | panic => 0
  | selfcall => 5
  | store => 10
  | ret => 15
  | jne => 20
  | jmp => 25
  | foreach => 30
  | setf => 35
  | push => 40
  | test => 45
  | jnt => 50
  | jnn => 55
  | typeof => 60
  | inv => 65
  | mul => 70
  | div => 75
  | add => 80
  | sub => 85
  | mod => 90
  | pow => 95
  | andb => 100
  | orb => 105
  | xorb => 110
  | invb => 115
  | shift => 120
  | call => 125
  | newmap => 130
  | newskl => 135
  | newdya => 140
  | bind => 145
  | getf => 155
  | not => 160

/-- The case a `switch` over the opcodes takes, `none` for its default. -/
def ofCode (code : BitVec 8) : Option Opcode :=
  match code.toNat with
  | 0 => some panic
  | 5 => some selfcall
  | 10 => some store
  | 15 => some ret
  | 20 => some jne
  | 25 => some jmp
  | 30 => some foreach
  | 35 => some setf
  | 40 => some push
  | 45 => some test
  | 50 => some jnt
  | 55 => some jnn
  | 60 => some typeof
  | 65 => some inv
  | 70 => some mul
  | 75 => some div
  | 80 => some add
  | 85 => some sub
  | 90 => some mod
  | 95 => some pow
  | 100 => some andb
  | 105 => some orb
  | 110 => some xorb
  | 115 => some invb
  | 120 => some shift
  | 125 => some call
  | 130 => some newmap
  | 135 => some newskl
  | 140 => some newdya
  | 145 => some bind
  | 155 => some getf
  | 160 => some not
  | _ => none

@[simp] theorem ofCode_code (op : Opcode) : ofCode op.code = some op := by
  cases op <;> rfl

theorem eq_code_of_ofCode {code : BitVec 8} {op : Opcode} (h : ofCode code = some op) :
    code = op.code := by
  apply BitVec.eq_of_toNat_eq
  unfold ofCode at h
  split at h
  all_goals
    cases h
    try assumption

theorem code_inj {op op' : Opcode} (h : op.code = op'.code) : op = op' :=
  Option.some.inj ((ofCode_code op).symm.trans ((congrArg ofCode h).trans (ofCode_code op')))

end Opcode

/-! ## Flags

The names of `assembly.h`; their numbers overlap between instructions. -/

namespace Flag

def forward : BitVec 8 := 0
def backward : BitVec 8 := 1

def kval : BitVec 8 := 1
def loc : BitVec 8 := 2
def bool : BitVec 8 := 3
def nil : BitVec 8 := 4
def off : BitVec 8 := 5

def eq : BitVec 8 := 0
def ne : BitVec 8 := 1
def gt : BitVec 8 := 2
def ge : BitVec 8 := 3
def lt : BitVec 8 := 4
def le : BitVec 8 := 5
def match' : BitVec 8 := 6

def left : BitVec 8 := 0
def rightL : BitVec 8 := 1
def rightA : BitVec 8 := 2

def stack : BitVec 8 := 0
def fast : BitVec 8 := 1

end Flag

/-- `asm_build`. -/
def asmBuild (op flag : BitVec 8) (param : BitVec 16) : Inst :=
  op.setWidth 32 <<< 24 ||| flag.setWidth 32 <<< 16 ||| param.setWidth 32

/-- `asm_call`. -/
def asmCall (op aret argc : BitVec 8) (method : BitVec 16) : Inst :=
  asmBuild op argc
    (((aret &&& 0x0f).setWidth 32 <<< 12 ||| (method &&& 0x0fff).setWidth 32).setWidth 16)

/-- `asm_op`. -/
def asmOp (inst : Inst) : BitVec 8 := ((inst &&& 0xff000000) >>> 24).setWidth 8

/-- `asm_flag`. -/
def asmFlag (inst : Inst) : BitVec 8 := ((inst &&& 0x00ff0000) >>> 16).setWidth 8

/-- `asm_param`. -/
def asmParam (inst : Inst) : BitVec 16 := (inst &&& 0x0000ffff).setWidth 16

/-- `asm_aret`. -/
def asmAret (inst : Inst) : BitVec 8 := ((asmParam inst &&& 0xf000) >>> 12).setWidth 8

/-- `asm_method`. -/
def asmMethod (inst : Inst) : BitVec 16 := asmParam inst &&& 0x0fff

/-- `asm_argc`. -/
def asmArgc (inst : Inst) : BitVec 8 := asmFlag inst

section

variable (op flag aret argc : BitVec 8) (param method : BitVec 16)

@[simp] theorem asmOp_build : asmOp (asmBuild op flag param) = op := by
  have hmask : ∀ i < 8, (0xff000000 : BitVec 32).getLsbD (i + 24) = true := by decide
  apply BitVec.eq_of_getLsbD_eq
  intro i hi
  have hbit := hmask i hi
  simp only [asmOp, asmBuild, BitVec.getLsbD_setWidth, BitVec.getLsbD_ushiftRight,
    BitVec.getLsbD_shiftLeft, BitVec.getLsbD_and, BitVec.getLsbD_or]
  grind

@[simp] theorem asmFlag_build : asmFlag (asmBuild op flag param) = flag := by
  have hmask : ∀ i < 8, (0x00ff0000 : BitVec 32).getLsbD (i + 16) = true := by decide
  apply BitVec.eq_of_getLsbD_eq
  intro i hi
  have hbit := hmask i hi
  simp only [asmFlag, asmBuild, BitVec.getLsbD_setWidth, BitVec.getLsbD_ushiftRight,
    BitVec.getLsbD_shiftLeft, BitVec.getLsbD_and, BitVec.getLsbD_or]
  grind

@[simp] theorem asmParam_build : asmParam (asmBuild op flag param) = param := by
  have hmask : ∀ i < 16, (0x0000ffff : BitVec 32).getLsbD i = true := by decide
  apply BitVec.eq_of_getLsbD_eq
  intro i hi
  have hbit := hmask i hi
  simp only [asmParam, asmBuild, BitVec.getLsbD_setWidth, BitVec.getLsbD_shiftLeft,
    BitVec.getLsbD_and, BitVec.getLsbD_or]
  grind

@[simp] theorem asmOp_call : asmOp (asmCall op aret argc method) = op := asmOp_build _ _ _

@[simp] theorem asmArgc_call : asmArgc (asmCall op aret argc method) = argc := asmFlag_build _ _ _

/-- Only four bits of the return adjustment are kept. -/
@[simp] theorem asmAret_call : asmAret (asmCall op aret argc method) = aret &&& 0x0f := by
  have hhigh : ∀ i < 8, (0xf000 : BitVec 16).getLsbD (i + 12) = decide (i < 4) := by decide
  have hlow : ∀ i < 8, (0x0f : BitVec 8).getLsbD i = decide (i < 4) := by decide
  have hmethod : ∀ i < 8, (0x0fff : BitVec 16).getLsbD (i + 12) = false := by decide
  apply BitVec.eq_of_getLsbD_eq
  intro i hi
  have hhigh := hhigh i hi
  have hlow := hlow i hi
  have hmethod := hmethod i hi
  simp only [asmAret, asmCall, asmParam_build, BitVec.getLsbD_setWidth, BitVec.getLsbD_ushiftRight,
    BitVec.getLsbD_shiftLeft, BitVec.getLsbD_and, BitVec.getLsbD_or]
  grind

/-- Only twelve bits of the method name are kept. -/
@[simp] theorem asmMethod_call : asmMethod (asmCall op aret argc method) = method &&& 0x0fff := by
  have hmask : ∀ i < 16, (0x0fff : BitVec 16).getLsbD i = decide (i < 12) := by decide
  apply BitVec.eq_of_getLsbD_eq
  intro i hi
  have hbit := hmask i hi
  simp only [asmMethod, asmCall, asmParam_build, BitVec.getLsbD_setWidth,
    BitVec.getLsbD_shiftLeft, BitVec.getLsbD_and, BitVec.getLsbD_or]
  grind

end

end Ymd
