import Ymd.Code.Instruction
import Ymd.Value.Variable

/-! # Chunks

The byte code of one function and the `blk_` operations of `closure.c`. The
counters `kkval` and `klz` have 16 bits: the table they count starts again
when they wrap.
-/

namespace Ymd

/-- `struct chunk`. -/
structure Chunk where
  inst : List Inst
  kval : List Variable
  lz : List Bytes
  kargs : Nat
  deriving DecidableEq

namespace Chunk

/-- A chunk fresh from `mm_zalloc`. -/
def zero : Chunk := ⟨[], [], [], 0⟩

def kinst (core : Chunk) : Nat := core.inst.length

def kkval (core : Chunk) : Nat := core.kval.length

def klz (core : Chunk) : Nat := core.lz.length

/-- `blk_emit`. -/
def emit (core : Chunk) (inst : Inst) : Chunk := { core with inst := core.inst ++ [inst] }

/-- A table after its next entry, with a counter of 16 bits. -/
def push16 {α : Type} (table : List α) (entry : α) : List α :=
  if table.length + 1 < 2 ^ 16 then table ++ [entry] else []

/-- The loop of the `blk_k` functions, from the constant in front of `i` down. -/
def findK (kval : List Variable) (same : Variable → Bool) : Nat → Option Nat
  | 0 => none
  | i + 1 => if (kval[i]?).any same then some i else findK kval same i

/-- Look for a constant, and add it if there is none. -/
def internK (core : Chunk) (same : Variable → Bool) (v : Variable) : Chunk × Nat :=
  match findK core.kval same core.kkval with
  | some i => (core, i)
  | none => ({ core with kval := push16 core.kval v }, core.kkval)

/-- `kstr_fetch`: a negative count stands for the bytes in front of the NUL. -/
def kstrFetch (z : Bytes) (count : Int) : Bytes :=
  if count < 0 then z.takeWhile (· ≠ 0) else z.take count.toNat

/-- `blk_kz`; a string is never found again under a negative count. -/
def kz (core : Chunk) (z : Bytes) (k : Int) : Chunk × Nat :=
  core.internK (fun
    | .kstr land => decide ((land.length : Int) = k ∧ land = z.take k.toNat)
    | _ => false) (.kstr (kstrFetch z k))

/-- `blk_ki`. -/
def ki (core : Chunk) (n : YmdInt) : Chunk × Nat :=
  core.internK (fun v => decide (v = .int n)) (.int n)

/-- `blk_kf`. -/
def kf (core : Chunk) (fn : Addr) : Chunk × Nat :=
  core.internK (fun v => decide (v = .func fn)) (.func fn)

/-- `blk_find_lz`. -/
def findLz (core : Chunk) (z : Bytes) : Option Nat := core.lz.findIdx? (· = z)

/-- `blk_add_lz`; `none` for a negative result. -/
def addLz (core : Chunk) (z : Bytes) : Chunk × Option Nat :=
  if (core.findLz z).isSome then (core, none)
  else
    let core := { core with lz := push16 core.lz z }
    (core, if 0 < core.klz then some (core.klz - 1) else none)

/-- `core->inst[i] = inst`. -/
def setInst (core : Chunk) (i : Nat) (inst : Inst) : Chunk :=
  { core with inst := core.inst.set i inst }

end Chunk

end Ymd
