import Ymd.Pickle.Varint
import Ymd.Value.Compare
import Ymd.Foundation.Outcome

/-! # Writing pickles

The output stream of `zstream.h` and the dump functions of `pickle.c`. The
stream doubles its buffer at most once for a field, and a copy behind its end is
a fault. A container that is being dumped carries a mark.
-/

namespace Ymd

/-- `MAX_STATIC_LEN`. -/
def maxStaticLen : Nat := 4096

/-- `struct zostream`: the bytes in front of `last`, and the size of the buffer. -/
structure Zostream where
  buf : Bytes
  max : Nat
  deriving DecidableEq, Repr

namespace Zostream

/-- `ZOS_INIT`. -/
def init : Zostream := ⟨[], maxStaticLen⟩

def last (os : Zostream) : Nat := os.buf.length

/-- `zos_reserved`. -/
def reserved (os : Zostream) (k : Nat) : Except Fault Zostream :=
  if os.last + k ≤ maxStaticLen then pure os
  else if os.last + k ≤ os.max then pure os
  else if 2 * os.max < 2 ^ 31 then pure { os with max := 2 * os.max }
  else throw .overflow

/-- A copy to `zos_last` and `zos_advance` behind it, which finds the room it
reserves. -/
def fill (os : Zostream) (z : Bytes) : Except Fault Zostream :=
  if os.last + z.length ≤ os.max then pure { os with buf := os.buf ++ z }
  else throw (.bounds "os->buf")

/-- Reserve `k` bytes and write. -/
def write (os : Zostream) (k : Nat) (z : Bytes) : Except Fault Zostream := do
  let os ← os.reserved k
  os.fill z

end Zostream

/-- The parts of `struct chunk` that only the dump and the messages of a panic
read, kept for the function object of the chunk. -/
structure Debug where
  line : List (BitVec 32)
  file : Bytes
  deriving DecidableEq

/-- What a dump works on: the stream, `*ok`, and the objects that carry
`GC_GRAY_BIT1`. -/
structure Dump where
  os : Zostream
  ok : Bool
  entered : Addr → Bool

abbrev DumpM := EStateM Fault Dump

/-- A C function that may fault inside a dump. -/
def dumpCheck {α : Type} : Except Fault α → DumpM α
  | .ok a => pure a
  | .error f => throw f

/-- Write a field, for which `k` bytes are reserved; the result is its length. -/
def zosWrite (k : Nat) (z : Bytes) : DumpM Nat := do
  let s ← get
  let os ← dumpCheck (s.os.write k z)
  set { s with os := os }
  return z.length

/-- `zos_u32`, with `MAX_VARINT32_LEN` bytes reserved. -/
def zosU32 (x : BitVec 32) : DumpM Nat := zosWrite 5 (uint32encode x)

/-- `zos_u64`, with `MAX_VARINT64_LEN` bytes reserved. -/
def zosU64 (x : BitVec 64) : DumpM Nat := zosWrite 10 (uint64encode x)

/-- `zos_i64`. -/
def zosI64 (i : YmdInt) : DumpM Nat := zosWrite 10 (sint64encode i)

/-- `zos_append`. -/
def zosAppend (z : Bytes) : DumpM Nat := zosWrite z.length z

/-- `zos_u32` of an `int`. -/
def zosCount (n : Nat) : DumpM Nat := zosU32 (BitVec.ofNat 32 n)

/-- `if_recursived`. -/
def ifRecursed (o : Addr) : DumpM Unit := modify fun s => { s with ok := !s.entered o }

/-- `fg_enter` and `fg_leave`. -/
def fgMark (o : Addr) (inside : Bool) : DumpM Unit :=
  modify fun s => { s with entered := Function.update s.entered o inside }

/-- `CHECK_OK` behind a call: the caller returns 0 when it failed. -/
def dumpOk (x : DumpM Nat) (rest : Nat → DumpM Nat) : DumpM Nat := do
  let n ← x
  if (← get).ok then rest n else return 0

/-- `ymd_dump_kstr`. -/
def ymdDumpKstr (z : Bytes) : DumpM Nat := do
  let i ← zosCount 4
  let j ← zosCount z.length
  let k ← zosAppend z
  return i + j + k

/-- The bytes of an instruction, lowest first. -/
def Inst.bytes (inst : Inst) : Bytes :=
  [.ofBitVec (inst.extractLsb' 0 8), .ofBitVec (inst.extractLsb' 8 8),
    .ofBitVec (inst.extractLsb' 16 8), .ofBitVec (inst.extractLsb' 24 8)]

/-- Keys and values one after the other. -/
def flatPairs (pairs : List (Variable × Variable)) : List Variable :=
  pairs.flatMap fun p => [p.1, p.2]

section

variable (heap : Heap) (debug : Addr → Debug) (serialize : Variable → DumpM Nat)

/-- A loop of `ymd_serialize`, and what follows it in the function. -/
def dumpAll : List Variable → (i : Nat) → (Nat → DumpM Nat) → DumpM Nat
  | [], i, done => done i
  | v :: rest, i, done => dumpOk (serialize v) fun n => dumpAll rest (i + n) done

/-- The common frame of `ymd_dump_dyay`, `ymd_dump_hmap` and `ymd_dump_skls`:
the tag, the count, and what the loop finds. -/
def dumpContainer (o : Addr) (tt : Nat) (found : Except Fault (Nat × List Variable)) :
    DumpM Nat := do
  ifRecursed o
  if !(← get).ok then return 0
  fgMark o true
  let i ← zosCount tt
  let (count, elems) ← dumpCheck found
  let j ← zosCount count
  dumpAll serialize elems (i + j) fun i => do
    fgMark o false
    return i

/-- `ymd_dump_dyay`. -/
def ymdDumpDyay (o : Addr) (elem : List Variable) : DumpM Nat :=
  dumpContainer serialize o 6 (pure (elem.length, elem))

/-- `ymd_dump_hmap`. -/
def ymdDumpHmap (o : Addr) (map : Hmap) : DumpM Nat :=
  dumpContainer serialize o 7 (pure (map.slots.length, flatPairs map.slots))

/-- `ymd_dump_skls`. -/
def ymdDumpSkls (o : Addr) (list : Skls) : DumpM Nat :=
  dumpContainer serialize o 8 do
    let pairs ← list.traverse
    pure (pairs.length, flatPairs pairs)

/-- The loop over `bk->line`; the caller does not count these bytes. -/
def dumpLines : List (BitVec 32) → DumpM Unit
  | [] => pure ()
  | line :: rest => do
      let _ ← zosU32 line
      dumpLines rest

/-- The loop over `bk->lz`. -/
def dumpLz : List Bytes → Nat → DumpM Nat
  | [], i => return i
  | z :: rest, i => do
      let n ← ymdDumpKstr z
      dumpLz rest (i + n)

/-- `ymd_dump_chunk`. -/
def ymdDumpChunk (core : Chunk) (debug : Debug) : DumpM Nat := do
  let i ← zosCount core.kinst
  if 2 ^ 31 ≤ 4 * core.kinst then throw .overflow
  let k ← zosAppend (core.inst.flatMap Inst.bytes)
  if debug.line.length < core.kinst then throw (.bounds "bk->line")
  dumpLines (debug.line.take core.kinst)
  let _ ← zosCount core.kkval
  dumpAll serialize core.kval (i + k) fun i => do
    let _ ← zosCount core.klz
    let i ← dumpLz core.lz i
    let j ← ymdDumpKstr debug.file
    let k ← zosCount core.kargs
    return i + j + k

/-- `ymd_dump_func`. -/
def ymdDumpFunc (o : Addr) (fn : Func) : DumpM Nat :=
  match fn.core with
  | none => return 0
  | some core => do
      let i ← zosCount 5
      let j ← ymdDumpKstr fn.proto
      let k ← zosCount fn.nBind
      if fn.bind.length < fn.nBind then throw (.bounds "fn->bind")
      dumpAll serialize (fn.bind.take fn.nBind) (i + j + k) fun i =>
        dumpOk (ymdDumpChunk serialize core (debug o)) fun n => return i + n

/-- `ymd_serialize`; `depth` bounds the nested calls. -/
def ymdSerialize : (depth : Nat) → Variable → DumpM Nat
  | 0, _ => throw .nesting
  | depth + 1, v =>
      match v with
      | .nil => zosCount 0
      | .int i => do
          let j ← zosCount 1
          let k ← zosI64 i
          return j + k
      | .bool i => do
          let j ← zosCount 2
          let k ← zosU64 i
          return j + k
      | .kstr z => ymdDumpKstr z
      | .func o => do ymdDumpFunc debug (ymdSerialize depth) o (← dumpCheck (heap.func o))
      | .dyay o => do ymdDumpDyay (ymdSerialize depth) o (← dumpCheck (heap.dyay o))
      | .hmap o => do ymdDumpHmap (ymdSerialize depth) o (← dumpCheck (heap.hmap o))
      | .skls o => do ymdDumpSkls (ymdSerialize depth) o (← dumpCheck (heap.skls o))
      | .ext _ | .mand _ => do
          modify fun s => { s with ok := false }
          return 0

end

end Ymd
