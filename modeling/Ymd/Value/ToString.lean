import Ymd.Foundation.Outcome
import Ymd.Value.Compare

/-! # Values as text

The model of `tostring.c` with its growing buffer. A container that is being
printed carries `GC_GRAY_BIT1`.
-/

namespace Ymd

/-- `FMTX_STATIC_MAX`. -/
def fmtxStaticMax : Nat := 260

/-- `struct fmtx`: the bytes in front of `last`, and the size of the buffer. -/
structure Fmtx where
  buf : Bytes
  max : Nat
  deriving DecidableEq, Repr

namespace Fmtx

/-- `FMTX_INIT`. -/
def init : Fmtx := ⟨[], fmtxStaticMax⟩

def last (ctx : Fmtx) : Nat := ctx.buf.length

/-- `fmtx_need`. -/
def need (ctx : Fmtx) (n : Nat) : Except Fault Fmtx :=
  if 2 ^ 31 ≤ ctx.last + n then throw .overflow
  else if ctx.last + n ≤ fmtxStaticMax then pure ctx
  else if ctx.last + n ≤ ctx.max then pure ctx
  else if 2 ^ 31 ≤ (ctx.last + n) * 3 then throw .overflow
  else pure { ctx with max := (ctx.last + n) * 3 / 2 + fmtxStaticMax }

/-- `fmtx_append`. -/
def append (ctx : Fmtx) (src : Bytes) : Except Fault Fmtx := do
  let ctx ← ctx.need src.length
  return { ctx with buf := ctx.buf ++ src }

/-- `fmtx_need`, `snprintf` into what remains, and `fmtx_add`: the terminating NUL
takes the last byte there is. -/
def print (ctx : Fmtx) (n : Nat) (src : Bytes) : Except Fault Fmtx := do
  let ctx ← ctx.need n
  return { ctx with buf := ctx.buf ++ src.take (ctx.max - ctx.last - 1) }

end Fmtx

/-- What printing does with a buffer: it puts bytes behind the text, as they are or
through `snprintf` into reserved space. -/
class Buffer (B : Type) where
  append : B → Bytes → Except Fault B
  print : B → Nat → Bytes → Except Fault B

instance : Buffer Fmtx := ⟨Fmtx.append, Fmtx.print⟩

/-- What a text shows besides values: the type name and the address of managed
memory, and what `snprintf` makes of `%p`. -/
structure PrintEnv where
  tt : Addr → Option Bytes
  land : Addr → BitVec 64
  pointer : BitVec 64 → Bytes

/-- The text so far, and the objects that carry `GC_GRAY_BIT1`. -/
structure Printing (B : Type) where
  ctx : B
  entered : Addr → Bool

abbrev PrintM (B : Type) := EStateM Fault (Printing B)

section

variable {B : Type} [Buffer B]

def printCheck {α : Type} : Except Fault α → PrintM B α
  | .ok a => pure a
  | .error f => throw f

def fmtxAppend (src : Bytes) : PrintM B Unit := do
  let s ← get
  let ctx ← printCheck (Buffer.append s.ctx src)
  set { s with ctx := ctx }

def fmtxPrint (n : Nat) (src : Bytes) : PrintM B Unit := do
  let s ← get
  let ctx ← printCheck (Buffer.print s.ctx n src)
  set { s with ctx := ctx }

/-- `%d` and `%lld`. -/
def decimal (i : Int) : Bytes := lit (toString i)

variable (heap : Heap) (env : PrintEnv) (print : Variable → PrintM B Unit)

/-- The loop over an array. -/
def printElems : (f : Nat) → List Variable → PrintM B Unit
  | _, [] => pure ()
  | f, v :: rest => do
      if 0 < f then fmtxAppend (lit ", ")
      print v
      printElems (f + 1) rest

/-- The loops over a hash map and over a skip list. -/
def printPairs : (f : Nat) → List (Variable × Variable) → PrintM B Unit
  | _, [] => pure ()
  | f, (k, v) :: rest => do
      if 0 < f then fmtxAppend (lit ", ")
      print k
      fmtxAppend (lit " : ")
      print v
      printPairs (f + 1) rest

/-- `fg_enter` and `fg_leave`. -/
def fgPrinting (o : Addr) (inside : Bool) : PrintM B Unit :=
  modify fun s => { s with entered := Function.update s.entered o inside }

/-- What the three containers have in common. -/
def printContainer (o : Addr) (self opening closing : Bytes) (loop : PrintM B Unit) :
    PrintM B Unit := do
  if (← get).entered o then fmtxAppend self
  else
    fmtxAppend opening
    fgPrinting o true
    loop
    fgPrinting o false
    fmtxAppend closing

/-- `T_MAND`. -/
def printMand (o : Addr) (m : Mand) : PrintM B Unit := do
  fmtxAppend (lit "(")
  fmtxAppend ((env.tt o).getD (lit "*"))
  fmtxAppend (lit ")")
  fmtxPrint (10 + 24 + 2) (lit "[" ++ decimal m.land.length ++ lit "@" ++
    env.pointer (env.land o) ++ lit "]")

/-- `tostring`; `depth` bounds the nested calls. -/
def tostring : (depth : Nat) → Variable → PrintM B Unit
  | 0, _ => throw .nesting
  | depth + 1, v =>
      match v with
      | .nil => fmtxAppend (lit "nil")
      | .int i => fmtxPrint 24 (decimal i.toInt)
      | .bool i => fmtxAppend (if i = 0 then lit "false" else lit "true")
      | .ext p => fmtxPrint 24 (lit "@" ++ env.pointer p)
      | .kstr z => fmtxAppend z
      | .func o => do fmtxAppend (← printCheck (heap.func o)).proto
      | .dyay o => do
          let elem ← printCheck (heap.dyay o)
          printContainer o (lit "..[self]..") (lit "[") (lit "]")
            (printElems (tostring depth) 0 elem)
      | .hmap o => do
          let map ← printCheck (heap.hmap o)
          printContainer o (lit "..\x7bself\x7d..") (lit "\x7b") (lit "\x7d")
            (printPairs (tostring depth) 0 map.slots)
      | .skls o => do
          let list ← printCheck (heap.skls o)
          printContainer o (lit "..@\x7bself\x7d..") (lit "@\x7b") (lit "\x7d")
            (printCheck list.traverse >>= printPairs (tostring depth) 0)
      | .mand o => do printMand env o (← printCheck (heap.mand o))

end

end Ymd
