import Ymd.Code.Literal
import Ymd.Compiler.Lexer
import Ymd.Compiler.Syntax
import Ymd.Foundation.Outcome
import Ymd.Machine.Heap

/-! # The state of the parser and code generation

The model of `struct ymd_parser` and of the `ymk_` functions of `compiler.c`.
Positions in the code are kept in 16 bits where the source does so. The chunk
under construction is a value: the function object made for it receives it when
the chunk is left.
-/

namespace Ymd

open Foundation

/-- Why a compilation ends: a syntax error, a panic of the machine, a fault, or
more nested calls or rounds than the model was given. -/
inductive Abort
  | fail (msg : String)
  | panic (msg : String)
  | fault (f : Fault)
  | fuel

/-- Where tokens come from, and the line the lexer is in. -/
structure Source (σ : Type) where
  next : σ → Except Fault (Ytoken × σ)
  line : σ → Nat

/-- `struct loop_info`; `jmt` has `njmt` entries. -/
structure LoopInfo where
  iRetry : Nat
  iJcond : Nat
  jmt : List Nat
  death : Bool

/-- `struct ymd_parser`, with the operand stack and the objects of the machine.
`blk` is the top chunk and `outer` the chunks behind it. -/
structure Parser (σ : Type) where
  lex : σ
  lah : Ytoken
  blk : Chunk
  outer : List Chunk
  loop : List LoopInfo
  forId : Nat
  heap : Heap
  stk : List Variable

abbrev ParseM (σ : Type) := EStateM Abort (Parser σ)

variable {σ : Type}

/-- `lex_next(&p->lex, &p->lah)`. -/
def ymcNext (src : Source σ) : ParseM σ Unit := do
  let p ← get
  match src.next p.lex with
  | .ok (lah, lex) => set { p with lex := lex, lah := lah }
  | .error f => throw (.fault f)

def ymcPeek : ParseM σ Token := do return (← get).lah.token

/-- `ymc_test`. -/
def ymcTest (src : Source σ) (token : Token) : ParseM σ Bool := do
  if (← ymcPeek) = token then
    ymcNext src
    return true
  else return false

/-- `ymc_match`. -/
def ymcMatch (src : Source σ) (need : Token) : ParseM σ Unit := do
  if (← ymcPeek) ≠ need then throw (.fail "Error token! unexpected, expected")
  ymcNext src

theorem ymcNext_apply (src : Source σ) (p : Parser σ) : ymcNext src p =
    match src.next p.lex with
    | .ok next => .ok () { p with lex := next.2, lah := next.1 }
    | .error f => .error (.fault f) p := by
  rw [ymcNext, bind_of_ok (get_apply p)]
  cases src.next p.lex <;> rfl

/-! ## Chunks -/

/-- A failed `assert` unless the condition holds. -/
def assert (cond : Prop) [Decidable cond] (text : String) : ParseM σ Unit :=
  if cond then pure () else throw (.fault (.assertion text))

/-- What an operation on the top chunk returns. -/
def onBlk {α : Type} (f : Chunk → Chunk × α) : ParseM σ α := do
  let p ← get
  set { p with blk := (f p.blk).1 }
  return (f p.blk).2

/-- `ymk_emitOfP`. -/
def ymkEmitOfP (op : Opcode) (flag : BitVec 8) (param : Nat) : ParseM σ Unit :=
  onBlk fun core => (core.emit (asmBuild op.code flag (BitVec.ofNat 16 param)), ())

/-- `ymk_emit_call`. -/
def ymkEmitCall (op : Opcode) (aret argc method : Nat) : ParseM σ Unit :=
  onBlk fun core => (core.emit
    (asmCall op.code (BitVec.ofNat 8 aret) (BitVec.ofNat 8 argc) (BitVec.ofNat 16 method)), ())

/-- `ymk_ipos`. -/
def ymkIpos : ParseM σ Nat := do return (← get).blk.kinst % 2 ^ 16

/-- `ymk_hold`. -/
def ymkHold : ParseM σ Nat := do
  let ipos ← ymkIpos
  ymkEmitOfP .panic 0 0
  return ipos

/-- `ymk_emit_int`. -/
def ymkEmitInt (imm : YmdInt) : ParseM σ Unit := do
  ymkEmitOfP .push Flag.kval (← onBlk fun core => core.ki imm)

/-- `ymk_emit_kz`. -/
def ymkEmitKz (raw : Bytes) : ParseM σ Unit := do
  match stresc raw with
  | none => throw (.fail "Bad ESC string.")
  | some priv => ymkEmitOfP .push Flag.kval (← onBlk fun core => core.kz priv priv.length)

/-- `ymk_emit_store`. -/
def ymkEmitStore (symbol : Bytes) : ParseM σ Unit := do
  match (← get).blk.findLz symbol with
  | none => ymkEmitOfP .store Flag.off (← onBlk fun core => core.kz symbol (-1))
  | some i => ymkEmitOfP .store Flag.loc i

/-- `ymk_emit_push`. -/
def ymkEmitPush (symbol : Bytes) : ParseM σ Unit := do
  match (← get).blk.findLz symbol with
  | none => ymkEmitOfP .push Flag.off (← onBlk fun core => core.kz symbol (-1))
  | some i => ymkEmitOfP .push Flag.loc i

/-- `ymk_emit_pushz` with a count of -1. -/
def ymkEmitPushz (symbol : Bytes) : ParseM σ Unit := do
  ymkEmitOfP .push Flag.kval (← onBlk fun core => core.kz symbol (-1))

/-- `ymk_new_locvar`. -/
def ymkNewLocvar (symbol : Bytes) : ParseM σ Nat := do
  match ← onBlk fun core => core.addLz symbol with
  | none => throw (.fail "Duplicate local varibale")
  | some i => return i

/-- `ymk_emit_end`. -/
def ymkEmitEnd : ParseM σ Unit := do
  let core := (← get).blk
  if core.inst.getLast?.map asmOp ≠ some Opcode.ret.code then ymkEmitOfP .ret 0 0

/-- `ymk_emit_bind`; the chunk of the closure comes and goes as a value. -/
def ymkEmitBind (symbol : Bytes) (core : Chunk) : ParseM σ Chunk := do
  match core.addLz symbol with
  | (_, none) => throw (.fail "Duplicate local varibale")
  | (core, some _) =>
      ymkEmitPush symbol
      return core

/-- `ymk_emit_setf`. -/
def ymkEmitSetf (symbol : Bytes) : ParseM σ Unit := do
  ymkEmitOfP .setf Flag.fast (← onBlk fun core => core.kz symbol (-1))

/-- `ymk_emit_getf`. -/
def ymkEmitGetf (symbol : Bytes) : ParseM σ Unit := do
  ymkEmitOfP .getf Flag.fast (← onBlk fun core => core.kz symbol (-1))

/-- `ymk_emit_selfcall`. -/
def ymkEmitSelfcall (adjust argc : Nat) (method : Bytes) : ParseM σ Unit := do
  ymkEmitCall .selfcall adjust argc (← onBlk fun core => core.kz method (-1))

/-- `ymk_emit_jmp` with `bwd` set. -/
def ymkEmitJmp (target : Nat) : ParseM σ Unit := do
  let iCurr := (← get).blk.kinst
  assert (target ≤ iCurr) "i_curr >= target"
  ymkEmitOfP .jmp Flag.backward (iCurr - target)

/-- `ymk_hack`. -/
def ymkHack (i : Nat) (inst : Inst) : ParseM σ Unit := do
  assert (i < (← get).blk.kinst) "i < core->kinst"
  onBlk fun core => (core.setInst i inst, ())

/-- `ymk_hack_jmp` with `bwd` clear. -/
def ymkHackJmp (i : Nat) (op : Opcode) : ParseM σ Unit := do
  let kinst := (← get).blk.kinst
  assert (i ≤ kinst) "core->kinst >= i"
  ymkHack i (asmBuild op.code Flag.forward (BitVec.ofNat 16 (kinst - i)))

/-- `ymk_symbol`. -/
def ymkSymbol (src : Source σ) : ParseM σ Bytes := do
  if (← ymcPeek) ≠ .SYMBOL then throw (.fail "Error token, need symbol.")
  let literal := (← get).lah.text
  ymcNext src
  return literal

/-! ## Functions -/

/-- `struct func_decl_desc`. -/
structure FuncDeclDesc where
  method : Bool
  name : Bytes
  loadP : Nat
  nBind : Nat

/-- `ymd_func`: the function object is pushed on the operand stack. -/
def ymdFunc (name : Bytes) : ParseM σ Addr := do
  let p ← get
  if maxStack ≤ p.stk.length then throw (.panic "Stack overflow!")
  let fn : Func :=
    { core := some .zero, proto := lit "func " ++ name ++ lit "(*) {...}", nBind := 0,
      bind := [], argv := none }
  let (heap, o) := p.heap.alloc (.func fn)
  set { p with heap := heap, stk := .func o :: p.stk }
  return o

theorem ymdFunc_apply (name : Bytes) (p : Parser σ) : ymdFunc name p =
    if maxStack ≤ p.stk.length then .error (.panic "Stack overflow!") p
    else .ok p.heap.next { p with
      heap := (p.heap.alloc (.func
        ⟨some .zero, lit "func " ++ name ++ lit "(*) {...}", 0, [], none⟩)).1
      stk := .func p.heap.next :: p.stk } := by
  rw [ymdFunc, bind_of_ok (get_apply p)]
  split <;> rfl

/-- `ymk_enter`. -/
def ymkEnter (x : Chunk) : ParseM σ Unit :=
  modify fun p => { p with blk := x, outer := p.blk :: p.outer }

/-- `ymk_leave`; the function object gets its chunk. -/
def ymkLeave (fn : Addr) : ParseM σ Unit := do
  let p ← get
  match p.heap.obj fn with
  | some (.func f) =>
      set { p with
        blk := p.outer.headD .zero, outer := p.outer.tail,
        heap := p.heap.set fn (.func { f with core := some p.blk }) }
  | _ => throw (.fault Heap.badCast)

theorem ymkLeave_apply (fn : Addr) (p : Parser σ) : ymkLeave fn p =
    match p.heap.obj fn with
    | some (.func f) => .ok () { p with
        blk := p.outer.headD .zero, outer := p.outer.tail
        heap := p.heap.set fn (.func { f with core := some p.blk }) }
    | _ => .error (.fault Heap.badCast) p := by
  rw [ymkLeave, bind_of_ok (get_apply p)]
  rcases p.heap.obj fn with _ | _ | _ | _ | _ | _ <;> rfl

/-- `ymk_emit_func`, and the pop behind it. -/
def ymkEmitFunc (desc : FuncDeclDesc) (fn : Addr) : ParseM σ Unit := do
  let p ← get
  match p.heap.obj fn with
  | some (.func f) =>
      set { p with heap := p.heap.set fn (.func { f with nBind := desc.nBind % 2 ^ 16 }) }
  | _ => throw (.fault Heap.badCast)
  let k ← onBlk fun core => core.kf fn
  ymkHack desc.loadP (asmBuild Opcode.push.code Flag.kval (BitVec.ofNat 16 k))
  modify fun p => { p with stk := p.stk.tail }

/-- What `ymk_emit_func` does to the function object. -/
def setBindCount (n : Nat) (fn : Addr) : ParseM σ Unit := do
  let p ← get
  match p.heap.obj fn with
  | some (.func f) => set { p with heap := p.heap.set fn (.func { f with nBind := n % 2 ^ 16 }) }
  | _ => throw (.fault Heap.badCast)

theorem setBindCount_apply (n : Nat) (fn : Addr) (p : Parser σ) : setBindCount n fn p =
    match p.heap.obj fn with
    | some (.func f) =>
        .ok () { p with heap := p.heap.set fn (.func { f with nBind := n % 2 ^ 16 }) }
    | _ => .error (.fault Heap.badCast) p := by
  rw [setBindCount, bind_of_ok (get_apply p)]
  rcases p.heap.obj fn with _ | _ | _ | _ | _ | _ <;> rfl

theorem ymkEmitFunc_eq (desc : FuncDeclDesc) (fn : Addr) :
    (ymkEmitFunc desc fn : ParseM σ Unit) = (do
      setBindCount desc.nBind fn
      let k ← onBlk fun core => core.kf fn
      ymkHack desc.loadP (asmBuild Opcode.push.code Flag.kval (BitVec.ofNat 16 k))
      modify fun p => { p with stk := p.stk.tail }) := by
  funext p
  rw [ymkEmitFunc, setBindCount, bind_assoc, bind_of_ok (get_apply p), bind_of_ok (get_apply p)]
  rcases p.heap.obj fn with _ | _ | _ | _ | _ | _ <;> rfl

/-! ## Loops -/

/-- `ymk_loop_enter`. -/
def ymkLoopEnter : ParseM σ Unit :=
  modify fun p => { p with loop := ⟨0, 0, [], false⟩ :: p.loop }

/-- `*p->loop`; there is none outside of loops. -/
def theLoop : ParseM σ LoopInfo := do
  match (← get).loop with
  | info :: _ => return info
  | [] => throw (.fault (.bounds "p->loop"))

/-- An assignment to a field of `*p->loop`. -/
def onLoop (f : LoopInfo → LoopInfo) : ParseM σ Unit := do
  let info ← theLoop
  modify fun p => { p with loop := f info :: p.loop.tail }

/-- The loop of `ymk_loop_leave` over the jumping table. -/
def fillBreaks (iCurr : Nat) : List Nat → ParseM σ Unit
  | [] => pure ()
  | iJpt :: rest => do
      assert (iJpt ≤ iCurr) "i_jpt <= i_curr"
      ymkHackJmp iJpt .jmp
      fillBreaks iCurr rest

/-- `ymk_loop_leave`. -/
def ymkLoopLeave : ParseM σ Unit := do
  let iCurr := (← get).blk.kinst
  let info ← theLoop
  assert (info.iRetry ≤ iCurr) "p->loop->i_retry <= i_curr"
  ymkEmitJmp info.iRetry
  fillBreaks iCurr info.jmt.reverse
  if ¬ info.death then ymkHackJmp info.iJcond .foreach
  modify fun p => { p with loop := p.loop.tail }

end Ymd
