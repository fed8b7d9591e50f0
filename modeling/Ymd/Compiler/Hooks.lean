import Ymd.Compiler.Parse

/-! # The parser with hooks

The parser again, with places where something can be checked or noted. With the
hooks of the source it is the parser of the source; other hooks say what the source
leaves out.
-/

namespace Ymd

variable {σ : Type}

/-- Where an `if` or a loop begins and ends. -/
inductive Mark
  | ifBegin | ifEnd
  | loopBegin | loopEnd
  deriving DecidableEq

/-- What comes next: a function object, a literal, the place where a loop starts
again, or the end of a loop. -/
inductive Site
  | function
  | dec (raw : Bytes)
  | hex (raw : Bytes)
  | retry
  | leave

/-- What is done in front of a statement, to the last token of a literal, around
what follows the function object of a nested function, with the name of a function,
in front of another entry of `jout`, in front of `break` (true) and `continue`, at a
mark, and at a site. -/
structure Hooks (σ : Type) where
  stmt : ParseM σ Unit
  closing : Token → ParseM σ Unit
  function : {α : Type} → ParseM σ α → ParseM σ α
  name : Bytes → ParseM σ Unit
  branch : List Nat → ParseM σ Unit
  goto : Bool → ParseM σ Unit
  mark : Mark → ParseM σ Unit
  site : Site → ParseM σ Unit

namespace Hooks

/-- The hooks of the source. -/
def plain (src : Source σ) : Hooks σ where
  stmt := pure ()
  closing _ := ymcNext src
  function x := x
  name z := if 260 ≤ z.length then throw (.fault (.bounds "desc->name")) else pure ()
  branch jout := if 128 ≤ jout.length then throw (.fault (.bounds "jout")) else pure ()
  goto isBreak := do
    let info ← theLoop
    if isBreak = true ∧ 128 ≤ info.jmt.length then throw (.fault (.bounds "p->loop->jmt"))
    else pure ()
  mark _ := pure ()
  site _ := pure ()

section

variable (h : Hooks σ) (src : Source σ) (r : Rec σ)

/-! ## Functions -/

def catName (name part : Bytes) : ParseM σ Bytes := do
  h.name (name ++ lit "." ++ part)
  return name ++ lit "." ++ part

def declPath : Nat → Option Bytes → Bytes → ParseM σ (List Bytes × Bytes × Bytes)
  | 0, _, _ => throw .fuel
  | fuel + 1, last, name => do
      match last with
      | some last => ymkEmitGetf last
      | none => pure ()
      ymcMatch src .dot
      let next ← ymkSymbol src
      let name ← h.catName name next
      if (← ymcPeek) = .lparen then return ([], next, name)
      else
        let (path, last, name) ← declPath fuel (some next) name
        return (next :: path, last, name)

def parseFuncDecl (first : Bytes) (isLocal : Bool) : ParseM σ (List Bytes × FuncDeclDesc) := do
  h.name first
  if (← ymcPeek) = .dot then
    ymkEmitPush first
    let (path, last, name) ← h.declPath src r.fuel none first
    let loadP ← ymkHold
    ymkEmitSetf last
    return (first :: path ++ [last], ⟨true, name, loadP, 0⟩)
  else
    let loadP ← ymkHold
    if isLocal then
      let _ ← ymkNewLocvar first
    ymkEmitStore first
    return ([first], ⟨false, first, loadP, 0⟩)

/-- Between the chunk of a function and its end. -/
def funcInner (method : Bool) : ParseM σ (List Bytes × Tree .block) := do
  let params ← parseParams src r method
  ymkChunkReserved
  let body ← parseBlock src r
  ymkEmitEnd
  return (params, body)

/-- A nested function, with what is read in front of its chunk. -/
def funcScope (name : Bytes) (binds : ParseM σ (List Bytes × Chunk))
    (desc : List Bytes → FuncDeclDesc) (inner : ParseM σ (List Bytes × Tree .block)) :
    ParseM σ (List Bytes × Tree .func) := do
  h.site .function
  let fn ← ymdFunc name
  h.function do
    let (names, core) ← binds
    ymkEnter core
    let (params, body) ← inner
    ymkLeave fn
    ymkEmitFunc (desc names) fn
    return (names, .func fn params body)

def parseFunc (isLocal : Bool) : ParseM σ (Tree .stmt) := do
  ymcNext src
  if (← ymcPeek) ≠ .SYMBOL then throw (.fail "Function need a name.")
  let (path, desc) ← h.parseFuncDecl src r (← ymkSymbol src) isLocal
  let (_, fn) ← h.funcScope desc.name (pure ([], .zero)) (fun _ => desc)
    (funcInner src r desc.method)
  return .funcDecl path fn

/-- The bound variables of a closure, if there are any. -/
def closureBinds : ParseM σ (List Bytes × Chunk) := do
  if (← ymcPeek) = .lbrack then parseBind src r .zero else return ([], .zero)

def parseClosure : ParseM σ (Tree .expr) := do
  ymcNext src
  let loadP ← ymkHold
  let line := src.line (← get).lex
  let (binds, fn) ← h.funcScope (lit "__blk_xl" ++ lit (toString line) ++ lit "__")
    (closureBinds src r) (fun binds => ⟨false, [], loadP, binds.length % 2 ^ 16⟩)
    (funcInner src r false)
  return .closure binds fn

/-! ## Expressions -/

def decLiteral (raw : Bytes) : ParseM σ Unit := do
  h.site (.dec raw)
  match dtoll raw with
  | none => throw (.fault (.assertion "ok"))
  | some imm => ymkEmitInt imm

def hexLiteral (raw : Bytes) : ParseM σ Unit := do
  h.site (.hex raw)
  match xtoll raw with
  | .ok (some imm) => ymkEmitInt imm
  | .ok none => throw (.fault (.assertion "ok"))
  | .error f => throw (.fault f)

def parseSimple : ParseM σ (Tree .expr) := do
  match ← ymcPeek with
  | .NIL =>
      ymkEmitOfP .push Flag.nil 0
      ymcNext src
      return .nil
  | .TRUE =>
      ymkEmitOfP .push Flag.bool 1
      ymcNext src
      return .bool true
  | .FALSE =>
      ymkEmitOfP .push Flag.bool 0
      ymcNext src
      return .bool false
  | .DEC_LITERAL =>
      let raw := (← get).lah.text
      h.decLiteral raw
      ymcNext src
      return .dec raw
  | .HEX_LITERAL =>
      let raw := (← get).lah.text
      h.hexLiteral raw
      ymcNext src
      return .hex raw
  | .STRING =>
      let raw := (← get).lah.text
      ymkEmitKz raw
      ymcNext src
      return .str raw
  | .lbrace =>
      let e ← parseMap src r false
      h.closing .rbrace
      return e
  | .SKLS =>
      let e ← parseMap src r true
      h.closing .rbrace
      return e
  | .lbrack =>
      let e ← parseArray src r
      h.closing .rbrack
      return e
  | .FUNC => h.parseClosure src r
  | _ => parseSuffixed src r

def parseOperand : ParseM σ (Tree .expr) := do
  match ymcUnaryOp (← ymcPeek) with
  | some op =>
      ymcNext src
      let (e, _) ← r.expr prioUnary
      ymkUnary op
      return .unary op e
  | none => h.parseSimple src r

def parseExpr (limit : Nat) : ParseM σ (Tree .expr × Option BinaryOp) := do
  let e ← h.parseOperand src r
  binaries src r limit r.fuel e (ymcBinaryOp (← ymcPeek))

/-! ## Statements -/

def parseLocal : ParseM σ (Tree .stmt) := do
  ymcNext src
  if (← ymcPeek) = .FUNC then h.parseFunc src r true
  else return .locals (← parseDecls src r r.fuel)

def holdJout (jout : List Nat) : ParseM σ (List Nat) := do
  h.branch jout
  return jout ++ [← ymkHold]

def elifs : Nat → (jnxt : Nat) → (jout : List Nat) → (nsub : Nat) → ParseM σ (Tree .elifs)
  | 0, _, _, _ => throw .fuel
  | fuel + 1, jnxt, jout, nsub => do
      match ← ymcPeek with
      | .ELIF =>
          ymcNext src
          let jout ← h.holdJout jout
          ymkHackJmp jnxt .jne
          let (cond, _) ← r.expr 0
          let jnxt ← ymkHold
          let body ← parseBlock src r
          return .elif cond body (← elifs fuel jnxt jout (nsub + 1))
      | .ELSE =>
          ymcNext src
          let jout ← h.holdJout jout
          ymkHackJmp jnxt .jne
          let body ← parseBlock src r
          fillJout jout.reverse
          return .else' body
      | _ =>
          fillJout jout.reverse
          if nsub = 0 then ymkHackJmp jnxt .jne
          return .noElse

def parseIf : ParseM σ (Tree .stmt) := do
  ymcNext src
  h.mark .ifBegin
  let (cond, _) ← r.expr 0
  let jnxt ← ymkHold
  let body ← parseBlock src r
  let rest ← h.elifs src r r.fuel jnxt [] 0
  h.mark .ifEnd
  return .if' cond body rest

def loopEnter : ParseM σ Unit := do
  ymkLoopEnter
  h.mark .loopBegin

def loopLeave : ParseM σ Unit := do
  h.site .leave
  ymkLoopLeave
  h.mark .loopEnd

/-- The name of a variable for the iterator of a loop. -/
def freshIter : ParseM σ Bytes := do
  let p ← get
  set { p with forId := p.forId + 1 }
  return lit "__loop_iter_" ++ lit (toString p.forId) ++ lit "__"

def parseIn (tmp : Bytes) : ParseM σ (Tree .stmt) := do
  ymcMatch src .IN
  let (e, _) ← r.expr 0
  let iter ← freshIter
  ymkEmitOfP .store Flag.loc (← ymkNewLocvar iter)
  h.site .retry
  let retry ← ymkIpos
  onLoop fun info => { info with iRetry := retry }
  ymkEmitPush iter
  ymkEmitCall .call 1 0 0
  let jcond ← ymkHold
  onLoop fun info => { info with iJcond := jcond }
  ymkEmitStore tmp
  let body ← parseBlock src r
  h.loopLeave
  return .forIn tmp e body

def parseFor : ParseM σ (Tree .stmt) := do
  ymcNext src
  h.loopEnter
  match ← ymcPeek with
  | .lbrace =>
      h.site .retry
      let retry ← ymkIpos
      onLoop fun info => { info with death := true, iRetry := retry }
      let body ← parseBlock src r
      h.loopLeave
      return .forever body
  | .VAR =>
      ymcNext src
      let tmp ← ymkSymbol src
      let _ ← ymkNewLocvar tmp
      h.parseIn src r tmp
  | .SYMBOL => h.parseIn src r (← ymkSymbol src)
  | _ => throw (.fail "Syntax error.")

def holdBreak : ParseM σ Unit := do
  h.goto true
  let i ← ymkHold
  onLoop fun info => { info with jmt := info.jmt ++ [i] }

def parseBreak : ParseM σ (Tree .stmt) := do
  h.holdBreak
  ymcNext src
  return .break'

def retry : ParseM σ Nat := do
  h.goto false
  return (← theLoop).iRetry

def parseContinue : ParseM σ (Tree .stmt) := do
  ymkEmitJmp (← h.retry)
  ymcNext src
  return .continue'

def parseStmt : ParseM σ (Tree .stmt) := do
  match ← ymcPeek with
  | .semicolon =>
      ymcNext src
      return .empty
  | .IF => h.parseIf src r
  | .WITH => return .empty
  | .FOR => h.parseFor src r
  | .FUNC => h.parseFunc src r false
  | .VAR => h.parseLocal src r
  | .RETURN => parseReturn src r
  | .BREAK => h.parseBreak src
  | .CONTINUE => h.parseContinue src
  | _ => parseExprStat src r

end

section

variable (h : Hooks σ) (src : Source σ)

def parser : (depth : Nat) → Rec σ
  | 0 => ⟨fun _ => throw .fuel, throw .fuel, 0⟩
  | depth + 1 =>
      ⟨h.parseExpr src (parser depth), h.stmt >>= fun _ => h.parseStmt src (parser depth), depth⟩

def ymcCompile (depth : Nat) (fn : Addr) : ParseM σ (Tree .func) := do
  ymcNext src
  ymkEnter (Chunk.zero.addLz (lit "argv")).1
  let body ← topStmts (h.parser src depth) depth
  ymkEmitEnd
  ymkLeave fn
  return .func fn [] body

def ymdCompile (depth : Nat) (name : Bytes) : ParseM σ (Tree .func) := do
  h.ymcCompile src depth (← ymdFunc name)

end

/-! ## The parser of the source -/

section

variable (src : Source σ) (r : Rec σ)

theorem plain_function {α : Type} (x : ParseM σ α) : (plain src).function x = x := rfl

theorem plain_mark (m : Mark) : (plain src).mark m = pure () := rfl

theorem plain_site (s : Site) : (plain src).site s = pure () := rfl

theorem plain_closing (t : Token) : (plain src).closing t = ymcNext src := rfl

theorem catName_plain (name part : Bytes) :
    (plain src).catName name part = Ymd.catName name part := by
  unfold catName Ymd.catName plain
  dsimp only
  split <;> rfl

theorem declPath_plain (fuel : Nat) (last : Option Bytes) (name : Bytes) :
    (plain src).declPath src fuel last name = Ymd.declPath src fuel last name := by
  induction fuel generalizing last name with
  | zero => rfl
  | succ fuel ih =>
      cases last <;> simp only [declPath, Ymd.declPath, catName_plain, ih]

theorem parseFuncDecl_plain (first : Bytes) (isLocal : Bool) :
    (plain src).parseFuncDecl src r first isLocal = Ymd.parseFuncDecl src r first isLocal := by
  unfold parseFuncDecl Ymd.parseFuncDecl
  simp only [declPath_plain]
  unfold plain
  dsimp only
  split <;> rfl

theorem parseFunc_plain (isLocal : Bool) :
    (plain src).parseFunc src r isLocal = Ymd.parseFunc src r isLocal := by
  simp only [parseFunc, Ymd.parseFunc, parseFuncDecl_plain, funcScope, funcInner, parseBody, plain_function,
    plain_site, bind_assoc, pure_bind]

theorem parseClosure_plain : (plain src).parseClosure src r = Ymd.parseClosure src r := by
  simp only [parseClosure, Ymd.parseClosure, funcScope, funcInner, parseBody, plain_function, plain_site,
    closureBinds, bind_assoc, pure_bind]
  refine bind_congr fun _ => bind_congr fun loadP => bind_congr fun p => bind_congr fun fn =>
    bind_congr fun token => ?_
  split <;> rfl

theorem decLiteral_plain {α : Type} (raw : Bytes) (rest : ParseM σ α) :
    ((plain src).decLiteral raw >>= fun _ => rest) = match dtoll raw with
      | none => throw (.fault (.assertion "ok")) >>= fun _ : PUnit => rest
      | some imm => ymkEmitInt imm >>= fun _ => rest := by
  unfold decLiteral
  cases dtoll raw <;> rfl

theorem hexLiteral_plain {α : Type} (raw : Bytes) (rest : ParseM σ α) :
    ((plain src).hexLiteral raw >>= fun _ => rest) = match xtoll raw with
      | .ok (some imm) => ymkEmitInt imm >>= fun _ => rest
      | .ok none => throw (.fault (.assertion "ok")) >>= fun _ : PUnit => rest
      | .error f => throw (.fault f) >>= fun _ : PUnit => rest := by
  unfold hexLiteral
  rcases xtoll raw with f | _ | imm <;> rfl

theorem parseSimple_plain : (plain src).parseSimple src r = Ymd.parseSimple src r := by
  simp only [parseSimple, Ymd.parseSimple, parseClosure_plain, plain_closing, decLiteral_plain,
    hexLiteral_plain]
  try rfl

theorem parseOperand_plain : (plain src).parseOperand src r = Ymd.parseOperand src r := by
  simp only [parseOperand, Ymd.parseOperand, parseSimple_plain]
  try rfl

theorem parseExpr_plain (limit : Nat) :
    (plain src).parseExpr src r limit = Ymd.parseExpr src r limit := by
  simp only [parseExpr, Ymd.parseExpr, parseOperand_plain]

theorem parseLocal_plain : (plain src).parseLocal src r = Ymd.parseLocal src r := by
  simp only [parseLocal, Ymd.parseLocal, parseFunc_plain]

theorem holdJout_plain (jout : List Nat) :
    (plain src).holdJout jout = Ymd.holdJout (σ := σ) jout := by
  unfold holdJout Ymd.holdJout plain
  dsimp only
  split <;> rfl

theorem elifs_plain (fuel jnxt : Nat) (jout : List Nat) (nsub : Nat) :
    (plain src).elifs src r fuel jnxt jout nsub = Ymd.elifs src r fuel jnxt jout nsub := by
  induction fuel generalizing jnxt jout nsub with
  | zero => rfl
  | succ fuel ih =>
      simp only [elifs, Ymd.elifs, holdJout_plain, ih]
      try rfl

theorem parseIf_plain : (plain src).parseIf src r = Ymd.parseIf src r := by
  simp only [parseIf, Ymd.parseIf, elifs_plain, plain_mark, pure_bind]

theorem parseIn_plain (tmp : Bytes) :
    (plain src).parseIn src r tmp = Ymd.parseIn src r tmp := by
  simp only [parseIn, Ymd.parseIn, freshIter, loopLeave, plain_mark, plain_site, bind_assoc,
    pure_bind]

theorem parseFor_plain : (plain src).parseFor src r = Ymd.parseFor src r := by
  simp only [parseFor, Ymd.parseFor, parseIn_plain, loopEnter, loopLeave, plain_mark, plain_site,
    bind_assoc, pure_bind]
  try rfl

/-- Looking at the loop changes nothing. -/
theorem theLoop_bind_theLoop {α : Type} (f : LoopInfo → LoopInfo → ParseM σ α) :
    (theLoop >>= fun info => theLoop >>= f info) = theLoop >>= fun info => f info info := by
  funext p
  rcases p with ⟨lex, lah, blk, outer, _ | ⟨info, loop⟩, forId, heap, stk⟩ <;> rfl

theorem holdBreak_plain : (plain src).holdBreak = Ymd.holdBreak (σ := σ) := by
  unfold holdBreak Ymd.holdBreak plain
  simp only [true_and, bind_assoc]
  congr 1
  funext info
  split <;> rfl

theorem parseBreak_plain : (plain src).parseBreak src = Ymd.parseBreak src := by
  simp only [parseBreak, Ymd.parseBreak, holdBreak_plain]

theorem parseContinue_plain : (plain src).parseContinue src = Ymd.parseContinue src := by
  simp only [parseContinue, Ymd.parseContinue, retry, plain, Bool.false_eq_true, false_and, if_false,
    bind_assoc, pure_bind]
  exact theLoop_bind_theLoop fun _ info => _

theorem parseStmt_plain : (plain src).parseStmt src r = Ymd.parseStmt src r := by
  simp only [parseStmt, Ymd.parseStmt, parseIf_plain, parseFor_plain, parseFunc_plain,
    parseLocal_plain, parseBreak_plain, parseContinue_plain]
  try rfl

theorem parser_plain (depth : Nat) : (plain src).parser src depth = Ymd.parser src depth := by
  induction depth with
  | zero => rfl
  | succ depth ih =>
      have hexpr : (plain src).parseExpr src (Ymd.parser src depth) =
          Ymd.parseExpr src (Ymd.parser src depth) := funext (parseExpr_plain src _)
      simp only [parser, Ymd.parser, ih, hexpr, parseStmt_plain]
      rfl

theorem ymcCompile_plain (depth : Nat) (fn : Addr) :
    (plain src).ymcCompile src depth fn = Ymd.ymcCompile src depth fn := by
  simp only [ymcCompile, Ymd.ymcCompile, parser_plain]

theorem ymdCompile_plain (depth : Nat) (name : Bytes) :
    (plain src).ymdCompile src depth name = Ymd.ymdCompile src depth name := by
  simp only [ymdCompile, Ymd.ymdCompile, ymcCompile_plain]

end

end Hooks

end Ymd
