import Ymd.Compiler.Emit

/-! # The parser

The `parse_` functions of `compiler.c`. Each returns the tree of what it read,
which the source does not build. The recursion between expressions and
statements goes through `Rec` and is tied by the number of nested calls;
`fuel` also bounds the rounds of a loop.
-/

namespace Ymd

variable {σ : Type}

/-- `parse_expr` and `parse_stmt`, for the functions they call. -/
structure Rec (σ : Type) where
  expr : (limit : Nat) → ParseM σ (Tree .expr × Option BinaryOp)
  stmt : ParseM σ (Tree .stmt)
  fuel : Nat

section

variable (src : Source σ) (r : Rec σ)

/-! ## Expressions -/

/-- The loop of `parse_array`. -/
def arrayElems : Nat → ParseM σ (Tree .args)
  | 0 => throw .fuel
  | fuel + 1 => do
      if (← ymcPeek) = .rbrack then return .noArgs
      let (e, _) ← r.expr 0
      if ← ymcTest src .comma then return .arg e (← arrayElems fuel)
      else return .arg e .noArgs

/-- `parse_array`. -/
def parseArray : ParseM σ (Tree .expr) := do
  ymcMatch src .lbrack
  let elems ← arrayElems src r r.fuel
  ymkEmitOfP .newdya 0 elems.argc
  return .array elems

/-- A key of `parse_map` and what separates it from the value. -/
def mapKey : ParseM σ (Tree .expr) := do
  match ← ymcPeek with
  | .SYMBOL =>
      let name ← ymkSymbol src
      ymkEmitPushz name
      ymcMatch src .colon
      return .key name
  | .STRING =>
      let raw := (← get).lah.text
      ymkEmitKz raw
      ymcNext src
      ymcMatch src .colon
      return .str raw
  | _ =>
      ymcMatch src .lbrack
      let (k, _) ← r.expr 0
      ymcMatch src .rbrack
      ymcMatch src .assign
      return k

/-- The loop of `parse_map`. -/
def mapEntries : Nat → ParseM σ (Tree .entries)
  | 0 => throw .fuel
  | fuel + 1 => do
      if (← ymcPeek) = .rbrace then return .noEntries
      let k ← mapKey src r
      let (v, _) ← r.expr 0
      if ← ymcTest src .comma then return .entry k v (← mapEntries fuel)
      else return .entry k v .noEntries

/-- `parse_map`. -/
def parseMap (ord : Bool) : ParseM σ (Tree .expr) := do
  ymcMatch src (if ord then .SKLS else .lbrace)
  let elems ← mapEntries src r r.fuel
  ymkEmitOfP (if ord then .newskl else .newmap) 0 elems.pairs
  return .map ord elems

/-- `parse_args`. -/
def parseArgs : Nat → ParseM σ (Tree .args)
  | 0 => throw .fuel
  | fuel + 1 => do
      let (e, _) ← r.expr 0
      if ← ymcTest src .comma then return .arg e (← parseArgs fuel)
      else return .arg e .noArgs

/-- `parse_callargs` up to its label `out`. -/
def callArgs : ParseM σ (Tree .args) := do
  match ← ymcPeek with
  | .lparen =>
      ymcNext src
      if (← ymcPeek) = .rparen then
        ymcNext src
        return .noArgs
      else
        let args ← parseArgs src r r.fuel
        ymcMatch src .rparen
        return args
  | .STRING =>
      let raw := (← get).lah.text
      ymkEmitKz raw
      ymcNext src
      return .arg (.str raw) .noArgs
  | _ => throw (.fail "Function arguments expected.")

/-- `parse_callargs`. -/
def parseCallargs (adjust : Nat) (method : Option Bytes) : ParseM σ (Tree .args) := do
  let args ← callArgs src r
  match method with
  | none => ymkEmitCall .call adjust args.argc 0
  | some method => ymkEmitSelfcall adjust args.argc method
  return args

/-- `parse_primary`. -/
def parsePrimary : ParseM σ (Tree .expr) := do
  match ← ymcPeek with
  | .lparen =>
      ymcNext src
      let (e, _) ← r.expr 0
      ymcMatch src .rparen
      return e
  | .SYMBOL =>
      let name ← ymkSymbol src
      ymkEmitPush name
      return .sym name
  | _ => throw (.fail "Unexpected symbol")

/-- The loop of `parse_suffixed`. -/
def suffixes : Nat → Tree .expr → ParseM σ (Tree .expr)
  | 0, _ => throw .fuel
  | fuel + 1, e => do
      match ← ymcPeek with
      | .dot =>
          ymcNext src
          let name ← ymkSymbol src
          ymkEmitGetf name
          suffixes fuel (.field e name)
      | .lbrack =>
          ymcNext src
          let (i, _) ← r.expr 0
          ymcMatch src .rbrack
          ymkEmitOfP .getf Flag.stack 1
          suffixes fuel (.index e i)
      | .colon =>
          ymcNext src
          let method ← ymkSymbol src
          let args ← parseCallargs src r 1 (some method)
          suffixes fuel (.selfcall e method args)
      | .lparen | .STRING =>
          let args ← parseCallargs src r 1 none
          suffixes fuel (.call e args)
      | _ => return e

/-- `parse_suffixed`. -/
def parseSuffixed : ParseM σ (Tree .expr) := do
  let e ← parsePrimary src r
  suffixes src r r.fuel e

/-! ## Functions -/

/-- The loop of `parse_bind`; the chunk of the closure comes and goes as a value. -/
def bindNames : Nat → Chunk → ParseM σ (List Bytes × Chunk)
  | 0, _ => throw .fuel
  | fuel + 1, core => do
      match ← ymcPeek with
      | .rbrack => return ([], core)
      | .SYMBOL =>
          let name ← ymkSymbol src
          let core ← ymkEmitBind name core
          if ← ymcTest src .comma then
            let (names, core) ← bindNames fuel core
            return (name :: names, core)
          else return ([name], core)
      | _ => throw (.fail "Bad bind declare.")

/-- `parse_bind`. -/
def parseBind (core : Chunk) : ParseM σ (List Bytes × Chunk) := do
  ymcNext src
  let (names, core) ← bindNames src r.fuel core
  ymcMatch src .rbrack
  if names.length % 2 ^ 16 = 0 then throw (.fail "No variable be binded.")
  ymkEmitOfP .bind 0 names.length
  return (names, core)

/-- The loop of `parse_params`. -/
def paramNames : Nat → ParseM σ (List Bytes)
  | 0 => throw .fuel
  | fuel + 1 => do
      match ← ymcPeek with
      | .rparen => return []
      | .SYMBOL =>
          let name ← ymkSymbol src
          let _ ← ymkNewLocvar name
          if ← ymcTest src .comma then return name :: (← paramNames fuel)
          else return [name]
      | _ => throw (.fail "Bad param declare.")

/-- `parse_params`. -/
def parseParams (method : Bool) : ParseM σ (List Bytes) := do
  ymcMatch src .lparen
  if method then
    let _ ← ymkNewLocvar (lit "self")
  let names ← paramNames src r.fuel
  let params := if method then lit "self" :: names else names
  ymcMatch src .rparen
  onBlk fun core => ({ core with kargs := params.length % 2 ^ 16 }, ())
  return params

/-- The loop of `parse_block`. -/
def blockStmts : Nat → ParseM σ (Tree .block)
  | 0 => throw .fuel
  | fuel + 1 => do
      if (← ymcPeek) = .rbrace then return .done
      let s ← r.stmt
      return .stmt s (← blockStmts fuel)

/-- `parse_block`. -/
def parseBlock : ParseM σ (Tree .block) := do
  ymcMatch src .lbrace
  let body ← blockStmts r r.fuel
  ymcNext src
  return body

/-- `ymk_chunk_reserved` on the top chunk. -/
def ymkChunkReserved : ParseM σ Unit :=
  onBlk fun core => ((core.addLz (lit "argv")).1, ())

/-- What `parse_func` and `parse_closure` do once the function object is made. -/
def parseBody (fn : Addr) (core : Chunk) (desc : FuncDeclDesc) : ParseM σ (Tree .func) := do
  ymkEnter core
  let params ← parseParams src r desc.method
  ymkChunkReserved
  let body ← parseBlock src r
  ymkEmitEnd
  ymkLeave fn
  ymkEmitFunc desc fn
  return .func fn params body

/-- `strcat(desc->name, ".")` and `strcat(desc->name, prefix)` on a buffer of
260 bytes. -/
def catName (name part : Bytes) : ParseM σ Bytes := do
  let name := name ++ lit "." ++ part
  if 260 ≤ name.length then throw (.fault (.bounds "desc->name"))
  return name

/-- The loop of `parse_func_decl` behind its first name; the names of the path,
the last one apart. -/
def declPath : Nat → Option Bytes → Bytes → ParseM σ (List Bytes × Bytes × Bytes)
  | 0, _, _ => throw .fuel
  | fuel + 1, last, name => do
      match last with
      | some last => ymkEmitGetf last
      | none => pure ()
      ymcMatch src .dot
      let next ← ymkSymbol src
      let name ← catName name next
      if (← ymcPeek) = .lparen then return ([], next, name)
      else
        let (path, last, name) ← declPath fuel (some next) name
        return (next :: path, last, name)

/-- `parse_func_decl`; the path it declares comes with the description. -/
def parseFuncDecl (first : Bytes) (isLocal : Bool) : ParseM σ (List Bytes × FuncDeclDesc) := do
  if 260 ≤ first.length then throw (.fault (.bounds "desc->name"))
  if (← ymcPeek) = .dot then
    ymkEmitPush first
    let (path, last, name) ← declPath src r.fuel none first
    let loadP ← ymkHold
    ymkEmitSetf last
    return (first :: path ++ [last], ⟨true, name, loadP, 0⟩)
  else
    let loadP ← ymkHold
    if isLocal then
      let _ ← ymkNewLocvar first
    ymkEmitStore first
    return ([first], ⟨false, first, loadP, 0⟩)

/-- `parse_func`. -/
def parseFunc (isLocal : Bool) : ParseM σ (Tree .stmt) := do
  ymcNext src
  if (← ymcPeek) ≠ .SYMBOL then throw (.fail "Function need a name.")
  let (path, desc) ← parseFuncDecl src r (← ymkSymbol src) isLocal
  let fn ← ymdFunc desc.name
  return .funcDecl path (← parseBody src r fn .zero desc)

/-- `parse_closure`. -/
def parseClosure : ParseM σ (Tree .expr) := do
  ymcNext src
  let loadP ← ymkHold
  let line := src.line (← get).lex
  let fn ← ymdFunc (lit "__blk_xl" ++ lit (toString line) ++ lit "__")
  let (binds, core) ←
    if (← ymcPeek) = .lbrack then parseBind src r .zero else pure ([], .zero)
  return .closure binds (← parseBody src r fn core ⟨false, [], loadP, binds.length % 2 ^ 16⟩)

/-! ## Operators -/

/-- `parse_simple`. -/
def parseSimple : ParseM σ (Tree .expr) := do
  match ← ymcPeek with
  | .NIL =>
      ymkEmitOfP .push Flag.nil 0
      ymcNext src
      return .nil
  | .TRUE =>
      ymkEmitOfP .push Flag.bool 1
      ymcNext src
      return .bool true
  | .FALSE =>
      ymkEmitOfP .push Flag.bool 0
      ymcNext src
      return .bool false
  | .DEC_LITERAL =>
      let raw := (← get).lah.text
      match dtoll raw with
      | none => throw (.fault (.assertion "ok"))
      | some imm => ymkEmitInt imm
      ymcNext src
      return .dec raw
  | .HEX_LITERAL =>
      let raw := (← get).lah.text
      match xtoll raw with
      | .ok (some imm) => ymkEmitInt imm
      | .ok none => throw (.fault (.assertion "ok"))
      | .error f => throw (.fault f)
      ymcNext src
      return .hex raw
  | .STRING =>
      let raw := (← get).lah.text
      ymkEmitKz raw
      ymcNext src
      return .str raw
  | .lbrace =>
      let e ← parseMap src r false
      ymcNext src
      return e
  | .SKLS =>
      let e ← parseMap src r true
      ymcNext src
      return e
  | .lbrack =>
      let e ← parseArray src r
      ymcNext src
      return e
  | .FUNC => parseClosure src r
  | _ => parseSuffixed src r

/-- `prio`, the left and the right priority of a binary operator. -/
def prio : BinaryOp → Nat × Nat
  | .add => (6, 6)
  | .sub => (6, 6)
  | .mul => (7, 7)
  | .div => (7, 7)
  | .mod => (7, 7)
  | .eq => (3, 3)
  | .ne => (3, 3)
  | .match' => (3, 3)
  | .lt => (3, 3)
  | .le => (3, 3)
  | .gt => (3, 3)
  | .ge => (3, 3)
  | .and => (2, 2)
  | .or => (1, 1)

/-- `PRIO_UNARY`. -/
def prioUnary : Nat := 8

/-- `ymc_unary_op`; `none` for `OP_NOT_UNARY`. -/
def ymcUnaryOp : Token → Option UnaryOp
  | .minus => some .mins
  | .NOT => some .not
  | .bang => some .notNil
  | .TYPEOF => some .typeof
  | _ => none

/-- `ymc_binary_op`; `none` for `OP_NOT_BINARY`. -/
def ymcBinaryOp : Token → Option BinaryOp
  | .plus => some .add
  | .minus => some .sub
  | .star => some .mul
  | .slash => some .div
  | .percent => some .mod
  | .EQ => some .eq
  | .NE => some .ne
  | .MATCH => some .match'
  | .less => some .lt
  | .LE => some .le
  | .greater => some .gt
  | .GE => some .ge
  | .AND => some .and
  | .OR => some .or
  | _ => none

/-- `ymk_unary`. -/
def ymkUnary : UnaryOp → ParseM σ Unit
  | .mins => ymkEmitOfP .inv 0 0
  | .not => ymkEmitOfP .not 0 0
  | .notNil => ymkEmitOfP .not 0 0
  | .typeof => ymkEmitOfP .typeof 0 0

/-- `ymk_hold_logc`. -/
def ymkHoldLogc : BinaryOp → ParseM σ Nat
  | .and => ymkHold
  | .or => ymkHold
  | _ => return 0

/-- `ymk_binary`. -/
def ymkBinary (op : BinaryOp) (ipos : Nat) : ParseM σ Unit :=
  match op with
  | .add => ymkEmitOfP .add 0 0
  | .sub => ymkEmitOfP .sub 0 0
  | .mul => ymkEmitOfP .mul 0 0
  | .div => ymkEmitOfP .div 0 0
  | .mod => ymkEmitOfP .mod 0 0
  | .eq => ymkEmitOfP .test Flag.eq 0
  | .ne => ymkEmitOfP .test Flag.ne 0
  | .match' => ymkEmitOfP .test Flag.match' 0
  | .lt => ymkEmitOfP .test Flag.lt 0
  | .le => ymkEmitOfP .test Flag.le 0
  | .gt => ymkEmitOfP .test Flag.gt 0
  | .ge => ymkEmitOfP .test Flag.ge 0
  | .and => ymkHackJmp ipos .jnt
  | .or => ymkHackJmp ipos .jnn

/-- The loop of `parse_expr`. -/
def binaries (limit : Nat) : Nat → Tree .expr → Option BinaryOp →
    ParseM σ (Tree .expr × Option BinaryOp)
  | 0, _, _ => throw .fuel
  | fuel + 1, e, op => do
      match op with
      | none => return (e, none)
      | some op =>
          if limit < (prio op).1 then
            ymcNext src
            let i ← ymkHoldLogc op
            let (rhs, nextOp) ← r.expr (prio op).2
            ymkBinary op i
            binaries limit fuel (.binary op e rhs) nextOp
          else return (e, some op)

/-- The first operand of `parse_expr`. -/
def parseOperand : ParseM σ (Tree .expr) := do
  match ymcUnaryOp (← ymcPeek) with
  | some op =>
      ymcNext src
      let (e, _) ← r.expr prioUnary
      ymkUnary op
      return .unary op e
  | none => parseSimple src r

/-- `parse_expr`. -/
def parseExpr (limit : Nat) : ParseM σ (Tree .expr × Option BinaryOp) := do
  let e ← parseOperand src r
  binaries src r limit r.fuel e (ymcBinaryOp (← ymcPeek))

/-! ## Statements -/

/-- `ymk_lval_partial`. -/
def ymkLvalPartial : Tree .lval → ParseM σ Unit
  | .lsym name => ymkEmitPush name
  | .lindex _ _ => ymkEmitOfP .getf Flag.stack 1
  | .lfield _ name => ymkEmitGetf name
  | .lcall _ _ => pure ()
  | .lselfcall _ _ _ => pure ()

/-- `ymk_lval_finish`. -/
def ymkLvalFinish : Tree .lval → ParseM σ Unit
  | .lsym name => ymkEmitStore name
  | .lindex _ _ => ymkEmitOfP .setf Flag.stack 1
  | .lfield _ name => ymkEmitSetf name
  | .lcall _ _ => throw (.fail "Syntax error, call is not lval.")
  | .lselfcall _ _ _ => throw (.fail "Syntax error, call is not lval.")

/-- The loop of `parse_lval`. -/
def lvalSuffixes : Nat → Tree .lval → ParseM σ (Tree .lval)
  | 0, _ => throw .fuel
  | fuel + 1, lv => do
      match ← ymcPeek with
      | .dot =>
          ymkLvalPartial lv
          ymcNext src
          let name ← ymkSymbol src
          lvalSuffixes fuel (.lfield lv name)
      | .lbrack =>
          ymkLvalPartial lv
          ymcNext src
          let (i, _) ← r.expr 0
          ymcMatch src .rbrack
          lvalSuffixes fuel (.lindex lv i)
      | .colon =>
          ymkLvalPartial lv
          ymcNext src
          let method ← ymkSymbol src
          let args ← parseCallargs src r 0 (some method)
          lvalSuffixes fuel (.lselfcall lv method args)
      | .lparen | .STRING =>
          ymkLvalPartial lv
          let args ← parseCallargs src r 0 none
          lvalSuffixes fuel (.lcall lv args)
      | _ => return lv

/-- `parse_lval`. -/
def parseLval : ParseM σ (Tree .lval) := do
  match ← ymcPeek with
  | .SYMBOL =>
      let name ← ymkSymbol src
      lvalSuffixes src r r.fuel (.lsym name)
  | _ => throw (.fail "Unexpected symbol.")

/-- Whether the last part of a left side is a call. -/
def isCall : Tree .lval → Bool
  | .lcall _ _ => true
  | .lselfcall _ _ _ => true
  | _ => false

/-- `parse_expr_stat`. -/
def parseExprStat : ParseM σ (Tree .stmt) := do
  let lv ← parseLval src r
  if (← ymcPeek) = .assign then
    ymcNext src
    let (e, _) ← r.expr 0
    ymkLvalFinish lv
    return .assign lv e
  else if isCall lv then return .callStmt lv
  else throw (.fail "Syntax error.")

/-- `parse_return`. -/
def parseReturn : ParseM σ (Tree .stmt) := do
  ymcNext src
  let (e, _) ← r.expr 0
  ymkEmitOfP .ret 0 1
  return .ret e

/-- `parse_decl`; the tree of the declarations behind it is put in place. -/
def parseDecl : ParseM σ (Tree .decls → Tree .decls) := do
  let name ← ymkSymbol src
  let i ← ymkNewLocvar name
  if (← ymcPeek) ≠ .assign then return .decl name
  ymcNext src
  let (e, _) ← r.expr 0
  ymkEmitOfP .store Flag.loc i
  return .init name e

/-- The loop of `parse_local`, with the declaration in front of it. -/
def parseDecls : Nat → ParseM σ (Tree .decls)
  | 0 => throw .fuel
  | fuel + 1 => do
      let put ← parseDecl src r
      if ← ymcTest src .comma then return put (← parseDecls fuel)
      else return put .noDecls

/-- `parse_local`. -/
def parseLocal : ParseM σ (Tree .stmt) := do
  ymcNext src
  if (← ymcPeek) = .FUNC then parseFunc src r true
  else return .locals (← parseDecls src r r.fuel)

/-- `jout[i++] = ymk_hold(p)` on an array of 128 positions. -/
def holdJout (jout : List Nat) : ParseM σ (List Nat) := do
  if 128 ≤ jout.length then throw (.fault (.bounds "jout"))
  return jout ++ [← ymkHold]

/-- The loop over `jout` at the end of `parse_if`. -/
def fillJout : List Nat → ParseM σ Unit
  | [] => pure ()
  | i :: rest => do
      ymkHackJmp i .jmp
      fillJout rest

/-- The branches of `parse_if` behind the first one, and the end of it. `jnxt`
is the position reserved for the last condition, `nsub` the number of branches
behind the first one. -/
def elifs : Nat → (jnxt : Nat) → (jout : List Nat) → (nsub : Nat) → ParseM σ (Tree .elifs)
  | 0, _, _, _ => throw .fuel
  | fuel + 1, jnxt, jout, nsub => do
      match ← ymcPeek with
      | .ELIF =>
          ymcNext src
          let jout ← holdJout jout
          ymkHackJmp jnxt .jne
          let (cond, _) ← r.expr 0
          let jnxt ← ymkHold
          let body ← parseBlock src r
          return .elif cond body (← elifs fuel jnxt jout (nsub + 1))
      | .ELSE =>
          ymcNext src
          let jout ← holdJout jout
          ymkHackJmp jnxt .jne
          let body ← parseBlock src r
          fillJout jout.reverse
          return .else' body
      | _ =>
          fillJout jout.reverse
          if nsub = 0 then ymkHackJmp jnxt .jne
          return .noElse

/-- `parse_if`. -/
def parseIf : ParseM σ (Tree .stmt) := do
  ymcNext src
  let (cond, _) ← r.expr 0
  let jnxt ← ymkHold
  let body ← parseBlock src r
  return .if' cond body (← elifs src r r.fuel jnxt [] 0)

/-- The part of `parse_for` that reads `symbol in expr`. -/
def parseIn (tmp : Bytes) : ParseM σ (Tree .stmt) := do
  ymcMatch src .IN
  let (e, _) ← r.expr 0
  let p ← get
  let iter := lit "__loop_iter_" ++ lit (toString p.forId) ++ lit "__"
  set { p with forId := p.forId + 1 }
  ymkEmitOfP .store Flag.loc (← ymkNewLocvar iter)
  let retry ← ymkIpos
  onLoop fun info => { info with iRetry := retry }
  ymkEmitPush iter
  ymkEmitCall .call 1 0 0
  let jcond ← ymkHold
  onLoop fun info => { info with iJcond := jcond }
  ymkEmitStore tmp
  let body ← parseBlock src r
  ymkLoopLeave
  return .forIn tmp e body

/-- `parse_for`. -/
def parseFor : ParseM σ (Tree .stmt) := do
  ymcNext src
  ymkLoopEnter
  match ← ymcPeek with
  | .lbrace =>
      let retry ← ymkIpos
      onLoop fun info => { info with death := true, iRetry := retry }
      let body ← parseBlock src r
      ymkLoopLeave
      return .forever body
  | .VAR =>
      ymcNext src
      let tmp ← ymkSymbol src
      let _ ← ymkNewLocvar tmp
      parseIn src r tmp
  | .SYMBOL => parseIn src r (← ymkSymbol src)
  | _ => throw (.fail "Syntax error.")

/-- `p->loop->jmt[p->loop->njmt++] = ymk_hold(p)` on an array of 128 positions. -/
def holdBreak : ParseM σ Unit := do
  let info ← theLoop
  if 128 ≤ info.jmt.length then throw (.fault (.bounds "p->loop->jmt"))
  let i ← ymkHold
  onLoop fun info => { info with jmt := info.jmt ++ [i] }

/-- `parse_goto` for `break`. -/
def parseBreak : ParseM σ (Tree .stmt) := do
  holdBreak
  ymcNext src
  return .break'

/-- `parse_goto` for `continue`. -/
def parseContinue : ParseM σ (Tree .stmt) := do
  ymkEmitJmp (← theLoop).iRetry
  ymcNext src
  return .continue'

/-- `parse_stmt`; `with` is read by nothing. -/
def parseStmt : ParseM σ (Tree .stmt) := do
  match ← ymcPeek with
  | .semicolon =>
      ymcNext src
      return .empty
  | .IF => parseIf src r
  | .WITH => return .empty
  | .FOR => parseFor src r
  | .FUNC => parseFunc src r false
  | .VAR => parseLocal src r
  | .RETURN => parseReturn src r
  | .BREAK => parseBreak src
  | .CONTINUE => parseContinue src
  | _ => parseExprStat src r

end

section

variable (src : Source σ)

/-- The parser with at most `depth` nested calls of `parse_expr` and `parse_stmt`. -/
def parser : (depth : Nat) → Rec σ
  | 0 => ⟨fun _ => throw .fuel, throw .fuel, 0⟩
  | depth + 1 => ⟨parseExpr src (parser depth), parseStmt src (parser depth), depth⟩

/-- The statements of `ymc_compile`. -/
def topStmts (r : Rec σ) : Nat → ParseM σ (Tree .block)
  | 0 => throw .fuel
  | fuel + 1 => do
      if (← ymcPeek) = .EOS then return .done
      let s ← r.stmt
      return .stmt s (← topStmts r fuel)

/-- `ymc_compile` for the chunk of the function object `fn`. -/
def ymcCompile (depth : Nat) (fn : Addr) : ParseM σ (Tree .func) := do
  ymcNext src
  ymkEnter (Chunk.zero.addLz (lit "argv")).1
  let body ← topStmts (parser src depth) depth
  ymkEmitEnd
  ymkLeave fn
  return .func fn [] body

/-- `ymd_compile` up to its result: the function object is on the stack. -/
def ymdCompile (depth : Nat) (name : Bytes) : ParseM σ (Tree .func) := do
  ymcCompile src depth (← ymdFunc name)

end

/-- The lexer as the source of tokens. -/
def Lex.source : Source Lex := ⟨fun lex => Lex.next lex, Lex.iLine⟩

/-- A sequence of tokens as the source of tokens; behind its end is `EOS`, or `ERROR`. -/
def tokenSource (line : List Ytoken → Nat) (faulty : Bool) : Source (List Ytoken) where
  next
    | [] => .ok (⟨if faulty then .ERROR else .EOS, 0, 0, []⟩, [])
    | t :: ts => .ok (t, ts)
  line := line

/-- The parser in front of a text, before the first token is read. -/
def Parser.init (lex : σ) (heap : Heap) (stk : List Variable) : Parser σ :=
  ⟨lex, ⟨.EOS, 0, 0, []⟩, .zero, [], [], 0, heap, stk⟩

end Ymd
