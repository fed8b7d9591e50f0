import Ymd.Code.Literal
import Ymd.Compiler.Syntax
import Ymd.Machine.Run

/-! # What expressions and statements mean

An evaluator of syntax trees: operands from left to right, `and` and `or` only as far
as they need, loops for a number of rounds. It has no operand stack and no code. Calls
and functions are left out.
-/

namespace Ymd

/-- What a left side stands for, up to its last part. -/
inductive Place
  | name (z : Bytes)
  | field (obj : Variable) (z : Bytes)
  | index (obj key : Variable)

/-- How a statement ends; `unfinished` if it needs more rounds of a loop. -/
inductive StmtEnd
  | normal
  | break'
  | continue'
  | ret (v : Variable)
  | unfinished

/-- What the trees of a category stand for. -/
@[reducible] def Category.Value : Category → Type
  | .expr => Variable
  | .args => List Variable
  | .entries => List (Variable × Variable)
  | .lval => Place
  | .func => Unit
  | .stmt => StmtEnd
  | .block => StmtEnd
  | .elifs => StmtEnd
  | .decls => StmtEnd

namespace Tree

/-- Whether a chain of conditions ends with an `else`. -/
def hasElse : {c : Category} → Tree c → Bool
  | _, noElse => false
  | _, _ => true

/-- Trees without calls, functions and iterators. Behind an `elif` comes an `else`. -/
def plain : {c : Category} → Tree c → Bool
  | _, nil => true
  | _, bool _ => true
  | _, dec _ => true
  | _, hex _ => true
  | _, str _ => true
  | _, sym _ => true
  | _, key _ => true
  | _, unary _ e => e.plain
  | _, binary _ l r => l.plain && r.plain
  | _, array elems => elems.plain
  | _, map _ elems => elems.plain
  | _, field e _ => e.plain
  | _, index e i => e.plain && i.plain
  | _, noArgs => true
  | _, arg e rest => e.plain && rest.plain
  | _, noEntries => true
  | _, entry k v rest => k.plain && v.plain && rest.plain
  | _, lsym _ => true
  | _, lfield lv _ => lv.plain
  | _, lindex lv i => lv.plain && i.plain
  | _, empty => true
  | _, assign lv e => lv.plain && e.plain
  | _, locals decls => decls.plain
  | _, ret e => e.plain
  | _, if' cond body elifs => cond.plain && body.plain && elifs.plain
  | _, forever body => body.plain
  | _, break' => true
  | _, continue' => true
  | _, done => true
  | _, stmt s rest => s.plain && rest.plain
  | _, noElse => true
  | _, else' body => body.plain
  | _, elif cond body rest => cond.plain && body.plain && rest.plain && rest.hasElse
  | _, noDecls => true
  | _, decl _ rest => rest.plain
  | _, init _ e rest => e.plain && rest.plain
  | _, _ => false

/-- The scope behind a tree. -/
def scope : {c : Category} → Tree c → List Bytes → List Bytes
  | _, locals decls, names => decls.scope names
  | _, if' _ body elifs, names => elifs.scope (body.scope names)
  | _, forever body, names => body.scope names
  | _, stmt s rest, names => rest.scope (s.scope names)
  | _, else' body, names => body.scope names
  | _, elif _ body rest, names => rest.scope (body.scope names)
  | _, decl name rest, names => rest.scope (names ++ [name])
  | _, init name _ rest, names => rest.scope (names ++ [name])
  | _, _, names => names

/-- The constant that stands for a literal or a key. -/
def constant : {c : Category} → Tree c → Option Variable
  | _, dec raw => (dtoll raw).map .int
  | _, hex raw =>
      match xtoll raw with
      | .ok imm => imm.map .int
      | .error _ => none
  | _, str raw => (stresc raw).map .kstr
  | _, key name => some (.kstr (Chunk.kstrFetch name (-1)))
  | _, _ => none

end Tree

/-- A unary operator on a value. -/
def UnaryOp.apply : UnaryOp → Variable → VmM Variable
  | .mins, v => lift (opInv v)
  | .not, v => return opNot v
  | .notNil, v => return opNot v
  | .typeof, v => return opTypeof v

section

variable (env : Env)

/-- A binary operator on two values; `and` and `or` do not get that far. -/
def BinaryOp.apply : BinaryOp → Variable → Variable → VmM Variable
  | .add, a, b => lift (opAdd a b)
  | .sub, a, b => lift (arith (· - ·) a b)
  | .mul, a, b => lift (arith (· * ·) a b)
  | .div, a, b => lift (opDiv a b)
  | .mod, a, b => lift (opMod a b)
  | .eq, a, b => opTest env Flag.eq a b
  | .ne, a, b => opTest env Flag.ne a b
  | .match', a, b => opTest env Flag.match' a b
  | .lt, a, b => opTest env Flag.lt a b
  | .le, a, b => opTest env Flag.le a b
  | .gt, a, b => opTest env Flag.gt a b
  | .ge, a, b => opTest env Flag.ge a b
  | .and, _, b => return b
  | .or, _, b => return b

/-- The check of the elements of an array. -/
def checkValues : List Variable → VmM Unit
  | [] => pure ()
  | v :: vs => do
      checkValue v
      checkValues vs

/-- A new array. -/
def newDyay (vs : List Variable) : VmM Variable := do
  checkValues vs
  return .dyay (← gcNew (.dyay vs))

/-- The pairs of a literal go into a map one after another. -/
def putPairs : List (Variable × Variable) → Hmap → VmM Hmap
  | [], map => return map
  | (k, v) :: pairs, map => do
      checkPair k v
      let x ← check (map.put (← keyOps env) env.depth k)
      putPairs pairs (x.store v)

/-- The same for a list. -/
def putSorted : List (Variable × Variable) → Skls → VmM Skls
  | [], list => return list
  | (k, v) :: pairs, list => do
      checkPair k v
      let x ← check (list.put (← keyOps env) k (← randlv))
      putSorted pairs (Skls.store x v)

/-- A new map or a new list; the last pair goes first. -/
def newPairs (ord : Bool) (pairs : List (Variable × Variable)) : VmM Variable :=
  if ord then do
    let list ← putSorted env pairs.reverse .new
    return .skls (← gcNew (.skls list))
  else do
    let map ← check (Hmap.new pairs.length)
    let map ← putPairs env pairs.reverse map
    return .hmap (← gcNew (.hmap map))

/-- The global variable of a name. -/
def globalOf (name : Bytes) : VmM Variable := do
  hmapGet env (← get).global (.kstr (Chunk.kstrFetch name (-1)))

/-- An assignment to the global variable of a name. -/
def putGlobal (name : Bytes) (v : Variable) : VmM Unit := do
  let global := (← get).global
  let x ← hmapPut env global (.kstr (Chunk.kstrFetch name (-1)))
  storeObj global (.hmap (x.store v))

/-- A literal that has no value is not read. -/
def constantOf : Option Variable → VmM Variable
  | some v => return v
  | none => fault (.assertion "ok")

end

/-- The local variable of a name. -/
def lookIn (names : List Bytes) (name : Bytes) : Option Nat := names.findIdx? (· = name)

section

variable (env : Env) (info : CallInfo) (look : Bytes → Option Nat)

/-- The variable of a name in the frame `info`; `look` finds its local variables. -/
def valueOf (name : Bytes) : VmM Variable :=
  match look name with
  | some i => loadLocal info i
  | none => globalOf env name

/-- An assignment to it. -/
def assignTo (name : Bytes) (v : Variable) : VmM Unit :=
  match look name with
  | some i => storeLocal info i v
  | none => putGlobal env name v

def Place.read : Place → VmM Variable
  | .name z => valueOf env info look z
  | .field obj z => vmGet env obj (.kstr (Chunk.kstrFetch z (-1)))
  | .index obj key => vmGet env obj key

def Place.write : Place → Variable → VmM Unit
  | .name z, v => assignTo env info look z v
  | .field obj z, v => vmIput env obj (.kstr (Chunk.kstrFetch z (-1))) v
  | .index obj key, v => vmIput env obj key v

end

/-- The rounds of a loop. -/
def rounds (body : VmM StmtEnd) : Nat → VmM StmtEnd
  | 0 => return .unfinished
  | n + 1 => do
      match ← body with
      | .normal => rounds body n
      | .continue' => rounds body n
      | .break' => return .normal
      | .ret v => return .ret v
      | .unfinished => return .unfinished

namespace Tree

section

variable (env : Env) (info : CallInfo) (look : Bytes → Option Nat)

/-- The value of an expression, and what a left side stands for. -/
def eval : {c : Category} → Tree c → VmM c.Value
  | _, nil => return Variable.nil
  | _, bool b => return boolVar b
  | _, dec raw => constantOf (constant (dec raw))
  | _, hex raw => constantOf (constant (hex raw))
  | _, str raw => constantOf (constant (str raw))
  | _, key name => constantOf (constant (key name))
  | _, sym name => valueOf env info look name
  | _, unary op e => do
      let v ← eval e
      op.apply v
  | _, binary .and l r => do
      let a ← eval l
      if vmBool a then eval r else return a
  | _, binary .or l r => do
      let a ← eval l
      if vmBool a then return a else eval r
  | _, binary op l r => do
      let a ← eval l
      let b ← eval r
      op.apply env a b
  | _, array elems => do
      let vs ← eval elems
      newDyay vs
  | _, map ord elems => do
      let pairs ← eval elems
      newPairs env ord pairs
  | _, field e name => do
      let a ← eval e
      vmGet env a (.kstr (Chunk.kstrFetch name (-1)))
  | _, index e i => do
      let a ← eval e
      let k ← eval i
      vmGet env a k
  | _, noArgs => return []
  | _, arg e rest => do
      let v ← eval e
      let vs ← eval rest
      return v :: vs
  | _, noEntries => return []
  | _, entry k v rest => do
      let key ← eval k
      let value ← eval v
      let pairs ← eval rest
      return (key, value) :: pairs
  | _, lsym name => return .name name
  | _, lfield lv name => do
      let place ← eval lv
      let obj ← place.read env info look
      return .field obj name
  | _, lindex lv i => do
      let place ← eval lv
      let obj ← place.read env info look
      let key ← eval i
      return .index obj key
  | _, _ => fault (.assertion "0")

end

section

variable (env : Env) (info : CallInfo) (fuel : Nat)

/-- What a statement does in a scope, with `fuel` rounds for each loop. -/
def exec : {c : Category} → Tree c → List Bytes → VmM StmtEnd
  | _, assign lv e, names => do
      let place ← lv.eval env info (lookIn names)
      let v ← e.eval env info (lookIn names)
      place.write env info (lookIn names) v
      return .normal
  | _, locals decls, names => exec decls names
  | _, ret e, names => do
      let v ← e.eval env info (lookIn names)
      return .ret v
  | _, if' cond body elifs, names => do
      let v ← cond.eval env info (lookIn names)
      if vmBool v then exec body names else exec elifs (body.scope names)
  | _, forever body, names => rounds (exec body names) fuel
  | _, break', _ => return .break'
  | _, continue', _ => return .continue'
  | _, stmt s rest, names => do
      match ← exec s names with
      | .normal => exec rest (s.scope names)
      | other => return other
  | _, else' body, names => exec body names
  | _, elif cond body rest, names => do
      let v ← cond.eval env info (lookIn names)
      if vmBool v then exec body names else exec rest (body.scope names)
  | _, decl name rest, names => exec rest (names ++ [name])
  | _, init name e rest, names => do
      let v ← e.eval env info (lookIn (names ++ [name]))
      storeLocal info names.length v
      exec rest (names ++ [name])
  | _, _, _ => return .normal

end

/-- The operands that wait for the value of an assignment. -/
def waiting : {c : Category} → Tree c → Nat
  | _, lfield _ _ => 1
  | _, lindex _ _ => 2
  | _, _ => 0

/-- The operands that code for the tree needs room for. -/
def room : {c : Category} → Tree c → Nat
  | _, unary _ e => e.room
  | _, binary .and l r => max l.room r.room
  | _, binary .or l r => max l.room r.room
  | _, binary _ l r => max l.room (r.room + 1)
  | _, array elems => max 1 elems.room
  | _, map _ elems => max 1 elems.room
  | _, field e _ => e.room
  | _, index e i => max e.room (i.room + 1)
  | _, noArgs => 0
  | _, arg e rest => max e.room (rest.room + 1)
  | _, noEntries => 0
  | _, entry k v rest => max k.room (max (v.room + 1) (rest.room + 2))
  | _, lsym _ => 0
  | _, lfield lv _ => max lv.room 1
  | _, lindex lv i => max lv.room (i.room + 1)
  | _, empty => 0
  | _, assign lv e => max lv.room (e.room + lv.waiting)
  | _, locals decls => decls.room
  | _, ret e => e.room
  | _, if' cond body elifs => max cond.room (max body.room elifs.room)
  | _, forever body => body.room
  | _, break' => 0
  | _, continue' => 0
  | _, done => 0
  | _, stmt s rest => max s.room rest.room
  | _, noElse => 0
  | _, else' body => body.room
  | _, elif cond body rest => max cond.room (max body.room rest.room)
  | _, noDecls => 0
  | _, decl _ rest => rest.room
  | _, init _ e rest => max e.room rest.room
  | _, _ => 1

end Tree

end Ymd
