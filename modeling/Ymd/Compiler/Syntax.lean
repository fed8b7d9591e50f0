import Ymd.Value.Variable

/-! # Syntax trees

What the parser reads, as one family of trees over the categories of the
grammar. A function carries the address of the function object made for it.
-/

namespace Ymd

/-- The operators of `ymc_unary_op`. -/
inductive UnaryOp
  | mins | not | notNil | typeof
  deriving DecidableEq, Repr

/-- The operators of `ymc_binary_op`. -/
inductive BinaryOp
  | add | sub | mul | div | mod
  | eq | ne | match'
  | lt | le | gt | ge
  | and | or
  deriving DecidableEq, Repr

inductive Category
  | expr
  | args
  | entries
  | func
  | lval
  | stmt
  | block
  | elifs
  | decls

/-- The trees of a category. -/
inductive Tree : Category → Type
  -- expressions; `key` is a symbol used as the key of a map literal
  | nil : Tree .expr
  | bool (b : Bool) : Tree .expr
  | dec (raw : Bytes) : Tree .expr
  | hex (raw : Bytes) : Tree .expr
  | str (raw : Bytes) : Tree .expr
  | sym (name : Bytes) : Tree .expr
  | key (name : Bytes) : Tree .expr
  | unary (op : UnaryOp) (e : Tree .expr) : Tree .expr
  | binary (op : BinaryOp) (l r : Tree .expr) : Tree .expr
  | array (elems : Tree .args) : Tree .expr
  | map (ord : Bool) (elems : Tree .entries) : Tree .expr
  | closure (binds : List Bytes) (fn : Tree .func) : Tree .expr
  | field (e : Tree .expr) (name : Bytes) : Tree .expr
  | index (e i : Tree .expr) : Tree .expr
  | call (e : Tree .expr) (args : Tree .args) : Tree .expr
  | selfcall (e : Tree .expr) (method : Bytes) (args : Tree .args) : Tree .expr
  | noArgs : Tree .args
  | arg (e : Tree .expr) (rest : Tree .args) : Tree .args
  | noEntries : Tree .entries
  | entry (k v : Tree .expr) (rest : Tree .entries) : Tree .entries
  | func (fn : Addr) (params : List Bytes) (body : Tree .block) : Tree .func
  -- left sides of statements
  | lsym (name : Bytes) : Tree .lval
  | lfield (lv : Tree .lval) (name : Bytes) : Tree .lval
  | lindex (lv : Tree .lval) (i : Tree .expr) : Tree .lval
  | lcall (lv : Tree .lval) (args : Tree .args) : Tree .lval
  | lselfcall (lv : Tree .lval) (method : Bytes) (args : Tree .args) : Tree .lval
  -- statements; a function declaration has the path of names it is stored under
  | empty : Tree .stmt
  | callStmt (lv : Tree .lval) : Tree .stmt
  | assign (lv : Tree .lval) (e : Tree .expr) : Tree .stmt
  | locals (decls : Tree .decls) : Tree .stmt
  | funcDecl (path : List Bytes) (fn : Tree .func) : Tree .stmt
  | ret (e : Tree .expr) : Tree .stmt
  | if' (cond : Tree .expr) (body : Tree .block) (elifs : Tree .elifs) : Tree .stmt
  | forever (body : Tree .block) : Tree .stmt
  | forIn (name : Bytes) (e : Tree .expr) (body : Tree .block) : Tree .stmt
  | break' : Tree .stmt
  | continue' : Tree .stmt
  | done : Tree .block
  | stmt (s : Tree .stmt) (rest : Tree .block) : Tree .block
  -- what follows the first branch of an `if`
  | noElse : Tree .elifs
  | else' (body : Tree .block) : Tree .elifs
  | elif (cond : Tree .expr) (body : Tree .block) (rest : Tree .elifs) : Tree .elifs
  | noDecls : Tree .decls
  | decl (name : Bytes) (rest : Tree .decls) : Tree .decls
  | init (name : Bytes) (e : Tree .expr) (rest : Tree .decls) : Tree .decls

namespace Tree

/-- The number of expressions of an argument list. -/
def argc : {c : Category} → Tree c → Nat
  | _, arg _ rest => argc rest + 1
  | _, _ => 0

/-- The number of pairs of a map literal. -/
def pairs : {c : Category} → Tree c → Nat
  | _, entry _ _ rest => pairs rest + 1
  | _, _ => 0

end Tree

end Ymd
