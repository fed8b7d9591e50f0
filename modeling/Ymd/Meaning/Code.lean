import Ymd.Meaning.Evaluation

/-! # Code for expressions and statements

Which instructions of a chunk are code for a tree: the shape that the compiler gives
to it, with the constants and the jumps that belong to it.
-/

namespace Ymd

/-- An instruction of the chunk with an operand that fits. -/
structure Chunk.Has (core : Chunk) (i : Nat) (op : Opcode) (flag : BitVec 8) (k : Nat) : Prop where
  inst : core.inst[i]? = some (asmBuild op.code flag (BitVec.ofNat 16 k))
  fits : k < 2 ^ 16

def UnaryOp.opcode : UnaryOp → Opcode
  | .mins => .inv
  | .not => .not
  | .notNil => .not
  | .typeof => .typeof

/-- The instruction of a binary operator, and its flag. -/
def BinaryOp.opcode : BinaryOp → Opcode × BitVec 8
  | .add => (.add, 0)
  | .sub => (.sub, 0)
  | .mul => (.mul, 0)
  | .div => (.div, 0)
  | .mod => (.mod, 0)
  | .eq => (.test, Flag.eq)
  | .ne => (.test, Flag.ne)
  | .match' => (.test, Flag.match')
  | .lt => (.test, Flag.lt)
  | .le => (.test, Flag.le)
  | .gt => (.test, Flag.gt)
  | .ge => (.test, Flag.ge)
  | .and => (.jnt, Flag.forward)
  | .or => (.jnn, Flag.forward)

/-- Whether the right operand is skipped for some values of the left one. -/
def BinaryOp.isLogic : BinaryOp → Bool
  | .and => true
  | .or => true
  | _ => false

/-- What the instructions of a chunk from one position up to another one may be, in a
scope. -/
abbrev CodeShape := Chunk → (Bytes → Option Nat) → Nat → Nat → Prop

namespace CodeShape

/-- One piece of code behind another one. -/
def then' (s s' : CodeShape) : CodeShape := fun core look i k => ∃ j, s core look i j ∧ s' core look j k

/-- One instruction. -/
def inst (op : Opcode) (flag : BitVec 8) (k : Nat) : CodeShape := fun core _ i j =>
  core.Has i op flag k ∧ j = i + 1

/-- One instruction whose operand is a constant. -/
def const (op : Opcode) (flag : BitVec 8) (v : Variable) : CodeShape := fun core _ i j =>
  ∃ k, core.Has i op flag k ∧ core.kval[k]? = some v ∧ j = i + 1

/-- An instruction that names a variable. -/
def variable' (op : Opcode) (name : Bytes) : CodeShape := fun core look i j =>
  (∃ k, look name = some k ∧ inst op Flag.loc k core look i j) ∨
    look name = none ∧ const op Flag.off (.kstr (Chunk.kstrFetch name (-1))) core look i j

/-- A forward jump to the end of what is behind it. -/
def jumpOver (op : Opcode) (flag : BitVec 8) (s : CodeShape) : CodeShape := fun core look i j =>
  core.Has i op flag (j - i) ∧ s core look (i + 1) j

end CodeShape

/-- The read of the last part of a left side. -/
def Tree.reads : Tree .lval → CodeShape
  | .lsym name => .variable' .push name
  | .lfield _ name => .const .getf Flag.fast (.kstr (Chunk.kstrFetch name (-1)))
  | .lindex _ _ => .inst .getf Flag.stack 1
  | _ => fun _ _ _ _ => False

/-- The assignment to the last part of a left side. -/
def Tree.writes : Tree .lval → CodeShape
  | .lsym name => .variable' .store name
  | .lfield _ name => .const .setf Flag.fast (.kstr (Chunk.kstrFetch name (-1)))
  | .lindex _ _ => .inst .setf Flag.stack 1
  | _ => fun _ _ _ _ => False

/-- The instructions from `i` up to `j` are code for the tree, in a scope in which
`look` finds the local variables. -/
inductive Codes (core : Chunk) (look : Bytes → Option Nat) : {c : Category} → Tree c → Nat → Nat → Prop
  | nil {i : Nat} (hinst : core.Has i .push Flag.nil 0) : Codes core look Tree.nil i (i + 1)
  | bool {b : Bool} {i : Nat} (hinst : core.Has i .push Flag.bool (if b then 1 else 0)) :
      Codes core look (Tree.bool b) i (i + 1)
  | constant {e : Tree .expr} {v : Variable} {i k : Nat} (hv : e.constant = some v)
      (hinst : core.Has i .push Flag.kval k) (hk : core.kval[k]? = some v) : Codes core look e i (i + 1)
  | sym {name : Bytes} {i j : Nat} (hpush : CodeShape.variable' .push name core look i j) :
      Codes core look (Tree.sym name) i j
  | unary {op : UnaryOp} {e : Tree .expr} {i j : Nat} (he : Codes core look e i j)
      (hinst : core.Has j op.opcode 0 0) : Codes core look (Tree.unary op e) i (j + 1)
  | binary {op : BinaryOp} {l r : Tree .expr} {i j k : Nat} (hop : op.isLogic = false)
      (hl : Codes core look l i j) (hr : Codes core look r j k)
      (hinst : core.Has k op.opcode.1 op.opcode.2 0) : Codes core look (Tree.binary op l r) i (k + 1)
  | logic {op : BinaryOp} {l r : Tree .expr} {i j k : Nat} (hop : op.isLogic = true)
      (hl : Codes core look l i j) (hinst : core.Has j op.opcode.1 op.opcode.2 (k - j))
      (hr : Codes core look r (j + 1) k) : Codes core look (Tree.binary op l r) i k
  | array {elems : Tree .args} {i j : Nat} (helems : Codes core look elems i j)
      (hinst : core.Has j .newdya 0 elems.argc) : Codes core look (Tree.array elems) i (j + 1)
  | map {ord : Bool} {elems : Tree .entries} {i j : Nat} (helems : Codes core look elems i j)
      (hinst : core.Has j (if ord then .newskl else .newmap) 0 elems.pairs) :
      Codes core look (Tree.map ord elems) i (j + 1)
  | field {e : Tree .expr} {name : Bytes} {i j k : Nat} (he : Codes core look e i j)
      (hinst : core.Has j .getf Flag.fast k)
      (hk : core.kval[k]? = some (.kstr (Chunk.kstrFetch name (-1)))) :
      Codes core look (Tree.field e name) i (j + 1)
  | index {e key : Tree .expr} {i j k : Nat} (he : Codes core look e i j) (hkey : Codes core look key j k)
      (hinst : core.Has k .getf Flag.stack 1) : Codes core look (Tree.index e key) i (k + 1)
  | noArgs {i : Nat} : Codes core look Tree.noArgs i i
  | arg {e : Tree .expr} {rest : Tree .args} {i j k : Nat} (he : Codes core look e i j)
      (hrest : Codes core look rest j k) : Codes core look (Tree.arg e rest) i k
  | noEntries {i : Nat} : Codes core look Tree.noEntries i i
  | entry {key v : Tree .expr} {rest : Tree .entries} {i j k n : Nat} (hkey : Codes core look key i j)
      (hv : Codes core look v j k) (hrest : Codes core look rest k n) :
      Codes core look (Tree.entry key v rest) i n
  | lsym {name : Bytes} {i : Nat} : Codes core look (Tree.lsym name) i i
  | lfield {lv : Tree .lval} {name : Bytes} {i j k : Nat} (hlv : Codes core look lv i j)
      (hread : lv.reads core look j k) : Codes core look (Tree.lfield lv name) i k
  | lindex {lv : Tree .lval} {key : Tree .expr} {i j k n : Nat} (hlv : Codes core look lv i j)
      (hread : lv.reads core look j k) (hkey : Codes core look key k n) :
      Codes core look (Tree.lindex lv key) i n

/-- The least number of instructions in code for a tree. -/
def Tree.least : {c : Category} → Tree c → Nat
  | _, noArgs => 0
  | _, arg _ rest => rest.least + 1
  | _, noEntries => 0
  | _, entry _ _ rest => rest.least + 2
  | _, lsym _ => 0
  | _, lfield lv _ => lv.least
  | _, lindex lv _ => lv.least
  | _, _ => 1

theorem Tree.least_args (t : Tree .args) : t.least = t.argc := by
  cases t with
  | noArgs => rfl
  | arg e rest => exact congrArg (· + 1) (least_args rest)

theorem Tree.least_entries (t : Tree .entries) : t.least = 2 * t.pairs := by
  cases t with
  | noEntries => rfl
  | entry k v rest =>
      rw [Tree.least, least_entries rest, Tree.pairs]
      rfl

theorem Tree.least_expr (t : Tree .expr) : t.least = 1 := by
  cases t <;> rfl

theorem CodeShape.variable_eq {op : Opcode} {name : Bytes} {core : Chunk} {look : Bytes → Option Nat} {i j : Nat}
    (h : CodeShape.variable' op name core look i j) : j = i + 1 := by
  rcases h with ⟨k, -, -, hj⟩ | ⟨-, k, -, -, hj⟩
  · exact hj
  · exact hj

theorem Tree.reads_le {lv : Tree .lval} {core : Chunk} {look : Bytes → Option Nat} {i j : Nat}
    (h : lv.reads core look i j) : i ≤ j := by
  cases lv with
  | lsym name =>
      rw [CodeShape.variable_eq h]
      exact Nat.le_succ i
  | lfield lv name =>
      obtain ⟨k, -, -, rfl⟩ := h
      exact Nat.le_succ i
  | lindex lv key =>
      obtain ⟨-, rfl⟩ := h
      exact Nat.le_succ i
  | lcall lv args => cases h
  | lselfcall lv method args => cases h

theorem Codes.least_le {core : Chunk} {look : Bytes → Option Nat} {c : Category} {t : Tree c} {i j : Nat}
    (h : Codes core look t i j) : i + t.least ≤ j := by
  induction h with
  | nil => exact le_rfl
  | bool => exact le_rfl
  | constant =>
      rw [Tree.least_expr]
  | sym hpush => exact (CodeShape.variable_eq hpush).ge
  | unary _ _ ih => exact Nat.succ_le_succ ((Nat.le_add_right _ _).trans ih)
  | binary _ _ _ _ ihl ihr =>
      exact Nat.succ_le_succ (((Nat.le_add_right _ _).trans ihl).trans ((Nat.le_add_right _ _).trans ihr))
  | @logic op l r i j k _ _ _ _ ihl ihr =>
      have hl := (Nat.le_add_right _ _).trans ihl
      have hr := (Nat.le_add_right _ _).trans ihr
      exact (Nat.succ_le_succ hl).trans hr
  | array _ _ ih => exact Nat.succ_le_succ ((Nat.le_add_right _ _).trans ih)
  | map _ _ ih => exact Nat.succ_le_succ ((Nat.le_add_right _ _).trans ih)
  | field _ _ _ ih => exact Nat.succ_le_succ ((Nat.le_add_right _ _).trans ih)
  | index _ _ _ ihe ihkey =>
      exact Nat.succ_le_succ (((Nat.le_add_right _ _).trans ihe).trans ((Nat.le_add_right _ _).trans ihkey))
  | noArgs => exact le_rfl
  | @arg e rest i j k _ _ ihe ihrest =>
      rw [Tree.least_expr] at ihe
      change i + (rest.least + 1) ≤ k
      omega
  | noEntries => exact le_rfl
  | @entry key v rest i j k m _ _ _ ihkey ihv ihrest =>
      rw [Tree.least_expr] at ihkey ihv
      change i + (rest.least + 2) ≤ m
      omega
  | lsym => exact le_rfl
  | lfield _ hread ih => exact ih.trans (Tree.reads_le hread)
  | lindex _ hread _ ihlv ihkey =>
      exact (ihlv.trans (Tree.reads_le hread)).trans ((Nat.le_add_right _ _).trans ihkey)

/-- Code ends behind where it begins. -/
theorem Codes.le {core : Chunk} {look : Bytes → Option Nat} {c : Category} {t : Tree c} {i j : Nat}
    (h : Codes core look t i j) : i ≤ j :=
  (Nat.le_add_right _ _).trans h.least_le

/-! ## Statements -/

/-- Where a loop begins, and where it is left to. -/
structure LoopAt where
  retry : Nat
  exit : Nat

/-- Where a chain of conditions begins behind a body that ends at `k`: a body with a
branch behind it ends with a jump. -/
def Tree.entryOf : {c : Category} → Tree c → Nat → Nat
  | _, else' _, k => k + 1
  | _, elif _ _ _, k => k + 1
  | _, _, k => k

theorem Tree.le_entryOf {c : Category} (t : Tree c) (k : Nat) : k ≤ t.entryOf k := by
  unfold Tree.entryOf
  split
  · exact Nat.le_succ k
  · exact Nat.le_succ k
  · exact le_rfl

theorem Tree.entryOf_stmt (t : Tree .stmt) (k : Nat) : t.entryOf k = k := by
  cases t <;> rfl

theorem Tree.entryOf_block (t : Tree .block) (k : Nat) : t.entryOf k = k := by
  cases t <;> rfl

theorem Tree.entryOf_decls (t : Tree .decls) (k : Nat) : t.entryOf k = k := by
  cases t <;> rfl

/-- The instructions from `i` up to `j` are code for the statement in a scope, in the
loop `lp`. Code for a chain of conditions begins with the end of the body before it. -/
inductive Lays (core : Chunk) : (lp : Option LoopAt) → {c : Category} → Tree c → List Bytes → Nat → Nat → Prop
  | empty {lp : Option LoopAt} {names : List Bytes} {i : Nat} : Lays core lp Tree.empty names i i
  | assign {lp : Option LoopAt} {names : List Bytes} {lv : Tree .lval} {e : Tree .expr} {i j k n : Nat}
      (hlv : Codes core (lookIn names) lv i j) (he : Codes core (lookIn names) e j k)
      (hwrite : lv.writes core (lookIn names) k n) : Lays core lp (Tree.assign lv e) names i n
  | locals {lp : Option LoopAt} {names : List Bytes} {decls : Tree .decls} {i j : Nat}
      (hdecls : Lays core lp decls names i j) : Lays core lp (Tree.locals decls) names i j
  | ret {lp : Option LoopAt} {names : List Bytes} {e : Tree .expr} {i j : Nat}
      (he : Codes core (lookIn names) e i j) (hinst : core.Has j .ret 0 1) :
      Lays core lp (Tree.ret e) names i (j + 1)
  | if' {lp : Option LoopAt} {names : List Bytes} {cond : Tree .expr} {body : Tree .block}
      {elifs : Tree .elifs} {i j k n : Nat} (hcond : Codes core (lookIn names) cond i j)
      (hinst : core.Has j .jne Flag.forward (elifs.entryOf k - j)) (hbody : Lays core lp body names (j + 1) k)
      (helifs : Lays core lp elifs (body.scope names) k n) :
      Lays core lp (Tree.if' cond body elifs) names i n
  | forever {lp : Option LoopAt} {names : List Bytes} {body : Tree .block} {i j : Nat}
      (hbody : Lays core (some ⟨i, j + 1⟩) body names i j) (hinst : core.Has j .jmp Flag.backward (j - i)) :
      Lays core lp (Tree.forever body) names i (j + 1)
  | break' {lp : LoopAt} {names : List Bytes} {i : Nat} (hle : i ≤ lp.exit)
      (hinst : core.Has i .jmp Flag.forward (lp.exit - i)) :
      Lays core (some lp) Tree.break' names i (i + 1)
  | continue' {lp : LoopAt} {names : List Bytes} {i : Nat} (hle : lp.retry ≤ i)
      (hinst : core.Has i .jmp Flag.backward (i - lp.retry)) :
      Lays core (some lp) Tree.continue' names i (i + 1)
  | done {lp : Option LoopAt} {names : List Bytes} {i : Nat} : Lays core lp Tree.done names i i
  | stmt {lp : Option LoopAt} {names : List Bytes} {s : Tree .stmt} {rest : Tree .block} {i j k : Nat}
      (hs : Lays core lp s names i j) (hrest : Lays core lp rest (s.scope names) j k) :
      Lays core lp (Tree.stmt s rest) names i k
  | noElse {lp : Option LoopAt} {names : List Bytes} {k : Nat} : Lays core lp Tree.noElse names k k
  | else' {lp : Option LoopAt} {names : List Bytes} {body : Tree .block} {k n : Nat}
      (hjmp : core.Has k .jmp Flag.forward (n - k)) (hbody : Lays core lp body names (k + 1) n) :
      Lays core lp (Tree.else' body) names k n
  | elif {lp : Option LoopAt} {names : List Bytes} {cond : Tree .expr} {body : Tree .block}
      {rest : Tree .elifs} {k j m n : Nat} (hjmp : core.Has k .jmp Flag.forward (n - k))
      (hcond : Codes core (lookIn names) cond (k + 1) j)
      (hinst : core.Has j .jne Flag.forward (rest.entryOf m - j)) (hbody : Lays core lp body names (j + 1) m)
      (hrest : Lays core lp rest (body.scope names) m n) :
      Lays core lp (Tree.elif cond body rest) names k n
  | noDecls {lp : Option LoopAt} {names : List Bytes} {i : Nat} : Lays core lp Tree.noDecls names i i
  | decl {lp : Option LoopAt} {names : List Bytes} {name : Bytes} {rest : Tree .decls} {i j : Nat}
      (hrest : Lays core lp rest (names ++ [name]) i j) : Lays core lp (Tree.decl name rest) names i j
  | init {lp : Option LoopAt} {names : List Bytes} {name : Bytes} {e : Tree .expr} {rest : Tree .decls}
      {i j k : Nat} (he : Codes core (lookIn (names ++ [name])) e i j)
      (hinst : core.Has j .store Flag.loc names.length)
      (hrest : Lays core lp rest (names ++ [name]) (j + 1) k) : Lays core lp (Tree.init name e rest) names i k

theorem Tree.writes_le {lv : Tree .lval} {core : Chunk} {look : Bytes → Option Nat} {i j : Nat}
    (h : lv.writes core look i j) : i ≤ j := by
  cases lv with
  | lsym name =>
      rw [CodeShape.variable_eq h]
      exact Nat.le_succ i
  | lfield lv name =>
      obtain ⟨k, -, -, rfl⟩ := h
      exact Nat.le_succ i
  | lindex lv key =>
      obtain ⟨-, rfl⟩ := h
      exact Nat.le_succ i
  | lcall lv args => cases h
  | lselfcall lv method args => cases h

theorem Lays.le {core : Chunk} {lp : Option LoopAt} {c : Category} {t : Tree c} {names : List Bytes} {i j : Nat}
    (h : Lays core lp t names i j) : i ≤ j := by
  induction h with
  | empty => exact le_rfl
  | assign hlv he hwrite => exact (hlv.le.trans he.le).trans (Tree.writes_le hwrite)
  | locals _ ih => exact ih
  | ret he _ => exact he.le.trans (Nat.le_succ _)
  | if' hcond _ _ _ ihbody ihelifs =>
      exact hcond.le.trans ((Nat.le_succ _).trans (ihbody.trans ihelifs))
  | forever _ _ ih => exact ih.trans (Nat.le_succ _)
  | break' => exact Nat.le_succ _
  | continue' => exact Nat.le_succ _
  | done => exact le_rfl
  | stmt _ _ ihs ihrest => exact ihs.trans ihrest
  | noElse => exact le_rfl
  | else' _ _ ih => exact (Nat.le_succ _).trans ih
  | elif _ hcond _ _ _ ihbody ihrest =>
      exact (Nat.le_succ _).trans (hcond.le.trans ((Nat.le_succ _).trans (ihbody.trans ihrest)))
  | noDecls => exact le_rfl
  | decl _ ih => exact ih
  | init he _ _ ih => exact he.le.trans ((Nat.le_succ _).trans ih)

/-- A chain of conditions begins in front of its end. -/
theorem Lays.entryOf_le {core : Chunk} {lp : Option LoopAt} {t : Tree .elifs} {names : List Bytes} {k n : Nat}
    (h : Lays core lp t names k n) : t.entryOf k ≤ n := by
  cases h with
  | noElse => exact le_rfl
  | else' _ hbody => exact hbody.le
  | elif _ hcond _ hbody hrest => exact hcond.le.trans ((Nat.le_succ _).trans (hbody.le.trans hrest.le))

end Ymd
