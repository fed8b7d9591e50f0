import Ymd.Meaning.Simulation

/-! # Code for an expression computes its value

What the machine does with code for a tree is what the evaluator does with the tree.
-/

namespace Ymd

open Foundation

/-- What is on the stack for the value of a tree. -/
def Category.operands : (c : Category) → c.Value → List Variable
  | .expr, v => [v]
  | .args, vs => List.reverse vs
  | .entries, pairs => operandsOf (List.reverse pairs)
  | .func, _ => []
  | .lval, place => Place.operands place
  | .stmt, _ => []
  | .block, _ => []
  | .elifs, _ => []
  | .decls, _ => []

/-! ## How many values there are -/

section

variable {env : Env} {info : CallInfo} {look : Bytes → Option Nat}

theorem gives_length_args (t : Tree .args) :
    Gives (fun vs => List.length vs = t.argc) (t.eval env info look) := by
  cases t with
  | noArgs => exact .pure rfl
  | arg e rest =>
      refine .bind fun v => ?_
      intro l vs l' hrun
      obtain ⟨vs', l₁, hrest, hlast⟩ := bind_ok_iff.1 hrun
      obtain ⟨rfl, -⟩ := pure_ok_iff.1 hlast
      exact congrArg (· + 1) (gives_length_args rest _ _ _ hrest)

theorem gives_length_entries (t : Tree .entries) :
    Gives (fun pairs => List.length pairs = t.pairs) (t.eval env info look) := by
  cases t with
  | noEntries => exact .pure rfl
  | entry k v rest =>
      refine .bind fun key => .bind fun value => ?_
      intro l pairs l' hrun
      obtain ⟨pairs', l₁, hrest, hlast⟩ := bind_ok_iff.1 hrun
      obtain ⟨rfl, -⟩ := pure_ok_iff.1 hlast
      exact congrArg (· + 1) (gives_length_entries rest _ _ _ hrest)

/-- A left side stands for a place of its kind. -/
theorem gives_place (lv : Tree .lval) : Gives (fun place => Place.Of place lv) (lv.eval env info look) := by
  cases lv with
  | lsym name => exact .pure rfl
  | lfield lv name => exact .bind fun _ => .bind fun _ => .pure rfl
  | lindex lv key => exact .bind fun _ => .bind fun _ => .bind fun _ => .pure trivial
  | lcall lv args => exact .throw _
  | lselfcall lv method args => exact .throw _

end

section

variable {env : Env} {core : Chunk} {info : CallInfo} {chain : List CallInfo} {α : Type} {i k n : Nat}
  {x : VmM α} {j : α → Nat} {res : α → List Variable} {a : Variable}

/-! ## Jumps over the right operand -/

/-- The value of the left operand is the result. -/
theorem carries_test_jumps {op : Opcode} {jumps : Variable → Bool} (hinst : core.Has i op Flag.forward k)
    (hop : ∀ fn inst, execOp env { info with pc := i } fn core op inst =
      testJump { info with pc := i } (asmFlag inst) (asmParam inst).toNat true jumps)
    (ha : jumps a = true) :
    Carries env core info chain i [a] 0 (pure a) (fun _ => i + k) fun a => [a] := by
  refine .pure fun l stk hl _ => step_jump hl ?_
  obtain ⟨fn, -, heq⟩ := @execInst_installed env core info chain i k l op _ ([a] ++ stk) hl hinst
  rw [heq, hop, asmFlag_build, hinst.param, testJump, bind_of_ok (ymdTop_of_getElem? rfl), if_pos ha]
  rfl

/-- The value of the left operand goes, and the right operand follows. -/
theorem carries_test_falls {op : Opcode} {jumps : Variable → Bool} (hinst : core.Has i op Flag.forward k)
    (hop : ∀ fn inst, execOp env { info with pc := i } fn core op inst =
      testJump { info with pc := i } (asmFlag inst) (asmParam inst).toNat true jumps)
    (ha : jumps a = false) (hx : Carries env core info chain (i + 1) [] n x j res) :
    Carries env core info chain i [a] n x j res := by
  refine .after (fun l stk hl _ => step_next hl ?_) hx
  obtain ⟨fn, -, heq⟩ := @execInst_installed env core info chain i k l op _ ([a] ++ stk) hl hinst
  have hno : ¬ jumps a = true := by
    rw [ha]
    exact Bool.false_ne_true
  have hpop : ymdPop 1 (l.onto ({ info with pc := i } :: chain) ([a] ++ stk)) = _ := ymdPop_onto rfl
  rw [heq, hop, testJump, bind_of_ok (ymdTop_of_getElem? rfl), if_neg hno, bind_of_ok hpop]
  rfl

end

/-! ## Expressions -/

section

variable {env : Env} {core : Chunk} {info : CallInfo} {chain : List CallInfo} {i k : Nat}

theorem UnaryOp.carries {op : UnaryOp} {v : Variable} (hinst : core.Has i op.opcode 0 0) :
    Carries env core info chain i [v] 0 (op.apply v) (fun _ => i + 1) fun w => [w] := by
  cases op with
  | mins => exact carries_unary hinst (fun _ => rfl) (stackless_lift _) (Does.lift _)
  | not => exact carries_unary hinst (fun _ => rfl) (.pure _) (Does.pure _)
  | notNil => exact carries_unary hinst (fun _ => rfl) (.pure _) (Does.pure _)
  | typeof => exact carries_unary hinst (fun _ => rfl) (.pure _) (Does.pure _)

theorem carries_test {flag : BitVec 8} {a b : Variable} (hinst : core.Has i .test flag 0) :
    Carries env core info chain i [b, a] 0 (opTest env flag a b) (fun _ => i + 1) fun w => [w] := by
  refine carries_binary hinst (fun fn => ?_) (stackless_opTest _ _ _) (does_opTest _ _ _ _)
  change (binaryInst (opTest env (asmFlag _)) >>= fun _ => (return Next.next : VmM Next)) = _
  rw [asmFlag_build]

theorem BinaryOp.carries {op : BinaryOp} {a b : Variable} (hop : op.isLogic = false)
    (hinst : core.Has i op.opcode.1 op.opcode.2 0) :
    Carries env core info chain i [b, a] 0 (op.apply env a b) (fun _ => i + 1) fun w => [w] := by
  cases op with
  | add => exact carries_binary hinst (fun _ => rfl) (stackless_lift _) (Does.lift _)
  | sub => exact carries_binary hinst (fun _ => rfl) (stackless_lift _) (Does.lift _)
  | mul => exact carries_binary hinst (fun _ => rfl) (stackless_lift _) (Does.lift _)
  | div => exact carries_binary hinst (fun _ => rfl) (stackless_lift _) (Does.lift _)
  | mod => exact carries_binary hinst (fun _ => rfl) (stackless_lift _) (Does.lift _)
  | eq => exact carries_test hinst
  | ne => exact carries_test hinst
  | match' => exact carries_test hinst
  | lt => exact carries_test hinst
  | le => exact carries_test hinst
  | gt => exact carries_test hinst
  | ge => exact carries_test hinst
  | and => cases hop
  | or => cases hop

variable {look : Bytes → Option Nat}

theorem Tree.eval_of_constant {e : Tree .expr} {v : Variable} (hv : e.constant = some v) :
    e.eval env info look = return v := by
  have heq : constantOf e.constant = (return v) := by
    rw [hv]
    rfl
  cases e with
  | dec raw => exact heq
  | hex raw => exact heq
  | str raw => exact heq
  | key name => exact heq
  | nil => cases hv
  | bool b => cases hv
  | sym name => cases hv
  | unary op e => cases hv
  | binary op l r => cases hv
  | array elems => cases hv
  | map ord elems => cases hv
  | closure binds fn => cases hv
  | field e name => cases hv
  | index e i => cases hv
  | call e args => cases hv
  | selfcall e method args => cases hv

theorem Tree.room_of_constant {e : Tree .expr} {v : Variable} (hv : e.constant = some v) : e.room = 1 := by
  cases e with
  | dec raw => rfl
  | hex raw => rfl
  | str raw => rfl
  | key name => rfl
  | nil => rfl
  | bool b => rfl
  | sym name => rfl
  | closure binds fn => rfl
  | call e args => rfl
  | selfcall e method args => rfl
  | unary op e => cases hv
  | binary op l r => cases hv
  | array elems => cases hv
  | map ord elems => cases hv
  | field e name => cases hv
  | index e i => cases hv

theorem Tree.eval_binary {op : BinaryOp} {l r : Tree .expr} (hop : op.isLogic = false) :
    (Tree.binary op l r).eval env info look =
      l.eval env info look >>= fun a => r.eval env info look >>= fun b => op.apply env a b := by
  cases op with
  | and => cases hop
  | or => cases hop
  | _ => rfl

theorem Tree.room_binary {op : BinaryOp} {l r : Tree .expr} (hop : op.isLogic = false) :
    (Tree.binary op l r).room = max l.room (r.room + 1) := by
  cases op with
  | and => cases hop
  | or => cases hop
  | _ => rfl

/-- The machine does with code for a tree what the evaluator does with the tree. -/
theorem Codes.carries {c : Category} {t : Tree c} {j : Nat} (h : Codes core look t i j) :
    Carries env core info chain i [] t.room (t.eval env info look) (fun _ => j) c.operands := by
  induction h with
  | nil hinst => exact carries_push hinst rfl (.pure _)
  | @bool b i hinst =>
      refine carries_push hinst ?_ (.pure _)
      cases b with
      | true => rfl
      | false => rfl
  | @constant e v i k hv hinst hk =>
      rw [Tree.eval_of_constant hv, Tree.room_of_constant hv]
      refine carries_push hinst ?_ (.pure _)
      change kvalAt core k = _
      rw [kvalAt, hk]
  | sym hpush => exact carries_variable hpush
  | unary he hinst ihe =>
      refine .mono ?_ (ihe.bind fun v => UnaryOp.carries hinst)
      exact (max_eq_left (Nat.zero_le _)).le
  | @binary op l r i j k hop hl hr hinst ihl ihr =>
      rw [Tree.eval_binary hop, Tree.room_binary hop]
      refine .mono ?_ (ihl.bind fun a => (ihr.frame [a]).bind fun b => BinaryOp.carries hop hinst)
      change max _ (max (r.room + 1) 0) ≤ _
      rw [Nat.max_zero]
  -- the jump over the second operand keeps the first one as the result
  | @logic op l r i j k hop hl hinst hr ihl ihr =>
      have hjk : j + (k - j) = k := by
        have hle := hr.le
        omega
      cases op with
      | and =>
          refine ihl.bind fun a => ?_
          cases ha : vmBool a with
          | true => exact carries_test_falls hinst (fun _ _ => rfl) (by rw [ha]; rfl) ihr
          | false =>
              refine .mono (Nat.zero_le _) ?_
              rw [← hjk]
              exact carries_test_jumps hinst (fun _ _ => rfl) (by rw [ha]; rfl)
      | or =>
          refine ihl.bind fun a => ?_
          cases ha : vmBool a with
          | true =>
              refine .mono (Nat.zero_le _) ?_
              rw [← hjk]
              exact carries_test_jumps hinst (fun _ _ => rfl) ha
          | false => exact carries_test_falls hinst (fun _ _ => rfl) ha ihr
      | add => cases hop
      | sub => cases hop
      | mul => cases hop
      | div => cases hop
      | mod => cases hop
      | eq => cases hop
      | ne => cases hop
      | match' => cases hop
      | lt => cases hop
      | le => cases hop
      | gt => cases hop
      | ge => cases hop
  | @array elems i j helems hinst ihelems =>
      refine .mono (max_comm _ _).le (.bind_of (gives_length_args elems) ihelems fun vs hvs => ?_)
      exact carries_newdya (hvs ▸ hinst)
  | @map ord elems i j helems hinst ihelems =>
      refine .mono (max_comm _ _).le (.bind_of (gives_length_entries elems) ihelems fun pairs hpairs => ?_)
      cases ord with
      | true => exact carries_newskl (hpairs ▸ hinst)
      | false => exact carries_newmap (hpairs ▸ hinst)
  | @field e name i j k he hinst hk ihe =>
      refine .mono ?_ (ihe.bind fun a => carries_getf_fast hinst hk)
      exact (max_eq_left (Nat.zero_le _)).le
  | @index e key i j k he hkey hinst ihe ihkey =>
      have hlast : ∀ a : Variable, Carries env core info chain j [a] (max (key.room + 1) 1)
          (key.eval env info look >>= fun v => vmGet env a v) (fun _ => k + 1) fun w => [w] := fun a =>
        (ihkey.frame [a]).bind fun v => carries_getf_stack hinst
      refine .mono ?_ (ihe.bind hlast)
      change max _ (max (key.room + 1) 1) ≤ max _ (key.room + 1)
      omega
  | noArgs => exact .pure fun _ _ _ _ => .refl
  | @arg e rest i j k he hrest ihe ihrest =>
      have hlast : ∀ v : Variable, Carries env core info chain j [v] (rest.room + 1)
          (rest.eval env info look >>= fun vs => pure (v :: vs)) (fun _ => k) List.reverse := fun v => by
        refine .mono (max_eq_left (Nat.zero_le _)).le ((ihrest.frame [v]).bind fun vs => ?_)
        refine .pure fun l stk _ _ => ?_
        rw [List.reverse_cons]
        exact .refl
      exact ihe.bind hlast
  | noEntries => exact .pure fun _ _ _ _ => .refl
  | @entry key v rest i j k m hkey hv hrest ihkey ihv ihrest =>
      -- key and value lie on the stack below the entries behind them
      have hlast : ∀ a b : Variable, Carries env core info chain k [b, a] (rest.room + 2)
          (rest.eval env info look >>= fun pairs => pure ((a, b) :: pairs)) (fun _ => m)
          Category.entries.operands := fun a b => by
        refine .mono (max_eq_left (Nat.zero_le _)).le ((ihrest.frame [b, a]).bind fun pairs => ?_)
        refine .pure fun l stk _ _ => ?_
        change Runs _ _ _ (Mach.run (l.onto _ (operandsOf ((a, b) :: pairs).reverse ++ stk)))
        rw [List.reverse_cons, operandsOf, List.flatMap_append]
        exact .refl
      have hmid : ∀ a : Variable, Carries env core info chain j [a] (max (v.room + 1) (rest.room + 2))
          (v.eval env info look >>= fun b => rest.eval env info look >>= fun pairs => pure ((a, b) :: pairs))
          (fun _ => m) Category.entries.operands := fun a => (ihv.frame [a]).bind fun b => hlast a b
      exact ihkey.bind hmid
  | lsym => exact .pure fun _ _ _ _ => .refl
  | @lfield lv name i j k hlv hread ihlv =>
      refine .bind_of (gives_place lv) ihlv fun place hplace => ?_
      refine .mono (max_eq_left (Nat.zero_le 1)).le ((carries_reads hplace hread).bind fun obj => ?_)
      exact .pure fun _ _ _ _ => .refl
  | @lindex lv key i j k m hlv hread hkey ihlv ihkey =>
      have hlast : ∀ obj : Variable, Carries env core info chain k [obj] (key.room + 1)
          (key.eval env info look >>= fun v => pure (Place.index obj v)) (fun _ => m)
          Place.operands := fun obj => by
        refine .mono (max_eq_left (Nat.zero_le _)).le ((ihkey.frame [obj]).bind fun v => ?_)
        exact .pure fun _ _ _ _ => .refl
      refine .bind_of (gives_place lv) ihlv fun place hplace => ?_
      refine .mono ?_ ((carries_reads hplace hread).bind hlast)
      exact (max_eq_right (Nat.le_add_left 1 _)).le

end

end Ymd
