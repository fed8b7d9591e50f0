import Ymd.Meaning.Correctness

/-! # Code for a statement does what it means

Statements end in one of several ways, each with a place where the machine then is.
-/

namespace Ymd

open Foundation

/-- Where the machine is when a statement has ended: behind it, at an end of the loop,
or in front of an instruction that returns the value. -/
def Lands (core : Chunk) (info : CallInfo) (chain : List CallInfo) (lp : Option LoopAt) (j : Nat)
    (stk : List Variable) : StmtEnd → Ctx → Mach → Prop
  | .normal => Located info chain j stk
  | .break' => fun l m => ∃ place, lp = some place ∧ Located info chain place.exit stk l m
  | .continue' => fun l m => ∃ place, lp = some place ∧ Located info chain place.retry stk l m
  | .ret v => fun l m => ∃ pc, core.Has pc .ret 0 1 ∧ Located info chain pc (v :: stk) l m
  | .unfinished => fun l m => ∃ pc, Located info chain pc stk l m

/-- From the instruction `i`, the code carries out the statement, if there is room for `n`
operands. -/
def Performs (env : Env) (core : Chunk) (info : CallInfo) (chain : List CallInfo) (lp : Option LoopAt)
    (i : Nat) (n : Nat) (x : VmM StmtEnd) (j : Nat) : Prop :=
  ∀ stk, stk.length + n ≤ maxStack →
    Realises (Step env) (fun _ a => a = .exec) (StopsWith env info chain) (Ctx.Installed core info)
      (Located info chain i stk) x (Lands core info chain lp j stk)

section

variable {env : Env} {core : Chunk} {info : CallInfo} {chain : List CallInfo} {lp : Option LoopAt}
  {α : Type} {i j k n n' : Nat} {x y : VmM StmtEnd} {names : List Bytes}

theorem Performs.mono (hle : n ≤ n') (h : Performs env core info chain lp i n x j) :
    Performs env core info chain lp i n' x j :=
  fun stk hroom => h stk (by omega)

/-- The machine goes on to the statement first. -/
theorem Performs.after {i' : Nat} (hrun : ∀ (l : Ctx) (stk : List Variable), l.Installed core info → stk.length + n ≤ maxStack →
      Runs (Step env) (fun _ a => a = .exec) (.run (l.onto ({ info with pc := i' } :: chain) stk))
        (.run (l.onto ({ info with pc := i } :: chain) stk)))
    (h : Performs env core info chain lp i n x j) : Performs env core info chain lp i' n x j := by
  intro stk hroom
  refine Realises.after (fun l m hl hm => ?_) (h stk hroom)
  rw [show m = _ from hm]
  exact ⟨_, hrun l stk hl hroom, rfl⟩

theorem Performs.pure {o : StmtEnd}
    (hrun : ∀ (l : Ctx) (stk : List Variable), l.Installed core info → stk.length + n ≤ maxStack →
      ∃ m, Runs (Step env) (fun _ a => a = .exec) (.run (l.onto ({ info with pc := i } :: chain) stk)) m ∧
        Lands core info chain lp j stk o l m) : Performs env core info chain lp i n (pure o) j := by
  intro stk hroom
  refine Realises.pure fun l m hl hm => ?_
  rw [show m = _ from hm]
  exact hrun l stk hl hroom

/-- Nothing is left to do. -/
theorem performs_normal (i : Nat) : Performs env core info chain lp i 0 (pure .normal) i :=
  .pure fun _ _ _ _ => ⟨_, .refl, rfl⟩

/-- A computation in front of the rest. -/
theorem Carries.performs {z : VmM α} {f : α → VmM StmtEnd} {res : α → List Variable}
    (hz : Carries env core info chain i [] n z (fun _ => j) res)
    (hf : ∀ a stk, stk.length + n' ≤ maxStack →
      Realises (Step env) (fun _ a => a = .exec) (StopsWith env info chain) (Ctx.Installed core info)
        (Located info chain j (res a ++ stk)) (f a) (Lands core info chain lp k stk)) :
    Performs env core info chain lp i (max n n') (z >>= f) k :=
  fun stk hroom => (hz stk (by omega)).bind fun a => hf a stk (by omega)

/-- A computation in front of the end of a statement. -/
theorem Carries.ends {z : VmM Unit} (hz : Carries env core info chain i [] n z (fun _ => j) fun _ => []) :
    Performs env core info chain lp i n (z >>= fun _ => Pure.pure .normal) j := by
  refine .mono (max_eq_left (Nat.zero_le n)).le (hz.performs fun _ stk hroom => ?_)
  exact performs_normal j stk hroom

/-- An assignment: the left side, the value, and then the write. -/
theorem carries_assign {lv : Tree .lval} {e : Tree .expr} {look : Bytes → Option Nat}
    (hlv : Codes core look lv i j) (he : Codes core look e j k) (hwrite : lv.writes core look k n) :
    Carries env core info chain i [] (max lv.room (e.room + lv.waiting))
      (lv.eval env info look >>= fun place => e.eval env info look >>= fun v =>
        place.write env info look v) (fun _ => n) fun _ => [] := by
  refine .bind_of (gives_place lv) hlv.carries fun place hplace => ?_
  rw [← Place.length_operands hplace]
  refine .mono (max_eq_left (Nat.zero_le _)).le ((he.carries.frame place.operands).bind fun v => ?_)
  exact carries_writes hplace hwrite

/-- One statement behind another one. -/
theorem Performs.followed (hx : Performs env core info chain lp i n x j)
    (hy : Performs env core info chain lp j n' y k) :
    Performs env core info chain lp i (max n n')
      (x >>= fun o => match o with
        | .normal => y
        | other => Pure.pure other) k := by
  intro stk hroom
  refine (hx stk (by omega)).bind fun o => ?_
  cases o with
  | normal => exact hy stk (by omega)
  | break' => exact Realises.pure fun l m _ hm => ⟨m, .refl, hm⟩
  | continue' => exact Realises.pure fun l m _ hm => ⟨m, .refl, hm⟩
  | ret v => exact Realises.pure fun l m _ hm => ⟨m, .refl, hm⟩
  | unfinished => exact Realises.pure fun l m _ hm => ⟨m, .refl, hm⟩

/-! ## Jumps -/

theorem implJump_forward (pc param : Nat) (l : Ctx) :
    implJump pc Flag.forward param l = .ok (.jump (pc + param)) l := rfl

theorem implJump_backward {pc param : Nat} (hle : param ≤ pc) (l : Ctx) :
    implJump pc Flag.backward param l = .ok (.jump (pc - param)) l := by
  rw [implJump, if_neg (by decide), if_pos rfl, if_pos hle]
  rfl

theorem runs_forward {l : Ctx} {stk : List Variable} (hl : l.Installed core info)
    (hinst : core.Has i .jmp Flag.forward (j - i)) (hle : i ≤ j) :
    Runs (Step env) (fun _ a => a = .exec) (.run (l.onto ({ info with pc := i } :: chain) stk))
      (.run (l.onto ({ info with pc := j } :: chain) stk)) := by
  refine step_jump hl ?_
  obtain ⟨fn, -, heq⟩ := @execInst_installed env core info chain i _ l .jmp _ stk hl hinst
  rw [heq]
  change implJump i (asmFlag _) (asmParam _).toNat _ = _
  rw [asmFlag_build, hinst.param, implJump_forward, Nat.add_sub_cancel' hle]

theorem runs_backward {l : Ctx} {stk : List Variable} (hl : l.Installed core info)
    (hinst : core.Has i .jmp Flag.backward (i - j)) (hle : j ≤ i) :
    Runs (Step env) (fun _ a => a = .exec) (.run (l.onto ({ info with pc := i } :: chain) stk))
      (.run (l.onto ({ info with pc := j } :: chain) stk)) := by
  refine step_jump hl ?_
  obtain ⟨fn, -, heq⟩ := @execInst_installed env core info chain i _ l .jmp _ stk hl hinst
  rw [heq]
  change implJump i (asmFlag _) (asmParam _).toNat _ = _
  rw [asmFlag_build, hinst.param, implJump_backward (Nat.sub_le _ _), Nat.sub_sub_self hle]

/-- The jump behind a condition. -/
theorem runs_jne {l : Ctx} {stk : List Variable} {v : Variable} (hl : l.Installed core info)
    (hinst : core.Has i .jne Flag.forward (j - i)) (hle : i ≤ j) :
    Runs (Step env) (fun _ a => a = .exec) (.run (l.onto ({ info with pc := i } :: chain) (v :: stk)))
      (.run (l.onto ({ info with pc := if vmBool v then i + 1 else j } :: chain) stk)) := by
  obtain ⟨fn, -, heq⟩ := @execInst_installed env core info chain i _ l .jne _ (v :: stk) hl hinst
  have htop : ymdTop 0 (l.onto ({ info with pc := i } :: chain) (v :: stk)) = .ok v _ :=
    ymdTop_of_getElem? rfl
  have hpop : ymdPop 1 (l.onto ({ info with pc := i } :: chain) (v :: stk)) = .ok () _ :=
    @ymdPop_onto 1 l _ [v] stk rfl
  cases hv : vmBool v with
  | true =>
      refine step_next hl ?_
      rw [heq]
      change testJump { info with pc := i } (asmFlag _) (asmParam _).toNat false (fun v => !vmBool v) _ = _
      rw [testJump, bind_of_ok htop, if_neg (by simp [hv]), bind_of_ok hpop]
      rfl
  | false =>
      refine step_jump hl ?_
      rw [heq]
      change testJump { info with pc := i } (asmFlag _) (asmParam _).toNat false (fun v => !vmBool v) _ = _
      rw [testJump, bind_of_ok htop, if_pos (by simp [hv]), asmFlag_build, hinst.param,
        bind_of_ok (implJump_forward _ _ _), if_pos Bool.false_ne_true, bind_of_ok hpop,
        Nat.add_sub_cancel' hle]
      rfl

/-- A body in front of a chain of conditions goes on behind the chain. -/
theorem Lays.skip {t : Tree .elifs} {l : Ctx} {stk : List Variable} (h : Lays core lp t names k n)
    (hl : l.Installed core info) :
    Runs (Step env) (fun _ a => a = .exec) (.run (l.onto ({ info with pc := k } :: chain) stk))
      (.run (l.onto ({ info with pc := n } :: chain) stk)) := by
  cases h with
  | noElse => exact .refl
  | else' hjmp hbody => exact runs_forward hl hjmp ((Nat.le_succ k).trans hbody.le)
  | elif hjmp hcond _ hbody hrest =>
      refine runs_forward hl hjmp ((Nat.le_succ k).trans (hcond.le.trans ?_))
      exact (Nat.le_succ _).trans (hbody.le.trans hrest.le)

theorem Performs.skip {t : Tree .elifs} (hx : Performs env core info chain lp i n' x k)
    (h : Lays core lp t names k n) : Performs env core info chain lp i n' x n := by
  intro stk hroom
  refine (hx stk hroom).onward fun o l m hl hm => ?_
  cases o with
  | normal =>
      rw [show m = _ from hm]
      exact ⟨_, h.skip hl, rfl⟩
  | break' => exact ⟨m, .refl, hm⟩
  | continue' => exact ⟨m, .refl, hm⟩
  | ret v => exact ⟨m, .refl, hm⟩
  | unfinished => exact ⟨m, .refl, hm⟩

/-- A condition with its two ways on. -/
theorem performs_if {cond : VmM Variable} {n₁ n₂ n₃ : Nat} (hcond : Carries env core info chain i [] n₁ cond
      (fun _ => j) fun v => [v])
    (hinst : core.Has j .jne Flag.forward (k - j)) (hle : j ≤ k)
    (hx : Performs env core info chain lp (j + 1) n₂ x n) (hy : Performs env core info chain lp k n₃ y n) :
    Performs env core info chain lp i (max n₁ (max n₂ n₃))
      (cond >>= fun v => if vmBool v then x else y) n := by
  refine hcond.performs fun v stk hroom => ?_
  have hjump : ∀ l m, l.Installed core info → Located info chain j ([v] ++ stk) l m →
      ∃ m', Runs (Step env) (fun _ a => a = .exec) m m' ∧
        Located info chain (if vmBool v then j + 1 else k) stk l m' := by
    intro l m hl hm
    rw [show m = _ from hm]
    exact ⟨_, runs_jne hl hinst hle, rfl⟩
  cases hv : vmBool v with
  | true =>
      rw [hv] at hjump
      exact Realises.after hjump (hx stk (by omega))
  | false =>
      rw [hv] at hjump
      exact Realises.after hjump (hy stk (by omega))

/-- The rounds of a loop, with the induction on their number. -/
theorem performs_rounds (hbody : Performs env core info chain (some ⟨i, j + 1⟩) i n x j)
    (hinst : core.Has j .jmp Flag.backward (j - i)) (hle : i ≤ j) (fuel : Nat) :
    Performs env core info chain lp i n (rounds x fuel) (j + 1) := by
  induction fuel with
  | zero => exact .pure fun l stk _ _ => ⟨_, .refl, i, rfl⟩
  | succ fuel ih =>
      intro stk hroom
      refine (hbody stk hroom).bind fun o => ?_
      cases o with
      | normal =>
          refine Realises.after (fun l m hl hm => ?_) (ih stk hroom)
          rw [show m = _ from hm]
          exact ⟨_, runs_backward hl hinst hle, rfl⟩
      | break' =>
          refine Realises.pure fun l m _ hm => ?_
          obtain ⟨place, hplace, hm⟩ := hm
          cases hplace
          exact ⟨m, .refl, hm⟩
      | continue' =>
          refine Realises.after (fun l m hl hm => ?_) (ih stk hroom)
          obtain ⟨place, hplace, hm⟩ := hm
          cases hplace
          exact ⟨m, .refl, hm⟩
      | ret v => exact Realises.pure fun l m _ hm => ⟨m, .refl, hm⟩
      | unfinished => exact Realises.pure fun l m _ hm => ⟨m, .refl, hm⟩

/-- The machine does with code for a statement what the statement means. -/
theorem Lays.performs {c : Category} {t : Tree c} (fuel : Nat) (h : Lays core lp t names i j) :
    Performs env core info chain lp (t.entryOf i) t.room (t.exec env info fuel names) j := by
  induction h with
  | @empty lp names i => exact performs_normal i
  | @assign lp names lv e i j k n hlv he hwrite =>
      have hends : Performs env core info chain lp i _ _ n := (carries_assign hlv he hwrite).ends
      simp only [bind_assoc] at hends
      exact hends
  | @locals lp names decls i j _ ih =>
      rw [Tree.entryOf_decls] at ih
      exact ih
  | @ret lp names e i j he hinst =>
      refine .mono (max_eq_left (Nat.zero_le _)).le (he.carries.performs fun v stk _ => ?_)
      exact Realises.pure fun l m _ hm => ⟨m, .refl, j, hinst, hm⟩
  | @if' lp names cond body elifs i j k n hcond hinst hbody helifs ihbody ihelifs =>
      rw [Tree.entryOf_block] at ihbody
      refine performs_if hcond.carries hinst ?_ (ihbody.skip helifs) ihelifs
      exact (Nat.le_succ j).trans (hbody.le.trans (elifs.le_entryOf k))
  | @forever lp names body i j hbody hinst ih =>
      rw [Tree.entryOf_block] at ih
      exact performs_rounds ih hinst hbody.le fuel
  | @break' lp names i hle hinst =>
      exact .pure fun l stk hl _ => ⟨_, runs_forward hl hinst hle, lp, rfl, rfl⟩
  | @continue' lp names i hle hinst =>
      exact .pure fun l stk hl _ => ⟨_, runs_backward hl hinst hle, lp, rfl, rfl⟩
  | @done lp names i => exact performs_normal i
  | @stmt lp names s rest i j k hs hrest ihs ihrest =>
      rw [Tree.entryOf_stmt] at ihs
      rw [Tree.entryOf_block] at ihrest
      exact ihs.followed ihrest
  | @noElse lp names k => exact performs_normal k
  | @else' lp names body k n hjmp hbody ih =>
      rw [Tree.entryOf_block] at ih
      exact ih
  | @elif lp names cond body rest k j m n hjmp hcond hinst hbody hrest ihbody ihrest =>
      rw [Tree.entryOf_block] at ihbody
      refine performs_if hcond.carries hinst ?_ (ihbody.skip hrest) ihrest
      exact (Nat.le_succ _).trans (hbody.le.trans (rest.le_entryOf m))
  | @noDecls lp names i => exact performs_normal i
  | @decl lp names name rest i j hrest ih =>
      rw [Tree.entryOf_decls] at ih
      exact ih
  | @init lp names name e rest i j k he hinst hrest ih =>
      rw [Tree.entryOf_decls] at ih
      -- the value is stored before the names behind it are read
      refine he.carries.performs fun v stk hroom => ?_
      refine (carries_store hinst rfl (stackless_storeLocal info _ v) (tame_storeLocal _ v) stk ?_).bind fun _ => ?_
      · exact (Nat.add_le_add_left (Nat.zero_le _) _).trans hroom
      · exact ih stk hroom

end

end Ymd
