import Ymd.Compiler.Scope
import Ymd.Machine.Grows

/-! # What a step may touch

The functions whose bound values a step assigns, the arrays it writes and the
slots of the local area it stores to, for an instruction and for what a native
function does between two calls.
-/

namespace Ymd

open Foundation

/-- The instruction the running function is at. -/
def Ctx.inst (l : Ctx) : Option Inst := do
  let info ← l.info.head?
  let fn ← (l.heap.func info.run).toOption
  let core ← fn.core
  core.inst[info.pc]?

/-- The functions whose bound values a step may assign. -/
def Act.Binds (l : Ctx) : Act → Addr → Prop
  | .exec, o => ∃ info ∈ l.info.head?, o = info.run
  | .prim (.bind fn _ _), o => o = fn
  | _, _ => False

/-- The arrays a step may write. -/
def Act.Writes (l : Ctx) : Act → Addr → Prop
  | .exec, o => ∃ inst ∈ l.inst, arrayWritten l inst = some o
  | .prim (.storeObj a _ _), o => o = a
  | _, _ => False

/-- The slots of the local area a step may store to. -/
def Act.Stores (l : Ctx) : Act → Nat → Prop
  | .exec, j => ∃ info ∈ l.info.head?, ∃ fn, l.heap.obj info.run = some (.func fn) ∧
      ∃ inst ∈ l.inst, ∃ i, localOperand inst = some i ∧ vmLocal fn info.loc i = .ok (.loc j)
  | _, _ => False

/-! ## Instructions -/

section

variable (env : Env) {l l' : Ctx}

theorem inst_eq_some {info : CallInfo} {chain : List CallInfo} {fn : Func} {core : Chunk}
    (hinfo : l.info = info :: chain) (hfn : l.heap.obj info.run = some (.func fn))
    (hcore : fn.core = some core) : l.inst = core.inst[info.pc]? := by
  unfold Ctx.inst
  rw [hinfo]
  change (((l.heap.func info.run).toOption).bind fun fn => fn.core.bind fun core =>
    core.inst[info.pc]?) = _
  rw [Heap.func_eq_ok.2 hfn]
  change (fn.core.bind fun core => core.inst[info.pc]?) = _
  rw [hcore]
  rfl

theorem ymdCalled_of_nil (hinfo : l.info = []) :
    ymdCalled l = .error (.fault (.assertion "l->info")) l := by
  rw [ymdCalled, bind_of_ok (get_apply l), hinfo]
  rfl

theorem ymdCalled_of_cons {info : CallInfo} {chain : List CallInfo}
    (hinfo : l.info = info :: chain) : ymdCalled l = .ok info l := by
  rw [ymdCalled, bind_of_ok (get_apply l), hinfo]
  rfl

/-- A round executes the instruction the running function is at, or returns at its end. -/
theorem execInst_cases (l : Ctx) : (∃ f, execInst env l = .error (.fault f) l) ∨
    execInst env l = .ok (.ret 0) l ∨
    ∃ info chain fn core inst op, l.info = info :: chain ∧
      l.heap.obj info.run = some (.func fn) ∧ fn.core = some core ∧ l.inst = some inst ∧
      asmOp inst = Opcode.code op ∧ execInst env l = execOp env info fn core op inst l := by
  unfold execInst
  cases hinfo : l.info with
  | nil =>
      exact .inl ⟨_, bind_of_error (ymdCalled_of_nil hinfo)⟩
  | cons info chain =>
      rw [bind_of_ok (ymdCalled_of_cons hinfo)]
      cases hfunc : l.heap.func info.run with
      | error f =>
          exact .inl ⟨_, bind_of_error (funcAt_of_error hfunc)⟩
      | ok fn =>
          have hfn := Heap.func_eq_ok.1 hfunc
          rw [bind_of_ok (funcAt_of_obj hfn)]
          cases hcore : fn.core with
          | none =>
              have hat : coreOf fn l = .error (.fault (.assertion "!fn->is_c")) l := by
                rw [coreOf, hcore]
                rfl
              exact .inl ⟨_, bind_of_error hat⟩
          | some core =>
              have hat : coreOf fn l = .ok core l := by
                rw [coreOf, hcore]
                rfl
              rw [bind_of_ok hat]
              have hcurrent := inst_eq_some hinfo hfn hcore
              cases hinst : core.inst[info.pc]? with
              | none => exact .inr (.inl rfl)
              | some inst =>
                  rw [hinst] at hcurrent
                  dsimp only
                  cases hop : Opcode.ofCode (asmOp inst) with
                  | none => exact .inl ⟨_, rfl⟩
                  | some op =>
                      exact .inr (.inr ⟨info, chain, fn, core, inst, op, rfl, hfn, hcore, hcurrent,
                        Opcode.eq_code_of_ofCode hop, rfl⟩)

/-- The instruction that a round executes. -/
theorem execInst_of_inst {info : CallInfo} {chain : List CallInfo} {fn : Func}
    {core : Chunk} {inst : Inst} {op : Opcode} (hinfo : l.info = info :: chain)
    (hfn : l.heap.obj info.run = some (.func fn)) (hcore : fn.core = some core)
    (hinst : core.inst[info.pc]? = some inst) (hop : asmOp inst = op.code) :
    execInst env l = execOp env info fn core op inst l := by
  have hat : coreOf fn l = .ok core l := by
    rw [coreOf, hcore]
    rfl
  rw [execInst, bind_of_ok (ymdCalled_of_cons hinfo), bind_of_ok (funcAt_of_obj hfn),
    bind_of_ok hat, hinst]
  dsimp only
  rw [hop, Opcode.ofCode_code]

theorem effect_execInst (l : Ctx) : Effect (Act.Binds l .exec) (Act.Writes l .exec)
    (Act.Stores l .exec) l (stateOf (execInst env l)) := by
  rcases execInst_cases env l with ⟨f, hfail⟩ | hend |
    ⟨info, chain, fn, core, inst, op, hinfo, hfn, -, hinst, hop, hexec⟩
  · rw [hfail]
    exact .refl l
  · rw [hend]
    exact .refl l
  · have hhead : info ∈ l.info.head? := by rw [hinfo]; rfl
    rw [hexec]
    refine effect_execOp env core hop hfn ?_ ?_ ?_
    · exact fun _ => ⟨info, hhead, rfl⟩
    · intro _ i j hi hj
      exact ⟨info, hhead, fn, hfn, inst, hinst, i, hi, hj⟩
    · intro o ho
      exact ⟨inst, hinst, ho⟩

/-- Whether a call follows. -/
def Next.isCall : Next → Bool
  | .call _ => true
  | _ => false

theorem stays_implJump (pc : Nat) (flag : BitVec 8) (param : Nat) :
    Gives (fun x => x.isCall = false) (implJump pc flag param) := by
  refine Gives.ite (Gives.pure rfl) (Gives.ite (Gives.ite (Gives.pure rfl) ?_) ?_)
  · exact Gives.throw _
  · exact Gives.throw _

theorem stays_testJump (info : CallInfo) (flag : BitVec 8) (param : Nat) (keeps : Bool)
    (jumps : Variable → Bool) :
    Gives (fun x => x.isCall = false) (testJump info flag param keeps jumps) := by
  refine Gives.bind fun v => Gives.ite ?_ (Gives.bind fun _ => Gives.pure rfl)
  intro l x l' hrun
  obtain ⟨target, l₁, hjump, hrest⟩ := bind_ok_iff.1 hrun
  have htarget := stays_implJump _ _ _ _ _ _ hjump
  have hgives : Gives (fun x => x.isCall = false) (if ¬ keeps = true then
      (do ymdPop 1; return target : VmM Next) else return target) :=
    Gives.ite (Gives.bind fun _ => Gives.pure htarget) (Gives.pure htarget)
  exact hgives l₁ x l' hrest

/-- Only the two call instructions make calls, and they change nothing before. -/
theorem execOp_call {info : CallInfo} {fn : Func} {core : Chunk} {op : Opcode} {inst : Inst}
    {c : Call} (h : execOp env info fn core op inst l = .ok (.call c) l') :
    l' = l ∧ ∃ adjust, c.kont = .exec adjust := by
  have hno : ∀ {x : VmM Next}, Gives (fun x => x.isCall = false) x → x l ≠ .ok (.call c) l' := by
    intro x hx hrun
    exact Bool.noConfusion (hx l _ l' hrun)
  have hdone : ∀ {α : Type} (x : VmM α), Gives (fun x => x.isCall = false) (do
      let _ ← x
      return Next.next) := fun x => Gives.bind fun _ => Gives.pure rfl
  cases op with
  | call =>
      obtain ⟨var, l₁, htop, hrest⟩ := bind_ok_iff.1 h
      obtain ⟨called, l₂, hcalled, hend⟩ := bind_ok_iff.1 hrest
      obtain ⟨-, rfl⟩ := ymdTop_ok_iff.1 htop
      obtain ⟨-, rfl⟩ := lift_ok_iff.1 hcalled
      obtain ⟨heq, rfl⟩ := pure_ok_iff.1 hend
      cases heq
      exact ⟨rfl, _, rfl⟩
  | selfcall =>
      obtain ⟨var, l₁, htop, hrest⟩ := bind_ok_iff.1 h
      obtain ⟨key, l₂, hkey, hrest⟩ := bind_ok_iff.1 hrest
      obtain ⟨method, l₃, hget, hrest⟩ := bind_ok_iff.1 hrest
      obtain ⟨called, l₄, hcalled, hend⟩ := bind_ok_iff.1 hrest
      obtain ⟨-, rfl⟩ := ymdTop_ok_iff.1 htop
      obtain rfl := (readOnly_kvalAt core _).ok hkey
      obtain rfl := (readOnly_vmGet env var key).ok hget
      obtain ⟨-, rfl⟩ := lift_ok_iff.1 hcalled
      obtain ⟨heq, rfl⟩ := pure_ok_iff.1 hend
      cases heq
      exact ⟨rfl, _, rfl⟩
  -- no other instruction calls
  | ret => cases h
  | panic => cases h
  | jmp => exact absurd h (hno (stays_implJump _ _ _))
  | jne => exact absurd h (hno (stays_testJump _ _ _ _ _))
  | jnt => exact absurd h (hno (stays_testJump _ _ _ _ _))
  | jnn => exact absurd h (hno (stays_testJump _ _ _ _ _))
  | foreach =>
      refine absurd h (hno (Gives.bind fun v => Gives.ite ?_ (Gives.pure rfl)))
      intro l₁ x l₂ hrun
      obtain ⟨target, l₃, hjump, hrest⟩ := bind_ok_iff.1 hrun
      obtain ⟨_, l₄, _, hend⟩ := bind_ok_iff.1 hrest
      obtain ⟨rfl, -⟩ := pure_ok_iff.1 hend
      exact stays_implJump _ _ _ _ _ _ hjump
  | store => exact absurd h (hno (Gives.bind fun _ => hdone _))
  | push => exact absurd h (hno (Gives.bind fun _ => hdone _))
  | newmap =>
      exact absurd h (hno (Gives.bind fun _ => Gives.bind fun _ => Gives.bind fun _ =>
        Gives.bind fun _ => hdone _))
  | newskl =>
      exact absurd h (hno (Gives.bind fun _ => Gives.bind fun _ => Gives.bind fun _ => hdone _))
  | newdya =>
      exact absurd h (hno (Gives.bind fun _ => Gives.bind fun _ => Gives.bind fun _ => hdone _))
  | setf => exact absurd h (hno (hdone _))
  | test => exact absurd h (hno (hdone _))
  | not => exact absurd h (hno (hdone _))
  | getf => exact absurd h (hno (hdone _))
  | typeof => exact absurd h (hno (hdone _))
  | inv => exact absurd h (hno (hdone _))
  | mul => exact absurd h (hno (hdone _))
  | div => exact absurd h (hno (hdone _))
  | add => exact absurd h (hno (hdone _))
  | sub => exact absurd h (hno (hdone _))
  | mod => exact absurd h (hno (hdone _))
  | pow => exact absurd h (hno (hdone _))
  | andb => exact absurd h (hno (hdone _))
  | orb => exact absurd h (hno (hdone _))
  | xorb => exact absurd h (hno (hdone _))
  | invb => exact absurd h (hno (hdone _))
  | shift => exact absurd h (hno (hdone _))
  | bind => exact absurd h (hno (hdone _))

/-! ## Native functions -/

/-- The objects that a compilation leaves. -/
theorem Heap.Compiled.effect {own arrs : Addr → Prop} {heap heap' : Heap}
    (hmade : heap'.Compiled heap.next) (hsame : heap.SameBelow heap.next heap') :
    heap.Effect own arrs heap' := by
  have hold : ∀ o obj, heap.obj o = some obj → heap'.obj o = some obj := fun o obj hobj =>
    (hsame o (Heap.lt_next hobj)).trans hobj
  have hcases : ∀ o obj, heap'.obj o = some obj → heap.obj o = some obj ∨ heap.next ≤ o ∧
      ∃ fn, obj = .func fn ∧ fn.argv = none ∧ ∀ core, fn.core = some core → core.LocalsOk := by
    intro o obj hobj
    by_cases ho : o < heap.next
    · exact .inl ((hsame o ho).symm.trans hobj)
    · exact .inr ⟨Nat.le_of_not_lt ho, hmade.made o obj (Nat.le_of_not_lt ho) hobj⟩
  refine ⟨hmade.next, fun o fn hfn => ⟨fn, hold o _ hfn, rfl, rfl, rfl, fun _ => rfl⟩, ?_,
    fun o elem helem => ⟨elem, hold o _ helem, fun _ => rfl⟩, ?_⟩
  · intro o fn hfn
    rcases hcases o _ hfn with hobj | ⟨hnext, fn', heq, hargv, -⟩
    · exact .inl ⟨fn, hobj⟩
    · cases heq
      exact .inr ⟨hnext, hargv⟩
  · intro hcode o fn core hfn hcore
    rcases hcases o _ hfn with hobj | ⟨-, fn', heq, -, hlocals⟩
    · exact hcode o fn core hobj hcore
    · cases heq
      exact hlocals core hcore

theorem effect_compileInto (own arrs : Addr → Prop) (slots : Nat → Prop) (depth : Nat)
    (name code : Bytes) : Does own arrs slots (compileInto depth name code) := by
  intro l
  have hscope := @ymdCompile_scope _ Lex.source depth name (Lex.init code) l.heap l.stk
  rw [compileInto, bind_of_ok (get_apply l)]
  cases hrun : ymdCompile Lex.source depth name (.init (.init code) l.heap l.stk) with
  | ok a p =>
      rw [hrun] at hscope
      exact ⟨rfl, rfl, rfl, fun _ _ => rfl, hscope.1.effect hscope.2⟩
  | error e p =>
      rw [hrun] at hscope
      cases e with
      | fail msg => exact ⟨rfl, rfl, rfl, fun _ _ => rfl, hscope.1.effect hscope.2⟩
      | panic msg => exact ⟨rfl, rfl, rfl, fun _ _ => rfl, hscope.1.effect hscope.2⟩
      | fault f => exact .refl l
      | fuel => exact .refl l

theorem effect_prim (l : Ctx) (p : Prim) : Effect (Act.Binds l (.prim p)) (Act.Writes l (.prim p))
    (Act.Stores l (.prim p)) l (stateOf (p.run l)) := by
  cases p with
  | push v => exact does_ymdPush v l
  | pop n => exact does_ymdPop n l
  | setTop i v => exact does_setTop i v l
  | gcNew obj hdata => exact Does.bind (does_gcNew_data hdata) (fun _ => Does.pure _) l
  | storeObj o obj hdata =>
      change Effect _ _ _ l (stateOf (overwrite o obj l))
      rw [overwrite, bind_of_ok (get_apply l)]
      split
      next htype =>
        obtain ⟨old, hold, hsame⟩ := Option.map_eq_some_iff.1 htype
        exact effect_storeObj hold hsame hdata fun _ _ => rfl
      next => exact .refl l
  | nafn proto nbind =>
      refine Does.bind (does_gcNew ?_ ?_) (fun _ => Does.pure _) l
      · rintro fn ⟨⟩
        rfl
      · rintro fn core ⟨⟩ hcore
        cases hcore
  | bind o i v =>
      change Effect _ _ _ l (stateOf ((funcAt o >>= fun fn =>
        check (funcBind fn i v) >>= fun fn' => storeObj o (.func fn')) l))
      cases hfunc : l.heap.func o with
      | error f =>
          rw [bind_of_error (funcAt_of_error hfunc)]
          exact .refl l
      | ok fn =>
          have hfn := Heap.func_eq_ok.1 hfunc
          rw [bind_of_ok (funcAt_of_obj hfn)]
          cases hbind : funcBind fn i v with
          | error f =>
              rw [bind_of_error (check_of_error rfl)]
              exact .refl l
          | ok fn' =>
              rw [bind_of_ok (check_of_ok rfl)]
              unfold funcBind at hbind
              split at hbind
              · cases hbind
                exact .of_heap (.set_bind hfn _ rfl)
              · cases hbind
  | compile depth name code => exact effect_compileInto _ _ _ depth name code l

end

end Ymd
