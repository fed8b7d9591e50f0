import Ymd.Machine.Steps

/-! # Where a step leads

A step of a function stays in its frame, enters a function, leaves the running
one, or jumps to a handler.
-/

namespace Ymd

open Foundation

variable (env : Env) {l l' : Ctx}

theorem execInst_call {c : Call} (h : execInst env l = .ok (.call c) l') :
    l' = l ∧ ∃ adjust, c.kont = .exec adjust := by
  rcases execInst_cases env l with ⟨f, hfail⟩ | hend |
    ⟨info, chain, fn, core, inst, op, -, -, -, -, -, hexec⟩
  · rw [hfail] at h
    cases h
  · rw [hend] at h
    cases h
  · exact execOp_call env (hexec.symm.trans h)

/-! ## The running function returns -/

/-- Where the running function is, changed. -/
def Ctx.withPc (l : Ctx) (f : Nat → Nat) : Ctx :=
  { l with info :=
    match l.info with
    | [] => []
    | info :: chain => { info with pc := f info.pc } :: chain }

/-- The objects with an empty array for the arguments of a function. -/
def Heap.drained (heap : Heap) (fn : Func) : Heap :=
  match fn.argv with
  | none => heap
  | some a => heap.set a (.dyay [])

/-- The machine behind a function that has returned. -/
def Ctx.left (l : Ctx) (fn : Func) : Ctx :=
  { l with heap := l.heap.drained fn, info := l.info.tail }

theorem finalArgv_of_ok {info : CallInfo} {chain : List CallInfo} {fn : Func} (hok : l.heap.Ok)
    (hinfo : l.info = info :: chain) (hfn : l.heap.obj info.run = some (.func fn)) :
    finalArgv l = .ok () { l with heap := l.heap.drained fn } := by
  rw [finalArgv, bind_of_ok (ymdCalled_of_cons hinfo), bind_of_ok (funcAt_of_obj hfn)]
  unfold Heap.drained
  cases hargv : fn.argv with
  | none => rfl
  | some a =>
      obtain ⟨elem, helem⟩ := hok.argv _ _ _ hfn hargv
      change dyayFinal a l = _
      rw [dyayFinal, bind_of_ok (get_apply l), bind_of_ok (check_of_ok (Heap.dyay_eq_ok.2 helem))]
      rfl

/-- What follows in the caller. -/
def resume (kont : Kont) (rv : Int) : VmM Unit :=
  match kont with
  | .exec adjust => do
      ymdAdjust adjust rv
      setPc (· + 1)
  | .native => modify fun l => { l with rv := rv }
  | .pcall => modify fun l => { l with jpt := l.jpt.tail, rv := rv }
  | .root => modify fun l => { l with jpt := l.jpt.tail, rv := rv }

/-! ## Calls -/

/-- Where the frame of a call begins, and how many of its slots are cleared. -/
def Ctx.Begins (l : Ctx) (c : Call) (base clear : Nat) : Prop :=
  (c.kont = .root ∧ base = 0 ∧ clear = 0) ∨
    ∃ top chain caller, c.kont ≠ .root ∧ l.info = top :: chain ∧
      l.heap.obj top.run = some (.func caller) ∧ funcNlocal caller = clear ∧
      base = top.loc + clear ∧ (0 < clear → base + clear ≤ maxLocal)

theorem callInit_cases (l : Ctx) :
    (∃ f l₁, callInit l = .error (.fault f) l₁) ∨ ∃ base l₁, callInit l = .ok base l₁ := by
  rw [callInit]
  cases hinfo : l.info with
  | nil =>
      exact .inl ⟨_, _, bind_of_error (ymdCalled_of_nil hinfo)⟩
  | cons top chain =>
      rw [bind_of_ok (ymdCalled_of_cons hinfo)]
      cases hfunc : l.heap.func top.run with
      | error f =>
          exact .inl ⟨_, _, bind_of_error (funcAt_of_error hfunc)⟩
      | ok fn =>
          rw [bind_of_ok (funcAt_of_obj (Heap.func_eq_ok.1 hfunc))]
          unfold clearSlots
          split
          · exact .inl ⟨_, _, rfl⟩
          · split
            · exact .inl ⟨_, _, rfl⟩
            · exact .inr ⟨_, _, rfl⟩

/-- A call is `vm_call` in a machine that has been prepared for it. -/
theorem enter_eq (l : Ctx) (c : Call) : (∃ f l₁, enter c l = .error (.fault f) l₁) ∨
    ∃ base clear, l.Begins c base clear ∧
      enter c l = vmCall base c { l.cleared base clear with jpt := l.handlersIn c.kont } := by
  -- calls without a handler of their own
  have hplain : c.kont ≠ .root → l.handlersIn c.kont = l.jpt →
      (enter c = do vmCall (← callInit) c) → (∃ f l₁, enter c l = .error (.fault f) l₁) ∨
      ∃ base clear, l.Begins c base clear ∧
        enter c l = vmCall base c { l.cleared base clear with jpt := l.handlersIn c.kont } := by
    intro hroot hjpt heq
    rw [heq]
    rcases callInit_cases l with ⟨f, l₁, hfail⟩ | ⟨base, l₁, hinit⟩
    · exact .inl ⟨f, l₁, bind_of_error hfail⟩
    · obtain ⟨top, chain, caller, clear, hinfo, hcaller, hk, hbase, hfits, rfl⟩ := callInit_ok hinit
      rw [bind_of_ok hinit]
      refine .inr ⟨base, clear,
        .inr ⟨top, chain, caller, hroot, hinfo, hcaller, hk, hbase, hfits⟩, ?_⟩
      rw [hjpt]
      rfl
  cases hkont : c.kont with
  | exec adjust =>
      rw [← hkont]
      refine hplain (by simp [hkont]) (by rw [hkont]; rfl) ?_
      unfold enter
      rw [hkont]
  | native =>
      rw [← hkont]
      refine hplain (by simp [hkont]) (by rw [hkont]; rfl) ?_
      unfold enter
      rw [hkont]
  | root =>
      refine .inr ⟨0, 0, .inl ⟨hkont, rfl, rfl⟩, ?_⟩
      rw [cleared_zero]
      unfold enter
      rw [hkont]
      rfl
  | pcall =>
      unfold enter
      rw [hkont]
      dsimp only
      rcases callInit_cases l with ⟨f, l₁, hfail⟩ | ⟨base, l₁, hinit⟩
      · exact .inl ⟨f, l₁, bind_of_error hfail⟩
      · obtain ⟨top, chain, caller, clear, hinfo, hcaller, hk, hbase, hfits, rfl⟩ :=
          callInit_ok hinit
        rw [bind_of_ok hinit, bind_of_ok (get_apply _)]
        cases hjpt : (l.cleared base clear).jpt with
        | nil => exact .inl ⟨_, _, rfl⟩
        | cons jpt rest =>
            refine .inr ⟨base, clear,
              .inr ⟨top, chain, caller, by simp [hkont], hinfo, hcaller, hk, hbase, hfits⟩, ?_⟩
            have hin : l.handlersIn .pcall = ⟨jpt.level + 1, l.info.length⟩ :: l.jpt := by
              rw [Ctx.handlersIn, show l.jpt = jpt :: rest from hjpt]
              rfl
            rw [hin]
            rfl

/-- The function of a call that is made is an object. -/
theorem callee_of_enter {c : Call} (h : enter c l = .ok () l') :
    ∃ fn, l.heap.obj c.fn = some (.func fn) := by
  rcases enter_eq l c with ⟨f, l₁, hfail⟩ | ⟨base, clear, -, heq⟩
  · cases h.symm.trans hfail
  · have hcall := heq.symm.trans h
    rw [vmCall, bind_of_ok (get_apply _), bind_of_ok (set_apply _ _)] at hcall
    obtain ⟨u, l₁, hcopy, -⟩ := bind_ok_iff.1 hcall
    exact callee_of_vmCopyArgs hcopy

/-- The machine with the frame of a call in front. -/
def Ctx.pushed (l : Ctx) (base : Nat) (c : Call) : Ctx :=
  { l with info := ⟨c.fn, 0, base, c.kont, l.argsOf c⟩ :: l.info }

/-- The frame of a call stays in front while its arguments are copied. -/
theorem up_vmCall (l : Ctx) (base : Nat) (c : Call) :
    Up base (l.pushed base c) (stateOf (vmCall base c l)) := by
  have hargs := @up_vmCopyArgs base ⟨c.fn, 0, base, c.kont, l.argsOf c⟩ le_rfl c.args
  have hkeeps : Keeps (Up base) (do
      vmCopyArgs ⟨c.fn, 0, base, c.kont, l.argsOf c⟩ c.args
      ymdPop (c.args + if c.method then 0 else 1)) :=
    Keeps.bind (fun _ _ _ => Up.trans) hargs fun _ => Up.of_does (does_ymdPop _)
  exact hkeeps (l.pushed base c)

/-! ## Steps -/

theorem withPc_id (l : Ctx) : l.withPc id = l := by
  have hinfo : (match l.info with
      | [] => []
      | info :: chain => { info with pc := id info.pc } :: chain) = l.info := by
    cases l.info <;> rfl
  rw [Ctx.withPc, hinfo]

/-- A step ends with a panic that is raised in `l'`; `exit` jumps as a panic does. -/
def Act.Panics (l l' : Ctx) : Act → Prop
  | .exec => ∃ msg, vmRound env l = .error (.panic msg) l'
  | .prim p => ∃ msg, p.run l = .error (.panic msg) l'
  | .call kont fn argc => ∃ msg, enter ⟨fn, argc, false, kont⟩ l = .error (.panic msg) l'
  | .ret rv => ∃ msg, leave rv l = .error (.panic msg) l'
  | .panic _ => l' = l
  | .error => False
  | .exit => l' = l

/-- Where a step leads to. -/
inductive StepTo (l : Ctx) (a : Act) (l' : Ctx) : Prop
  | stays {l₁ : Ctx} (f : Nat → Nat)
      (heffect : Effect (a.Binds l) (a.Writes l) (a.Stores l) l l₁) (hstays : l' = l₁.withPc f)
  | enters {c : Call} (hcall : callOf env l a = some c) (henter : enter c l = .ok () l')
  | leaves {rv : Int} {l₁ : Ctx}
      (heffect : Effect (a.Binds l) (a.Writes l) (a.Stores l) l l₁)
      (hleave : leave rv l₁ = .ok () l')
  | panics {l₁ : Ctx} (hpanics : a.Panics env l l₁) (hjpt : l₁.jpt ≠ [])
      (hjump : l' = longjmp 1 l₁.jpt l₁)
  | raises (ha : a = .error) (hraise : ymdError l = .run l')

theorem settle_eq_run {α : Type} {x : EStateM.Result Stop Ctx α} (h : settle x = .run l') :
    (∃ a, x = .ok a l') ∨
      ∃ msg l₁, x = .error (.panic msg) l₁ ∧ l₁.jpt ≠ [] ∧ l' = longjmp 1 l₁.jpt l₁ := by
  cases x with
  | ok a l₁ =>
      cases h
      exact .inl ⟨a, rfl⟩
  | error stop l₁ =>
      cases stop with
      | fault f => cases h
      | panic msg =>
          change (if l₁.jpt = [] then Mach.crashed (.assertion "l->jpt")
            else .run (longjmp 1 l₁.jpt l₁)) = _ at h
          by_cases hjpt : l₁.jpt = []
          · rw [if_pos hjpt] at h
            cases h
          · rw [if_neg hjpt] at h
            cases h
            exact .inr ⟨msg, l₁, rfl, hjpt, rfl⟩

theorem stepTo_of_after {a : Act} (h : after env l a = .run l') : StepTo env l a l' := by
  cases a with
  | exec =>
      rcases settle_eq_run h with ⟨u, hrun⟩ | ⟨msg, l₁, hrun, hjpt, hjump⟩
      -- the round goes on, returns, or enters the function of a call instruction
      · obtain ⟨x, l₁, hinst, hrest⟩ := bind_ok_iff.1 hrun
        have heffect := effect_execInst env l
        rw [hinst] at heffect
        cases x with
        | next =>
            cases hrest
            exact .stays (· + 1) heffect rfl
        | jump pc =>
            cases hrest
            exact .stays (fun _ => pc) heffect rfl
        | ret rv => exact .leaves heffect hrest
        | call c =>
            obtain ⟨rfl, -⟩ := execInst_call env hinst
            refine .enters ?_ hrest
            unfold callOf
            rw [hinst]
      · exact .panics ⟨msg, hrun⟩ hjpt hjump
  | prim p =>
      rcases settle_eq_run h with ⟨u, hrun⟩ | ⟨msg, l₁, hrun, hjpt, hjump⟩
      · have heffect := effect_prim l p
        rw [hrun] at heffect
        exact .stays id heffect (withPc_id l').symm
      · exact .panics ⟨msg, hrun⟩ hjpt hjump
  | call kont fn argc =>
      rcases settle_eq_run h with ⟨u, hrun⟩ | ⟨msg, l₁, hrun, hjpt, hjump⟩
      · exact .enters rfl hrun
      · exact .panics ⟨msg, hrun⟩ hjpt hjump
  | ret rv =>
      rcases settle_eq_run h with ⟨u, hrun⟩ | ⟨msg, l₁, hrun, hjpt, hjump⟩
      · exact .leaves (.refl l) hrun
      · exact .panics ⟨msg, hrun⟩ hjpt hjump
  | panic msg =>
      have h : settle ((throw (.panic msg) : VmM Unit) l) = .run l' := h
      rcases settle_eq_run h with ⟨u, hrun⟩ | ⟨msg, l₁, hrun, hjpt, hjump⟩
      · cases hrun
      · cases hrun
        exact .panics rfl hjpt hjump
  | error => exact .raises rfl h
  | exit =>
      unfold after libxExit at h
      dsimp only at h
      split at h
      next => cases h
      next hjpt =>
        cases h
        exact .panics rfl hjpt rfl

end Ymd
