import Ymd.Compiler.Congruence
import Ymd.Compiler.Cursor
import Ymd.Machine.Elsewhere
import Ymd.Machine.Room

/-! # Steps inside the local area

A step whose slots all lie in the local area does not fault there: the faults of
`vm_local`, `call_init` and `vm_copy_args` are the only ones with such an index.
-/

namespace Ymd

open Foundation

/-! ## Compilations -/

def Abort.Elsewhere : Abort → Prop
  | .fault f => f.Elsewhere
  | _ => True

section

variable {σ : Type} {src : Source σ}

theorem elsewhere_ymcNext (hsrc : ∀ s f, src.next s = .error f → f.Elsewhere) :
    Throws Abort.Elsewhere (ymcNext src) := by
  intro p
  cases hnext : src.next p.lex with
  | ok next => exact .of_ok (by rw [ymcNext_apply, hnext])
  | error f =>
      have hrun : ymcNext src p = .error (.fault f) p := by rw [ymcNext_apply, hnext]
      exact .of_error hrun (hsrc _ f hnext)

theorem elsewhere_theLoop : Throws Abort.Elsewhere (theLoop : ParseM σ LoopInfo) := by
  refine Throws.get.bind fun p => ?_
  cases p.loop with
  | nil => exact .throw (elsewhere_bounds (by decide))
  | cons info rest => exact .pure info

theorem elsewhere_goto (isBreak : Bool) :
    Throws Abort.Elsewhere ((Hooks.plain src).goto isBreak) :=
  elsewhere_theLoop.bind fun _ => .ite (.throw (elsewhere_bounds (by decide))) (.pure ())

theorem elsewhere_onLoop (f : LoopInfo → LoopInfo) :
    Throws Abort.Elsewhere (onLoop f : ParseM σ Unit) :=
  elsewhere_theLoop.bind fun _ => .modify _

theorem elsewhere_ymdFunc (name : Bytes) : Throws Abort.Elsewhere (ymdFunc name : ParseM σ Addr) := by
  intro p
  by_cases hfull : maxStack ≤ p.stk.length
  · exact .of_error ((ymdFunc_apply name p).trans (if_pos hfull)) trivial
  · exact .of_ok ((ymdFunc_apply name p).trans (if_neg hfull))

theorem elsewhere_ymkLeave (fn : Addr) : Throws Abort.Elsewhere (ymkLeave fn : ParseM σ Unit) := by
  refine Throws.get.bind fun p => ?_
  split
  · exact .set _
  · exact .throw elsewhere_badCast

theorem elsewhere_setBindCount (n : Nat) (fn : Addr) :
    Throws Abort.Elsewhere (setBindCount n fn : ParseM σ Unit) := by
  refine Throws.get.bind fun p => ?_
  split
  · exact .set _
  · exact .throw elsewhere_badCast

theorem emitting_elsewhere (src : Source σ) : Emitting src src (fun {_} _ y => Throws Abort.Elsewhere y) where
  pure := .pure
  bind := Throws.bind
  fail _ := .throw trivial
  get h := Throws.get.bind fun p => h p p ⟨rfl, rfl, rfl, rfl⟩
  onBlk _ _ := Throws.get.bind fun _ => (Throws.set _).bind fun _ => .pure _
  assertion _ := .throw (elsewhere_assertion _)

theorem congruence_elsewhere (hsrc : ∀ s f, src.next s = .error f → f.Elsewhere) :
    Congruence src src (Hooks.plain src) (Hooks.plain src)
      (fun {_} _ y => Throws Abort.Elsewhere y) where
  toEmitting := emitting_elsewhere src
  fuel := .throw trivial
  next := elsewhere_ymcNext hsrc
  closing _ := elsewhere_ymcNext hsrc
  name _ := .ite (.throw (elsewhere_bounds (by decide))) (.pure ())
  holdBreak := (elsewhere_goto true).bind fun _ =>
    (emitting_elsewhere src).hold.bind fun _ => elsewhere_onLoop _
  retry := (elsewhere_goto false).bind fun _ => elsewhere_theLoop.bind fun _ => .pure _
  site _ := .pure ()
  scope name _ _ desc _ _ hb hx := by
    refine (Throws.pure ()).bind fun _ => (elsewhere_ymdFunc name).bind fun fn => ?_
    refine Throws.bind hb fun names => (Throws.modify _).bind fun _ => Throws.bind hx fun y => ?_
    refine (elsewhere_ymkLeave fn).bind fun _ => ?_
    rw [ymkEmitFunc_eq]
    refine Throws.bind ?_ fun _ => .pure _
    have hE := emitting_elsewhere src
    exact (elsewhere_setBindCount _ fn).bind fun _ => Throws.bind (hE.kf fn) fun k =>
      Throws.bind (hE.hack _ _) fun _ => .modify _

theorem pieces_elsewhere (src : Source σ) : Pieces (Hooks.plain src) (Hooks.plain src)
    (fun {_} _ y => Throws Abort.Elsewhere y) where
  branch _ := .ite (.throw (elsewhere_bounds (by decide))) (.pure ())
  mark _ := .pure ()
  onLoop := elsewhere_onLoop
  freshIter := Throws.get.bind fun _ => (Throws.set _).bind fun _ => .pure _
  loopEnter := .modify _
  loopLeave := by
    have hE := emitting_elsewhere src
    refine Throws.get.bind fun p => elsewhere_theLoop.bind fun info => ?_
    refine Throws.bind (hE.assert _ _) fun _ => Throws.bind (hE.emitJmp _) fun _ => ?_
    refine Throws.bind (hE.fillBreaks _ _) fun _ => .ite ?_ (.modify _)
    exact Throws.bind (hE.hackJmp _ _) fun _ => .modify _

theorem elsewhere_ymdCompile (hsrc : ∀ s f, src.next s = .error f → f.Elsewhere) (depth : Nat)
    (name : Bytes) : Throws Abort.Elsewhere (ymdCompile src depth name) := by
  have hR := congruence_elsewhere hsrc
  have hp := pieces_elsewhere src
  have hdepth : Fuels (fun {_} (_ y : ParseM σ _) => Throws Abort.Elsewhere y) depth depth :=
    .inl rfl
  have hparser :=
    (hR.parser (.pure ()) (fun hr => hR.parseIf hr hp) (fun hr => hR.parseFor hr hp) hdepth).2
  have htop := hR.topStmts (r := (Hooks.plain src).parser src depth) hparser hdepth
  rw [← Hooks.ymdCompile_plain]
  refine (elsewhere_ymdFunc name).bind fun fn => (elsewhere_ymcNext hsrc).bind fun _ => ?_
  refine (Throws.modify _).bind fun _ => Throws.bind htop fun body => ?_
  exact Throws.bind hR.emitEnd fun _ => (elsewhere_ymkLeave fn).bind fun _ => .pure _

end

theorem elsewhere_source (s : Lex) (f : Fault) (h : Lex.source.next s = .error f) : f.Elsewhere := by
  rcases Lex.faults_next s f h with rfl | rfl
  · exact elsewhere_looping
  · exact elsewhere_bounds (by decide)

theorem elsewhere_compileInto (depth : Nat) (name code : Bytes) :
    Elsewhere (compileInto depth name code) := by
  refine Throws.get.bind fun l => ?_
  -- what the compilation stops with is all that is left
  cases hrun : ymdCompile Lex.source depth name (.init (.init code) l.heap l.stk) with
  | ok t p => exact .set _
  | error e p =>
      have he := elsewhere_ymdCompile elsewhere_source depth name _ e p hrun
      cases e with
      | fail msg => exact .set _
      | panic msg => exact (Throws.set _).bind fun _ => .throw (elsewhere_panic _)
      | fault f => exact .throw he
      | fuel => exact .throw elsewhere_nesting

/-! ## The frames -/

section

variable {l l₁ : Ctx} {info : CallInfo} {fn : Func}

/-- A bound value, or a slot that the local area has. -/
def Reachable (fn : Func) (base i : Nat) : Prop :=
  fn.nBind ≤ i → base + (i - fn.nBind) < maxLocal

theorem elsewhere_vmLocal {base i : Nat} (hi : Reachable fn base i) :
    Raises Fault.Elsewhere (vmLocal fn base i) := by
  unfold vmLocal
  split
  next => exact .ite (.pure _) (.throw (elsewhere_bounds (by decide)))
  next hge => rw [if_pos (hi (Nat.not_lt.1 hge))]; exact .pure _

theorem elsewhere_setLoc {i : Nat} (hi : i < maxLocal) (v : Variable) : Elsewhere (setLoc i v) := by
  unfold setLoc
  rw [if_pos hi]
  exact .modify _

theorem elsewhere_loadLocal {i : Nat} (hfn : l.heap.obj info.run = some (.func fn))
    (hi : Reachable fn info.loc i) : ThrowsAt Stop.Elsewhere (loadLocal info i) l := by
  rw [loadLocal, ThrowsAt, bind_of_ok (funcAt_of_obj hfn)]
  refine (elsewhere_check (elsewhere_vmLocal hi)).bind (fun slot => ?_) l
  cases slot with
  | bind i => exact .pure _
  | loc i => exact Throws.get.bind fun _ => .pure _

theorem elsewhere_storeLocal {i : Nat} (hfn : l.heap.obj info.run = some (.func fn))
    (hi : Reachable fn info.loc i) (v : Variable) :
    ThrowsAt Stop.Elsewhere (storeLocal info i v) l := by
  rw [storeLocal, ThrowsAt, bind_of_ok (funcAt_of_obj hfn)]
  refine ThrowsAt.bind (elsewhere_check (elsewhere_vmLocal hi) l) fun slot l' hslot => ?_
  obtain ⟨hslot, -⟩ := check_ok_iff.1 hslot
  cases slot with
  | bind i => exact elsewhere_storeObj _ _ l'
  | loc j =>
      refine elsewhere_setLoc ?_ v l'
      unfold vmLocal at hslot
      split at hslot
      · split at hslot <;> cases hslot
      · split at hslot
        next hlt => cases hslot; exact hlt
        next => cases hslot

end

/-! ## Calls -/

theorem elsewhere_argvOf (info : CallInfo) : Elsewhere (argvOf info) := by
  refine (elsewhere_funcAt _).bind fun fn => ?_
  cases fn.argv with
  | some o => exact .pure o
  | none =>
      exact (elsewhere_gcNew _).bind fun o => (elsewhere_storeObj _ _).bind fun _ => .pure o

theorem elsewhere_copyParams {base k n : Nat} (hn : n ≤ k)
    (hfits : ∀ j, base ≤ j → j < base + k → j < maxLocal) : Elsewhere (copyParams base k n) := by
  induction n with
  | zero => exact .pure ()
  | succ n ih =>
      have hslot : base + (k - n - 1) < maxLocal :=
        hfits _ (Nat.le_add_right _ _) (by omega)
      exact (elsewhere_ymdTop n).bind fun v => (elsewhere_setLoc hslot v).bind fun _ =>
        ih (Nat.le_of_succ_le hn)

theorem elsewhere_addArgs (argv : Addr) (n : Nat) : Elsewhere (addArgs argv n) := by
  induction n with
  | zero => exact .pure ()
  | succ n ih =>
      exact Throws.get.bind fun l => (elsewhere_check (elsewhere_dyay l.heap argv)).bind fun arr =>
        (elsewhere_ymdTop n).bind fun v => (elsewhere_storeObj _ _).bind fun _ => ih

theorem elsewhere_vmCopyArgs {l : Ctx} {info : CallInfo} {n : Nat}
    (hargv : ∀ fn core i, l.heap.obj info.run = some (.func fn) → fn.core = some core →
      core.findLz (lit "argv") = some i → Reachable fn info.loc i)
    (hparams : ∀ fn core j, l.heap.obj info.run = some (.func fn) → fn.core = some core →
      info.loc ≤ j → j < info.loc + min core.kargs n → j < maxLocal) :
    ThrowsAt Stop.Elsewhere (vmCopyArgs info n) l := by
  refine ThrowsAt.bind (elsewhere_argvOf info l) fun argv l₁ hrun₁ => ?_
  have hup₁ := (@up_argvOf 0 info).ok hrun₁
  refine ThrowsAt.bind (elsewhere_funcAt _ l₁) fun fn₁ l₁' hfn₁ => ?_
  obtain ⟨hfn₁, rfl⟩ := funcAt_ok_iff.1 hfn₁
  obtain ⟨fn, _, hfn, -⟩ := bind_ok_iff.1 hrun₁
  obtain ⟨hfn, -⟩ := funcAt_ok_iff.1 hfn
  obtain ⟨fn', hfn', hcore, hnum, -⟩ := hup₁.heap.func _ _ hfn
  rw [hfn₁] at hfn'
  cases hfn'
  rw [hcore]
  cases hcore' : fn.core with
  | none => exact elsewhere_addArgs argv n l₁'
  | some core =>
      dsimp only
      cases hfind : core.findLz (lit "argv") with
      | none => exact Throws.throw (elsewhere_panic _) l₁'
      | some i =>
          -- the function is as wide in all states behind
          have hstore : ∀ v l₂, l₁'.heap.Grows l₂.heap →
              ThrowsAt Stop.Elsewhere (storeLocal info i v) l₂ := by
            intro v l₂ hgrows
            obtain ⟨fn₂, hfn₂, -, hnum₂, -⟩ := hgrows.func _ _ hfn₁
            refine elsewhere_storeLocal hfn₂ ?_ v
            rw [Reachable, hnum₂, hnum]
            exact hargv fn core i hfn hcore' hfind
          refine ThrowsAt.bind (hstore .nil l₁' (.refl _)) fun _ l₂ hrun₂ => ?_
          have hup₂ := (up_storeLocal (Nat.zero_le _) i .nil).ok hrun₂
          refine ThrowsAt.bind (elsewhere_copyParams le_rfl (hparams fn core · hfn hcore') l₂)
            fun _ l₃ hrun₃ => ?_
          have hup₃ := hup₂.trans ((up_copyParams (Nat.zero_le _) _ _).ok hrun₃)
          split
          · refine ThrowsAt.bind (elsewhere_addArgs argv n l₃) fun _ l₄ hrun₄ => ?_
            exact hstore _ l₄ (hup₃.trans ((up_addArgs argv n).ok hrun₄)).heap
          · exact Throws.pure () l₃

theorem elsewhere_vmCall {l : Ctx} {c : Call} {base : Nat}
    (hargv : ∀ fn core i, l.heap.obj c.fn = some (.func fn) → fn.core = some core →
      core.findLz (lit "argv") = some i → Reachable fn base i)
    (hparams : ∀ fn core j, l.heap.obj c.fn = some (.func fn) → fn.core = some core →
      base ≤ j → j < base + min core.kargs c.args → j < maxLocal) :
    ThrowsAt Stop.Elsewhere (vmCall base c) l := by
  have hcopy : ThrowsAt Stop.Elsewhere
      (vmCopyArgs ⟨c.fn, 0, base, c.kont, l.argsOf c⟩ c.args) (l.pushed base c) :=
    elsewhere_vmCopyArgs hargv hparams
  exact hcopy.bind fun _ l' _ => elsewhere_ymdPop _ l'

theorem elsewhere_clearSlots {loc : Nat} {k : Int} (hnonneg : 0 ≤ k)
    (hfits : ∀ j, loc + k.toNat ≤ j → j < loc + k.toNat + k.toNat → j < maxLocal) :
    Elsewhere (clearSlots loc k) := by
  unfold clearSlots
  rw [if_neg (Int.not_lt.2 hnonneg), if_neg]
  · exact (Throws.modify _).bind fun _ => .pure _
  · rintro ⟨hpos, hbehind⟩
    have hlast := hfits (loc + k.toNat + k.toNat - 1) (by omega) (by omega)
    omega

/-- The slots in front of a callee are those that its caller has. -/
theorem elsewhere_callInit {l : Ctx}
    (hroom : ∀ info ∈ l.info.head?, ∀ caller, l.heap.obj info.run = some (.func caller) →
      0 ≤ funcNlocal caller ∧ ∀ j, info.loc + (funcNlocal caller).toNat ≤ j →
        j < info.loc + (funcNlocal caller).toNat + (funcNlocal caller).toNat → j < maxLocal) :
    ThrowsAt Stop.Elsewhere callInit l := by
  cases hinfo : l.info with
  | nil =>
      exact .of_error (bind_of_error (ymdCalled_of_nil hinfo)) (elsewhere_assertion _)
  | cons info chain =>
      rw [callInit, ThrowsAt, bind_of_ok (ymdCalled_of_cons hinfo)]
      refine ThrowsAt.bind (elsewhere_funcAt info.run l) fun caller l' hcaller => ?_
      obtain ⟨hcaller, rfl⟩ := funcAt_ok_iff.1 hcaller
      obtain ⟨hnonneg, hfits⟩ := hroom info (by rw [hinfo]; rfl) caller hcaller
      exact elsewhere_clearSlots hnonneg hfits l'

/-- The slots of a call all lie in the local area. -/
structure Ctx.Holds (l : Ctx) (c : Call) : Prop where
  caller : c.kont ≠ .root → ∀ info ∈ l.info.head?, ∀ fn, l.heap.obj info.run = some (.func fn) →
    0 ≤ funcNlocal fn
  cleared : ∀ base clear j, l.Places c base clear → base ≤ j → j < base + clear → j < maxLocal
  copied : ∀ base clear fn core j, l.Places c base clear → l.heap.obj c.fn = some (.func fn) →
    fn.core = some core → base ≤ j → (j < base + min core.kargs c.args ∨
      core.findLz (lit "argv") = some (fn.nBind + (j - base))) → j < maxLocal

namespace Ctx.Holds

variable {l l₁ : Ctx} {c : Call} {base clear : Nat} (h : l.Holds c)

include h

theorem vmCall (hplace : l.Places c base clear) (hheap : l₁.heap = l.heap) :
    ThrowsAt Stop.Elsewhere (vmCall base c) l₁ := by
  apply elsewhere_vmCall
  · intro fn core i hfn hcore hfind hge
    rw [hheap] at hfn
    refine h.copied base clear fn core _ hplace hfn hcore (Nat.le_add_right _ _) (.inr ?_)
    rw [hfind, Nat.add_sub_cancel_left, Nat.add_sub_cancel' hge]
  · intro fn core j hfn hcore hge hlt
    rw [hheap] at hfn
    exact h.copied base clear fn core j hplace hfn hcore hge (.inl hlt)

theorem callInit (hkont : c.kont ≠ .root) : ThrowsAt Stop.Elsewhere callInit l := by
  apply elsewhere_callInit
  intro info hinfo fn hfn
  have hnonneg := h.caller hkont info hinfo fn hfn
  have hplace : l.Places c (info.loc + (funcNlocal fn).toNat) (funcNlocal fn).toNat :=
    .inr ⟨info, hinfo, fn, hkont, hfn, (Int.toNat_of_nonneg hnonneg).symm, rfl⟩
  exact ⟨hnonneg, fun j => h.cleared _ _ j hplace⟩

theorem enter : ThrowsAt Stop.Elsewhere (enter c) l := by
  -- where the call goes on behind `call_init`
  have hbehind : c.kont ≠ .root → ∀ base l', Ymd.callInit l = .ok base l' →
      l'.heap = l.heap ∧ ∃ clear, l.Places c base clear := by
    intro hkont base l' hinit
    obtain ⟨top, chain, caller, clear, hinfo, hcaller, hclear, hbase, -, rfl⟩ := callInit_ok hinit
    exact ⟨rfl, clear, .inr ⟨top, by rw [hinfo]; rfl, caller, hkont, hcaller, hclear, hbase⟩⟩
  have hplain : c.kont ≠ .root → ThrowsAt Stop.Elsewhere (do Ymd.vmCall (← Ymd.callInit) c) l :=
    fun hkont => (h.callInit hkont).bind fun base l' hinit => by
      obtain ⟨hheap, clear, hplace⟩ := hbehind hkont base l' hinit
      exact h.vmCall hplace hheap
  unfold Ymd.enter
  cases hkont : c.kont with
  | exec adjust => exact hplain (by rw [hkont]; nofun)
  | native => exact hplain (by rw [hkont]; nofun)
  | root => exact h.vmCall (.inl ⟨hkont, rfl, rfl⟩) rfl
  | pcall =>
      have hroot : c.kont ≠ .root := by rw [hkont]; nofun
      refine (h.callInit hroot).bind fun base l' hinit => ?_
      obtain ⟨hheap, clear, hplace⟩ := hbehind hroot base l' hinit
      cases hjpt : l'.jpt with
      | nil =>
          rw [ThrowsAt, bind_of_ok (get_apply l'), hjpt]
          exact Throws.throw (e := Stop.fault (.bounds "l->jpt")) (elsewhere_bounds (by decide)) l'
      | cons jpt rest =>
          rw [ThrowsAt, bind_of_ok (get_apply l'), hjpt]
          exact h.vmCall hplace hheap

end Ctx.Holds

/-! ## The end of a function -/

theorem elsewhere_finalArgv : Elsewhere finalArgv := by
  refine elsewhere_ymdCalled.bind fun info => (elsewhere_funcAt _).bind fun fn => ?_
  cases fn.argv with
  | none => exact .pure ()
  | some o =>
      exact Throws.get.bind fun l => (elsewhere_check (elsewhere_dyay l.heap o)).bind fun _ =>
        elsewhere_storeObj o _

theorem elsewhere_leave (rv : Int) : Elsewhere (leave rv) := by
  refine elsewhere_ymdCalled.bind fun info => elsewhere_finalArgv.bind fun _ => ?_
  refine (Throws.modify _).bind fun _ => ?_
  cases info.kont with
  | exec adjust => exact (elsewhere_ymdAdjust adjust rv).bind fun _ => .modify _
  | native => exact .modify _
  | pcall => exact .modify _
  | root => exact .modify _

/-! ## Steps -/

section

variable (env : Env) {l : Ctx} {info : CallInfo} {fn : Func}

theorem elsewhere_pushed (core : Chunk) {flag : BitVec 8} {param : Nat}
    (hfn : l.heap.obj info.run = some (.func fn))
    (hlocal : flag = Flag.loc → Reachable fn info.loc param) :
    ThrowsAt Stop.Elsewhere (pushed env info core flag param) l := by
  unfold pushed
  by_cases hflag : flag = Flag.loc
  · rw [if_neg (by rw [hflag]; decide), if_pos hflag]
    exact elsewhere_loadLocal hfn (hlocal hflag)
  · rw [if_neg hflag]
    refine Throws.ite (elsewhere_kvalAt core param) (.ite (.pure _) (.ite (.pure _) (.ite ?_ ?_))) l
    · exact elsewhere_vmIgetg env core param
    · exact .throw (e := Stop.fault (.bounds "var")) (elsewhere_bounds (by decide))

theorem elsewhere_stored (core : Chunk) {flag : BitVec 8} {param : Nat}
    (hfn : l.heap.obj info.run = some (.func fn))
    (hlocal : flag = Flag.loc → Reachable fn info.loc param) :
    ThrowsAt Stop.Elsewhere (stored env info core flag param) l := by
  unfold stored
  by_cases hflag : flag = Flag.loc
  · rw [if_pos hflag]
    refine (elsewhere_ymdTop 0 l).bind fun v l' htop => ?_
    obtain ⟨-, rfl⟩ := ymdTop_ok_iff.1 htop
    exact elsewhere_storeLocal hfn (hlocal hflag) v
  · rw [if_neg hflag]
    exact Throws.ite ((elsewhere_ymdTop 0).bind fun v => elsewhere_vmIputg env core param v)
      (.pure ()) l

theorem elsewhere_execOp (core : Chunk) {op : Opcode} {inst : Inst} (hop : asmOp inst = op.code)
    (hfn : l.heap.obj info.run = some (.func fn))
    (hlocal : ∀ i, localOperand inst = some i → Reachable fn info.loc i) :
    ThrowsAt Stop.Elsewhere (execOp env info fn core op inst) l := by
  have hdone : ∀ {x : VmM Unit}, Elsewhere x → Elsewhere (x >>= fun _ => pure Next.next) :=
    fun hx => hx.bind fun _ => .pure _
  have harith : ∀ {f : Variable → Variable → Partial Variable},
      (∀ rhs lhs, Raises Stop.Elsewhere (f rhs lhs)) →
        ThrowsAt Stop.Elsewhere (binaryInst (fun rhs lhs => lift (f rhs lhs)) >>=
          fun _ => pure Next.next) l :=
    fun hf => hdone (elsewhere_binaryInst fun rhs lhs => elsewhere_lift (hf rhs lhs)) l
  cases op with
  | push =>
      have hpushed := elsewhere_pushed env core hfn fun hflag => hlocal _ (if_pos ⟨.inl hop, hflag⟩)
      exact hpushed.bind fun v l' _ => hdone (elsewhere_ymdPush v) l'
  | store =>
      have hstored := elsewhere_stored env core hfn fun hflag => hlocal _ (if_pos ⟨.inr hop, hflag⟩)
      exact hstored.bind fun _ l' _ => hdone (elsewhere_ymdPop 1) l'
  | panic => exact Throws.throw (elsewhere_panic _) l
  | ret => exact Throws.pure _ l
  | jne => exact elsewhere_testJump _ _ _ _ _ l
  | jnt => exact elsewhere_testJump _ _ _ _ _ l
  | jnn => exact elsewhere_testJump _ _ _ _ _ l
  | jmp => exact elsewhere_implJump _ _ _ l
  | foreach =>
      exact (elsewhere_ymdTop 0).bind (fun v => .ite ((elsewhere_implJump _ _ _).bind fun _ =>
        (elsewhere_ymdPop 1).bind fun _ => .pure _) (.pure _)) l
  | setf => exact hdone (elsewhere_instSetf env core _ _) l
  | test => exact hdone (elsewhere_binaryInst (elsewhere_opTest env _)) l
  | not => exact hdone (elsewhere_unaryInst fun _ => .pure _) l
  | getf => exact hdone (elsewhere_instGetf env core _ _) l
  | typeof => exact hdone (elsewhere_unaryInst fun _ => .pure _) l
  | inv => exact hdone (elsewhere_unaryInst fun v => elsewhere_lift (elsewhere_opInv v)) l
  | invb => exact hdone (elsewhere_unaryInst fun v => elsewhere_lift (elsewhere_opInvb v)) l
  | mul => exact harith (elsewhere_arith _)
  | div => exact harith elsewhere_opDiv
  | add => exact harith elsewhere_opAdd
  | sub => exact harith (elsewhere_arith _)
  | mod => exact harith elsewhere_opMod
  | pow => exact harith elsewhere_opPow
  | andb => exact harith (elsewhere_arith _)
  | orb => exact harith (elsewhere_arith _)
  | xorb => exact harith (elsewhere_arith _)
  | shift => exact harith (elsewhere_opShift _)
  | call =>
      exact (elsewhere_ymdTop _).bind (fun v =>
        (elsewhere_lift (elsewhere_funcOf v)).bind fun _ => .pure _) l
  | selfcall =>
      exact (elsewhere_ymdTop _).bind (fun var => (elsewhere_kvalAt core _).bind fun k =>
        (elsewhere_vmGet env var k).bind fun v =>
          (elsewhere_lift (elsewhere_funcOf v)).bind fun _ => .pure _) l
  | newmap =>
      exact (elsewhere_check (Hmap.elsewhere_new _)).bind (fun map =>
        (elsewhere_mapPairs env _ _ map).bind fun map => (elsewhere_ymdPop _).bind fun _ =>
          (elsewhere_gcNew _).bind fun o => hdone (elsewhere_ymdPush _)) l
  | newskl =>
      exact (elsewhere_sklPairs env _ _ _).bind (fun list => (elsewhere_ymdPop _).bind fun _ =>
        (elsewhere_gcNew _).bind fun o => hdone (elsewhere_ymdPush _)) l
  | newdya =>
      exact (elsewhere_dyaElems _).bind (fun elem => (elsewhere_ymdPop _).bind fun _ =>
        (elsewhere_gcNew _).bind fun o => hdone (elsewhere_ymdPush _)) l
  | bind => exact hdone (elsewhere_instBind _) l

theorem coreOf_ok_iff {l l' : Ctx} {core : Chunk} :
    coreOf fn l = .ok core l' ↔ fn.core = some core ∧ l' = l := by
  unfold coreOf
  cases fn.core with
  | none => simp
  | some core' => simp [eq_comm]

theorem elsewhere_execInst (hlocal : ∀ info ∈ l.info.head?, ∀ fn,
    l.heap.obj info.run = some (.func fn) → ∀ inst ∈ l.inst, ∀ i,
      localOperand inst = some i → Reachable fn info.loc i) :
    ThrowsAt Stop.Elsewhere (execInst env) l := by
  cases hinfo : l.info with
  | nil => exact .of_error (bind_of_error (ymdCalled_of_nil hinfo)) (elsewhere_assertion _)
  | cons info chain =>
      rw [execInst, ThrowsAt, bind_of_ok (ymdCalled_of_cons hinfo)]
      refine ThrowsAt.bind (elsewhere_funcAt info.run l) fun fn l' hfn => ?_
      obtain ⟨hfn, rfl⟩ := funcAt_ok_iff.1 hfn
      refine ThrowsAt.bind (elsewhere_coreOf fn l') fun core l'' hat => ?_
      obtain ⟨hcore, rfl⟩ := coreOf_ok_iff.1 hat
      have hcurrent := inst_eq_some hinfo hfn hcore
      cases hinst : core.inst[info.pc]? with
      | none => exact Throws.pure _ l''
      | some inst =>
          dsimp only
          cases hop : Opcode.ofCode (asmOp inst) with
          | none => exact Throws.throw (e := Stop.fault (.assertion "0")) (elsewhere_assertion _) l''
          | some op =>
              refine elsewhere_execOp env core (Opcode.eq_code_of_ofCode hop) hfn ?_
              exact hlocal info (by rw [hinfo]; rfl) fn hfn inst (hcurrent.trans hinst)

theorem elsewhere_vmRound (hlocal : ∀ info ∈ l.info.head?, ∀ fn,
    l.heap.obj info.run = some (.func fn) → ∀ inst ∈ l.inst, ∀ i,
      localOperand inst = some i → Reachable fn info.loc i)
    (hcall : ∀ c, callOf env l .exec = some c → l.Holds c) :
    ThrowsAt Stop.Elsewhere (vmRound env) l := by
  refine (elsewhere_execInst env hlocal).bind fun ahead l' hexec => ?_
  cases ahead with
  | next => exact Throws.modify _ l'
  | jump pc => exact Throws.modify _ l'
  | ret rv => exact elsewhere_leave rv l'
  | call c =>
      obtain ⟨rfl, -⟩ := execInst_call env hexec
      have hmade : callOf env l' .exec = some c := by rw [callOf, hexec]
      exact (hcall c hmade).enter

end

theorem elsewhere_prim (p : Prim) : Elsewhere p.run := by
  cases p with
  | push v => exact elsewhere_ymdPush v
  | pop n => exact elsewhere_ymdPop n
  | setTop i v => exact elsewhere_setTop i v
  | gcNew obj _ => exact (elsewhere_gcNew obj).bind fun _ => .pure ()
  | storeObj o obj _ =>
      exact Throws.get.bind fun _ => .ite (elsewhere_storeObj o obj) (.throw elsewhere_badCast)
  | nafn proto nbind => exact (elsewhere_gcNew _).bind fun _ => .pure ()
  | bind o i v =>
      exact (elsewhere_funcAt o).bind fun fn =>
        (elsewhere_check (elsewhere_funcBind fn i v)).bind fun _ => elsewhere_storeObj o _
  | compile depth name code => exact elsewhere_compileInto depth name code

theorem settle_elsewhere {α : Type} {x : VmM α} {l : Ctx} (hx : ThrowsAt Stop.Elsewhere x l) :
    settle (x l) ≠ .crashed (.bounds "l->loc") := by
  cases hrun : x l with
  | ok a l' => nofun
  | error stop l' =>
      cases stop with
      | panic msg =>
          unfold settle
          dsimp only
          split <;> simp
      | fault f =>
          intro h
          exact hx _ l' hrun (Mach.crashed.inj h)

section

variable (env : Env) {l : Ctx} {a : Act}

/-- The slots of a call are those that its step touches. -/
theorem holds_of_touches {c : Call} (hcall : callOf env l a = some c)
    (hroom : a.HasRoom env l) (htouches : ∀ j, a.Touches env l j → j < maxLocal) : l.Holds c where
  caller := by
    intro hkont info hinfo fn hfn
    have hplaced := hroom c hcall
    rw [if_neg hkont] at hplaced
    exact (hplaced info hinfo fn (mem_toOption_func.2 hfn)).1
  cleared := fun _ _ j hplace hge hlt => htouches j (.clears hcall hplace hge hlt)
  copied := fun _ _ _ _ j hplace hfn hcore hge hj =>
    htouches j (.copies hcall hplace hfn hcore hge hj)

/-- A step does not fault in the local area when the slots that it touches lie in it. -/
theorem after_elsewhere (hroom : a.HasRoom env l)
    (htouches : ∀ j, a.Touches env l j → j < maxLocal) :
    after env l a ≠ .crashed (.bounds "l->loc") := by
  have hcalls : ∀ c, callOf env l a = some c → l.Holds c :=
    fun c hcall => holds_of_touches env hcall hroom htouches
  -- only instructions and calls come to the local area
  cases a with
  | exec =>
      refine settle_elsewhere (elsewhere_vmRound env ?_ hcalls)
      intro info hinfo fn hfn inst hinst i hi hge
      exact htouches _ (.operand rfl hinfo hfn hinst hi hge rfl)
  | prim p => exact settle_elsewhere (elsewhere_prim p l)
  | call kont fn argc => exact settle_elsewhere (hcalls _ rfl).enter
  | ret rv => exact settle_elsewhere (elsewhere_leave rv l)
  | panic msg =>
      exact settle_elsewhere (x := (throw (.panic msg) : VmM Unit)) (Throws.throw (elsewhere_panic msg) l)
  | error =>
      change ymdError l ≠ _
      unfold ymdError
      cases l.jpt with
      | nil => simp
      | cons jpt rest =>
          dsimp only
          cases hfinal : finalArgv l with
          | ok u l' => nofun
          | error stop l' =>
              have hstop := elsewhere_finalArgv l stop l' hfinal
              exact settle_elsewhere (x := (throw stop : VmM Unit)) (Throws.throw hstop l')
  | exit =>
      change libxExit l ≠ _
      unfold libxExit
      split <;> simp

/-- A step with room never faults with an index that the local area does not have. -/
theorem never_outside {l₀ : Ctx} (hinit : l₀.Initial)
    (hrun : Runs (Step env) (Mach.Guarded fun l a => a.HasRoom env l) (.run l₀) (.run l))
    (hroom : a.HasRoom env l) : after env l a ≠ .crashed (.bounds "l->loc") :=
  after_elsewhere env hroom fun _ htouches =>
    htouches.lt_maxLocal (sound_of_runs hinit hrun).1 (within_of_runs hinit hrun) hroom

end

end Ymd
