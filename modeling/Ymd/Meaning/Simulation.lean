import Ymd.Foundation.Realisation
import Ymd.Machine.Execution
import Ymd.Machine.Stackless
import Ymd.Machine.Steps
import Ymd.Meaning.Code

/-! # Code carries out what it means

The machine in a frame, between two instructions of the same function: what it does
up to a later instruction, as a computation that knows no stack and no code.
-/

namespace Ymd

open Foundation

/-- The machine is in front of the instruction `pc` of the frame, with these operands. -/
def Located (info : CallInfo) (chain : List CallInfo) (pc : Nat) (stk : List Variable) (l : Ctx)
    (m : Mach) : Prop :=
  m = .run (l.onto ({ info with pc := pc } :: chain) stk)

/-- The instruction the machine is in front of stops with the error; what it leaves on
the operand stack does not matter. -/
def StopsWith (env : Env) (info : CallInfo) (chain : List CallInfo) (e : Stop) (l : Ctx) (m : Mach) :
    Prop :=
  ∃ pc stk stk' l₀, Located info chain pc stk l₀ m ∧
    execInst env (l₀.onto ({ info with pc := pc } :: chain) stk) =
      .error e (l.onto ({ info with pc := pc } :: chain) stk')

/-- The function of the frame is the one with this code. -/
def Ctx.Installed (core : Chunk) (info : CallInfo) (l : Ctx) : Prop :=
  ∃ fn, l.heap.obj info.run = some (.func fn) ∧ fn.core = some core

/-- From the instruction `i` with the operands `ops`, the code carries out the computation
and gets to where the result says, with the operands it says, if there is room for `n`
more than there were. -/
def Carries {α : Type} (env : Env) (core : Chunk) (info : CallInfo) (chain : List CallInfo) (i : Nat)
    (ops : List Variable) (n : Nat) (x : VmM α) (j : α → Nat) (res : α → List Variable) : Prop :=
  ∀ stk, stk.length + n ≤ maxStack →
    Realises (Step env) (fun _ a => a = .exec) (StopsWith env info chain) (Ctx.Installed core info)
      (Located info chain i (ops ++ stk)) x fun a => Located info chain (j a) (res a ++ stk)

section

variable {env : Env} {core : Chunk} {info : CallInfo} {chain : List CallInfo} {α β : Type} {i : Nat}
  {ops : List Variable} {n n' : Nat} {x : VmM α} {f : α → VmM β} {k : Nat} {j : α → Nat} {j' : β → Nat}
  {res : α → List Variable} {res' : β → List Variable} {l l' : Ctx}

theorem Carries.mono (hle : n ≤ n') (h : Carries env core info chain i ops n x j res) :
    Carries env core info chain i ops n' x j res :=
  fun stk hroom => h stk (by omega)

theorem Carries.bind_of {post : α → Prop} (hpost : Gives post x)
    (hx : Carries env core info chain i ops n x j res)
    (hf : ∀ a, post a → Carries env core info chain (j a) (res a) n' (f a) j' res') :
    Carries env core info chain i ops (max n n') (x >>= f) j' res' := by
  intro stk hroom
  refine (hx stk (by omega)).bind_of fun l a l' hrun => ?_
  exact hf a (hpost l a l' hrun) stk (by omega)

theorem Carries.bind (hx : Carries env core info chain i ops n x j res)
    (hf : ∀ a, Carries env core info chain (j a) (res a) n' (f a) j' res') :
    Carries env core info chain i ops (max n n') (x >>= f) j' res' :=
  fun stk hroom => (hx stk (by omega)).bind fun a => hf a stk (by omega)

/-- Operands below the ones of the code stay where they are. -/
theorem Carries.frame (more : List Variable) (h : Carries env core info chain i ops n x j res) :
    Carries env core info chain i (ops ++ more) (n + more.length) x j fun a => res a ++ more := by
  intro stk hroom
  have hmore := h (more ++ stk) (by rw [List.length_append]; omega)
  simp only [List.append_assoc]
  exact hmore

theorem Carries.pure {b : β} (hrun : ∀ (l : Ctx) (stk : List Variable), l.Installed core info → stk.length + n ≤ maxStack →
      Runs (Step env) (fun _ a => a = .exec)
        (.run (l.onto ({ info with pc := i } :: chain) (ops ++ stk)))
        (.run (l.onto ({ info with pc := j' b } :: chain) (res' b ++ stk)))) :
    Carries env core info chain i ops n (pure b) j' res' := by
  intro stk hroom
  refine Realises.pure fun l m hl hm => ⟨_, ?_, rfl⟩
  rw [show m = _ from hm]
  exact hrun l stk hl hroom

/-- The machine goes on to another instruction first. -/
theorem Carries.after {i' : Nat} {ops' : List Variable}
    (hrun : ∀ (l : Ctx) (stk : List Variable), l.Installed core info → stk.length + n ≤ maxStack →
      Runs (Step env) (fun _ a => a = .exec)
        (.run (l.onto ({ info with pc := i' } :: chain) (ops' ++ stk)))
        (.run (l.onto ({ info with pc := i } :: chain) (ops ++ stk))))
    (h : Carries env core info chain i ops n x j res) :
    Carries env core info chain i' ops' n x j res := by
  intro stk hroom
  refine Realises.after (fun l m hl hm => ?_) (h stk hroom)
  rw [show m = _ from hm]
  exact ⟨_, hrun l stk hl hroom, rfl⟩

/-! ## Single instructions -/

/-- What an instruction of the frame does. -/
theorem execInst_installed {op : Opcode} {flag : BitVec 8} {stk : List Variable}
    (hl : l.Installed core info) (hinst : core.Has i op flag k) :
    ∃ fn, fn.core = some core ∧
      execInst env (l.onto ({ info with pc := i } :: chain) stk) =
        execOp env { info with pc := i } fn core op (asmBuild op.code flag (BitVec.ofNat 16 k))
          (l.onto ({ info with pc := i } :: chain) stk) := by
  obtain ⟨fn, hfn, hcore⟩ := hl
  exact ⟨fn, hcore, @execInst_of_inst env _ { info with pc := i } chain fn core _ op rfl hfn hcore
    hinst.inst (asmOp_build _ _ _)⟩

theorem Chunk.Has.param {op : Opcode} {flag : BitVec 8} (h : core.Has i op flag k) :
    (asmParam (asmBuild op.code flag (BitVec.ofNat 16 k))).toNat = k := by
  rw [asmParam_build, BitVec.toNat_ofNat]
  exact Nat.mod_eq_of_lt h.fits

theorem step_next {stk stk' : List Variable} (hl : l.Installed core info)
    (hexec : execInst env (l.onto ({ info with pc := i } :: chain) stk) =
      .ok .next (l'.onto ({ info with pc := i } :: chain) stk')) :
    Runs (Step env) (fun _ a => a = .exec) (.run (l.onto ({ info with pc := i } :: chain) stk))
      (.run (l'.onto ({ info with pc := i + 1 } :: chain) stk')) := by
  obtain ⟨fn, hfn, hcore⟩ := hl
  refine Runs.single rfl ⟨_, rfl, enabled_exec rfl hfn hcore, ?_⟩
  change _ = settle (vmRound env _)
  rw [vmRound, bind_of_ok hexec]
  rfl

theorem step_jump {stk stk' : List Variable} {pc : Nat} (hl : l.Installed core info)
    (hexec : execInst env (l.onto ({ info with pc := i } :: chain) stk) =
      .ok (.jump pc) (l'.onto ({ info with pc := i } :: chain) stk')) :
    Runs (Step env) (fun _ a => a = .exec) (.run (l.onto ({ info with pc := i } :: chain) stk))
      (.run (l'.onto ({ info with pc := pc } :: chain) stk')) := by
  obtain ⟨fn, hfn, hcore⟩ := hl
  refine Runs.single rfl ⟨_, rfl, enabled_exec rfl hfn hcore, ?_⟩
  change _ = settle (vmRound env _)
  rw [vmRound, bind_of_ok hexec]
  rfl

/-- What an instruction computes, on the stack and apart from it. -/
def Reflects (infos : List CallInfo) (stk : List Variable) (res : α → List Variable)
    (y : EStateM.Result Stop Ctx Next) : EStateM.Result Stop Ctx α → Prop
  | .ok a l => y = .ok .next (l.onto infos (res a ++ stk))
  | .error e l => ∃ stk', y = .error e (l.onto infos stk')

/-- An instruction that goes on to the next one. -/
theorem Carries.inst {op : Opcode} {flag : BitVec 8} (hinst : core.Has i op flag k)
    (hkeeps : ∀ (l : Ctx) a (l' : Ctx), l.Installed core info → x l = .ok a l' → l'.Installed core info)
    (hexec : ∀ (l : Ctx) (stk : List Variable) fn, stk.length + n ≤ maxStack →
      Reflects ({ info with pc := i } :: chain) stk res
        (execOp env { info with pc := i } fn core op (asmBuild op.code flag (BitVec.ofNat 16 k))
          (l.onto ({ info with pc := i } :: chain) (ops ++ stk))) (x l)) :
    Carries env core info chain i ops n x (fun _ => i + 1) res := by
  intro stk hroom l m hl hm
  rw [show m = _ from hm]
  obtain ⟨fn, -, heq⟩ := @execInst_installed env core info chain i k l op flag (ops ++ stk) hl hinst
  have hmirrors := hexec l stk fn hroom
  rw [← heq] at hmirrors
  cases hx : x l with
  | ok a l' =>
      rw [hx] at hmirrors
      exact ⟨hkeeps l a l' hl hx, _, step_next hl hmirrors, rfl⟩
  | error e l' =>
      rw [hx] at hmirrors
      obtain ⟨stk', hstop⟩ := hmirrors
      exact ⟨_, .refl, i, ops ++ stk, stk', l, rfl, hstop⟩

/-- A computation that leaves every function its code. -/
abbrev Tame (x : VmM α) : Prop := Does (fun _ => True) (fun _ => True) (fun _ => True) x

/-- The function of the frame stays installed. -/
theorem Tame.installed (hx : Tame x) :
    ∀ (l : Ctx) a (l' : Ctx), l.Installed core info → x l = .ok a l' → l'.Installed core info := by
  intro l a l' ⟨fn, hfn, hcore⟩ h
  have heffect := hx l
  rw [h] at heffect
  obtain ⟨fn', hfn', hcore', -⟩ := heffect.heap.func _ _ hfn
  exact ⟨fn', hfn', hcore'.trans hcore⟩

/-- The part of an instruction apart from the stack comes first. -/
theorem Stackless.mirrors_bind {infos : List CallInfo} {stk stk₀ : List Variable} {g : α → VmM Next}
    (hx : Stackless x)
    (hg : ∀ a l', x l = .ok a l' → Reflects infos stk res' (g a (l'.onto infos stk₀)) (f a l')) :
    Reflects infos stk res' ((x >>= g) (l.onto infos stk₀)) ((x >>= f) l) := by
  have hsame := hx l infos stk₀
  cases hxl : x l with
  | ok a l' =>
      rw [hxl] at hsame
      rw [bind_of_ok hsame, bind_of_ok hxl]
      exact hg a l' hxl
  | error e l' =>
      rw [hxl] at hsame
      rw [bind_of_error hsame, bind_of_error hxl]
      exact ⟨stk₀, rfl⟩

theorem Stackless.mirrors {infos : List CallInfo} {stk stk₀ : List Variable} {g : α → VmM Next}
    (hx : Stackless x)
    (hg : ∀ a l', x l = .ok a l' → g a (l'.onto infos stk₀) = .ok .next (l'.onto infos (res a ++ stk))) :
    Reflects infos stk res ((x >>= g) (l.onto infos stk₀)) (x l) := by
  have hmirrors : Reflects infos stk res ((x >>= g) (l.onto infos stk₀)) ((x >>= Pure.pure) l) :=
    hx.mirrors_bind hg
  rwa [bind_pure] at hmirrors

theorem ymdPush_onto {infos : List CallInfo} {stk : List Variable} (v : Variable)
    (hroom : stk.length + 1 ≤ maxStack) :
    ymdPush v (l.onto infos stk) = .ok () (l.onto infos (v :: stk)) :=
  ymdPush_of_lt hroom

theorem ymdPop_onto {infos : List CallInfo} {front stk : List Variable} (hn : front.length = n) :
    ymdPop n (l.onto infos (front ++ stk)) = .ok () (l.onto infos stk) := by
  have hle : n ≤ (l.onto infos (front ++ stk)).stk.length := by
    rw [Ctx.onto_stk, List.length_append, hn]
    exact Nat.le_add_right _ _
  rw [ymdPop_of_le hle, Ctx.onto_stk, ← hn, List.drop_left]
  rfl

theorem carries_push {x : VmM Variable} {flag : BitVec 8} (hinst : core.Has i .push flag k)
    (hx : pushed env info core flag k = x) (hpart : Stackless x) :
    Carries env core info chain i [] 1 x (fun _ => i + 1) fun v => [v] := by
  have hdoes : Tame x := by
    rw [← hx]
    exact does_pushed env info core flag k
  refine .inst hinst hdoes.installed fun l stk fn hroom => ?_
  change Reflects _ stk _ ((pushed env info core (asmFlag _) (asmParam _).toNat >>= fun v =>
    ymdPush v >>= fun _ => (return Next.next : VmM Next)) _) _
  rw [asmFlag_build, hinst.param, hx]
  refine hpart.mirrors fun v l' _ => ?_
  rw [List.nil_append, bind_of_ok (ymdPush_onto v hroom)]
  rfl

theorem carries_unary {op : Opcode} {flag : BitVec 8} {g : Variable → VmM Variable} {v : Variable}
    (hinst : core.Has i op flag k)
    (hop : ∀ fn, execOp env { info with pc := i } fn core op (asmBuild op.code flag (BitVec.ofNat 16 k)) =
      unaryInst g >>= fun _ => return Next.next)
    (hpart : Stackless (g v)) (hdoes : Tame (g v)) :
    Carries env core info chain i [v] 0 (g v) (fun _ => i + 1) fun w => [w] := by
  refine .inst hinst hdoes.installed fun l stk fn hroom => ?_
  rw [hop fn, unaryInst, bind_assoc, bind_of_ok (ymdTop_of_getElem? rfl), bind_assoc]
  refine hpart.mirrors fun w l' _ => ?_
  rw [bind_of_ok (setTop_of_lt (Nat.succ_pos _))]
  rfl

theorem carries_binary {op : Opcode} {flag : BitVec 8} {g : Variable → Variable → VmM Variable}
    {a b : Variable} (hinst : core.Has i op flag k)
    (hop : ∀ fn, execOp env { info with pc := i } fn core op (asmBuild op.code flag (BitVec.ofNat 16 k)) =
      binaryInst g >>= fun _ => return Next.next)
    (hpart : Stackless (g a b)) (hdoes : Tame (g a b)) :
    Carries env core info chain i [b, a] 0 (g a b) (fun _ => i + 1) fun w => [w] := by
  refine .inst hinst hdoes.installed fun l stk fn hroom => ?_
  rw [hop fn, binaryInst, bind_assoc, bind_of_ok (ymdTop_of_getElem? rfl), bind_assoc,
    bind_of_ok (ymdTop_of_getElem? rfl), bind_assoc]
  refine hpart.mirrors fun w l' _ => ?_
  rw [bind_assoc, bind_of_ok (setTop_of_lt (by simp)), bind_of_ok (ymdPop_of_le (by simp))]
  rfl

theorem kvalAt_of_getElem? {v : Variable} (hk : core.kval[k]? = some v) : kvalAt core k l = .ok v l := by
  rw [kvalAt, hk]
  rfl

theorem tame_vmGet (a v : Variable) : Tame (vmGet env a v) := (readOnly_vmGet env a v).does

theorem carries_getf_fast {a v : Variable} (hinst : core.Has i .getf Flag.fast k)
    (hk : core.kval[k]? = some v) :
    Carries env core info chain i [a] 0 (vmGet env a v) (fun _ => i + 1) fun w => [w] := by
  refine .inst hinst (tame_vmGet a v).installed fun l stk fn hroom => ?_
  change Reflects _ stk _ ((instGetf env core (asmFlag _) (asmParam _).toNat >>= fun _ =>
    (return Next.next : VmM Next)) _) _
  rw [asmFlag_build, hinst.param, instGetf, if_neg (by decide), if_pos rfl, bind_assoc,
    bind_of_ok (ymdTop_of_getElem? rfl), bind_assoc, bind_of_ok (kvalAt_of_getElem? hk), bind_assoc]
  refine (stackless_vmGet a v).mirrors fun w l' _ => ?_
  rw [bind_of_ok (setTop_of_lt (Nat.succ_pos _))]
  rfl

theorem carries_getf_stack {a v : Variable} (hinst : core.Has i .getf Flag.stack 1) :
    Carries env core info chain i [v, a] 1 (vmGet env a v) (fun _ => i + 1) fun w => [w] := by
  refine .inst hinst (tame_vmGet a v).installed fun l stk fn hroom => ?_
  change Reflects _ stk _ ((instGetf env core (asmFlag _) (asmParam _).toNat >>= fun _ =>
    (return Next.next : VmM Next)) _) _
  rw [asmFlag_build, instGetf, if_pos rfl, bind_assoc, bind_of_ok (ymdTop_of_getElem? rfl), bind_assoc,
    bind_of_ok (ymdTop_of_getElem? rfl), bind_assoc]
  refine (stackless_vmGet a v).mirrors fun w l' _ => ?_
  have hpop : ymdPop 2 (l'.onto ({ info with pc := i } :: chain) ([v, a] ++ stk)) = _ :=
    ymdPop_onto rfl
  rw [bind_assoc, bind_of_ok hpop, bind_of_ok (ymdPush_onto w hroom)]
  rfl

/-! ## Variables and assignments -/

theorem stackless_globalOf (name : Bytes) : Stackless (globalOf env name) :=
  .get (fun _ _ _ => rfl) fun _ => stackless_hmapGet _ _

theorem vmIgetg_eq {name : Bytes} (hk : core.kval[k]? = some (.kstr (Chunk.kstrFetch name (-1)))) :
    vmIgetg env core k = globalOf env name := by
  change (MonadState.get >>= fun l => doKeyz core k >>= fun z => hmapGet env l.global z) = _
  rw [doKeyz, hk]
  rfl

theorem carries_variable {look : Bytes → Option Nat} {name : Bytes} {i' : Nat}
    (h : CodeShape.variable' .push name core look i i') :
    Carries env core info chain i [] 1 (valueOf env info look name) (fun _ => i') fun v => [v] := by
  rcases h with ⟨k, hk, hinst, rfl⟩ | ⟨hnone, k, hinst, hk, rfl⟩
  · have heq : valueOf env info look name = loadLocal info k := by
      unfold valueOf
      rw [hk]
    rw [heq]
    exact carries_push hinst rfl (stackless_loadLocal info k)
  · have heq : valueOf env info look name = globalOf env name := by
      unfold valueOf
      rw [hnone]
    rw [heq]
    exact carries_push hinst (vmIgetg_eq hk) (stackless_globalOf name)

/-- What a left side stands for, on the stack. -/
def Place.operands : Place → List Variable
  | .name _ => []
  | .field obj _ => [obj]
  | .index obj key => [key, obj]

/-- The kind of the left side. -/
def Place.Of : Place → Tree .lval → Prop
  | .name z, .lsym z' => z = z'
  | .field _ z, .lfield _ z' => z = z'
  | .index _ _, .lindex _ _ => True
  | _, _ => False

theorem Place.length_operands {place : Place} {lv : Tree .lval} (h : place.Of lv) :
    place.operands.length = lv.waiting := by
  cases place with
  | name z =>
      cases lv with
      | lsym z' => rfl
      | _ => cases h
  | field obj z =>
      cases lv with
      | lfield lv z' => rfl
      | _ => cases h
  | index obj key =>
      cases lv with
      | lindex lv key' => rfl
      | _ => cases h

theorem carries_reads {look : Bytes → Option Nat} {place : Place} {lv : Tree .lval} {i' : Nat}
    (hplace : place.Of lv) (h : lv.reads core look i i') :
    Carries env core info chain i place.operands 1 (place.read env info look) (fun _ => i') fun v => [v] := by
  cases place with
  | name z =>
      cases lv with
      | lsym z' =>
          obtain rfl : z = z' := hplace
          exact carries_variable h
      | _ => cases hplace
  | field obj z =>
      cases lv with
      | lfield lv z' =>
          obtain rfl : z = z' := hplace
          obtain ⟨k, hinst, hk, rfl⟩ := h
          exact (carries_getf_fast hinst hk).mono (Nat.zero_le _)
      | _ => cases hplace
  | index obj key =>
      cases lv with
      | lindex lv key' =>
          obtain ⟨hinst, rfl⟩ := h
          exact carries_getf_stack hinst
      | _ => cases hplace

theorem stackless_putGlobal (name : Bytes) (v : Variable) : Stackless (putGlobal env name v) :=
  .get (fun _ _ _ => rfl) fun _ => .bind (stackless_hmapPut _ _) fun _ => stackless_storeObj _ _

theorem vmIputg_eq {name : Bytes} (hk : core.kval[k]? = some (.kstr (Chunk.kstrFetch name (-1))))
    (v : Variable) : vmIputg env core k v = putGlobal env name v := by
  change (MonadState.get >>= fun l => doKeyz core k >>= fun z => hmapPut env l.global z >>= fun x =>
    storeObj l.global (.hmap (x.store v))) = _
  rw [doKeyz, hk]
  rfl

theorem tame_storeLocal (k : Nat) (v : Variable) : Tame (storeLocal info k v) := by
  intro l
  cases hfunc : l.heap.func info.run with
  | error f =>
      rw [storeLocal, bind_of_error (funcAt_of_error hfunc)]
      exact .refl l
  | ok fn => exact effect_storeLocal v (Heap.func_eq_ok.1 hfunc) trivial fun _ _ => trivial

theorem carries_store {flag : BitVec 8} {v : Variable} {y : Variable → VmM Unit}
    (hinst : core.Has i .store flag k) (hy : stored env info core flag k = ymdTop 0 >>= y)
    (hpart : Stackless (y v)) (htame : Tame (y v)) :
    Carries env core info chain i [v] 0 (y v) (fun _ => i + 1) fun _ => [] := by
  refine .inst hinst htame.installed fun l stk fn hroom => ?_
  change Reflects _ stk _ ((stored env info core (asmFlag _) (asmParam _).toNat >>= fun _ =>
    ymdPop 1 >>= fun _ => (return Next.next : VmM Next)) _) _
  rw [asmFlag_build, hinst.param, hy, bind_assoc, bind_of_ok (ymdTop_of_getElem? rfl)]
  refine hpart.mirrors fun _ l' _ => ?_
  have hpop : ymdPop 1 (l'.onto ({ info with pc := i } :: chain) ([v] ++ stk)) = _ := ymdPop_onto rfl
  rw [bind_of_ok hpop]
  rfl

theorem tame_vmIput (obj key v : Variable) : Tame (vmIput env obj key v) :=
  does_vmIput env key v fun _ _ => trivial

theorem carries_setf_fast {obj key v : Variable} (hinst : core.Has i .setf Flag.fast k)
    (hk : core.kval[k]? = some key) :
    Carries env core info chain i [v, obj] 0 (vmIput env obj key v) (fun _ => i + 1) fun _ => [] := by
  refine .inst hinst (tame_vmIput obj key v).installed fun l stk fn hroom => ?_
  change Reflects _ stk _ ((instSetf env core (asmFlag _) (asmParam _).toNat >>= fun _ =>
    (return Next.next : VmM Next)) _) _
  rw [asmFlag_build, hinst.param, instSetf, if_neg (by decide), if_pos rfl, bind_assoc,
    bind_of_ok (ymdTop_of_getElem? rfl), bind_assoc, bind_of_ok (kvalAt_of_getElem? hk), bind_assoc,
    bind_of_ok (ymdTop_of_getElem? rfl), bind_assoc]
  refine (stackless_vmIput obj key v).mirrors fun _ l' _ => ?_
  have hpop : ymdPop 2 (l'.onto ({ info with pc := i } :: chain) ([v, obj] ++ stk)) = _ := ymdPop_onto rfl
  rw [bind_of_ok hpop]
  rfl

theorem carries_setf_stack {obj key v : Variable} (hinst : core.Has i .setf Flag.stack 1) :
    Carries env core info chain i [v, key, obj] 0 (vmIput env obj key v) (fun _ => i + 1) fun _ => [] := by
  refine .inst hinst (tame_vmIput obj key v).installed fun l stk fn hroom => ?_
  change Reflects _ stk _ ((instSetf env core (asmFlag _) (asmParam _).toNat >>= fun _ =>
    (return Next.next : VmM Next)) _) _
  rw [asmFlag_build, hinst.param, instSetf, if_pos rfl, bind_assoc, bind_of_ok (ymdTop_of_getElem? rfl),
    setPairs, bind_assoc, bind_assoc, bind_of_ok (ymdTop_of_getElem? rfl), bind_assoc,
    bind_of_ok (ymdTop_of_getElem? rfl), bind_assoc]
  refine (stackless_vmIput obj key v).mirrors fun _ l' _ => ?_
  have hpop : ymdPop (2 * 1 + 1) (l'.onto ({ info with pc := i } :: chain) ([v, key, obj] ++ stk)) = _ :=
    ymdPop_onto rfl
  rw [setPairs, pure_bind, bind_of_ok hpop]
  rfl

theorem carries_writes {look : Bytes → Option Nat} {place : Place} {lv : Tree .lval} {v : Variable} {i' : Nat}
    (hplace : place.Of lv) (h : lv.writes core look i i') :
    Carries env core info chain i (v :: place.operands) 0 (place.write env info look v) (fun _ => i')
      fun _ => [] := by
  cases place with
  | name z =>
      cases lv with
      | lsym z' =>
          obtain rfl : z = z' := hplace
          rcases h with ⟨k, hk, hinst, rfl⟩ | ⟨hnone, k, hinst, hk, rfl⟩
          · have heq : (Place.name z).write env info look v = storeLocal info k v := by
              change assignTo env info look z v = _
              unfold assignTo
              rw [hk]
            rw [heq]
            exact carries_store hinst rfl (stackless_storeLocal info k v) (tame_storeLocal k v)
          · have heq : (Place.name z).write env info look v = vmIputg env core k v := by
              change assignTo env info look z v = _
              unfold assignTo
              rw [hnone, vmIputg_eq hk]
            rw [heq]
            refine carries_store hinst rfl ?_ ?_
            · rw [vmIputg_eq hk]
              exact stackless_putGlobal z v
            · exact does_vmIputg env core k v
      | _ => cases hplace
  | field obj z =>
      cases lv with
      | lfield lv z' =>
          obtain rfl : z = z' := hplace
          obtain ⟨k, hinst, hk, rfl⟩ := h
          exact carries_setf_fast hinst hk
      | _ => cases hplace
  | index obj key =>
      cases lv with
      | lindex lv key' =>
          obtain ⟨hinst, rfl⟩ := h
          exact carries_setf_stack hinst
      | _ => cases hplace

/-! ## Literals of arrays and maps -/

/-- The same computation in front of another one. -/
theorem bind_eq_of_eq {x y : VmM α} (h : x l = y l) : (x >>= f) l = (y >>= f) l := by
  cases hy : y l with
  | ok a l' => rw [bind_of_ok hy, bind_of_ok (h.trans hy)]
  | error e l' => rw [bind_of_error hy, bind_of_error (h.trans hy)]

/-- The same computation behind one that leaves the stack alone. -/
theorem Stackless.bind_congr {g : α → VmM β} (hx : Stackless x)
    (h : ∀ a l', l'.stk = l.stk → f a l' = g a l') : (x >>= f) l = (x >>= g) l := by
  cases hxl : x l with
  | ok a l' =>
      rw [bind_of_ok hxl, bind_of_ok hxl]
      exact h a l' (hx.kept hxl).2
  | error e l' => rw [bind_of_error hxl, bind_of_error hxl]

/-- The elements of an array are on the stack, the last one on top. -/
theorem dyaElems_eq {vs rest : List Variable} (hstk : l.stk = vs.reverse ++ rest) :
    dyaElems vs.length l = (checkValues vs >>= fun _ => Pure.pure vs) l := by
  induction vs generalizing rest l with
  | nil => rfl
  | cons v vs ih =>
      have hrest : l.stk = vs.reverse ++ (v :: rest) := by
        rw [hstk, List.reverse_cons, List.append_assoc]
        rfl
      have htop : l.stk[vs.length]? = some v := by
        rw [hrest, ← List.length_reverse, List.getElem?_append_right le_rfl, Nat.sub_self]
        rfl
      rw [List.length_cons, dyaElems, bind_of_ok (ymdTop_of_getElem? htop), checkValues, bind_assoc]
      refine (stackless_checkValue v).bind_congr fun _ l' hkept => ?_
      rw [bind_eq_of_eq (ih (hkept.trans hrest)), bind_assoc]
      rfl

theorem stackless_checkValues (vs : List Variable) : Stackless (checkValues vs) := by
  induction vs with
  | nil => exact .pure _
  | cons v vs ih => exact .bind (stackless_checkValue v) fun _ => ih

theorem tame_newDyay (vs : List Variable) : Tame (newDyay vs) := by
  have hchecks : Tame (checkValues vs) := by
    induction vs with
    | nil => exact Does.pure _
    | cons v vs ih => exact Does.bind (does_checkValue v) fun _ => ih
  exact Does.bind hchecks fun _ => Does.bind (does_gcNew_data rfl) fun _ => Does.pure _

theorem carries_newdya {vs : List Variable} (hinst : core.Has i .newdya 0 vs.length) :
    Carries env core info chain i vs.reverse 1 (newDyay vs) (fun _ => i + 1) fun w => [w] := by
  refine .inst hinst (tame_newDyay vs).installed fun l stk fn hroom => ?_
  change Reflects _ stk _ ((dyaElems (asmParam _).toNat >>= fun elem => ymdPop (asmParam _).toNat >>=
    fun _ => gcNew (.dyay elem) >>= fun o => ymdPush (.dyay o) >>= fun _ =>
      (return Next.next : VmM Next)) _) _
  rw [hinst.param, bind_eq_of_eq (dyaElems_eq (Ctx.onto_stk _ _ _)), bind_assoc]
  refine (stackless_checkValues vs).mirrors_bind fun _ l' _ => ?_
  rw [pure_bind, bind_of_ok (ymdPop_onto List.length_reverse)]
  refine (stackless_gcNew _).mirrors_bind fun o l'' _ => ?_
  rw [bind_of_ok (ymdPush_onto (.dyay o) hroom)]
  rfl

/-- Pairs on the stack, the values on top of their keys. -/
def operandsOf (pairs : List (Variable × Variable)) : List Variable :=
  pairs.flatMap fun p => [p.2, p.1]

theorem length_operandsOf (pairs : List (Variable × Variable)) :
    (operandsOf pairs).length = 2 * pairs.length := by
  induction pairs with
  | nil => rfl
  | cons p pairs ih =>
      rw [operandsOf, List.flatMap_cons, List.length_append, ← operandsOf, ih]
      simp only [List.length_cons, List.length_nil]
      omega

/-- A pair behind the ones that are done. -/
theorem getElem?_operandsOf {front rest stk : List Variable} {p : Variable × Variable}
    {pairs : List (Variable × Variable)}
    (hstk : stk = front ++ (operandsOf (p :: pairs) ++ rest)) :
    stk[front.length + 1]? = some p.1 ∧ stk[front.length]? = some p.2 := by
  rw [hstk]
  exact ⟨by simp [operandsOf], by simp [operandsOf]⟩

theorem mapPairs_eq {front rest : List Variable} {pairs : List (Variable × Variable)} {param : Nat}
    {map : Hmap} (hparam : pairs.length ≤ param) (hfront : front.length = 2 * (param - pairs.length))
    (hstk : l.stk = front ++ (operandsOf pairs ++ rest)) :
    mapPairs env param pairs.length map l = putPairs env pairs map l := by
  induction pairs generalizing front l map with
  | nil => rfl
  | cons p pairs ih =>
      obtain ⟨hkey, hvalue⟩ := getElem?_operandsOf hstk
      rw [hfront, List.length_cons] at hkey hvalue
      rw [List.length_cons, mapPairs, putPairs]
      rw [bind_of_ok (ymdTop_of_getElem? hkey), bind_of_ok (ymdTop_of_getElem? hvalue)]
      refine (stackless_checkPair p.1 p.2).bind_congr fun _ l₁ hkept₁ => ?_
      refine stackless_keyOps.bind_congr fun ops l₂ hkept₂ => ?_
      refine (stackless_check _).bind_congr fun x l₃ hkept₃ => ?_
      have hnext : l₃.stk = (front ++ [p.2, p.1]) ++ (operandsOf pairs ++ rest) := by
        rw [hkept₃, hkept₂, hkept₁, hstk, List.append_assoc]
        rfl
      have hlen : (front ++ [p.2, p.1]).length = 2 * (param - pairs.length) := by
        rw [List.length_append, hfront]
        rw [List.length_cons] at hparam ⊢
        change _ + 2 = _
        omega
      exact ih (Nat.le_of_succ_le hparam) hlen hnext

theorem sklPairs_eq {front rest : List Variable} {pairs : List (Variable × Variable)} {param : Nat}
    {list : Skls} (hparam : pairs.length ≤ param) (hfront : front.length = 2 * (param - pairs.length))
    (hstk : l.stk = front ++ (operandsOf pairs ++ rest)) :
    sklPairs env param pairs.length list l = putSorted env pairs list l := by
  induction pairs generalizing front l list with
  | nil => rfl
  | cons p pairs ih =>
      obtain ⟨hkey, hvalue⟩ := getElem?_operandsOf hstk
      rw [hfront, List.length_cons] at hkey hvalue
      rw [List.length_cons, sklPairs, putSorted]
      rw [bind_of_ok (ymdTop_of_getElem? hkey), bind_of_ok (ymdTop_of_getElem? hvalue)]
      refine (stackless_checkPair p.1 p.2).bind_congr fun _ l₁ hkept₁ => ?_
      refine stackless_keyOps.bind_congr fun ops l₂ hkept₂ => ?_
      refine stackless_randlv.bind_congr fun level l₃ hkept₃ => ?_
      refine (stackless_check _).bind_congr fun x l₄ hkept₄ => ?_
      have hnext : l₄.stk = (front ++ [p.2, p.1]) ++ (operandsOf pairs ++ rest) := by
        rw [hkept₄, hkept₃, hkept₂, hkept₁, hstk, List.append_assoc]
        rfl
      have hlen : (front ++ [p.2, p.1]).length = 2 * (param - pairs.length) := by
        rw [List.length_append, hfront]
        rw [List.length_cons] at hparam ⊢
        change _ + 2 = _
        omega
      exact ih (Nat.le_of_succ_le hparam) hlen hnext

theorem stackless_putPairs (pairs : List (Variable × Variable)) (map : Hmap) :
    Stackless (putPairs env pairs map) := by
  induction pairs generalizing map with
  | nil => exact .pure _
  | cons p pairs ih =>
      exact .bind (stackless_checkPair p.1 p.2) fun _ => .bind stackless_keyOps fun _ =>
        .bind (stackless_check _) fun x => ih (x.store p.2)

theorem stackless_putSorted (pairs : List (Variable × Variable)) (list : Skls) :
    Stackless (putSorted env pairs list) := by
  induction pairs generalizing list with
  | nil => exact .pure _
  | cons p pairs ih =>
      exact .bind (stackless_checkPair p.1 p.2) fun _ => .bind stackless_keyOps fun _ =>
        .bind stackless_randlv fun _ => .bind (stackless_check _) fun x => ih (Skls.store x p.2)

theorem tame_putPairs (pairs : List (Variable × Variable)) (map : Hmap) :
    Tame (putPairs env pairs map) := by
  induction pairs generalizing map with
  | nil => exact Does.pure _
  | cons p pairs ih =>
      exact Does.bind (does_checkPair p.1 p.2) fun _ => Does.bind (does_keyOps env) fun _ =>
        Does.bind (Does.check _) fun x => ih (x.store p.2)

theorem tame_putSorted (pairs : List (Variable × Variable)) (list : Skls) :
    Tame (putSorted env pairs list) := by
  induction pairs generalizing list with
  | nil => exact Does.pure _
  | cons p pairs ih =>
      exact Does.bind (does_checkPair p.1 p.2) fun _ => Does.bind (does_keyOps env) fun _ =>
        Does.bind does_randlv fun _ => Does.bind (Does.check _) fun x => ih (Skls.store x p.2)

theorem tame_newPairs (ord : Bool) (pairs : List (Variable × Variable)) :
    Tame (newPairs env ord pairs) := by
  refine Does.ite ?_ ?_
  · refine Does.bind (tame_putSorted _ _) fun list => ?_
    exact Does.bind (does_gcNew_data rfl) fun _ => Does.pure _
  · refine Does.bind (Does.check _) fun map => Does.bind (tame_putPairs _ _) fun map' => ?_
    exact Does.bind (does_gcNew_data rfl) fun _ => Does.pure _

theorem carries_newmap {pairs : List (Variable × Variable)}
    (hinst : core.Has i .newmap 0 pairs.length) :
    Carries env core info chain i (operandsOf pairs.reverse) 1 (newPairs env false pairs)
      (fun _ => i + 1) fun w => [w] := by
  refine .inst hinst (tame_newPairs false pairs).installed fun l stk fn hroom => ?_
  change Reflects _ stk _ ((check (Hmap.new (asmParam _).toNat) >>= fun map =>
    mapPairs env (asmParam _).toNat (asmParam _).toNat map >>= fun map =>
      ymdPop (2 * (asmParam _).toNat) >>= fun _ => gcNew (.hmap map) >>= fun o =>
        ymdPush (.hmap o) >>= fun _ => (return Next.next : VmM Next)) _) _
  have hfront : ([] : List Variable).length = 2 * (pairs.reverse.length - pairs.reverse.length) := by
    rw [Nat.sub_self]
    rfl
  rw [hinst.param, newPairs, if_neg Bool.false_ne_true]
  refine (stackless_check _).mirrors_bind fun map l₁ _ => ?_
  rw [← pairs.length_reverse, bind_eq_of_eq (mapPairs_eq le_rfl hfront rfl)]
  refine (stackless_putPairs pairs.reverse map).mirrors_bind fun map l₂ _ => ?_
  rw [bind_of_ok (ymdPop_onto (length_operandsOf _))]
  refine (stackless_gcNew _).mirrors_bind fun o l₃ _ => ?_
  rw [bind_of_ok (ymdPush_onto (.hmap o) hroom)]
  rfl

theorem carries_newskl {pairs : List (Variable × Variable)}
    (hinst : core.Has i .newskl 0 pairs.length) :
    Carries env core info chain i (operandsOf pairs.reverse) 1 (newPairs env true pairs)
      (fun _ => i + 1) fun w => [w] := by
  refine .inst hinst (tame_newPairs true pairs).installed fun l stk fn hroom => ?_
  change Reflects _ stk _ ((sklPairs env (asmParam _).toNat (asmParam _).toNat .new >>= fun list =>
    ymdPop (2 * (asmParam _).toNat) >>= fun _ => gcNew (.skls list) >>= fun o =>
      ymdPush (.skls o) >>= fun _ => (return Next.next : VmM Next)) _) _
  have hfront : ([] : List Variable).length = 2 * (pairs.reverse.length - pairs.reverse.length) := by
    rw [Nat.sub_self]
    rfl
  rw [hinst.param, newPairs, if_pos rfl, ← pairs.length_reverse,
    bind_eq_of_eq (sklPairs_eq le_rfl hfront rfl)]
  refine (stackless_putSorted pairs.reverse .new).mirrors_bind fun list l₁ _ => ?_
  rw [bind_of_ok (ymdPop_onto (length_operandsOf _))]
  refine (stackless_gcNew _).mirrors_bind fun o l₂ _ => ?_
  rw [bind_of_ok (ymdPush_onto (.skls o) hroom)]
  rfl

end

end Ymd
