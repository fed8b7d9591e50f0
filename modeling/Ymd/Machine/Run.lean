import Ymd.Machine.State

/-! # The instructions of the machine

The cases of `vm_run`. An instruction works on the operand stack, the local area
and the objects; what it does to the flow of control is its result.
-/

namespace Ymd

/-- A call that is about to be made: `argc` does not count the receiver of a
method. -/
structure Call where
  fn : Addr
  argc : Nat
  method : Bool
  kont : Kont
  deriving DecidableEq

/-- How `vm_run` goes on behind an instruction. -/
inductive Next
  | next
  | jump (pc : Nat)
  | ret (rv : Int)
  | call (c : Call)
  deriving DecidableEq

/-! ## Functions -/

/-- `func_nlocal`. -/
def funcNlocal (fn : Func) : Int :=
  match fn.core with
  | none => 0
  | some core => (core.klz : Int) - fn.nBind

/-- `func_bind` on a function that is not an object yet, or on its new value. -/
def funcBind (fn : Func) (i : Nat) (var : Variable) : Except Fault Func :=
  if i < fn.nBind then
    pure { fn with bind := (if fn.bind = [] then .replicate fn.nBind .nil else fn.bind).set i var }
  else throw (.assertion "i < fn->n_bind")

/-- `func_clone`. -/
def funcClone (fn : Func) : Except Fault Func :=
  if fn.core.isSome then pure { fn with bind := [], argv := none }
  else throw (.assertion "!fn->is_c")

/-- `ymd_called`. -/
def ymdCalled : VmM CallInfo := do
  match (← get).info with
  | info :: _ => return info
  | [] => fault (.assertion "l->info")

/-- The object of a function. -/
def funcAt (o : Addr) : VmM Func := do check ((← get).heap.func o)

/-- `fn->u.core`. -/
def coreOf (fn : Func) : VmM Chunk :=
  match fn.core with
  | some core => return core
  | none => fault (.assertion "!fn->is_c")

/-! ## Local variables -/

/-- Where `vm_local` points: into the bound values of the function, or into the
local area. -/
inductive Slot
  | bind (i : Nat)
  | loc (i : Nat)
  deriving DecidableEq

/-- `vm_local` for the frame that begins at `base`. -/
def vmLocal (fn : Func) (base i : Nat) : Except Fault Slot :=
  if i < fn.nBind then
    if i < fn.bind.length then pure (.bind i) else throw (.bounds "fn->bind")
  else if base + (i - fn.nBind) < maxLocal then pure (.loc (base + (i - fn.nBind)))
  else throw (.bounds "l->loc")

/-- `l->loc[i] = v`. -/
def setLoc (i : Nat) (v : Variable) : VmM Unit :=
  if i < maxLocal then modify fun l => { l with loc := Function.update l.loc i v }
  else fault (.bounds "l->loc")

/-- A load through `vm_local`. -/
def loadLocal (info : CallInfo) (i : Nat) : VmM Variable := do
  let fn ← funcAt info.run
  match ← check (vmLocal fn info.loc i) with
  | .bind i => return fn.bind.getD i .nil
  | .loc i => return (← get).loc i

/-- A store through `vm_local`. -/
def storeLocal (info : CallInfo) (i : Nat) (v : Variable) : VmM Unit := do
  let fn ← funcAt info.run
  match ← check (vmLocal fn info.loc i) with
  | .bind i => storeObj info.run (.func { fn with bind := fn.bind.set i v })
  | .loc i => setLoc i v

/-! ## Instructions -/

/-- `IMPL_JUMP`. -/
def implJump (pc : Nat) (flag : BitVec 8) (param : Nat) : VmM Next :=
  if flag = Flag.forward then return .jump (pc + param)
  else if flag = Flag.backward then
    if param ≤ pc then return .jump (pc - param) else fault (.bounds "core->inst")
  else fault (.assertion "0")

/-- `core->kval[i]`. -/
def kvalAt (core : Chunk) (i : Nat) : VmM Variable :=
  match core.kval[i]? with
  | some v => return v
  | none => fault (.bounds "core->kval")

/-- `do_keyz`. -/
def doKeyz (core : Chunk) (i : Nat) : VmM Variable :=
  match core.kval[i]? with
  | some (.kstr z) => return .kstr z
  | some _ => fault (.assertion "core->kval[i].type == T_KSTR")
  | none => fault (.assertion "i < core->kkval")

/-- An instruction that replaces two operands by its result. -/
def binaryInst (f : Variable → Variable → VmM Variable) : VmM Unit := do
  let rhs ← ymdTop 1
  let lhs ← ymdTop 0
  setTop 1 (← f rhs lhs)
  ymdPop 1

/-- An instruction that replaces the top by its result. -/
def unaryInst (f : Variable → VmM Variable) : VmM Unit := do
  setTop 0 (← f (← ymdTop 0))

section

variable (env : Env)

/-- `vm_match`. -/
def vmMatch (lhs pattern : Bytes) : VmM Bool :=
  match env.regex lhs pattern with
  | .ok b => return b
  | .error msg => throw (.panic (lit "Regex match fatal: " ++ msg))

/-- `I_TEST`. -/
def opTest (flag : BitVec 8) (rhs lhs : Variable) : VmM Variable := do
  let ops ← keyOps env
  if flag = Flag.eq then return boolVar (← check (ops.equals rhs lhs))
  else if flag = Flag.ne then return boolVar (!(← check (ops.equals rhs lhs)))
  else if flag = Flag.gt then return boolVar (0 < (← check (ops.compare rhs lhs)))
  else if flag = Flag.ge then return boolVar (0 ≤ (← check (ops.compare rhs lhs)))
  else if flag = Flag.lt then return boolVar ((← check (ops.compare rhs lhs)) < 0)
  else if flag = Flag.le then return boolVar ((← check (ops.compare rhs lhs)) ≤ 0)
  else if flag = Flag.match' then
    return boolVar (← vmMatch env (← lift (kstrOf rhs)) (← lift (kstrOf lhs)))
  else fault (.assertion "0")

/-- `vm_igetg`. -/
def vmIgetg (core : Chunk) (i : Nat) : VmM Variable := do
  hmapGet env (← get).global (← doKeyz core i)

/-- `vm_iputg`. -/
def vmIputg (core : Chunk) (i : Nat) (v : Variable) : VmM Unit := do
  let global := (← get).global
  let x ← hmapPut env global (← doKeyz core i)
  storeObj global (.hmap (x.store v))

/-- What `I_PUSH` pushes. -/
def pushed (info : CallInfo) (core : Chunk) (flag : BitVec 8) (param : Nat) : VmM Variable :=
  if flag = Flag.kval then kvalAt core param
  else if flag = Flag.loc then loadLocal info param
  else if flag = Flag.bool then return .bool (BitVec.ofNat 64 param)
  else if flag = Flag.nil then return .nil
  else if flag = Flag.off then vmIgetg env core param
  else fault (.bounds "var")

/-- `I_STORE` up to its pop; another flag stores nothing. -/
def stored (info : CallInfo) (core : Chunk) (flag : BitVec 8) (param : Nat) : VmM Unit := do
  if flag = Flag.loc then storeLocal info param (← ymdTop 0)
  else if flag = Flag.off then vmIputg env core param (← ymdTop 0)

/-- The loop of `I_SETF` over the pairs below `var`, `n` of them left. -/
def setPairs (var : Variable) (param : Nat) : Nat → VmM Unit
  | 0 => pure ()
  | n + 1 => do
      let i := 2 * (param - (n + 1))
      vmIput env var (← ymdTop (i + 1)) (← ymdTop i)
      setPairs var param n

/-- `I_SETF`. -/
def instSetf (core : Chunk) (flag : BitVec 8) (param : Nat) : VmM Unit := do
  if flag = Flag.stack then
    setPairs env (← ymdTop (2 * param)) param param
    ymdPop (2 * param + 1)
  else if flag = Flag.fast then
    vmIput env (← ymdTop 1) (← kvalAt core param) (← ymdTop 0)
    ymdPop 2
  else fault (.assertion "0")

/-- `I_GETF`. -/
def instGetf (core : Chunk) (flag : BitVec 8) (param : Nat) : VmM Unit := do
  if flag = Flag.stack then
    let k ← ymdTop 0
    let v ← vmGet env (← ymdTop 1) k
    ymdPop 2
    ymdPush v
  else if flag = Flag.fast then
    setTop 0 (← vmGet env (← ymdTop 0) (← kvalAt core param))
  else fault (.assertion "0")

/-- The check of `do_put`. -/
def checkPair (k v : Variable) : VmM Unit := do
  if k.isNil then checkValue k
  checkValue v

/-- The loop of `I_NEWMAP`, `n` pairs left. -/
def mapPairs (param : Nat) : Nat → Hmap → VmM Hmap
  | 0, map => return map
  | n + 1, map => do
      let i := 2 * (param - (n + 1))
      let k ← ymdTop (i + 1)
      let v ← ymdTop i
      checkPair k v
      let x ← check (map.put (← keyOps env) env.depth k)
      mapPairs param n (x.store v)

/-- The loop of `I_NEWSKL`, `n` pairs left. -/
def sklPairs (param : Nat) : Nat → Skls → VmM Skls
  | 0, list => return list
  | n + 1, list => do
      let i := 2 * (param - (n + 1))
      let k ← ymdTop (i + 1)
      let v ← ymdTop i
      checkPair k v
      let x ← check (list.put (← keyOps env) k (← randlv))
      sklPairs param n (Skls.store x v)

end

/-- The loop of `I_NEWDYA`. -/
def dyaElems : Nat → VmM (List Variable)
  | 0 => return []
  | i + 1 => do
      let v ← ymdTop i
      checkValue v
      return v :: (← dyaElems i)

/-- The loop of `I_BIND`. -/
def bindAll (param : Nat) : Nat → Func → VmM Func
  | 0, copied => return copied
  | i + 1, copied => do
      let copied ← check (funcBind copied (param - i - 1) (← ymdTop i))
      bindAll param i copied

/-- `I_BIND`. -/
def instBind (param : Nat) : VmM Unit := do
  let opd ← ymdTop param
  let copied ← check (funcClone (← funcAt (← lift (funcOf opd))))
  if copied.nBind ≠ param then fault (.assertion "copied->n_bind == param")
  let copied ← bindAll param param copied
  setTop param (.func (← gcNew (.func copied)))
  ymdPop param

section

variable (env : Env)

/-- The jumps that test the top: `jumps` is whether this value jumps, `keeps`
whether it then stays. -/
def testJump (info : CallInfo) (flag : BitVec 8) (param : Nat) (keeps : Bool)
    (jumps : Variable → Bool) : VmM Next := do
  if jumps (← ymdTop 0) then
    let target ← implJump info.pc flag param
    if ¬ keeps then ymdPop 1
    return target
  else
    ymdPop 1
    return .next

/-- One round of the loop of `vm_run` for an instruction of the function `info`
runs. -/
def execOp (info : CallInfo) (fn : Func) (core : Chunk) (op : Opcode) (inst : Inst) :
    VmM Next := do
  let flag := asmFlag inst
  let param := (asmParam inst).toNat
  let argc := (asmArgc inst).toNat
  match op with
  | .panic => throw (.panic (fn.proto ++ lit " Panic!"))
  | .store =>
      stored env info core flag param
      ymdPop 1
      return .next
  | .ret => return .ret param
  | .jne => testJump info flag param false fun v => !vmBool v
  | .jnt => testJump info flag param true fun v => !vmBool v
  | .jnn => testJump info flag param true vmBool
  | .jmp => implJump info.pc flag param
  | .foreach =>
      if (← ymdTop 0).isNil then
        let target ← implJump info.pc flag param
        ymdPop 1
        return target
      else return .next
  | .setf =>
      instSetf env core flag param
      return .next
  | .push =>
      ymdPush (← pushed env info core flag param)
      return .next
  | .test =>
      binaryInst (opTest env flag)
      return .next
  | .not =>
      unaryInst fun v => return opNot v
      return .next
  | .getf =>
      instGetf env core flag param
      return .next
  | .typeof =>
      unaryInst fun v => return opTypeof v
      return .next
  | .inv =>
      unaryInst fun v => lift (opInv v)
      return .next
  | .mul =>
      binaryInst fun rhs lhs => lift (arith (· * ·) rhs lhs)
      return .next
  | .div =>
      binaryInst fun rhs lhs => lift (opDiv rhs lhs)
      return .next
  | .add =>
      binaryInst fun rhs lhs => lift (opAdd rhs lhs)
      return .next
  | .sub =>
      binaryInst fun rhs lhs => lift (arith (· - ·) rhs lhs)
      return .next
  | .mod =>
      binaryInst fun rhs lhs => lift (opMod rhs lhs)
      return .next
  | .pow =>
      binaryInst fun rhs lhs => lift (opPow rhs lhs)
      return .next
  | .andb =>
      binaryInst fun rhs lhs => lift (arith (· &&& ·) rhs lhs)
      return .next
  | .orb =>
      binaryInst fun rhs lhs => lift (arith (· ||| ·) rhs lhs)
      return .next
  | .xorb =>
      binaryInst fun rhs lhs => lift (arith (· ^^^ ·) rhs lhs)
      return .next
  | .invb =>
      unaryInst fun v => lift (opInvb v)
      return .next
  | .shift =>
      binaryInst fun rhs lhs => lift (opShift flag rhs lhs)
      return .next
  | .call =>
      let called ← lift (funcOf (← ymdTop argc))
      return .call ⟨called, argc, false, .exec (asmAret inst).toNat⟩
  | .selfcall =>
      let var ← ymdTop argc
      let called ← lift (funcOf (← vmGet env var (← kvalAt core (asmMethod inst).toNat)))
      return .call ⟨called, argc, true, .exec (asmAret inst).toNat⟩
  | .newmap =>
      let map ← check (Hmap.new param)
      let map ← mapPairs env param param map
      ymdPop (2 * param)
      ymdPush (.hmap (← gcNew (.hmap map)))
      return .next
  | .newskl =>
      let list ← sklPairs env param param .new
      ymdPop (2 * param)
      ymdPush (.skls (← gcNew (.skls list)))
      return .next
  | .newdya =>
      let elem ← dyaElems param
      ymdPop param
      ymdPush (.dyay (← gcNew (.dyay elem)))
      return .next
  | .bind =>
      instBind param
      return .next

/-- The instruction the running function is at, or its end. -/
def execInst : VmM Next := do
  let info ← ymdCalled
  let fn ← funcAt info.run
  let core ← coreOf fn
  match core.inst[info.pc]? with
  | none => return .ret 0
  | some inst =>
      match Opcode.ofCode (asmOp inst) with
      | some op => execOp env info fn core op inst
      | none => fault (.assertion "0")

end

end Ymd
