import Ymd.Compiler.Parse
import Ymd.Machine.Run

/-! # Calls and steps of the machine

The model of `call.c` around `vm_run`. A step is one instruction of the running
function, or one thing that a native function or the host does through the
functions of `state.h`; which one is left open, so that a run of this system
may have any native functions.
-/

namespace Ymd

/-! ## Entering and leaving a function -/

/-- `memset` of the `k` slots behind the `k` slots from `loc` on, and their base. -/
def clearSlots (loc : Nat) (k : Int) : VmM Nat :=
  let base := loc + k.toNat
  if k < 0 then fault (.bounds "l->loc")
  else if 0 < k ∧ maxLocal < base + k.toNat then fault (.bounds "l->loc")
  else do
    modify fun l =>
      { l with loc := fun i => if base ≤ i ∧ i < base + k.toNat then .nil else l.loc i }
    return base

/-- `call_init`: the base of the new frame, whose first slots are cleared. -/
def callInit : VmM Nat := do
  let info ← ymdCalled
  clearSlots info.loc (funcNlocal (← funcAt info.run))

/-- The array of a function for its arguments, made when there is none. -/
def argvOf (info : CallInfo) : VmM Addr := do
  let fn ← funcAt info.run
  match fn.argv with
  | some o => return o
  | none =>
      let o ← gcNew (.dyay [])
      storeObj info.run (.func { fn with argv := some o })
      return o

/-- The loop of `vm_copy_args` into the local area, `n` of `k` parameters left. -/
def copyParams (base k : Nat) : Nat → VmM Unit
  | 0 => pure ()
  | i + 1 => do
      setLoc (base + (k - i - 1)) (← ymdTop i)
      copyParams base k i

/-- The loop of `vm_copy_args` into the array, from the operand `n - 1` up. -/
def addArgs (argv : Addr) : (n : Nat) → VmM Unit
  | 0 => pure ()
  | i + 1 => do
      let arr ← check ((← get).heap.dyay argv)
      storeObj argv (.dyay (arr ++ [← ymdTop i]))
      addArgs argv i

/-- `vm_copy_args`. -/
def vmCopyArgs (info : CallInfo) (argc : Nat) : VmM Unit := do
  let argv ← argvOf info
  match (← funcAt info.run).core with
  | none => addArgs argv argc
  | some core =>
      match core.findLz (lit "argv") with
      | none => panic "Can not find local: argv"
      | some i =>
          let k := min core.kargs argc
          storeLocal info i .nil
          copyParams info.loc k k
          if 0 < argc then
            addArgs argv argc
            storeLocal info i (.dyay argv)

/-- The number of arguments with the receiver of a method. -/
def Call.args (c : Call) : Nat := if c.method then c.argc + 1 else c.argc

/-- `vm_call` up to where the function runs. -/
def vmCall (loc : Nat) (c : Call) : VmM Unit := do
  let l ← get
  let info : CallInfo := ⟨c.fn, 0, loc, c.kont, (l.stk.take c.args).reverse⟩
  set { l with info := info :: l.info }
  vmCopyArgs info c.args
  ymdPop (c.args + if c.method then 0 else 1)

/-- `call_jenter`. -/
def callJenter (level : Nat) : VmM Unit :=
  modify fun l => { l with jpt := ⟨level, l.info.length⟩ :: l.jpt }

/-- `ymd_call`, `ymd_pcall` and `ymd_xcall` up to where the function runs. -/
def enter (c : Call) : VmM Unit := do
  match c.kont with
  | .exec _ => vmCall (← callInit) c
  | .native => vmCall (← callInit) c
  | .pcall =>
      let loc ← callInit
      match (← get).jpt with
      | [] => fault (.bounds "l->jpt")
      | jpt :: _ =>
          callJenter (jpt.level + 1)
          vmCall loc c
  | .root =>
      callJenter 1
      vmCall 0 c

/-- `dyay_final`. -/
def dyayFinal (o : Addr) : VmM Unit := do
  let _ ← check ((← get).heap.dyay o)
  storeObj o (.dyay [])

/-- `dyay_final` of the arguments of the running function, if there are any. -/
def finalArgv : VmM Unit := do
  let info ← ymdCalled
  match (← funcAt info.run).argv with
  | some o => dyayFinal o
  | none => pure ()

/-- An assignment to `info->pc` of the running function. -/
def setPc (f : Nat → Nat) : VmM Unit :=
  modify fun l => { l with info :=
    match l.info with
    | [] => []
    | info :: chain => { info with pc := f info.pc } :: chain }

/-- What follows `vm_run` or a native function in `vm_call`, and then in its
caller. -/
def leave (rv : Int) : VmM Unit := do
  let info ← ymdCalled
  finalArgv
  modify fun l => { l with info := l.info.tail }
  match info.kont with
  | .exec adjust =>
      ymdAdjust adjust rv
      setPc (· + 1)
  | .native => modify fun l => { l with rv := rv }
  | .pcall => modify fun l => { l with jpt := l.jpt.tail, rv := rv }
  | .root => modify fun l => { l with jpt := l.jpt.tail, rv := rv }

/-! ## Errors -/

/-- What `longjmp(l->jpt->core, level)` leads to: the handlers of `ymd_pcall`
pass a lower level on, the one of `ymd_xcall` also empties the operand stack. -/
def longjmp (level : Nat) : List Jmpbuf → Ctx → Ctx
  | [], l => l
  | jpt :: rest, l =>
      let l := { l with jpt := rest, info := l.info.drop (l.info.length - jpt.chain) }
      if jpt.level ≤ 1 then { l with stk := [], rv := -level }
      else if level < jpt.level then longjmp level rest l
      else { l with rv := -level }

/-- The machine between two steps, or after a fault. -/
inductive Mach
  | run (l : Ctx)
  | crashed (f : Fault)

/-- `ymd_panic` leads back to the root of all calls. -/
def settle {α : Type} : EStateM.Result Stop Ctx α → Mach
  | .ok _ l => .run l
  | .error (.panic _) l =>
      if l.jpt = [] then .crashed (.assertion "l->jpt") else .run (longjmp 1 l.jpt l)
  | .error (.fault f) _ => .crashed f

/-- `ymd_error`. -/
def ymdError (l : Ctx) : Mach :=
  match l.jpt with
  | [] => .crashed (.assertion "l->jpt")
  | jpt :: _ =>
      match finalArgv l with
      | .ok _ l => .run (longjmp jpt.level l.jpt { l with info := l.info.tail })
      | .error stop l => settle (.error stop l : EStateM.Result Stop Ctx Unit)

/-- `libx_exit`. -/
def libxExit (l : Ctx) : Mach :=
  if l.jpt = [] then .crashed (.bounds "l->jpt") else .run (longjmp 1 l.jpt l)

/-- The loop of `ymd_main` that pushes the arguments of the program. -/
def pushArgs : List Bytes → VmM Unit
  | [] => pure ()
  | z :: argv => do
      ymdPush (.kstr z)
      pushArgs argv

/-- `ymd_main`. It pushes the arguments behind `call_jenter` and in front of `setjmp`,
so that a panic between the two has nowhere to go. -/
def ymdMain (argv : List Bytes) (l : Ctx) : Mach :=
  match (do lift (funcOf (← ymdTop 0)) : VmM Addr) l with
  | .error stop l => settle (.error stop l : EStateM.Result Stop Ctx Addr)
  | .ok fn l =>
      match (do callJenter 1; pushArgs argv : VmM Unit) l with
      | .ok _ l => settle (vmCall 0 ⟨fn, argv.length, false, .root⟩ l)
      | .error _ _ => .crashed (.bounds "l->jpt->core")

/-! ## Steps -/

/-- The tag of the variables that refer to an object. -/
def Obj.type : Obj → Nat
  | .func _ => 5
  | .dyay _ => 6
  | .hmap _ => 7
  | .skls _ => 8
  | .mand _ => 9

def Obj.isFunc : Obj → Bool
  | .func _ => true
  | _ => false

/-- What native functions and the host do between calls. -/
inductive Prim
  | push (v : Variable)
  | pop (n : Nat)
  | setTop (i : Nat) (v : Variable)
  | gcNew (obj : Obj) (hdata : obj.isFunc = false)
  | storeObj (o : Addr) (obj : Obj) (hdata : obj.isFunc = false)
  | nafn (proto : Bytes) (nbind : Nat)
  | bind (fn : Addr) (i : Nat) (v : Variable)
  | compile (depth : Nat) (name code : Bytes)

section

variable (env : Env)

/-- `ymd_compile`; after a syntax error the objects made so far stay. -/
def compileInto (depth : Nat) (name code : Bytes) : VmM Unit := do
  let l ← get
  match ymdCompile Lex.source depth name (.init (.init code) l.heap l.stk) with
  | .ok _ p => set { l with heap := p.heap, stk := p.stk }
  | .error (.fail _) p => set { l with heap := p.heap, stk := p.stk }
  | .error (.panic msg) p =>
      set { l with heap := p.heap, stk := p.stk }
      panic msg
  | .error (.fault f) _ => fault f
  | .error .fuel _ => fault .nesting

/-- New contents for an object of the same type. -/
def overwrite (o : Addr) (obj : Obj) : VmM Unit := do
  if ((← get).heap.obj o).map Obj.type = some obj.type then storeObj o obj
  else fault Heap.badCast

def Prim.run : Prim → VmM Unit
  | .push v => ymdPush v
  | .pop n => ymdPop n
  | .setTop i v => Ymd.setTop i v
  | .gcNew obj _ => do let _ ← Ymd.gcNew obj
  | .storeObj o obj _ => overwrite o obj
  | .nafn proto nbind => do let _ ← Ymd.gcNew (.func ⟨none, proto, nbind, [], none⟩)
  | .bind o i v => do Ymd.storeObj o (.func (← check (funcBind (← funcAt o) i v)))
  | .compile depth name code => compileInto depth name code

/-- What can happen next. -/
inductive Act
  | exec
  | prim (p : Prim)
  | call (kont : Kont) (fn : Addr) (argc : Nat)
  | ret (rv : Int)
  | panic (msg : Bytes)
  | error
  | exit

/-- One round of `vm_run`. -/
def vmRound : VmM Unit := do
  match ← execInst env with
  | .next => setPc (· + 1)
  | .jump pc => setPc fun _ => pc
  | .ret rv => leave rv
  | .call c => enter c

/-- The machine after a step. -/
def after (l : Ctx) : Act → Mach
  | .exec => settle (vmRound env l)
  | .prim p => settle (p.run l)
  | .call kont fn argc => settle (enter ⟨fn, argc, false, kont⟩ l)
  | .ret rv => settle (leave rv l)
  | .panic msg => settle ((throw (.panic msg) : VmM Unit) l)
  | .error => ymdError l
  | .exit => libxExit l

/-- The call a step makes. -/
def callOf (l : Ctx) : Act → Option Call
  | .exec =>
      match execInst env l with
      | .ok (.call c) _ => some c
      | _ => none
  | .call kont fn argc => some ⟨fn, argc, false, kont⟩
  | _ => none

end

/-- The function object that runs. -/
def Ctx.running (l : Ctx) : Option Func :=
  match l.info with
  | [] => none
  | info :: _ => (l.heap.func info.run).toOption

/-- Whether the running function is native. -/
def Ctx.inNative (l : Ctx) : Bool :=
  match l.running with
  | some fn => fn.core.isNone
  | none => false

/-- Which steps there are: instructions for a compiled function, everything else
for a native one. The host only makes calls at the root. -/
def Act.Enabled (l : Ctx) : Act → Prop
  | .exec => l.running.any fun fn => fn.core.isSome
  | .prim _ => l.info = [] ∨ l.inNative
  | .call .root _ _ => l.info = [] ∨ l.inNative
  | .call .native _ _ => l.inNative
  | .call .pcall _ _ => l.inNative
  | .call (.exec _) _ _ => False
  | .ret _ => l.inNative
  | .panic _ => l.inNative
  | .error => l.inNative
  | .exit => l.inNative

/-- A step of the machine. -/
def Step (env : Env) (m : Mach) (a : Act) (m' : Mach) : Prop :=
  ∃ l, m = .run l ∧ a.Enabled l ∧ m' = after env l a

/-- The machine that `ymd_init` makes, before any library is loaded. -/
structure Ctx.Initial (l : Ctx) : Prop where
  info : l.info = []
  loc : ∀ i, l.loc i = .nil
  stk : l.stk = []
  jpt : l.jpt = []
  data : ∀ o fn, l.heap.obj o ≠ some (.func fn)

end Ymd
