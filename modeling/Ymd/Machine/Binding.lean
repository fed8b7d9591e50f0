import Ymd.Machine.Delivery

/-! # What a function begins with

The parameters and the other local variables of a compiled function when `vm_run`
starts. `vm_copy_args` counts the operands from the top, so that it takes the last
arguments where there are more than parameters, and `call_init` clears as many slots
as the caller has.
-/

namespace Ymd

open Foundation

section

variable {env : Env} {l₀ l l' : Ctx} {c : Call} {fn : Func} {core : Chunk} {base i j : Nat}

/-- A local variable behind the bound ones is in the window of its frame. -/
theorem vmLocal_eq_loc_iff (h : ∃ slot, vmLocal fn base i = .ok slot) :
    vmLocal fn base i = .ok (.loc (base + j)) ↔ i = fn.nBind + j := by
  obtain ⟨slot, h⟩ := h
  unfold vmLocal at h ⊢
  by_cases hbound : i < fn.nBind
  · rw [if_pos hbound] at h ⊢
    constructor
    · intro heq
      split at heq <;> cases heq
    · rintro rfl
      omega
  · rw [if_neg hbound] at h ⊢
    by_cases hroom : base + (i - fn.nBind) < maxLocal
    · rw [if_pos hroom]
      simp only [pure, Except.pure, Except.ok.injEq, Slot.loc.injEq]
      omega
    · rw [if_neg hroom] at h
      cases h

theorem argvSlot_eq_loc_iff (h : ∃ slot, argvSlot fn core base = some slot) :
    argvSlot fn core base = some (.loc (base + j)) ↔
      core.findLz (lit "argv") = some (fn.nBind + j) := by
  obtain ⟨slot, h⟩ := h
  obtain ⟨i, hfind, hslot⟩ := Option.bind_eq_some_iff.1 h
  have hok : vmLocal fn base i = .ok slot := by
    cases hlocal : vmLocal fn base i with
    | ok slot' =>
        rw [hlocal] at hslot
        exact congrArg _ (Option.some.inj hslot)
    | error f =>
        rw [hlocal] at hslot
        cases hslot
  have hthis : argvSlot fn core base = some (.loc (base + j)) ↔
      vmLocal fn base i = .ok (.loc (base + j)) := by
    rw [h, hok, Option.some.injEq, Except.ok.injEq]
  rw [hthis, vmLocal_eq_loc_iff ⟨slot, hok⟩, hfind, Option.some.injEq]

/-! ## Parameters -/

/-- The value that is copied last to the place of parameter `j` is the argument: the
array where the parameter is named `argv`, and one of the last arguments otherwise. -/
def Call.Passes (c : Call) (l : Ctx) (fn : Func) (core : Chunk) (j : Nat) : Prop :=
  (if core.findLz (lit "argv") = some (fn.nBind + j) then .dyay (l.heap.argvAddr fn)
    else (l.argsOf c).getD (c.args - min core.kargs c.args + j) .nil) = (l.argsOf c).getD j .nil

theorem length_argsOf (henough : c.pops ≤ l.stk.length) : (l.argsOf c).length = c.args := by
  have hle : c.args ≤ l.stk.length := (Nat.le_add_right _ _).trans henough
  rw [Ctx.argsOf, List.length_reverse, List.length_take_of_le hle]

/-- The operands from the top are the arguments from behind. -/
theorem getD_argsOf (henough : c.pops ≤ l.stk.length) (hi : i < c.args) :
    (l.argsOf c).getD i .nil = l.stk.getD (c.args - 1 - i) .nil := by
  have hle : c.args ≤ l.stk.length := (Nat.le_add_right _ _).trans henough
  have hlen : (l.stk.take c.args).length = c.args := List.length_take_of_le hle
  rw [Ctx.argsOf, List.getD_eq_getElem?_getD, List.getD_eq_getElem?_getD,
    List.getElem?_reverse (by omega), hlen, List.getElem?_take_of_lt (by omega)]

theorem Entered.param {clear : Nat} (h : Entered l l' c base clear fn) (hcore : fn.core = some core)
    (hj : j < min core.kargs c.args) : l'.loc (base + j) = (l.argsOf c).getD j .nil ↔
      c.Passes l fn core j := by
  obtain ⟨hloc, slot, hslot, -⟩ := h.compiled core hcore
  have hargs : 0 < c.args := by omega
  have hin : base ≤ base + j ∧ base + j < base + min core.kargs c.args := by omega
  have hoff : min core.kargs c.args - 1 - (base + j - base) =
      c.args - 1 - (c.args - min core.kargs c.args + j) := by omega
  have hlast : (l.cleared base clear).stk.getD (min core.kargs c.args - 1 - (base + j - base)) .nil =
      (l.argsOf c).getD (c.args - min core.kargs c.args + j) .nil := by
    rw [getD_argsOf h.enough (by omega), hoff]
    rfl
  rw [hloc, Ctx.argsLoc, if_pos hin, hlast, Call.Passes]
  simp only [hargs, true_and, argvSlot_eq_loc_iff ⟨slot, hslot⟩]

/-! ## The array of arguments -/

/-- How many slots `call_init` clears for a call made in `l`. -/
def Ctx.clearCount (l : Ctx) : Kont → Int
  | .root => 0
  | _ => (l.running.map funcNlocal).getD 0

/-- Where the window of a function begins that is called in `l`. -/
def Ctx.windowBase (l : Ctx) : Kont → Nat
  | .root => 0
  | kont => l.info.head?.elim 0 CallInfo.loc + (l.clearCount kont).toNat

/-- What is in the place of parameter `j` if there is no argument for it. -/
def Call.unpassed (c : Call) (l : Ctx) (fn : Func) (core : Chunk) (j : Nat) : Variable :=
  if core.findLz (lit "argv") = some (fn.nBind + j) then .dyay (l.heap.argvAddr fn)
  else if (j : Int) < l.clearCount c.kont then .nil
  else l.loc (l.windowBase c.kont + j)

/-- The array of a function that still runs holds the arguments of that call too, and
the new ones come behind them: what the array begins with is what the parameters get. -/
def Call.Begins (c : Call) (l : Ctx) (fn : Func) (core : Chunk) : Prop :=
  ∀ j < core.kargs, ∀ v, (l.heap.argvLeft fn ++ l.argsOf c)[j]? = some v →
    (if j < c.args then (l.argsOf c).getD j .nil else c.unpassed l fn core j) = v

/-- Every parameter with an argument holds it, and wherever there are both a parameter
and an element of `argv` they are equal. -/
structure Call.ParametersHold (c : Call) (l l' : Ctx) (fn : Func) (core : Chunk) (base : Nat) :
    Prop where
  args : ∀ j < min core.kargs c.args, l'.loc (base + j) = (l.argsOf c).getD j .nil
  argv : 0 < c.args → ∀ elem, l'.heap.obj (l.heap.argvAddr fn) = some (.dyay elem) →
    ∀ j < core.kargs, ∀ v, elem[j]? = some v → l'.loc (base + j) = v

/-- Nothing is in front of the arguments of a function that does not run yet. -/
theorem Call.begins_of_left_nil (henough : c.pops ≤ l.stk.length)
    (hleft : l.heap.argvLeft fn = []) : c.Begins l fn core := by
  intro j _ v hv
  rw [hleft, List.nil_append] at hv
  have hlt : j < c.args := length_argsOf henough ▸ (List.getElem?_eq_some_iff.1 hv).1
  rw [if_pos hlt, List.getD_eq_getElem?_getD, hv]
  rfl

theorem Entered.window {clear : Nat} (h : Entered l l' c base clear fn) :
    l.clearCount c.kont = clear ∧ l.windowBase c.kont = base := by
  obtain ⟨hroot, rfl, rfl⟩ | ⟨top, chain, caller, hkont, hinfo, hcaller, hclear, rfl, -⟩ := h.frame
  · rw [hroot]
    exact ⟨rfl, rfl⟩
  · have hrunning : l.running = some caller := by
      rw [Ctx.running, hinfo]
      dsimp only
      rw [Heap.func_eq_ok.2 hcaller]
      rfl
    have hcount : (l.running.map funcNlocal).getD 0 = clear := by
      rw [hrunning, ← hclear]
      rfl
    have hbase : l.info.head?.elim 0 CallInfo.loc +
        ((l.running.map funcNlocal).getD 0).toNat = top.loc + clear := by
      rw [hinfo, hcount]
      rfl
    cases hc : c.kont with
    | root => exact absurd hc hkont
    | exec adjust => exact ⟨hcount, hbase⟩
    | native => exact ⟨hcount, hbase⟩
    | pcall => exact ⟨hcount, hbase⟩

/-- A parameter without an argument. -/
theorem Entered.unpassed {clear : Nat} (h : Entered l l' c base clear fn)
    (hcore : fn.core = some core) (hpos : 0 < c.args) (hj : c.args ≤ j) :
    l'.loc (base + j) = c.unpassed l fn core j := by
  obtain ⟨hloc, slot, hslot, -⟩ := h.compiled core hcore
  obtain ⟨hclear, hbase⟩ := h.window
  have hout : ¬(base ≤ base + j ∧ base + j < base + min core.kargs c.args) := by omega
  rw [hloc, Ctx.argsLoc, Call.unpassed, hclear, hbase, if_neg hout]
  simp only [hpos, true_and, argvSlot_eq_loc_iff ⟨slot, hslot⟩]
  by_cases hargv : core.findLz (lit "argv") = some (fn.nBind + j)
  · rw [if_pos hargv, if_pos hargv]
  · have hin : (base ≤ base + j ∧ base + j < base + clear) ↔ (j : Int) < clear := by omega
    rw [if_neg hargv, if_neg hargv, if_neg hargv, Ctx.cleared]
    simp only [hin]

/-- A slot of the window from `base` on that is neither the one of `argv` nor of a
parameter with an argument. -/
def Call.Unset (c : Call) (fn : Func) (core : Chunk) (base i : Nat) : Prop :=
  base + min core.kargs c.args ≤ i ∧ (i : Int) < base + funcNlocal fn ∧
    core.findLz (lit "argv") ≠ some (fn.nBind + (i - base))

theorem Entered.unset {clear : Nat} (h : Entered l l' c base clear fn) (hcore : fn.core = some core)
    (hunset : c.Unset fn core base i) : l'.loc i = (l.cleared base clear).loc i := by
  obtain ⟨hloc, slot, hslot, -⟩ := h.compiled core hcore
  obtain ⟨hle, -, hargv⟩ := hunset
  have hnot : argvSlot fn core base ≠ some (.loc i) := by
    have hi : base + (i - base) = i := by omega
    rw [← hi, Ne, argvSlot_eq_loc_iff ⟨slot, hslot⟩]
    exact hargv
  rw [hloc, Ctx.argsLoc, if_neg fun h => hnot h.2, if_neg (by omega), if_neg hnot]

/-- **Local variables begin with nil** exactly if the slots behind those that are
cleared, as many as the caller has, hold nil already. -/
theorem locals_nil_iff (hinit : l₀.Initial)
    (hrun : Runs (Step env) (fun _ _ => True) (.run l₀) (.run l)) (henter : enter c l = .ok () l')
    (hkont : c.kont ≠ .root) (hfn : l.heap.obj c.fn = some (.func fn))
    (hcore : fn.core = some core) :
    ∃ info top chain caller, l.info = top :: chain ∧ l.heap.obj top.run = some (.func caller) ∧
      l'.info = info :: l.info ∧ info.run = c.fn ∧ (info.loc : Int) = top.loc + funcNlocal caller ∧
      ((∀ i, c.Unset fn core info.loc i → l'.loc i = .nil) ↔
        ∀ i, c.Unset fn core info.loc i → (info.loc : Int) + funcNlocal caller ≤ i →
          l.loc i = .nil) := by
  obtain ⟨base, clear, fn', hentered⟩ := enter_ok (sound_of_runs hinit hrun).1 henter
  obtain rfl : fn = fn' := by
    have hsame := hentered.callee
    rw [hfn] at hsame
    cases hsame
    rfl
  obtain ⟨hroot, -⟩ | ⟨top, chain, caller, -, hinfo, hcaller, hclear, hbase, -⟩ := hentered.frame
  · exact absurd hroot hkont
  have hloc : ((base : Nat) : Int) = top.loc + funcNlocal caller := by
    rw [hclear, hbase]
    exact Nat.cast_add _ _
  refine ⟨_, top, chain, caller, hinfo, hcaller, hentered.info, rfl, hloc, ?_⟩
  have hslot : ∀ i, c.Unset fn core base i →
      (l'.loc i = .nil ↔ (base : Int) + funcNlocal caller ≤ i → l.loc i = .nil) := by
    intro i hunset
    rw [hentered.unset hcore hunset, Ctx.cleared, hclear]
    dsimp only
    by_cases hin : base ≤ i ∧ i < base + clear
    · rw [if_pos hin]
      exact iff_of_true rfl fun h => by omega
    · rw [if_neg hin]
      have hbehind : (base : Int) + (clear : Nat) ≤ i := by
        have hle : base ≤ i := (Nat.le_add_right _ _).trans hunset.1
        omega
      exact ⟨fun h _ => h, fun h => h hbehind⟩
  exact forall₂_congr hslot

end

/-! ### Calls of compiled functions -/

/-- The host compiles a function and pushes it with arguments. -/
private def withArgs (text : List UInt8) (args : List Variable) : Ctx :=
  (execute quietEnv (.prim (.compile 8 [] text) :: .prim (.push (.func 2)) ::
    args.map fun v => .prim (.push v)) (.initial fun _ => 1)).getD (.initial fun _ => 1)

/-- The code of a function with two parameters. -/
private def twoParams : Chunk := ⟨[251658240#32], [], [lit "a", lit "b", lit "argv"], 2⟩

/-- The code of a function with one parameter. -/
private def oneParam : Chunk := ⟨[251658240#32], [], [lit "a", lit "argv"], 1⟩

/-- A function that calls its first argument is called with itself and 7, and the
second call has the arguments itself and 8. -/
private def inSecondCall : Ctx :=
  (execute quietEnv [.prim (.compile 8 [] (lit "func f (g, n) {g(g, 8)}")),
    .prim (.push (.func 2)), .prim (.push (.func 2)), .prim (.push (.int 7)), .call .root 2 2,
    .exec, .exec, .exec] (.initial fun _ => 1)).getD (.initial fun _ => 1)

/-- A native function has compiled two functions and made some steps, and it pushes
the second one of them. -/
private def inNative (acts : List Act) : Ctx :=
  (execute quietEnv (.prim (.compile 8 [] (lit "func f () {var x = 7} func g () {var y}")) ::
    .prim (.nafn [] 0) :: .call .root 4 0 :: acts ++ [.prim (.push (.func 3))])
    (.initial fun _ => 1)).getD (.initial fun _ => 1)

/-- The code of the second function. -/
private def oneLocal : Chunk := ⟨[251658240#32], [], [lit "argv", lit "y"], 0⟩

theorem locals_nil_one : ∃ l' info, enter ⟨3, 0, false, .native⟩ (inNative []) = .ok () l' ∧
    l'.info = info :: (inNative []).info ∧ l'.loc (info.loc + 1) = .nil := by
  have hrun : Runs (Step quietEnv) (fun _ _ => True) (.run (.initial fun _ => 1))
      (.run (inNative [])) := runs_execute quietEnv (by decide +kernel)
  have henter : ∃ l', enter ⟨3, 0, false, .native⟩ (inNative []) = .ok () l' :=
    ⟨_, eq_ok_of_succeeds (by decide +kernel)⟩
  have hheader : (inNative []).heap.header 3 = some (some oneLocal, 0, none) := by decide +kernel
  have hlocs : (inNative []).info.map CallInfo.loc = [0] := by decide +kernel
  have hnative : (inNative []).running.map funcNlocal = some 0 := by decide +kernel
  have hnils : ∀ i < 2, (inNative []).loc i = .nil := by decide +kernel
  generalize inNative [] = l at *
  obtain ⟨l', henter⟩ := henter
  obtain ⟨fn, hfn, hcore, hbind, -⟩ := Heap.func_of_header hheader
  obtain ⟨info, top, chain, caller, hinfo, hcaller, hinfo', -, hloc, hlocals⟩ :=
    locals_nil_iff (initial_initial _) hrun henter (by decide) hfn hcore
  have hnone : funcNlocal caller = 0 := by
    rw [Ctx.running, hinfo] at hnative
    dsimp only at hnative
    rw [Heap.func_eq_ok.2 hcaller] at hnative
    exact Option.some.inj hnative
  have htop : top.loc = 0 := by
    rw [hinfo] at hlocs
    exact (List.cons.inj hlocs).1
  have htwo : funcNlocal fn = 2 := by
    rw [funcNlocal, hcore, hbind]
    rfl
  refine ⟨l', info, henter, hinfo', hlocals.2 (fun i hunset _ => hnils i ?_) _ ⟨?_, ?_, ?_⟩⟩
  · have hlt := hunset.2.1
    omega
  · exact Nat.le_add_right _ _
  · omega
  · rw [hbind, Nat.add_sub_cancel_left]
    decide

/-- The second function begins with what the first one left. -/
theorem local_not_nil : ∃ acts l',
    Runs (Step quietEnv) (fun _ _ => True) (.run (.initial fun _ => 1)) (.run (inNative acts)) ∧
      enter ⟨3, 0, false, .native⟩ (inNative acts) = .ok () l' ∧
      (inNative acts).heap.header 3 = some (some oneLocal, 0, none) ∧
      l'.info.map CallInfo.loc = [0, 0] ∧ l'.loc 1 = .int 7 :=
  ⟨[.prim (.push (.func 2)), .call .native 2 0, .exec, .exec, .exec], _,
    runs_execute quietEnv (by decide +kernel), eq_ok_of_succeeds (by decide +kernel),
    by decide +kernel, by decide +kernel, by decide +kernel⟩

end Ymd
