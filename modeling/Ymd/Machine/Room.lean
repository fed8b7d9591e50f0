import Ymd.Machine.Windows

/-! # Room in the local area

Nothing checks that a frame ends within the local area, or that the slots that
`call_init` clears are there. What is checked here before a call is what the source
leaves out.
-/

namespace Ymd

open Foundation

/-- Where `call_init` puts a frame, and how many slots it clears. -/
def Ctx.Places (l : Ctx) (c : Call) (base clear : Nat) : Prop :=
  (c.kont = .root ∧ base = 0 ∧ clear = 0) ∨
    ∃ top ∈ l.info.head?, ∃ caller, c.kont ≠ .root ∧ l.heap.obj top.run = some (.func caller) ∧
      funcNlocal caller = clear ∧ base = top.loc + clear

/-- The slots that a step reads or writes, whether the local area has them or not. -/
inductive Act.Touches (env : Env) (l : Ctx) (a : Act) (j : Nat) : Prop
  | operand {info : CallInfo} {fn : Func} {inst : Inst} {i : Nat} (ha : a = .exec)
      (hinfo : info ∈ l.info.head?) (hfn : l.heap.obj info.run = some (.func fn))
      (hinst : inst ∈ l.inst) (hi : localOperand inst = some i) (hge : fn.nBind ≤ i)
      (hj : j = info.loc + (i - fn.nBind))
  | clears {c : Call} {base clear : Nat} (hcall : callOf env l a = some c)
      (hplace : l.Places c base clear) (hge : base ≤ j) (hlt : j < base + clear)
  | copies {c : Call} {base clear : Nat} {fn : Func} {core : Chunk}
      (hcall : callOf env l a = some c) (hplace : l.Places c base clear)
      (hfn : l.heap.obj c.fn = some (.func fn)) (hcore : fn.core = some core) (hge : base ≤ j)
      (hj : j < base + min core.kargs c.args ∨
        core.findLz (lit "argv") = some (fn.nBind + (j - base)))

/-- The local area has room behind `base` for the local variables of a callee and for
the parameters that get an argument. -/
def Ctx.RoomAt (l : Ctx) (c : Call) (base : Int) : Prop :=
  ∀ fn ∈ (l.heap.func c.fn).toOption, base + funcNlocal fn ≤ maxLocal ∧
    ∀ core ∈ fn.core, base + (min core.kargs c.args : Nat) ≤ maxLocal

instance (l : Ctx) (c : Call) (base : Int) : Decidable (l.RoomAt c base) :=
  inferInstanceAs (Decidable (∀ fn ∈ (l.heap.func c.fn).toOption, _ ∧ ∀ core ∈ fn.core, _))

/-- The local area has room for the call that a step makes: for the frame of the callee,
and in front of it for as many slots as the caller has. -/
def Act.HasRoom (env : Env) (l : Ctx) (a : Act) : Prop :=
  ∀ c ∈ callOf env l a, if c.kont = .root then l.RoomAt c 0
    else ∀ info ∈ l.info.head?, ∀ caller ∈ (l.heap.func info.run).toOption,
      0 ≤ funcNlocal caller ∧ (info.loc : Int) + 2 * funcNlocal caller ≤ maxLocal ∧
        l.RoomAt c (info.loc + funcNlocal caller)

instance (env : Env) (l : Ctx) (a : Act) : Decidable (a.HasRoom env l) :=
  inferInstanceAs (Decidable (∀ c ∈ callOf env l a, if c.kont = .root then l.RoomAt c 0
    else ∀ info ∈ l.info.head?, ∀ caller ∈ (l.heap.func info.run).toOption, _ ∧ _ ∧ _))

/-- Frames end within the local area. -/
def Within (heap : Heap) (infos : List CallInfo) : Prop :=
  ∀ info ∈ infos, ∃ fn, heap.obj info.run = some (.func fn) ∧
    (info.loc : Int) + funcNlocal fn ≤ maxLocal

section

variable {env : Env} {l₀ l l' : Ctx} {a : Act} {c : Call} {infos chain : List CallInfo} {heap heap' : Heap}
  {fn : Func} {base clear j : Nat}

theorem Within.grows (hgrows : heap.Grows heap') (h : Within heap infos) : Within heap' infos := by
  intro info hinfo
  obtain ⟨fn, hfn, hends⟩ := h info hinfo
  obtain ⟨fn', hfn', hcore, hnum, -⟩ := hgrows.func _ _ hfn
  exact ⟨fn', hfn', by rwa [funcNlocal_congr hcore hnum]⟩

theorem Within.advanced (h : Within heap infos) (f : Nat → Nat) :
    Within heap (advanced f infos) := by
  cases infos with
  | nil => exact h
  | cons info chain =>
      rintro info' hinfo'
      rcases List.mem_cons.1 hinfo' with rfl | hmem
      · exact h info List.mem_cons_self
      · exact h info' (List.mem_cons_of_mem info hmem)

theorem Within.resumed (h : Within heap infos) (kont : Kont) : Within heap (resumed kont infos) := by
  unfold Ymd.resumed
  cases kont with
  | exec adjust => exact h.advanced _
  | native => exact h
  | pcall => exact h
  | root => exact h

theorem Ctx.Begins.places (h : l.Begins c base clear) : l.Places c base clear := by
  rcases h with hroot | ⟨top, chain, caller, hkont, hinfo, hcaller, hclear, hbase, -⟩
  · exact .inl hroot
  · exact .inr ⟨top, by rw [hinfo]; rfl, caller, hkont, hcaller, hclear, hbase⟩

/-- There is room for the slots that are cleared, and for the frame of the callee. -/
theorem Act.HasRoom.of_places (hroom : a.HasRoom env l) (hcall : callOf env l a = some c)
    (h : l.Places c base clear) : (0 < clear → base + clear ≤ maxLocal) ∧ l.RoomAt c base := by
  have hplaced := hroom c hcall
  rcases h with ⟨hkont, rfl, rfl⟩ | ⟨top, htop, caller, hkont, hcaller, hclear, rfl⟩
  · rw [if_pos hkont] at hplaced
    exact ⟨fun hpos => absurd hpos (lt_irrefl 0), hplaced⟩
  · rw [if_neg hkont] at hplaced
    obtain ⟨-, hcleared, hat⟩ := hplaced top htop caller (mem_toOption_func.2 hcaller)
    rw [hclear] at hcleared hat
    refine ⟨fun _ => by omega, ?_⟩
    rwa [Nat.cast_add]

theorem Moves.within (hwithin : Within l.heap l.info) (hroom : a.HasRoom env l)
    (h : Moves env l a infos) : Within l.heap infos := by
  cases h with
  | stays f => exact hwithin.advanced f
  | @enters c base clear fn hcall hbegins hfn =>
      intro info hinfo
      rcases List.mem_cons.1 hinfo with rfl | hmem
      · exact ⟨fn, hfn, ((hroom.of_places hcall hbegins.places).2 fn (mem_toOption_func.2 hfn)).1⟩
      · exact hwithin info hmem
  | leaves hinfo =>
      rw [hinfo] at hwithin
      exact Within.resumed (fun info hmem => hwithin info (List.mem_cons_of_mem _ hmem)) _
  | jumps hsuffix => exact fun info hmem => hwithin info (hsuffix.mem hmem)

/-- All frames are within the local area, unless the machine has crashed. -/
def Mach.Within : Mach → Prop
  | .run l => Ymd.Within l.heap l.info
  | .crashed _ => True

theorem within_step {m m' : Mach} (hsound : m.Sound) (hwithin : m.Within)
    (hguard : m.Guarded (fun l a => a.HasRoom env l) a) (hstep : Step env m a m') : m'.Within := by
  obtain ⟨l, rfl, -, rfl⟩ := hstep
  cases hafter : after env l a with
  | crashed f => trivial
  | run l' =>
      obtain ⟨-, hgrows, hmoves⟩ := framed_after hsound.2 hafter
      exact (hmoves.within hwithin (hguard l rfl)).grows hgrows

theorem Act.Touches.lt_maxLocal (hok : l.heap.Ok) (hwithin : Within l.heap l.info)
    (hroom : a.HasRoom env l) (h : a.Touches env l j) : j < maxLocal := by
  cases h with
  | @operand info fn inst i ha hinfo hfn hinst hi hge hj =>
      obtain ⟨chain, hcons⟩ := List.head?_eq_some_iff.1 hinfo
      obtain ⟨core, hcore, hmem⟩ := core_of_inst hcons hfn hinst
      have hlt := hok.code _ _ _ hfn hcore inst hmem i hi
      obtain ⟨fn', hfn', hends⟩ := hwithin info (List.mem_of_mem_head? hinfo)
      rw [hfn] at hfn'
      cases hfn'
      rw [funcNlocal, hcore] at hends
      dsimp only at hends
      omega
  | @clears c base clear hcall hplace hge hlt =>
      exact hlt.trans_le ((hroom.of_places hcall hplace).1 (by omega))
  | @copies c base clear fn core hcall hplace hfn hcore hge hj =>
      obtain ⟨hends, hparams⟩ := (hroom.of_places hcall hplace).2 fn (mem_toOption_func.2 hfn)
      have hcopied := hparams core hcore
      rcases hj with hlt | hargv
      · omega
      · have hklz := Chunk.findLz_lt hargv
        rw [funcNlocal, hcore] at hends
        dsimp only at hends
        omega

theorem within_of_runs (hinit : l₀.Initial)
    (hrun : Runs (Step env) (Mach.Guarded fun l a => a.HasRoom env l) (.run l₀) (.run l)) :
    Within l.heap l.info := by
  have hwithin : (Mach.run l).Within := by
    refine hrun.invariant_of ?_ ?_ hinit.sound ?_
    · exact fun _ _ _ hsound _ hstep => sound_step hsound hstep
    · exact fun _ _ _ hsound _ hwithin hguard hstep => within_step hsound hwithin hguard hstep
    · change Within l₀.heap l₀.info
      rw [hinit.info]
      exact nofun
  exact hwithin

/-- **Local windows stay inside the local area** in every run that makes a call only
where there is room for it: the running frame ends within the local area, and the steps
that are allowed touch no slot behind it. -/
theorem windows_inside (env : Env) (hinit : l₀.Initial)
    (hrun : Runs (Step env) (Mach.Guarded fun l a => a.HasRoom env l) (.run l₀) (.run l)) :
    (∀ info ∈ l.info.head?, ∃ fn, l.heap.obj info.run = some (.func fn) ∧
      (info.loc : Int) + funcNlocal fn ≤ maxLocal) ∧
    ∀ a : Act, a.HasRoom env l → ∀ j, a.Touches env l j → j < maxLocal := by
  have hsound := sound_of_runs hinit hrun
  have hwithin := within_of_runs hinit hrun
  exact ⟨fun info hinfo => hwithin info (List.mem_of_mem_head? hinfo),
    fun a hroom j htouches => htouches.lt_maxLocal hsound.1 hwithin hroom⟩

end

/-! ### A function that calls itself -/

/-- The host calls a function with 12 local variables, which has called itself `n` times
and is about to do so again. -/
private def nestedActs (n : Nat) : List Act :=
  [.prim (.compile 16 [] (lit "func f (g) {var a, b, c, d, e, h, i, j, k, l g(g)}")),
    .prim (.push (.func 2)), .prim (.push (.func 2)), .call .root 2 1] ++
    (List.replicate n [.exec, .exec, .exec]).flatten ++ [.exec, .exec]

private def nested (n : Nat) : Ctx :=
  (execute quietEnv (nestedActs n) (.initial fun _ => 1)).getD (.initial fun _ => 1)

private def nestedIf (n : Nat) : Ctx :=
  (executeIf quietEnv (fun l a => a.HasRoom quietEnv l) (nestedActs n) (.initial fun _ => 1)).getD
    (.initial fun _ => 1)

theorem windows_inside_two : ∃ info, (nestedIf 1).info.head? = some info ∧ info.loc = 12 ∧
    ∃ fn, (nestedIf 1).heap.obj info.run = some (.func fn) ∧
      (info.loc : Int) + funcNlocal fn ≤ maxLocal := by
  have hrun : Runs (Step quietEnv) (Mach.Guarded fun l a => a.HasRoom quietEnv l)
      (.run (.initial fun _ => 1)) (.run (nestedIf 1)) := runs_executeIf quietEnv (by decide +kernel)
  have hhead : ((nestedIf 1).info.head?).map CallInfo.loc = some 12 := by decide +kernel
  obtain ⟨info, hinfo, hloc⟩ := Option.map_eq_some_iff.1 hhead
  exact ⟨info, hinfo, hloc, (windows_inside quietEnv (initial_initial _) hrun).1 info hinfo⟩

/-- The frame behind 42 others would begin at slot 504, and 12 slots from there on are
cleared. -/
example : Act.exec.Enabled (nested 41) ∧ ((nested 41).info.head?).map CallInfo.loc = some 492 ∧
    (nested 41).running.map funcNlocal = some 12 ∧ ¬ Act.exec.HasRoom quietEnv (nested 41) ∧
      (after quietEnv (nested 41) .exec).ctx.isNone = true := by
  decide +kernel

end Ymd
