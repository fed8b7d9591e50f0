import Ymd.Machine.Edits

/-! # Windows of the local area

The window of a frame begins where the one of its caller ends, so that no two of
them share a slot. An instruction uses the window of its own frame, and a call
writes behind the windows of all frames.
-/

namespace Ymd

open Foundation

/-! ## Windows -/

/-- The slots of a frame: one for every local variable that is not bound. -/
def Heap.Window (heap : Heap) (info : CallInfo) (j : Nat) : Prop :=
  ∃ fn, heap.obj info.run = some (.func fn) ∧ info.loc ≤ j ∧ (j : Int) < info.loc + funcNlocal fn

/-- The window of a frame ends in front of `hi`. -/
def Heap.Ends (heap : Heap) (info : CallInfo) (hi : Nat) : Prop :=
  ∃ fn, heap.obj info.run = some (.func fn) ∧ info.loc ≤ hi ∧ (hi : Int) = info.loc + funcNlocal fn

/-- Every frame begins where the one below it ends. -/
def Stacked (heap : Heap) : List CallInfo → Prop
  | [] => True
  | info :: chain => (∀ below ∈ chain.head?, heap.Ends below info.loc) ∧ Stacked heap chain

section

variable {heap heap' : Heap} {info : CallInfo} {infos chain : List CallInfo} {hi j : Nat}

theorem Heap.Window.lt_of_ends (hj : heap.Window info j) (hends : heap.Ends info hi) : j < hi := by
  obtain ⟨fn, hfn, -, hlt⟩ := hj
  obtain ⟨fn', hfn', -, hend⟩ := hends
  rw [hfn] at hfn'
  cases hfn'
  omega

theorem funcNlocal_congr {fn fn' : Func} (hcore : fn'.core = fn.core) (hnum : fn'.nBind = fn.nBind) :
    funcNlocal fn' = funcNlocal fn := by
  rw [funcNlocal, hcore, hnum, funcNlocal]

theorem Heap.Window.grows (hgrows : heap.Grows heap') (hj : heap.Window info j) :
    heap'.Window info j := by
  obtain ⟨fn, hfn, hle, hlt⟩ := hj
  obtain ⟨fn', hfn', hcore, hnum, -⟩ := hgrows.func _ _ hfn
  exact ⟨fn', hfn', hle, by rwa [funcNlocal_congr hcore hnum]⟩

theorem Heap.Ends.grows (hgrows : heap.Grows heap') (hends : heap.Ends info hi) :
    heap'.Ends info hi := by
  obtain ⟨fn, hfn, hle, hend⟩ := hends
  obtain ⟨fn', hfn', hcore, hnum, -⟩ := hgrows.func _ _ hfn
  exact ⟨fn', hfn', hle, by rwa [funcNlocal_congr hcore hnum]⟩

theorem Stacked.grows (hgrows : heap.Grows heap') (h : Stacked heap infos) : Stacked heap' infos := by
  induction infos with
  | nil => trivial
  | cons info chain ih => exact ⟨fun below hbelow => (h.1 below hbelow).grows hgrows, ih h.2⟩

theorem Stacked.suffix (h : Stacked heap infos) (hsuffix : chain <:+ infos) : Stacked heap chain := by
  obtain ⟨front, rfl⟩ := hsuffix
  induction front with
  | nil => exact h
  | cons info front ih => exact ih h.2

theorem Stacked.advanced (h : Stacked heap infos) (f : Nat → Nat) :
    Stacked heap (advanced f infos) := by
  cases infos with
  | nil => trivial
  | cons info chain => exact h

theorem Stacked.resumed (h : Stacked heap infos) (kont : Kont) : Stacked heap (resumed kont infos) := by
  unfold Ymd.resumed
  cases kont with
  | exec adjust => exact h.advanced _
  | native => exact h
  | pcall => exact h
  | root => exact h

/-- All windows below a frame end in front of it. -/
theorem Stacked.window_lt (h : Stacked heap (info :: chain)) {g : CallInfo} (hg : g ∈ chain)
    (hj : heap.Window g j) : j < info.loc := by
  induction chain generalizing info with
  | nil => cases hg
  | cons below chain ih =>
      have hends := h.1 below rfl
      rcases List.mem_cons.1 hg with rfl | hmem
      · exact hj.lt_of_ends hends
      · obtain ⟨fn, -, hle, -⟩ := hends
        exact (ih h.2 hmem).trans_le hle

/-- The windows of two frames of the chain share no slot. -/
theorem Stacked.disjoint (h : Stacked heap infos) :
    infos.Pairwise fun f g => ∀ j, ¬ (heap.Window f j ∧ heap.Window g j) := by
  induction infos with
  | nil => exact List.Pairwise.nil
  | cons info chain ih =>
      refine List.Pairwise.cons (fun g hg j hj => ?_) (ih h.2)
      obtain ⟨-, -, hle, -⟩ := hj.1
      exact Nat.not_lt.2 hle (h.window_lt hg hj.2)

end

/-! ## Steps -/

section

variable {env : Env} {l₀ l l' : Ctx} {a : Act} {c : Call} {infos : List CallInfo} {j : Nat}

/-- `ymd_xcall` and `ymd_main` are called from outside of all functions. -/
def Act.RootOutside (env : Env) (l : Ctx) (a : Act) : Prop :=
  ∀ c, callOf env l a = some c → c.kont = .root → l.info = []

/-- The frame of a call begins where the one of its caller ends. -/
theorem Ctx.Begins.ends {base clear : Nat} (h : l.Begins c base clear)
    (hroot : c.kont = .root → l.info = []) : ∀ below ∈ l.info.head?, l.heap.Ends below base := by
  intro below hbelow
  rcases h with ⟨hkont, -⟩ | ⟨top, chain, caller, -, hinfo, hcaller, hclear, hbase, -⟩
  · rw [hroot hkont] at hbelow
    cases hbelow
  · rw [hinfo] at hbelow
    cases hbelow
    refine ⟨caller, hcaller, ?_, ?_⟩
    · rw [hbase]
      exact Nat.le_add_right _ _
    · rw [hclear, hbase]
      exact Nat.cast_add _ _

theorem Moves.stacked {heap' : Heap} (hgrows : l.heap.Grows heap') (hstacked : Stacked l.heap l.info)
    (hroot : a.RootOutside env l) (h : Moves env l a infos) : Stacked heap' infos := by
  refine Stacked.grows hgrows ?_
  cases h with
  | stays f => exact hstacked.advanced f
  | enters hcall hbegins _ => exact ⟨hbegins.ends (hroot _ hcall), hstacked⟩
  | leaves hinfo =>
      rw [hinfo] at hstacked
      exact hstacked.2.resumed _
  | jumps hsuffix => exact hstacked.suffix hsuffix

/-- The frames of a run lie one behind another. -/
def Mach.Stacked : Mach → Prop
  | .run l => Ymd.Stacked l.heap l.info
  | .crashed _ => True

theorem stacked_step {m m' : Mach} (hsound : m.Sound) (hstacked : m.Stacked)
    (hguard : m.Guarded (fun l a => a.RootOutside env l) a) (hstep : Step env m a m') :
    m'.Stacked := by
  obtain ⟨l, rfl, -, rfl⟩ := hstep
  cases hafter : after env l a with
  | crashed f => trivial
  | run l' =>
      obtain ⟨-, hgrows, hmoves⟩ := framed_after hsound.2 hafter
      exact hmoves.stacked hgrows hstacked (hguard l rfl)

theorem stacked_of_runs {guard : Ctx → Act → Prop} (hinit : l₀.Initial)
    (hguards : ∀ l a, guard l a → a.RootOutside env l)
    (hrun : Runs (Step env) (Mach.Guarded guard) (.run l₀) (.run l)) : Stacked l.heap l.info := by
  have hinv : (Mach.run l).Stacked := by
    refine hrun.invariant_of ?_ ?_ hinit.sound ?_
    · exact fun _ _ _ hsound _ hstep => sound_step hsound hstep
    · intro t b u hsound _ hstacked hguard hstep
      exact stacked_step hsound hstacked (fun l hl => hguards l b (hguard l hl)) hstep
    · change Stacked l₀.heap l₀.info
      rw [hinit.info]
      trivial
  exact hinv

/-- A local variable that an instruction names is bound or in the window of its frame. -/
theorem vmLocal_window {info : CallInfo} {fn : Func} {core : Chunk} {i : Nat} {slot : Slot}
    (hfn : l.heap.obj info.run = some (.func fn)) (hcore : fn.core = some core) (hi : i < core.klz)
    (h : vmLocal fn info.loc i = .ok slot) :
    (∃ b < fn.nBind, slot = .bind b) ∨ ∃ j, slot = .loc j ∧ l.heap.Window info j := by
  unfold vmLocal at h
  split at h
  next hbound =>
    split at h
    · cases h
      exact .inl ⟨i, hbound, rfl⟩
    · cases h
  next hbound =>
    split at h
    · cases h
      refine .inr ⟨_, rfl, fn, hfn, Nat.le_add_right _ _, ?_⟩
      rw [funcNlocal, hcore]
      dsimp only
      omega
    · cases h

/-- The place where an instruction finds its local variable. -/
def Ctx.Operand (l : Ctx) (info : CallInfo) (slot : Slot) : Prop :=
  info ∈ l.info.head? ∧ ∃ fn, l.heap.obj info.run = some (.func fn) ∧
    ∃ inst ∈ l.inst, ∃ i, localOperand inst = some i ∧ vmLocal fn info.loc i = .ok slot

theorem core_of_inst {info : CallInfo} {chain : List CallInfo} {fn : Func} {inst : Inst}
    (hinfo : l.info = info :: chain) (hfn : l.heap.obj info.run = some (.func fn))
    (hinst : l.inst = some inst) : ∃ core, fn.core = some core ∧ inst ∈ core.inst := by
  cases hcore : fn.core with
  | none =>
      unfold Ctx.inst at hinst
      rw [hinfo] at hinst
      change ((l.heap.func info.run).toOption.bind fun fn => fn.core.bind fun core =>
        core.inst[info.pc]?) = _ at hinst
      rw [Heap.func_eq_ok.2 hfn] at hinst
      change (fn.core.bind fun core => core.inst[info.pc]?) = _ at hinst
      rw [hcore] at hinst
      cases hinst
  | some core =>
      rw [inst_eq_some hinfo hfn hcore] at hinst
      exact ⟨core, rfl, List.mem_of_getElem? hinst⟩

theorem Ctx.Operand.window {info : CallInfo} {slot : Slot} (hok : l.heap.Ok)
    (h : l.Operand info slot) :
    (∃ fn, l.heap.obj info.run = some (.func fn) ∧ ∃ b < fn.nBind, slot = .bind b) ∨
      ∃ j, slot = .loc j ∧ l.heap.Window info j := by
  obtain ⟨hhead, fn, hfn, inst, hinst, i, hi, hslot⟩ := h
  obtain ⟨chain, hinfo⟩ := List.head?_eq_some_iff.1 hhead
  obtain ⟨core, hcore, hmem⟩ := core_of_inst hinfo hfn hinst
  rcases vmLocal_window hfn hcore (hok.code _ _ _ hfn hcore inst hmem i hi) hslot with hbound | hloc
  · exact .inl ⟨fn, hfn, hbound⟩
  · exact .inr hloc

/-- What a call stores to is behind the windows of all frames. -/
theorem Ctx.CallStores.not_window (hstacked : Stacked l.heap l.info)
    (hroot : c.kont = .root → l.info = []) (h : l.CallStores c j) {g : CallInfo} (hg : g ∈ l.info) :
    ¬ l.heap.Window g j := by
  obtain ⟨base, clear, hbegins, hle, -⟩ := h
  have hentered : Stacked l.heap (⟨c.fn, 0, base, c.kont, []⟩ :: l.info) :=
    ⟨hbegins.ends hroot, hstacked⟩
  intro hj
  exact Nat.not_lt.2 hle (hentered.window_lt hg hj)

/-- No step stores to a window below the running frame. -/
theorem Act.Refills.not_window {info : CallInfo} {chain : List CallInfo} (hok : l.heap.Ok)
    (hstacked : Stacked l.heap l.info) (hroot : a.RootOutside env l) (hinfo : l.info = info :: chain)
    (h : a.Refills env l j) {g : CallInfo} (hg : g ∈ chain) : ¬ l.heap.Window g j := by
  cases h with
  | body ha hstores =>
      obtain ⟨info', hhead, fn, hfn, inst, hinst, -, i, hi, hslot⟩ := hstores
      have hoperand : l.Operand info' (.loc j) := ⟨hhead, fn, hfn, inst, hinst, i, hi, hslot⟩
      rw [hinfo] at hhead
      cases hhead
      rw [hinfo] at hstacked
      rcases hoperand.window hok with ⟨-, -, b, -, hslot⟩ | ⟨k, hslot, hwindow⟩
      · cases hslot
      · cases hslot
        obtain ⟨-, -, hle, -⟩ := hwindow
        exact fun hj => Nat.not_lt.2 hle (hstacked.window_lt hg hj)
  | args hcall hstores =>
      have hmem : g ∈ l.info := by
        rw [hinfo]
        exact List.mem_cons_of_mem info hg
      exact hstores.not_window hstacked (hroot _ hcall) hmem

/-! ## Frame isolation -/

/-- The frame of a call fits: its function has local variables for the parameters that
get an argument. Only the host makes calls at the root. -/
def Act.Fits (env : Env) (l : Ctx) (a : Act) : Prop :=
  ∀ c ∈ callOf env l a, (c.kont = .root → l.info = []) ∧
    ∀ fn ∈ (l.heap.func c.fn).toOption, ∀ core ∈ fn.core,
      fn.nBind + min core.kargs c.args ≤ core.klz

instance (env : Env) (l : Ctx) (a : Act) : Decidable (a.Fits env l) :=
  inferInstanceAs (Decidable (∀ c ∈ callOf env l a, _ ∧ _))

theorem Act.Fits.rootOutside (h : a.Fits env l) : a.RootOutside env l := fun c hcall => (h c hcall).1

/-- The frame of a call in front of `l`. -/
def Ctx.frameOf (l : Ctx) (c : Call) (base : Nat) : CallInfo := ⟨c.fn, 0, base, c.kont, l.argsOf c⟩

/-- The arguments of a call are copied to the window of its frame. -/
theorem Ctx.CallStores.window (hfits : a.Fits env l) (hcall : callOf env l a = some c)
    (h : l.CallStores c j) : ∃ base clear, l.Begins c base clear ∧
      (base ≤ j ∧ j < base + clear ∨ l.heap.Window (l.frameOf c base) j) := by
  obtain ⟨base, clear, hbegins, hle, hin | ⟨fn, core, hfn, hcore, hargs⟩⟩ := h
  · exact ⟨base, clear, hbegins, .inl ⟨hle, hin⟩⟩
  · refine ⟨base, clear, hbegins, .inr ⟨fn, hfn, hle, ?_⟩⟩
    have hnlocal : funcNlocal fn = (core.klz : Int) - fn.nBind := by
      rw [funcNlocal, hcore]
    have hfunc : fn ∈ (l.heap.func c.fn).toOption := by
      rw [Heap.func_eq_ok.2 hfn]
      rfl
    have hroom := (hfits c hcall).2 fn hfunc core hcore
    change (j : Int) < base + funcNlocal fn
    rw [hnlocal]
    rcases hargs with hlt | hargv
    · omega
    · have hlt := Chunk.findLz_lt hargv
      omega

/-- A step stores to the window of the running frame, to the one of the callee, or to
the slots behind all windows that a call clears. -/
theorem Act.Refills.window (hok : l.heap.Ok) (hfits : a.Fits env l) (h : a.Refills env l j) :
    (a = .exec ∧ ∃ info ∈ l.info.head?, l.heap.Window info j) ∨
      ∃ c base clear, callOf env l a = some c ∧ l.Begins c base clear ∧
        (base ≤ j ∧ j < base + clear ∨ l.heap.Window (l.frameOf c base) j) := by
  cases h with
  | args hcall hstores =>
      obtain ⟨base, clear, hbegins, hin⟩ := hstores.window hfits hcall
      exact .inr ⟨_, base, clear, hcall, hbegins, hin⟩
  | body ha hstores =>
      obtain ⟨info, hhead, fn, hfn, inst, hinst, -, i, hi, hslot⟩ := hstores
      have hoperand : l.Operand info (.loc j) := ⟨hhead, fn, hfn, inst, hinst, i, hi, hslot⟩
      rcases hoperand.window hok with ⟨-, -, b, -, hslot⟩ | ⟨k, hslot, hwindow⟩
      · cases hslot
      · cases hslot
        exact .inl ⟨ha, info, hhead, hwindow⟩

/-- An instruction that makes a call stores to no local variable. -/
theorem not_stores_of_call (hcall : callOf env l .exec = some c) : ¬ l.BodyStores j := by
  rintro ⟨-, -, -, -, inst, hinst, hstore, -⟩
  unfold callOf at hcall
  rcases execInst_cases env l with ⟨f, hfail⟩ | hend |
    ⟨info, chain, fn, core, inst', op, -, -, -, hinst', hop, hexec⟩
  · rw [hfail] at hcall
    cases hcall
  · rw [hend] at hcall
    cases hcall
  · obtain rfl : inst' = inst := Option.some.inj (hinst'.symm.trans hinst)
    obtain rfl : op = .store := Opcode.code_inj (hop.symm.trans hstore)
    have hgives : Gives (fun x => x.isCall = false) (execOp env info fn core .store inst') :=
      Gives.bind fun _ => Gives.bind fun _ => Gives.pure rfl
    cases hx : execInst env l with
    | error stop l₁ =>
        rw [hx] at hcall
        cases hcall
    | ok x l₁ =>
        have hnot := hgives l x l₁ (hexec.symm.trans hx)
        rw [hx] at hcall
        cases x with
        | call c' => cases hnot
        | next => cases hcall
        | jump pc => cases hcall
        | ret rv => cases hcall

/-- While a call runs, and when it has ended, the slots of all frames below it are as
they were. -/
theorem windows_kept {m : Mach} {l₂ : Ctx} (hsound : (Mach.run l).Sound)
    (hstacked : Stacked l.heap l.info) (hcall : callOf env l a = some c)
    (hroot : a.RootOutside env l) (hstep : Step env (.run l) a m)
    (hrun : Runs (Step env) (Mach.Guarded fun l₁ b => l.info.length < l₁.info.length ∧
      b.RootOutside env l₁) m (.run l₂)) :
    ∀ g ∈ l.info, ∀ j, l.heap.Window g j → l₂.loc j = l.loc j := by
  -- what holds in every state of the call
  let inside (l₁ : Ctx) : Prop := l₁.heap.Ok ∧ Framed l₁ ∧ l.heap.Grows l₁.heap ∧
    Stacked l₁.heap l₁.info ∧ CallChain c.kont l.info l₁.info ∧
    ∀ g ∈ l.info, ∀ j, l.heap.Window g j → l₁.loc j = l.loc j
  have hfirst : ∀ l₁, m = .run l₁ → inside l₁ := by
    rintro l₁ rfl
    obtain ⟨_, hl, henabled, hafter⟩ := hstep
    cases hl
    obtain ⟨hframed, hgrows, hmoves⟩ := framed_after hsound.2 hafter.symm
    have hchain := (callChain_of_runs hsound.2 hcall ⟨l, rfl, henabled, hafter⟩ .refl).2
    refine ⟨hgrows.ok hsound.1, hframed, hgrows, hmoves.stacked hgrows hstacked hroot, hchain, ?_⟩
    intro g hg j hj
    refine (edit_after hafter.symm).loc j fun hrefill => ?_
    cases hrefill with
    | body ha hstores =>
        subst ha
        exact not_stores_of_call hcall hstores
    | args hcall' hstores => exact hstores.not_window hstacked (hroot _ hcall') hg hj
  have hnext : ∀ t b u, (∀ l₁, t = .run l₁ → inside l₁) →
      Mach.Guarded (fun l₁ b => l.info.length < l₁.info.length ∧ b.RootOutside env l₁) t b →
      Step env t b u → ∀ l₁, u = .run l₁ → inside l₁ := by
    rintro t b u hinside hguard ⟨l₁, rfl, -, hafter⟩ l₂ rfl
    obtain ⟨habove, hroot₁⟩ := hguard l₁ rfl
    obtain ⟨hok, hframed, hgrown, hstacked₁, hchain, hkept⟩ := hinside l₁ rfl
    obtain ⟨hframed₂, hgrows, hmoves⟩ := framed_after hframed hafter.symm
    refine ⟨hgrows.ok hok, hframed₂, hgrown.trans hgrows,
      hmoves.stacked hgrows hstacked₁ hroot₁, hmoves.callChain hchain habove, ?_⟩
    intro g hg j hj
    -- the running frame is in front of all frames of the caller
    obtain ⟨info, chain, hinfo, hmem⟩ : ∃ info chain, l₁.info = info :: chain ∧ g ∈ chain := by
      obtain ⟨pre, f, hsplit, -⟩ := hchain.inside habove
      rw [hsplit]
      cases pre with
      | nil => exact ⟨f, l.info, rfl, hg⟩
      | cons info pre => exact ⟨info, _, rfl, List.mem_append_right pre (List.mem_cons_of_mem f hg)⟩
    rw [← hkept g hg j hj]
    refine (edit_after hafter.symm).loc j fun hrefill => ?_
    exact hrefill.not_window hok hstacked₁ hroot₁ hinfo hmem (hj.grows hgrown)
  exact (hrun.invariant hnext (fun l₁ hm => hfirst l₁ hm) l₂ rfl).2.2.2.2.2

/-- **Frames are isolated**: windows share no slot, an instruction finds its local
variable among the bound values of its function or in the window of its frame, a step
stores only there, in the window of a callee and its bound values or in slots behind
all windows, and a call leaves every slot of the frames below it as it was, however
it ends. -/
theorem frame_isolation (env : Env) {l₀ l : Ctx} (hinit : l₀.Initial)
    (hrun : Runs (Step env) (Mach.Guarded fun l a => a.Fits env l) (.run l₀) (.run l)) :
    (l.info.Pairwise fun f g => ∀ j, ¬ (l.heap.Window f j ∧ l.heap.Window g j)) ∧
    (∀ info slot, l.Operand info slot →
      (∃ fn, l.heap.obj info.run = some (.func fn) ∧ ∃ b < fn.nBind, slot = .bind b) ∨
        ∃ j, slot = .loc j ∧ l.heap.Window info j) ∧
    (∀ a l', a.Fits env l → after env l a = .run l' →
      (∀ j, l'.loc j ≠ l.loc j → (a = .exec ∧ ∃ info ∈ l.info.head?, l.heap.Window info j) ∨
        ∃ c base clear, callOf env l a = some c ∧ l.Begins c base clear ∧
          (base ≤ j ∧ j < base + clear ∨ l.heap.Window (l.frameOf c base) j)) ∧
      ∀ o fn, l.heap.obj o = some (.func fn) → ∃ fn', l'.heap.obj o = some (.func fn') ∧
        ∀ b, fn'.bind[b]? ≠ fn.bind[b]? → a.Assigns env l o b) ∧
    (∀ a c m l₂, callOf env l a = some c → a.Fits env l → Step env (.run l) a m →
      Runs (Step env) (Mach.Guarded fun l₁ b => l.info.length < l₁.info.length ∧ b.Fits env l₁) m
        (.run l₂) → ∀ g ∈ l.info, ∀ j, l.heap.Window g j → l₂.loc j = l.loc j) := by
  have hsound := sound_of_runs hinit hrun
  have hstacked := stacked_of_runs hinit (fun _ _ => Act.Fits.rootOutside) hrun
  refine ⟨hstacked.disjoint, fun info slot hoperand => hoperand.window hsound.1, ?_, ?_⟩
  · intro a l' hfits hafter
    have hedit := edit_after hafter
    constructor
    · intro j hchanged
      have hrefill : a.Refills env l j := by
        by_contra hnot
        exact hchanged (hedit.loc j hnot)
      exact hrefill.window hsound.1 hfits
    · intro o fn hfn
      obtain ⟨fn', hfn', -, -, hsame⟩ := hedit.heap.func o fn hfn
      refine ⟨fn', hfn', fun b hchanged => ?_⟩
      by_contra hnot
      exact hchanged (hsame b hnot)
  · intro a c m l₂ hcall hfits hstep hinside
    refine windows_kept hsound hstacked hcall hfits.rootOutside hstep (hinside.mono ?_)
    exact fun t b hguard l₁ hl₁ => (hguard l₁ hl₁).imp_right Act.Fits.rootOutside

end

/-! ### A call from a compiled function -/

/-- The host calls a function with another one as its argument, up to where the first
one calls the second. -/
private def aboutToCall : Ctx :=
  (executeIf quietEnv (fun l a => a.Fits quietEnv l)
    [.prim (.compile 8 [] (lit "func f (g) {var x = 7 g()} func h () {var y = 8}")),
      .prim (.push (.func 2)), .prim (.push (.func 3)), .call .root 2 1, .exec, .exec, .exec]
    (.initial fun _ => 1)).getD (.initial fun _ => 1)

theorem frame_isolation_one : ∃ l₁ l₂, Step quietEnv (.run aboutToCall) .exec (.run l₁) ∧
    executeIf quietEnv (fun l b => aboutToCall.info.length < l.info.length ∧ b.Fits quietEnv l)
      [.exec, .exec, .exec] l₁ = some l₂ ∧ l₂.loc 2 = .int 7 := by
  have hrun : Runs (Step quietEnv) (Mach.Guarded fun l a => a.Fits quietEnv l)
      (.run (.initial fun _ => 1)) (.run aboutToCall) := runs_executeIf quietEnv (by decide +kernel)
  obtain ⟨l₂, hl₂⟩ : ∃ l₂, ((after quietEnv aboutToCall .exec).ctx.bind fun l₁ =>
      executeIf quietEnv (fun l b => aboutToCall.info.length < l.info.length ∧ b.Fits quietEnv l)
        [.exec, .exec, .exec] l₁) = some l₂ := Option.isSome_iff_exists.1 (by decide +kernel)
  obtain ⟨c, hcall⟩ : ∃ c, callOf quietEnv aboutToCall .exec = some c :=
    Option.isSome_iff_exists.1 (by decide +kernel)
  have hfits : Act.Fits quietEnv aboutToCall .exec := by decide +kernel
  have henabled : Act.Enabled aboutToCall .exec := by decide +kernel
  have hinfo : aboutToCall.info = [⟨2, 3, 0, .root, [.func 3]⟩] := by decide +kernel
  have hnlocal : aboutToCall.running.map funcNlocal = some 3 := by decide +kernel
  have hseven : aboutToCall.loc 2 = .int 7 := by decide +kernel
  generalize aboutToCall = l at *
  obtain ⟨l₁, h₁, h₂⟩ := Option.bind_eq_some_iff.1 hl₂
  have hstep := step_of_ctx quietEnv henabled h₁
  refine ⟨l₁, l₂, hstep, h₂, ?_⟩
  obtain ⟨-, -, -, hkept⟩ := frame_isolation quietEnv (initial_initial _) hrun
  obtain ⟨fn, hfn, hthree⟩ := func_of_running hinfo hnlocal
  have hwindow : l.heap.Window ⟨2, 3, 0, .root, [.func 3]⟩ 2 := by
    refine ⟨fn, hfn, Nat.zero_le _, ?_⟩
    rw [hthree]
    decide
  rw [← hseven]
  refine hkept .exec c (.run l₁) l₂ hcall hfits hstep (runs_of_executeIf quietEnv h₂) _ ?_ 2 hwindow
  rw [hinfo]
  exact List.mem_cons_self

end Ymd
