import Ymd.Machine.Execution
import Ymd.Machine.Frames

/-! # Error delivery

`error` leads to the nearest handler, a panic and `exit` to the nearest root. The
handlers are those of the frames at every moment, so that an entry point that
returns, in whatever way, leaves both chains as it found them.
-/

namespace Ymd

open Foundation

/-! ## Handlers -/

section

variable {l l' : Ctx} {info : CallInfo} {infos pre chain front : List CallInfo}

/-- The lowest frame is one of the host's. -/
def Rooted (infos : List CallInfo) : Prop := ∀ pre info, infos = pre ++ [info] → info.kont = .root

theorem Rooted.suffix (h : Rooted infos) (hsuffix : chain <:+ infos) : Rooted chain := by
  obtain ⟨front, rfl⟩ := hsuffix
  intro pre info heq
  exact h (front ++ pre) info (by rw [heq, List.append_assoc])

theorem Rooted.cons (h : Rooted infos) (hlast : infos = [] → info.kont = .root) :
    Rooted (info :: infos) := by
  intro pre last heq
  cases pre with
  | nil =>
      cases heq
      exact hlast rfl
  | cons g pre =>
      cases heq
      exact h pre last rfl

/-- The handlers are those of the frames. -/
structure Framed (l : Ctx) : Prop where
  jpt : l.jpt = handlers l.info
  rooted : Rooted l.info

/-- The level of a chain is the one of its first handler. -/
theorem head_handlers (infos : List CallInfo) :
    (handlers infos).head?.elim 0 Jmpbuf.level = level infos := by
  induction infos with
  | nil => rfl
  | cons info infos ih =>
      cases hcatches : info.kont.catches with
      | true =>
          rw [handlers_of_catches hcatches]
          rfl
      | false => rw [handlers_of_not hcatches, level_of_not hcatches, ih]

theorem level_append (hpre : ∀ g ∈ pre, g.kont.catches = false) :
    level (pre ++ chain) = level chain := by
  rw [← head_handlers, handlers_append hpre, head_handlers]

/-- The handlers with the one of a call. -/
theorem handlersIn_eq (hjpt : l.jpt = handlers l.info) (g : CallInfo) :
    l.handlersIn g.kont = handlers (g :: l.info) := by
  cases hkont : g.kont with
  | exec adjust => rw [handlers_of_not (by rw [hkont]; rfl), Ctx.handlersIn, hjpt]
  | native => rw [handlers_of_not (by rw [hkont]; rfl), Ctx.handlersIn, hjpt]
  | pcall =>
      rw [handlers_of_catches (by rw [hkont]; rfl), level_of_pcall hkont, Ctx.handlersIn, hjpt,
        head_handlers]
  | root =>
      rw [handlers_of_catches (by rw [hkont]; rfl), level_of_root hkont, Ctx.handlersIn, hjpt]

/-- Where the running function is does not matter. -/
def advanced (f : Nat → Nat) : List CallInfo → List CallInfo
  | [] => []
  | info :: chain => { info with pc := f info.pc } :: chain

theorem handlers_advanced (f : Nat → Nat) (infos : List CallInfo) :
    handlers (advanced f infos) = handlers infos := by
  cases infos <;> rfl

theorem Rooted.advanced (h : Rooted infos) (f : Nat → Nat) : Rooted (advanced f infos) := by
  cases infos with
  | nil => exact h
  | cons info chain =>
      refine (h.suffix (List.suffix_cons info chain)).cons fun hnil => ?_
      exact h [] info (by rw [hnil]; rfl)

/-- What a call leaves of the chain of its caller: an instruction has been executed. -/
def resumed (kont : Kont) (chain : List CallInfo) : List CallInfo :=
  match kont with
  | .exec _ => advanced (· + 1) chain
  | _ => chain

/-- The nearest frame with a continuation of a kind, and the chain below it. -/
def Nearest (p : Kont → Prop) (infos : List CallInfo) (g : CallInfo) (chain : List CallInfo) :
    Prop :=
  ∃ pre, infos = pre ++ g :: chain ∧ (∀ i ∈ pre, ¬ p i.kont) ∧ p g.kont

theorem exists_nearest {p : Kont → Prop} (h : ∃ info ∈ infos, p info.kont) :
    ∃ g chain, Nearest p infos g chain := by
  induction infos with
  | nil =>
      obtain ⟨info, hmem, -⟩ := h
      cases hmem
  | cons i infos ih =>
      by_cases hi : p i.kont
      · exact ⟨i, infos, [], rfl, nofun, hi⟩
      · obtain ⟨info, hmem, hp⟩ := h
        have hne : info ≠ i := fun heq => hi (heq ▸ hp)
        obtain ⟨g, chain, pre, rfl, hpre, hg⟩ := ih ⟨info, List.mem_of_ne_of_mem hne hmem, hp⟩
        exact ⟨g, chain, i :: pre, rfl, List.forall_mem_cons.2 ⟨hi, hpre⟩, hg⟩

/-- There is only one nearest frame. -/
theorem Nearest.unique {p : Kont → Prop} {g g' : CallInfo} {chain' : List CallInfo}
    (h : Nearest p infos g chain) (h' : Nearest p infos g' chain') : g' = g ∧ chain' = chain := by
  obtain ⟨pre, rfl, hpre, hg⟩ := h
  obtain ⟨pre', heq, hpre', hg'⟩ := h'
  induction pre generalizing pre' with
  | nil =>
      cases pre' with
      | nil =>
          cases heq
          exact ⟨rfl, rfl⟩
      | cons i pre' =>
          cases heq
          exact absurd hg (hpre' g List.mem_cons_self)
  | cons i pre ih =>
      cases pre' with
      | nil =>
          cases heq
          exact absurd hg' (hpre g' List.mem_cons_self)
      | cons i' pre' =>
          obtain ⟨-, heq⟩ := List.cons.inj heq
          exact ih (List.forall_mem_cons.1 hpre).2 pre' heq (List.forall_mem_cons.1 hpre').2

theorem Rooted.exists_root (h : Rooted infos) (hne : infos ≠ []) :
    ∃ info ∈ infos, info.kont = .root :=
  ⟨infos.getLast hne, List.getLast_mem hne, h infos.dropLast _ (List.dropLast_append_getLast hne).symm⟩

/-- An entry point returns: both chains are the ones it found, and the value is
minus the level of its handler. -/
structure Delivered (g : CallInfo) (chain : List CallInfo) (l' : Ctx) : Prop where
  info : l'.info = chain
  jpt : l'.jpt = handlers chain
  rv : l'.rv = -(level (g :: chain) : Int)

/-- A jump with the level of the nearest handler ends there. -/
theorem longjmp_nearest (hcatches : info.kont.catches = true)
    (hinfo : l.info = front ++ chain) :
    Delivered info chain (longjmp (level (info :: chain)) (handlers (info :: chain)) l) := by
  rw [handlers_of_catches hcatches, longjmp, hinfo, drop_to]
  dsimp only
  by_cases hlow : level (info :: chain) ≤ 1
  · rw [if_pos hlow]
    exact ⟨rfl, rfl, rfl⟩
  · rw [if_neg hlow, if_neg (lt_irrefl _)]
    exact ⟨rfl, rfl, rfl⟩

theorem longjmp_heap (level : Nat) (jpts : List Jmpbuf) (l : Ctx) :
    (longjmp level jpts l).heap = l.heap := by
  induction jpts generalizing l with
  | nil => rfl
  | cons jpt rest ih =>
      rw [longjmp]
      dsimp only
      split
      · rfl
      · split
        · rw [ih]
        · rfl

/-- A panic ends at the nearest root. -/
theorem longjmp_panic (hjpt : l.jpt = handlers l.info) {g : CallInfo}
    (hnearest : Nearest (· = .root) l.info g chain) : Delivered g chain (longjmp 1 l.jpt l) := by
  obtain ⟨pre, hinfo, hpre, hroot⟩ := hnearest
  rw [hjpt, hinfo]
  have hfront : l.info = [] ++ (pre ++ g :: chain) := hinfo
  rw [longjmp_root hroot hpre hfront]
  exact ⟨rfl, rfl, by rw [level_of_root hroot]; rfl⟩

end

/-! ## Steps -/

section

variable {env : Env} {l l' l₁ : Ctx} {a : Act} {c : Call}

theorem does_dyayFinal {own arrs : Addr → Prop} {slots : Nat → Prop} {o : Addr} (ho : arrs o) :
    Does own arrs slots (dyayFinal o) := by
  intro l
  rw [dyayFinal, bind_of_ok (get_apply l)]
  cases hdyay : l.heap.dyay o with
  | error f =>
      rw [bind_of_error (check_of_error rfl)]
      exact .refl l
  | ok elem =>
      rw [bind_of_ok (check_of_ok rfl)]
      exact effect_storeObj (Heap.dyay_eq_ok.1 hdyay) rfl rfl fun _ _ => ho

theorem up_finalArgv {lo : Nat} : Keeps (Up lo) finalArgv := by
  have hdoes : Does (fun _ => False) (fun _ => True) (fun _ => False) finalArgv := by
    refine Does.bind readOnly_ymdCalled.does fun info => Does.bind (does_funcAt _) fun fn => ?_
    cases fn.argv with
    | none => exact Does.pure ()
    | some o => exact does_dyayFinal trivial
  exact hdoes.mono fun _ _ h => .of_effect h fun _ hslot => hslot.elim

theorem finalArgv_cases (l : Ctx) :
    (∃ f l₁, finalArgv l = .error (.fault f) l₁) ∨ ∃ l₁, finalArgv l = .ok () l₁ := by
  rw [finalArgv]
  cases hinfo : l.info with
  | nil =>
      exact .inl ⟨_, _, bind_of_error (ymdCalled_of_nil hinfo)⟩
  | cons info chain =>
      rw [bind_of_ok (ymdCalled_of_cons hinfo)]
      cases hfunc : l.heap.func info.run with
      | error f =>
          exact .inl ⟨_, _, bind_of_error (funcAt_of_error hfunc)⟩
      | ok fn =>
          rw [bind_of_ok (funcAt_of_obj (Heap.func_eq_ok.1 hfunc))]
          cases fn.argv with
          | none => exact .inr ⟨l, rfl⟩
          | some o =>
              dsimp only
              rw [dyayFinal, bind_of_ok (get_apply l)]
              cases hdyay : l.heap.dyay o with
              | error f => exact .inl ⟨_, _, bind_of_error (check_of_error rfl)⟩
              | ok elem =>
                  rw [bind_of_ok (check_of_ok rfl)]
                  exact .inr ⟨_, rfl⟩

/-- A return is the end of the arguments, the end of the frame, and the rest of the call. -/
theorem leave_cases (rv : Int) (l : Ctx) : (∃ f l₁, leave rv l = .error (.fault f) l₁) ∨
    ∃ info chain l₁, l.info = info :: chain ∧ finalArgv l = .ok () l₁ ∧
      leave rv l = resume info.kont rv { l₁ with info := chain } := by
  cases hinfo : l.info with
  | nil =>
      exact .inl ⟨_, _, bind_of_error (ymdCalled_of_nil hinfo)⟩
  | cons info chain =>
      rw [leave, bind_of_ok (ymdCalled_of_cons hinfo)]
      rcases finalArgv_cases l with ⟨f, l₁, hfail⟩ | ⟨l₁, hfinal⟩
      · exact .inl ⟨f, l₁, bind_of_error hfail⟩
      · have hup : Up 0 l l₁ := up_finalArgv.ok hfinal
        refine .inr ⟨info, chain, l₁, rfl, hfinal, ?_⟩
        rw [bind_of_ok hfinal]
        have htail : l₁.info.tail = chain := by rw [hup.info, hinfo]; rfl
        have hset : (modify fun l => { l with info := l.info.tail } : VmM Unit) l₁ =
            .ok () { l₁ with info := chain } := by rw [← htail]; rfl
        rw [bind_of_ok hset]
        cases info.kont <;> rfl

theorem withPc_info (l : Ctx) (f : Nat → Nat) : (l.withPc f).info = advanced f l.info := by
  rw [Ctx.withPc]
  cases l.info <;> rfl

theorem resume_ok {kont : Kont} {rv : Int} (h : resume kont rv l = .ok () l') :
    l'.info = resumed kont l.info ∧ l'.heap = l.heap ∧
      l'.jpt = if kont.catches then l.jpt.tail else l.jpt := by
  cases kont with
  | exec adjust =>
      obtain ⟨u, l₁, hadjust, hpc⟩ := bind_ok_iff.1 h
      have hstack : StackOnly l l₁ := (stackOnly_ymdAdjust adjust rv).ok hadjust
      have hpc : l₁.withPc (· + 1) = l' := (EStateM.Result.ok.inj hpc).2
      rw [← hpc, withPc_info, hstack]
      exact ⟨rfl, rfl, rfl⟩
  | native =>
      cases h
      exact ⟨rfl, rfl, rfl⟩
  | pcall =>
      cases h
      exact ⟨rfl, rfl, rfl⟩
  | root =>
      cases h
      exact ⟨rfl, rfl, rfl⟩

/-- Only an instruction that gets its results can fail. -/
theorem resume_error {kont : Kont} {rv : Int} {stop : Stop}
    (h : resume kont rv l = .error stop l') : kont.catches = false ∧ StackOnly l l' := by
  cases kont with
  | exec adjust =>
      refine ⟨rfl, ?_⟩
      cases hadjust : ymdAdjust adjust rv l with
      | ok u l₁ =>
          have hrun : resume (.exec adjust) rv l = .ok () (l₁.withPc (· + 1)) := bind_of_ok hadjust
          rw [hrun] at h
          cases h
      | error e l₁ =>
          have hrun : resume (.exec adjust) rv l = .error e l₁ := bind_of_error hadjust
          rw [hrun] at h
          cases h
          exact (stackOnly_ymdAdjust adjust rv).error hadjust
  | native => cases h
  | pcall => cases h
  | root => cases h

/-- A panic is raised in `l₁`, a step after `l`: a frame may have come or gone. -/
structure Raised (l l₁ : Ctx) : Prop where
  framed : Framed l₁
  near : l₁.info <:+ l.info ∨ ∃ g, l₁.info = g :: l.info
  heap : l.heap.Grows l₁.heap

theorem Raised.of_up (hframed : Framed l) (h : Up 0 l l₁) : Raised l l₁ where
  framed := ⟨by rw [h.jpt, h.info, hframed.jpt], by rw [h.info]; exact hframed.rooted⟩
  near := .inl (by rw [h.info])
  heap := h.heap

theorem Raised.trans (hframed : Raised l l') (hinfo : l'.info = l.info) (h : Raised l' l₁) :
    Raised l l₁ :=
  ⟨h.framed, hinfo ▸ h.near, hframed.heap.trans h.heap⟩

/-- The chain and the handlers of a call, however far it gets. -/
theorem enter_chain (hframed : Framed l) (c : Call) : (∃ f l₁, enter c l = .error (.fault f) l₁) ∨
    ∃ base clear, l.Begins c base clear ∧ Framed (stateOf (enter c l)) ∧
      l.heap.Grows (stateOf (enter c l)).heap ∧
      (stateOf (enter c l)).info = ⟨c.fn, 0, base, c.kont, l.argsOf c⟩ :: l.info := by
  rcases enter_eq l c with hfail | ⟨base, clear, hbegins, heq⟩
  · exact .inl hfail
  · have hup := up_vmCall { l.cleared base clear with jpt := l.handlersIn c.kont } base c
    rw [← heq] at hup
    have hinfo : (stateOf (enter c l)).info = ⟨c.fn, 0, base, c.kont, l.argsOf c⟩ :: l.info :=
      hup.info
    have hjpt : (stateOf (enter c l)).jpt = l.handlersIn c.kont := hup.jpt
    refine .inr ⟨base, clear, hbegins, ⟨?_, ?_⟩, hup.heap, hinfo⟩
    · rw [hjpt, hinfo]
      exact handlersIn_eq hframed.jpt ⟨c.fn, 0, base, c.kont, l.argsOf c⟩
    · rw [hinfo]
      refine hframed.rooted.cons fun hnil => ?_
      rcases hbegins with ⟨hroot, -⟩ | ⟨top, chain, caller, -, hcons, -⟩
      · exact hroot
      · rw [hnil] at hcons
        cases hcons

theorem raised_enter (hframed : Framed l) {msg : Bytes}
    (h : enter c l = .error (.panic msg) l₁) : Raised l l₁ := by
  rcases enter_chain hframed c with ⟨f, l₂, hfail⟩ | ⟨base, clear, -, hframed', hgrows, hinfo⟩
  · cases h.symm.trans hfail
  · rw [h] at hframed' hgrows hinfo
    exact ⟨hframed', .inr ⟨_, hinfo⟩, hgrows⟩

theorem raised_leave (hframed : Framed l) {rv : Int} {msg : Bytes}
    (h : leave rv l = .error (.panic msg) l₁) : Raised l l₁ := by
  rcases leave_cases rv l with ⟨f, l₂, hfail⟩ | ⟨info, chain, l₂, hinfo, hfinal, heq⟩
  · cases h.symm.trans hfail
  · have hup : Up 0 l l₂ := up_finalArgv.ok hfinal
    obtain ⟨hnot, hstack⟩ := resume_error (heq.symm.trans h)
    have hsuffix : chain <:+ l.info := hinfo ▸ List.suffix_cons info chain
    rw [hstack]
    refine ⟨⟨?_, hframed.rooted.suffix hsuffix⟩, .inl hsuffix, hup.heap⟩
    change l₂.jpt = handlers chain
    rw [hup.jpt, hframed.jpt, hinfo, handlers_of_not hnot]

theorem up_execInst (env : Env) (l : Ctx) : Up 0 l (stateOf (execInst env l)) :=
  .of_effect (effect_execInst env l) fun _ _ => Nat.zero_le _

theorem Act.Panics.raised (hframed : Framed l) (h : a.Panics env l l₁) : Raised l l₁ := by
  cases a with
  | exec =>
      obtain ⟨msg, hrun⟩ := h
      have hup := up_execInst env l
      rw [vmRound] at hrun
      cases hinst : execInst env l with
      | error stop l₂ =>
          rw [bind_of_error hinst] at hrun
          cases hrun
          rw [hinst] at hup
          exact .of_up hframed hup
      | ok x l₂ =>
          rw [bind_of_ok hinst] at hrun
          rw [hinst] at hup
          have hfirst := Raised.of_up hframed hup
          cases x with
          | next => cases hrun
          | jump pc => cases hrun
          | ret rv => exact hfirst.trans hup.info (raised_leave hfirst.framed hrun)
          | call c => exact hfirst.trans hup.info (raised_enter hfirst.framed hrun)
  | prim p =>
      obtain ⟨msg, hrun⟩ := h
      have heffect := effect_prim l p
      rw [hrun] at heffect
      exact .of_up hframed (.of_effect heffect fun _ _ => Nat.zero_le _)
  | call kont fn argc =>
      obtain ⟨msg, hrun⟩ := h
      exact raised_enter hframed hrun
  | ret rv =>
      obtain ⟨msg, hrun⟩ := h
      exact raised_leave hframed hrun
  | panic msg =>
      rw [show l₁ = l from h]
      exact .of_up hframed (.refl l)
  | error => exact h.elim
  | exit =>
      rw [show l₁ = l from h]
      exact .of_up hframed (.refl l)

theorem handlers_ne_nil (h : handlers l.info ≠ []) :
    ∃ info ∈ l.info, info.kont.catches = true := by
  by_contra hno
  refine h ?_
  have hall : ∀ g ∈ l.info, g.kont.catches = false := fun g hg =>
    Bool.eq_false_iff.2 fun hcatches => hno ⟨g, hg, hcatches⟩
  have hempty := @handlers_append l.info [] hall
  rwa [List.append_nil] at hempty

/-- `error` is delivered to the nearest handler. -/
theorem ymdError_delivered (hframed : Framed l) (h : ymdError l = .run l') :
    ∃ g chain, Nearest (fun k => k.catches = true) l.info g chain ∧ Delivered g chain l' ∧
      l.heap.Grows l'.heap := by
  unfold ymdError at h
  cases hjpt : l.jpt with
  | nil =>
      rw [hjpt] at h
      cases h
  | cons jpt rest =>
      rw [hjpt] at h
      dsimp only at h
      rcases finalArgv_cases l with ⟨f, l₁, hfail⟩ | ⟨l₁, hfinal⟩
      · rw [hfail] at h
        cases h
      · have hup : Up 0 l l₁ := up_finalArgv.ok hfinal
        have hhandlers : handlers l.info = jpt :: rest := hframed.jpt.symm.trans hjpt
        obtain ⟨g, chain, hnearest⟩ := exists_nearest (p := fun k => k.catches = true)
          (handlers_ne_nil (by rw [hhandlers]; exact List.cons_ne_nil _ _))
        refine ⟨g, chain, hnearest, ?_⟩
        obtain ⟨pre, hinfo, hpre, hcatches⟩ := hnearest
        have hpre' : ∀ i ∈ pre, i.kont.catches = false := fun i hi => Bool.eq_false_iff.2 (hpre i hi)
        have hlevel : jpt.level = level (g :: chain) := by
          rw [level_head hhandlers, hinfo, level_append hpre']
        have hsame : l₁.jpt = handlers (g :: chain) := by
          rw [hup.jpt, hframed.jpt, hinfo, handlers_append hpre']
        obtain ⟨front, htail⟩ : ∃ front, l₁.info.tail = front ++ chain := by
          rw [hup.info, hinfo]
          cases pre with
          | nil => exact ⟨[], rfl⟩
          | cons i pre => exact ⟨pre ++ [g], by simp⟩
        rw [hfinal] at h
        cases h
        rw [hlevel, hsame]
        refine ⟨longjmp_nearest hcatches htail, ?_⟩
        rw [longjmp_heap]
        exact hup.heap

/-- `error` finds a handler. -/
theorem ymdError_runs (hok : l.heap.Ok) (hframed : Framed l) (hnative : l.inNative = true) :
    ∃ l', ymdError l = .run l' := by
  unfold Ctx.inNative Ctx.running at hnative
  cases hinfo : l.info with
  | nil =>
      rw [hinfo] at hnative
      cases hnative
  | cons info chain =>
      rw [hinfo] at hnative
      dsimp only at hnative
      cases hfunc : l.heap.func info.run with
      | error f =>
          rw [hfunc] at hnative
          cases hnative
      | ok fn =>
          have hfinal := finalArgv_of_ok hok hinfo (Heap.func_eq_ok.1 hfunc)
          obtain ⟨g, hg, hroot⟩ := hframed.rooted.exists_root (hinfo ▸ List.cons_ne_nil info chain)
          unfold ymdError
          cases hjpt : l.jpt with
          | nil =>
              obtain ⟨pre, post, hsplit⟩ := List.append_of_mem hg
              have hlevel := level_pos hroot pre post
              rw [← hsplit, ← head_handlers, ← hframed.jpt, hjpt] at hlevel
              cases hlevel
          | cons jpt rest =>
              dsimp only
              rw [hfinal]
              exact ⟨_, rfl⟩

/-- A panic that is raised is delivered to the nearest root. -/
theorem Raised.delivered (h : Raised l l₁) (hne : l₁.info ≠ []) :
    ∃ g chain, Nearest (fun k => k = .root) l₁.info g chain ∧ chain <:+ l.info ∧
      Delivered g chain (longjmp 1 l₁.jpt l₁) := by
  obtain ⟨g, chain, hnearest⟩ := exists_nearest (p := fun k => k = .root)
    (h.framed.rooted.exists_root hne)
  refine ⟨g, chain, hnearest, ?_, longjmp_panic h.framed.jpt hnearest⟩
  obtain ⟨pre, hinfo, -, -⟩ := hnearest
  have hbelow : chain <:+ l₁.info.tail := by
    rw [hinfo]
    cases pre with
    | nil => exact List.suffix_rfl
    | cons i pre => exact (List.suffix_cons g chain).trans (List.suffix_append pre _)
  rcases h.near with hsuffix | ⟨i, hcons⟩
  · exact hbelow.trans ((List.tail_suffix _).trans hsuffix)
  · rwa [hcons] at hbelow

theorem Act.Panics.after (h : a.Panics env l l₁) (hjpt : l₁.jpt ≠ []) :
    Ymd.after env l a = .run (longjmp 1 l₁.jpt l₁) := by
  have hsettle : ∀ {α : Type} {x : EStateM.Result Stop Ctx α} {msg : Bytes},
      x = .error (.panic msg) l₁ → settle x = .run (longjmp 1 l₁.jpt l₁) := by
    rintro α x msg rfl
    exact if_neg hjpt
  cases a with
  | exec =>
      obtain ⟨msg, hrun⟩ := h
      exact hsettle hrun
  | prim p =>
      obtain ⟨msg, hrun⟩ := h
      exact hsettle hrun
  | call kont fn argc =>
      obtain ⟨msg, hrun⟩ := h
      exact hsettle hrun
  | ret rv =>
      obtain ⟨msg, hrun⟩ := h
      exact hsettle hrun
  | panic msg =>
      rw [show l₁ = l from h] at hsettle ⊢
      exact hsettle (x := (throw (.panic msg) : VmM Unit) l) rfl
  | error => exact h.elim
  | exit =>
      rw [show l₁ = l from h] at hjpt ⊢
      exact if_neg hjpt

theorem Delivered.framed {g : CallInfo} {chain : List CallInfo} (h : Delivered g chain l')
    (hrooted : Rooted chain) : Framed l' :=
  ⟨by rw [h.jpt, h.info], by rw [h.info]; exact hrooted⟩

/-- How the chain of frames develops in a step. -/
inductive Moves (env : Env) (l : Ctx) (a : Act) : List CallInfo → Prop
  | stays (f : Nat → Nat) : Moves env l a (advanced f l.info)
  | enters {c : Call} {base clear : Nat} {fn : Func} (hcall : callOf env l a = some c)
      (hbegins : l.Begins c base clear) (hfn : l.heap.obj c.fn = some (.func fn)) :
      Moves env l a (⟨c.fn, 0, base, c.kont, l.argsOf c⟩ :: l.info)
  | leaves {info : CallInfo} {chain : List CallInfo} (hinfo : l.info = info :: chain) :
      Moves env l a (resumed info.kont chain)
  | jumps {chain : List CallInfo} (hsuffix : chain <:+ l.info) : Moves env l a chain

theorem rooted_resumed {info : CallInfo} {chain : List CallInfo} (h : Rooted (info :: chain)) :
    Rooted (resumed info.kont chain) := by
  have hchain := h.suffix (List.suffix_cons info chain)
  unfold resumed
  cases info.kont with
  | exec adjust => exact hchain.advanced _
  | native => exact hchain
  | pcall => exact hchain
  | root => exact hchain

theorem handlers_resumed (kont : Kont) (chain : List CallInfo) :
    handlers (resumed kont chain) = handlers chain := by
  unfold resumed
  cases kont with
  | exec adjust => exact handlers_advanced _ chain
  | native => rfl
  | pcall => rfl
  | root => rfl

/-- A return drops the frame, and its handler where it has one. -/
theorem framed_leave {rv : Int} (hframed : Framed l) (hleave : leave rv l = .ok () l') :
    ∃ info chain, l.info = info :: chain ∧ Framed l' ∧ l.heap.Grows l'.heap ∧
      l'.info = resumed info.kont chain := by
  rcases leave_cases rv l with ⟨f, l₁, hfail⟩ | ⟨info, chain, l₁, hinfo, hfinal, heq⟩
  · cases hleave.symm.trans hfail
  have hup : Up 0 l l₁ := up_finalArgv.ok hfinal
  obtain ⟨hinfo', hheap, hjpt⟩ := resume_ok (heq.symm.trans hleave)
  have hframes : l'.info = resumed info.kont chain := hinfo'
  have hrooted : Rooted (info :: chain) := hinfo ▸ hframed.rooted
  refine ⟨info, chain, hinfo, ⟨?_, ?_⟩, ?_, hframes⟩
  · have hsame : l₁.jpt = handlers (info :: chain) := by
      rw [hup.jpt, hframed.jpt, hinfo]
    rw [hjpt, hframes, handlers_resumed]
    change (if info.kont.catches then l₁.jpt.tail else l₁.jpt) = _
    rw [hsame]
    -- the handler of a call goes with its frame
    cases hcatches : info.kont.catches with
    | true =>
        rw [if_pos rfl, handlers_of_catches hcatches]
        rfl
    | false => rw [if_neg Bool.false_ne_true, handlers_of_not hcatches]
  · rw [hframes]
    exact rooted_resumed hrooted
  · rw [hheap]
    exact hup.heap

/-- Every step keeps the handlers those of the frames. -/
theorem framed_after (hframed : Framed l) (h : after env l a = .run l') :
    Framed l' ∧ l.heap.Grows l'.heap ∧ Moves env l a l'.info := by
  cases stepTo_of_after env h with
  | @stays l₁ f heffect hstays =>
      rw [hstays]
      refine ⟨⟨?_, ?_⟩, .of_effect heffect.heap, ?_⟩
      · rw [withPc_info, handlers_advanced, heffect.info, ← hframed.jpt]
        exact heffect.jpt
      · rw [withPc_info, heffect.info]
        exact hframed.rooted.advanced f
      · rw [withPc_info, heffect.info]
        exact .stays f
  | @enters c hcall henter =>
      rcases enter_chain hframed c with ⟨f, l₂, hfail⟩ | ⟨base, clear, hbegins, hframed', hgrows, hinfo⟩
      · cases henter.symm.trans hfail
      · rw [henter] at hframed' hgrows hinfo
        refine ⟨hframed', hgrows, ?_⟩
        rw [show l'.info = _ from hinfo]
        obtain ⟨fn, hfn⟩ := callee_of_enter henter
        exact .enters hcall hbegins hfn
  | @leaves rv l₁ heffect hleave =>
      have hframed₁ : Framed l₁ :=
        ⟨by rw [heffect.jpt, heffect.info, hframed.jpt], heffect.info ▸ hframed.rooted⟩
      obtain ⟨info, chain, hinfo, hframed', hgrows, hinfo'⟩ := framed_leave hframed₁ hleave
      refine ⟨hframed', (Heap.Grows.of_effect heffect.heap).trans hgrows, ?_⟩
      rw [hinfo']
      exact .leaves (heffect.info.symm.trans hinfo)
  | @panics l₁ hpanics hjpt hjump =>
      have hraised := hpanics.raised hframed
      have hne : l₁.info ≠ [] := by
        intro hnil
        rw [hraised.framed.jpt, hnil] at hjpt
        exact hjpt rfl
      obtain ⟨g, chain, -, hsuffix, hdelivered⟩ := hraised.delivered hne
      rw [← hjump] at hdelivered
      refine ⟨hdelivered.framed (hframed.rooted.suffix hsuffix), ?_, ?_⟩
      · rw [hjump, longjmp_heap]
        exact hraised.heap
      · rw [hdelivered.info]
        exact .jumps hsuffix
  | raises ha hraise =>
      obtain ⟨g, chain, ⟨pre, hinfo, -, -⟩, hdelivered, hgrows⟩ := ymdError_delivered hframed hraise
      have hsuffix : chain <:+ l.info := by
        rw [hinfo]
        exact (List.suffix_cons g chain).trans (List.suffix_append pre _)
      refine ⟨hdelivered.framed (hframed.rooted.suffix hsuffix), hgrows, ?_⟩
      rw [hdelivered.info]
      exact .jumps hsuffix

/-! ## Runs -/

/-- The machine is well formed, unless it has crashed. -/
def Mach.Sound : Mach → Prop
  | .run l => l.heap.Ok ∧ Framed l
  | .crashed _ => True

theorem sound_step {m m' : Mach} (hsound : m.Sound) (hstep : Step env m a m') : m'.Sound := by
  obtain ⟨l, rfl, -, rfl⟩ := hstep
  cases hafter : after env l a with
  | run l' =>
      obtain ⟨hframed, hgrows, -⟩ := framed_after hsound.2 hafter
      exact ⟨hgrows.ok hsound.1, hframed⟩
  | crashed f => trivial

theorem Ctx.Initial.sound (hinit : l.Initial) : (Mach.run l).Sound := by
  refine ⟨⟨?_, ?_, ?_⟩, ?_, ?_⟩
  · exact fun o fn core hfn => absurd hfn (hinit.data o fn)
  · exact fun o fn a hfn => absurd hfn (hinit.data o fn)
  · exact fun o fn o' fn' a hfn => absurd hfn (hinit.data o fn)
  · rw [hinit.jpt, hinit.info]
    rfl
  · rw [hinit.info]
    intro pre info hnil
    simp at hnil

theorem sound_of_runs {guard : Mach → Act → Prop} (hinit : l.Initial) {m : Mach}
    (hrun : Runs (Step env) guard (.run l) m) : m.Sound :=
  hrun.invariant (fun _ _ _ hsound _ hstep => sound_step hsound hstep) hinit.sound

/-! ## Entry points -/

theorem after_call (h : callOf env l a = some c) : after env l a = settle (enter c l) := by
  cases a with
  | exec =>
      unfold callOf at h
      cases hinst : execInst env l with
      | error stop l₁ =>
          rw [hinst] at h
          cases h
      | ok x l₁ =>
          rw [hinst] at h
          cases x with
          | call c' =>
              cases h
              obtain ⟨rfl, -⟩ := execInst_call env hinst
              change settle (vmRound env l₁) = _
              rw [vmRound, bind_of_ok hinst]
          | next => cases h
          | jump pc => cases h
          | ret rv => cases h
  | call kont fn argc =>
      cases h
      rfl
  | prim p => cases h
  | ret rv => cases h
  | panic msg => cases h
  | error => cases h
  | exit => cases h

/-- The chain while a call runs that was made in front of `chain`, and behind it: it
has returned, or a jump has passed its frame over. -/
def CallChain (kont : Kont) (chain infos : List CallInfo) : Prop :=
  (∃ pre g, infos = pre ++ g :: chain ∧ g.kont = kont) ∨ infos = chain ∨
    infos = resumed kont chain ∨ infos <:+ chain ∧ infos.length < chain.length

theorem callChain_of_suffix {kont : Kont} {chain infos : List CallInfo} (h : infos <:+ chain) :
    CallChain kont chain infos := by
  rcases h.length_le.lt_or_eq with hlt | heq
  · exact .inr (.inr (.inr ⟨h, hlt⟩))
  · exact .inr (.inl (h.eq_of_length heq))

theorem suffix_cases {pre chain infos : List CallInfo} {g : CallInfo}
    (h : infos <:+ pre ++ g :: chain) :
    (∃ pre', infos = pre' ++ g :: chain) ∨ infos <:+ chain := by
  induction pre with
  | nil =>
      rcases List.suffix_cons_iff.1 h with rfl | hsuffix
      · exact .inl ⟨[], rfl⟩
      · exact .inr hsuffix
  | cons i pre ih =>
      rcases List.suffix_cons_iff.1 h with rfl | hsuffix
      · exact .inl ⟨i :: pre, rfl⟩
      · exact ih hsuffix

theorem length_resumed (kont : Kont) (chain : List CallInfo) :
    (resumed kont chain).length = chain.length := by
  unfold resumed
  cases kont <;> cases chain <;> rfl

/-- While there is a frame in front of the chain the call was made in, that call runs. -/
theorem CallChain.inside {kont : Kont} {chain infos : List CallInfo} (h : CallChain kont chain infos)
    (hlt : chain.length < infos.length) : ∃ pre g, infos = pre ++ g :: chain ∧ g.kont = kont := by
  rcases h with hinside | heq | heq | ⟨-, hshort⟩
  · exact hinside
  · rw [heq] at hlt
    omega
  · rw [heq, length_resumed] at hlt
    omega
  · omega

theorem Moves.callChain {kont : Kont} {chain infos : List CallInfo}
    (h : CallChain kont chain l.info) (hlt : chain.length < l.info.length)
    (hmoves : Moves env l a infos) : CallChain kont chain infos := by
  obtain ⟨pre, g, hinside, hg⟩ := h.inside hlt
  cases hmoves with
  | stays f =>
      rw [hinside]
      cases pre with
      | nil => exact .inl ⟨[], _, rfl, hg⟩
      | cons i pre => exact .inl ⟨_ :: pre, g, rfl, hg⟩
  | enters _ _ _ => exact .inl ⟨_ :: pre, g, congrArg _ hinside, hg⟩
  | @leaves info rest hinfo =>
      rw [hinside] at hinfo
      cases pre with
      | nil =>
          cases hinfo
          rw [hg]
          exact .inr (.inr (.inl rfl))
      | cons i pre =>
          cases hinfo
          unfold resumed
          have hstay : ∀ f, CallChain kont chain (advanced f (pre ++ g :: chain)) := by
            intro f
            cases pre with
            | nil => exact .inl ⟨[], _, rfl, hg⟩
            | cons i pre => exact .inl ⟨_ :: pre, g, rfl, hg⟩
          cases info.kont with
          | exec adjust => exact hstay _
          | native => exact .inl ⟨pre, g, rfl, hg⟩
          | pcall => exact .inl ⟨pre, g, rfl, hg⟩
          | root => exact .inl ⟨pre, g, rfl, hg⟩
  | jumps hsuffix =>
      rw [hinside] at hsuffix
      rcases suffix_cases hsuffix with ⟨pre', rfl⟩ | hsuffix
      · exact .inl ⟨pre', g, rfl, hg⟩
      · exact callChain_of_suffix hsuffix

/-- A call has not ended: there is a frame in front of the chain it was made in. -/
def Mach.Above (chain : List CallInfo) (m : Mach) : Prop :=
  ∃ l, m = .run l ∧ chain.length < l.info.length

theorem callChain_of_runs {l₂ : Ctx} {m : Mach} (hframed : Framed l)
    (hcall : callOf env l a = some c) (hstep : Step env (.run l) a m)
    (hrun : Runs (Step env) (fun m _ => m.Above l.info) m (.run l₂)) :
    Framed l₂ ∧ CallChain c.kont l.info l₂.info := by
  have hinv : ∀ l₂, Mach.run l₂ = m → Framed l₂ ∧ CallChain c.kont l.info l₂.info := by
    rintro l₂ rfl
    obtain ⟨_, hl, -, hafter⟩ := hstep
    cases hl
    refine ⟨(framed_after hframed hafter.symm).1, ?_⟩
    rw [after_call hcall] at hafter
    rcases settle_eq_run hafter.symm with ⟨u, henter⟩ | ⟨msg, l₁, hpanic, hjpt, hjump⟩
    · rcases enter_chain hframed c with ⟨f, l₁, hfail⟩ | ⟨base, clear, -, -, -, hinfo⟩
      · cases henter.symm.trans hfail
      · rw [henter] at hinfo
        exact .inl ⟨[], _, hinfo, rfl⟩
    · have hraised := raised_enter hframed hpanic
      have hne : l₁.info ≠ [] := by
        intro hnil
        rw [hraised.framed.jpt, hnil] at hjpt
        exact hjpt rfl
      obtain ⟨g, chain, -, hsuffix, hdelivered⟩ := hraised.delivered hne
      rw [hjump, hdelivered.info]
      exact callChain_of_suffix hsuffix
  have hpreserved : ∀ t b u, (∀ l₂, t = Mach.run l₂ → Framed l₂ ∧ CallChain c.kont l.info l₂.info) →
      t.Above l.info → Step env t b u →
      ∀ l₂, u = Mach.run l₂ → Framed l₂ ∧ CallChain c.kont l.info l₂.info := by
    rintro t b u hinv ⟨l₁, rfl, habove⟩ hstep' l₂ rfl
    obtain ⟨_, hl, -, hafter⟩ := hstep'
    cases hl
    obtain ⟨hframed₁, hchain⟩ := hinv l₁ rfl
    obtain ⟨hframed₂, -, hmoves⟩ := framed_after hframed₁ hafter.symm
    exact ⟨hframed₂, hmoves.callChain hchain habove⟩
  exact hrun.invariant hpreserved (fun l₂ hm => hinv l₂ hm.symm) l₂ rfl

/-- How far a call has got that was made in `l`. Where it has returned, normally or not,
both chains are those it found, but for an instruction that made the call and has been
executed; a handler further below may have ended it. -/
inductive CallState (c : Call) (l l₂ : Ctx) : Prop
  | runs {pre : List CallInfo} {g : CallInfo} (hinfo : l₂.info = pre ++ g :: l.info)
      (hkont : g.kont = c.kont)
  | returned (hinfo : l₂.info = l.info ∨
        ∃ adjust, c.kont = .exec adjust ∧ l₂.info = advanced (· + 1) l.info)
      (hjpt : l₂.jpt = l.jpt)
  | passed (hsuffix : l₂.info <:+ l.info) (hlt : l₂.info.length < l.info.length)

theorem CallChain.state {l₂ : Ctx} (h : CallChain c.kont l.info l₂.info) (hframed : Framed l)
    (hframed₂ : Framed l₂) : CallState c l l₂ := by
  have hjpt : ∀ kont, l₂.info = resumed kont l.info → l₂.jpt = l.jpt := by
    intro kont heq
    rw [hframed₂.jpt, hframed.jpt, heq, handlers_resumed]
  rcases h with ⟨pre, g, hinfo, hkont⟩ | heq | heq | ⟨hsuffix, hlt⟩
  · exact .runs hinfo hkont
  · exact .returned (.inl heq) (hjpt .native heq)
  · refine .returned ?_ (hjpt c.kont heq)
    cases hkont : c.kont with
    | exec adjust => exact .inr ⟨adjust, rfl, by rw [heq, hkont]; rfl⟩
    | native => exact .inl (by rw [heq, hkont]; rfl)
    | pcall => exact .inl (by rw [heq, hkont]; rfl)
    | root => exact .inl (by rw [heq, hkont]; rfl)
  · exact .passed hsuffix hlt

/-! ## `ymd_main` -/

/-- The machine with the arguments of the program on the operand stack. -/
def Ctx.withArgv (l : Ctx) (argv : List Bytes) : Ctx :=
  { l with stk := (argv.map Variable.kstr).reverse ++ l.stk }

theorem withArgv_cons (l : Ctx) (z : Bytes) (argv : List Bytes) :
    ({ l with stk := .kstr z :: l.stk } : Ctx).withArgv argv = l.withArgv (z :: argv) := by
  simp [Ctx.withArgv]

theorem pushArgs_of_room {argv : List Bytes} (hroom : l.stk.length + argv.length ≤ maxStack) :
    pushArgs argv l = .ok () (l.withArgv argv) := by
  induction argv generalizing l with
  | nil => rfl
  | cons z argv ih =>
      rw [List.length_cons] at hroom
      rw [pushArgs, bind_of_ok (ymdPush_of_lt (by omega)), ih, withArgv_cons]
      rw [List.length_cons]
      omega

theorem pushArgs_of_full {argv : List Bytes} (hfull : maxStack < l.stk.length + argv.length)
    (hle : l.stk.length ≤ maxStack) : ∃ stop l', pushArgs argv l = .error stop l' := by
  induction argv generalizing l with
  | nil =>
      rw [List.length_nil] at hfull
      omega
  | cons z argv ih =>
      rw [List.length_cons] at hfull
      by_cases hlt : l.stk.length < maxStack
      · rw [pushArgs, bind_of_ok (ymdPush_of_lt hlt)]
        exact ih (by rw [List.length_cons]; omega) (by rw [List.length_cons]; omega)
      · exact ⟨_, _, bind_of_error (ymdPush_of_ge (Nat.not_lt.1 hlt))⟩

theorem callee_of_top {fn : Addr} (hfn : l.stk[0]? = some (.func fn)) :
    (do lift (funcOf (← ymdTop 0)) : VmM Addr) l = .ok fn l := by
  rw [bind_of_ok (ymdTop_of_getElem? hfn)]
  rfl

/-- With room on the operand stack `ymd_main` is a root call behind some pushes. -/
theorem ymdMain_of_room {argv : List Bytes} {fn : Addr} (hfn : l.stk[0]? = some (.func fn))
    (hroom : l.stk.length + argv.length ≤ maxStack) :
    ymdMain argv l = after env (l.withArgv argv) (.call .root fn argv.length) := by
  rw [ymdMain, callee_of_top hfn]
  have hpush : (do callJenter 1; pushArgs argv : VmM Unit) l =
      .ok () (({ l with jpt := ⟨1, l.info.length⟩ :: l.jpt } : Ctx).withArgv argv) := by
    exact pushArgs_of_room (l := { l with jpt := _ :: l.jpt }) hroom
  dsimp only
  rw [hpush]
  rfl

/-- Without it the jump of the panic goes where no `setjmp` has been. -/
theorem ymdMain_of_full {argv : List Bytes} {fn : Addr} (hfn : l.stk[0]? = some (.func fn))
    (hfull : maxStack < l.stk.length + argv.length) (hle : l.stk.length ≤ maxStack) :
    ymdMain argv l = .crashed (.bounds "l->jpt->core") := by
  obtain ⟨stop, l', hpanic⟩ :=
    pushArgs_of_full (l := { l with jpt := ⟨1, l.info.length⟩ :: l.jpt }) hfull hle
  have hpush : (do callJenter 1; pushArgs argv : VmM Unit) l = .error stop l' := hpanic
  rw [ymdMain, callee_of_top hfn]
  dsimp only
  rw [hpush]

theorem runs_withArgv {argv : List Bytes} (hroom : l.stk.length + argv.length ≤ maxStack)
    (henabled : l.info = [] ∨ l.inNative) :
    Runs (Step env) (fun _ _ => True) (.run l) (.run (l.withArgv argv)) := by
  induction argv generalizing l with
  | nil => exact .refl
  | cons z argv ih =>
      rw [List.length_cons] at hroom
      have hstep : Step env (.run l) (.prim (.push (.kstr z)))
          (.run { l with stk := .kstr z :: l.stk }) := by
        refine ⟨l, rfl, henabled, ?_⟩
        change _ = settle (ymdPush (.kstr z) l)
        rw [ymdPush_of_lt (by omega)]
        rfl
      rw [← withArgv_cons]
      refine (Runs.single trivial hstep).trans (ih ?_ henabled)
      rw [List.length_cons]
      omega

/-! ## Error delivery -/

end

/-! ### Native functions below the host

The host has made three native functions and called the first one at the root. That one
calls the second one by `ymd_pcall`, which calls the third one.
-/

private def pcallActs (kont : Kont) : List Act :=
  [.prim (.nafn [] 0), .prim (.nafn [] 0), .prim (.nafn [] 0), .prim (.push (.func 1)),
    .call .root 1 0, .prim (.push (.func 2)), .call .pcall 2 0, .prim (.push (.func 3)),
    .call kont 3 0]

private def inNested (kont : Kont) : Ctx :=
  (execute quietEnv (pcallActs kont) (.initial fun _ => 1)).getD (.initial fun _ => 1)

private theorem runs_inNested (kont : Kont)
    (h : (execute quietEnv (pcallActs kont) (.initial fun _ => 1)).isSome = true) :
    Runs (Step quietEnv) (fun _ _ => True) (.run (.initial fun _ => 1)) (.run (inNested kont)) :=
  runs_execute quietEnv h

private theorem info_of_konts {infos : List CallInfo} {k₁ k₂ k₃ : Kont}
    (h : infos.map CallInfo.kont = [k₃, k₂, k₁]) : ∃ i₃ i₂ i₁ : CallInfo,
      infos = [i₃, i₂, i₁] ∧ i₃.kont = k₃ ∧ i₂.kont = k₂ ∧ i₁.kont = k₁ := by
  obtain ⟨i₃, rest, rfl, h₃, h⟩ := List.map_eq_cons_iff.1 h
  obtain ⟨i₂, rest, rfl, h₂, h⟩ := List.map_eq_cons_iff.1 h
  obtain ⟨i₁, rest, rfl, h₁, h⟩ := List.map_eq_cons_iff.1 h
  obtain rfl := List.map_eq_nil_iff.1 h
  exact ⟨i₃, i₂, i₁, rfl, h₃, h₂, h₁⟩

end Ymd
