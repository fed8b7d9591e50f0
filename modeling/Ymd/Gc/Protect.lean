import Ymd.Gc.Fetch

/-! # Strings that are held

A fetcher holds its string until it releases it. The gray bit protects the
string of one fetcher that made it; it does not protect a string that a fetch
found white in the pool, nor one that another holder has released.
-/

namespace Ymd.Gc

open Foundation

/-- A machine and the strings that are fetched and not released yet, once for
each fetcher. -/
structure Holding where
  vm : Vm
  held : List Addr

/-- Neither a fetch nor a release. -/
def Act.quiet : Act → Prop
  | .fetch _ _ | .release _ => False
  | .mark | .sweepPool | .sweep | .other => True

/-- A step of a machine, with who holds which string. A string is released by
one of its holders. -/
inductive HoldStep (final : BitVec 64 → Bytes → Int) (depth : Nat) : Holding → Act → Holding → Prop
  | fetch {vm vm' : Vm} {held : List Addr} {z : Bytes} {o : Addr}
      (hstep : Step final depth vm (.fetch z o) vm') :
      HoldStep final depth ⟨vm, held⟩ (.fetch z o) ⟨vm', o :: held⟩
  | release {vm vm' : Vm} {held : List Addr} {o : Addr} (hheld : o ∈ held)
      (hstep : Step final depth vm (.release o) vm') :
      HoldStep final depth ⟨vm, held⟩ (.release o) ⟨vm', held.erase o⟩
  | quiet {vm vm' : Vm} {held : List Addr} {act : Act} (hquiet : act.quiet)
      (hstep : Step final depth vm act vm') : HoldStep final depth ⟨vm, held⟩ act ⟨vm', held⟩

/-- A fetch finds its string gray, or not at all; a string is released by its
only holder. -/
def Alone (h : Holding) : Act → Prop
  | .fetch z _ => ∀ o ∈ h.vm.pooled, h.vm.content o = some z →
      hasBits h.vm.marked o grayBit0 = true
  | .release o => h.held.count o ≤ 1
  | .mark | .sweepPool | .sweep | .other => True

/-- What is held is a string, and gray. -/
def Protected (h : Holding) : Prop :=
  ∀ o ∈ h.held, (∃ z, h.vm.content o = some z) ∧ hasBits h.vm.marked o grayBit0 = true

section

variable {final : BitVec 64 → Bytes → Int} {depth : Nat} {vm vm' : Vm} {act : Act}

theorem Protected.spares {held : List Addr} (h : Protected ⟨vm, held⟩) (hspares : Spares vm vm') :
    Protected ⟨vm', held⟩ := by
  intro o ho
  obtain ⟨⟨z, hz⟩, hgray⟩ := h o ho
  obtain ⟨hz', hgray'⟩ := hspares o z hz hgray
  exact ⟨⟨z, hz'⟩, hgray'⟩

theorem Step.spares (h : Interned [] vm) (hquiet : act.quiet)
    (hstep : Step final depth vm act vm') : Spares vm vm' := by
  cases hstep with
  | fetch => cases hquiet
  | release => cases hquiet
  | mark hrun => exact (gcMark_shrunk h hrun).spares
  | sweepPool hrun => exact (gcKpoolSweep_shrunk h hrun).spares
  | sweep hrun => exact (gcSweep_shrunk h hrun).spares
  | other hother => exact hother.shrunk.spares

/-- A release takes the gray bit of its own string alone. -/
theorem gray_gcRelease {o a : Addr} (hne : a ≠ o) :
    hasBits (vm.gcRelease o).marked a grayBit0 = hasBits vm.marked a grayBit0 :=
  congrArg (fun bits => decide (bits &&& grayBit0 ≠ 0)) (Function.update_of_ne hne _ _)

theorem HoldStep.interned {h h' : Holding} (hstep : HoldStep final depth h act h')
    (hin : Interned [] h.vm) : Interned [] h'.vm := by
  cases hstep with
  | fetch hstep => exact hstep.interned hin
  | release _ hstep => exact hstep.interned hin
  | quiet _ hstep => exact hstep.interned hin

/-- What one step preserves. -/
theorem HoldStep.protected {h h' : Holding} (hstep : HoldStep final depth h act h')
    (hin : Interned [] h.vm) (halone : Alone h act) (hprotected : Protected h) :
    Protected h' := by
  cases hstep with
  | fetch hstep =>
      cases hstep with
      | fetch hrun =>
          obtain ⟨_, hspares, hz, hfound⟩ := kstrFetch_ok hin hrun
          apply List.forall_mem_cons.2 ⟨⟨⟨_, hz⟩, ?_⟩, hprotected.spares hspares⟩
          obtain hgray | ⟨hpooled, rfl⟩ := hfound
          · exact hgray
          · exact halone _ hpooled hz
  | @release vm _ held o hheld hstep =>
      cases hstep with
      | release =>
          intro a ha
          change held.count o ≤ 1 at halone
          have hne : a ≠ o := by
            rintro rfl
            have hcount := List.count_pos_iff.2 ha
            rw [List.count_erase_self] at hcount
            omega
          obtain ⟨hz, hgray⟩ := hprotected a (List.mem_of_mem_erase ha)
          exact ⟨hz, (gray_gcRelease hne).trans hgray⟩
  | quiet hquiet hstep => exact hprotected.spares (hstep.spares hin hquiet)

/-- In a run whose fetches find their strings gray or not at all, and in which a
string has one holder when it is released, what is held is there. -/
theorem held_survives {h : Holding}
    (hrun : Runs (HoldStep final depth) Alone ⟨Vm.zero.kpoolInit, []⟩ h) :
    ∀ o ∈ h.held, ∃ z, h.vm.content o = some z := by
  have hprotected : Protected h := by
    apply hrun.invariant_of
    · exact fun _ _ _ hin _ hstep => hstep.interned hin
    · exact fun _ _ _ hin _ hprotected halone hstep => hstep.protected hin halone hprotected
    · exact kpoolInit_interned
    · exact fun o ho => absurd ho List.not_mem_nil
  exact fun o ho => (hprotected o ho).1

set_option maxRecDepth 4000 in
/-- A string that is fetched is there behind a sweep. -/
theorem held_survives_sweep :
    ∃ vm vm', Vm.zero.kpoolInit.kstrFetch (fun _ _ => 0) 0 false [97] = .ok (0, vm) ∧
      vm.gcSweep (fun _ _ => 0) = .ok vm' ∧ ∀ o ∈ [0], ∃ z, vm'.content o = some z := by
  have hrun : ∃ vm, Vm.zero.kpoolInit.kstrFetch (fun _ _ => 0) 0 false [97] = .ok (0, vm) ∧
      ∃ vm', vm.gcSweep (fun _ _ => 0) = .ok vm' := ⟨_, rfl, _, rfl⟩
  obtain ⟨vm, hfetch, vm', hsweep⟩ := hrun
  refine ⟨vm, vm', hfetch, hsweep, ?_⟩
  have halone : Alone ⟨Vm.zero.kpoolInit, []⟩ (.fetch [97] 0) := by
    intro o ho
    rw [Vm.pooled, Vm.kpoolInit, List.flatten_replicate_nil] at ho
    cases ho
  have hfirst := Runs.single halone (HoldStep.fetch (.fetch hfetch))
  have hsecond := Runs.tail (a := Act.sweep) hfirst trivial (.quiet trivial (.sweep hsweep))
  exact held_survives hsecond

/-- A string is made and released; a second fetch finds it white, and a
collection frees it while it is held. -/
def fetchTwice : Except Stop (List Addr × Bool) := do
  let (o, vm) ← withGlobal.kstrFetch (fun _ _ => 0) 1 false [97]
  let (o', vm) ← (vm.gcRelease o).kstrFetch (fun _ _ => 0) 1 false [97]
  let vm ← (vm.gcMark 1).mapError .fault
  let vm ← vm.gcSweep (fun _ _ => 0)
  return ([o, o'], (vm.obj o').isNone)

theorem fetchTwice_ok : fetchTwice.toOption = some ([1, 1], true) := by
  decide +kernel

/-- A string can be freed while it is held. -/
theorem held_freed :
    ¬ ∀ h, Runs (HoldStep (fun _ _ => 0) 1) (fun _ _ => True) ⟨Vm.zero.kpoolInit, []⟩ h →
      ∀ o ∈ h.held, ∃ z, h.vm.content o = some z := by
  intro hall
  have hok : fetchTwice = .ok ([1, 1], true) := by
    have hsome := fetchTwice_ok
    cases hrun : fetchTwice with
    | error stop =>
        rw [hrun] at hsome
        cases hsome
    | ok r =>
        rw [hrun] at hsome
        rw [Option.some.inj hsome]
  obtain ⟨⟨o, vm₁⟩, hfetch, hrun⟩ := except_bind_ok_iff.1 hok
  obtain ⟨⟨o', vm₂⟩, hagain, hrun⟩ := except_bind_ok_iff.1 hrun
  obtain ⟨vm₃, hmark, hrun⟩ := except_bind_ok_iff.1 hrun
  obtain ⟨vm₄, hsweep, hrun⟩ := except_bind_ok_iff.1 hrun
  have hresult := Except.ok.inj hrun
  obtain ⟨rfl, rfl⟩ : o = 1 ∧ o' = 1 := by simpa using congrArg Prod.fst hresult
  have hgone : vm₄.obj 1 = none := Option.isNone_iff_eq_none.1 (congrArg Prod.snd hresult)
  have hmark' : (vm₂.gcMark 1) = .ok vm₃ := by
    cases hm : vm₂.gcMark 1 with
    | error f =>
        rw [hm] at hmark
        cases hmark
    | ok vm =>
        rw [hm] at hmark
        cases hmark
        rfl
  -- the run makes the global map, fetches, releases and fetches again, and collects
  have hstart : Runs (HoldStep (fun _ _ => 0) 1) (fun _ _ => True) ⟨Vm.zero.kpoolInit, []⟩
      ⟨withGlobal, []⟩ :=
    .single (a := Act.other) trivial (.quiet trivial (.other withGlobal_other))
  have hfirst := hstart.tail trivial (HoldStep.fetch (.fetch hfetch))
  have hwhite := hfirst.tail trivial (HoldStep.release List.mem_cons_self .release)
  have hsecond := hwhite.tail trivial (HoldStep.fetch (.fetch hagain))
  have hmarked := hsecond.tail (a := Act.mark) trivial (.quiet trivial (.mark hmark'))
  have hswept := hmarked.tail (a := Act.sweep) trivial (.quiet trivial (.sweep hsweep))
  obtain ⟨z, hz⟩ := hall _ hswept 1 List.mem_cons_self
  rw [Vm.content, hgone] at hz
  cases hz

end

end Ymd.Gc
