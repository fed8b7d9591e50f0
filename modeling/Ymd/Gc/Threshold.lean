import Ymd.Foundation.Outcome
import Ymd.Foundation.Shifts
import Ymd.Value.Variable
import Mathlib.Data.Rat.Init
import Mathlib.Tactic.SplitIfs

/-! # The threshold of the collector

Every collection doubles, halves or keeps `gc->threshold`, and nothing looks at
the result. Zero is where both shifts end: the threshold stays positive for as
long as the collections that double it and those that halve it are balanced.
-/

namespace Ymd.Gc

open Foundation

/-- `struct gc_struct` with the bytes in use. `collected` is not in the source: what
every collection so far has reclaimed and left in use, the newest first. -/
structure GcStruct where
  threshold : BitVec 64
  used : BitVec 64
  last : BitVec 64
  pause : Int
  grab : Int
  collected : List (BitVec 64 × BitVec 64)
  deriving DecidableEq

/-- What a collection finds if one is made: the sizes of the blocks that are freed,
the number of the grabbed objects, and `vm->tick`. -/
structure Found where
  freed : List (BitVec 64)
  grab : Nat
  tick : BitVec 64

/-- `GC_THESHOLD`. -/
def gcTheshold : BitVec 32 := 10 * 1024

/-- `gc_init`, in memory that is zero. -/
def gcInit (k : BitVec 32) : GcStruct := ⟨k.signExtend 64, 0, 0, 0, 0, []⟩

/-! ## Collections -/

/-- A quotient of sizes; divided by 0 it is infinite, or not a number. -/
inductive Rate
  | of (q : ℚ)
  | infinite
  | nan

namespace Rate

def lt : Rate → ℚ → Bool
  | of q, bound => q < bound
  | _, _ => false

def ge : Rate → ℚ → Bool
  | of q, bound => bound ≤ q
  | infinite, _ => true
  | nan, _ => false

end Rate

/-- `rate` of `gc_adjust`. -/
def gcRate (prev used : BitVec 64) : Rate :=
  if used = 0 then if prev = 0 then .nan else .infinite
  else .of (prev.toNat / used.toNat)

namespace GcStruct

/-- `gc_adjust`, without the line for `logf`. -/
def gcAdjust (gc : GcStruct) (tick prev : BitVec 64) : GcStruct :=
  let rate := gcRate prev gc.used
  let threshold :=
    if rate.lt (1 / 10) then gc.threshold <<< 1
    else if rate.ge (6 / 10) then gc.threshold >>> 1
    else gc.threshold
  { gc with
    threshold := threshold
    last := tick
    grab := 0
    collected := (prev, gc.used) :: gc.collected }

/-- `gc_sweep`: every block that is freed is taken from the bytes in use. -/
def gcSweep (gc : GcStruct) (found : Found) : GcStruct × BitVec 64 :=
  let used := found.freed.foldl (fun used inc => used - inc) gc.used
  ({ gc with used := used, grab := gc.grab + found.grab }, gc.used - used)

/-- `gc_adjust` behind `gc_sweep`. -/
def collect (gc : GcStruct) (found : Found) : GcStruct :=
  let (gc, prev) := gc.gcSweep found
  gc.gcAdjust found.tick prev

/-- `gc_record`, whose result is always 0. -/
def gcRecord (gc : GcStruct) (found : Found) (inc : BitVec 64) (neg : Bool) : GcStruct :=
  let gc := { gc with used := if neg then gc.used - inc else gc.used + inc }
  if neg then gc
  else if gc.threshold < gc.used then
    if gc.pause = 0 then gc.collect found else gc
  else gc

end GcStruct

/-- `enum gc_state`. -/
inductive GcState
  | pause | idle | mark | sweep

namespace GcStruct

/-- The `switch` of `gc_active`; marks are not in `struct gc_struct`. -/
def gcAct (gc : GcStruct) (found : Found) : GcState → Except Fault GcStruct
  | .pause =>
      if gc.pause + 1 < 2 ^ 31 then .ok { gc with pause := gc.pause + 1 } else .error .overflow
  | .idle => .ok { gc with pause := gc.pause - 1 }
  | .mark => .ok gc
  | .sweep => .ok (if gc.pause = 0 then gc.collect found else gc)

/-- `gc_active`. -/
def gcActive (gc : GcStruct) (found : Found) (act : GcState) : Except Fault GcStruct := do
  let gc ← gc.gcAct found act
  if gc.pause < 0 then throw (.assertion "gc->pause >= 0")
  return gc

/-- `libx_gc`. The names end at the first 0. -/
def libxGc (gc : GcStruct) (found : Found) (arg0 : Bytes) : Except Fault GcStruct :=
  let name := arg0.takeWhile fun c => c ≠ 0
  -- "pause", "resume" and "collect"
  if name = [112, 97, 117, 115, 101] then gc.gcActive found .pause
  else if name = [114, 101, 115, 117, 109, 101] then gc.gcActive found .idle
  else if name = [99, 111, 108, 108, 101, 99, 116] then do
    let gc ← gc.gcActive found .mark
    gc.gcActive found .sweep
  else return gc

end GcStruct

/-- What comes to the collector: an allocation or a release is recorded, or the
program calls `gc`. -/
inductive GcOp
  | record (inc : BitVec 64) (neg : Bool)
  | gc (arg0 : Bytes)

/-- One operation. -/
def gcStep (gc : GcStruct) (op : GcOp × Found) : Except Fault GcStruct :=
  match op with
  | (.record inc neg, found) => return gc.gcRecord found inc neg
  | (.gc arg0, found) => gc.libxGc found arg0

/-- A run of the collector. -/
def gcRun (ops : List (GcOp × Found)) : Except Fault GcStruct :=
  ops.foldlM gcStep (gcInit gcTheshold)

/-! ## The threshold -/

/-- What a collection does to the threshold: 1 for a doubling, -1 for a halving. -/
def move (prev used : BitVec 64) : Int :=
  if (gcRate prev used).lt (1 / 10) then 1
  else if (gcRate prev used).ge (6 / 10) then -1
  else 0

/-- How far the collections of a list move the threshold together. -/
def moved (collected : List (BitVec 64 × BitVec 64)) : Int :=
  (collected.map fun c => move c.1 c.2).sum

namespace GcStruct

/-- The threshold is what the collections have made of the first one. -/
def Shifted (gc : GcStruct) : Prop :=
  gc.threshold = shifts (gc.collected.map fun c => move c.1 c.2) 10240

variable {gc gc' : GcStruct} {found : Found}

theorem threshold_gcAdjust (tick prev : BitVec 64) :
    (gc.gcAdjust tick prev).threshold = shiftBy (move prev gc.used) gc.threshold := by
  simp only [gcAdjust, move]
  by_cases hlow : (gcRate prev gc.used).lt (1 / 10) = true
  · rw [if_pos hlow, if_pos hlow]
    rfl
  rw [if_neg hlow, if_neg hlow]
  by_cases hhigh : (gcRate prev gc.used).ge (6 / 10) = true
  · rw [if_pos hhigh, if_pos hhigh]
    rfl
  rw [if_neg hhigh, if_neg hhigh]
  exact (BitVec.shiftLeft_zero _).symm

theorem Shifted.collect (h : gc.Shifted) : (gc.collect found).Shifted := by
  change ((gc.gcSweep found).1.gcAdjust found.tick (gc.gcSweep found).2).Shifted
  unfold Shifted
  rw [threshold_gcAdjust]
  change shiftBy _ gc.threshold = shifts (move _ _ :: gc.collected.map _) _
  rw [h]
  rfl

theorem Shifted.gcRecord (h : gc.Shifted) (inc : BitVec 64) (neg : Bool) :
    (gc.gcRecord found inc neg).Shifted := by
  have hused : ∀ used, Shifted { gc with used := used } := fun _ => h
  simp only [GcStruct.gcRecord]
  split_ifs
  next => exact hused _
  next => exact (hused _).collect
  next => exact hused _
  next => exact hused _

theorem Shifted.gcAct (h : gc.Shifted) {act : GcState} (hact : gc.gcAct found act = .ok gc') :
    gc'.Shifted := by
  have hpause : ∀ pause, Shifted { gc with pause := pause } := fun _ => h
  cases act with
  | pause =>
      simp only [GcStruct.gcAct] at hact
      split at hact
      next =>
        cases hact
        exact hpause _
      next => cases hact
  | idle =>
      cases hact
      exact hpause _
  | mark =>
      cases hact
      exact h
  | sweep =>
      cases hact
      split_ifs
      next => exact h.collect
      next => exact h

theorem Shifted.gcActive (h : gc.Shifted) {act : GcState}
    (hrun : gc.gcActive found act = .ok gc') : gc'.Shifted := by
  rw [GcStruct.gcActive] at hrun
  cases hact : gc.gcAct found act with
  | error f =>
      rw [hact] at hrun
      cases hrun
  | ok gc₁ =>
      rw [hact, except_bind_of_ok rfl] at hrun
      have h₁ := h.gcAct hact
      by_cases hneg : gc₁.pause < 0
      · rw [if_pos hneg] at hrun
        cases hrun
      · rw [if_neg hneg] at hrun
        cases hrun
        exact h₁

theorem Shifted.libxGc (h : gc.Shifted) {arg0 : Bytes}
    (hrun : gc.libxGc found arg0 = .ok gc') : gc'.Shifted := by
  unfold GcStruct.libxGc at hrun
  dsimp only at hrun
  split at hrun
  next => exact h.gcActive hrun
  next =>
    split at hrun
    next => exact h.gcActive hrun
    next =>
      split at hrun
      next =>
        cases hmark : gc.gcActive found .mark with
        | error f =>
            rw [hmark] at hrun
            cases hrun
        | ok marked =>
            rw [hmark, except_bind_of_ok rfl] at hrun
            exact (h.gcActive hmark).gcActive hrun
      next =>
        cases hrun
        exact h

theorem Shifted.step (h : gc.Shifted) {op : GcOp × Found} (hstep : gcStep gc op = .ok gc') :
    gc'.Shifted := by
  obtain ⟨op, found⟩ := op
  cases op with
  | record inc neg =>
      cases hstep
      exact h.gcRecord inc neg
  | gc arg0 => exact h.libxGc hstep

end GcStruct

/-- The threshold is shifted by the collections of the run. -/
theorem shifted_run (ops : List (GcOp × Found)) {gc gc' : GcStruct} (h : gc.Shifted)
    (hrun : ops.foldlM gcStep gc = .ok gc') : gc'.Shifted := by
  induction ops generalizing gc with
  | nil =>
      cases hrun
      exact h
  | cons op ops ih =>
      rw [List.foldlM_cons] at hrun
      cases hstep : gcStep gc op with
      | error f =>
          rw [hstep] at hrun
          cases hrun
      | ok gc₁ =>
          rw [hstep] at hrun
          exact ih (h.step hstep) hrun

/-- The two bits of the first threshold. -/
theorem getLsbD_gcTheshold (j : Nat) :
    (10240 : BitVec 64).getLsbD j = true ↔ j = 11 ∨ j = 13 := by
  constructor
  · intro hbit
    have hlt := BitVec.lt_of_getLsbD hbit
    have hall : ∀ j < 64, (10240 : BitVec 64).getLsbD j = true → j = 11 ∨ j = 13 := by decide
    exact hall j hlt hbit
  · rintro (rfl | rfl) <;> decide

/-- After any run the threshold is positive exactly when the doublings and the
halvings have always been so balanced that one of its two bits was kept. -/
theorem threshold_pos_iff {ops : List (GcOp × Found)} {gc : GcStruct} (hrun : gcRun ops = .ok gc) :
    0 < gc.threshold ↔
      (∀ early ∈ gc.collected.tails, -11 ≤ moved early ∧ moved early ≤ 52) ∨
      (∀ early ∈ gc.collected.tails, -13 ≤ moved early ∧ moved early ≤ 50) := by
  have hinit : (gcInit gcTheshold).Shifted := by
    unfold GcStruct.Shifted
    decide
  have hshifted := shifted_run ops hinit hrun
  have hstays : ∀ j : Nat, Stays 64 (gc.collected.map fun c => move c.1 c.2) j ↔
      ∀ early ∈ gc.collected.tails, 0 ≤ j + moved early ∧ j + moved early < 64 :=
    stays_map _ gc.collected
  calc 0 < gc.threshold
      ↔ gc.threshold ≠ 0 := BitVec.pos_iff_ne_zero gc.threshold
    _ ↔ ∃ j : Nat, (10240 : BitVec 64).getLsbD j = true ∧
          Stays 64 (gc.collected.map fun c => move c.1 c.2) j := by
        rw [hshifted, shifts_ne_zero_iff]
    _ ↔ Stays 64 (gc.collected.map fun c => move c.1 c.2) 11 ∨
          Stays 64 (gc.collected.map fun c => move c.1 c.2) 13 := by
        simp only [getLsbD_gcTheshold, or_and_right, exists_or, exists_eq_left]
    _ ↔ _ := by
        rw [hstays, hstays]
        apply or_congr
        · apply forall₂_congr
          intro early _
          omega
        · apply forall₂_congr
          intro early _
          omega

/-- An allocation of 1000 bytes, and `n` calls of `gc("collect")` that find nothing to
free. -/
def idleCollections (n : Nat) : List (GcOp × Found) :=
  (.record 1000 false, ⟨[], 0, 0⟩) ::
    List.replicate n (.gc [99, 111, 108, 108, 101, 99, 116], ⟨[], 0, 0⟩)

/-- 52 of them leave a threshold of `2 ^ 63`. -/
theorem threshold_pos_idle : ∃ gc, gcRun (idleCollections 52) = .ok gc ∧ 0 < gc.threshold := by
  have hbalanced : (gcRun (idleCollections 52)).toOption.any fun gc =>
      ∀ early ∈ gc.collected.tails, -11 ≤ moved early ∧ moved early ≤ 52 := by
    decide +kernel
  cases hrun : gcRun (idleCollections 52) with
  | error f =>
      rw [hrun] at hbalanced
      cases hbalanced
  | ok gc =>
      rw [hrun] at hbalanced
      exact ⟨gc, rfl, (threshold_pos_iff hrun).2 (.inl (of_decide_eq_true hbalanced))⟩

/-- One more makes it 0. -/
theorem threshold_zero_idle : ¬ ∀ (ops : List (GcOp × Found)) (gc : GcStruct),
    gcRun ops = .ok gc → 0 < gc.threshold := by
  intro hall
  have hzero : (gcRun (idleCollections 53)).toOption.any fun gc => ¬ 0 < gc.threshold := by
    decide +kernel
  cases hrun : gcRun (idleCollections 53) with
  | error f =>
      rw [hrun] at hzero
      cases hzero
  | ok gc =>
      rw [hrun] at hzero
      exact of_decide_eq_true hzero (hall _ gc hrun)

end Ymd.Gc
