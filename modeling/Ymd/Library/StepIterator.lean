import Ymd.Library.Iterators
import Ymd.Machine.Stack
import Mathlib.Tactic.IntervalCases
import Mathlib.Tactic.Ring

/-! # Ranges of integers

`step_iter` adds the step in every call, also behind the end of the range. The counter
wraps around, and then the range may begin again.
-/

namespace Ymd

open Foundation

/-- A range that ends at `m` goes on at `c`. -/
def Inside (m s c : Int) : Prop := (0 < s ∧ c < m) ∨ (s < 0 ∧ m < c)

instance (m s c : Int) : Decidable (Inside m s c) :=
  inferInstanceAs (Decidable ((0 < s ∧ c < m) ∨ (s < 0 ∧ m < c)))

/-- What a call answers when the counter is at `c`. -/
def rangeAnswer (m s c : Int) : Option Answer :=
  if Inside m s c then some (.one (.int (BitVec.ofInt 64 c))) else none

/-- The step is zero, there is no number between the bounds, or the step leads away. -/
def RangeEmpty (i m s : YmdInt) : Prop :=
  s = 0 ∨ i = m ∨ (0 < s.toInt ∧ m.toInt < i.toInt) ∨ (s.toInt < 0 ∧ i.toInt < m.toInt)

/-- The counter of 64 bits is not inside the range where the number is behind its end. -/
def StaysOut (m s c : Int) : Prop := Inside m s (c.bmod (2 ^ 64)) → Inside m s c

section

variable {l : Ctx} {i m s : YmdInt} {c : Int}

theorem rangeEmpty_iff : RangeEmpty i m s ↔ ¬ Inside m.toInt s.toInt i.toInt := by
  have hs : s = 0 ↔ s.toInt = 0 := by
    rw [← BitVec.toInt_inj]
    simp
  have him : i = m ↔ i.toInt = m.toInt := BitVec.toInt_inj.symm
  unfold RangeEmpty Inside
  rw [hs, him]
  omega

theorem newStepIter_eq (i m s : YmdInt) :
    newStepIter i m s =
      if Inside m.toInt s.toInt i.toInt then .stepIter i m s else .libxEnd := by
  have hempty : (s = 0 ∨ (m.slt i ∧ (0 : YmdInt).slt s) ∨ (i.slt m ∧ s.slt 0) ∨ i = m) ↔
      ¬ Inside m.toInt s.toInt i.toInt := by
    rw [← rangeEmpty_iff]
    unfold RangeEmpty
    have hzero : (0 : YmdInt).toInt = 0 := rfl
    simp only [BitVec.slt_iff_toInt_lt, hzero]
    tauto
  unfold newStepIter
  by_cases hin : Inside m.toInt s.toInt i.toInt
  · rw [if_neg (fun h => hempty.1 h hin), if_pos hin]
  · rw [if_pos (hempty.2 hin), if_neg hin]

/-- A call shows the counter of 64 bits. -/
theorem stepIter_call (hroom : l.Room) : (Iter.stepIter i m s).call l = .ok (1, .stepIter (i + s) m s)
    { l with stk := (if Inside m.toInt s.toInt i.toInt then .int i else .nil) :: l.stk } := by
  have hlt : l.stk.length + 2 ≤ maxStack := hroom
  have hzero : (0 : YmdInt).toInt = 0 := rfl
  have hrv : (if (0 : YmdInt).slt s ∧ i.slt m then .int i
      else if s.slt 0 ∧ m.slt i then .int i else .nil : Variable)
      = if Inside m.toInt s.toInt i.toInt then .int i else .nil := by
    simp only [BitVec.slt_iff_toInt_lt, hzero]
    by_cases hup : 0 < s.toInt ∧ i.toInt < m.toInt
    · rw [if_pos hup, if_pos (.inl hup)]
    rw [if_neg hup]
    by_cases hdown : s.toInt < 0 ∧ m.toInt < i.toInt
    · rw [if_pos hdown, if_pos (.inr hdown)]
    · rw [if_neg hdown, if_neg (c := Inside m.toInt s.toInt i.toInt) (not_or.2 ⟨hup, hdown⟩)]
  rw [Iter.call, stepIter, hrv, bind_of_ok (ymdPush_of_lt (by omega))]
  rfl

/-- A call gives the answer for `c` if the counter of 64 bits is inside the range
where `c` is, and only there. -/
theorem stepIter_calls_iff (hroom : l.Room) {it : Iter} :
    (Iter.stepIter (BitVec.ofInt 64 c) m s).Calls l (rangeAnswer m.toInt s.toInt c) it ↔
      (Inside m.toInt s.toInt (c.bmod (2 ^ 64)) ↔ Inside m.toInt s.toInt c) ∧
        it = .stepIter (BitVec.ofInt 64 (c + s.toInt)) m s := by
  have hcall := stepIter_call (i := BitVec.ofInt 64 c) (m := m) (s := s) hroom
  have hnext : BitVec.ofInt 64 c + s = BitVec.ofInt 64 (c + s.toInt) := by
    rw [BitVec.ofInt_add, BitVec.ofInt_toInt]
  rw [BitVec.toInt_ofInt, hnext] at hcall
  constructor
  · rintro ⟨rv, l', hrun, hleft⟩
    obtain ⟨hpair, rfl⟩ := EStateM.Result.ok.inj (hcall.symm.trans hrun)
    obtain ⟨rfl, rfl⟩ := Prod.mk.inj hpair
    refine ⟨?_, rfl⟩
    by_cases hin : Inside m.toInt s.toInt c
    · rw [rangeAnswer, if_pos hin] at hleft
      have hstk := congrArg Ctx.stk hleft.2
      by_cases hwrap : Inside m.toInt s.toInt (c.bmod (2 ^ 64))
      · exact iff_of_true hwrap hin
      · rw [if_neg hwrap] at hstk
        cases (List.cons.inj hstk).1
    · rw [rangeAnswer, if_neg hin] at hleft
      rcases hleft with ⟨hrv, -⟩ | ⟨-, hstk⟩
      · cases hrv
      have hstk := congrArg Ctx.stk hstk
      by_cases hwrap : Inside m.toInt s.toInt (c.bmod (2 ^ 64))
      · rw [if_pos hwrap] at hstk
        cases (List.cons.inj hstk).1
      · exact iff_of_false hwrap hin
  · rintro ⟨hiff, rfl⟩
    refine ⟨1, _, hcall, ?_⟩
    by_cases hin : Inside m.toInt s.toInt c
    · rw [rangeAnswer, if_pos hin, if_pos (hiff.2 hin)]
      exact ⟨rfl, rfl⟩
    · rw [rangeAnswer, if_neg hin, if_neg (fun h => hin (hiff.1 h))]
      exact .inr ⟨rfl, rfl⟩

theorem stepIter_shows (hroom : l.Room) :
    (Iter.stepIter i m s).Calls l (rangeAnswer m.toInt s.toInt i.toInt)
      (.stepIter (i + s) m s) := by
  have hcalls := (stepIter_calls_iff (c := i.toInt) (m := m) (s := s) hroom).2
    ⟨by rw [BitVec.toInt_bmod_cancel], rfl⟩
  rwa [BitVec.ofInt_add, BitVec.ofInt_toInt, BitVec.ofInt_toInt] at hcalls

/-- Behind the first number the counter is on the side the step leads to. -/
def Ahead (s c : Int) : Prop := (0 < s → -2 ^ 63 ≤ c) ∧ (s < 0 → c < 2 ^ 63)

theorem Ahead.next {s : Int} (hahead : Ahead s c) : Ahead s (c + s) := by
  unfold Ahead at hahead ⊢
  omega

/-- Inside the range the counter has not wrapped around. -/
theorem bmod_of_inside (hahead : Ahead s.toInt c) (hin : Inside m.toInt s.toInt c) :
    c.bmod (2 ^ 64) = c := by
  have hlt := m.toInt_lt
  have hle := m.le_toInt
  unfold Ahead at hahead
  unfold Inside at hin
  rw [Int.bmod_eq_of_le] <;> omega

/-- The calls are answered as they should as long as the counter stays where the number is. -/
theorem stepIter_answers_iff (hahead : Ahead s.toInt c) {ls : List Ctx}
    (hrooms : ∀ l ∈ ls, l.Room) :
    Answered Iter.Calls (.stepIter (BitVec.ofInt 64 c) m s)
        (fun k => rangeAnswer m.toInt s.toInt (c + k * s.toInt)) ls ↔
      ∀ k < ls.length, StaysOut m.toInt s.toInt (c + k * s.toInt) := by
  induction ls generalizing c with
  | nil => simp [Answered]
  | cons l ls ih =>
      rw [List.forall_mem_cons] at hrooms
      have hshift : ∀ k : Nat, c + ((k + 1 : Nat) : Int) * s.toInt = c + s.toInt + k * s.toInt := by
        intro k
        rw [Nat.cast_succ]
        ring
      have hzero : c + ((0 : Nat) : Int) * s.toInt = c := by simp
      have hfirst : (Inside m.toInt s.toInt (c.bmod (2 ^ 64)) ↔ Inside m.toInt s.toInt c) ↔
          StaysOut m.toInt s.toInt c :=
        ⟨fun h => h.1, fun h => ⟨h, fun hin => by rwa [bmod_of_inside hahead hin]⟩⟩
      have hrest := ih hahead.next hrooms.2
      simp only [Answered, hshift, hzero, stepIter_calls_iff hrooms.1, hfirst]
      rw [List.length_cons, Nat.forall_lt_succ_left]
      simp only [hshift, hzero]
      constructor
      · rintro ⟨_, ⟨hstays, rfl⟩, hanswers⟩
        exact ⟨hstays, hrest.1 hanswers⟩
      · rintro ⟨hstays, hall⟩
        exact ⟨_, ⟨hstays, rfl⟩, hrest.2 hall⟩

/-- A number behind the end is followed by numbers behind the end. -/
theorem inside_of_add {m s c : Int} (k : Nat) (hin : Inside m s (c + k * s)) : Inside m s c := by
  have hk : (0 : Int) ≤ k := Int.natCast_nonneg k
  rcases hin with ⟨hs, hlt⟩ | ⟨hs, hlt⟩
  · have hstep : 0 ≤ k * s := Int.mul_nonneg hk hs.le
    exact .inl ⟨hs, by omega⟩
  · have hstep : k * s ≤ 0 := Int.mul_nonpos_of_nonneg_of_nonpos hk hs.le
    exact .inr ⟨hs, by omega⟩

theorem rangeAnswer_of_empty {m s c : Int} (hempty : ¬ Inside m s c) (k : Nat) :
    rangeAnswer m s (c + k * s) = none :=
  if_neg fun hin => hempty (inside_of_add k hin)

/-- After as many calls as there are numbers of 64 bits the counter is where it was. -/
theorem not_staysOut_round {m s i : YmdInt} (hin : Inside m.toInt s.toInt i.toInt) :
    ¬ StaysOut m.toInt s.toInt (i.toInt + (2 ^ 64 : Nat) * s.toInt) := by
  have hround : (i.toInt + (2 ^ 64 : Nat) * s.toInt).bmod (2 ^ 64) = i.toInt := by
    rw [Int.add_mul_bmod_self_left, BitVec.toInt_bmod_cancel]
  unfold StaysOut
  rw [hround]
  intro hstays
  have hlt := m.toInt_lt
  have hle := m.le_toInt
  have hlt' := i.toInt_lt
  have hle' := i.le_toInt
  have hbehind := hstays hin
  unfold Inside at hbehind
  omega

/-- The calls in the contexts of the list are answered with `i`, `i + s` and so on
inside the range, and with none behind its end. -/
def RangeAnswers (i m s : YmdInt) (it : Iter) (ls : List Ctx) : Prop :=
  Answered Iter.Calls it (fun k => rangeAnswer m.toInt s.toInt (i.toInt + k * s.toInt)) ls

theorem newStepIter_answers_iff {ls : List Ctx} (hrooms : ∀ l ∈ ls, l.Room) :
    RangeAnswers i m s (newStepIter i m s) ls ↔
      RangeEmpty i m s ∨ ∀ k < ls.length, StaysOut m.toInt s.toInt (i.toInt + k * s.toInt) := by
  rw [newStepIter_eq, rangeEmpty_iff]
  by_cases hin : Inside m.toInt s.toInt i.toInt
  · have hahead : Ahead s.toInt i.toInt := ⟨fun _ => i.le_toInt, fun _ => i.toInt_lt⟩
    have hanswers := stepIter_answers_iff (m := m) hahead hrooms
    rw [BitVec.ofInt_toInt] at hanswers
    rw [if_pos hin, or_iff_right (not_not.2 hin)]
    exact hanswers
  · rw [if_neg hin, iff_true_right (.inl hin), RangeAnswers]
    simp only [rangeAnswer_of_empty hin]
    exact libxEnd_enumerates ls

end

/-- **Ranges yield the numbers between their bounds**, for a number of calls exactly if
the counter of 64 bits is not inside the range again while the number is behind its
end. For every number of calls that is so of the empty ranges only. -/
theorem range_answers_iff (i m s : YmdInt) (l : Ctx) :
    ∃ it, libxRange [.int i, .int m, .int s] l = .ok it l ∧
      (∀ ls, (∀ l' ∈ ls, l'.Room) → (RangeAnswers i m s it ls ↔
        RangeEmpty i m s ∨ ∀ k < ls.length, StaysOut m.toInt s.toInt (i.toInt + k * s.toInt))) ∧
      ((∀ ls, (∀ l' ∈ ls, l'.Room) → RangeAnswers i m s it ls) ↔ RangeEmpty i m s) := by
  refine ⟨newStepIter i m s, rfl, fun ls => newStepIter_answers_iff, fun hall => ?_, ?_⟩
  · by_contra hempty
    have hin := not_not.1 (mt rangeEmpty_iff.2 hempty)
    -- so many calls that the counter comes back to the first number
    have hroom : ∀ l' ∈ List.replicate (2 ^ 64 + 1) (Ctx.initial fun _ => 1), l'.Room := by
      intro l' hl'
      rw [List.eq_of_mem_replicate hl']
      exact show 2 ≤ 128 by decide
    have hstays := ((newStepIter_answers_iff hroom).1 (hall _ hroom)).resolve_left hempty
    rw [List.length_replicate] at hstays
    exact not_staysOut_round hin (hstays (2 ^ 64) (Nat.lt_succ_self _))
  · intro hempty ls hrooms
    exact (newStepIter_answers_iff hrooms).2 (.inl hempty)

private def rangeCtx : Ctx := .initial fun _ => 1

private theorem rangeCtx_room {ls : List Ctx} (hmem : ∀ l ∈ ls, l = rangeCtx) :
    ∀ l ∈ ls, l.Room := by
  intro l hl
  rw [hmem l hl]
  exact show 2 ≤ 128 by decide

theorem range_answers_two : ∃ it,
    libxRange [.int 5, .int 8, .int 2] rangeCtx = .ok it rangeCtx ∧
      RangeAnswers 5 8 2 it [rangeCtx, rangeCtx, rangeCtx] := by
  obtain ⟨it, hrange, hanswers, -⟩ := range_answers_iff 5 8 2 rangeCtx
  refine ⟨it, hrange, (hanswers _ (rangeCtx_room (by simp))).2 (.inr fun k hk => ?_)⟩
  have hk : k < 3 := hk
  interval_cases k <;> unfold StaysOut <;> decide

/-- The largest number ends a range that begins in front of it, and the third call
answers with the least number. -/
theorem range_begins_again : ∃ it it₁ it₂ it₃,
    libxRange [.int (BitVec.intMax 64 - 1), .int (BitVec.intMax 64), .int 1] rangeCtx =
        .ok it rangeCtx ∧
      it.Calls rangeCtx (some (.one (.int (BitVec.intMax 64 - 1)))) it₁ ∧
      it₁.Calls rangeCtx none it₂ ∧
      it₂.Calls rangeCtx (some (.one (.int (BitVec.intMin 64)))) it₃ ∧
      ¬ RangeAnswers (BitVec.intMax 64 - 1) (BitVec.intMax 64) 1 it
        [rangeCtx, rangeCtx, rangeCtx] := by
  have hroom : rangeCtx.Room := show 2 ≤ 128 by decide
  refine ⟨_, _, _, _, rfl, stepIter_shows hroom, stepIter_shows hroom, stepIter_shows hroom, ?_⟩
  intro hanswers
  have hempty : ¬ RangeEmpty (BitVec.intMax 64 - 1) (BitVec.intMax 64) 1 := by
    unfold RangeEmpty
    decide
  have hstays := ((newStepIter_answers_iff (rangeCtx_room (by simp))).1 hanswers).resolve_left
    hempty 2 (Nat.lt_succ_self 2)
  unfold StaysOut at hstays
  exact absurd hstays (by decide)

end Ymd
