import Ymd.Compiler.Congruence

/-! # Code generation reads no token

What emits code, or keeps the books of chunks and loops, leaves the token that is
looked at and the source behind it as they are.
-/

namespace Ymd

open Foundation

variable {σ : Type}

/-- The token that is looked at, and the source behind it. -/
def Parser.front (p : Parser σ) : Ytoken × σ := (p.lah, p.lex)

theorem ymcNext_of_ok {src : Source σ} {p : Parser σ} {next : Ytoken × σ} (h : src.next p.lex = .ok next) :
    ymcNext src p = .ok () { p with lex := next.2, lah := next.1 } := by
  rw [ymcNext_apply, h]

/-- A computation that reads no token, in no more rounds than it was given. -/
def Still {α : Type} (x : ParseM σ α) : Prop :=
  ∀ p, match x p with
    | .ok _ p' => p'.front = p.front
    | .error e _ => e ≠ .fuel

theorem Still.bind {α β : Type} {x : ParseM σ α} {f : α → ParseM σ β} (hx : Still x)
    (hf : ∀ a, Still (f a)) : Still (x >>= f) := by
  intro p
  have hrun := hx p
  rcases hxp : x p with ⟨a, p₁⟩ | ⟨e, p₁⟩
  · rw [hxp] at hrun
    have hrest := hf a p₁
    rw [bind_of_ok hxp]
    rcases hfa : f a p₁ with ⟨b, p₂⟩ | ⟨e, p₂⟩
    · rw [hfa] at hrest
      exact hrest.trans hrun
    · rw [hfa] at hrest
      exact hrest
  · rw [hxp] at hrun
    rw [bind_of_error hxp]
    exact hrun

theorem Still.ite {α : Type} {c : Prop} [Decidable c] {x y : ParseM σ α} (hx : Still x)
    (hy : Still y) : Still (if c then x else y) := by
  by_cases hc : c
  · rw [if_pos hc]
    exact hx
  · rw [if_neg hc]
    exact hy

theorem Still.pure {α : Type} (a : α) : Still (pure a : ParseM σ α) := fun _ => rfl

theorem Still.throw {α : Type} {e : Abort} (he : e ≠ .fuel) : Still (throw e : ParseM σ α) :=
  fun _ => he

theorem emitting_still (src : Source σ) : Emitting src src (fun {_} x _ => Still x) where
  pure := .pure
  bind := Still.bind
  fail _ := .throw Abort.noConfusion
  assertion _ := .throw Abort.noConfusion
  get hf := fun p => hf p p ⟨rfl, rfl, rfl, rfl⟩ p
  onBlk _ _ := fun _ => rfl

section

variable (src : Source σ)

/-! ## Functions -/

theorem still_ymkEnter (core : Chunk) : Still (ymkEnter core : ParseM σ Unit) := fun _ => rfl

theorem still_ymdFunc (name : Bytes) : Still (ymdFunc name : ParseM σ Addr) := by
  intro p
  rw [ymdFunc_apply]
  by_cases hfull : maxStack ≤ p.stk.length
  · rw [if_pos hfull]
    exact Abort.noConfusion
  · rw [if_neg hfull]
    rfl

theorem still_ymkLeave (fn : Addr) : Still (ymkLeave fn : ParseM σ Unit) := by
  intro p
  rw [ymkLeave_apply]
  rcases p.heap.obj fn with _ | o
  · exact Abort.noConfusion
  · cases o <;> first
      | exact rfl
      | exact Abort.noConfusion

theorem still_setBindCount (n : Nat) (fn : Addr) : Still (setBindCount n fn : ParseM σ Unit) := by
  intro p
  rw [setBindCount_apply]
  rcases p.heap.obj fn with _ | o
  · exact Abort.noConfusion
  · cases o <;> first
      | exact rfl
      | exact Abort.noConfusion

include src in
theorem still_ymkEmitFunc (desc : FuncDeclDesc) (fn : Addr) :
    Still (ymkEmitFunc desc fn : ParseM σ Unit) := by
  have hE := emitting_still src
  rw [ymkEmitFunc_eq]
  refine (still_setBindCount _ fn).bind fun _ => (hE.kf fn).bind fun k => ?_
  exact (hE.hack _ _).bind fun _ => fun _ => rfl

theorem still_name (z : Bytes) : Still ((Hooks.plain src).name z) :=
  Still.ite (.throw Abort.noConfusion) (.pure ())

/-! ## Branches and loops -/

theorem still_mark (m : Mark) : Still ((Hooks.plain src).mark m) := .pure ()

theorem still_site (s : Site) : Still ((Hooks.plain src).site s) := .pure ()

theorem still_decLiteral (raw : Bytes) : Still ((Hooks.plain src).decLiteral raw) := by
  refine (still_site src _).bind fun _ => ?_
  cases dtoll raw with
  | none => exact .throw Abort.noConfusion
  | some imm => exact (emitting_still src).emitInt imm

theorem still_hexLiteral (raw : Bytes) : Still ((Hooks.plain src).hexLiteral raw) := by
  refine (still_site src _).bind fun _ => ?_
  rcases xtoll raw with f | _ | imm
  · exact .throw Abort.noConfusion
  · exact .throw Abort.noConfusion
  · exact (emitting_still src).emitInt imm

theorem still_holdJout (jout : List Nat) : Still ((Hooks.plain src).holdJout jout) := by
  refine Still.bind ?_ fun _ => (emitting_still src).hold.bind fun _ => .pure _
  exact Still.ite (.throw Abort.noConfusion) (.pure ())

theorem still_freshIter : Still (Hooks.freshIter : ParseM σ Bytes) := fun _ => rfl

theorem still_loopEnter : Still (Hooks.plain src).loopEnter := fun _ => rfl

theorem still_theLoop : Still (theLoop : ParseM σ LoopInfo) := by
  rintro ⟨lex, lah, blk, outer, _ | ⟨info, loop⟩, forId, heap, stk⟩
  · exact Abort.noConfusion
  · rfl

theorem still_onLoop (f : LoopInfo → LoopInfo) : Still (onLoop f : ParseM σ Unit) :=
  still_theLoop.bind fun _ => fun _ => rfl

theorem still_loopLeave : Still (Hooks.plain src).loopLeave := by
  have hE := emitting_still src
  have hget : ∀ {α : Type} {f : Parser σ → ParseM σ α}, (∀ p, Still (f p)) →
      Still (MonadState.get >>= f) := fun hf p => hf p p
  have hpop : Still (modify fun p => { p with loop := p.loop.tail } : ParseM σ Unit) := fun _ => rfl
  refine (still_site src _).bind fun _ => Still.bind ?_ fun _ => still_mark src _
  refine hget fun p => still_theLoop.bind fun info => ?_
  refine (hE.assert _ _).bind fun _ => (hE.emitJmp _).bind fun _ => ?_
  refine (hE.fillBreaks _ _).bind fun _ => Still.ite ?_ hpop
  exact (hE.hackJmp _ _).bind fun _ => hpop

theorem still_goto (isBreak : Bool) : Still ((Hooks.plain src).goto isBreak) := by
  refine still_theLoop.bind fun info => ?_
  split
  · exact .throw Abort.noConfusion
  · exact .pure ()

theorem still_holdBreak : Still (Hooks.plain src).holdBreak := by
  have hE := emitting_still src
  exact (still_goto src true).bind fun _ => hE.hold.bind fun _ => still_onLoop _

theorem still_retry : Still (Hooks.plain src).retry :=
  (still_goto src false).bind fun _ => still_theLoop.bind fun _ => .pure _

end

end Ymd
