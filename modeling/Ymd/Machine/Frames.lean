import Ymd.Machine.Control

/-! # Frames and handlers

The chain of call infos and the chain of handlers develop together: the handlers
are those of the frames that `ymd_pcall` and `ymd_xcall` began, with the levels
counted from the nearest root. Windows of the local area lie one behind another.
-/

namespace Ymd

open Foundation

/-- Whether a frame begins with a handler. -/
def Kont.catches : Kont → Bool
  | .exec _ => false
  | .native => false
  | .pcall => true
  | .root => true

/-- The level of the innermost handler: one for the root, and one more for every
`ymd_pcall` inside. -/
def level : List CallInfo → Nat
  | [] => 0
  | info :: chain =>
      match info.kont with
      | .exec _ => level chain
      | .native => level chain
      | .pcall => level chain + 1
      | .root => 1

/-- The handlers of a chain of frames. -/
def handlers : List CallInfo → List Jmpbuf
  | [] => []
  | info :: chain =>
      if info.kont.catches then ⟨level (info :: chain), chain.length⟩ :: handlers chain
      else handlers chain

variable {info : CallInfo} {pre chain front : List CallInfo} {l l' : Ctx}

theorem handlers_of_catches (hcatches : info.kont.catches = true) :
    handlers (info :: chain) = ⟨level (info :: chain), chain.length⟩ :: handlers chain :=
  if_pos hcatches

theorem handlers_of_not (hcatches : info.kont.catches = false) :
    handlers (info :: chain) = handlers chain :=
  if_neg (Bool.eq_false_iff.1 hcatches)

theorem level_of_not (hcatches : info.kont.catches = false) :
    level (info :: chain) = level chain := by
  rw [level]
  cases hkont : info.kont with
  | exec adjust => rfl
  | native => rfl
  | pcall =>
      rw [hkont] at hcatches
      cases hcatches
  | root =>
      rw [hkont] at hcatches
      cases hcatches

theorem level_of_root (hroot : info.kont = .root) : level (info :: chain) = 1 := by
  unfold level
  rw [hroot]

theorem level_of_pcall (hpcall : info.kont = .pcall) :
    level (info :: chain) = level chain + 1 := by
  rw [level, hpcall]

theorem handlers_append (hpre : ∀ g ∈ pre, g.kont.catches = false) :
    handlers (pre ++ chain) = handlers chain := by
  induction pre with
  | nil => rfl
  | cons g pre ih =>
      rw [List.cons_append, handlers_of_not (hpre g List.mem_cons_self)]
      exact ih fun g' hg' => hpre g' (List.mem_cons_of_mem g hg')

theorem level_pos (hroot : info.kont = .root) (pre chain : List CallInfo) :
    1 ≤ level (pre ++ info :: chain) := by
  induction pre with
  | nil => exact (level_of_root hroot).ge
  | cons g pre ih =>
      rw [List.cons_append]
      unfold level
      cases g.kont with
      | exec adjust => exact ih
      | native => exact ih
      | pcall => exact Nat.le_succ_of_le ih
      | root => exact le_rfl

/-- The first handler has the level of the chain. -/
theorem level_head {jpt : Jmpbuf} {rest : List Jmpbuf} (h : handlers chain = jpt :: rest) :
    jpt.level = level chain := by
  induction chain with
  | nil => cases h
  | cons info chain ih =>
      cases hcatches : info.kont.catches with
      | true =>
          rw [handlers_of_catches hcatches] at h
          cases h
          rfl
      | false =>
          rw [handlers_of_not hcatches] at h
          rw [level_of_not hcatches]
          exact ih h

/-! ## Jumps -/

theorem drop_to (front chain : List CallInfo) :
    (front ++ chain).drop ((front ++ chain).length - chain.length) = chain := by
  rw [List.length_append, Nat.add_sub_cancel]
  exact List.drop_left

/-- A jump with level 1 passes every `ymd_pcall` and ends at the nearest root. -/
theorem longjmp_root (hroot : info.kont = .root) (hpre : ∀ g ∈ pre, g.kont ≠ .root)
    (hinfo : l.info = front ++ (pre ++ info :: chain)) :
    longjmp 1 (handlers (pre ++ info :: chain)) l =
      { l with jpt := handlers chain, info := chain, stk := [], rv := -1 } := by
  induction pre generalizing l front with
  | nil =>
      have hcatches : info.kont.catches = true := by rw [hroot]; rfl
      rw [List.nil_append, handlers_of_catches hcatches, level_of_root hroot, longjmp]
      have hsplit : l.info = (front ++ [info]) ++ chain := by simpa using hinfo
      rw [hsplit, drop_to]
      rfl
  | cons g pre ih =>
      have hrest : ∀ g ∈ pre, g.kont ≠ .root := fun g' hg' => hpre g' (List.mem_cons_of_mem g hg')
      rw [List.cons_append] at hinfo ⊢
      cases hcatches : g.kont.catches with
      | false =>
          rw [handlers_of_not hcatches]
          have hfront : l.info = (front ++ [g]) ++ (pre ++ info :: chain) := by simpa using hinfo
          exact ih hrest hfront
      | true =>
          have hpcall : g.kont = .pcall := by
            have hg := hpre g List.mem_cons_self
            cases hkont : g.kont with
            | pcall => rfl
            | root => exact absurd hkont hg
            | exec adjust =>
                rw [hkont] at hcatches
                cases hcatches
            | native =>
                rw [hkont] at hcatches
                cases hcatches
          have hpos := level_pos hroot pre chain
          have hsplit : l.info = (front ++ [g]) ++ (pre ++ info :: chain) := by simpa using hinfo
          rw [handlers_of_catches hcatches, level_of_pcall hpcall, longjmp, hsplit, drop_to]
          dsimp only
          rw [if_neg (by omega), if_pos (by omega)]
          apply ih hrest
          exact (List.nil_append (pre ++ info :: chain)).symm

end Ymd
