import Ymd.Code.Chunk

/-! # Local variables in the code

Which local variable an instruction names, and that a chunk only names local
variables that its table has.
-/

namespace Ymd

/-- The operand of an instruction that loads or stores a local variable. -/
def localOperand (inst : Inst) : Option Nat :=
  if (asmOp inst = Opcode.push.code ∨ asmOp inst = Opcode.store.code) ∧
      asmFlag inst = Flag.loc then some (asmParam inst).toNat
  else none

theorem localOperand_build_loc (op : Opcode) (i : Nat) :
    ∀ j ∈ localOperand (asmBuild op.code Flag.loc (BitVec.ofNat 16 i)), j ≤ i := by
  intro j hj
  unfold localOperand at hj
  split at hj
  · cases hj
    rw [asmParam_build, BitVec.toNat_ofNat]
    exact Nat.mod_le _ _
  · cases hj

theorem localOperand_of_flag {op : Opcode} {flag : BitVec 8} (param : BitVec 16)
    (hflag : flag ≠ Flag.loc) : localOperand (asmBuild op.code flag param) = none := by
  rw [localOperand, if_neg]
  rintro ⟨-, h⟩
  exact hflag ((asmFlag_build _ _ _).symm.trans h)

theorem localOperand_of_op {op : Opcode} (flag : BitVec 8) (param : BitVec 16)
    (hpush : op ≠ .push) (hstore : op ≠ .store) :
    localOperand (asmBuild op.code flag param) = none := by
  rw [localOperand, if_neg]
  rintro ⟨hop, -⟩
  rw [asmOp_build] at hop
  rcases hop with h | h
  · exact hpush (Opcode.code_inj h)
  · exact hstore (Opcode.code_inj h)

namespace Chunk

/-- Every local variable an instruction names has an entry in `lz`. -/
def LocalsOk (core : Chunk) : Prop :=
  ∀ inst ∈ core.inst, ∀ i ∈ localOperand inst, i < core.klz

theorem localsOk_of_nil {core : Chunk} (h : core.inst = []) : core.LocalsOk := by
  intro inst hinst
  rw [h] at hinst
  cases hinst

theorem LocalsOk.emit {core : Chunk} (h : core.LocalsOk) {inst : Inst}
    (hinst : ∀ i ∈ localOperand inst, i < core.klz) : (core.emit inst).LocalsOk := by
  intro inst' hmem
  rcases List.mem_append.1 hmem with hold | hnew
  · exact h inst' hold
  · rw [List.mem_singleton.1 hnew]
    exact hinst

theorem LocalsOk.setInst {core : Chunk} (h : core.LocalsOk) (i : Nat) {inst : Inst}
    (hinst : localOperand inst = none) : (core.setInst i inst).LocalsOk := by
  intro inst' hmem j hj
  rcases List.mem_or_eq_of_mem_set hmem with hold | rfl
  · exact h inst' hold j hj
  · rw [hinst] at hj
    cases hj

/-- More names and other constants do no harm. -/
theorem LocalsOk.mono {core core' : Chunk} (h : core.LocalsOk) (hinst : core'.inst = core.inst)
    (hklz : core.klz ≤ core'.klz) : core'.LocalsOk := by
  intro inst hmem i hi
  rw [hinst] at hmem
  exact (h inst hmem i hi).trans_le hklz

@[simp] theorem inst_internK (core : Chunk) (same : Variable → Bool) (v : Variable) :
    (core.internK same v).1.inst = core.inst := by
  unfold internK
  cases findK core.kval same core.kkval <;> rfl

@[simp] theorem lz_internK (core : Chunk) (same : Variable → Bool) (v : Variable) :
    (core.internK same v).1.lz = core.lz := by
  unfold internK
  cases findK core.kval same core.kkval <;> rfl

/-- A name that has been added has the last index. -/
theorem addLz_some {core : Chunk} {z : Bytes} {i : Nat} (h : (core.addLz z).2 = some i) :
    (core.addLz z).1 = { core with lz := core.lz ++ [z] } ∧ i = core.klz := by
  unfold addLz at h ⊢
  split at h
  · cases h
  next hnew =>
    rw [if_neg hnew]
    dsimp only at h ⊢
    unfold push16 at h ⊢
    split at h
    next hlt =>
      rw [if_pos hlt]
      simp [klz] at h
      exact ⟨rfl, h.symm⟩
    next => simp [klz] at h

theorem findLz_lt {core : Chunk} {z : Bytes} {i : Nat} (h : core.findLz z = some i) :
    i < core.klz := by
  exact (List.findIdx?_eq_some_iff_findIdx_eq.1 h).1

end Chunk

end Ymd
