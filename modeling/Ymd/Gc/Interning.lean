import Ymd.Gc.Frame
import Ymd.Gc.Pool

/-! # Interned strings

The pool holds every short string once, in the chain of its hash, whatever the
order of fetches, growths of the table and collections.
-/

namespace Ymd.Gc

open Foundation

/-- The chain of a string in a table of `2 ^ shift` chains. -/
def homeOf (shift : Nat) (content : Addr → Option Bytes) (o : Addr) : Nat :=
  (kzHash ((content o).getD [])).toNat % 2 ^ shift

/-- The pool is a table of short strings with different contents. -/
structure PoolOk (vm : Vm) : Prop where
  slots : vm.kpool.slot.length = 2 ^ vm.kpool.shift
  short : ∀ o ∈ vm.pooled, ∃ z, vm.content o = some z ∧ z.length < maxKpoolLen
  housed : Housed (homeOf vm.kpool.shift vm.content) vm.kpool.slot
  distinct : (vm.pooled.map vm.content).Nodup
  used : vm.kpool.used = vm.pooled.length

/-- A hash that is cached is the hash of the contents. -/
def HashOk (vm : Vm) : Prop :=
  ∀ o z hash, vm.obj o = some (.kstr z hash) → hash = 0 ∨ hash = kzHash z

/-- Every short string is pooled but for those in `out`, which are being made. -/
structure Interned (out : List Addr) (vm : Vm) : Prop where
  pool : PoolOk vm
  every : ∀ o z, vm.content o = some z → z.length < maxKpoolLen → o ∈ vm.pooled ∨ o ∈ out
  hashed : HashOk vm
  fresh : ∀ o z, vm.content o = some z → o < vm.next
  bounded : ∀ o ∈ vm.alloced, o < vm.next
  apart : ∀ o ∈ vm.alloced ++ out, o ∉ vm.pooled
  nodup : vm.alloced.Nodup

/-- Strings have been lost, with their places in the pool; gray strings are
still there, and gray. -/
structure Shrunk (vm vm' : Vm) : Prop where
  next : vm.next ≤ vm'.next
  alloced : ∀ o ∈ vm'.alloced, o < vm'.next ∧ (o ∈ vm.alloced ∨ vm.next ≤ o)
  nodup : vm'.alloced.Nodup
  slot : List.Forall₂ List.Sublist vm'.kpool.slot vm.kpool.slot
  shift : vm'.kpool.shift = vm.kpool.shift
  used : vm'.kpool.used = vm.kpool.used - (vm.pooled.length - vm'.pooled.length)
  content : ∀ o z, vm'.content o = some z → vm.content o = some z
  kept : ∀ o ∈ vm'.pooled, vm'.content o = vm.content o
  gone : ∀ o ∈ vm.pooled, o ∉ vm'.pooled → vm'.content o = none
  hashed : ∀ o z hash, vm'.obj o = some (.kstr z hash) →
    hash = kzHash z ∨ vm.obj o = some (.kstr z hash)
  spared : ∀ o z, vm.content o = some z → hasBits vm.marked o grayBit0 = true →
    vm'.content o = some z
  gray : ∀ o z, vm'.content o = some z →
    hasBits vm'.marked o grayBit0 = hasBits vm.marked o grayBit0

section

variable {vm vm' vm'' : Vm} {out : List Addr}

theorem content_eq_some {o : Addr} {z : Bytes} :
    vm.content o = some z ↔ ∃ hash, vm.obj o = some (.kstr z hash) := by
  unfold Vm.content
  cases hobj : vm.obj o with
  | none => simp
  | some obj => cases obj <;> simp [Obj.content]

/-! ## Losing strings -/

theorem Interned.shrink (h : Interned out vm) (hshrunk : Shrunk vm vm') : Interned out vm' := by
  have hsub : vm'.pooled.Sublist vm.pooled := flatten_shrink hshrunk.slot
  have hbelow : ∀ o ∈ vm.pooled, o < vm.next := by
    intro o ho
    obtain ⟨z, hz, _⟩ := h.pool.short o ho
    exact h.fresh o z hz
  constructor
  · constructor
    · rw [hshrunk.slot.length_eq, hshrunk.shift]
      exact h.pool.slots
    · intro o ho
      rw [hshrunk.kept o ho]
      exact h.pool.short o (hsub.subset ho)
    · rw [hshrunk.shift]
      apply (h.pool.housed.shrink hshrunk.slot).congr
      intro o ho
      unfold homeOf
      rw [hshrunk.kept o ho]
    · rw [List.map_congr_left hshrunk.kept]
      exact h.pool.distinct.sublist (hsub.map vm.content)
    · rw [hshrunk.used, h.pool.used]
      omega
  · intro o z hz hshort
    have hold := hshrunk.content o z hz
    apply (h.every o z hold hshort).imp_left
    intro ho
    by_contra hno
    rw [hshrunk.gone o ho hno] at hz
    cases hz
  · intro o z hash hobj
    obtain hhash | hobj' := hshrunk.hashed o z hash hobj
    · exact .inr hhash
    · exact h.hashed o z hash hobj'
  · exact fun o z hz => (h.fresh o z (hshrunk.content o z hz)).trans_le hshrunk.next
  · exact fun o ho => (hshrunk.alloced o ho).1
  · intro o ho hin
    have hin' := hsub.subset hin
    obtain ho | ho := List.mem_append.1 ho
    · obtain hold | hnew := (hshrunk.alloced o ho).2
      · exact h.apart o (List.mem_append_left _ hold) hin'
      · exact absurd (hbelow o hin') (not_lt.2 hnew)
    · exact h.apart o (List.mem_append_right _ ho) hin'
  · exact hshrunk.nodup

theorem Shrunk.trans (h : Shrunk vm vm') (h' : Shrunk vm' vm'') : Shrunk vm vm'' where
  next := h.next.trans h'.next
  alloced := by
    intro o ho
    obtain ⟨hlt, hold | hnew⟩ := h'.alloced o ho
    · exact ⟨hlt, (h.alloced o hold).2⟩
    · exact ⟨hlt, .inr (h.next.trans hnew)⟩
  nodup := h'.nodup
  slot := shrink_trans h'.slot h.slot
  shift := h'.shift.trans h.shift
  used := by
    rw [h'.used, h.used]
    omega
  content := fun o z hz => h.content o z (h'.content o z hz)
  kept := by
    intro o ho
    rw [h'.kept o ho, h.kept o ((flatten_shrink h'.slot).subset ho)]
  gone := by
    intro o ho hno
    by_cases hin : o ∈ vm'.pooled
    · exact h'.gone o hin hno
    · cases hz : vm''.content o with
      | none => rfl
      | some z => exact absurd ((h.gone o ho hin).symm.trans (h'.content o z hz)) nofun
  hashed := by
    intro o z hash hobj
    obtain hhash | hobj' := h'.hashed o z hash hobj
    · exact .inl hhash
    · exact h.hashed o z hash hobj'
  spared := by
    intro o z hz hgray
    have hz' := h.spared o z hz hgray
    exact h'.spared o z hz' ((h.gray o z hz').trans hgray)
  gray := fun o z hz => (h'.gray o z hz).trans (h.gray o z (h'.content o z hz))

theorem Other.shrunk (h : Other vm vm') : Shrunk vm vm' where
  next := h.next
  alloced := h.alloced
  nodup := h.nodup
  slot := h.kpool ▸ List.forall₂_same.2 fun _ _ => .refl _
  shift := by rw [h.kpool]
  used := by
    rw [Vm.pooled, Vm.pooled, h.kpool]
    omega
  content := h.content
  kept := by
    intro o ho
    rw [Vm.pooled, h.kpool] at ho
    cases hz : vm.content o with
    | some z => exact h.kept o z hz (.inl ho)
    | none =>
        cases hz' : vm'.content o with
        | none => rfl
        | some z => exact absurd (hz.symm.trans (h.content o z hz')) nofun
  gone := fun o ho hno => absurd ho (by rwa [Vm.pooled, h.kpool] at hno)
  hashed := h.hashed
  spared := fun o z hz hgray => h.kept o z hz (.inr hgray)
  gray := fun o z hz => h.gray o z (h.content o z hz)

/-! ## Collections -/

variable {final : BitVec 64 → Bytes → Int} {depth : Nat}

/-- A change of the marks that keeps the gray bits of strings. -/
theorem Interned.remark (h : Interned out vm) {m : Addr → BitVec 16}
    (hgray : ∀ o, hasBits m o grayBit0 = hasBits vm.marked o grayBit0) (grab : Int) :
    Shrunk vm { vm with marked := m, grab := grab } := by
  apply Other.shrunk
  exact {
    kpool := rfl
    next := le_rfl
    alloced := fun o ho => ⟨h.bounded o ho, .inl ho⟩
    nodup := h.nodup
    content := fun _ _ hz => hz
    kept := fun _ _ hz _ => hz
    hashed := fun _ _ _ hobj => .inr hobj
    gray := fun o _ _ => hgray o }

theorem gcMark_shrunk (h : Interned out vm) (hrun : vm.gcMark depth = .ok vm') :
    Shrunk vm vm' := by
  obtain ⟨m, rfl, hpaint⟩ := gcMark_paints hrun
  exact h.remark hpaint.gray vm.grab

/-- A sweep takes out strings that are not gray, and leaves the others. -/
theorem Thinned.content {pooled : Bool} {chain left : List Addr}
    (h : Thinned pooled chain left vm vm') (o : Addr) :
    vm'.content o = if o ∈ chain ∧ o ∉ left then none else vm.content o := by
  unfold Vm.content
  rw [h.obj]
  split <;> rfl

theorem Thinned.hashed {pooled : Bool} {chain left : List Addr}
    (h : Thinned pooled chain left vm vm') {o : Addr} {obj : Obj} (hobj : vm'.obj o = some obj) :
    vm.obj o = some obj := by
  rw [h.obj] at hobj
  split at hobj
  · cases hobj
  · exact hobj

theorem gcKpoolSweep_shrunk (h : Interned out vm) (hrun : vm.gcKpoolSweep final = .ok vm') :
    Shrunk vm vm' := by
  obtain ⟨⟨slot, vm₁⟩, hslots, hrun⟩ := except_bind_ok_iff.1 hrun
  cases hrun
  obtain ⟨hthin, hsub⟩ := sweepSlots_thins (h.pool.distinct.of_map _) hslots
  have hcontent := hthin.content
  constructor
  · exact hthin.next.ge
  · intro o ho
    change o ∈ vm₁.alloced at ho
    rw [hthin.alloced] at ho
    exact ⟨(h.bounded o ho).trans_le hthin.next.ge, .inl ho⟩
  · change vm₁.alloced.Nodup
    rw [hthin.alloced]
    exact h.nodup
  · exact hsub
  · exact hthin.shift
  · exact hthin.used
  · intro o z hz
    change vm₁.content o = some z at hz
    rw [hcontent] at hz
    split at hz
    · cases hz
    · exact hz
  · intro o ho
    change o ∈ slot.flatten at ho
    exact (hcontent o).trans (if_neg fun hin => hin.2 ho)
  · intro o ho hno
    exact (hcontent o).trans (if_pos ⟨ho, hno⟩)
  · exact fun o z hash hobj => .inr (hthin.hashed hobj)
  · intro o z hz hgray
    refine (hcontent o).trans (Eq.trans (if_neg fun hin => hin.2 ?_) hz)
    exact hthin.kept o hin.1 hgray
  · exact fun o z _ => hthin.gray o

theorem gcSweep_shrunk (h : Interned out vm) (hrun : vm.gcSweep final = .ok vm') :
    Shrunk vm vm' := by
  obtain ⟨vm₁, hpool, hrun⟩ := except_bind_ok_iff.1 hrun
  obtain ⟨⟨left, vm₂⟩, hchain, hrun⟩ := except_bind_ok_iff.1 hrun
  cases hrun
  have hshrunk := gcKpoolSweep_shrunk h hpool
  have h₁ := h.shrink hshrunk
  have hthin := sweepChain_thins h₁.nodup hchain
  have hcontent := hthin.content
  have hpooled : ∀ o ∈ vm₁.pooled, o ∉ vm₁.alloced :=
    fun o ho hin => h₁.apart o (List.mem_append_left _ hin) ho
  apply hshrunk.trans
  constructor
  · exact hthin.next.ge
  · intro o ho
    have hin := hthin.sub.subset ho
    exact ⟨(h₁.bounded o hin).trans_le hthin.next.ge, .inl hin⟩
  · exact h₁.nodup.sublist hthin.sub
  · change List.Forall₂ _ vm₂.kpool.slot _
    rw [hthin.slot]
    exact List.forall₂_same.2 fun _ _ => .refl _
  · exact hthin.shift
  · change vm₂.kpool.used = vm₁.kpool.used - (vm₁.kpool.slot.flatten.length - vm₂.kpool.slot.flatten.length)
    rw [hthin.used, hthin.slot]
    simp
  · intro o z hz
    change vm₂.content o = some z at hz
    rw [hcontent] at hz
    split at hz
    · cases hz
    · exact hz
  · intro o ho
    change o ∈ vm₂.kpool.slot.flatten at ho
    rw [hthin.slot] at ho
    exact (hcontent o).trans (if_neg fun hin => hpooled o ho hin.1)
  · intro o ho hno
    change o ∉ vm₂.kpool.slot.flatten at hno
    rw [hthin.slot] at hno
    exact absurd ho hno
  · exact fun o z hash hobj => .inr (hthin.hashed hobj)
  · intro o z hz hgray
    exact (hcontent o).trans (Eq.trans (if_neg fun hin => hin.2 (hthin.kept o hin.1 hgray)) hz)
  · exact fun o z _ => hthin.gray o

theorem Shrunk.refl (h : Interned out vm) : Shrunk vm vm := h.remark (fun _ => rfl) vm.grab

theorem collect_shrunk (h : Interned out vm) (hrun : vm.collect final depth = .ok vm') :
    Shrunk vm vm' := by
  rw [Vm.collect] at hrun
  split at hrun
  · split at hrun
    case h_1 vm₁ hmark =>
      obtain ⟨vm₂, hsweep, hrun⟩ := except_bind_ok_iff.1 hrun
      cases hrun
      have hshrunk := gcMark_shrunk h hmark
      have h₁ := h.shrink hshrunk
      have hshrunk₁ := gcSweep_shrunk h₁ hsweep
      exact (hshrunk.trans hshrunk₁).trans ((h₁.shrink hshrunk₁).remark (fun _ => rfl) 0)
    case h_2 => cases hrun
  · cases hrun
    exact .refl h

end

end Ymd.Gc
