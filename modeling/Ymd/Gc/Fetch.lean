import Ymd.Gc.Interning

/-! # Fetching strings

`kstr_fetch` keeps the pool in order, and finds a short string that there is.
-/

namespace Ymd.Gc

open Foundation

section

variable {vm vm' : Vm} {out : List Addr} {x o : Addr} {z : Bytes}
  {final : BitVec 64 → Bytes → Int} {depth : Nat}

/-! ## Hashing -/

/-- Strings have been hashed, and nothing else is different. -/
structure Hashed (vm vm' : Vm) : Prop where
  content : vm'.content = vm.content
  hashed : ∀ o z hash, vm'.obj o = some (.kstr z hash) →
    hash = kzHash z ∨ vm.obj o = some (.kstr z hash)
  frame : vm' = { vm with obj := vm'.obj }

namespace Hashed

theorem refl (vm : Vm) : Hashed vm vm := ⟨rfl, fun _ _ _ hobj => .inr hobj, rfl⟩

theorem trans {vm'' : Vm} (h : Hashed vm vm') (h' : Hashed vm' vm'') : Hashed vm vm'' where
  content := h'.content.trans h.content
  hashed := by
    intro o z hash hobj
    obtain hhash | hobj' := h'.hashed o z hash hobj
    · exact .inl hhash
    · exact h.hashed o z hash hobj'
  frame := by
    have hframe := h'.frame
    rw [h.frame] at hframe
    exact hframe

theorem hashOk (h : Hashed vm vm') (hok : HashOk vm) : HashOk vm' := by
  intro o z hash hobj
  obtain hhash | hobj' := h.hashed o z hash hobj
  · exact .inr hhash
  · exact hok o z hash hobj'

theorem interned (h : Hashed vm vm') (hin : Interned out vm) : Interned out vm' := by
  apply hin.shrink
  apply Other.shrunk
  rw [h.frame]
  exact {
    kpool := rfl
    next := le_rfl
    alloced := fun o ho => ⟨hin.bounded o ho, .inl ho⟩
    nodup := hin.nodup
    content := fun o z hz => h.content ▸ hz
    kept := fun o z hz _ => (congrFun h.content o).trans hz
    hashed := h.hashed
    gray := fun _ _ _ => rfl }

end Hashed

/-- `kstr_hash` returns the hash of the contents. -/
theorem kstrHash_ok {hash : BitVec 64} (hok : HashOk vm)
    (hrun : vm.kstrHash x = .ok (hash, vm')) :
    (∃ z, vm.content x = some z ∧ hash = kzHash z) ∧ Hashed vm vm' := by
  unfold Vm.kstrHash at hrun
  split at hrun
  case h_2 => cases hrun
  case h_1 land cached hobj =>
    cases hrun
    have hhash : (if cached ≠ 0 then cached else kzHash land) = kzHash land := by
      split
      · exact (hok x land cached hobj).resolve_left ‹_›
      · rfl
    have hcontent : vm.content x = some land := content_eq_some.2 ⟨cached, hobj⟩
    rw [hhash]
    refine ⟨⟨land, hcontent, rfl⟩, ?_, ?_, rfl⟩
    · funext o
      by_cases ho : o = x
      · subst ho
        rw [hcontent]
        exact content_eq_some.2 ⟨kzHash land, Function.update_self _ _ _⟩
      · exact congrArg (Option.bind · Obj.content) (Function.update_of_ne ho _ _)
    · intro o z hash hnew
      change Function.update vm.obj x _ o = _ at hnew
      by_cases ho : o = x
      · subst ho
        rw [Function.update_self] at hnew
        cases hnew
        exact .inl rfl
      · rw [Function.update_of_ne ho] at hnew
        exact .inr hnew

/-- The same strings, pooled in another order perhaps. -/
structure SameStrings (vm vm' : Vm) : Prop where
  content : vm'.content = vm.content
  pooled : vm'.pooled.Perm vm.pooled
  marked : vm'.marked = vm.marked
  alloced : vm'.alloced = vm.alloced

theorem SameStrings.refl (vm : Vm) : SameStrings vm vm := ⟨rfl, .refl _, rfl, rfl⟩

theorem SameStrings.trans {vm'' : Vm} (h : SameStrings vm vm') (h' : SameStrings vm' vm'') :
    SameStrings vm vm'' where
  content := h'.content.trans h.content
  pooled := h'.pooled.trans h.pooled
  marked := h'.marked.trans h.marked
  alloced := h'.alloced.trans h.alloced

theorem Hashed.same (h : Hashed vm vm') : SameStrings vm vm' where
  content := h.content
  pooled := by
    rw [h.frame]
    exact .refl _
  marked := by rw [h.frame]
  alloced := by rw [h.frame]

/-! ## Growing the table -/

theorem kpoolCopyAll_ok {shift : Nat} {rest : List Addr} {slot slot' : List (List Addr)}
    (hok : HashOk vm) (hlength : slot.length = 2 ^ shift)
    (hhoused : Housed (homeOf shift vm.content) slot)
    (hrun : Vm.kpoolCopyAll shift rest slot vm = .ok (slot', vm')) :
    Hashed vm vm' ∧ slot'.length = 2 ^ shift ∧ Housed (homeOf shift vm.content) slot' ∧
      slot'.flatten.Perm (rest ++ slot.flatten) := by
  induction rest generalizing slot vm with
  | nil =>
      cases hrun
      exact ⟨.refl _, hlength, hhoused, .refl _⟩
  | cons x rest ih =>
      obtain ⟨⟨slot₁, vm₁⟩, hcopy, hrun⟩ := except_bind_ok_iff.1 hrun
      obtain ⟨⟨hash, vm₂⟩, hhash, hcopy⟩ := except_bind_ok_iff.1 hcopy
      cases hcopy
      obtain ⟨⟨z, hz, rfl⟩, hhashed⟩ := kstrHash_ok hok hhash
      have hhome : (kzHash z).toNat % 2 ^ shift = homeOf shift vm.content x := by
        rw [homeOf, hz]
        rfl
      rw [hhome] at hrun
      have hlt : homeOf shift vm.content x < slot.length := by
        rw [hlength]
        exact Nat.mod_lt _ (Nat.two_pow_pos shift)
      rw [← hhashed.content] at hhoused hrun hlt
      obtain ⟨hhashed', hlength', hhoused', hperm⟩ := ih (hhashed.hashOk hok)
        (by rw [List.length_modify, hlength]) (hhoused.push x) hrun
      refine ⟨hhashed.trans hhashed', hlength', hhashed.content ▸ hhoused', ?_⟩
      exact hperm.trans (((flatten_push hlt x).append_left rest).trans List.perm_middle)

/-- Another table with the same strings. -/
theorem Interned.relink (h : Interned out vm) {shift : Nat} {slot : List (List Addr)}
    (hlength : slot.length = 2 ^ shift) (hhoused : Housed (homeOf shift vm.content) slot)
    (hperm : slot.flatten.Perm vm.pooled) :
    Interned out { vm with kpool := { vm.kpool with slot := slot, shift := shift } } where
  pool := {
    slots := hlength
    short := fun o ho => h.pool.short o (hperm.mem_iff.1 ho)
    housed := hhoused
    distinct := (hperm.map vm.content).nodup_iff.2 h.pool.distinct
    used := h.pool.used.trans (congrArg Nat.cast hperm.length_eq.symm) }
  every := fun o z hz hshort => (h.every o z hz hshort).imp_left hperm.mem_iff.2
  hashed := h.hashed
  fresh := h.fresh
  bounded := h.bounded
  apart := fun o ho hin => h.apart o ho (hperm.mem_iff.1 hin)
  nodup := h.nodup

/-- A bigger table holds the same strings. -/
theorem kpoolResize_ok {shift : Nat} (h : Interned out vm)
    (hrun : vm.kpoolResize shift = .ok vm') :
    Interned out vm' ∧ SameStrings vm vm' := by
  unfold Vm.kpoolResize at hrun
  split at hrun
  · cases hrun
  obtain ⟨⟨slot, vm₁⟩, hcopy, hrun⟩ := except_bind_ok_iff.1 hrun
  cases hrun
  obtain ⟨hhashed, hlength, hhoused, hperm⟩ :=
    kpoolCopyAll_ok h.hashed List.length_replicate (Housed.empty _) hcopy
  rw [List.flatten_replicate_nil, List.append_nil] at hperm
  have h₁ := hhashed.interned h
  have hpooled : vm₁.pooled = vm.pooled := by
    rw [hhashed.frame]
    rfl
  rw [← hhashed.content] at hhoused
  have hperm₁ : slot.flatten.Perm vm₁.pooled := hpooled ▸ hperm
  exact ⟨h₁.relink hlength hhoused hperm₁, hhashed.content, hperm, hhashed.same.marked,
    hhashed.same.alloced⟩

theorem kpoolGrow_ok (h : Interned out vm) (hrun : vm.kpoolGrow = .ok vm') :
    Interned out vm' ∧ SameStrings vm vm' := by
  rw [Vm.kpoolGrow] at hrun
  split at hrun
  · exact kpoolResize_ok h hrun
  · cases hrun
    exact ⟨h, .refl _⟩

/-! ## Making strings -/

theorem content_update (vm : Vm) (x : Addr) (z : Bytes) (o : Addr) :
    (Function.update vm.obj x (some (.kstr z 0)) o).bind Obj.content =
      if o = x then some z else vm.content o := by
  by_cases ho : o = x
  · rw [if_pos ho, ho, Function.update_self]
    rfl
  · rw [if_neg ho, Function.update_of_ne ho]
    rfl

/-- A string outside the pool is written. -/
theorem Interned.write {out' alloced : List Addr} {next : Addr} {m : Addr → BitVec 16}
    (h : Interned out vm) (hx : x ∉ vm.pooled) (hlt : x < next) (hnext : vm.next ≤ next)
    (hlisted : ∀ o ∈ alloced ++ out', o = x ∨ o ∈ vm.alloced ++ out)
    (hbounded : ∀ o ∈ alloced, o < next) (hnodup : alloced.Nodup)
    (hout : ∀ o ∈ out, o = x ∨ o ∈ out') (hshort : z.length < maxKpoolLen → x ∈ out') :
    Interned out' { vm with
      next := next
      obj := Function.update vm.obj x (some (.kstr z 0))
      marked := m
      alloced := alloced } := by
  have hcontent := content_update vm x z
  have hpooled : ∀ o ∈ vm.pooled,
      (Function.update vm.obj x (some (.kstr z 0)) o).bind Obj.content = vm.content o := by
    intro o ho
    rw [hcontent, if_neg]
    rintro rfl
    exact hx ho
  constructor
  · constructor
    · exact h.pool.slots
    · intro o ho
      obtain ⟨y, hy, hlength⟩ := h.pool.short o ho
      exact ⟨y, (hpooled o ho).trans hy, hlength⟩
    -- the slot of a string depends on its contents only
    · apply h.pool.housed.congr
      intro o ho
      unfold homeOf
      exact congrArg (fun c : Option Bytes => (kzHash (c.getD [])).toNat % _) (hpooled o ho)
    · change (vm.pooled.map fun o =>
        (Function.update vm.obj x (some (.kstr z 0)) o).bind Obj.content).Nodup
      rw [List.map_congr_left hpooled]
      exact h.pool.distinct
    · exact h.pool.used
  · intro o y hy hlength
    change (Function.update vm.obj x (some (.kstr z 0)) o).bind Obj.content = some y at hy
    rw [hcontent] at hy
    split at hy
    case isTrue ho =>
      cases hy
      exact .inr (ho ▸ hshort hlength)
    case isFalse ho =>
      exact (h.every o y hy hlength).imp_right fun hin => (hout o hin).resolve_left ho
  · intro o y hash hobj
    change Function.update vm.obj x (some (.kstr z 0)) o = _ at hobj
    by_cases ho : o = x
    · rw [ho, Function.update_self] at hobj
      cases hobj
      exact .inl rfl
    · rw [Function.update_of_ne ho] at hobj
      exact h.hashed o y hash hobj
  · intro o y hy
    change (Function.update vm.obj x (some (.kstr z 0)) o).bind Obj.content = some y at hy
    rw [hcontent] at hy
    split at hy
    case isTrue ho => exact ho ▸ hlt
    case isFalse => exact (h.fresh o y hy).trans_le hnext
  · exact hbounded
  · intro o ho hin
    obtain rfl | hold := hlisted o ho
    · exact hx hin
    · exact h.apart o hold hin
  · exact hnodup

theorem Interned.below (h : Interned out vm) (ho : o ∈ vm.pooled) : o < vm.next := by
  obtain ⟨z, hz, _⟩ := h.pool.short o ho
  exact h.fresh o z hz

/-- A new string is not pooled yet. -/
theorem Interned.make (h : Interned [] vm) (z : Bytes) :
    Interned [vm.next] { vm with
      next := vm.next + 1
      obj := Function.update vm.obj vm.next (some (.kstr z 0))
      marked := Function.update vm.marked vm.next grayBit0 } := by
  apply h.write (fun hin => (h.below hin).ne rfl) (Nat.lt_succ_self _) (Nat.le_succ _)
  · intro o ho
    obtain ho | ho := List.mem_append.1 ho
    · exact .inr (List.mem_append_left _ ho)
    · exact .inl (List.mem_singleton.1 ho)
  · exact fun o ho => (h.bounded o ho).trans (Nat.lt_succ_self _)
  · exact h.nodup
  · exact fun o ho => absurd ho List.not_mem_nil
  · exact fun _ => List.mem_singleton_self _

/-- A long string is put on the list of objects. -/
theorem Interned.track (h : Interned [x] vm) (hx : x ∉ vm.alloced) (hlt : x < vm.next)
    (hlong : maxKpoolLen ≤ z.length) :
    Interned [] { vm with
      obj := Function.update vm.obj x (some (.kstr z 0))
      alloced := x :: vm.alloced } := by
  have hapart : x ∉ vm.pooled := h.apart x (List.mem_append_right _ (List.mem_singleton_self x))
  apply h.write hapart hlt le_rfl
  · intro o ho
    rw [List.append_nil] at ho
    exact (List.mem_cons.1 ho).imp_right (List.mem_append_left _)
  · exact List.forall_mem_cons.2 ⟨hlt, h.bounded⟩
  · exact List.nodup_cons.2 ⟨hx, h.nodup⟩
  · exact fun o ho => .inl (List.mem_singleton.1 ho)
  · exact fun hshort => absurd hshort (not_lt.2 hlong)

/-- A short string that is made and not pooled yet. -/
structure Pending (x : Addr) (z : Bytes) (vm : Vm) : Prop where
  interned : Interned [x] vm
  content : vm.content x = some z
  gray : hasBits vm.marked x grayBit0 = true
  unlisted : x ∉ vm.alloced
  new : ∀ o ∈ vm.pooled, vm.content o ≠ some z

theorem Pending.same (h : Pending x z vm) (hsame : SameStrings vm vm')
    (hin : Interned [x] vm') : Pending x z vm' where
  interned := hin
  content := hsame.content ▸ h.content
  gray := hsame.marked ▸ h.gray
  unlisted := hsame.alloced ▸ h.unlisted
  new := by
    intro o ho
    rw [hsame.content]
    exact h.new o (hsame.pooled.mem_iff.1 ho)

/-- A short string is put into the pool. -/
theorem Pending.push (h : Pending x z vm) (hshort : z.length < maxKpoolLen) :
    Interned [] { vm with kpool := { vm.kpool with
      slot := vm.kpool.slot.modify ((kzHash z).toNat % 2 ^ vm.kpool.shift) (x :: ·)
      used := vm.kpool.used + 1 } } := by
  have hhome : (kzHash z).toNat % 2 ^ vm.kpool.shift = homeOf vm.kpool.shift vm.content x := by
    rw [homeOf, h.content]
    rfl
  have hlt : (kzHash z).toNat % 2 ^ vm.kpool.shift < vm.kpool.slot.length := by
    rw [h.interned.pool.slots]
    exact Nat.mod_lt _ (Nat.two_pow_pos _)
  have hperm := flatten_push hlt x
  have hmem : ∀ o, o ∈ (vm.kpool.slot.modify ((kzHash z).toNat % 2 ^ vm.kpool.shift)
      (x :: ·)).flatten ↔ o = x ∨ o ∈ vm.pooled :=
    fun o => hperm.mem_iff.trans List.mem_cons
  constructor
  · constructor
    · exact (List.length_modify ..).trans h.interned.pool.slots
    · intro o ho
      obtain rfl | hold := (hmem o).1 ho
      · exact ⟨z, h.content, hshort⟩
      · exact h.interned.pool.short o hold
    · change Housed (homeOf vm.kpool.shift vm.content) _
      dsimp only
      rw [hhome]
      exact h.interned.pool.housed.push x
    · apply (hperm.map vm.content).nodup_iff.2
      rw [List.map_cons, List.nodup_cons]
      refine ⟨?_, h.interned.pool.distinct⟩
      intro hin
      obtain ⟨o, ho, hsame⟩ := List.mem_map.1 hin
      exact h.new o ho (hsame.trans h.content)
    · change vm.kpool.used + 1 = ((List.flatten _).length : Int)
      rw [hperm.length_eq, List.length_cons, h.interned.pool.used]
      rfl
  · intro o y hy hlength
    apply Or.inl
    apply (hmem o).2
    obtain hin | hin := h.interned.every o y hy hlength
    · exact .inr hin
    · exact .inl (List.mem_singleton.1 hin)
  · exact h.interned.hashed
  · exact h.interned.fresh
  · exact h.interned.bounded
  · intro o ho hin
    rw [List.append_nil] at ho
    obtain rfl | hold := (hmem o).1 hin
    · exact h.unlisted ho
    · exact h.interned.apart o (List.mem_append_left _ ho) hold
  · exact h.interned.nodup

/-! ## Fetching -/

/-- Gray strings are still there, and gray. -/
def Spares (vm vm' : Vm) : Prop :=
  ∀ o z, vm.content o = some z → hasBits vm.marked o grayBit0 = true →
    vm'.content o = some z ∧ hasBits vm'.marked o grayBit0 = true

theorem Spares.trans {vm'' : Vm} (h : Spares vm vm') (h' : Spares vm' vm'') : Spares vm vm'' := by
  intro o z hz hgray
  obtain ⟨hz', hgray'⟩ := h o z hz hgray
  exact h' o z hz' hgray'

theorem Shrunk.spares (h : Shrunk vm vm') : Spares vm vm' := by
  intro o z hz hgray
  have hz' := h.spared o z hz hgray
  exact ⟨hz', (h.gray o z hz').trans hgray⟩

theorem SameStrings.spares (h : SameStrings vm vm') : Spares vm vm' := by
  intro o z hz hgray
  rw [h.content, h.marked]
  exact ⟨hz, hgray⟩

/-- A string is written where there was none at first. -/
theorem Spares.write {next : Addr} {alloced : List Addr} {m : Addr → BitVec 16}
    (h : Spares vm vm') (hfresh : ∀ y, vm.content x ≠ some y)
    (hm : ∀ o, o ≠ x → m o = vm'.marked o) :
    Spares vm { vm' with
      next := next
      obj := Function.update vm'.obj x (some (.kstr z 0))
      marked := m
      alloced := alloced } := by
  intro o y hy hgray
  obtain ⟨hy', hgray'⟩ := h o y hy hgray
  have hne : o ≠ x := by
    rintro rfl
    exact hfresh y hy
  refine ⟨(content_update vm' x z o).trans ((if_neg hne).trans hy'), ?_⟩
  change hasBits m o grayBit0 = true
  rw [hasBits, hm o hne]
  exact hgray'

theorem gray_update (m : Addr → BitVec 16) (x : Addr) :
    hasBits (Function.update m x grayBit0) x grayBit0 = true := by
  rw [hasBits, Function.update_self]
  decide

theorem gcRecord_shrunk {due : Bool} (h : Interned out vm)
    (hrun : vm.gcRecord final depth due = .ok vm') : Shrunk vm vm' := by
  rw [Vm.gcRecord] at hrun
  split at hrun
  · exact collect_shrunk h hrun
  · cases hrun
    exact .refl h

/-- `kpool_insert` makes a string and pools it. -/
theorem kpoolInsert_ok {due : Bool} (h : Interned [] vm) (hshort : z.length < maxKpoolLen)
    (hnew : ∀ o ∈ vm.pooled, vm.content o ≠ some z)
    (hrun : vm.kpoolInsert final depth due z = .ok (o, vm')) :
    Interned [] vm' ∧ Spares vm vm' ∧ vm'.content o = some z ∧
      hasBits vm'.marked o grayBit0 = true := by
  obtain ⟨⟨x, vm₂⟩, hmake, hrun⟩ := except_bind_ok_iff.1 hrun
  obtain ⟨vm₃, hresize, hrun⟩ := except_bind_ok_iff.1 hrun
  obtain ⟨⟨hash, vm₄⟩, hhash, hrun⟩ := except_bind_ok_iff.1 hrun
  cases hrun
  -- the string is made behind a collection
  obtain ⟨vm₁, hrecord, hmake⟩ := except_bind_ok_iff.1 hmake
  cases hmake
  have hshrunk := gcRecord_shrunk h hrecord
  have h₁ := h.shrink hshrunk
  have hfresh : ∀ y, vm.content vm₁.next ≠ some y :=
    fun y hy => ((h.fresh _ y hy).trans_le hshrunk.next).ne rfl
  have hself : ∀ {α : Type} (f : Addr → α) (a : α), Function.update f vm₁.next a vm₁.next = a :=
    fun f a => Function.update_self _ _ _
  have hpending : Pending vm₁.next z { vm₁ with
      next := vm₁.next + 1
      obj := Function.update vm₁.obj vm₁.next (some (.kstr z 0))
      marked := Function.update vm₁.marked vm₁.next grayBit0 } := by
    refine ⟨h₁.make z, content_eq_some.2 ⟨0, hself _ _⟩, ?_, ?_, ?_⟩
    · exact gray_update _ _
    · exact fun hin => (h₁.bounded _ hin).ne rfl
    · intro o ho
      have hne : o ≠ vm₁.next := (h₁.below ho).ne
      refine fun hsame => hnew o ((flatten_shrink hshrunk.slot).subset ho) ?_
      rw [← hshrunk.kept o ho, ← hsame]
      exact ((content_update vm₁ _ z o).trans (if_neg hne)).symm
  -- and pooled behind a growth of the table
  have hgrow := kpoolGrow_ok hpending.interned hresize
  have hpending₃ := hpending.same hgrow.2 hgrow.1
  obtain ⟨⟨y, hy, rfl⟩, hhashed⟩ := kstrHash_ok hpending₃.interned.hashed hhash
  have hpending₄ := hpending₃.same hhashed.same (hhashed.interned hpending₃.interned)
  cases Option.some.inj (hy.symm.trans hpending₃.content)
  have hmade : Spares vm { vm₁ with
      next := vm₁.next + 1
      obj := Function.update vm₁.obj vm₁.next (some (.kstr z 0))
      marked := Function.update vm₁.marked vm₁.next grayBit0 } :=
    hshrunk.spares.write hfresh fun o ho => Function.update_of_ne ho _ _
  have hspares := (hmade.trans hgrow.2.spares).trans hhashed.same.spares
  exact ⟨hpending₄.push hshort, hspares, hpending₄.content, hpending₄.gray⟩

/-- The loop of `kpool_index` finds a string with the contents. -/
theorem kpoolSearch_some {list : List Addr} (hrun : vm.kpoolSearch z list = .ok (some o)) :
    o ∈ list ∧ vm.content o = some z := by
  induction list with
  | nil => cases hrun
  | cons x next ih =>
      obtain ⟨y, hy, hrun⟩ := except_bind_ok_iff.1 hrun
      split at hrun
      case isTrue hsame =>
        cases hrun
        obtain ⟨hash, hobj⟩ := kstr_eq_ok hy
        exact ⟨List.mem_cons_self, hsame ▸ content_eq_some.2 ⟨hash, hobj⟩⟩
      case isFalse =>
        obtain ⟨hin, hz⟩ := ih hrun
        exact ⟨List.mem_cons_of_mem _ hin, hz⟩

theorem kpoolSearch_none {list : List Addr} (hrun : vm.kpoolSearch z list = .ok none) :
    ∀ o ∈ list, vm.content o ≠ some z := by
  induction list with
  | nil => exact fun o ho => absurd ho List.not_mem_nil
  | cons x next ih =>
      obtain ⟨y, hy, hrun⟩ := except_bind_ok_iff.1 hrun
      split at hrun
      case isTrue => cases hrun
      case isFalse hne =>
        obtain ⟨hash, hobj⟩ := kstr_eq_ok hy
        apply List.forall_mem_cons.2 ⟨?_, ih hrun⟩
        intro hz
        obtain ⟨hash', hobj'⟩ := content_eq_some.1 hz
        cases hobj.symm.trans hobj'
        exact hne rfl

/-- A search among strings ends. -/
theorem kpoolSearch_total {list : List Addr} (hlist : ∀ o ∈ list, ∃ y, vm.content o = some y) :
    ∃ r, vm.kpoolSearch z list = .ok r := by
  induction list with
  | nil => exact ⟨none, rfl⟩
  | cons x next ih =>
      obtain ⟨y, hy⟩ := hlist x List.mem_cons_self
      obtain ⟨hash, hobj⟩ := content_eq_some.1 hy
      have hkstr : vm.kstr x = .ok y := cast_eq_ok.2 ⟨_, hobj, rfl⟩
      obtain ⟨r, hr⟩ := ih fun o ho => hlist o (List.mem_cons_of_mem _ ho)
      rw [Vm.kpoolSearch, hkstr]
      by_cases hsame : y = z
      · exact ⟨some x, if_pos hsame⟩
      · exact ⟨r, (if_neg hsame).trans hr⟩

/-- `kstr_new` of a long string. -/
theorem kstrNew_long {due : Bool} (h : Interned [] vm) (hlong : maxKpoolLen ≤ z.length)
    (hrun : vm.kstrNew final depth false due z = .ok (o, vm')) :
    Interned [] vm' ∧ Spares vm vm' ∧ vm'.content o = some z ∧
      hasBits vm'.marked o grayBit0 = true := by
  obtain ⟨⟨x, vm₂⟩, hnew, hrun⟩ := except_bind_ok_iff.1 hrun
  obtain ⟨vm₁, hrecord, hnew⟩ := except_bind_ok_iff.1 hnew
  cases hnew
  cases hrun
  have hfresh : ∀ y, vm.content vm.next ≠ some y := fun y hy => (h.fresh _ y hy).ne rfl
  have hmake := h.make []
  have hself : ∀ {α : Type} (f : Addr → α) (a : α), Function.update f vm.next a vm.next = a :=
    fun f a => Function.update_self _ _ _
  -- the empty string is gray when the collection comes
  have hshrunk := gcRecord_shrunk hmake hrecord
  have h₁ := hmake.shrink hshrunk
  have hrefl : Spares vm vm := fun o y hy hgray => ⟨hy, hgray⟩
  have hspares := (hrefl.write hfresh fun o ho => Function.update_of_ne ho _ _).trans hshrunk.spares
  have hx := hshrunk.spares vm.next [] (content_eq_some.2 ⟨0, hself _ _⟩) (gray_update _ _)
  have hunlisted : vm.next ∉ vm₁.alloced := by
    intro hin
    obtain hold | hnew := (hshrunk.alloced _ hin).2
    · exact (h.bounded _ hold).ne rfl
    · exact absurd hnew (Nat.not_succ_le_self vm.next)
  refine ⟨h₁.track hunlisted (h₁.fresh _ [] hx.1) hlong, ?_, ?_, hx.2⟩
  · exact hspares.write hfresh fun o _ => rfl
  · exact content_eq_some.2 ⟨0, Function.update_self _ _ _⟩

/-- `kstr_fetch` makes a gray string, or finds a pooled one. -/
theorem kstrFetch_ok {due : Bool} (h : Interned [] vm)
    (hrun : vm.kstrFetch final depth due z = .ok (o, vm')) :
    Interned [] vm' ∧ Spares vm vm' ∧ vm'.content o = some z ∧
      (hasBits vm'.marked o grayBit0 = true ∨ o ∈ vm.pooled ∧ vm' = vm) := by
  rw [Vm.kstrFetch] at hrun
  split at hrun
  case isFalse hlong =>
    obtain ⟨h', hspares, hz, hgray⟩ := kstrNew_long h (not_lt.1 hlong) hrun
    exact ⟨h', hspares, hz, .inl hgray⟩
  case isTrue hshort =>
    rw [Vm.kpoolIndex] at hrun
    split at hrun
    case h_1 => cases hrun
    case h_2 list hlist =>
      have hin : ∀ x ∈ list, x ∈ vm.pooled :=
        fun x hx => List.mem_flatten.2 ⟨list, List.mem_of_getElem? hlist, hx⟩
      split at hrun
      case h_1 => cases hrun
      case h_2 x hsearch =>
        cases hrun
        obtain ⟨hx, hz⟩ := kpoolSearch_some hsearch
        exact ⟨h, fun _ _ hy hgray => ⟨hy, hgray⟩, hz, .inr ⟨hin _ hx, rfl⟩⟩
      case h_3 hsearch =>
        have hnew : ∀ o ∈ vm.pooled, vm.content o ≠ some z := by
          intro o ho hz
          obtain ⟨chain, hchain, hmem⟩ := h.pool.housed.mem_chain ho
          rw [homeOf, hz, Option.getD_some] at hchain
          cases hchain.symm.trans hlist
          exact kpoolSearch_none hsearch o hmem hz
        obtain ⟨h', hspares, hz, hgray⟩ := kpoolInsert_ok h hshort hnew hrun
        exact ⟨h', hspares, hz, .inl hgray⟩

/-- A short string that there is is found, and nothing is changed. -/
theorem kstrFetch_finds (h : Interned [] vm) (due : Bool) (hz : vm.content o = some z)
    (hshort : z.length < maxKpoolLen) : vm.kstrFetch final depth due z = .ok (o, vm) := by
  have hpooled : o ∈ vm.pooled := (h.every o z hz hshort).resolve_right List.not_mem_nil
  obtain ⟨chain, hchain, hmem⟩ := h.pool.housed.mem_chain hpooled
  have hin : ∀ x ∈ chain, x ∈ vm.pooled :=
    fun x hx => List.mem_flatten.2 ⟨chain, List.mem_of_getElem? hchain, hx⟩
  rw [homeOf, hz, Option.getD_some] at hchain
  obtain ⟨r, hr⟩ : ∃ r, vm.kpoolSearch z chain = .ok r := by
    apply kpoolSearch_total
    intro x hx
    obtain ⟨y, hy, _⟩ := h.pool.short x (hin x hx)
    exact ⟨y, hy⟩
  rw [Vm.kstrFetch, if_pos hshort, Vm.kpoolIndex, hchain]
  dsimp only
  rw [hr]
  cases r with
  | none => exact absurd hz (kpoolSearch_none hr o hmem)
  | some x =>
      obtain ⟨hx, hxz⟩ := kpoolSearch_some hr
      have hsame : x = o :=
        List.inj_on_of_nodup_map h.pool.distinct (hin x hx) hpooled (hxz.trans hz.symm)
      rw [hsame]
      rfl

/-! ## Runs -/

theorem gcRelease_interned (h : Interned out vm) (o : Addr) : Interned out (vm.gcRelease o) where
  pool := ⟨h.pool.slots, h.pool.short, h.pool.housed, h.pool.distinct, h.pool.used⟩
  every := h.every
  hashed := h.hashed
  fresh := h.fresh
  bounded := h.bounded
  apart := h.apart
  nodup := h.nodup

theorem Step.interned {act : Act} (hstep : Step final depth vm act vm') (h : Interned [] vm) :
    Interned [] vm' := by
  cases hstep with
  | fetch hrun => exact (kstrFetch_ok h hrun).1
  | release => exact gcRelease_interned h _
  | mark hrun => exact h.shrink (gcMark_shrunk h hrun)
  | sweepPool hrun => exact h.shrink (gcKpoolSweep_shrunk h hrun)
  | sweep hrun => exact h.shrink (gcSweep_shrunk h hrun)
  | other hother => exact h.shrink hother.shrunk

theorem kpoolInit_interned : Interned [] Vm.zero.kpoolInit where
  pool := {
    slots := List.length_replicate
    short := fun _ ho => by
      rw [Vm.pooled, Vm.kpoolInit, List.flatten_replicate_nil] at ho
      cases ho
    housed := Housed.empty _
    distinct := by
      rw [Vm.pooled, Vm.kpoolInit, List.flatten_replicate_nil]
      exact List.nodup_nil
    used := by
      rw [Vm.pooled, Vm.kpoolInit, List.flatten_replicate_nil]
      rfl }
  every := fun _ _ hz => nomatch hz
  hashed := fun _ _ _ hobj => nomatch hobj
  fresh := fun _ _ hz => nomatch hz
  bounded := fun _ ho => nomatch ho
  apart := fun _ ho => nomatch ho
  nodup := List.nodup_nil

theorem interned_of_runs {guard : Vm → Act → Prop}
    (hrun : Runs (Step final depth) guard Vm.zero.kpoolInit vm) : Interned [] vm :=
  hrun.invariant (fun _ _ _ h _ hstep => hstep.interned h) kpoolInit_interned

/-- In every state that is reached the pool is in order, and a short string that
there is is the one a fetch of its contents returns. -/
theorem kpool_interns
    (hrun : Runs (Step final depth) (fun _ _ => True) Vm.zero.kpoolInit vm) :
    PoolOk vm ∧ ∀ o z due, vm.content o = some z → z.length < maxKpoolLen →
      vm.kstrFetch final depth due z = .ok (o, vm) := by
  have h := interned_of_runs hrun
  exact ⟨h.pool, fun o z due hz hshort => kstrFetch_finds h due hz hshort⟩

/-- A machine with an empty global map. -/
def withGlobal : Vm :=
  { Vm.zero.kpoolInit with
    obj := Function.update (fun _ => none) 0 (some (.hmap []))
    next := 1
    alloced := [0] }

theorem withGlobal_obj {o : Addr} {z : Bytes} {hash : BitVec 64} :
    withGlobal.obj o ≠ some (.kstr z hash) := by
  change Function.update (fun _ => none) 0 (some (Obj.hmap [])) o ≠ _
  by_cases ho : o = 0
  · rw [ho, Function.update_self]
    exact nofun
  · rw [Function.update_of_ne ho]
    exact nofun

theorem withGlobal_other : Other Vm.zero.kpoolInit withGlobal where
  kpool := rfl
  next := Nat.zero_le _
  alloced := fun o ho => ⟨by simpa [withGlobal] using ho, .inr (Nat.zero_le _)⟩
  nodup := List.nodup_singleton 0
  content := by
    intro o z hz
    obtain ⟨hash, hobj⟩ := content_eq_some.1 hz
    exact absurd hobj withGlobal_obj
  kept := fun _ _ hz => nomatch hz
  hashed := fun _ _ _ hobj => absurd hobj withGlobal_obj
  gray := fun _ _ hz => nomatch hz

/-- `a` is fetched and let go; the allocation of `b` collects it. -/
theorem kpool_interns_collected : ∃ vm,
    Runs (Step (fun _ _ => 0) 1) (fun _ _ => True) Vm.zero.kpoolInit vm ∧
      vm.content 1 = none ∧ vm.content 2 = some (lit "b") ∧ PoolOk vm ∧
        ∀ due, vm.kstrFetch (fun _ _ => 0) 1 due (lit "b") = .ok (2, vm) := by
  have hrun : (do
      let a ← withGlobal.kstrFetch (fun _ _ => 0) 1 false (lit "a")
      let b ← (a.2.gcRelease a.1).kstrFetch (fun _ _ => 0) 1 true (lit "b")
      return decide (a.1 = 1 ∧ b.1 = 2 ∧ b.2.content 1 = none ∧ b.2.content 2 = some (lit "b"))) =
      .ok true := by decide +kernel
  obtain ⟨⟨o₁, vm₁⟩, ha, hrun⟩ := except_bind_ok_iff.1 hrun
  obtain ⟨⟨o₂, vm₂⟩, hb, hrun⟩ := except_bind_ok_iff.1 hrun
  obtain ⟨rfl, rfl, hgone, hthere⟩ := of_decide_eq_true (Except.ok.inj hrun)
  have hruns : Runs (Step (fun _ _ => 0) 1) (fun _ _ => True) Vm.zero.kpoolInit vm₂ :=
    (((Runs.single trivial (.other withGlobal_other)).tail trivial (.fetch ha)).tail trivial
      (.release (o := 1))).tail trivial (.fetch hb)
  obtain ⟨hpool, hfound⟩ := kpool_interns hruns
  exact ⟨vm₂, hruns, hgone, hthere, hpool, fun due => hfound 2 _ due hthere (by decide)⟩

end

end Ymd.Gc
