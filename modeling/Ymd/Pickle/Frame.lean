import Ymd.Pickle.Format
import Ymd.Machine.Effect

/-! # What a reading does to the machine

A reading leaves the objects that were there alone. A complete value leaves one
entry on the stack; a rejected one leaves as many as it says, on top of what was
there.
-/

namespace Ymd

open Foundation

/-- The memory of a reading that began with `m₀` and may not touch the objects
below `n`. -/
structure Mem.Inv (m : Mem) (n : Addr) (m₀ : Mem) (S : List Variable) : Prop where
  stk : m.l.stk = S
  room : n ≤ m.l.heap.next
  obj : ∀ a < n, m.l.heap.obj a = m₀.l.heap.obj a
  debug : ∀ a < n, m.debug a = m₀.debug a

/-- Some entries are left on top of the stack. -/
def Mem.Pending (m : Mem) (n : Addr) (m₀ : Mem) (S : List Variable) (k : Nat) : Prop :=
  ∃ T : List Variable, T.length = k ∧ m.Inv n m₀ (T ++ S)

namespace Mem

variable {n : Addr} {m₀ m : Mem} {S : List Variable}

theorem Inv.refl (hn : n ≤ m.l.heap.next) : m.Inv n m m.l.stk :=
  ⟨rfl, hn, fun _ _ => rfl, fun _ _ => rfl⟩

theorem Inv.pending (hinv : m.Inv n m₀ S) : m.Pending n m₀ S 0 := ⟨[], rfl, hinv⟩

theorem Pending.under {v : Variable} {k : Nat} (hpending : m.Pending n m₀ (v :: S) k) :
    m.Pending n m₀ S (k + 1) := by
  obtain ⟨T, rfl, hinv⟩ := hpending
  exact ⟨T ++ [v], by simp, by simpa using hinv⟩

theorem Inv.tick (hinv : m.Inv n m₀ S) : m.tick.Inv n m₀ S :=
  ⟨hinv.stk, hinv.room, hinv.obj, hinv.debug⟩

theorem Inv.setBare (hinv : m.Inv n m₀ S) (bare : Addr → Bool) :
    Inv { m with bare := bare } n m₀ S :=
  ⟨hinv.stk, hinv.room, hinv.obj, hinv.debug⟩

/-- A step of the machine that leaves the objects below `n` alone. -/
theorem Inv.step (hinv : m.Inv n m₀ S) {l : Ctx} (hnext : m.l.heap.next ≤ l.heap.next)
    (hobj : ∀ a < n, l.heap.obj a = m.l.heap.obj a) {S' : List Variable} (hstk : l.stk = S') :
    Inv { m with l := l } n m₀ S' :=
  ⟨hstk, hinv.room.trans hnext, fun a ha => (hobj a ha).trans (hinv.obj a ha), hinv.debug⟩

/-- A store above `n`. -/
theorem Inv.store (hinv : m.Inv n m₀ S) {o : Addr} (ho : n ≤ o) (obj : Obj)
    (S' : List Variable) :
    Inv { m with l := { m.l with heap := m.l.heap.set o obj, stk := S' } } n m₀ S' :=
  hinv.step (l := { m.l with heap := m.l.heap.set o obj, stk := S' }) le_rfl
    (fun _ ha => Heap.obj_set_of_ne (Nat.ne_of_lt (Nat.lt_of_lt_of_le ha ho))) rfl

theorem Inv.restack (hinv : m.Inv n m₀ S) (S' : List Variable) :
    Inv { m with l := { m.l with stk := S' } } n m₀ S' :=
  hinv.step (l := { m.l with stk := S' }) le_rfl (fun _ _ => rfl) rfl

/-- A new object, and an entry for it. -/
theorem Inv.alloc (hinv : m.Inv n m₀ S) (obj : Obj) (S' : List Variable) :
    Inv { m with l := { m.l with heap := (m.l.heap.alloc obj).1, stk := S' } } n m₀ S' :=
  hinv.step (l := { m.l with heap := (m.l.heap.alloc obj).1, stk := S' }) (Nat.le_succ _)
    (fun _ ha => Heap.obj_alloc_of_ne (Nat.ne_of_lt (Nat.lt_of_lt_of_le ha hinv.room))) rfl

end Mem

namespace Format

variable {α β : Type} {P : Mem → Prop} {Q : α → Mem → Prop} {R : Nat → Mem → Prop}

/-- What holds of the machine behind a reading, complete or rejected, and no
lack of room on the C stack. -/
def Sat (r : Format α) (P : Mem → Prop) (Q : α → Mem → Prop) (R : Nat → Mem → Prop) : Prop :=
  ∀ m z, P m → match r m z with
    | .ok (.done a m' _) => Q a m'
    | .ok (.rejected k m') => R k m'
    | .ok (.panicked _ _) => True
    | .error d => d ≠ .nesting

theorem Sat.bind {r : Format α} {f : α → Format β} {Q' : β → Mem → Prop} (hr : r.Sat P Q R)
    (hf : ∀ a, (f a).Sat (Q a) Q' R) : (r >>= f).Sat P Q' R := by
  intro m z hP
  have hrun := hr m z hP
  rw [bind_apply]
  cases h : r m z with
  | error d => rwa [h] at hrun
  | ok out =>
      rw [h] at hrun
      cases out with
      | done a m' z' => exact hf a m' z' hrun
      | rejected k m' => exact hrun
      | panicked msg m' => trivial

theorem Sat.pre {r : Format α} {P' : Mem → Prop} (hr : r.Sat P' Q R) (himp : ∀ m, P m → P' m) :
    r.Sat P Q R :=
  fun m z hP => hr m z (himp m hP)

theorem Sat.mono {r : Format α} {Q' : α → Mem → Prop} {R' : Nat → Mem → Prop} (hr : r.Sat P Q R)
    (hQ : ∀ a m, Q a m → Q' a m) (hR : ∀ k m, R k m → R' k m) : r.Sat P Q' R' := by
  intro m z hP
  have hrun := hr m z hP
  cases h : r m z with
  | error d => rwa [h] at hrun
  | ok out =>
      rw [h] at hrun
      cases out with
      | done a m' z' => exact hQ a m' hrun
      | rejected k m' => exact hR k m' hrun
      | panicked msg m' => trivial

theorem Sat.pure (a : α) : (Format.pure a).Sat P (fun _ => P) R := fun _ _ hP => hP

/-- A fact about the machine that does not depend on its state. -/
theorem Sat.given {C : Prop} {r : Format α} (hr : C → r.Sat P Q R) :
    r.Sat (fun m => P m ∧ C) Q R :=
  fun m z hP => hr hP.2 m z hP.1

theorem Sat.ite {c : Prop} [Decidable c] {r r' : Format α} (hr : c → r.Sat P Q R)
    (hr' : ¬ c → r'.Sat P Q R) : (if c then r else r').Sat P Q R := by
  by_cases hc : c
  · rw [if_pos hc]
    exact hr hc
  · rw [if_neg hc]
    exact hr' hc

theorem Sat.reject {Q : Unit → Mem → Prop} (himp : ∀ m, P m → R 0 m) :
    Format.reject.Sat P Q R := fun m _ hP => himp m hP

theorem Sat.defect {d : Defect} (hd : d ≠ .nesting) : (Format.defect d : Format α).Sat P Q R :=
  fun _ _ _ => hd

theorem Sat.varint (decode : Bytes → Option (α × Bytes)) :
    (Format.varint decode).Sat P (fun _ => P) R := by
  intro m z hP
  cases h : decode z with
  | none => simp [Format.varint, h]
  | some out => simpa [Format.varint, h] using hP

theorem Sat.take (n : Nat) : (Format.take n).Sat P (fun _ => P) R := by
  intro m z hP
  by_cases hn : n ≤ z.length
  · simpa [Format.take, hn] using hP
  · simp [Format.take, hn]

theorem Sat.upToNul : Format.upToNul.Sat P (fun _ => P) R := by
  intro m z hP
  by_cases hnul : 0 ∈ z
  · simpa [Format.upToNul, hnul] using hP
  · simp [Format.upToNul, hnul]

theorem Sat.remain : Format.remain.Sat P (fun _ => P) R := fun _ _ hP => hP

theorem Sat.machine {x : MemM α} (hx : ∀ m a m', P m → x m = .ok a m' → Q a m') :
    (Format.machine x).Sat P Q R := by
  intro m z hP
  cases h : x m with
  | ok a m' => simpa [Format.machine, h] using hx m a m' hP h
  | error stop m' => cases stop <;> simp [Format.machine, h]

theorem Sat.plus {r : Format α} {n : Nat} (hr : r.Sat P Q fun k => R (k + n)) :
    (r.plus n).Sat P Q R := by
  intro m z hP
  have hrun := hr m z hP
  cases h : r m z with
  | error d =>
      rw [h] at hrun
      simpa [Format.plus, h] using hrun
  | ok out =>
      rw [h] at hrun
      cases out with
      | done a m' z' => simpa [Format.plus, h] using hrun
      | rejected k m' => simpa [Format.plus, h] using hrun
      | panicked msg m' => simp [Format.plus, h]

end Format

/-! ## Steps of the machine -/

section

variable {l l' : Ctx} {S : List Variable} {v : Variable}

theorem ymdAdd_ok {o : Addr} (hstk : l.stk = v :: .dyay o :: S) (hadd : ymdAdd l = .ok () l') :
    ∃ arr, l.heap.obj o = some (.dyay arr) ∧
      l' = { l with heap := l.heap.set o (.dyay (arr ++ [v])), stk := .dyay o :: S } := by
  have htop : ymdTop 1 l = .ok (.dyay o) l := ymdTop_of_getElem? (by simp [hstk])
  have htop0 : ymdTop 0 l = .ok v l := ymdTop_of_getElem? (by simp [hstk])
  rw [ymdAdd, bind_of_ok htop] at hadd
  change (check (l.heap.dyay o) >>= _) l = _ at hadd
  obtain ⟨arr, l₁, harr, hrest⟩ := bind_ok_iff.1 hadd
  obtain ⟨harr', rfl⟩ := check_ok_iff.1 harr
  rw [bind_of_ok htop0, bind_of_ok (storeObj_apply o _), ymdPop_ok_iff] at hrest
  exact ⟨arr, Heap.dyay_eq_ok.1 harr', by rw [hrest.2]; simp [hstk]⟩

theorem hmapPut_ok {env : Env} {o : Addr} {key : Variable} {x : Entry}
    (hput : hmapPut env o key l = .ok x l') :
    l' = { l with heap := l.heap.set o (.hmap x.map) } := by
  obtain ⟨f, hf⟩ | ⟨map, y, _, _, hy⟩ := hmapPut_cases env l o key
  · rw [hf] at hput
    cases hput
  · rw [hy] at hput
    cases hput
    rfl

theorem sklsPut_ok {env : Env} {o : Addr} {key : Variable} {x : SkEntry}
    (hput : sklsPut env o key l = .ok x l') :
    l' = { l with heap := l.heap.set o (.skls x.list), levels := fun i => l.levels (i + 1) } := by
  obtain ⟨f, levels, hf⟩ | ⟨list, y, _, _, hy⟩ := sklsPut_cases env l o key
  · rw [hf] at hput
    cases hput
  · rw [hy] at hput
    cases hput
    rfl

/-- A store through `ymd_putf` into a map. -/
theorem ymdPutf_ok {env : Env} {key var : Variable} {o : Addr}
    (hvar : var = .hmap o ∨ var = .skls o) (hstk : l.stk = v :: key :: var :: S)
    (hput : ymdPutf env l = .ok () l') :
    l'.stk = var :: S ∧ l'.heap.next = l.heap.next ∧
      ∀ a ≠ o, l'.heap.obj a = l.heap.obj a := by
  have htop2 : ymdTop 2 l = .ok var l := ymdTop_of_getElem? (by simp [hstk])
  have htop1 : ymdTop 1 l = .ok key l := ymdTop_of_getElem? (by simp [hstk])
  have htop0 : ymdTop 0 l = .ok v l := ymdTop_of_getElem? (by simp [hstk])
  have hrest : ∀ k : VmM Unit, (ymdTop 0 >>= fun v => vmPutOn env var key v >>= fun _ => k) l =
      (vmPutOn env var key v >>= fun _ => k) l := fun k => bind_of_ok htop0
  rw [ymdPutf, bind_of_ok htop2, bind_of_ok htop1] at hput
  by_cases hnil : key.isNil = true
  · simp only [if_pos hnil] at hput
    obtain ⟨_, _, hpanic, _⟩ := bind_ok_iff.1 hput
    cases hpanic
  · simp only [if_neg hnil] at hput
    rw [hrest] at hput
    obtain ⟨_, l₁, hon, hpop⟩ := bind_ok_iff.1 hput
    obtain ⟨_, rfl⟩ := ymdPop_ok_iff.1 hpop
    obtain rfl | rfl := hvar
    · obtain ⟨x, l₂, hx, hstore⟩ := bind_ok_iff.1 hon
      obtain rfl := hmapPut_ok hx
      rw [storeObj_apply] at hstore
      cases hstore
      refine ⟨by simp [hstk], rfl, fun a ha => ?_⟩
      exact (Heap.obj_set_of_ne ha).trans (Heap.obj_set_of_ne ha)
    · obtain ⟨x, l₂, hx, hstore⟩ := bind_ok_iff.1 hon
      obtain rfl := sklsPut_ok hx
      rw [storeObj_apply] at hstore
      cases hstore
      refine ⟨by simp [hstk], rfl, fun a ha => ?_⟩
      exact (Heap.obj_set_of_ne ha).trans (Heap.obj_set_of_ne ha)

theorem ymdBind_ok {i : Nat} {o : Addr} (hstk : l.stk = v :: .func o :: S)
    (hbind : ymdBind i l = .ok () l') :
    ∃ fn fn', l.heap.obj o = some (.func fn) ∧ funcBind fn i v = .ok fn' ∧
      l' = { l with heap := l.heap.set o (.func fn'), stk := .func o :: S } := by
  have htop : ymdTop 1 l = .ok (.func o) l := ymdTop_of_getElem? (by simp [hstk])
  have htop0 : ymdTop 0 l = .ok v l := ymdTop_of_getElem? (by simp [hstk])
  rw [ymdBind, bind_of_ok htop, 
    bind_of_ok (lift_of_ok (show funcOf (.func o) = .ok o from rfl)), bind_of_ok htop0] at hbind
  obtain ⟨fn, l₁, hfn, hrest⟩ := bind_ok_iff.1 hbind
  obtain ⟨hobj, rfl⟩ := funcAt_ok_iff.1 hfn
  obtain ⟨fn', l₂, hfn', hlast⟩ := bind_ok_iff.1 hrest
  obtain ⟨hnew, rfl⟩ := check_ok_iff.1 hfn'
  rw [bind_of_ok (storeObj_apply o _), ymdPop_ok_iff] at hlast
  exact ⟨fn, fn', hobj, hnew, by rw [hlast.2]; simp [hstk]⟩

theorem takeTop_ok {w : Variable} (hstk : l.stk = v :: S) (htake : takeTop l = .ok w l') :
    w = v ∧ l' = { l with stk := S } := by
  have htop : ymdTop 0 l = .ok v l := ymdTop_of_getElem? (by simp [hstk])
  rw [takeTop, bind_of_ok htop] at htake
  obtain ⟨_, l₁, hpop, hret⟩ := bind_ok_iff.1 htake
  obtain ⟨_, rfl⟩ := ymdPop_ok_iff.1 hpop
  cases hret
  exact ⟨rfl, by simp [hstk]⟩

theorem takeKstr_ok {z : Bytes} (hstk : l.stk = v :: S) (htake : takeKstr l = .ok z l') :
    v = .kstr z ∧ l' = { l with stk := S } := by
  have htop : ymdTop 0 l = .ok v l := ymdTop_of_getElem? (by simp [hstk])
  rw [takeKstr, bind_of_ok htop] at htake
  obtain ⟨z', l₁, hz', hrest⟩ := bind_ok_iff.1 htake
  obtain ⟨hkstr, rfl⟩ := lift_ok_iff.1 hz'
  obtain ⟨_, l₂, hpop, hret⟩ := bind_ok_iff.1 hrest
  obtain ⟨_, rfl⟩ := ymdPop_ok_iff.1 hpop
  cases hret
  cases v with
  | kstr z'' =>
      cases hkstr
      exact ⟨rfl, by simp [hstk]⟩
  | _ => cases hkstr

theorem editFunc_ok {o : Addr} {edit : Func → Func} (hedit : editFunc o edit l = .ok () l') :
    ∃ fn, l.heap.obj o = some (.func fn) ∧
      l' = { l with heap := l.heap.set o (.func (edit fn)) } := by
  obtain ⟨fn, l₁, hfn, hstore⟩ := bind_ok_iff.1 hedit
  obtain ⟨hobj, rfl⟩ := funcAt_ok_iff.1 hfn
  rw [storeObj_apply] at hstore
  cases hstore
  exact ⟨fn, hobj, rfl⟩

theorem gcNew_apply (obj : Obj) (l : Ctx) :
    gcNew obj l = .ok l.heap.next { l with heap := (l.heap.alloc obj).1 } := rfl

theorem ymdNaked_ok {o : Addr} (hnaked : ymdNaked l = .ok o l') :
    o = l.heap.next ∧ l.stk.length < maxStack ∧ l' = { l with
      heap := (l.heap.alloc (.func ⟨some Chunk.zero, [], 0, [], none⟩)).1,
      stk := .func o :: l.stk } := by
  rw [ymdNaked, bind_of_ok (gcNew_apply _ l)] at hnaked
  obtain ⟨_, l₁, hpush, hret⟩ := bind_ok_iff.1 hnaked
  obtain ⟨hroom, rfl⟩ := ymdPush_ok_iff.1 hpush
  cases hret
  exact ⟨rfl, hroom, rfl⟩

end

/-! ## Readings -/

namespace Format

variable {n : Addr} {m₀ : Mem} {S : List Variable} {v : Variable} {o : Addr} {depth : Nat}

/-- A reading of one entry that needs room for it. -/
def PushesOne (n : Addr) (m₀ : Mem) (S : List Variable) {α : Type} (r : Format α) : Prop :=
  r.Sat (fun m => m.Inv n m₀ S) (fun _ m => ∃ v, m.Inv n m₀ (v :: S))
    (fun k m => m.Pending n m₀ S k)

theorem sat_machine {α : Type} {x : VmM α} {P : Mem → Prop} {Q : α → Mem → Prop}
    {R : Nat → Mem → Prop}
    (hx : ∀ m a l, P m → x m.l = .ok a l → Q a { m with l := l }) :
    (machine (onVm x)).Sat P Q R := by
  apply Sat.machine
  intro m a m' hP hrun
  obtain ⟨l, hl, rfl⟩ := onVm_ok_iff.1 hrun
  exact hx m a l hP hl

theorem sat_onHeap {α : Type} {x : VmM α} {Q : α → Mem → Prop} {R : Nat → Mem → Prop}
    (hx : ∀ (m : Mem) a l, m.Inv n m₀ S → x m.l = .ok a l → Q a { m with l := l }) :
    (machine (onHeap x)).Sat (fun m => m.Inv n m₀ S) Q R := by
  apply Sat.machine
  intro m a m' hinv hrun
  obtain ⟨-, l, hl, rfl⟩ := onHeap_ok_iff.1 hrun
  exact hx m.tick a l hinv.tick hl

theorem sat_gcRecord {R : Nat → Mem → Prop} :
    (machine gcRecord).Sat (fun m => m.Inv n m₀ S) (fun _ m => m.Inv n m₀ S) R := by
  apply Sat.machine
  intro m _ m' hinv hrun
  obtain ⟨-, rfl⟩ := gcRecord_ok_iff.1 hrun
  exact hinv.tick

theorem sat_setBare (null : Bool) {R : Nat → Mem → Prop} :
    (machine (setBare o null)).Sat (fun m => m.Inv n m₀ S) (fun _ m => m.Inv n m₀ S) R := by
  apply Sat.machine
  intro m _ m' hinv hset
  cases hset
  exact hinv.setBare _

theorem sat_push (v : Variable) {R : Nat → Mem → Prop} :
    (machine (onVm (ymdPush v))).Sat (fun m => m.Inv n m₀ S)
      (fun _ m => m.Inv n m₀ (v :: S) ∧ S.length < maxStack) R := by
  apply sat_machine
  intro m _ l hinv hpush
  obtain ⟨hroom, rfl⟩ := ymdPush_ok_iff.1 hpush
  rw [hinv.stk] at hroom
  refine ⟨?_, hroom⟩
  rw [hinv.stk]
  exact hinv.restack _

theorem sat_ymdKstr (z : Bytes) {R : Nat → Mem → Prop} :
    (machine (onHeap (ymdKstr z))).Sat (fun m => m.Inv n m₀ S)
      (fun _ m => m.Inv n m₀ (.kstr z :: S)) R := by
  apply sat_onHeap
  intro m _ l hinv hpush
  obtain ⟨-, rfl⟩ := ymdPush_ok_iff.1 hpush
  rw [hinv.stk]
  exact hinv.restack _

theorem sat_editFunc (ho : n ≤ o) (edit : Func → Func) {R : Nat → Mem → Prop} :
    (machine (onVm (editFunc o edit))).Sat (fun m => m.Inv n m₀ S)
      (fun _ m => m.Inv n m₀ S) R := by
  apply sat_machine
  intro m _ l hinv hedit
  obtain ⟨fn, _, rfl⟩ := editFunc_ok hedit
  exact hinv.step (l := { m.l with heap := m.l.heap.set o (.func (edit fn)) }) le_rfl
    (fun _ ha => Heap.obj_set_of_ne (Nat.ne_of_lt (Nat.lt_of_lt_of_le ha ho))) hinv.stk

theorem sat_editDebug (ho : n ≤ o) (edit : Debug → Debug) {R : Nat → Mem → Prop} :
    (machine (editDebug o edit)).Sat (fun m => m.Inv n m₀ S) (fun _ m => m.Inv n m₀ S) R := by
  apply Sat.machine
  intro m _ m' hinv hedit
  cases hedit
  refine ⟨hinv.stk, hinv.room, hinv.obj, fun a ha => ?_⟩
  have hne : a ≠ o := Nat.ne_of_lt (Nat.lt_of_lt_of_le ha ho)
  exact (Function.update_of_ne hne _ _).trans (hinv.debug a ha)

theorem sat_takeKstr {R : Nat → Mem → Prop} :
    (machine (onVm takeKstr)).Sat (fun m => m.Inv n m₀ (v :: S))
      (fun _ m => m.Inv n m₀ S) R := by
  apply sat_machine
  intro m z l hinv htake
  obtain ⟨_, rfl⟩ := takeKstr_ok hinv.stk htake
  exact hinv.restack S

theorem sat_takeTop {R : Nat → Mem → Prop} :
    (machine (onVm takeTop)).Sat (fun m => m.Inv n m₀ (v :: S))
      (fun _ m => m.Inv n m₀ S) R := by
  apply sat_machine
  intro m w l hinv htake
  obtain ⟨_, rfl⟩ := takeTop_ok hinv.stk htake
  exact hinv.restack S

theorem sat_bind (ho : n ≤ o) (i : Nat) {R : Nat → Mem → Prop} :
    (machine (onHeap (ymdBind i))).Sat (fun m => m.Inv n m₀ (v :: .func o :: S))
      (fun _ m => m.Inv n m₀ (.func o :: S)) R := by
  apply sat_onHeap
  intro m _ l hinv hbind
  obtain ⟨fn, fn', _, _, rfl⟩ := ymdBind_ok hinv.stk hbind
  exact hinv.store ho (.func fn') (.func o :: S)

theorem sat_add (ho : n ≤ o) {R : Nat → Mem → Prop} :
    (machine (onHeap ymdAdd)).Sat (fun m => m.Inv n m₀ (v :: .dyay o :: S))
      (fun _ m => m.Inv n m₀ (.dyay o :: S)) R := by
  apply sat_onHeap
  intro m _ l hinv hadd
  obtain ⟨arr, _, rfl⟩ := ymdAdd_ok hinv.stk hadd
  exact hinv.store ho (.dyay (arr ++ [v])) (.dyay o :: S)

theorem sat_putf {env : Env} {key var : Variable} (hvar : var = .hmap o ∨ var = .skls o)
    (ho : n ≤ o) {R : Nat → Mem → Prop} :
    (machine (onHeap (ymdPutf env))).Sat (fun m => m.Inv n m₀ (v :: key :: var :: S))
      (fun _ m => m.Inv n m₀ (var :: S)) R := by
  apply sat_onHeap
  intro m _ l hinv hput
  obtain ⟨hstk, hnext, hobj⟩ := ymdPutf_ok hvar hinv.stk hput
  exact hinv.step hnext.ge
    (fun a ha => hobj a (Nat.ne_of_lt (Nat.lt_of_lt_of_le ha ho))) hstk

/-- A new object on the stack. -/
theorem sat_new (obj : Obj) (var : Addr → Variable) {R : Nat → Mem → Prop} :
    (machine (onHeap (do ymdPush (var (← gcNew obj))))).Sat (fun m => m.Inv n m₀ S)
      (fun _ m => ∃ o, m.Inv n m₀ (var o :: S) ∧ n ≤ o ∧ S.length < maxStack) R := by
  apply sat_onHeap
  intro m _ l hinv hnew
  rw [bind_of_ok (gcNew_apply obj m.l)] at hnew
  obtain ⟨hroom, rfl⟩ := ymdPush_ok_iff.1 hnew
  have hstk := hinv.stk
  subst hstk
  exact ⟨_, hinv.alloc obj _, hinv.room, hroom⟩

/-- An unknown entry is on top. -/
theorem Sat.exists {α β : Type} {r : Format α} {P : β → Mem → Prop} {Q : α → Mem → Prop}
    {R : Nat → Mem → Prop} (hr : ∀ b, r.Sat (P b) Q R) : r.Sat (fun m => ∃ b, P b m) Q R := by
  rintro m z ⟨b, hP⟩
  exact hr b m z hP

theorem sat_kstr : PushesOne n m₀ S kstr := by
  apply Sat.bind (Sat.varint _)
  intro len
  apply Sat.bind Sat.remain
  intro left
  apply Sat.ite
  · exact fun _ => Sat.reject fun m hinv => hinv.pending
  intro _
  apply Sat.ite
  · intro _
    apply Sat.bind Sat.upToNul
    intro bytes
    apply Sat.bind (sat_ymdKstr bytes)
    exact fun _ => Sat.defect nofun
  · intro _
    apply Sat.bind (Sat.take _)
    intro bytes
    exact (sat_ymdKstr bytes).mono (fun _ m h => ⟨_, h⟩) fun _ _ h => h

theorem sat_lines (k : Nat) : (lines k).Sat (fun m => m.Inv n m₀ S) (fun _ m => m.Inv n m₀ S)
    (fun k m => m.Pending n m₀ S k) := by
  induction k with
  | zero => exact Sat.pure _
  | succ k ih =>
      apply Sat.bind (Sat.varint _)
      intro line
      apply Sat.bind ih
      exact fun rest => Sat.pure _

theorem sat_names (k : Nat) (read : List Bytes) : (names k read).Sat (fun m => m.Inv n m₀ S)
    (fun _ m => m.Inv n m₀ S) (fun k m => m.Pending n m₀ S k) := by
  induction k generalizing read with
  | zero => exact Sat.pure _
  | succ k ih =>
      apply Sat.bind sat_kstr
      intro _
      apply Sat.bind (Sat.exists fun v => sat_takeKstr)
      exact fun name => ih _

theorem sat_tail (ho : n ≤ o) : (tail o).Sat (fun m => m.Inv n m₀ S) (fun _ m => m.Inv n m₀ S)
    (fun k m => m.Pending n m₀ S k) := by
  apply Sat.bind sat_kstr
  intro _
  apply Sat.bind (Sat.exists fun v => sat_takeKstr)
  intro file
  apply Sat.bind (sat_editDebug ho _)
  intro _
  apply Sat.bind (sat_setBare false)
  intro _
  apply Sat.bind (Sat.varint _)
  intro kargs
  apply Sat.bind (sat_editFunc ho _)
  intro _
  exact Sat.ite (fun _ => Sat.pure _) fun _ => Sat.reject fun m hinv => hinv.pending

theorem sat_locals (ho : n ≤ o) : (locals o).Sat (fun m => m.Inv n m₀ S)
    (fun _ m => m.Inv n m₀ S) (fun k m => m.Pending n m₀ S k) := by
  apply Sat.bind (Sat.varint _)
  intro k
  apply Sat.ite
  · intro _
    apply Sat.ite
    · intro _
      apply Sat.bind sat_gcRecord
      intro _
      apply Sat.bind (sat_names _ _)
      intro read
      apply Sat.bind (sat_editFunc ho _)
      exact fun _ => sat_tail ho
    · exact fun _ => Sat.reject fun m hinv => hinv.pending
  · exact fun _ => sat_tail ho

section

variable {env : Env} {item : Format Int}

theorem sat_kvals (hitem : PushesOne n m₀ S item) (k : Nat) (vals : List Variable) :
    (kvals item k vals).Sat (fun m => m.Inv n m₀ S) (fun _ m => m.Inv n m₀ S)
      (fun k m => m.Pending n m₀ S k) := by
  induction k generalizing vals with
  | zero => exact Sat.pure _
  | succ k ih =>
      apply Sat.bind hitem
      intro _
      apply Sat.bind (Sat.exists fun v => sat_takeTop)
      exact fun v => ih _

theorem sat_consts (hitem : PushesOne n m₀ S item) (ho : n ≤ o) :
    (consts item o).Sat (fun m => m.Inv n m₀ S) (fun _ m => m.Inv n m₀ S)
      (fun k m => m.Pending n m₀ S k) := by
  apply Sat.bind (Sat.varint _)
  intro k
  apply Sat.ite
  · intro _
    apply Sat.bind sat_gcRecord
    intro _
    apply Sat.bind (sat_kvals hitem _ _)
    intro vals
    apply Sat.bind (sat_editFunc ho _)
    exact fun _ => sat_locals ho
  · exact fun _ => sat_locals ho

theorem sat_chunk (hitem : PushesOne n m₀ S item) (ho : n ≤ o) :
    (chunk item o).Sat (fun m => m.Inv n m₀ S) (fun _ m => m.Inv n m₀ S)
      (fun k m => m.Pending n m₀ S k) := by
  apply Sat.bind (Sat.varint _)
  intro k
  apply Sat.ite
  · intro _
    apply Sat.bind sat_gcRecord
    intro _
    apply Sat.ite
    · exact fun _ => Sat.defect nofun
    intro _
    apply Sat.bind (Sat.take _)
    intro bytes
    apply Sat.bind sat_gcRecord
    intro _
    apply Sat.bind (sat_lines _)
    intro table
    apply Sat.bind (sat_editDebug ho _)
    intro _
    apply Sat.bind (sat_editFunc ho _)
    exact fun _ => sat_consts hitem ho
  · exact fun _ => Sat.reject fun m hinv => hinv.pending

theorem sat_binds (hitem : PushesOne n m₀ (.func o :: S) item) (ho : n ≤ o) (k i : Nat) :
    (binds item k i).Sat (fun m => m.Inv n m₀ (.func o :: S))
      (fun _ m => m.Inv n m₀ (.func o :: S)) (fun k m => m.Pending n m₀ (.func o :: S) k) := by
  induction k generalizing i with
  | zero => exact Sat.pure _
  | succ k ih =>
      apply Sat.bind hitem
      intro _
      apply Sat.bind (Sat.exists fun v => sat_bind ho i)
      exact fun _ => ih _

theorem sat_funcFields (hitem : PushesOne n m₀ (.func o :: S) item) (ho : n ≤ o) :
    (funcFields item o).Sat (fun m => m.Inv n m₀ (.func o :: S))
      (fun _ m => m.Inv n m₀ (.func o :: S)) (fun k m => m.Pending n m₀ (.func o :: S) k) := by
  apply Sat.bind sat_kstr
  intro _
  apply Sat.bind (Sat.exists fun v => sat_takeKstr)
  intro proto
  apply Sat.bind (sat_editFunc ho _)
  intro _
  apply Sat.bind (Sat.varint _)
  intro nBind
  apply Sat.bind (sat_editFunc ho _)
  intro _
  apply Sat.bind (sat_binds hitem ho _ _)
  exact fun _ => sat_chunk hitem ho

theorem sat_func (hitem : ∀ v, S.length < maxStack → PushesOne n m₀ (v :: S) item) :
    PushesOne n m₀ S (func item) := by
  apply Sat.bind (Q := fun o m => m.Inv n m₀ (.func o :: S) ∧ n ≤ o ∧ S.length < maxStack)
  · apply sat_onHeap
    intro m o l hinv hnaked
    obtain ⟨rfl, hroom, rfl⟩ := ymdNaked_ok hnaked
    have hstk := hinv.stk
    subst hstk
    exact ⟨hinv.alloc _ _, hinv.room, hroom⟩
  intro o
  apply Sat.given
  rintro ⟨ho, hroom⟩
  apply Sat.bind (sat_editDebug ho _)
  intro _
  apply Sat.bind (sat_setBare true)
  intro _
  apply Sat.plus
  apply (sat_funcFields (hitem _ hroom) ho).mono
  · exact fun _ m hinv => ⟨_, hinv⟩
  · exact fun k m hpending => hpending.under

theorem sat_elems (hitem : PushesOne n m₀ (.dyay o :: S) item) (ho : n ≤ o) (i : Nat) :
    (elems item i).Sat (fun m => m.Inv n m₀ (.dyay o :: S))
      (fun _ m => m.Inv n m₀ (.dyay o :: S)) (fun k m => m.Pending n m₀ (.dyay o :: S) k) := by
  induction i with
  | zero => exact Sat.pure _
  | succ i ih =>
      apply Sat.bind hitem
      intro _
      apply Sat.bind (Sat.exists fun v => sat_add ho)
      exact fun _ => ih

theorem sat_dyay (hitem : ∀ v, S.length < maxStack → PushesOne n m₀ (v :: S) item) :
    PushesOne n m₀ S (dyay item) := by
  apply Sat.bind (Sat.varint _)
  intro i
  apply Sat.bind (sat_new _ _)
  intro _
  apply Sat.exists
  intro o
  apply Sat.given
  rintro ⟨ho, hroom⟩
  apply Sat.plus
  apply (sat_elems (hitem _ hroom) ho _).mono
  · exact fun _ m hinv => ⟨_, hinv⟩
  · exact fun k m hpending => hpending.under

theorem sat_pairs {var : Variable} (hvar : var = .hmap o ∨ var = .skls o)
    (hkey : PushesOne n m₀ (var :: S) item) (hvalue : ∀ v, PushesOne n m₀ (v :: var :: S) item)
    (ho : n ≤ o) (k : Nat) :
    (pairs env item k).Sat (fun m => m.Inv n m₀ (var :: S))
      (fun _ m => m.Inv n m₀ (var :: S)) (fun k m => m.Pending n m₀ (var :: S) k) := by
  induction k with
  | zero => exact Sat.pure _
  | succ k ih =>
      apply Sat.bind hkey
      intro _
      apply Sat.exists
      intro key
      apply Sat.bind
      · apply Sat.plus
        exact (hvalue key).mono (fun _ _ h => h) fun k m hpending => hpending.under
      intro _
      apply Sat.bind (Sat.exists fun v => sat_putf hvar ho)
      exact fun _ => ih

/-- The pairs of a map that was just pushed. -/
theorem sat_mapPairs {var : Addr → Variable} (hvar : ∀ o, var o = .hmap o ∨ var o = .skls o)
    (hitem : ∀ v, S.length < maxStack → PushesOne n m₀ (v :: S) item)
    (hvalue : ∀ v w, S.length < maxStack → PushesOne n m₀ (v :: w :: S) item) (k : Nat) :
    ((pairs env item k).plus 1).Sat
      (fun m => ∃ o, m.Inv n m₀ (var o :: S) ∧ n ≤ o ∧ S.length < maxStack)
      (fun _ m => ∃ v, m.Inv n m₀ (v :: S)) (fun k m => m.Pending n m₀ S k) := by
  apply Sat.exists
  intro o
  apply Sat.given
  rintro ⟨ho, hroom⟩
  apply Sat.plus
  apply (sat_pairs (hvar o) (hitem _ hroom) (fun v => hvalue v _ hroom) ho k).mono
  · exact fun _ m hinv => ⟨_, hinv⟩
  · exact fun k m hpending => hpending.under

theorem sat_hmap (hitem : ∀ v, S.length < maxStack → PushesOne n m₀ (v :: S) item)
    (hvalue : ∀ v w, S.length < maxStack → PushesOne n m₀ (v :: w :: S) item) :
    PushesOne n m₀ S (hmap env item) := by
  apply Sat.bind (Sat.varint _)
  intro k
  apply Sat.bind (Q := fun _ m => ∃ o, m.Inv n m₀ (.hmap o :: S) ∧ n ≤ o ∧ S.length < maxStack)
  · apply sat_onHeap
    intro m _ l hinv hnew
    obtain ⟨map, l₁, hmap, hpush⟩ := bind_ok_iff.1 hnew
    obtain ⟨-, rfl⟩ := check_ok_iff.1 hmap
    rw [bind_of_ok (gcNew_apply _ m.l)] at hpush
    obtain ⟨hroom, rfl⟩ := ymdPush_ok_iff.1 hpush
    have hstk := hinv.stk
    subst hstk
    exact ⟨_, hinv.alloc (.hmap map) _, hinv.room, hroom⟩
  exact fun _ => sat_mapPairs (fun o => .inl rfl) hitem hvalue _

theorem sat_skls (hitem : ∀ v, S.length < maxStack → PushesOne n m₀ (v :: S) item)
    (hvalue : ∀ v w, S.length < maxStack → PushesOne n m₀ (v :: w :: S) item) :
    PushesOne n m₀ S (skls env item) := by
  apply Sat.bind (Sat.varint _)
  intro k
  apply Sat.bind (sat_new _ .skls)
  exact fun _ => sat_mapPairs (fun o => .inr rfl) hitem hvalue _

end

theorem Sat.sized {r : Format Unit} {P Q : Mem → Prop} {R : Nat → Mem → Prop}
    (hr : r.Sat P (fun _ => Q) R) : (sized r).Sat P (fun _ => Q) R := by
  apply Sat.bind Sat.remain
  intro before
  apply Sat.bind hr
  intro _
  apply Sat.bind Sat.remain
  exact fun after => Sat.pure _

theorem sat_scalar (v : Variable) : PushesOne n m₀ S (machine (onVm (ymdPush v))) :=
  (sat_push v).mono (fun _ _ h => ⟨v, h.1⟩) fun _ _ h => h

/-- Every nested value has an entry below it on the stack, so the stack is full
before the nesting is too deep. -/
theorem sat_item (env : Env) (hpos : 0 < depth) (hdepth : maxStack < S.length + depth) :
    PushesOne n m₀ S (item env depth) := by
  induction depth generalizing S with
  | zero => exact absurd hpos (Nat.lt_irrefl 0)
  | succ depth ih =>
      have hitem : ∀ v, S.length < maxStack → PushesOne n m₀ (v :: S) (item env depth) := by
        intro v hroom
        apply ih (by omega)
        rw [List.length_cons]
        omega
      have hvalue : ∀ v w, S.length < maxStack →
          PushesOne n m₀ (v :: w :: S) (item env depth) := by
        intro v w hroom
        apply ih (by omega)
        simp only [List.length_cons]
        omega
      apply Sat.bind (Sat.varint _)
      intro tt
      generalize tt.toNat = tag
      match tag with
      | 0 => exact (sat_scalar _).sized
      | 1 => exact Sat.sized (Sat.bind (Sat.varint _) fun i => sat_scalar _)
      | 2 => exact Sat.sized (Sat.bind (Sat.varint _) fun i => sat_scalar _)
      | 3 => exact Sat.sized (Sat.reject fun m hinv => hinv.pending)
      | 4 => exact sat_kstr.sized
      | 5 => exact (sat_func hitem).sized
      | 6 => exact (sat_dyay hitem).sized
      | 7 => exact (sat_hmap hitem hvalue).sized
      | 8 => exact (sat_skls hitem hvalue).sized
      | tag + 9 => exact Sat.sized (Sat.reject fun m hinv => hinv.pending)

end Format

end Ymd
