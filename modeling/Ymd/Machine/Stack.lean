import Ymd.Machine.Run

/-! # The operand stack

When the stack functions succeed, and what they leave behind. None of them
changes anything before it panics.
-/

namespace Ymd

open Foundation

variable {l l' : Ctx}

@[simp] theorem panic_apply {α : Type} (msg : String) :
    (panic msg : VmM α) l = .error (.panic (lit msg)) l := rfl

@[simp] theorem fault_apply {α : Type} (f : Fault) : (fault f : VmM α) l = .error (.fault f) l := rfl

theorem lift_ok_iff {α : Type} {x : Partial α} {a : α} :
    lift x l = .ok a l' ↔ x = .ok a ∧ l' = l := by
  cases x with
  | ok b =>
      rw [lift, pure_ok_iff]
      constructor
      · rintro ⟨rfl, rfl⟩
        exact ⟨rfl, rfl⟩
      · rintro ⟨h, rfl⟩
        exact ⟨Except.ok.inj h, rfl⟩
  | error stop => simp [lift]

theorem lift_of_ok {α : Type} {x : Partial α} {a : α} (hx : x = .ok a) : lift x l = .ok a l :=
  lift_ok_iff.2 ⟨hx, rfl⟩

theorem lift_of_error {α : Type} {x : Partial α} {stop : Stop} (hx : x = .error stop) :
    lift x l = .error stop l := by
  rw [hx]
  rfl

theorem check_ok_iff {α : Type} {x : Except Fault α} {a : α} :
    check x l = .ok a l' ↔ x = .ok a ∧ l' = l := by
  rw [check, lift_ok_iff]
  cases x with
  | ok b => simp [Partial.ofFault]
  | error f => simp [Partial.ofFault]

theorem check_of_ok {α : Type} {x : Except Fault α} {a : α} (hx : x = .ok a) :
    check x l = .ok a l :=
  check_ok_iff.2 ⟨hx, rfl⟩

theorem check_of_error {α : Type} {x : Except Fault α} {f : Fault} (hx : x = .error f) :
    check x l = .error (.fault f) l := by
  rw [hx]
  rfl

@[simp] theorem keyOps_apply (env : Env) : keyOps env l = .ok (valueOps l.heap env.depth) l := rfl

@[simp] theorem storeObj_apply (o : Addr) (obj : Obj) :
    storeObj o obj l = .ok () { l with heap := l.heap.set o obj } := rfl

@[simp] theorem randlv_apply (l : Ctx) :
    randlv l = .ok (l.levels 0) { l with levels := fun i => l.levels (i + 1) } := rfl

theorem stateOf_lift {α : Type} (x : Partial α) : stateOf (lift x l) = l := by
  cases x with
  | ok a => rfl
  | error stop => rfl

/-! ## Reading -/

/-- A computation that changes nothing. -/
abbrev ReadOnly {α : Type} (x : VmM α) : Prop := Keeps Eq x

namespace ReadOnly

variable {α β : Type} {x : VmM α} {f : α → VmM β}

theorem pure (a : α) : ReadOnly (pure a : VmM α) := Keeps.pure Eq.refl a

theorem throw (stop : Stop) : ReadOnly (throw stop : VmM α) := Keeps.throw Eq.refl stop

theorem get : ReadOnly (MonadState.get : VmM Ctx) := Keeps.get Eq.refl

theorem bind (hx : ReadOnly x) (hf : ∀ a, ReadOnly (f a)) : ReadOnly (x >>= f) :=
  Keeps.bind (fun _ _ _ => Eq.trans) hx hf

theorem ite {c : Prop} [Decidable c] {y z : VmM α} (hy : ReadOnly y) (hz : ReadOnly z) :
    ReadOnly (if c then y else z) :=
  Keeps.ite (fun _ => hy) fun _ => hz

theorem lift (x : Partial α) : ReadOnly (lift x) := fun _ => (stateOf_lift x).symm

theorem check (x : Except Fault α) : ReadOnly (check x) := ReadOnly.lift _

end ReadOnly

/-! ## `ymd_top` -/

theorem ymdTop_of_getElem? {i : Nat} {v : Variable} (hv : l.stk[i]? = some v) :
    ymdTop i l = .ok v l := by
  have hne : l.stk ≠ [] := by
    intro hnil
    simp [hnil] at hv
  simp [ymdTop, bind_of_ok (get_apply l), hne, hv]

theorem ymdTop_of_none {i : Nat} (hv : l.stk[i]? = none) :
    ∃ msg, ymdTop i l = .error (.panic msg) l := by
  by_cases hnil : l.stk = []
  · exact ⟨_, by simp [ymdTop, bind_of_ok (get_apply l), hnil]; rfl⟩
  · exact ⟨_, by simp [ymdTop, bind_of_ok (get_apply l), hnil, hv]; rfl⟩

theorem ymdTop_ok_iff {i : Nat} {v : Variable} :
    ymdTop i l = .ok v l' ↔ l.stk[i]? = some v ∧ l' = l := by
  cases hv : l.stk[i]? with
  | none =>
      obtain ⟨msg, hmsg⟩ := ymdTop_of_none hv
      simp [hmsg]
  | some w =>
      rw [ymdTop_of_getElem? hv]
      simp [eq_comm]

theorem stateOf_ymdTop (i : Nat) : stateOf (ymdTop i l) = l := by
  cases hv : l.stk[i]? with
  | none =>
      obtain ⟨msg, hmsg⟩ := ymdTop_of_none hv
      rw [hmsg]
      rfl
  | some w =>
      rw [ymdTop_of_getElem? hv]
      rfl

theorem readOnly_ymdTop (i : Nat) : ReadOnly (ymdTop i) := fun _ => (stateOf_ymdTop i).symm

/-! ## `ymd_push` and `ymd_pop` -/

theorem ymdPush_of_lt {v : Variable} (hroom : l.stk.length < maxStack) :
    ymdPush v l = .ok () { l with stk := v :: l.stk } := by
  simp [ymdPush, bind_of_ok (get_apply l), Nat.not_le.2 hroom]

theorem ymdPush_of_ge {v : Variable} (hfull : maxStack ≤ l.stk.length) :
    ymdPush v l = .error (.panic (lit "Stack overflow!")) l := by
  simp only [ymdPush, bind_of_ok (get_apply l), if_pos hfull]
  rw [bind_of_error]
  rfl

theorem ymdPush_ok_iff {v : Variable} :
    ymdPush v l = .ok () l' ↔ l.stk.length < maxStack ∧ l' = { l with stk := v :: l.stk } := by
  by_cases hfull : maxStack ≤ l.stk.length
  · rw [ymdPush_of_ge hfull]
    simp [Nat.not_lt.2 hfull]
  · rw [ymdPush_of_lt (Nat.not_le.1 hfull)]
    simp [Nat.not_le.1 hfull, eq_comm]

theorem ymdPop_of_le {n : Nat} (hle : n ≤ l.stk.length) :
    ymdPop n l = .ok () { l with stk := l.stk.drop n } := by
  have hne : ¬ (0 < n ∧ l.stk = []) := by
    rintro ⟨hpos, hnil⟩
    simp [hnil] at hle
    omega
  simp [ymdPop, bind_of_ok (get_apply l), hne, Nat.not_lt.2 hle]

theorem ymdPop_of_gt {n : Nat} (hgt : l.stk.length < n) :
    ∃ msg, ymdPop n l = .error (.panic msg) l := by
  by_cases hnil : 0 < n ∧ l.stk = []
  · exact ⟨_, by simp only [ymdPop, bind_of_ok (get_apply l), if_pos hnil]; rfl⟩
  · exact ⟨_, by simp only [ymdPop, bind_of_ok (get_apply l), if_neg hnil, if_pos hgt]; rfl⟩

theorem ymdPop_ok_iff {n : Nat} :
    ymdPop n l = .ok () l' ↔ n ≤ l.stk.length ∧ l' = { l with stk := l.stk.drop n } := by
  by_cases hle : n ≤ l.stk.length
  · rw [ymdPop_of_le hle]
    simp [hle, eq_comm]
  · obtain ⟨msg, hmsg⟩ := ymdPop_of_gt (Nat.not_le.1 hle)
    simp [hmsg, hle]

theorem setTop_of_lt {i : Nat} {v : Variable} (hlt : i < l.stk.length) :
    setTop i v l = .ok () { l with stk := l.stk.set i v } := by
  rw [setTop, bind_of_ok (ymdTop_of_getElem? (List.getElem?_eq_getElem hlt))]
  rfl

theorem setTop_of_ge {i : Nat} {v : Variable} (hge : l.stk.length ≤ i) :
    ∃ msg, setTop i v l = .error (.panic msg) l := by
  obtain ⟨msg, hmsg⟩ := ymdTop_of_none (List.getElem?_eq_none hge)
  exact ⟨msg, by rw [setTop, bind_of_error hmsg]⟩

theorem setTop_ok_iff {i : Nat} {v : Variable} :
    setTop i v l = .ok () l' ↔ i < l.stk.length ∧ l' = { l with stk := l.stk.set i v } := by
  by_cases hlt : i < l.stk.length
  · rw [setTop_of_lt hlt]
    simp [hlt, eq_comm]
  · obtain ⟨msg, hmsg⟩ := setTop_of_ge (v := v) (Nat.not_lt.1 hlt)
    simp [hmsg, hlt]

/-- The stack functions change nothing but the stack. -/
def StackOnly (l l' : Ctx) : Prop := l' = { l with stk := l'.stk }

theorem StackOnly.refl (l : Ctx) : StackOnly l l := rfl

theorem StackOnly.trans {l₁ l₂ l₃ : Ctx} (h₁ : StackOnly l₁ l₂) (h₂ : StackOnly l₂ l₃) :
    StackOnly l₁ l₃ := by
  unfold StackOnly at *
  rw [h₁] at h₂
  exact h₂

theorem stackOnly_ymdPush (v : Variable) : Keeps StackOnly (ymdPush v) := by
  intro l
  by_cases hfull : maxStack ≤ l.stk.length
  · rw [ymdPush_of_ge hfull]
    exact .refl l
  · rw [ymdPush_of_lt (Nat.not_le.1 hfull)]
    exact rfl

theorem stackOnly_ymdPop (n : Nat) : Keeps StackOnly (ymdPop n) := by
  intro l
  by_cases hle : n ≤ l.stk.length
  · rw [ymdPop_of_le hle]
    exact rfl
  · obtain ⟨msg, hmsg⟩ := ymdPop_of_gt (Nat.not_le.1 hle)
    rw [hmsg]
    exact .refl l

theorem stackOnly_setTop (i : Nat) (v : Variable) : Keeps StackOnly (setTop i v) := by
  intro l
  by_cases hlt : i < l.stk.length
  · rw [setTop_of_lt hlt]
    exact rfl
  · obtain ⟨msg, hmsg⟩ := setTop_of_ge (v := v) (Nat.not_lt.1 hlt)
    rw [hmsg]
    exact .refl l

theorem stackOnly_pushNils (n : Nat) : Keeps StackOnly (pushNils n) := by
  induction n with
  | zero => exact Keeps.pure .refl ()
  | succ n ih =>
      exact Keeps.bind (fun _ _ _ => .trans) (stackOnly_ymdPush .nil) fun _ => ih

theorem stackOnly_ymdAdjust (adjust : Nat) (ret : Int) : Keeps StackOnly (ymdAdjust adjust ret) :=
  Keeps.ite (fun _ => stackOnly_ymdPop _) fun _ => stackOnly_pushNils _

end Ymd
