import Ymd.Code.Chunk

/-! # The table of constants

A constant that is asked for again is found again, unless it is a string under the
length -1: `blk_kz` compares this length itself with the lengths in the table.
-/

namespace Ymd

namespace Chunk

section

variable {core : Chunk} {kval : List Variable} {same : Variable → Bool} {v : Variable} {i n : Nat}

theorem findK_some (h : findK kval same n = some i) : ∃ w, kval[i]? = some w ∧ same w = true := by
  induction n with
  | zero => cases h
  | succ n ih =>
      rw [findK] at h
      split at h
      next hsame =>
        obtain rfl := Option.some.inj h
        cases hw : kval[n]? with
        | none =>
            rw [hw] at hsame
            cases hsame
        | some w =>
            rw [hw] at hsame
            exact ⟨w, rfl, hsame⟩
      next => exact ih h

theorem findK_none (h : findK kval same n = none) (hi : i < n) (hw : kval[i]? = some v) :
    same v = false := by
  induction n with
  | zero => cases hi
  | succ n ih =>
      rw [findK] at h
      split at h
      next => cases h
      next hno =>
        rcases Nat.lt_succ_iff_lt_or_eq.1 hi with hlt | rfl
        · exact ih h hlt
        · rw [hw] at hno
          exact Bool.eq_false_iff.2 hno

/-- The constant is in the table already and the table stays, or it is added at the end. -/
theorem internK_cases (hroom : core.kkval + 1 < 2 ^ 16) (same : Variable → Bool) (v : Variable) :
    ((core.internK same v).1 = core ∧
      ∃ w, core.kval[(core.internK same v).2]? = some w ∧ same w = true) ∨
    ((core.internK same v).1.kval = core.kval ++ [v] ∧ (core.internK same v).2 = core.kkval ∧
      ∀ w ∈ core.kval, same w = false) := by
  unfold internK
  cases hfind : findK core.kval same core.kkval with
  | some i => exact .inl ⟨rfl, findK_some hfind⟩
  | none =>
      refine .inr ⟨if_pos hroom, rfl, fun w hw => ?_⟩
      obtain ⟨i, hi, heq⟩ := List.mem_iff_getElem.1 hw
      exact findK_none hfind hi (List.getElem?_eq_some_iff.2 ⟨hi, heq⟩)

end

/-- A call of one of the `blk_k` functions. -/
inductive ConstCall
  | kz (z : Bytes) (k : Int)
  | ki (n : YmdInt)
  | kf (fn : Addr)

namespace ConstCall

def run (core : Chunk) : ConstCall → Chunk × Nat
  | .kz z k => core.kz z k
  | .ki n => core.ki n
  | .kf fn => core.kf fn

/-- The constant that is asked for. -/
def constant : ConstCall → Variable
  | .kz z k => .kstr (kstrFetch z k)
  | .ki n => .int n
  | .kf fn => .func fn

/-- What the search compares with. -/
def same : ConstCall → Variable → Bool
  | .kz z k => fun
      | .kstr land => decide ((land.length : Int) = k ∧ land = z.take k.toNat)
      | _ => false
  | .ki n => fun v => decide (v = .int n)
  | .kf fn => fun v => decide (v = .func fn)

/-- The length of a string is its own, or -1. -/
def Valid : ConstCall → Prop
  | .kz z k => k = -1 ∨ 0 ≤ k ∧ k ≤ z.length
  | _ => True

/-- A string whose length is not given is not in the table. -/
def Counted (core : Chunk) : ConstCall → Prop
  | .kz z k => k = -1 → .kstr (kstrFetch z k) ∉ core.kval
  | _ => True

/-- The result is the place of the constant, the entries so far stay, and there is
a new one at most if the constant was not among them. -/
structure Interns (core : Chunk) (call : ConstCall) : Prop where
  entry : (call.run core).1.kval[(call.run core).2]? = some call.constant
  kept : core.kval <+: (call.run core).1.kval
  once : (call.run core).1.kkval ≤ core.kkval + 1
  found : call.constant ∈ core.kval → (call.run core).1.kval = core.kval

variable {core : Chunk} {call : ConstCall} {v : Variable}

theorem run_eq (core : Chunk) (call : ConstCall) :
    call.run core = core.internK call.same call.constant := by
  cases call <;> rfl

/-- The search finds nothing but the constant. -/
theorem eq_of_same (hvalid : call.Valid) (hsame : call.same v = true) : v = call.constant := by
  cases call with
  | ki n => exact of_decide_eq_true hsame
  | kf fn => exact of_decide_eq_true hsame
  | kz z k =>
      cases v with
      | kstr land =>
          obtain ⟨hlen, hland⟩ := of_decide_eq_true hsame
          have hk : 0 ≤ k := hlen ▸ Int.natCast_nonneg _
          rw [constant, kstrFetch, if_neg (Int.not_lt.2 hk), hland]
      | nil => cases hsame
      | int i => cases hsame
      | bool i => cases hsame
      | ext p => cases hsame
      | func o => cases hsame
      | dyay o => cases hsame
      | hmap o => cases hsame
      | skls o => cases hsame
      | mand o => cases hsame

/-- It finds the constant, but for a string without its length. -/
theorem same_constant_iff (hvalid : call.Valid) :
    call.same call.constant = true ↔ ∀ z, call ≠ .kz z (-1) := by
  cases call with
  | ki n => simp [same, constant]
  | kf fn => simp [same, constant]
  | kz z k =>
      change decide (((kstrFetch z k).length : Int) = k ∧ kstrFetch z k = z.take k.toNat) = true ↔ _
      rw [decide_eq_true_iff]
      rcases hvalid with rfl | ⟨hpos, hle⟩
      · constructor
        · intro hsame
          exact absurd hsame.1 (by omega)
        · exact fun hno => absurd rfl (hno z)
      · have hfetch : kstrFetch z k = z.take k.toNat := if_neg (Int.not_lt.2 hpos)
        refine ⟨fun _ z' heq => ?_, fun _ => ⟨?_, hfetch⟩⟩
        · cases heq
          cases hpos
        · rw [hfetch, List.length_take]
          omega

theorem interns_iff (hvalid : call.Valid) (hroom : core.kkval < 65535) :
    Interns core call ↔ call.Counted core := by
  have hcases := internK_cases (Nat.succ_lt_succ hroom) call.same call.constant
  rw [← run_eq] at hcases
  constructor
  · intro hinterns
    cases call with
    | ki n => trivial
    | kf fn => trivial
    | kz z k =>
        rintro rfl hmem
        have hstays := hinterns.found hmem
        rcases hcases with ⟨-, w, -, hsame⟩ | ⟨hadds, -, -⟩
        · have hconstant := eq_of_same hvalid hsame
          rw [hconstant] at hsame
          exact (same_constant_iff hvalid).1 hsame z rfl
        · rw [hadds] at hstays
          simp at hstays
  · intro hcounted
    rcases hcases with ⟨hsame, w, hw, hfound⟩ | ⟨hadds, hlast, hmiss⟩
    · have hconstant := eq_of_same hvalid hfound
      refine ⟨?_, ?_, ?_, fun _ => ?_⟩
      · rw [hsame, hw, hconstant]
      · rw [hsame]
      · rw [hsame]
        exact Nat.le_succ _
      · rw [hsame]
    · refine ⟨?_, ?_, ?_, fun hmem => ?_⟩
      · rw [hadds, hlast]
        exact List.getElem?_concat_length
      · rw [hadds]
        exact List.prefix_append _ _
      · unfold kkval
        rw [hadds, List.length_append]
        exact le_rfl
      · -- only a string without its length is missed
        have hno : ¬ ∀ z, call ≠ .kz z (-1) := fun hall =>
          Bool.noConfusion ((hmiss _ hmem).symm.trans ((same_constant_iff hvalid).2 hall))
        push Not at hno
        obtain ⟨z, rfl⟩ := hno
        exact absurd hmem (hcounted rfl)

/-- No call adds a constant twice, unless it is a string without its length. -/
theorem nodup_run (hvalid : call.Valid) (hroom : core.kkval < 65535)
    (hcounted : call.Counted core) (hnodup : core.kval.Nodup) :
    (call.run core).1.kval.Nodup := by
  have hinterns := (interns_iff hvalid hroom).2 hcounted
  by_cases hmem : call.constant ∈ core.kval
  · rw [hinterns.found hmem]
    exact hnodup
  · have hcases := internK_cases (Nat.succ_lt_succ hroom) call.same call.constant
    rw [← run_eq] at hcases
    rcases hcases with ⟨hsame, -⟩ | ⟨hadds, -, -⟩
    · rw [hsame]
      exact hnodup
    · rw [hadds]
      exact List.concat_eq_append ▸ hnodup.concat hmem

end ConstCall

/-- Calls one after the other. -/
def intern (core : Chunk) (calls : List ConstCall) : Chunk :=
  calls.foldl (fun core call => (call.run core).1) core

theorem intern_concat (core : Chunk) (calls : List ConstCall) (call : ConstCall) :
    core.intern (calls ++ [call]) = (call.run (core.intern calls)).1 := by
  rw [intern, List.foldl_concat]
  rfl

/-- Every call of a sequence, with the calls in front of it. -/
def EveryCall (calls : List ConstCall) (p : List ConstCall → ConstCall → Prop) : Prop :=
  ∀ pre call post, calls = pre ++ call :: post → p pre call

theorem everyCall_nil (p : List ConstCall → ConstCall → Prop) : EveryCall [] p := by
  intro pre call post heq
  cases pre <;> cases heq

theorem everyCall_cons_iff {call : ConstCall} {calls : List ConstCall}
    {p : List ConstCall → ConstCall → Prop} : EveryCall (call :: calls) p ↔
      p [] call ∧ EveryCall calls fun pre => p (call :: pre) := by
  constructor
  · intro h
    refine ⟨h [] call calls rfl, fun pre call' post heq => h (call :: pre) call' post ?_⟩
    rw [heq, List.cons_append]
  · rintro ⟨hfirst, hrest⟩ pre call' post heq
    cases pre with
    | nil =>
        cases heq
        exact hfirst
    | cons first pre =>
        cases heq
        exact hrest pre call' post rfl

theorem EveryCall.init {calls : List ConstCall} {call : ConstCall}
    {p : List ConstCall → ConstCall → Prop} (h : EveryCall (calls ++ [call]) p) :
    EveryCall calls p ∧ p calls call := by
  refine ⟨fun pre call' post heq => h pre call' (post ++ [call]) ?_, h calls call [] rfl⟩
  rw [heq, List.append_assoc, List.cons_append]

/-- The calls that build a table below 65535 constants all find what is there, and
no constant comes twice, exactly when no string that is there already is asked for
without its length. -/
theorem constants_once_iff {core : Chunk} {calls : List ConstCall} (hempty : core.kval = [])
    (hvalid : ∀ call ∈ calls, call.Valid)
    (hroom : EveryCall calls fun pre _ => (core.intern pre).kkval < 65535) :
    (EveryCall calls fun pre call => call.Interns (core.intern pre)) ∧
        (core.intern calls).kval.Nodup ↔
      EveryCall calls fun pre call => call.Counted (core.intern pre) := by
  have hmem : ∀ {pre call post}, calls = pre ++ call :: post → call.Valid := by
    rintro pre call post rfl
    exact hvalid call (List.mem_append_right pre List.mem_cons_self)
  constructor
  · rintro ⟨hinterns, -⟩ pre call post heq
    exact (ConstCall.interns_iff (hmem heq) (hroom pre call post heq)).1 (hinterns pre call post heq)
  · intro hcounted
    refine ⟨fun pre call post heq => (ConstCall.interns_iff (hmem heq) (hroom pre call post heq)).2
      (hcounted pre call post heq), ?_⟩
    clear hmem
    induction calls using List.reverseRecOn with
    | nil =>
        change core.kval.Nodup
        rw [hempty]
        exact List.nodup_nil
    | append_singleton calls call ih =>
        obtain ⟨hroom, hlt⟩ := hroom.init
        obtain ⟨hcounted, hlast⟩ := hcounted.init
        have hinit : ∀ call ∈ calls, call.Valid := fun call hcall =>
          hvalid call (List.mem_append_left _ hcall)
        rw [intern_concat]
        exact ConstCall.nodup_run (hvalid call (List.mem_append_right _ (List.mem_singleton_self _)))
          hlt hlast (ih hinit hroom hcounted)

theorem constants_once_three :
    (zero.intern [.kz (lit "f") 1, .ki 3, .kz (lit "f") 1]).kval.Nodup := by
  refine ((@constants_once_iff zero [.kz (lit "f") 1, .ki 3, .kz (lit "f") 1] rfl ?_ ?_).2 ?_).2
  · simp only [List.forall_mem_cons]
    exact ⟨.inr (by decide), trivial, .inr (by decide), by simp⟩
  · simp only [everyCall_cons_iff]
    exact ⟨by decide, by decide, by decide, everyCall_nil _⟩
  · simp only [everyCall_cons_iff]
    exact ⟨fun h => absurd h (by decide), trivial, fun h => absurd h (by decide), everyCall_nil _⟩

/-- A name that is asked for as a C string is there twice. -/
theorem constants_twice :
    (zero.intern [.kz (lit "f") (-1), .kz (lit "f") (-1)]).kval = [.kstr (lit "f"), .kstr (lit "f")] ∧
      ¬ (ConstCall.kz (lit "f") (-1)).Interns (zero.intern [.kz (lit "f") (-1)]) := by
  refine ⟨by decide, fun hinterns => ?_⟩
  exact absurd (hinterns.found (by decide)) (by decide)

end Chunk

end Ymd
