import Ymd.Pickle.Cursor
import Ymd.Pickle.Frame

/-! # Parsing a whole buffer

What `ymd_pload` comes to for every buffer: when it stays inside the buffer, and
when it is all or nothing on the operand stack.
-/

namespace Ymd

open Foundation

section

variable {env : Env} {z : Bytes} {depth : Nat} {mem : Mem}

/-- The call only read bytes of the buffer, moved the cursor forward inside it,
and returned or raised a panic. -/
def StaysInside (z : Bytes) : EStateM.Result Stop Load Int → Prop
  | .ok _ s => Forward z s.trail
  | .error (.panic _) s => Forward z s.trail
  | .error (.fault _) _ => False

theorem not_staysInside_of_off {result : EStateM.Result Stop Load Int} (hoff : Off z result) :
    ¬ StaysInside z result := by
  cases result with
  | ok i s => exact hoff
  | error stop s =>
      cases stop with
      | panic msg => exact hoff
      | fault f => exact id

/-- The state `ymd_pload` begins with. -/
def Load.start (mem : Mem) : Load := ⟨mem, 0, true, [0]⟩

theorem Load.start_at (z : Bytes) (mem : Mem) : (Load.start mem).At z := by
  refine ⟨rfl, rfl, List.pairwise_singleton _ _, fun p hp => ?_⟩
  obtain rfl := List.mem_singleton.1 hp
  exact ⟨Int.le_refl 0, Int.natCast_nonneg _⟩

theorem parse_matches (env : Env) (depth : Nat) (z : Bytes) (mem : Mem) :
    Matches z (Format.item env depth mem z) (ymdParse env z depth (Load.start mem)) :=
  (Reads.parse env depth).run _ (Load.start_at z mem)

/-! ## What follows the call of `ymd_parse` -/

/-- The test of `ymd_pload` on what `ymd_parse` returns. -/
def accept (i : Int) : LoadM Int := do
  if 0 < i ∧ (← get).ok then return (← get).last
  else
    onMem (onVm (ymdPop 1))
    return 0

theorem ymdPload_eq : ymdPload env z depth mem = (ymdParse env z depth >>= accept) (Load.start mem) :=
  rfl

/-- The entry `ymd_pload` takes off the stack. -/
theorem discard_cases (s : Load) :
    (∃ v S, s.mem.l.stk = v :: S ∧ (onMem (onVm (ymdPop 1)) s) =
      .ok () { s with mem := { s.mem with l := { s.mem.l with stk := S } } }) ∨
    s.mem.l.stk = [] ∧ ∃ msg, onMem (onVm (ymdPop 1)) s = .error (.panic msg) s := by
  cases hstk : s.mem.l.stk with
  | nil =>
      obtain ⟨msg, hmsg⟩ := ymdPop_of_gt (l := s.mem.l) (n := 1) (by simp [hstk])
      exact .inr ⟨rfl, msg, by simp only [onMem, onVm, hmsg]⟩
  | cons v S =>
      have hpop : ymdPop 1 s.mem.l = .ok () { s.mem.l with stk := S } :=
        ymdPop_ok_iff.2 ⟨by simp [hstk], by simp [hstk]⟩
      exact .inl ⟨v, S, rfl, by simp only [onMem, onVm, hpop]⟩

theorem accept_of_done {i : Int} {s : Load} (hi : 0 < i) (hok : s.ok = true) :
    accept i s = .ok s.last s := by
  simp only [accept, bind_of_ok (get_apply s), hi, hok, and_self, if_true]
  rfl

theorem accept_of_failed {i : Int} {s : Load} (hno : ¬ (0 < i ∧ s.ok = true)) :
    accept i s = (onMem (onVm (ymdPop 1)) >>= fun _ => pure 0) s := by
  simp only [accept, bind_of_ok (get_apply s), if_neg hno]

theorem grows_accept (i : Int) : Keeps TrailGrows (accept i) := by
  apply Keeps.bind TrailGrows.trans (Keeps.get TrailGrows.refl)
  intro s
  apply Keeps.ite
  · exact fun _ => Keeps.bind TrailGrows.trans (Keeps.get TrailGrows.refl) fun _ =>
      Keeps.pure TrailGrows.refl _
  · exact fun _ => Keeps.bind TrailGrows.trans (Reads.machine (z := []) _).grows fun _ =>
      Keeps.pure TrailGrows.refl _

/-- What follows the parse does not touch the stream. -/
theorem staysInside_accept {i : Int} {s : Load} (hforward : Forward z s.trail) :
    StaysInside z (accept i s) := by
  by_cases hdone : 0 < i ∧ s.ok = true
  · rw [accept_of_done hdone.1 hdone.2]
    exact hforward
  · rw [accept_of_failed hdone]
    obtain ⟨v, S, _, hpop⟩ | ⟨_, msg, hpop⟩ := discard_cases s
    · rw [bind_of_ok hpop]
      exact hforward
    · rw [bind_of_error hpop]
      exact hforward

/-- A stack of `maxStack` entries is full before the nesting is too deep. -/
theorem item_ne_nesting (env : Env) (z : Bytes) (mem : Mem) (hdepth : maxStack < depth) :
    Format.item env depth mem z ≠ .error .nesting := by
  have hinv : mem.Inv mem.l.heap.next mem mem.l.stk := .refl le_rfl
  have hsat := Format.sat_item env (Nat.zero_lt_of_lt hdepth) (Nat.lt_add_left _ hdepth) mem z hinv
  intro herr
  rw [herr] at hsat
  exact hsat rfl

/-- A function of one instruction without constants or names. -/
def funcBuffer : Bytes := [5, 0, 0, 1, 0, 0, 0, 0, 0, 0, 0, 0, 0]

/-- A machine in which the `n`-th step that allocates collects. -/
def Mem.collecting (n : Nat) : Mem := { Mem.initial fun _ => 1 with due := fun i => i == n }

/-- The call ends with a fault. -/
def crashes {α : Type} : EStateM.Result Stop Load α → Bool
  | .error (.fault _) _ => true
  | _ => false

theorem ne_ok_of_crashes {α : Type} {result : EStateM.Result Stop Load α} {a : α} {s : Load}
    (h : crashes result = true) : result ≠ .ok a s := by
  rintro rfl
  cases h

theorem not_staysInside_of_crashes {result : EStateM.Result Stop Load Int}
    (h : crashes result = true) : ¬ StaysInside z result := by
  cases result with
  | ok a s => cases h
  | error stop s =>
      cases stop with
      | panic msg => cases h
      | fault f => exact id

end

/-! ## Bytes taken -/

namespace Format

variable {α β : Type} {r : Format α} {f : α → Format β} {j k : Nat}

/-- A complete reading leaves at least `k` bytes fewer. -/
def Takes (k : Nat) (r : Format α) : Prop :=
  ∀ mem z a mem' rest, r mem z = .ok (.done a mem' rest) → rest.length + k ≤ z.length

/-- What a load function reads is an end of what it was given. -/
theorem takes_of_reads (hr : ∀ z, ∃ x : LoadM α, Reads z x r) : Takes 0 r := by
  intro mem z a mem' rest hdone
  obtain ⟨x, hx⟩ := hr z
  have hmatch := hx.run _ (Load.start_at z mem)
  rw [show (Load.start mem).rest z = z from rfl, show (Load.start mem).mem = mem from rfl,
    hdone] at hmatch
  obtain ⟨s, _, _, rfl, _⟩ := hmatch
  rw [Load.rest, List.length_drop]
  exact Nat.sub_le _ _

theorem Takes.bind (hr : Takes j r) (hf : ∀ a, Takes k (f a)) : Takes (j + k) (r >>= f) := by
  intro mem z b mem' rest hdone
  rw [bind_apply] at hdone
  split at hdone
  next a mem₁ z₁ hfirst =>
    have hj := hr _ _ _ _ _ hfirst
    have hk := hf a _ _ _ _ _ hdone
    omega
  next => cases hdone
  next => cases hdone
  next => cases hdone

theorem Takes.first (hr : Takes k r) (hf : ∀ a, Takes 0 (f a)) : Takes k (r >>= f) := hr.bind hf

theorem Takes.later (hr : Takes 0 r) (hf : ∀ a, Takes k (f a)) : Takes k (r >>= f) := by
  have hbind := hr.bind hf
  rwa [Nat.zero_add] at hbind

theorem Takes.mono (hr : Takes k r) (hjk : j ≤ k) : Takes j r := by
  intro mem z a mem' rest hdone
  have hk := hr _ _ _ _ _ hdone
  omega

theorem takes_pure (a : α) : Takes 0 (Pure.pure a : Format α) := by
  intro mem z b mem' rest hdone
  cases hdone
  exact le_rfl

theorem takes_varint {decode : Bytes → Option (α × Bytes)} (hdecode : Reads.Shortens decode) :
    Takes 1 (varint decode) := by
  intro mem z a mem' rest hdone
  unfold varint at hdone
  split at hdone
  next x rest' hd =>
    cases hdone
    exact (hdecode _ _ _ hd).2
  next => cases hdone

theorem takes_machine (x : MemM α) : Takes 0 (machine x) := by
  intro mem z a mem' rest hdone
  unfold machine at hdone
  split at hdone
  next =>
    cases hdone
    exact le_rfl
  next => cases hdone
  next => cases hdone

theorem Takes.plus (hr : Takes k r) (n : Nat) : Takes k (r.plus n) := by
  intro mem z a mem' rest hdone
  unfold Format.plus at hdone
  split at hdone
  next => cases hdone
  next => exact hr _ _ _ _ _ hdone

theorem takes_kstr : Takes 1 kstr := by
  apply (takes_varint Reads.shortens_uint32decode).first
  intro len
  exact takes_of_reads fun _ => ⟨_, Reads.kstrOf len.toInt⟩

section

variable (env : Env) (depth : Nat)

theorem takes_item : Takes 0 (item env depth) := takes_of_reads fun _ => ⟨_, Reads.parse env depth⟩

theorem takes_binds (k i : Nat) : Takes 0 (binds (item env depth) k i) := by
  induction k generalizing i with
  | zero => exact takes_pure ()
  | succ k ih =>
      apply (takes_item env depth).later
      intro _
      apply (takes_machine _).later
      exact fun _ => ih _

theorem takes_func : Takes 1 (func (item env depth)) := by
  apply (takes_machine _).later
  intro o
  apply (takes_machine _).later
  intro _
  apply (takes_machine _).later
  intro _
  apply Takes.plus
  apply takes_kstr.first
  intro _
  apply (takes_machine _).later
  intro proto
  apply (takes_machine _).later
  intro _
  apply ((takes_varint Reads.shortens_uint32decode).mono (Nat.zero_le 1)).later
  intro nBind
  apply (takes_machine _).later
  intro _
  apply (takes_binds env depth _ _).later
  exact fun _ => takes_of_reads fun _ => ⟨_, Reads.chunk (Reads.parse env depth) o⟩

theorem takes_dyay : Takes 1 (dyay (item env depth)) := by
  apply (takes_varint Reads.shortens_uint32decode).first
  intro i
  apply (takes_machine _).later
  intro _
  exact Takes.plus (takes_of_reads fun _ => ⟨_, Reads.elems (Reads.parse env depth) _⟩) 1

theorem takes_pairs (k : Nat) : Takes 0 (pairs env (item env depth) k) :=
  takes_of_reads fun _ => ⟨_, Reads.pairs (Reads.parse env depth) k⟩

theorem takes_hmap : Takes 1 (hmap env (item env depth)) := by
  apply (takes_varint Reads.shortens_uint32decode).first
  intro k
  apply (takes_machine _).later
  exact fun _ => (takes_pairs env depth _).plus 1

theorem takes_skls : Takes 1 (skls env (item env depth)) := by
  apply (takes_varint Reads.shortens_uint32decode).first
  intro k
  apply (takes_machine _).later
  exact fun _ => (takes_pairs env depth _).plus 1

end

/-- The result is the number of bytes taken. -/
theorem sized_done {r : Format Unit} {mem mem' : Mem} {z rest : Bytes} {a : Int}
    (hdone : sized r mem z = .ok (.done a mem' rest)) :
    a = z.length - rest.length ∧ r mem z = .ok (.done () mem' rest) := by
  unfold sized at hdone
  rw [remain_bind, bind_apply] at hdone
  split at hdone
  next u mem₁ z₁ hr =>
    rw [remain_bind] at hdone
    cases hdone
    exact ⟨rfl, hr⟩
  next => cases hdone
  next => cases hdone
  next => cases hdone

theorem sized_pos {r : Format Unit} (hr : Takes 1 r) {mem mem' : Mem} {z rest : Bytes} {a : Int}
    (hdone : sized r mem z = .ok (.done a mem' rest)) : 0 < a := by
  obtain ⟨rfl, hr'⟩ := sized_done hdone
  have hlt := hr _ _ _ _ _ hr'
  omega

theorem varint_done {decode : Bytes → Option (α × Bytes)} {mem mem' : Mem} {z rest : Bytes}
    {a : α} (hdone : varint decode mem z = .ok (.done a mem' rest)) :
    decode z = some (a, rest) ∧ mem' = mem := by
  unfold varint at hdone
  split at hdone
  next x rest' hd =>
    cases hdone
    exact ⟨hd, rfl⟩
  next => cases hdone

/-- What is behind the tag takes bytes, unless it is nil. -/
theorem behind_tag {env : Env} {depth : Nat} {mem mem' : Mem} {z rest : Bytes} {a : Int}
    (hdone : item env depth mem z = .ok (.done a mem' rest)) :
    ∃ tt behind, uint32decode z = some (tt, behind) ∧ rest.length ≤ behind.length ∧
      a = behind.length - rest.length ∧ (0 < a ↔ tt.toNat ≠ 0) := by
  cases depth with
  | zero => cases hdone
  | succ depth =>
      rw [item, bind_apply] at hdone
      split at hdone
      next tt mem₁ behind htag =>
        refine ⟨tt, behind, (varint_done htag).1, ?_⟩
        generalize tt.toNat = tag at hdone ⊢
        have hpos : ∀ {r : Format Unit}, Takes 1 r → tag ≠ 0 →
            sized r mem₁ behind = .ok (.done a mem' rest) →
            rest.length ≤ behind.length ∧ a = behind.length - rest.length ∧ (0 < a ↔ tag ≠ 0) := by
          intro r hr htag hsized
          obtain ⟨hsize, hrun⟩ := sized_done hsized
          exact ⟨hr.mono (Nat.zero_le 1) _ _ _ _ _ hrun, hsize,
            iff_of_true (sized_pos hr hsized) htag⟩
        match tag with
        | 0 =>
            obtain ⟨hsize, hpush⟩ := sized_done hdone
            have hrest := (takes_machine _) _ _ _ _ _ hpush
            refine ⟨hrest, hsize, iff_of_false ?_ (not_not.2 rfl)⟩
            unfold machine at hpush
            split at hpush
            next =>
              cases hpush
              omega
            next => cases hpush
            next => cases hpush
        | 1 =>
            apply hpos _ (by decide) hdone
            apply (takes_varint Reads.shortens_sint64decode).first
            exact fun i => takes_machine _
        | 2 =>
            apply hpos _ (by decide) hdone
            apply (takes_varint Reads.shortens_uint64decode).first
            exact fun i => takes_machine _
        | 3 => cases hdone
        | 4 => exact hpos takes_kstr (by decide) hdone
        | 5 => exact hpos (takes_func env depth) (by decide) hdone
        | 6 => exact hpos (takes_dyay env depth) (by decide) hdone
        | 7 => exact hpos (takes_hmap env depth) (by decide) hdone
        | 8 => exact hpos (takes_skls env depth) (by decide) hdone
        | tag + 9 => cases hdone
      next => cases hdone
      next => cases hdone
      next => cases hdone

end Format

/-! ## All or nothing -/

section

variable {env : Env} {z : Bytes} {depth : Nat} {mem : Mem}

/-- Where the bytes begin with a complete value, the call returns the number of
its bytes and leaves the value on the stack; where they do not, it returns 0 and
leaves the stack alone. -/
def AllOrNothing (env : Env) (z : Bytes) (depth : Nat) (mem : Mem) : Prop :=
  match Format.item env depth mem z with
  | .ok (.done _ mem' rest) => ∃ s v, ymdPload env z depth mem = .ok (z.length - rest.length) s ∧
      s.mem = mem' ∧ mem'.l.stk = v :: mem.l.stk
  | _ => ∃ s, ymdPload env z depth mem = .ok 0 s ∧ s.mem.l.stk = mem.l.stk

/-- The bytes are parsed without leaving the buffer. The machine may crash. -/
def InBounds (env : Env) (z : Bytes) (depth : Nat) (mem : Mem) : Prop :=
  ∀ d, Format.item env depth mem z = .error d → ∃ f, d = .machine f

/-- A complete value that is not nil, or a failure that leaves one entry. -/
def Settles (z : Bytes) : Except Defect (Outcome Int) → Prop
  | .ok (.done _ _ _) => ∀ rest, uint32decode z ≠ some (0, rest)
  | .ok (.rejected pending _) => pending = 1
  | .ok (.panicked _ _) => False
  | .error _ => False

/-- One entry is taken off behind a failure, however many there are. -/
theorem restores_iff {i : Int} {s : Load} {T S₀ : List Variable}
    (hfailed : ¬ (0 < i ∧ s.ok = true)) (hstk : s.mem.l.stk = T ++ S₀) :
    (∃ t, accept i s = .ok 0 t ∧ t.mem.l.stk = S₀) ↔ T.length = 1 := by
  rw [accept_of_failed hfailed]
  obtain ⟨v, S, hS, hpop⟩ | ⟨hempty, msg, hpop⟩ := discard_cases s
  · rw [bind_of_ok hpop]
    rw [hS] at hstk
    constructor
    · rintro ⟨_, hrun, hleft⟩
      cases hrun
      have hlength := congrArg List.length hstk
      simp only [List.length_cons, List.length_append] at hlength
      have hS' : S.length = S₀.length := congrArg List.length hleft
      omega
    · intro hone
      obtain ⟨w, rfl⟩ := List.length_eq_one_iff.1 hone
      exact ⟨_, rfl, (List.cons.inj hstk).2⟩
  -- nothing is on the stack, and `ymd_pop` panics
  · rw [bind_of_error hpop]
    refine iff_of_false ?_ ?_
    · rintro ⟨_, hrun, _⟩
      cases hrun
    · intro hone
      rw [hempty] at hstk
      have hlength := congrArg List.length hstk
      simp only [List.length_nil, List.length_append, hone] at hlength
      omega

end

end Ymd
