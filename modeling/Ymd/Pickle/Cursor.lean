import Ymd.Pickle.Format

/-! # The load functions read the format

Where the bytes behind the cursor have a reading, a load function comes to what
the reading comes to and only moves the cursor forward inside the buffer. Where
they have a defect it faults or moves the cursor back.
-/

namespace Ymd

open Foundation

/-- The cursor moved forward only, and stayed inside the buffer; the positions
are listed backwards. -/
def Forward (z : Bytes) (trail : List Int) : Prop :=
  trail.Pairwise (· ≥ ·) ∧ ∀ p ∈ trail, 0 ≤ p ∧ p ≤ z.length

namespace Load

variable {z : Bytes} {s s' : Load}

/-- The bytes behind the cursor. -/
def rest (z : Bytes) (s : Load) : Bytes := z.drop s.last.toNat

/-- A load that has not failed and has stayed inside the buffer. -/
structure At (z : Bytes) (s : Load) : Prop where
  ok : s.ok = true
  here : s.trail.head? = some s.last
  forward : Forward z s.trail

theorem At.mem (hat : s.At z) : s.last ∈ s.trail := List.mem_of_mem_head? (by simp [hat.here])

theorem At.nonneg (hat : s.At z) : 0 ≤ s.last := (hat.forward.2 _ hat.mem).1

theorem At.le (hat : s.At z) : s.last ≤ z.length := (hat.forward.2 _ hat.mem).2

theorem At.length_rest (hat : s.At z) : ((s.rest z).length : Int) = z.length - s.last := by
  have hnonneg := hat.nonneg
  have hle := hat.le
  simp only [rest, List.length_drop]
  omega

/-- Moving ahead by `k` bytes. -/
theorem At.ahead (hat : s.At z) {k : Nat} (hk : k ≤ (s.rest z).length) :
    At z { s with last := s.last + k, trail := (s.last + k) :: s.trail } := by
  have hlen := hat.length_rest
  have hnonneg := hat.nonneg
  refine ⟨hat.ok, rfl, List.pairwise_cons.2 ⟨fun p hp => ?_, hat.forward.1⟩, fun p hp => ?_⟩
  · have hlast : p ≤ s.last := by
      obtain ⟨tl, htl⟩ : ∃ tl, s.trail = s.last :: tl := by
        have hhere := hat.here
        cases htrail : s.trail with
        | nil => simp [htrail] at hhere
        | cons q tl =>
            rw [htrail] at hhere
            exact ⟨tl, by rw [Option.some.inj hhere]⟩
      have hpair := hat.forward.1
      rw [htl] at hp hpair
      obtain rfl | hp := List.mem_cons.1 hp
      · exact Int.le_refl _
      · exact (List.pairwise_cons.1 hpair).1 p hp
    change s.last + k ≥ p
    omega
  · obtain rfl | hp := List.mem_cons.1 hp
    · omega
    · exact hat.forward.2 p hp

theorem rest_ahead (hnonneg : 0 ≤ s.last) (k : Nat) (trail : List Int) :
    rest z { s with last := s.last + k, trail := trail } = (s.rest z).drop k := by
  have htoNat : (s.last + k).toNat = s.last.toNat + k := by omega
  simp only [rest, htoNat, List.drop_drop]

end Load

/-- A call that faults or moves the cursor back or out of the buffer. -/
def Off {α : Type} (z : Bytes) : EStateM.Result Stop Load α → Prop
  | .ok _ s => ¬ Forward z s.trail
  | .error (.panic _) s => ¬ Forward z s.trail
  | .error (.fault _) _ => True

/-- The call meets a defect. A fault of the machine is its end. -/
structure Fails {α : Type} (z : Bytes) (d : Defect) (result : EStateM.Result Stop Load α) :
    Prop where
  off : Off z result
  fault : ∀ f, d = .machine f → ∃ s, result = .error (.fault f) s

/-- The call comes to what the reading says. -/
def Matches {α : Type} (z : Bytes) :
    Except Defect (Outcome α) → EStateM.Result Stop Load α → Prop
  | .ok (.done a mem rest), result =>
      ∃ s, result = .ok a s ∧ s.mem = mem ∧ s.rest z = rest ∧ s.At z
  | .ok (.rejected _ mem), result =>
      ∃ a s, result = .ok a s ∧ s.mem = mem ∧ s.ok = false ∧ Forward z s.trail
  | .ok (.panicked msg mem), result =>
      ∃ s, result = .error (.panic msg) s ∧ s.mem = mem ∧ Forward z s.trail
  | .error d, result => Fails z d result

/-- No load function forgets a position of the cursor. -/
def TrailGrows (s t : Load) : Prop := s.trail <:+ t.trail

theorem TrailGrows.refl (s : Load) : TrailGrows s s := List.suffix_refl _

theorem TrailGrows.trans (s t u : Load) (hst : TrailGrows s t) (htu : TrailGrows t u) :
    TrailGrows s u :=
  List.IsSuffix.trans hst htu

theorem forward_of_grows {z : Bytes} {s t : Load} (hgrows : TrailGrows s t)
    (ht : Forward z t.trail) : Forward z s.trail :=
  ⟨ht.1.sublist hgrows.sublist, fun p hp => ht.2 p (hgrows.subset hp)⟩

variable {α β : Type} {z : Bytes}

/-- A load function and the piece of the format it reads. -/
structure Reads (z : Bytes) (x : LoadM α) (r : Format α) : Prop where
  grows : Keeps TrailGrows x
  run : ∀ s, s.At z → Matches z (r s.mem (s.rest z)) (x s)

/-- What is off stays off. -/
theorem off_bind {x : LoadM α} {f : α → LoadM β} {s : Load} (hoff : Off z (x s))
    (hf : ∀ a, Keeps TrailGrows (f a)) : Off z ((x >>= f) s) := by
  cases hx : x s with
  | ok a s' =>
      rw [hx] at hoff
      rw [bind_of_ok hx]
      have hgrows := hf a s'
      cases hrun : f a s' with
      | ok b t =>
          rw [hrun] at hgrows
          exact fun ht => hoff (forward_of_grows hgrows ht)
      | error stop t =>
          rw [hrun] at hgrows
          cases stop with
          | panic msg => exact fun ht => hoff (forward_of_grows hgrows ht)
          | fault f => trivial
  | error stop s' =>
      rw [hx] at hoff
      rw [bind_of_error hx]
      cases stop with
      | panic msg => exact hoff
      | fault f => trivial

theorem Fails.bind {x : LoadM α} {f : α → LoadM β} {s : Load} {d : Defect} (h : Fails z d (x s))
    (hf : ∀ a, Keeps TrailGrows (f a)) : Fails z d ((x >>= f) s) where
  off := off_bind h.off hf
  fault := by
    intro e hd
    obtain ⟨s', hs'⟩ := h.fault e hd
    exact ⟨s', bind_of_error hs'⟩

namespace Reads

variable {x : LoadM α} {r : Format α} {f : α → LoadM β} {g : α → Format β}

theorem pure (a : α) : Reads z (Pure.pure a) (Pure.pure a) where
  grows := Keeps.pure TrailGrows.refl a
  run := fun s hat => ⟨s, rfl, rfl, rfl, hat⟩

theorem bind (hx : Reads z x r) (hacc : r.Accepting) (hf : ∀ a, Reads z (f a) (g a)) :
    Reads z (x >>= f) (r >>= g) where
  grows := Keeps.bind TrailGrows.trans hx.grows fun a => (hf a).grows
  run := by
    intro s hat
    have hmatch := hx.run s hat
    cases hr : r s.mem (s.rest z) with
    | error d =>
        rw [hr] at hmatch
        rw [Format.bind_of_error hr]
        exact hmatch.bind fun a => (hf a).grows
    | ok out =>
        rw [hr] at hmatch
        cases out with
        | done a mem rest =>
            obtain ⟨s', hs', rfl, rfl, hat'⟩ := hmatch
            rw [Format.bind_of_done hr, bind_of_ok hs']
            exact (hf a).run s' hat'
        | rejected pending mem => exact absurd hr (hacc _ _ _ _)
        | panicked msg mem =>
            obtain ⟨s', hs', hmem, hforward⟩ := hmatch
            rw [Format.bind_of_panicked hr, bind_of_error hs']
            exact ⟨s', rfl, hmem, hforward⟩

/-- A call under `CHECK_OK`. -/
theorem loadOk {k : LoadM Unit} {h : Format Unit} (hx : Reads z x r) (hk : Reads z k h) :
    Reads z (loadOk x k) (r >>= fun _ => h) where
  grows := by
    apply Keeps.bind TrailGrows.trans hx.grows
    intro a
    apply Keeps.bind TrailGrows.trans (Keeps.get TrailGrows.refl)
    intro s
    exact Keeps.ite (fun _ => hk.grows) fun _ => Keeps.pure TrailGrows.refl ()
  run := by
    intro s hat
    have hmatch := hx.run s hat
    unfold Ymd.loadOk
    cases hr : r s.mem (s.rest z) with
    | error d =>
        rw [hr] at hmatch
        rw [Format.bind_of_error hr]
        apply hmatch.bind
        intro a
        apply Keeps.bind TrailGrows.trans (Keeps.get TrailGrows.refl)
        intro s
        exact Keeps.ite (fun _ => hk.grows) fun _ => Keeps.pure TrailGrows.refl ()
    | ok out =>
        rw [hr] at hmatch
        cases out with
        | done a mem rest =>
            obtain ⟨s', hs', rfl, rfl, hat'⟩ := hmatch
            rw [Format.bind_of_done hr, bind_of_ok hs', bind_of_ok (get_apply s'), if_pos hat'.ok]
            exact hk.run s' hat'
        | rejected pending mem =>
            obtain ⟨a, s', hs', hmem, hok, hforward⟩ := hmatch
            rw [Format.bind_of_rejected hr, bind_of_ok hs', bind_of_ok (get_apply s'),
              if_neg (by simp [hok])]
            exact ⟨(), s', rfl, hmem, hok, hforward⟩
        | panicked msg mem =>
            obtain ⟨s', hs', hmem, hforward⟩ := hmatch
            rw [Format.bind_of_panicked hr, bind_of_error hs']
            exact ⟨s', rfl, hmem, hforward⟩

theorem ite {c : Prop} [Decidable c] {y : LoadM α} {h : Format α} (hx : c → Reads z x r)
    (hy : ¬ c → Reads z y h) : Reads z (if c then x else y) (if c then r else h) := by
  by_cases hc : c
  · rw [if_pos hc, if_pos hc]
    exact hx hc
  · rw [if_neg hc, if_neg hc]
    exact hy hc

theorem plus (hx : Reads z x r) (n : Nat) : Reads z x (r.plus n) where
  grows := hx.grows
  run := by
    intro s hat
    have hmatch := hx.run s hat
    unfold Format.plus
    cases hr : r s.mem (s.rest z) with
    | error d => rwa [hr] at hmatch
    | ok out =>
        rw [hr] at hmatch
        cases out with
        | done a mem rest => exact hmatch
        | rejected pending mem => exact hmatch
        | panicked msg mem => exact hmatch

theorem fail : Reads z loadFail Format.reject where
  grows := fun _ => List.suffix_refl _
  run := fun s hat => ⟨(), { s with ok := false }, rfl, rfl, rfl, hat.forward⟩

theorem machine (x : MemM α) : Reads z (onMem x) (Format.machine x) where
  grows := by
    intro s
    unfold onMem
    split <;> exact List.suffix_refl _
  run := by
    intro s hat
    unfold onMem Format.machine
    cases hx : x s.mem with
    | ok a mem => exact ⟨_, rfl, rfl, rfl, ⟨hat.ok, hat.here, hat.forward⟩⟩
    | error stop mem =>
        cases stop with
        | panic msg => exact ⟨_, rfl, rfl, hat.forward⟩
        | fault f =>
            refine ⟨trivial, fun e hd => ?_⟩
            cases hd
            exact ⟨_, rfl⟩

/-! ## Fields -/

/-- A decoder leaves a proper end of the bytes it is given. -/
def Shortens (decode : Bytes → Option (α × Bytes)) : Prop :=
  ∀ z a rest, decode z = some (a, rest) → rest <:+ z ∧ rest.length < z.length

theorem shortens_decodeFrom (x : BitVec 64) : Shortens fun z => decodeFrom z x := by
  intro z
  induction z generalizing x with
  | nil =>
      intro a rest h
      cases h
  | cons c z ih =>
      intro a rest h
      simp only [decodeFrom] at h
      split at h
      next =>
        obtain ⟨hsuffix, hlt⟩ := ih _ a rest h
        exact ⟨hsuffix.trans (List.suffix_cons c z), Nat.lt_succ_of_lt hlt⟩
      next =>
        simp only [Option.some.injEq, Prod.mk.injEq] at h
        obtain ⟨_, rfl⟩ := h
        exact ⟨List.suffix_cons c z, Nat.lt_succ_self _⟩

theorem Shortens.map {decode : Bytes → Option (α × Bytes)} (hdecode : Shortens decode)
    (f : α → β) : Shortens fun z => (decode z).map fun (a, rest) => (f a, rest) := by
  intro z b rest h
  simp only [Option.map_eq_some_iff] at h
  obtain ⟨⟨a, rest'⟩, ha, heq⟩ := h
  cases heq
  exact hdecode z a _ ha

theorem shortens_uint64decode : Shortens uint64decode := shortens_decodeFrom 0

theorem shortens_uint32decode : Shortens uint32decode := shortens_uint64decode.map _

theorem shortens_sint64decode : Shortens sint64decode := shortens_uint64decode.map _

@[simp] theorem zisRemain_apply (s : Load) : zisRemain z s = .ok (z.length - s.last) s := rfl

@[simp] theorem loadFault_apply (f : Fault) (s : Load) :
    (loadFault f : LoadM α) s = .error (.fault f) s := rfl

theorem grows_zisAdvance (k : Int) : Keeps TrailGrows (zisAdvance z k) := by
  intro s
  unfold zisAdvance
  rw [bind_of_ok (zisRemain_apply s)]
  by_cases hk : (z.length : Int) - s.last < k
  · simp only [if_pos hk]
    exact List.suffix_refl _
  · simp only [if_neg hk]
    exact List.suffix_cons _ _

/-- `zis_advance` over bytes that are there. -/
theorem zisAdvance_apply {s : Load} (hat : s.At z) {k : Nat} (hk : k ≤ (s.rest z).length) :
    zisAdvance z k s = .ok () { s with last := s.last + k, trail := (s.last + k) :: s.trail } := by
  have hlen := hat.length_rest
  have hroom : ¬ (z.length : Int) - s.last < k := by omega
  unfold zisAdvance
  rw [bind_of_ok (zisRemain_apply s)]
  simp only [if_neg hroom]
  rfl

theorem varint {decode : Bytes → Option (α × Bytes)} (hdecode : Shortens decode) :
    Reads z (zisVarint z decode) (Format.varint decode) where
  grows := by
    apply Keeps.bind TrailGrows.trans (Keeps.get TrailGrows.refl)
    intro s
    apply Keeps.ite (fun _ => Keeps.throw TrailGrows.refl _)
    intro _
    split
    next => exact Keeps.throw TrailGrows.refl _
    next x rest _ =>
      apply Keeps.bind TrailGrows.trans (grows_zisAdvance _)
      exact fun _ => Keeps.pure TrailGrows.refl _
  run := by
    intro s hat
    have hnonneg := hat.nonneg
    have hle := hat.le
    have hlen := hat.length_rest
    have hin : ¬ (s.last < 0 ∨ (z.length : Int) < s.last) := by omega
    unfold zisVarint Format.varint
    rw [bind_of_ok (get_apply s)]
    simp only [if_neg hin]
    rw [show z.drop s.last.toNat = s.rest z by rfl]
    cases hd : decode (s.rest z) with
    | none => exact ⟨trivial, nofun⟩
    | some out =>
        obtain ⟨x, rest⟩ := out
        obtain ⟨hsuffix, hlt⟩ := hdecode _ x rest hd
        have hk : (s.rest z).length - rest.length ≤ (s.rest z).length := Nat.sub_le _ _
        have hcast : (z.length : Int) - s.last - rest.length =
            (((s.rest z).length - rest.length : Nat) : Int) := by omega
        have hdrop : (s.rest z).drop ((s.rest z).length - rest.length) = rest :=
          (List.suffix_iff_eq_drop.1 hsuffix).symm
        simp only [hcast]
        rw [bind_of_ok (zisAdvance_apply hat hk)]
        refine ⟨_, rfl, rfl, ?_, hat.ahead hk⟩
        rw [Load.rest_ahead hnonneg, hdrop]

theorem zisU32 : Reads z (zisU32 z) (Format.varint uint32decode) := varint shortens_uint32decode

theorem zisU64 : Reads z (zisU64 z) (Format.varint uint64decode) := varint shortens_uint64decode

theorem zisI64 : Reads z (zisI64 z) (Format.varint sint64decode) := varint shortens_sint64decode

/-- The bytes of a field that is there. -/
theorem zisBytes_apply {s : Load} (hat : s.At z) {n : Nat} (hn : n ≤ (s.rest z).length) :
    zisBytes z n s = .ok ((s.rest z).take n) s := by
  have hlen := hat.length_rest
  have hnonneg := hat.nonneg
  unfold zisBytes
  rw [bind_of_ok (get_apply s)]
  by_cases h0 : n = 0
  · simp [h0]
  · have hin : ¬ (s.last < 0 ∨ (z.length : Int) < s.last + n) := by omega
    simp only [if_neg h0, if_neg hin]
    rfl

theorem grows_zisBytes (n : Nat) : Keeps TrailGrows (zisBytes z n) := by
  apply Keeps.bind TrailGrows.trans (Keeps.get TrailGrows.refl)
  intro s
  apply Keeps.ite (fun _ => Keeps.pure TrailGrows.refl _)
  intro _
  exact Keeps.ite (fun _ => Keeps.throw TrailGrows.refl _) fun _ => Keeps.pure TrailGrows.refl _

theorem grows_zisCstr : Keeps TrailGrows (zisCstr z) := by
  apply Keeps.bind TrailGrows.trans (Keeps.get TrailGrows.refl)
  intro s
  apply Keeps.ite (fun _ => Keeps.throw TrailGrows.refl _)
  intro _
  exact Keeps.ite (fun _ => Keeps.pure TrailGrows.refl _) fun _ => Keeps.throw TrailGrows.refl _

/-- Moving back, or out of the buffer, is off. -/
theorem off_zisAdvance {s : Load} (hhere : s.trail.head? = some s.last) {k : Int} (hk : k < 0) :
    Off z (zisAdvance z k s) := by
  unfold zisAdvance
  rw [bind_of_ok (zisRemain_apply s)]
  by_cases hroom : (z.length : Int) - s.last < k
  · simp only [if_pos hroom]
    trivial
  · simp only [if_neg hroom]
    intro hforward
    have hge := (List.pairwise_cons.1 hforward.1).1 s.last (List.mem_of_mem_head? (by simp [hhere]))
    omega

theorem zisCstr_run {s : Load} (hat : s.At z) :
    Matches z (Format.upToNul s.mem (s.rest z)) (zisCstr z s) := by
  have hnonneg := hat.nonneg
  have hle := hat.le
  have hin : ¬ (s.last < 0 ∨ (z.length : Int) < s.last) := by omega
  unfold zisCstr Format.upToNul
  rw [bind_of_ok (get_apply s)]
  simp only [if_neg hin]
  rw [show z.drop s.last.toNat = s.rest z by rfl]
  by_cases hnul : 0 ∈ s.rest z
  · simp only [if_pos hnul]
    exact ⟨s, rfl, rfl, rfl, hat⟩
  · simp only [if_neg hnul]
    exact ⟨trivial, nofun⟩

theorem upToNul : Reads z (zisCstr z) Format.upToNul := ⟨grows_zisCstr, fun _ => zisCstr_run⟩

theorem accepting_upToNul : Format.upToNul.Accepting := by
  intro mem z pending mem' hr
  unfold Format.upToNul at hr
  split at hr <;> cases hr

/-- A move back is the end of a reading. -/
theorem back {k : Int} (hk : k < 0) : Reads z (zisAdvance z k) (Format.defect .negative) :=
  ⟨grows_zisAdvance k, fun _ hat => ⟨off_zisAdvance hat.here hk, nofun⟩⟩

theorem remain : Reads z (zisRemain z) Format.remain where
  grows := fun _ => List.suffix_refl _
  run := fun s hat => ⟨s, by rw [zisRemain_apply, hat.length_rest], rfl, rfl, hat⟩

theorem fetchKstr_grows (len : Int) : Keeps TrailGrows (fetchKstr z len) :=
  Keeps.ite (fun _ => grows_zisCstr) fun _ => grows_zisBytes _

/-- The machine takes the bytes before the cursor moves behind them. -/
theorem bytes_run {s : Load} (hat : s.At z) {n : Nat} (hn : n ≤ (s.rest z).length)
    (x : Bytes → MemM Unit) :
    Matches z ((Format.take n >>= fun bytes => Format.machine (x bytes)) s.mem (s.rest z))
      ((zisBytes z n >>= fun bytes => onMem (x bytes) >>= fun _ => zisAdvance z n) s) := by
  have htake : Format.take n s.mem (s.rest z) =
      .ok (.done ((s.rest z).take n) s.mem ((s.rest z).drop n)) := by
    rw [Format.take, if_pos hn]
  rw [Format.bind_of_done htake, bind_of_ok (zisBytes_apply hat hn)]
  unfold Format.machine
  cases hx : x ((s.rest z).take n) s.mem with
  | ok a mem =>
      have hrun : onMem (x ((s.rest z).take n)) s = .ok a { s with mem := mem } := by
        rw [onMem, hx]
      have hat' : Load.At z { s with mem := mem } := ⟨hat.ok, hat.here, hat.forward⟩
      rw [bind_of_ok hrun, zisAdvance_apply hat' hn]
      exact ⟨_, rfl, rfl, Load.rest_ahead hat'.nonneg n _, hat'.ahead hn⟩
  | error stop mem =>
      have hrun : onMem (x ((s.rest z).take n)) s = .error stop { s with mem := mem } := by
        rw [onMem, hx]
      rw [bind_of_error hrun]
      cases stop with
      | panic msg => exact ⟨_, rfl, rfl, hat.forward⟩
      | fault f =>
          refine ⟨trivial, fun e hd => ?_⟩
          cases hd
          exact ⟨_, rfl⟩

theorem kstrOf (len : Int) : Reads z (loadKstrOf z len) (Format.kstrOf len) where
  grows := by
    apply Keeps.bind TrailGrows.trans remain.grows
    intro left
    apply Keeps.ite (fun _ => (fail (z := z)).grows)
    intro _
    apply Keeps.bind TrailGrows.trans (fetchKstr_grows len)
    intro bytes
    apply Keeps.bind TrailGrows.trans (machine (z := z) (onHeap (ymdKstr bytes))).grows
    exact fun _ => grows_zisAdvance _
  run := by
    intro s hat
    have hleft := hat.length_rest
    unfold loadKstrOf Format.kstrOf
    rw [bind_of_ok (zisRemain_apply s), Format.remain_bind, hleft]
    by_cases hlong : (z.length : Int) - s.last < len
    · rw [if_pos hlong, if_pos hlong]
      exact fail.run s hat
    rw [if_neg hlong, if_neg hlong]
    unfold fetchKstr
    by_cases hneg : len < 0
    · rw [if_pos hneg, if_pos hneg]
      apply (bind upToNul accepting_upToNul fun bytes => ?_).run s hat
      apply bind (machine _) (Format.accepting_machine _)
      exact fun _ => back hneg
    · rw [if_neg hneg, if_neg hneg]
      obtain ⟨n, rfl⟩ := Int.eq_ofNat_of_zero_le (not_lt.1 hneg)
      exact bytes_run hat (by omega) _

theorem kstr : Reads z (ymdLoadKstr z) Format.kstr :=
  bind zisU32 (Format.accepting_varint _) fun len => kstrOf len.toInt

theorem take {n : Nat} : Reads z (zisFetch z n) (Format.take n) where
  grows := by
    apply Keeps.bind TrailGrows.trans remain.grows
    intro left
    apply Keeps.ite (fun _ => Keeps.throw TrailGrows.refl _)
    intro _
    apply Keeps.ite (fun _ => Keeps.throw TrailGrows.refl _)
    intro _
    apply Keeps.bind TrailGrows.trans (grows_zisBytes _)
    intro bytes
    apply Keeps.bind TrailGrows.trans (grows_zisAdvance _)
    exact fun _ => Keeps.pure TrailGrows.refl _
  run := by
    intro s hat
    have hleft := hat.length_rest
    have hneg : ¬ (n : Int) < 0 := by omega
    unfold zisFetch Format.take
    rw [bind_of_ok (zisRemain_apply s)]
    by_cases hn : n ≤ (s.rest z).length
    · have hroom : ¬ (z.length : Int) - s.last < n := by omega
      simp only [if_neg hroom, if_neg hneg, if_pos hn, Int.toNat_natCast]
      rw [bind_of_ok (zisBytes_apply hat hn), bind_of_ok (zisAdvance_apply hat hn)]
      exact ⟨_, rfl, rfl, Load.rest_ahead hat.nonneg n _, hat.ahead hn⟩
    · have hroom : (z.length : Int) - s.last < n := by omega
      simp only [if_pos hroom, if_neg hn]
      exact ⟨trivial, nofun⟩

/-- A fetch of a negative number of bytes. -/
theorem takeNegative {k : Int} (hk : k < 0) :
    Reads z (zisFetch z k) (Format.defect .cutOff) where
  grows := by
    apply Keeps.bind TrailGrows.trans remain.grows
    intro left
    apply Keeps.ite (fun _ => Keeps.throw TrailGrows.refl _)
    intro _
    apply Keeps.ite (fun _ => Keeps.throw TrailGrows.refl _)
    intro _
    apply Keeps.bind TrailGrows.trans (grows_zisBytes _)
    intro bytes
    apply Keeps.bind TrailGrows.trans (grows_zisAdvance _)
    exact fun _ => Keeps.pure TrailGrows.refl _
  run := by
    intro s hat
    have hle := hat.le
    have hroom : ¬ (z.length : Int) - s.last < k := by omega
    unfold zisFetch
    rw [bind_of_ok (zisRemain_apply s)]
    simp only [if_neg hroom, if_pos hk]
    exact ⟨trivial, nofun⟩

/-! ## The load functions -/

theorem accepting_lines (k : Nat) : (Format.lines k).Accepting := by
  induction k with
  | zero => exact Format.accepting_pure _
  | succ k ih =>
      apply (Format.accepting_varint _).bind
      intro line
      exact ih.bind fun rest => Format.accepting_pure _

theorem lines (k : Nat) : Reads z (loadLines z k) (Format.lines k) := by
  induction k with
  | zero => exact pure []
  | succ k ih =>
      apply bind zisU32 (Format.accepting_varint _)
      intro line
      apply bind ih (accepting_lines k)
      exact fun rest => pure _

theorem lz {done : List Bytes → LoadM Unit} {f : List Bytes → Format Unit}
    (hdone : ∀ names, Reads z (done names) (f names)) (k : Nat) (names : List Bytes) :
    Reads z (loadLz z k names done) (Format.names k names >>= f) := by
  induction k generalizing names with
  | zero => exact hdone names
  | succ k ih =>
      have hstep : (Format.names (k + 1) names >>= f) =
          (Format.kstr >>= fun _ => Format.machine (onVm takeKstr) >>= fun name =>
            Format.names k (names ++ [name]) >>= f) := by
        rw [Format.names, Format.bind_assoc]
        congr 1
        funext _
        rw [Format.bind_assoc]
      rw [hstep]
      apply loadOk kstr
      apply bind (machine _) (Format.accepting_machine _)
      exact fun name => ih _

theorem tail (o : Addr) : Reads z (loadTail z o) (Format.tail o) := by
  apply loadOk kstr
  apply bind (machine _) (Format.accepting_machine _)
  intro file
  apply bind (machine _) (Format.accepting_machine _)
  intro _
  apply bind (machine _) (Format.accepting_machine _)
  intro _
  apply bind zisU32 (Format.accepting_varint _)
  intro kargs
  apply bind (machine _) (Format.accepting_machine _)
  intro _
  exact ite (fun _ => pure ()) fun _ => fail

theorem names (o : Addr) : Reads z (loadNames z o) (Format.locals o) := by
  apply bind zisU32 (Format.accepting_varint _)
  intro k
  apply ite
  · intro _
    apply ite
    · intro _
      apply bind (machine _) (Format.accepting_machine _)
      intro _
      apply lz
      intro names
      apply bind (machine _) (Format.accepting_machine _)
      exact fun _ => tail o
    · exact fun _ => fail
  · exact fun _ => tail o

section

variable {env : Env} {parse : LoadM Int} {item : Format Int} (hparse : Reads z parse item)

include hparse

theorem kvals {done : List Variable → LoadM Unit} {f : List Variable → Format Unit}
    (hdone : ∀ vals, Reads z (done vals) (f vals)) (k : Nat) (vals : List Variable) :
    Reads z (loadKvals parse k vals done) (Format.kvals item k vals >>= f) := by
  induction k generalizing vals with
  | zero => exact hdone vals
  | succ k ih =>
      have hstep : (Format.kvals item (k + 1) vals >>= f) =
          (item >>= fun _ => Format.machine (onVm takeTop) >>= fun v =>
            Format.kvals item k (vals ++ [v]) >>= f) := by
        rw [Format.kvals, Format.bind_assoc]
        congr 1
        funext _
        rw [Format.bind_assoc]
      rw [hstep]
      apply loadOk hparse
      apply bind (machine _) (Format.accepting_machine _)
      exact fun v => ih _

theorem consts (o : Addr) : Reads z (loadConsts z parse o) (Format.consts item o) := by
  apply bind zisU32 (Format.accepting_varint _)
  intro k
  apply ite
  · intro _
    apply bind (machine _) (Format.accepting_machine _)
    intro _
    apply kvals hparse
    intro vals
    apply bind (machine _) (Format.accepting_machine _)
    exact fun _ => names o
  · exact fun _ => names o

theorem chunk (o : Addr) : Reads z (ymdLoadChunk z parse o) (Format.chunk item o) := by
  have hrest : ∀ (k : Nat) (bytes : Bytes), Reads z
      (do
        onMem gcRecord
        let lines ← loadLines z k
        onMem (editDebug o fun debug => { debug with line := lines })
        onMem (onVm (editCore o fun core => { core with inst := instWords k bytes }))
        loadConsts z parse o)
      (do
        Format.machine gcRecord
        let table ← Format.lines k
        Format.machine (editDebug o fun debug => { debug with line := table })
        Format.machine (onVm (editCore o fun core => { core with inst := instWords k bytes }))
        Format.consts item o) := by
    intro k bytes
    apply bind (machine _) (Format.accepting_machine _)
    intro _
    apply bind (lines k) (accepting_lines k)
    intro table
    apply bind (machine _) (Format.accepting_machine _)
    intro _
    apply bind (machine _) (Format.accepting_machine _)
    exact fun _ => consts hparse o
  apply bind zisU32 (Format.accepting_varint _)
  intro k
  apply ite
  · intro _
    apply bind (machine _) (Format.accepting_machine _)
    intro _
    by_cases hneg : (4 * k.toInt).bmod (2 ^ 32) < 0
    · simp only [if_pos hneg]
      rw [← Format.defect_bind .cutOff fun bytes => (do
        Format.machine gcRecord
        let table ← Format.lines k.toInt.toNat
        Format.machine (editDebug o fun debug => { debug with line := table })
        Format.machine (onVm (editCore o fun core =>
          { core with inst := instWords k.toInt.toNat bytes }))
        Format.consts item o)]
      apply bind (takeNegative hneg) (Format.accepting_defect _)
      exact fun bytes => hrest _ bytes
    · simp only [if_neg hneg]
      obtain ⟨n, hn⟩ := Int.eq_ofNat_of_zero_le (not_lt.1 hneg)
      rw [hn, Int.toNat_natCast]
      apply bind take (Format.accepting_take _)
      exact fun bytes => hrest _ bytes
  · exact fun _ => fail

theorem binds {done : LoadM Unit} {f : Format Unit} (hdone : Reads z done f) (k i : Nat) :
    Reads z (loadBinds parse k i done) (Format.binds item k i >>= fun _ => f) := by
  induction k generalizing i with
  | zero => exact hdone
  | succ k ih =>
      have hstep : (Format.binds item (k + 1) i >>= fun _ => f) =
          (item >>= fun _ => Format.machine (onHeap (ymdBind i)) >>= fun _ =>
            Format.binds item k (i + 1) >>= fun _ => f) := by
        rw [Format.binds, Format.bind_assoc]
        congr 1
        funext _
        rw [Format.bind_assoc]
      rw [hstep]
      apply loadOk hparse
      apply bind (machine _) (Format.accepting_machine _)
      exact fun _ => ih _

theorem func : Reads z (ymdLoadFunc z parse) (Format.func item) := by
  apply bind (machine _) (Format.accepting_machine _)
  intro o
  apply bind (machine _) (Format.accepting_machine _)
  intro _
  apply bind (machine _) (Format.accepting_machine _)
  intro _
  apply plus
  apply loadOk kstr
  apply bind (machine _) (Format.accepting_machine _)
  intro proto
  apply bind (machine _) (Format.accepting_machine _)
  intro _
  apply bind zisU32 (Format.accepting_varint _)
  intro nBind
  apply bind (machine _) (Format.accepting_machine _)
  intro _
  exact binds hparse (chunk hparse o) _ 0

theorem elems (i : Nat) : Reads z (loadElems parse i) (Format.elems item i) := by
  induction i with
  | zero => exact pure ()
  | succ i ih =>
      apply loadOk hparse
      apply bind (machine _) (Format.accepting_machine _)
      exact fun _ => ih

theorem dyay : Reads z (ymdLoadDyay z parse) (Format.dyay item) := by
  apply bind zisU32 (Format.accepting_varint _)
  intro i
  apply bind (machine _) (Format.accepting_machine _)
  intro _
  exact plus (elems hparse _) 1

theorem pairs (k : Nat) : Reads z (loadPairs env parse k) (Format.pairs env item k) := by
  induction k with
  | zero => exact pure ()
  | succ k ih =>
      apply loadOk hparse
      apply loadOk (plus hparse 1)
      apply bind (machine _) (Format.accepting_machine _)
      exact fun _ => ih

theorem hmap : Reads z (ymdLoadHmap env z parse) (Format.hmap env item) := by
  apply bind zisU32 (Format.accepting_varint _)
  intro k
  apply bind (machine _) (Format.accepting_machine _)
  intro _
  exact plus (pairs hparse _) 1

theorem skls : Reads z (ymdLoadSkls env z parse) (Format.skls env item) := by
  apply bind zisU32 (Format.accepting_varint _)
  intro k
  apply bind (machine _) (Format.accepting_machine _)
  intro _
  exact plus (pairs hparse _) 1

end

/-! ## `ymd_parse` -/

theorem grows_parsed (off : Int) : Keeps TrailGrows (parsed off) :=
  Keeps.bind TrailGrows.trans (Keeps.get TrailGrows.refl) fun _ => Keeps.pure TrailGrows.refl _

@[simp] theorem parsed_apply (off : Int) (s : Load) : parsed off s = .ok (s.last - off) s := rfl

/-- A value and the number of bytes it takes. -/
theorem sizedRun {x : LoadM Unit} {r : Format Unit} (hx : Reads z x r) {s : Load}
    (hat : s.At z) :
    Matches z (Format.sized r s.mem (s.rest z)) ((x >>= fun _ => parsed s.last) s) := by
  have hmatch := hx.run s hat
  have hlen := hat.length_rest
  unfold Format.sized
  rw [Format.remain_bind]
  cases hr : r s.mem (s.rest z) with
  | error d =>
      rw [hr] at hmatch
      rw [Format.bind_of_error hr]
      exact hmatch.bind fun _ => grows_parsed _
  | ok out =>
      rw [hr] at hmatch
      cases out with
      | done a mem rest =>
          obtain ⟨s', hs', rfl, rfl, hat'⟩ := hmatch
          have hlen' := hat'.length_rest
          rw [Format.bind_of_done hr, bind_of_ok hs', parsed_apply]
          refine ⟨s', ?_, rfl, rfl, hat'⟩
          congr 1
          omega
      | rejected pending mem =>
          obtain ⟨a, s', hs', hmem, hok, hforward⟩ := hmatch
          rw [Format.bind_of_rejected hr, bind_of_ok hs', parsed_apply]
          exact ⟨_, s', rfl, hmem, hok, hforward⟩
      | panicked msg mem =>
          obtain ⟨s', hs', hmem, hforward⟩ := hmatch
          rw [Format.bind_of_panicked hr, bind_of_error hs']
          exact ⟨s', rfl, hmem, hforward⟩

theorem grows_parseOk {x : LoadM Unit} (hx : Keeps TrailGrows x) (off : Int) :
    Keeps TrailGrows (parseOk off x) := by
  apply Keeps.bind TrailGrows.trans hx
  intro _
  apply Keeps.bind TrailGrows.trans (Keeps.get TrailGrows.refl)
  intro s
  exact Keeps.ite (fun _ => grows_parsed off) fun _ => Keeps.pure TrailGrows.refl _

/-- The same under `CHECK_OK`. -/
theorem sizedOk {x : LoadM Unit} {r : Format Unit} (hx : Reads z x r) {s : Load}
    (hat : s.At z) : Matches z (Format.sized r s.mem (s.rest z)) (parseOk s.last x s) := by
  have hsized := sizedRun hx hat
  unfold parseOk
  cases hrun : x s with
  | ok a s' =>
      rw [bind_of_ok hrun, parsed_apply] at hsized
      rw [bind_of_ok hrun, bind_of_ok (get_apply s')]
      by_cases hok : s'.ok = true
      · rw [if_pos hok, parsed_apply]
        exact hsized
      · -- the result of a failed call does not matter
        rw [if_neg hok, pure_apply]
        cases hr : Format.sized r s.mem (s.rest z) with
        | error d =>
            rw [hr] at hsized
            refine ⟨hsized.off, fun f hd => ?_⟩
            obtain ⟨t, ht⟩ := hsized.fault f hd
            cases ht
        | ok out =>
            rw [hr] at hsized
            cases out with
            | done b mem rest =>
                obtain ⟨t, ht, _, _, hat'⟩ := hsized
                cases ht
                exact absurd hat'.ok hok
            | rejected pending mem =>
                obtain ⟨b, t, ht, hrest⟩ := hsized
                cases ht
                exact ⟨0, s', rfl, hrest⟩
            | panicked msg mem =>
                obtain ⟨t, ht, _⟩ := hsized
                cases ht
  | error stop s' =>
      rw [bind_of_error hrun] at hsized
      rwa [bind_of_error hrun]

/-- A case of `ymd_parse` behind the tag. -/
theorem caseOf {x : LoadM Unit} {r : Format Unit} (hx : Reads z x r) :
    Reads z (do let s ← get; x; parsed s.last) (Format.sized r) where
  grows := by
    apply Keeps.bind TrailGrows.trans (Keeps.get TrailGrows.refl)
    intro s
    exact Keeps.bind TrailGrows.trans hx.grows fun _ => grows_parsed _
  run := by
    intro s hat
    rw [bind_of_ok (get_apply s)]
    exact sizedRun hx hat

theorem caseOk {x : LoadM Unit} {r : Format Unit} (hx : Reads z x r) :
    Reads z (do let s ← get; parseOk s.last x) (Format.sized r) where
  grows := by
    apply Keeps.bind TrailGrows.trans (Keeps.get TrailGrows.refl)
    intro s
    exact grows_parseOk hx.grows _
  run := by
    intro s hat
    rw [bind_of_ok (get_apply s)]
    exact sizedOk hx hat

theorem parse (env : Env) (depth : Nat) : Reads z (ymdParse env z depth) (Format.item env depth) := by
  induction depth with
  | zero =>
      exact ⟨Keeps.throw TrailGrows.refl _, fun _ _ => ⟨trivial, nofun⟩⟩
  | succ depth ih =>
      apply bind zisU32 (Format.accepting_varint _)
      intro tt
      generalize tt.toNat = tag
      match tag with
      | 0 => exact caseOf (machine _)
      | 1 =>
          have hint : Reads z (do let i ← Ymd.zisI64 z; onMem (onVm (ymdPush (.int i))))
              (do let i ← Format.varint sint64decode; Format.machine (onVm (ymdPush (.int i)))) :=
            bind zisI64 (Format.accepting_varint _) fun i => machine _
          have hcase := caseOf hint
          simp only [bind_assoc] at hcase
          exact hcase
      | 2 =>
          have hbool : Reads z
              (do
                let i ← Ymd.zisU64 z
                onMem (onVm (ymdPush (.bool ((i.setWidth 32).signExtend 64)))))
              (do
                let i ← Format.varint uint64decode
                Format.machine (onVm (ymdPush (.bool ((i.setWidth 32).signExtend 64))))) :=
            bind zisU64 (Format.accepting_varint _) fun i => machine _
          have hcase := caseOf hbool
          simp only [bind_assoc] at hcase
          exact hcase
      | 3 => exact caseOf fail
      | 4 => exact caseOk kstr
      | 5 => exact caseOk (func ih)
      | 6 => exact caseOk (dyay ih)
      | 7 => exact caseOk (hmap ih)
      | 8 => exact caseOk (skls ih)
      | tag + 9 => exact caseOf fail

end Reads

end Ymd
