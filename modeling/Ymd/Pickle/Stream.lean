import Ymd.Pickle.Trace

/-! # The streams of `zstream.h`

The output stream with its two buffers, the one inside the structure and the one
on the heap that takes its place, and the input stream that is piped behind it.
The buffers refine the stream a dump writes to.
-/

namespace Ymd

/-- `memcpy` to `dst + pos`. -/
def memcpy (array : String) (dst : Bytes) (pos : Nat) (z : Bytes) : Except Fault Bytes :=
  if pos + z.length ≤ dst.length then pure (dst.take pos ++ z ++ dst.drop (pos + z.length))
  else throw (.bounds array)

/-- `struct zostream` with both of its buffers. -/
structure Zos where
  kbuf : Bytes
  buf : Option Bytes
  last : Nat
  max : Nat

/-- A call of the functions that write. -/
inductive ZosCall
  | append (z : Bytes)
  | u32 (x : BitVec 32)
  | u64 (x : BitVec 64)
  | i64 (i : YmdInt)

namespace Zos

/-- `ZOS_INIT`. -/
def init : Zos := ⟨List.replicate maxStaticLen 0, none, 0, maxStaticLen⟩

/-- `zos_buf`. -/
def zosBuf (os : Zos) : Bytes := os.buf.getD os.kbuf

/-- The copy to `zos_last`. -/
def copy (os : Zos) (z : Bytes) : Except Fault Zos :=
  match os.buf with
  | none => do
      let kbuf ← memcpy "os->kbuf" os.kbuf os.last z
      pure { os with kbuf := kbuf }
  | some buf => do
      let buf ← memcpy "os->buf" buf os.last z
      pure { os with buf := some buf }

section

-- what `realloc` leaves at a new place of the buffer
variable (fresh : Nat → UInt8)

/-- `realloc` to a larger buffer. -/
def realloc (z : Bytes) (n : Nat) : Bytes :=
  z ++ (List.range' z.length (n - z.length)).map fresh

/-- `zos_reserved`. -/
def reserved (os : Zos) (k : Nat) : Except Fault Zos :=
  if os.last + k ≤ maxStaticLen then pure os
  else if os.last + k ≤ os.max then pure os
  else if 2 * os.max < 2 ^ 31 then
    match os.buf with
    | none => do
        let buf ← memcpy "os->buf" (List.replicate (2 * os.max) 0) 0 (os.kbuf.take os.last)
        pure { os with buf := some buf, max := 2 * os.max }
    | some buf => pure { os with buf := some (realloc fresh buf (2 * os.max)), max := 2 * os.max }
  else throw .overflow

/-- `zos_advance`. -/
def advance (os : Zos) (k : Nat) : Except Fault Zos := do
  let os ← os.reserved fresh k
  pure { os with last := os.last + k }

/-- Reserve `k` bytes, put some to `zos_last` and advance. -/
def put (k : Nat) (z : Bytes) (os : Zos) : Except Fault Zos := do
  let os ← os.reserved fresh k
  let os ← os.copy z
  os.advance fresh z.length

/-- `zos_append`. -/
def append (z : Bytes) : Zos → Except Fault Zos := put fresh z.length z

/-- `zos_u32`. -/
def u32 (x : BitVec 32) : Zos → Except Fault Zos := put fresh 5 (uint32encode x)

/-- `zos_u64`. -/
def u64 (x : BitVec 64) : Zos → Except Fault Zos := put fresh 10 (uint64encode x)

/-- `zos_i64`. -/
def i64 (i : YmdInt) : Zos → Except Fault Zos := put fresh 10 (sint64encode i)

end

end Zos

namespace ZosCall

def run (fresh : Nat → UInt8) : ZosCall → Zos → Except Fault Zos
  | append z => Zos.append fresh z
  | u32 x => Zos.u32 fresh x
  | u64 x => Zos.u64 fresh x
  | i64 i => Zos.i64 fresh i

/-- What the call writes, and the room it reserves. -/
def field : ZosCall → Field
  | append z => ⟨z.length, z⟩
  | u32 x => ⟨5, uint32encode x⟩
  | u64 x => ⟨10, uint64encode x⟩
  | i64 i => ⟨10, sint64encode i⟩

/-- The calls one after the other. -/
def runAll (fresh : Nat → UInt8) : List ZosCall → Zos → Except Fault Zos
  | [], os => pure os
  | call :: calls, os => do
      let os ← call.run fresh os
      runAll fresh calls os

/-- All bytes the calls are to write. -/
def written (calls : List ZosCall) : Bytes := calls.flatMap fun call => call.field.bytes

theorem run_eq_put (fresh : Nat → UInt8) (call : ZosCall) :
    call.run fresh = Zos.put fresh call.field.reserve call.field.bytes := by
  cases call <;> rfl

theorem length_le_reserve (call : ZosCall) : call.field.bytes.length ≤ call.field.reserve := by
  cases call with
  | append z => exact le_rfl
  | u32 x => exact length_uint32encode x
  | u64 x => exact length_uint64encode x
  | i64 i => exact length_uint64encode _

end ZosCall

/-! ## The buffers refine the stream of a dump -/

theorem memcpy_eq {array : String} {dst z : Bytes} {pos : Nat} (hroom : pos + z.length ≤ dst.length) :
    memcpy array dst pos z = .ok (dst.take pos ++ z ++ dst.drop (pos + z.length)) := if_pos hroom

theorem length_overwrite {dst z : Bytes} {pos : Nat} (hroom : pos + z.length ≤ dst.length) :
    (dst.take pos ++ z ++ dst.drop (pos + z.length)).length = dst.length := by
  simp only [List.length_append, List.length_take, List.length_drop]
  omega

theorem take_overwrite {dst z : Bytes} {pos : Nat} (hroom : pos + z.length ≤ dst.length) :
    (dst.take pos ++ z ++ dst.drop (pos + z.length)).take (pos + z.length) = dst.take pos ++ z := by
  apply List.take_left'
  simp only [List.length_append, List.length_take]
  omega

/-- The stream shows the bytes `abs.buf` in a buffer of `abs.max` bytes. -/
structure Shows (os : Zos) (abs : Zostream) : Prop where
  last_eq : os.last = abs.last
  max_eq : os.max = abs.max
  content : os.zosBuf.take os.last = abs.buf
  inside : os.zosBuf.length = os.max
  static : os.buf = none → os.max = maxStaticLen

namespace Shows

variable {os : Zos} {abs : Zostream}

theorem init : Shows .init .init where
  last_eq := rfl
  max_eq := rfl
  content := rfl
  inside := List.length_replicate
  static := fun _ => rfl

/-- Room that is there already. -/
theorem reserved_eq (h : Shows os abs) (fresh : Nat → UInt8) {k : Nat} (hroom : os.last + k ≤ os.max) :
    os.reserved fresh k = .ok os ∧ abs.reserved k = .ok abs := by
  have hroom' : abs.last + k ≤ abs.max := by
    rw [← h.last_eq, ← h.max_eq]
    exact hroom
  unfold Zos.reserved Zostream.reserved
  simp only [if_pos hroom, if_pos hroom', ite_self]
  exact ⟨rfl, rfl⟩

/-- A buffer that doubles keeps what is in it. -/
theorem reserved_grown (h : Shows os abs) (fresh : Nat → UInt8) (hwf : abs.Wf) {k : Nat}
    (hfull : os.max < os.last + k) (hgrow : 2 * os.max < 2 ^ 31) : ∃ os', os.reserved fresh k = .ok os' ∧
      abs.reserved k = .ok { abs with max := 2 * abs.max } ∧
      Shows os' { abs with max := 2 * abs.max } := by
  have hge := hwf.max_ge
  have hle := hwf.last_le
  have hlast := h.last_eq
  have hmax := h.max_eq
  have habs : abs.reserved k = .ok { abs with max := 2 * abs.max } := by
    unfold Zostream.reserved
    rw [if_neg (by omega), if_neg (by omega), if_pos (by omega)]
    rfl
  have hcontent := h.content
  have hinside := h.inside
  unfold Zos.reserved
  rw [if_neg (by omega), if_neg (by omega), if_pos hgrow]
  cases hbuf : os.buf with
  | none =>
      simp only [Zos.zosBuf, hbuf, Option.getD_none] at hcontent hinside
      have hlen : (os.kbuf.take os.last).length = os.last := by
        rw [List.length_take]
        omega
      have hroom : 0 + (os.kbuf.take os.last).length ≤
          (List.replicate (2 * os.max) (0 : UInt8)).length := by
        rw [List.length_replicate]
        omega
      simp only [memcpy_eq hroom]
      refine ⟨_, rfl, habs, hlast, by rw [hmax], ?_, ?_, nofun⟩
      · have htake := take_overwrite hroom
        rw [hlen, Nat.zero_add] at htake
        simp only [Zos.zosBuf, Option.getD_some, hlen, Nat.zero_add]
        rw [htake, List.take_zero, List.nil_append, hcontent]
      · exact (length_overwrite hroom).trans List.length_replicate
  | some buf =>
      simp only [Zos.zosBuf, hbuf, Option.getD_some] at hcontent hinside
      refine ⟨_, rfl, habs, hlast, by rw [hmax], ?_, ?_, nofun⟩
      · simp only [Zos.zosBuf, Option.getD_some, Zos.realloc]
        rw [List.take_append_of_le_length (by omega), hcontent]
      · simp only [Zos.zosBuf, Option.getD_some, Zos.realloc, List.length_append, List.length_map,
          List.length_range']
        omega

/-- The copy behind the last byte. -/
theorem copy (h : Shows os abs) {z : Bytes} (hroom : os.last + z.length ≤ os.max) :
    ∃ os', os.copy z = .ok os' ∧ os'.last = os.last ∧ os'.max = os.max ∧
      os'.zosBuf.take (os.last + z.length) = abs.buf ++ z ∧ os'.zosBuf.length = os.max ∧
      (os'.buf = none → os.buf = none) := by
  have hcontent := h.content
  have hinside := h.inside
  unfold Zos.copy
  cases hbuf : os.buf with
  | none =>
      simp only [Zos.zosBuf, hbuf, Option.getD_none] at hcontent hinside
      have hfits : os.last + z.length ≤ os.kbuf.length := by omega
      simp only [memcpy_eq hfits]
      refine ⟨_, rfl, rfl, rfl, ?_, ?_, fun _ => trivial⟩
      · simp only [Zos.zosBuf, Option.getD_none]
        rw [take_overwrite hfits, hcontent]
      · simp only [Zos.zosBuf, Option.getD_none]
        rw [length_overwrite hfits, hinside]
  | some buf =>
      simp only [Zos.zosBuf, hbuf, Option.getD_some] at hcontent hinside
      have hfits : os.last + z.length ≤ buf.length := by omega
      simp only [memcpy_eq hfits]
      refine ⟨_, rfl, rfl, rfl, ?_, ?_, nofun⟩
      · simp only [Zos.zosBuf, Option.getD_some]
        rw [take_overwrite hfits, hcontent]
      · simp only [Zos.zosBuf, Option.getD_some]
        rw [length_overwrite hfits, hinside]

theorem copy_error (h : Shows os abs) {z : Bytes} (hfull : os.max < os.last + z.length) :
    ∃ f, os.copy z = .error f := by
  have hinside := h.inside
  unfold Zos.copy
  cases hbuf : os.buf with
  | none =>
      simp only [Zos.zosBuf, hbuf, Option.getD_none] at hinside
      simp only [memcpy, if_neg (show ¬ os.last + z.length ≤ os.kbuf.length by omega)]
      exact ⟨_, rfl⟩
  | some buf =>
      simp only [Zos.zosBuf, hbuf, Option.getD_some] at hinside
      simp only [memcpy, if_neg (show ¬ os.last + z.length ≤ buf.length by omega)]
      exact ⟨_, rfl⟩

/-- The buffers take a copy and the advance behind it when the stream of a dump
is filled. -/
theorem fill (h : Shows os abs) (fresh : Nat → UInt8) (z : Bytes) :
    (∃ os', (do let os ← os.copy z; os.advance fresh z.length) = Except.ok os' ∧
        os.last + z.length ≤ os.max ∧
        abs.fill z = .ok { abs with buf := abs.buf ++ z } ∧
        Shows os' { abs with buf := abs.buf ++ z }) ∨
      (os.max < os.last + z.length ∧
        (∃ f, (do let os ← os.copy z; os.advance fresh z.length) = Except.error f) ∧
        ∃ f, abs.fill z = .error f) := by
  have hlast := h.last_eq
  have hmax := h.max_eq
  by_cases hroom : os.last + z.length ≤ os.max
  · left
    obtain ⟨os', hcopy, hlast', hmax', htake, hlen, hnone⟩ := h.copy hroom
    have hreserved : os'.reserved fresh z.length = .ok os' := by
      unfold Zos.reserved
      rw [if_pos (show os'.last + z.length ≤ os'.max by omega), ite_self]
      rfl
    refine ⟨{ os' with last := os'.last + z.length }, ?_, hroom,
      Zostream.fill_eq (by omega), ?_, hmax'.trans hmax, ?_, hlen.trans hmax'.symm, ?_⟩
    · simp only [hcopy, Zos.advance]
      change (do let os ← os'.reserved fresh z.length; pure { os with last := os.last + z.length }) = _
      rw [hreserved]
      rfl
    · rw [Zostream.last_fill, hlast', hlast]
    · rw [hlast']
      exact htake
    · exact fun hbuf => hmax'.trans (h.static (hnone hbuf))
  · right
    obtain ⟨f, hcopy⟩ := h.copy_error (Nat.not_le.1 hroom)
    refine ⟨Nat.not_le.1 hroom, ⟨f, ?_⟩, .bounds "os->buf", if_neg (by omega)⟩
    rw [hcopy]
    rfl

/-- Reserving, copying and advancing is a write to the stream of a dump. -/
theorem put (h : Shows os abs) (fresh : Nat → UInt8) (hwf : abs.Wf) {k : Nat} {z : Bytes}
    (hz : z.length ≤ k) :
    (os.last + k ≤ os.max ∨ os.last + z.length ≤ 2 * os.max ∧ 2 * os.max < 2 ^ 31) ∧
        (∃ os' abs', os.put fresh k z = .ok os' ∧ abs.write k z = .ok abs' ∧ Shows os' abs' ∧
          abs'.Wf ∧ abs'.buf = abs.buf ++ z) ∨
      ¬ (os.last + k ≤ os.max ∨ os.last + z.length ≤ 2 * os.max ∧ 2 * os.max < 2 ^ 31) ∧
        (∃ f, os.put fresh k z = .error f) ∧ ∃ f, abs.write k z = .error f := by
  have hle := hwf.last_le
  have hlast := h.last_eq
  have hmax := h.max_eq
  unfold Zos.put Zostream.write
  by_cases hroom : os.last + k ≤ os.max
  · left
    obtain ⟨hos, habs⟩ := h.reserved_eq fresh hroom
    refine ⟨.inl hroom, ?_⟩
    obtain ⟨os', hput, hfits, hfill, hshows⟩ | ⟨hfull, _⟩ := h.fill fresh z
    · refine ⟨os', _, ?_, ?_, hshows, hwf.fill (by omega), rfl⟩
      · rw [hos]
        exact hput
      · rw [habs]
        exact hfill
    · omega
  by_cases hgrow : 2 * os.max < 2 ^ 31
  · obtain ⟨grown, hos, habs, hgrown⟩ :=
      h.reserved_grown fresh hwf (Nat.not_le.1 hroom) hgrow
    have hlast' : grown.last = os.last := hgrown.last_eq.trans hlast.symm
    have hmax' : grown.max = 2 * os.max := hgrown.max_eq.trans (by rw [hmax])
    rw [hos, habs]
    obtain ⟨os', hput, hfits, hfill, hshows⟩ | ⟨hfull, hput, hfill⟩ := hgrown.fill fresh z
    · left
      refine ⟨.inr ⟨by omega, hgrow⟩, os', _, hput, hfill, hshows, ?_, rfl⟩
      have hwf' := hwf.grown (by omega)
      exact hwf'.fill (show abs.last + z.length ≤ 2 * abs.max by omega)
    · right
      exact ⟨by omega, hput, hfill⟩
  · right
    have hos : os.reserved fresh k = .error .overflow := by
      have hge := hwf.max_ge
      unfold Zos.reserved
      rw [if_neg (by omega), if_neg hroom, if_neg hgrow]
      rfl
    have habs : abs.reserved k = .error .overflow := by
      have hge := hwf.max_ge
      unfold Zostream.reserved
      rw [if_neg (by omega), if_neg (by omega), if_neg (by omega)]
      rfl
    rw [hos, habs]
    exact ⟨by omega, ⟨_, rfl⟩, _, rfl⟩

end Shows

/-! ## What the calls leave -/

/-- The call finds its room, or one doubling of the buffer makes it. -/
def ZosCall.HasRoom (os : Zos) (call : ZosCall) : Prop :=
  os.last + call.field.reserve ≤ os.max ∨
    os.last + call.field.bytes.length ≤ 2 * os.max ∧ 2 * os.max < 2 ^ 31

/-- The stream holds what the calls have written, inside the buffer in use. -/
structure Zos.Concatenates (os : Zos) (calls : List ZosCall) : Prop where
  last_le : os.last ≤ os.max
  inside : os.zosBuf.length = os.max
  last_eq : os.last = (ZosCall.written calls).length
  content : os.zosBuf.take os.last = ZosCall.written calls

namespace ZosCall

variable {fresh : Nat → UInt8} {os os' : Zos} {abs : Zostream}

theorem runAll_concat (pre : List ZosCall) (call : ZosCall) :
    runAll fresh (pre ++ [call]) os = (do
      let os ← runAll fresh pre os
      call.run fresh os) := by
  induction pre generalizing os with
  | nil =>
      simp only [List.nil_append, runAll, bind_pure, pure_bind]
  | cons c pre ih =>
      simp only [List.cons_append, runAll, bind_assoc]
      exact congrArg _ (funext fun os => ih)

theorem written_concat (pre : List ZosCall) (call : ZosCall) :
    written (pre ++ [call]) = written pre ++ call.field.bytes := by
  simp [written]

theorem written_cons (call : ZosCall) (calls : List ZosCall) :
    written (call :: calls) = call.field.bytes ++ written calls := by
  simp [written]

/-- A call writes exactly when it has room. -/
theorem run_spec (fresh : Nat → UInt8) (h : Shows os abs) (hwf : abs.Wf) (call : ZosCall) :
    call.HasRoom os ∧ (∃ os' abs', call.run fresh os = .ok os' ∧
        abs.write call.field.reserve call.field.bytes = .ok abs' ∧ Shows os' abs' ∧ abs'.Wf ∧
        abs'.buf = abs.buf ++ call.field.bytes) ∨
      ¬ call.HasRoom os ∧ (∃ f, call.run fresh os = .error f) ∧
        ∃ f, abs.write call.field.reserve call.field.bytes = .error f := by
  rw [run_eq_put]
  exact h.put fresh hwf call.length_le_reserve

/-- What the calls show when they are done. -/
theorem runAll_shows (calls : List ZosCall) (hrun : runAll fresh calls .init = .ok os) :
    ∃ abs, Zostream.init.writeAll (calls.map field) = .ok abs ∧ Shows os abs ∧ abs.Wf ∧
      abs.buf = written calls := by
  induction calls using List.reverseRecOn generalizing os with
  | nil =>
      obtain rfl := Except.ok.inj hrun
      exact ⟨.init, rfl, .init, .init, rfl⟩
  | append_singleton pre call ih =>
      rw [runAll_concat] at hrun
      obtain ⟨mid, hpre, hcall⟩ := Foundation.except_bind_ok_iff.1 hrun
      obtain ⟨abs, hwrite, hshows, hwf, hbuf⟩ := ih hpre
      obtain ⟨_, os', abs', hrun', hwrite', hshows', hwf', hbuf'⟩ | ⟨_, ⟨f, hf⟩, _⟩ :=
        run_spec fresh hshows hwf call
      · obtain rfl := Except.ok.inj (hcall.symm.trans hrun')
        refine ⟨abs', ?_, hshows', hwf', by rw [hbuf', hbuf, written_concat]⟩
        rw [List.map_append, Zostream.writeAll_append, hwrite]
        change abs.writeAll [call.field] = _
        simp only [Zostream.writeAll, bind_pure, hwrite']
      · cases hcall.symm.trans hf

theorem concatenates (fresh : Nat → UInt8) (calls : List ZosCall)
    (hrun : runAll fresh calls .init = .ok os) :
    os.Concatenates calls := by
  obtain ⟨abs, _, hshows, hwf, hbuf⟩ := runAll_shows calls hrun
  have hlast := hshows.last_eq
  have hmax := hshows.max_eq
  refine ⟨?_, hshows.inside, ?_, ?_⟩
  · rw [hlast, hmax]
    exact hwf.last_le
  · rw [hlast, Zostream.last, hbuf]
  · rw [hshows.content, hbuf]

/-- One more call. -/
theorem runAll_concat_iff {pre : List ZosCall} (hpre : runAll fresh pre .init = .ok os)
    (call : ZosCall) : (∃ os', runAll fresh (pre ++ [call]) .init = .ok os') ↔ call.HasRoom os := by
  obtain ⟨abs, _, hshows, hwf, _⟩ := runAll_shows pre hpre
  have hstep : runAll fresh (pre ++ [call]) .init = call.run fresh os := by
    rw [runAll_concat, hpre]
    rfl
  rw [hstep]
  obtain ⟨hfits, os', _, hrun, _⟩ | ⟨hno, ⟨f, hf⟩, _⟩ := run_spec fresh hshows hwf call
  · exact iff_of_true ⟨os', hrun⟩ hfits
  · exact iff_of_false (fun ⟨os', hos'⟩ => absurd (hf.symm.trans hos') nofun) hno

end ZosCall

/-- Every call leaves the concatenation of the writes inside the buffer exactly
when every call finds room, or finds it when the buffer has doubled once. -/
theorem stream_concatenates_iff (fresh : Nat → UInt8) (calls : List ZosCall) :
    (∀ pre, pre <+: calls → ∃ os, ZosCall.runAll fresh pre .init = .ok os ∧ os.Concatenates pre) ↔
      ∀ pre call, pre ++ [call] <+: calls →
        ∀ os, ZosCall.runAll fresh pre .init = .ok os → call.HasRoom os := by
  constructor
  · intro hall pre call hprefix os hpre
    obtain ⟨os', hrun, _⟩ := hall _ hprefix
    exact (ZosCall.runAll_concat_iff hpre call).1 ⟨os', hrun⟩
  · intro hfits pre
    induction pre using List.reverseRecOn with
    | nil => exact fun _ => ⟨.init, rfl, ZosCall.concatenates fresh [] rfl⟩
    | append_singleton pre call ih =>
        intro hprefix
        obtain ⟨os, hpre, _⟩ := ih ((List.prefix_append pre [call]).trans hprefix)
        obtain ⟨os', hrun⟩ :=
          (ZosCall.runAll_concat_iff hpre call).2 (hfits pre call hprefix os hpre)
        exact ⟨os', hrun, ZosCall.concatenates fresh _ hrun⟩

/-- One call with more bytes than the doubled buffer has. -/
theorem stream_concatenates_counterexample :
    ¬ ∀ calls : List ZosCall, (ZosCall.written calls).length < 2 ^ 30 →
      ∀ pre, pre <+: calls →
        ∃ os, ZosCall.runAll (fun _ => 0) pre .init = .ok os ∧ os.Concatenates pre := by
  intro hall
  have hlen : (ZosCall.append (List.replicate 10000 0)).field.bytes.length = 10000 :=
    List.length_replicate
  have hsmall : (ZosCall.written [.append (List.replicate 10000 0)]).length < 2 ^ 30 := by
    have hwritten := ZosCall.written_concat [] (.append (List.replicate 10000 0))
    rw [List.nil_append] at hwritten
    rw [hwritten, List.length_append, hlen]
    decide
  obtain ⟨os, hrun, _⟩ := hall _ hsmall _ (List.prefix_refl _)
  have hempty : ZosCall.runAll (fun _ => 0) [] .init = .ok .init := rfl
  have hfits := (ZosCall.runAll_concat_iff hempty _).1 ⟨os, hrun⟩
  simp only [ZosCall.HasRoom, hlen] at hfits
  simp only [ZosCall.field, List.length_replicate, Zos.init, maxStaticLen] at hfits
  omega

/-! ## Reading typed fields back -/

/-- A value of one of the three types that have a pair of functions. -/
inductive Typed
  | u32 (x : BitVec 32)
  | u64 (x : BitVec 64)
  | i64 (i : YmdInt)
  deriving DecidableEq

inductive Typed.Kind
  | u32
  | u64
  | i64

/-- The function that reads such a value. -/
def Typed.kind : Typed → Kind
  | u32 _ => .u32
  | u64 _ => .u64
  | i64 _ => .i64

/-- The function that writes it. -/
def Typed.call : Typed → ZosCall
  | u32 x => .u32 x
  | u64 x => .u64 x
  | i64 i => .i64 i

/-- `struct zistream`. -/
structure Zis where
  buf : Bytes
  last : Nat
  max : Nat

namespace Zis

/-- `zis_pipe` into a stream. -/
def pipe (os : Zos) : Zis := ⟨os.zosBuf, 0, os.last⟩

/-- `zis_remain`. -/
def remain (is : Zis) : Int := is.max - is.last

/-- `zis_advance`. -/
def advance (is : Zis) (k : Nat) : Except Fault Zis :=
  if is.remain < k then throw (.assertion "zis_remain(is) >= k")
  else pure { is with last := is.last + k }

/-- Decode at `zis_last` and advance. The decoders do not know `max`. -/
def varint {α : Type} (decode : Bytes → Option (α × Bytes)) (is : Zis) : Except Fault (α × Zis) :=
  match decode (is.buf.drop is.last) with
  | none => throw (.bounds "is->buf")
  | some (x, rest) => do
      let is ← is.advance ((is.buf.drop is.last).length - rest.length)
      pure (x, is)

/-- `zis_u32`. -/
def u32 : Zis → Except Fault (BitVec 32 × Zis) := varint uint32decode

/-- `zis_u64`. -/
def u64 : Zis → Except Fault (BitVec 64 × Zis) := varint uint64decode

/-- `zis_i64`. -/
def i64 : Zis → Except Fault (YmdInt × Zis) := varint sint64decode

def read (is : Zis) : Typed.Kind → Except Fault (Typed × Zis)
  | .u32 => do
      let (x, is) ← is.u32
      pure (.u32 x, is)
  | .u64 => do
      let (x, is) ← is.u64
      pure (.u64 x, is)
  | .i64 => do
      let (i, is) ← is.i64
      pure (.i64 i, is)

/-- The reads one after the other. -/
def readAll : List Typed.Kind → Zis → Except Fault (List Typed × Zis)
  | [], is => pure ([], is)
  | kind :: kinds, is => do
      let (t, is) ← is.read kind
      let (ts, is) ← readAll kinds is
      pure (t :: ts, is)

variable {buf rest z : Bytes} {last max : Nat}

/-- A decoder that stops where the encoding ends moves the cursor there. -/
theorem varint_eq {α : Type} {decode : Bytes → Option (α × Bytes)} {x : α}
    (hbuf : buf.drop last = z ++ rest) (hdecode : decode (z ++ rest) = some (x, rest))
    (hroom : last + z.length ≤ max) :
    varint decode ⟨buf, last, max⟩ = .ok (x, ⟨buf, last + z.length, max⟩) := by
  have hlen : (z ++ rest).length - rest.length = z.length := by
    rw [List.length_append, Nat.add_sub_cancel]
  have hremain : ¬ remain ⟨buf, last, max⟩ < (z.length : Nat) := by
    simp only [remain]
    omega
  simp only [varint, hbuf, hdecode, hlen, advance, if_neg hremain]
  rfl

theorem read_eq {t : Typed} (ht : ∀ i, t = .i64 i → i ≠ BitVec.intMin 64)
    (hbuf : buf.drop last = t.call.field.bytes ++ rest)
    (hroom : last + t.call.field.bytes.length ≤ max) :
    read ⟨buf, last, max⟩ t.kind = .ok (t, ⟨buf, last + t.call.field.bytes.length, max⟩) := by
  cases t with
  | u32 x =>
      have hread := varint_eq hbuf (uint32decode_encode x rest) hroom
      simp only [Typed.kind, read, u32, hread]
      rfl
  | u64 x =>
      have hread := varint_eq hbuf (uint64decode_encode x rest) hroom
      simp only [Typed.kind, read, u64, hread]
      rfl
  | i64 i =>
      have hread := varint_eq hbuf (sint64decode_encode (ht i rfl) rest) hroom
      simp only [Typed.kind, read, i64, hread]
      rfl

/-- Reads in the order of the writes; what follows in the buffer is not looked
at. -/
theorem readAll_eq (ts : List Typed) (hmin : ∀ i, .i64 i ∈ ts → i ≠ BitVec.intMin 64)
    (hbuf : buf.drop last = ZosCall.written (ts.map Typed.call) ++ rest)
    (hroom : last + (ZosCall.written (ts.map Typed.call)).length ≤ max) :
    readAll (ts.map Typed.kind) ⟨buf, last, max⟩ =
      .ok (ts, ⟨buf, last + (ZosCall.written (ts.map Typed.call)).length, max⟩) := by
  induction ts generalizing last with
  | nil => rfl
  | cons t ts ih =>
      simp only [List.map_cons, ZosCall.written_cons, List.append_assoc,
        List.length_append] at hbuf hroom
      have hread : read ⟨buf, last, max⟩ t.kind =
          .ok (t, ⟨buf, last + t.call.field.bytes.length, max⟩) :=
        read_eq (fun i hi => hmin i (hi ▸ List.mem_cons_self)) hbuf (by omega)
      have hrest : buf.drop (last + t.call.field.bytes.length) =
          ZosCall.written (ts.map Typed.call) ++ rest := by
        rw [← List.drop_drop, hbuf, List.drop_left]
      have htail := ih (fun i hi => hmin i (List.mem_cons_of_mem _ hi)) hrest (by omega)
      rw [List.map_cons, readAll, hread]
      change (do let (ts, is) ← readAll (ts.map Typed.kind) _; pure (t :: ts, is)) = _
      rw [htail, List.map_cons, ZosCall.written_cons, List.length_append, ← Nat.add_assoc]
      rfl

end Zis

namespace ZosCall

variable {fresh : Nat → UInt8} {os : Zos} {abs : Zostream}

theorem small_typed (t : Typed) : t.call.field.Small := by
  refine ⟨length_le_reserve _, ?_⟩
  cases t with
  | u32 x => exact show 5 ≤ maxStaticLen by decide
  | u64 x => exact show 10 ≤ maxStaticLen by decide
  | i64 i => exact show 10 ≤ maxStaticLen by decide

/-- Writes that the stream of a dump takes are taken by the buffers. -/
theorem runAll_of_writeAll (fresh : Nat → UInt8) (calls : List ZosCall) (h : Shows os abs) (hwf : abs.Wf)
    {abs' : Zostream} (hwrite : abs.writeAll (calls.map field) = .ok abs') :
    ∃ os', runAll fresh calls os = .ok os' ∧ Shows os' abs' := by
  induction calls generalizing os abs with
  | nil =>
      obtain rfl := Except.ok.inj hwrite
      exact ⟨os, rfl, h⟩
  | cons call calls ih =>
      obtain ⟨mid, hcall, hrest⟩ := Foundation.except_bind_ok_iff.1 hwrite
      obtain ⟨_, os', abs'', hrun, hwrite', hshows, hwf', _⟩ | ⟨_, _, f, hf⟩ :=
        run_spec fresh h hwf call
      · obtain rfl := Except.ok.inj (hcall.symm.trans hwrite')
        obtain ⟨last, hlast, hshows'⟩ := ih hshows hwf' hrest
        refine ⟨last, ?_, hshows'⟩
        rw [runAll, hrun]
        exact hlast
      · exact absurd (hcall.symm.trans hf) nofun

/-- Typed writes succeed exactly when no reserve would end above `2 ^ 30`. -/
theorem runAll_typed (fresh : Nat → UInt8) (ts : List Typed) :
    (∃ os, runAll fresh (ts.map Typed.call) .init = .ok os) ↔
      Fits 0 (ts.map fun t => t.call.field) := by
  have hmap : (ts.map Typed.call).map field = ts.map fun t => t.call.field := by
    rw [List.map_map]
    rfl
  have hsmall : ∀ f ∈ ts.map fun t => t.call.field, f.Small := by
    intro f hf
    obtain ⟨t, _, rfl⟩ := List.mem_map.1 hf
    exact small_typed t
  obtain ⟨hfits, abs, hwrite, _⟩ | ⟨hno, hwrite⟩ := Zostream.Wf.init.writeAll hsmall
  · obtain ⟨os, hrun, _⟩ := runAll_of_writeAll fresh _ .init .init (hmap ▸ hwrite)
    exact iff_of_true ⟨os, hrun⟩ hfits
  · refine iff_of_false ?_ hno
    intro ⟨os, hrun⟩
    obtain ⟨abs, habs, _⟩ := runAll_shows _ hrun
    rw [hmap, hwrite] at habs
    exact absurd habs nofun

end ZosCall

/-- Typed values come back through a pipe in the order they were written. -/
theorem typed_read_back (fresh : Nat → UInt8) (ts : List Typed)
    (hmin : ∀ i, .i64 i ∈ ts → i ≠ BitVec.intMin 64)
    (hfits : Fits 0 (ts.map fun t => t.call.field)) :
    ∃ os is, ZosCall.runAll fresh (ts.map Typed.call) .init = .ok os ∧
      Zis.readAll (ts.map Typed.kind) (.pipe os) = .ok (ts, is) ∧ is.remain = 0 := by
  obtain ⟨os, hrun⟩ := (ZosCall.runAll_typed fresh ts).2 hfits
  obtain ⟨_, _, hlast, hcontent⟩ := ZosCall.concatenates fresh _ hrun
  have hbuf : os.zosBuf.drop 0 =
      ZosCall.written (ts.map Typed.call) ++ os.zosBuf.drop os.last := by
    rw [List.drop_zero, ← hcontent, List.take_append_drop]
  have hread := Zis.readAll_eq ts hmin hbuf (show 0 + _ ≤ os.last by rw [Nat.zero_add, hlast])
  rw [Nat.zero_add, ← hlast] at hread
  refine ⟨os, _, hrun, hread, ?_⟩
  exact Int.sub_self _

theorem typed_read_back_three :
    ∃ os is, ZosCall.runAll (fun _ => 0) ([.u32 0x10204080, .u64 0x80, .i64 (-1)].map Typed.call)
        .init = .ok os ∧
      Zis.readAll ([.u32 0x10204080, .u64 0x80, .i64 (-1)].map Typed.kind) (.pipe os) =
        .ok ([.u32 0x10204080, .u64 0x80, .i64 (-1)], is) ∧ is.remain = 0 :=
  typed_read_back (fun _ => 0) [.u32 0x10204080, .u64 0x80, .i64 (-1)]
    (fun i hi hmin => by
      subst hmin
      revert hi
      decide) (by decide)

/-- The room for the longest encoding is reserved although the short one fits:
the size of the buffer does not fit into an `int` any more. -/
theorem typed_read_back_counterexample :
    ¬ ∀ ts : List Typed, (∀ i, .i64 i ∈ ts → i ≠ BitVec.intMin 64) →
      (ZosCall.written (ts.map Typed.call)).length < 2 ^ 30 →
        ∃ os is, ZosCall.runAll (fun _ => 0) (ts.map Typed.call) .init = .ok os ∧
          Zis.readAll (ts.map Typed.kind) (.pipe os) = .ok (ts, is) ∧ is.remain = 0 := by
  intro hall
  have hwritten : ∀ n, (ZosCall.written ((List.replicate n (Typed.u64 0)).map Typed.call)).length =
      n := by
    intro n
    induction n with
    | zero => rfl
    | succ n ih =>
        rw [List.replicate_succ, List.map_cons, ZosCall.written_cons, List.length_append, ih]
        exact Nat.add_comm 1 n
  have hfits : ∀ n m, Fits m ((List.replicate (n + 1) (Typed.u64 0)).map fun t => t.call.field) →
      m + n + 10 ≤ 2 ^ 30 := by
    intro n
    induction n with
    | zero => exact fun m h => h.1
    | succ n ih =>
        intro m h
        have hrest := ih _ h.2
        change m + 1 + n + 10 ≤ 2 ^ 30 at hrest
        omega
  obtain ⟨os, is, hrun, _⟩ := hall (List.replicate (2 ^ 30 - 9 + 1) (Typed.u64 0)) (by
    intro i hi
    exact absurd (List.eq_of_mem_replicate hi) nofun) (by
    rw [hwritten]
    decide)
  have hroom := hfits _ 0 ((ZosCall.runAll_typed _ _).1 ⟨os, hrun⟩)
  omega

end Ymd
