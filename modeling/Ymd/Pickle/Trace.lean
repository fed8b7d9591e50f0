import Ymd.Pickle.Dump
import Mathlib.Tactic.Ring

/-! # What a dump writes

The dump functions without a stream: the fields a value is written as, in order,
up to the end of the value, to an object that can not be written, or to a fault.
A dump writes these fields as long as the stream takes them.
-/

namespace Ymd

open Foundation

/-- A field, and the room that is reserved for it. -/
structure Field where
  reserve : Nat
  bytes : Bytes
  deriving DecidableEq

/-- How a traversal ends. -/
inductive Verdict
  | finished
  | refused
  | stuck (f : Fault)
  deriving DecidableEq

structure Trace where
  fields : List Field
  verdict : Verdict
  deriving DecidableEq

namespace Trace

def done : Trace := ⟨[], .finished⟩

def refuse : Trace := ⟨[], .refused⟩

def fault (f : Fault) : Trace := ⟨[], .stuck f⟩

/-- One trace behind another. -/
def andThen (t u : Trace) : Trace :=
  match t.verdict with
  | .finished => ⟨t.fields ++ u.fields, u.verdict⟩
  | .refused => t
  | .stuck _ => t

instance : Append Trace := ⟨andThen⟩

theorem append_assoc (t u v : Trace) : t ++ u ++ v = t ++ (u ++ v) := by
  obtain ⟨fields, verdict⟩ := t
  cases verdict with
  | finished =>
      obtain ⟨fields', verdict'⟩ := u
      cases verdict' with
      | finished =>
          change Trace.mk (fields ++ fields' ++ v.fields) _ = ⟨fields ++ (fields' ++ v.fields), _⟩
          rw [List.append_assoc]
          rfl
      | refused => rfl
      | stuck f => rfl
  | refused => rfl
  | stuck f => rfl

theorem append_done (t : Trace) : t ++ done = t := by
  obtain ⟨fields, verdict⟩ := t
  cases verdict with
  | finished =>
      change Trace.mk (fields ++ []) _ = _
      rw [List.append_nil]
      rfl
  | refused => rfl
  | stuck f => rfl

theorem append_finished {t u : Trace} : (t ++ u).verdict = .finished ↔
    t.verdict = .finished ∧ u.verdict = .finished := by
  obtain ⟨fields, verdict⟩ := t
  cases verdict with
  | finished => exact ⟨fun h => ⟨rfl, h⟩, fun h => h.2⟩
  | refused => exact iff_of_false nofun fun h => nomatch h.1
  | stuck f => exact iff_of_false nofun fun h => nomatch h.1

/-- A value that may be a fault. -/
def check {α : Type} (x : Except Fault α) (rest : α → Trace) : Trace :=
  match x with
  | .ok a => rest a
  | .error f => fault f

def field (reserve : Nat) (bytes : Bytes) : Trace := ⟨[⟨reserve, bytes⟩], .finished⟩

def u32 (x : BitVec 32) : Trace := field 5 (uint32encode x)

def count (n : Nat) : Trace := u32 (BitVec.ofNat 32 n)

def kstr (z : Bytes) : Trace := count 4 ++ (count z.length ++ field z.length z)

/-- The traces of a list of values. -/
def all (walk : Variable → Trace) : List Variable → Trace
  | [] => done
  | v :: rest => walk v ++ all walk rest

/-- Tag, number of entries, and what a container has. -/
def container (walk : Variable → Trace) (tt : Nat) (found : Except Fault (Nat × List Variable)) :
    Trace :=
  count tt ++ check found fun (n, elems) => count n ++ all walk elems

def lines : List (BitVec 32) → Trace
  | [] => done
  | line :: rest => u32 line ++ lines rest

def names : List Bytes → Trace
  | [] => done
  | z :: rest => kstr z ++ names rest

/-- The sections of a chunk. -/
def chunk (walk : Variable → Trace) (core : Chunk) (debug : Debug) : Trace :=
  count core.kinst ++
    if 2 ^ 31 ≤ 4 * core.kinst then fault .overflow
    else field (core.inst.flatMap Inst.bytes).length (core.inst.flatMap Inst.bytes) ++
      if debug.line.length < core.kinst then fault (.bounds "bk->line")
      else lines (debug.line.take core.kinst) ++ (count core.kkval ++ (all walk core.kval ++
        (count core.klz ++ (names core.lz ++ (kstr debug.file ++ count core.kargs)))))

/-- A function; there is nothing of a native one. -/
def func (walk : Variable → Trace) (fn : Func) (debug : Debug) : Trace :=
  match fn.core with
  | none => done
  | some core => count 5 ++ (kstr fn.proto ++ (count fn.nBind ++
      if fn.bind.length < fn.nBind then fault (.bounds "fn->bind")
      else all walk (fn.bind.take fn.nBind) ++ chunk walk core debug))

end Trace

/-- The trace of a value, where `marked` objects carry the mark. -/
def walk (heap : Heap) (debug : Addr → Debug) : (depth : Nat) → (marked : Addr → Bool) →
    Variable → Trace
  | 0, _, _ => .fault .nesting
  | depth + 1, marked, v =>
      let inside (o : Addr) (tt : Nat) (found : Except Fault (Nat × List Variable)) : Trace :=
        if marked o then .refuse
        else .container (walk heap debug depth (Function.update marked o true)) tt found
      match v with
      | .nil => .count 0
      | .int i => .count 1 ++ .field 10 (sint64encode i)
      | .bool i => .count 2 ++ .field 10 (uint64encode i)
      | .kstr z => .kstr z
      | .func o => .check (heap.func o) fun fn => .func (walk heap debug depth marked) fn (debug o)
      | .dyay o => .check (heap.dyay o) fun elem => inside o 6 (pure (elem.length, elem))
      | .hmap o => .check (heap.hmap o) fun map =>
          inside o 7 (pure (map.slots.length, flatPairs map.slots))
      | .skls o => .check (heap.skls o) fun list => inside o 8 do
          let pairs ← list.traverse
          pure (pairs.length, flatPairs pairs)
      | .ext _ | .mand _ => .refuse

/-! ## The stream -/

/-- Write the fields one after the other. -/
def Zostream.writeAll (os : Zostream) : List Field → Except Fault Zostream
  | [] => pure os
  | f :: rest => do
      let os ← os.write f.reserve f.bytes
      os.writeAll rest

theorem Zostream.writeAll_append (os : Zostream) (fields fields' : List Field) :
    os.writeAll (fields ++ fields') = (do
      let os ← os.writeAll fields
      os.writeAll fields') := by
  induction fields generalizing os with
  | nil => rfl
  | cons f fields ih =>
      simp only [List.cons_append, writeAll, bind_assoc]
      exact congrArg _ (funext fun os => ih os)

/-- What a dump comes to on a stream that takes the fields, or does not. -/
def Dumped {α : Type} (m' : Addr → Bool) (result : EStateM.Result Fault Dump α) :
    Except Fault Zostream → Verdict → Prop
  | .error f, _ => ∃ s, result = .error f s
  | .ok os, .finished => ∃ n, result = .ok n ⟨os, true, m'⟩
  | .ok _, .refused => ∃ n s, result = .ok n s ∧ s.ok = false
  | .ok _, .stuck f => ∃ s, result = .error f s

/-- A dump from the marks `m` writes the trace; when the trace is finished it
leaves the marks `m'`. -/
def Follows {α : Type} (x : DumpM α) (m m' : Addr → Bool) (t : Trace) : Prop :=
  ∀ s : Dump, s.ok = true → s.entered = m → Dumped m' (x s) (s.os.writeAll t.fields) t.verdict

namespace Follows

variable {α β : Type} {x : DumpM α} {m m' m'' : Addr → Bool} {t u : Trace}

theorem pure (n : α) : Follows (Pure.pure n) m m .done := by
  rintro ⟨os, ok, entered⟩ rfl rfl
  exact ⟨n, rfl⟩

theorem throw (f : Fault) : Follows (throw f : DumpM α) m m' (.fault f) := fun s _ _ => ⟨s, rfl⟩

theorem throw_bind (f : Fault) (g : α → DumpM β) :
    Follows ((MonadExcept.throw f : DumpM α) >>= g) m m' (.fault f) := fun s _ _ => ⟨s, rfl⟩

theorem check {y : Except Fault α} {f : α → DumpM β} {rest : α → Trace}
    (hf : ∀ a, y = .ok a → Follows (f a) m m' (rest a)) :
    Follows (dumpCheck y >>= f) m m' (.check y rest) := by
  cases y with
  | ok a => exact hf a rfl
  | error e => exact fun s _ _ => ⟨s, rfl⟩

theorem write (k : Nat) (z : Bytes) : Follows (zosWrite k z) m m (.field k z) := by
  rintro ⟨os, ok, entered⟩ rfl rfl
  simp only [Trace.field, Zostream.writeAll]
  cases hwrite : os.write k z with
  | error f =>
      refine ⟨⟨os, true, entered⟩, ?_⟩
      simp only [zosWrite, bind_of_ok (get_apply _), hwrite]
      rfl
  | ok os' =>
      refine ⟨z.length, ?_⟩
      simp only [zosWrite, bind_of_ok (get_apply _), hwrite]
      rfl

/-- A call, and what follows it when it has finished. -/
theorem sequence {f : α → DumpM β} {y : DumpM β} (hx : Follows x m m' t)
    (hf : ∀ n, Follows (f n) m' m'' u)
    (hok : ∀ s n os, x s = .ok n ⟨os, true, m'⟩ → y s = f n ⟨os, true, m'⟩)
    (hrefused : t.verdict = .refused → ∀ s n s', x s = .ok n s' → s'.ok = false →
      ∃ n' , y s = .ok n' s')
    (herror : ∀ s e s', x s = .error e s' → y s = .error e s') : Follows y m m'' (t ++ u) := by
  intro s hs hm
  have hrun := hx s hs hm
  obtain ⟨fields, verdict⟩ := t
  change Dumped _ _ (s.os.writeAll fields) verdict at hrun
  cases hwrite : s.os.writeAll fields with
  | error e =>
      rw [hwrite] at hrun
      obtain ⟨s', hs'⟩ := hrun
      cases verdict with
      | finished =>
          change Dumped _ _ (s.os.writeAll (fields ++ u.fields)) u.verdict
          rw [Zostream.writeAll_append, hwrite]
          exact ⟨s', herror s e s' hs'⟩
      | refused =>
          change Dumped _ _ (s.os.writeAll fields) _
          rw [hwrite]
          exact ⟨s', herror s e s' hs'⟩
      | stuck e' =>
          change Dumped _ _ (s.os.writeAll fields) _
          rw [hwrite]
          exact ⟨s', herror s e s' hs'⟩
  | ok os =>
      rw [hwrite] at hrun
      cases verdict with
      | finished =>
          change Dumped _ _ (s.os.writeAll (fields ++ u.fields)) u.verdict
          obtain ⟨n, hn⟩ := hrun
          rw [Zostream.writeAll_append, hwrite, hok s n os hn]
          exact hf n ⟨os, true, m'⟩ rfl rfl
      | refused =>
          change Dumped _ _ (s.os.writeAll fields) _
          obtain ⟨n, s', hn, hfalse⟩ := hrun
          obtain ⟨n', hn'⟩ := hrefused rfl s n s' hn hfalse
          rw [hwrite]
          exact ⟨n', s', hn', hfalse⟩
      | stuck e =>
          change Dumped _ _ (s.os.writeAll fields) _
          obtain ⟨s', hs'⟩ := hrun
          rw [hwrite]
          exact ⟨s', herror s e s' hs'⟩

/-- A call that can not refuse. -/
theorem bind {f : α → DumpM β} (hx : Follows x m m' t) (ht : t.verdict ≠ .refused)
    (hf : ∀ n, Follows (f n) m' m'' u) : Follows (x >>= f) m m'' (t ++ u) := by
  apply hx.sequence hf
  · exact fun s n os hn => bind_of_ok hn
  · exact fun hrefused => absurd hrefused ht
  · exact fun s e s' hs' => bind_of_error hs'

/-- A call under `CHECK_OK`. -/
theorem dumpOk {x : DumpM Nat} {rest : Nat → DumpM Nat} (hx : Follows x m m' t)
    (hf : ∀ n, Follows (rest n) m' m'' u) : Follows (dumpOk x rest) m m'' (t ++ u) := by
  apply hx.sequence hf
  · intro s n os hn
    rw [Ymd.dumpOk, bind_of_ok hn, bind_of_ok (get_apply _)]
    rfl
  · intro _ s n s' hn hfalse
    refine ⟨0, ?_⟩
    rw [Ymd.dumpOk, bind_of_ok hn, bind_of_ok (get_apply _), if_neg (by simp [hfalse])]
    rfl
  · exact fun s e s' hs' => bind_of_error hs'

/-- A call whose result is used up. -/
theorem map (hx : Follows x m m' t) (ht : t.verdict ≠ .refused) (g : α → β) :
    Follows (x >>= fun a => Pure.pure (g a)) m m' t := by
  have hbind := hx.bind ht fun a => Follows.pure (m := m') (g a)
  rwa [Trace.append_done] at hbind

theorem all {serialize : Variable → DumpM Nat} {walk : Variable → Trace} {done : Nat → DumpM Nat}
    (helem : ∀ v, Follows (serialize v) m m (walk v)) (hdone : ∀ i, Follows (done i) m m' u)
    (elems : List Variable) (i : Nat) :
    Follows (dumpAll serialize elems i done) m m' (.all walk elems ++ u) := by
  induction elems generalizing i with
  | nil => exact hdone i
  | cons v rest ih =>
      rw [Trace.all, Trace.append_assoc]
      exact (helem v).dumpOk fun n => ih _

theorem kstr (z : Bytes) : Follows (ymdDumpKstr z) m m (.kstr z) := by
  apply (write 5 _).bind nofun
  intro i
  apply (write 5 _).bind nofun
  intro j
  exact (write _ z).map nofun _

theorem lines (table : List (BitVec 32)) : Follows (dumpLines table) m m (.lines table) := by
  induction table with
  | nil => exact pure ()
  | cons line rest ih =>
      apply (write 5 _).bind nofun
      exact fun _ => ih

theorem verdict_lines (table : List (BitVec 32)) : (Trace.lines table).verdict = .finished := by
  induction table with
  | nil => rfl
  | cons line rest ih => exact ih

theorem names (lz : List Bytes) (i : Nat) : Follows (dumpLz lz i) m m (.names lz) := by
  induction lz generalizing i with
  | nil => exact pure i
  | cons z rest ih =>
      apply (kstr z).bind nofun
      exact fun n => ih _

theorem verdict_names (lz : List Bytes) : (Trace.names lz).verdict = .finished := by
  induction lz with
  | nil => rfl
  | cons z rest ih => exact ih

section

variable {serialize : Variable → DumpM Nat} {walk : Variable → Trace}
  (helem : ∀ v, Follows (serialize v) m m (walk v))

include helem

theorem chunk (core : Chunk) (debug : Debug) :
    Follows (ymdDumpChunk serialize core debug) m m (.chunk walk core debug) := by
  apply (write 5 _).bind nofun
  intro i
  by_cases hbig : 2 ^ 31 ≤ 4 * core.kinst
  · simp only [if_pos hbig]
    exact throw_bind _ _
  simp only [if_neg hbig]
  apply (write _ _).bind nofun
  intro k
  by_cases hshort : debug.line.length < core.kinst
  · simp only [if_pos hshort]
    exact throw_bind _ _
  simp only [if_neg hshort]
  apply (lines _).bind (by simp [verdict_lines])
  intro _
  apply (write 5 _).bind nofun
  intro _
  apply all helem
  intro i
  apply (write 5 _).bind nofun
  intro _
  apply (names _ _).bind (by simp [verdict_names])
  intro i
  apply (kstr _).bind nofun
  intro j
  exact (write 5 _).map nofun _

theorem func (o : Addr) (fn : Func) (debug : Addr → Debug) :
    Follows (ymdDumpFunc debug serialize o fn) m m (.func walk fn (debug o)) := by
  unfold ymdDumpFunc Trace.func
  cases fn.core with
  | none => exact pure 0
  | some core =>
      apply (write 5 _).bind nofun
      intro i
      apply (kstr _).bind nofun
      intro j
      apply (write 5 _).bind nofun
      intro k
      by_cases hshort : fn.bind.length < fn.nBind
      · simp only [if_pos hshort]
        exact throw_bind _ _
      simp only [if_neg hshort]
      apply all helem
      intro i
      have hlast := (chunk helem core (debug o)).dumpOk fun n => pure (m := m) (i + n)
      rwa [Trace.append_done] at hlast

end

theorem leave {o : Addr} (hm : m o = false) (i : Nat) :
    Follows (do fgMark o false; return i) (Function.update m o true) m .done := by
  rintro ⟨os, ok, entered⟩ rfl rfl
  have hback : Function.update (Function.update m o true) o false = m := by
    rw [Function.update_idem, ← hm, Function.update_eq_self]
  refine ⟨i, ?_⟩
  rw [fgMark, bind_of_ok (modify_apply _ _), hback]
  rfl

/-- A container that is not marked is marked while it is dumped. -/
theorem container {serialize : Variable → DumpM Nat} {walk : Variable → Trace} {o : Addr}
    (helem : ∀ v, Follows (serialize v) (Function.update m o true) (Function.update m o true)
      (walk v))
    (tt : Nat) (found : Except Fault (Nat × List Variable)) :
    Follows (dumpContainer serialize o tt found) m m
      (if m o then .refuse else .container walk tt found) := by
  by_cases hm : m o = true
  · rw [if_pos hm]
    rintro ⟨os, ok, entered⟩ rfl rfl
    change entered o = true at hm
    refine ⟨0, ⟨os, false, entered⟩, ?_, rfl⟩
    rw [dumpContainer, ifRecursed, bind_of_ok (modify_apply _ _), bind_of_ok (get_apply _)]
    simp only [hm]
    rfl
  rw [if_neg hm]
  have hrest : Follows
      (do
        let i ← zosCount tt
        let (count, elems) ← dumpCheck found
        let j ← zosCount count
        dumpAll serialize elems (i + j) fun i => do
          fgMark o false
          return i) (Function.update m o true) m (.container walk tt found) := by
    apply (write 5 _).bind nofun
    intro i
    apply check
    rintro ⟨n, elems⟩ _
    apply (write 5 _).bind nofun
    intro j
    have hall := all helem (leave (Bool.eq_false_iff.2 hm)) elems (i + j)
    rwa [Trace.append_done] at hall
  rintro ⟨os, ok, entered⟩ rfl rfl
  have hm' : entered o = false := Bool.eq_false_iff.2 hm
  rw [dumpContainer, ifRecursed, bind_of_ok (modify_apply _ _), bind_of_ok (get_apply _)]
  simp only [hm']
  exact hrest ⟨os, true, Function.update entered o true⟩ rfl rfl

end Follows

/-- `ymd_serialize` writes the trace of the value. -/
theorem serialize_follows (heap : Heap) (debug : Addr → Debug) (depth : Nat)
    (marked : Addr → Bool) (v : Variable) :
    Follows (ymdSerialize heap debug depth v) marked marked (walk heap debug depth marked v) := by
  induction depth generalizing marked v with
  | zero => exact Follows.throw _
  | succ depth ih =>
      cases v with
      | nil => exact Follows.write 5 _
      | int i =>
          apply (Follows.write 5 _).bind nofun
          intro j
          exact (Follows.write 10 _).map nofun _
      | bool i =>
          apply (Follows.write 5 _).bind nofun
          intro j
          exact (Follows.write 10 _).map nofun _
      | kstr z => exact Follows.kstr z
      | ext p =>
          rintro ⟨os, ok, entered⟩ rfl rfl
          exact ⟨0, _, rfl, rfl⟩
      | func o => exact Follows.check fun fn _ => Follows.func (ih _) o fn debug
      | dyay o => exact Follows.check fun elem _ => Follows.container (ih _) 6 _
      | hmap o => exact Follows.check fun map _ => Follows.container (ih _) 7 _
      | skls o => exact Follows.check fun list _ => Follows.container (ih _) 8 _
      | mand o =>
          rintro ⟨os, ok, entered⟩ rfl rfl
          exact ⟨0, _, rfl, rfl⟩

/-! ## Small fields -/

/-- A field that one doubling of the buffer makes room for. -/
def Field.Small (f : Field) : Prop := f.bytes.length ≤ f.reserve ∧ f.reserve ≤ maxStaticLen

/-- Behind `n` bytes every field begins where its reserve ends at `2 ^ 30` at
most. -/
def Fits : (n : Nat) → List Field → Prop
  | _, [] => True
  | n, f :: rest => n + f.reserve ≤ 2 ^ 30 ∧ Fits (n + f.bytes.length) rest

instance Fits.decidable : (n : Nat) → (fields : List Field) → Decidable (Fits n fields)
  | _, [] => .isTrue trivial
  | n, f :: rest =>
      haveI := Fits.decidable (n + f.bytes.length) rest
      inferInstanceAs (Decidable (n + f.reserve ≤ 2 ^ 30 ∧ Fits (n + f.bytes.length) rest))

namespace Zostream

/-- A stream as the operations leave it. -/
structure Wf (os : Zostream) : Prop where
  doubled : ∃ j, os.max = maxStaticLen * 2 ^ j
  small : os.max < 2 ^ 31
  last_le : os.last ≤ os.max

theorem Wf.init : Zostream.init.Wf := ⟨⟨0, rfl⟩, by decide, by decide⟩

variable {os os' : Zostream}

theorem Wf.max_ge (hos : os.Wf) : maxStaticLen ≤ os.max := by
  obtain ⟨j, hj⟩ := hos.doubled
  rw [hj]
  exact Nat.le_mul_of_pos_right _ (Nat.two_pow_pos j)

theorem Wf.max_le (hos : os.Wf) : os.max ≤ 2 ^ 30 := by
  obtain ⟨j, hj⟩ := hos.doubled
  have hsmall := hos.small
  have hpow : os.max = 2 ^ (12 + j) := by
    rw [hj, Nat.pow_add]
    rfl
  rw [hpow] at hsmall ⊢
  have hexp : 12 + j < 31 := (Nat.pow_lt_pow_iff_right (by decide)).1 hsmall
  exact Nat.pow_le_pow_right (by decide) (by omega)

theorem fill_eq {z : Bytes} (hroom : os.last + z.length ≤ os.max) :
    os.fill z = .ok { os with buf := os.buf ++ z } := if_pos hroom

theorem last_fill (os : Zostream) (z : Bytes) :
    last { os with buf := os.buf ++ z } = os.last + z.length := List.length_append

theorem Wf.fill (hos : os.Wf) {z : Bytes} (hroom : os.last + z.length ≤ os.max) :
    Wf { os with buf := os.buf ++ z } where
  doubled := hos.doubled
  small := hos.small
  last_le := (last_fill os z).trans_le hroom

theorem Wf.grown (hos : os.Wf) (hgrow : 2 * os.max < 2 ^ 31) : Wf { os with max := 2 * os.max } where
  doubled := by
    obtain ⟨j, hj⟩ := hos.doubled
    refine ⟨j + 1, ?_⟩
    change 2 * os.max = _
    rw [hj, Nat.pow_succ]
    ring
  small := hgrow
  last_le := hos.last_le.trans (Nat.le_mul_of_pos_left _ (by decide))

/-- A small field is written, unless the buffer would have to grow over an
`int`. -/
theorem Wf.write (hos : os.Wf) {f : Field} (hf : f.Small) :
    (os.last + f.reserve ≤ 2 ^ 30 ∧ ∃ max, os.write f.reserve f.bytes = .ok ⟨os.buf ++ f.bytes, max⟩ ∧
        Wf ⟨os.buf ++ f.bytes, max⟩) ∨
      (¬ os.last + f.reserve ≤ 2 ^ 30 ∧ os.write f.reserve f.bytes = .error .overflow) := by
  have hge := hos.max_ge
  have hlast := hos.last_le
  obtain ⟨hlen, hres⟩ := hf
  -- the reserve leaves a buffer that the field goes into
  have hinto : ∀ max, os.reserved f.reserve = .ok { os with max := max } →
      os.last + f.reserve ≤ max → Wf { os with max := max } →
      os.last + f.reserve ≤ 2 ^ 30 ∧ ∃ max, os.write f.reserve f.bytes =
        .ok ⟨os.buf ++ f.bytes, max⟩ ∧ Wf ⟨os.buf ++ f.bytes, max⟩ := by
    intro max hreserved hroom hwf
    have hbytes : last { os with max := max } + f.bytes.length ≤ max :=
      (Nat.add_le_add_left hlen _).trans hroom
    refine ⟨hroom.trans hwf.max_le, max, ?_, hwf.fill hbytes⟩
    simp only [Zostream.write, hreserved]
    exact fill_eq hbytes
  by_cases hstatic : os.last + f.reserve ≤ maxStaticLen
  · exact .inl (hinto os.max (if_pos hstatic) (hstatic.trans hge) hos)
  by_cases hroom : os.last + f.reserve ≤ os.max
  · exact .inl (hinto os.max ((if_neg hstatic).trans (if_pos hroom)) hroom hos)
  by_cases hgrow : 2 * os.max < 2 ^ 31
  · exact .inl (hinto (2 * os.max) ((if_neg hstatic).trans ((if_neg hroom).trans (if_pos hgrow)))
      (by omega) (hos.grown hgrow))
  · have hreserved : os.reserved f.reserve = .error .overflow :=
      (if_neg hstatic).trans ((if_neg hroom).trans (if_neg hgrow))
    refine .inr ⟨by omega, ?_⟩
    simp only [Zostream.write, hreserved]
    rfl

/-- Small fields are written one behind the other exactly when they fit. -/
theorem Wf.writeAll (hos : os.Wf) {fields : List Field} (hsmall : ∀ f ∈ fields, f.Small) :
    (Fits os.last fields ∧ ∃ os', os.writeAll fields = .ok os' ∧ os'.Wf ∧
        os'.buf = os.buf ++ fields.flatMap Field.bytes) ∨
      (¬ Fits os.last fields ∧ os.writeAll fields = .error .overflow) := by
  induction fields generalizing os with
  | nil => exact .inl ⟨trivial, os, rfl, hos, by simp⟩
  | cons f rest ih =>
      obtain ⟨hroom, max, hwrite, hos'⟩ | ⟨hfull, hwrite⟩ := hos.write (hsmall f List.mem_cons_self)
      · have hlast : last ⟨os.buf ++ f.bytes, max⟩ = os.last + f.bytes.length := List.length_append
        have hrest : os.writeAll (f :: rest) = Zostream.writeAll ⟨os.buf ++ f.bytes, max⟩ rest := by
          simp only [Zostream.writeAll, hwrite]
          rfl
        obtain ⟨hfits, os', hall, hos'', hbuf⟩ | ⟨hno, hall⟩ :=
          ih hos' fun g hg => hsmall g (List.mem_cons_of_mem _ hg)
        · refine .inl ⟨⟨hroom, hlast ▸ hfits⟩, os', hrest.trans hall, hos'', ?_⟩
          rw [hbuf, List.flatMap_cons, List.append_assoc]
        · exact .inr ⟨fun h => hno (hlast ▸ h.2), hrest.trans hall⟩
      · refine .inr ⟨fun h => hfull h.1, ?_⟩
        simp only [Zostream.writeAll, hwrite]
        rfl

end Zostream

end Ymd
