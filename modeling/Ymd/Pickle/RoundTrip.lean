import Ymd.Pickle.Restore
import Ymd.Pickle.Pload

/-! # Dumping data and parsing it

Data comes back from its dump, unless a container of it still carries the mark
of an earlier dump that failed, or the stream would have to grow over an `int`.
-/

namespace Ymd

open Foundation

theorem small_count (n : Nat) : Field.Small ⟨5, uint32encode (BitVec.ofNat 32 n)⟩ :=
  ⟨length_uint32encode _, show 5 ≤ maxStaticLen by decide⟩

theorem small_varint64 (x : BitVec 64) : Field.Small ⟨10, uint64encode x⟩ :=
  ⟨length_uint64encode _, show 10 ≤ maxStaticLen by decide⟩

theorem small_cons {f : Field} {fields : List Field} (hf : f.Small) (hrest : ∀ g ∈ fields, g.Small) :
    ∀ g ∈ f :: fields, g.Small :=
  List.forall_mem_cons.2 ⟨hf, hrest⟩

theorem small_nil : ∀ g ∈ ([] : List Field), g.Small := fun _ hg => absurd hg List.not_mem_nil

section

variable {heap : Heap} {debug : Addr → Debug} {d depth : Nat} {v : Variable} {s : Dump}

/-- No field of data is longer than its reserve, and no reserve exceeds the
static buffer. -/
theorem small_dataFields (hdata : IsData heap d v) : ∀ f ∈ dataFields heap d v, f.Small := by
  induction d generalizing v with
  | zero => exact hdata.elim
  | succ d ih =>
      obtain ⟨hnone, _⟩ | ⟨o, tt, n, hcontainer⟩ := data_cases (fun _ => Debug.zero) hdata
      · cases v with
        | nil => exact small_cons (small_count 0) small_nil
        | int i => exact small_cons (small_count 1) (small_cons (small_varint64 _) small_nil)
        | bool i => exact small_cons (small_count 2) (small_cons (small_varint64 _) small_nil)
        | kstr z =>
            exact small_cons (small_count 4) (small_cons (small_count _)
              (small_cons ⟨le_rfl, hdata⟩ small_nil))
        | dyay o => cases hnone
        | hmap o => cases hnone
        | skls o => cases hnone
        | _ => exact hdata.elim
      · rw [hcontainer.fields]
        intro f hf
        obtain hf | hf := List.mem_append.1 hf
        · exact small_cons (small_count tt) (small_cons (small_count n) small_nil) f hf
        · obtain ⟨e, he, hfe⟩ := List.mem_flatMap.1 hf
          exact ih (hcontainer.parts e he) f hfe

/-- Parsing takes the bytes `z` in front of `rest`, each of them once, and
pushes the same value. -/
def ParsesTo (heap : Heap) (debug : Addr → Debug) (d : Nat) (v : Variable) (env : Env)
    (depth : Nat) (mem : Mem) (z rest : Bytes) : Prop :=
  ∃ k t w, ymdParse env (z ++ rest) depth (Load.start mem) = .ok k t ∧ t.ok = true ∧
    Forward (z ++ rest) t.trail ∧ t.last = z.length ∧ t.mem.l.stk = w :: mem.l.stk ∧
    Same heap debug t.mem.l.heap t.mem.debug mem.l.heap.next d v w

/-- Dumping the value succeeds, and the bytes it writes, in front of any others,
parse to the same value, wherever there is room on the operand stack. -/
def RoundTrips (heap : Heap) (debug : Addr → Debug) (d depth : Nat) (v : Variable) (s : Dump) :
    Prop :=
  ∃ n s' z, ymdSerialize heap debug depth v s = .ok n s' ∧ s'.ok = true ∧
    s'.os.buf = s.os.buf ++ z ∧
    ∀ (env : Env) (depth' : Nat) (mem : Mem) (rest : Bytes), 0 < env.depth → d ≤ depth' →
      mem.Calm → mem.l.stk.length + 2 * d ≤ maxStack →
      ParsesTo heap debug d v env depth' mem z rest

/-- Data round-trips exactly when none of its containers carries the mark and
its fields fit into the stream. -/
theorem data_round_trips_iff (hdata : IsData heap d v) (hle : d ≤ depth) (hok : s.ok = true)
    (hos : s.os.Wf) : RoundTrips heap debug d depth v s ↔
      Unmarked heap s.entered v ∧ Fits s.os.last (dataFields heap d v) := by
  have hfollows := serialize_follows heap debug depth s.entered v s hok rfl
  constructor
  · rintro ⟨n, s', z, hrun, hok', _⟩
    rw [hrun] at hfollows
    cases hwrite : s.os.writeAll (walk heap debug depth s.entered v).fields with
    | error f =>
        rw [hwrite] at hfollows
        obtain ⟨_, herror⟩ := hfollows
        cases herror
    | ok os =>
        rw [hwrite] at hfollows
        cases hverdict : (walk heap debug depth s.entered v).verdict with
        | finished =>
            have hunmarked := unmarked_of_finished hdata hle hverdict
            rw [walk_data hdata hle hunmarked] at hwrite
            refine ⟨hunmarked, ?_⟩
            obtain ⟨hfits, _⟩ | ⟨_, hfull⟩ := hos.writeAll (small_dataFields hdata)
            · exact hfits
            · rw [hfull] at hwrite
              cases hwrite
        | refused =>
            rw [hverdict] at hfollows
            obtain ⟨_, _, hsame, hfalse⟩ := hfollows
            cases hsame
            rw [hok'] at hfalse
            cases hfalse
        | stuck f =>
            rw [hverdict] at hfollows
            obtain ⟨_, herror⟩ := hfollows
            cases herror
  · rintro ⟨hunmarked, hfits⟩
    rw [walk_data hdata hle hunmarked] at hfollows
    obtain ⟨_, os, hwrite, _, hbuf⟩ | ⟨hno, _⟩ := hos.writeAll (small_dataFields hdata)
    · rw [hwrite] at hfollows
      obtain ⟨n, hrun⟩ := hfollows
      refine ⟨n, _, bytesOf (dataFields heap d v), hrun, rfl, hbuf, ?_⟩
      -- the fields are read back in front of whatever follows them
      intro env depth' mem rest henv hle' hcalm hroom
      obtain ⟨k, mem', w, hitem, hres⟩ :=
        Format.readsBack henv hdata hle' mem rest hcalm hroom
      have hmatch := parse_matches env depth' (bytesOf (dataFields heap d v) ++ rest) mem
      rw [hitem] at hmatch
      obtain ⟨t, hparse, rfl, hrest, hat⟩ := hmatch
      have hlength := hat.length_rest
      rw [hrest, List.length_append] at hlength
      exact ⟨k, t, w, hparse, hat.ok, hat.forward, by omega, hres.inv.stk, hres.same⟩
    · exact absurd hfits hno

/-- An array of an integer and a string, dumped into a new stream. -/
theorem data_round_trips_array :
    RoundTrips twoArrays (fun _ => .zero) 2 2 (.dyay 0) ⟨.init, true, fun _ => false⟩ := by
  have helem : ∀ e ∈ [Variable.int 1, .kstr [97]], IsData twoArrays 1 e := by
    simp only [List.forall_mem_cons]
    exact ⟨show (1 : YmdInt) ≠ BitVec.intMin 64 by decide, show 1 ≤ maxStaticLen by decide, by simp⟩
  have hdata : IsData twoArrays 2 (.dyay 0) := ⟨[.int 1, .kstr [97]], rfl, by decide, helem⟩
  have hfits : Fits 0 (dataFields twoArrays 2 (.dyay 0)) := by decide +kernel
  exact (data_round_trips_iff hdata le_rfl rfl .init).2 ⟨fun _ _ => rfl, hfits⟩

/-- An array that is its own element, and what a store of 1 makes of it. -/
def ownElement : Heap := (Heap.empty.alloc (.dyay [.dyay 0])).1

/-- The dump of the cyclic array fails; it leaves a mark, so the dump of the
array fails again when there is no cycle any more. -/
theorem data_fails_behind_failed_dump :
    ∃ s, ymdSerialize ownElement (fun _ => .zero) 2 (.dyay 0) ⟨.init, true, fun _ => false⟩ = .ok 0 s ∧
      s.ok = false ∧ IsData (ownElement.set 0 (.dyay [.int 1])) 2 (.dyay 0) ∧
      ¬ RoundTrips (ownElement.set 0 (.dyay [.int 1])) (fun _ => .zero) 2 2 (.dyay 0)
        ⟨.init, true, s.entered⟩ := by
  refine ⟨_, rfl, rfl, ?_, ?_⟩
  · refine ⟨[.int 1], rfl, by decide, ?_⟩
    simp only [List.forall_mem_cons]
    exact ⟨show (1 : YmdInt) ≠ BitVec.intMin 64 by decide, by simp⟩
  · rintro ⟨n, s', z, hrun, hok, _⟩
    cases hrun
    cases hok

end

end Ymd
