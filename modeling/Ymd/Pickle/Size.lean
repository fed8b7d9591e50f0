import Ymd.Pickle.Data

/-! # The size of a dump

The dump functions add up the bytes they write. `ymd_dump_chunk` writes the lines,
the number of the constants and the number of the names without adding them, so
that a dump in which there is a function written in the language reports too few.
-/

namespace Ymd

open Foundation

/-- A function written in the language is the value, or is inside it: an element, a
key or a value of a container. -/
inductive HoldsScript (heap : Heap) : Variable → Prop
  | script {o : Addr} {fn : Func} {core : Chunk} (hobj : heap.func o = .ok fn)
      (hcore : fn.core = some core) : HoldsScript heap (.func o)
  | inside {v e : Variable} (he : e ∈ heap.parts v) (hscript : HoldsScript heap e) :
      HoldsScript heap v

/-- What a dump has written without reporting it, from `i` bytes reported in
front: nothing exactly when `Full`. It reports at least `low`. -/
def Tallies (x : DumpM Nat) (i low : Nat) (Full : Prop) : Prop :=
  ∀ s n s', x s = .ok n s' → s'.ok = true →
    low ≤ n ∧ ∃ lost, i + s'.os.last = s.os.last + n + lost ∧ (lost = 0 ↔ Full)

section

variable {i j low : Nat} {Full Rest : Prop}

theorem last_write {os os' : Zostream} {k : Nat} {z : Bytes} (hwrite : os.write k z = .ok os') :
    os'.last = os.last + z.length := by
  unfold Zostream.write at hwrite
  cases hreserved : os.reserved k with
  | error f =>
      rw [hreserved] at hwrite
      cases hwrite
  | ok room =>
      rw [hreserved] at hwrite
      have hbuf : room.buf = os.buf := by
        unfold Zostream.reserved at hreserved
        split at hreserved
        next => cases hreserved; rfl
        next =>
          split at hreserved
          next => cases hreserved; rfl
          next =>
            split at hreserved
            next => cases hreserved; rfl
            next => cases hreserved
      change room.fill z = .ok os' at hwrite
      unfold Zostream.fill at hwrite
      split at hwrite
      next =>
        cases hwrite
        rw [Zostream.last_fill, Zostream.last, hbuf]
        rfl
      next => cases hwrite

theorem zosWrite_last {k : Nat} {z : Bytes} {s s' : Dump} {n : Nat}
    (hrun : zosWrite k z s = .ok n s') : n = z.length ∧ s'.os.last = s.os.last + z.length := by
  unfold zosWrite at hrun
  rw [bind_of_ok (get_apply s)] at hrun
  cases hwrite : s.os.write k z with
  | error f =>
      rw [hwrite] at hrun
      cases hrun
  | ok os =>
      rw [hwrite] at hrun
      cases hrun
      exact ⟨rfl, last_write hwrite⟩

/-- A number of the format takes at least a byte. -/
theorem uint32encode_pos (x : BitVec 32) : 0 < (uint32encode x).length := by
  rw [uint32encode, length_fillGroups]
  exact Nat.succ_pos _

namespace Tallies

theorem pure (hlow : low ≤ i) : Tallies (Pure.pure i) i low True := by
  intro s n s' hrun _
  cases hrun
  exact ⟨hlow, 0, by omega, by simp⟩

theorem weaken {low' : Nat} {x : DumpM Nat} (hx : Tallies x i low Full) (hle : low' ≤ low) :
    Tallies x i low' Full := by
  intro s n s' hrun hok
  obtain ⟨hlow, hlost⟩ := hx s n s' hrun hok
  exact ⟨hle.trans hlow, hlost⟩

theorem throw (f : Fault) : Tallies (MonadExcept.throw f : DumpM Nat) i low Full := by
  intro s n s' hrun
  cases hrun

theorem throw_bind {α : Type} (f : Fault) (g : α → DumpM Nat) :
    Tallies ((MonadExcept.throw f : DumpM α) >>= g) i low Full := throw f

theorem check {α : Type} {y : Except Fault α} {f : α → DumpM Nat}
    (hf : ∀ a, y = .ok a → Tallies (f a) i low Full) :
    Tallies (dumpCheck y >>= f) i low Full := by
  cases y with
  | error e => exact throw_bind e f
  | ok a => exact hf a rfl

/-- A step that leaves the stream alone. -/
theorem quiet {y : DumpM Unit} {x : DumpM Nat} (hy : ∀ s, ∃ s', y s = .ok () s' ∧ s'.os = s.os)
    (hx : Tallies x i low Full) : Tallies (y >>= fun _ => x) i low Full := by
  intro s n s' hrun hok
  obtain ⟨s₁, hs₁, hos⟩ := hy s
  rw [bind_of_ok hs₁] at hrun
  have hsize := hx s₁ n s' hrun hok
  rwa [hos] at hsize

theorem leave (o : Addr) (hlow : low ≤ i) :
    Tallies (do fgMark o false; return i) i low True :=
  quiet (fun s => ⟨_, modify_apply _ s, rfl⟩) (pure hlow)

/-- `CHECK_OK` in front of a container. -/
theorem entered {x : DumpM Nat} (hx : Tallies x i low Full) :
    Tallies (do if !(← get).ok then return 0 else x) i low Full := by
  intro s n s' hrun hok
  rw [bind_of_ok (get_apply s)] at hrun
  cases hs : s.ok with
  | false =>
      rw [hs] at hrun
      cases hrun
      cases hs.symm.trans hok
  | true =>
      rw [hs] at hrun
      exact hx s n s' hrun hok

/-- A field that is added. -/
theorem write {k : Nat} {z : Bytes} {f : Nat → DumpM Nat}
    (hf : Tallies (f z.length) (i + z.length) low Full) :
    Tallies (zosWrite k z >>= f) i low Full := by
  intro s n s' hrun hok
  cases hwrite : zosWrite k z s with
  | error e s₁ =>
      rw [bind_of_error hwrite] at hrun
      cases hrun
  | ok len s₁ =>
      rw [bind_of_ok hwrite] at hrun
      obtain ⟨rfl, hlast⟩ := zosWrite_last hwrite
      obtain ⟨hlow, lost, hsum, hfull⟩ := hf s₁ n s' hrun hok
      exact ⟨hlow, lost, by omega, hfull⟩

/-- The last field. -/
theorem field (k : Nat) {z : Bytes} (hlow : low ≤ z.length) : Tallies (zosWrite k z) 0 low True := by
  have hlast : Tallies (zosWrite k z >>= Pure.pure) 0 low True := by
    apply write
    rw [Nat.zero_add]
    exact pure hlow
  rwa [bind_pure] at hlast

/-- A field that is not added. -/
theorem lose {k : Nat} {z : Bytes} (hz : 0 < z.length) {x : DumpM Nat}
    (hx : Tallies x i low Full) : Tallies (zosWrite k z >>= fun _ => x) i low False := by
  intro s n s' hrun hok
  cases hwrite : zosWrite k z s with
  | error e s₁ =>
      rw [bind_of_error hwrite] at hrun
      cases hrun
  | ok len s₁ =>
      rw [bind_of_ok hwrite] at hrun
      have hlast := (zosWrite_last hwrite).2
      obtain ⟨hlow, lost, hsum, -⟩ := hx s₁ n s' hrun hok
      exact ⟨hlow, lost + z.length, by omega, fun hsum => by omega, False.elim⟩

/-- The lines are not added. -/
theorem lines (table : List (BitVec 32)) {x : DumpM Nat} (hx : Tallies x i low False) :
    Tallies (dumpLines table >>= fun _ => x) i low False := by
  induction table with
  | nil => exact hx
  | cons line rest ih =>
      rw [dumpLines, bind_assoc]
      exact lose (uint32encode_pos line) ih

theorem kstr (z : Bytes) {f : Nat → DumpM Nat}
    (hf : ∀ len, 0 < len → Tallies (f len) (i + len) low Full) :
    Tallies (ymdDumpKstr z >>= f) i low Full := by
  unfold ymdDumpKstr
  simp only [bind_assoc, pure_bind]
  apply write
  apply write
  apply write
  have hpos := uint32encode_pos (BitVec.ofNat 32 4)
  have hrest := hf ((uint32encode (BitVec.ofNat 32 4)).length +
    (uint32encode (BitVec.ofNat 32 z.length)).length + z.length) (by omega)
  simpa only [Nat.add_assoc] using hrest

theorem names (lz : List Bytes) (hlow : low ≤ i) {f : Nat → DumpM Nat}
    (hf : ∀ j, low ≤ j → Tallies (f j) j low Full) : Tallies (dumpLz lz i >>= f) i low Full := by
  induction lz generalizing i with
  | nil => exact hf i hlow
  | cons z rest ih =>
      rw [dumpLz, bind_assoc]
      apply kstr
      intro len _
      exact ih (by omega)

/-- A call under `CHECK_OK`. -/
theorem dumpOk {x : DumpM Nat} {rest : Nat → DumpM Nat} (hx : Tallies x 0 0 Full)
    (hrest : ∀ n, Tallies (rest n) (i + n) low Rest) :
    Tallies (dumpOk x rest) i low (Full ∧ Rest) := by
  intro s n s' hrun hok
  unfold Ymd.dumpOk at hrun
  cases hcall : x s with
  | error e s₁ =>
      rw [bind_of_error hcall] at hrun
      cases hrun
  | ok len s₁ =>
      rw [bind_of_ok hcall, bind_of_ok (get_apply s₁)] at hrun
      cases hs₁ : s₁.ok with
      | false =>
          rw [hs₁] at hrun
          cases hrun
          cases hs₁.symm.trans hok
      | true =>
          rw [hs₁] at hrun
          obtain ⟨-, lost, hsum, hfull⟩ := hx s len s₁ hcall hs₁
          obtain ⟨hlow, lost', hsum', hrest⟩ := hrest len s₁ n s' hrun hok
          exact ⟨hlow, lost + lost', by omega, by rw [← hfull, ← hrest]; omega⟩

variable {serialize : Variable → DumpM Nat} {Whole : Variable → Prop}

/-- The elements one after the other. -/
theorem all (helem : ∀ v, Tallies (serialize v) 0 0 (Whole v)) (elems : List Variable)
    (hlow : low ≤ i) {done : Nat → DumpM Nat} (hdone : ∀ j, low ≤ j → Tallies (done j) j low Rest) :
    Tallies (dumpAll serialize elems i done) i low ((∀ e ∈ elems, Whole e) ∧ Rest) := by
  induction elems generalizing i with
  | nil =>
      change Tallies (done i) i low _
      simpa using hdone i hlow
  | cons v rest ih =>
      rw [dumpAll, List.forall_mem_cons, and_assoc]
      exact dumpOk (helem v) fun n => ih (by omega)

/-- A container reports its tag at least. -/
theorem container (helem : ∀ v, Tallies (serialize v) 0 0 (Whole v)) (o : Addr) (tt : Nat)
    {found : Except Fault (Nat × List Variable)} {elems : List Variable}
    (hfound : ∀ p, found = .ok p → p.2 = elems) :
    Tallies (dumpContainer serialize o tt found) 0 1 (∀ e ∈ elems, Whole e) := by
  have hpos := uint32encode_pos (BitVec.ofNat 32 tt)
  unfold dumpContainer
  apply quiet
  · exact fun s => ⟨_, modify_apply _ s, rfl⟩
  apply entered
  apply quiet
  · exact fun s => ⟨_, modify_apply _ s, rfl⟩
  apply write
  apply check
  rintro ⟨count, elems'⟩ hok
  obtain rfl := hfound _ hok
  apply write
  rw [Nat.zero_add]
  have hall := fun i (hlow : 1 ≤ i) => all helem elems' hlow fun i hlow => leave o hlow
  simp only [and_true] at hall
  exact hall _ (by omega)

/-- The three numbers of `ymd_dump_chunk`. -/
theorem chunk (helem : ∀ v, Tallies (serialize v) 0 0 (Whole v)) (core : Chunk) (debug : Debug) :
    Tallies (ymdDumpChunk serialize core debug) 0 0 False := by
  unfold ymdDumpChunk
  apply write
  by_cases hbig : 2 ^ 31 ≤ 4 * core.kinst
  · simp only [if_pos hbig]
    exact throw_bind _ _
  simp only [if_neg hbig]
  apply write
  by_cases hshort : debug.line.length < core.kinst
  · simp only [if_pos hshort]
    exact throw_bind _ _
  simp only [if_neg hshort]
  apply lines
  apply lose (uint32encode_pos _)
  rw [Nat.zero_add]
  apply all helem core.kval (Nat.zero_le _)
  intro i _
  apply lose (uint32encode_pos _)
  apply names core.lz (Nat.zero_le _)
  intro i _
  apply kstr
  intro len _
  apply write
  exact pure (Nat.zero_le _)

/-- A function written in the language always reports too few. -/
theorem func (helem : ∀ v, Tallies (serialize v) 0 0 (Whole v)) (debug : Addr → Debug) (o : Addr)
    {fn : Func} {core : Chunk} (hcore : fn.core = some core) :
    Tallies (ymdDumpFunc debug serialize o fn) 0 0 False := by
  unfold ymdDumpFunc
  rw [hcore]
  apply write
  apply kstr
  intro len _
  apply write
  by_cases hshort : fn.bind.length < fn.nBind
  · simp only [if_pos hshort]
    exact throw_bind _ _
  simp only [if_neg hshort]
  rw [Nat.zero_add]
  have hlast : ∀ i, 0 ≤ i → Tallies
      (Ymd.dumpOk (ymdDumpChunk serialize core (debug o)) fun n => return i + n) i 0 False := by
    intro i _
    have hchunk := dumpOk (chunk helem core (debug o)) fun n => pure (Nat.zero_le (i + n))
    rwa [false_and] at hchunk
  have hall := fun i => all helem (fn.bind.take fn.nBind) (Nat.zero_le i) hlast
  simp only [and_false] at hall
  exact hall _

end Tallies

theorem holdsScript_func {heap : Heap} {o : Addr} {fn : Func} (hfn : heap.func o = .ok fn) :
    HoldsScript heap (.func o) ↔ ∃ core, fn.core = some core := by
  constructor
  · intro h
    cases h with
    | script hobj hcore =>
        cases hfn.symm.trans hobj
        exact ⟨_, hcore⟩
    | inside he _ => cases he
  · rintro ⟨core, hcore⟩
    exact .script hfn hcore

theorem holdsScript_iff {heap : Heap} {v : Variable} (hv : ∀ o, v ≠ .func o) :
    HoldsScript heap v ↔ ∃ e ∈ heap.parts v, HoldsScript heap e := by
  constructor
  · intro h
    cases h with
    | script hobj hcore => exact absurd rfl (hv _)
    | inside he hscript => exact ⟨_, he, hscript⟩
  · rintro ⟨e, he, hscript⟩
    exact .inside he hscript

section

variable {heap : Heap} {debug : Addr → Debug} {depth : Nat} {v : Variable}

/-- A value that is not a function reports what is written, but for the functions
inside, and reports a byte at least. -/
theorem tallies_value (helem : ∀ e, Tallies (ymdSerialize heap debug depth e) 0 0
      (¬ HoldsScript heap e)) (hv : ∀ o, v ≠ .func o) :
    Tallies (ymdSerialize heap debug (depth + 1) v) 0 1 (¬ HoldsScript heap v) := by
  have hinside : (¬ HoldsScript heap v) = ∀ e ∈ heap.parts v, ¬ HoldsScript heap e := by
    simp [holdsScript_iff hv]
  rw [hinside]
  have hscalar : heap.parts v = [] → (∀ e ∈ heap.parts v, ¬ HoldsScript heap e) = True := by
    intro hnil
    simp [hnil]
  have hrefuse : Tallies (do modify fun s => { s with ok := false }; return 0) 0 1
      (∀ e ∈ heap.parts v, ¬ HoldsScript heap e) := by
    intro s n s' hrun hok
    cases hrun
    cases hok
  cases v with
  | nil =>
      rw [hscalar rfl]
      exact Tallies.field 5 (uint32encode_pos 0)
  | int i =>
      rw [hscalar rfl]
      have hpos := uint32encode_pos (BitVec.ofNat 32 1)
      apply Tallies.write
      apply Tallies.write
      rw [Nat.zero_add]
      exact Tallies.pure (by omega)
  | bool i =>
      rw [hscalar rfl]
      have hpos := uint32encode_pos (BitVec.ofNat 32 2)
      apply Tallies.write
      apply Tallies.write
      rw [Nat.zero_add]
      exact Tallies.pure (by omega)
  | kstr z =>
      rw [hscalar rfl]
      have hlast : Tallies (ymdDumpKstr z >>= Pure.pure) 0 1 True := by
        apply Tallies.kstr
        intro len hlen
        rw [Nat.zero_add]
        exact Tallies.pure hlen
      rwa [bind_pure] at hlast
  | func o => exact absurd rfl (hv o)
  | ext p => exact hrefuse
  | mand o => exact hrefuse
  | dyay o =>
      apply Tallies.check
      intro elem hobj
      have hparts : heap.parts (.dyay o) = elem := by
        simp [Heap.parts, Heap.dyay_eq_ok.1 hobj]
      rw [hparts]
      apply Tallies.container helem
      rintro p ⟨⟩
      rfl
  | hmap o =>
      apply Tallies.check
      intro map hobj
      have hparts : heap.parts (.hmap o) = flatPairs map.slots := by
        simp [Heap.parts, Heap.hmap_eq_ok.1 hobj]
      rw [hparts]
      apply Tallies.container helem
      rintro p ⟨⟩
      rfl
  | skls o =>
      apply Tallies.check
      intro list hobj
      apply Tallies.container helem
      intro p hp
      cases hpairs : list.traverse with
      | error f =>
          rw [hpairs] at hp
          cases hp
      | ok pairs =>
          rw [hpairs] at hp
          cases hp
          simp [Heap.parts, Heap.skls_eq_ok.1 hobj, hpairs]

/-- The bytes that a dump does not report are those of the functions inside. -/
theorem serialize_tallies (heap : Heap) (debug : Addr → Debug) (depth : Nat) (v : Variable) :
    Tallies (ymdSerialize heap debug depth v) 0 0 (¬ HoldsScript heap v) := by
  induction depth generalizing v with
  | zero => exact Tallies.throw _
  | succ depth ih =>
      by_cases hv : ∀ o, v ≠ .func o
      · exact Tallies.weaken (tallies_value ih hv) (Nat.zero_le _)
      simp only [not_forall, not_not] at hv
      obtain ⟨o, rfl⟩ := hv
      apply Tallies.check
      intro fn hfn
      cases hcore : fn.core with
      | none =>
          have hnative : (¬ HoldsScript heap (.func o)) = True := by
            rw [holdsScript_func hfn, hcore]
            simp
          unfold ymdDumpFunc
          rw [hcore, hnative]
          exact Tallies.pure le_rfl
      | some core =>
          have hscript : (¬ HoldsScript heap (.func o)) = False := by
            rw [holdsScript_func hfn, hcore]
            simp
          rw [hscript]
          exact Tallies.func ih debug o hcore

/-- A dump that succeeds reports its size exactly when there is no function
written in the language in it, and a byte at least when it is not of a function. -/
theorem serialize_size_iff {s s' : Dump} {n : Nat}
    (hrun : ymdSerialize heap debug depth v s = .ok n s') (hok : s'.ok = true) :
    (n = s'.os.last - s.os.last ∧ 1 ≤ n) ↔ (∀ o, v ≠ .func o) ∧ ¬ HoldsScript heap v := by
  obtain ⟨-, lost, hsum, hlost⟩ := serialize_tallies heap debug depth v s n s' hrun hok
  constructor
  · rintro ⟨hn, hpos⟩
    have hscript := hlost.1 (by omega)
    refine ⟨?_, hscript⟩
    rintro o rfl
    -- a native function is not written
    cases depth with
    | zero => cases hrun
    | succ depth =>
        simp only [ymdSerialize] at hrun
        cases hfn : heap.func o with
        | error f =>
            rw [hfn] at hrun
            cases hrun
        | ok fn =>
            rw [holdsScript_func hfn] at hscript
            rw [hfn] at hrun
            cases hcore : fn.core with
            | some core => exact hscript ⟨core, hcore⟩
            | none =>
                change ymdDumpFunc debug _ o fn s = _ at hrun
                simp only [ymdDumpFunc, hcore] at hrun
                cases hrun
                cases hpos
  · rintro ⟨hv, hscript⟩
    have hlow : 1 ≤ n := by
      cases depth with
      | zero => cases hrun
      | succ depth =>
          exact (tallies_value (serialize_tallies heap debug depth) hv s n s' hrun hok).1
    have hzero := hlost.2 hscript
    exact ⟨by omega, hlow⟩

/-- The size a dump reports, what the stream has then, and whether no byte was refused. -/
private def figures {ε : Type} : EStateM.Result ε Dump Nat → Option (Nat × Nat × Bool)
  | .ok n s' => some (n, s'.os.last, s'.ok)
  | .error _ _ => none

private theorem figures_eq {ε : Type} {r : EStateM.Result ε Dump Nat} {n last : Nat}
    (h : figures r = some (n, last, true)) :
    ∃ s', r = .ok n s' ∧ s'.os.last = last ∧ s'.ok = true := by
  cases r with
  | ok n' s' =>
      simp only [figures, Option.some.injEq, Prod.mk.injEq] at h
      obtain ⟨rfl, hlast, hok⟩ := h
      exact ⟨s', rfl, hlast, hok⟩
  | error e s' => cases h

/-- The array of the integer 1. -/
def oneElement : Heap := (Heap.empty.alloc (.dyay [.int 1])).1

/-- It is dumped as `6 1 1 2`. -/
theorem serialize_size_array :
    ∃ n s', ymdSerialize oneElement (fun _ => ⟨[], []⟩) 2 (.dyay 0) ⟨.init, true, fun _ => false⟩ =
      .ok n s' ∧ s'.ok = true ∧ n = s'.os.last - Zostream.init.last ∧ 1 ≤ n := by
  have hfigures : figures (ymdSerialize oneElement (fun _ => ⟨[], []⟩) 2 (.dyay 0)
      ⟨.init, true, fun _ => false⟩) = some (4, 4, true) := by decide +kernel
  obtain ⟨s', hrun, -, hok⟩ := figures_eq hfigures
  have hv : ∀ o, Variable.dyay 0 ≠ .func o := nofun
  refine ⟨4, s', hrun, hok, (serialize_size_iff hrun hok).2 ⟨hv, ?_⟩⟩
  intro h
  obtain ⟨e, he, hscript⟩ := (holdsScript_iff hv).1 h
  obtain rfl : e = .int 1 := List.mem_singleton.1 he
  cases hscript with
  | inside hno _ => cases hno

/-- `func f () {}`, which only returns. -/
def emptyFunc : Heap :=
  (Heap.empty.alloc (.func ⟨some ⟨[asmBuild 15 0 0], [], [], 0⟩,
    [102, 117, 110, 99, 32, 102, 40, 42, 41, 32, 123, 46, 46, 46, 125], 0, [], none⟩)).1

/-- The dump of the function takes 35 bytes and reports 32. -/
theorem serialize_size_func :
    ¬ ∀ (heap : Heap) (debug : Addr → Debug) (depth : Nat) (v : Variable) (s s' : Dump) (n : Nat),
      ymdSerialize heap debug depth v s = .ok n s' → s'.ok = true →
        n = s'.os.last - s.os.last ∧ 1 ≤ n := by
  intro hall
  have hfigures : figures (ymdSerialize emptyFunc (fun _ => ⟨[1], [97, 46, 121, 109, 100]⟩) 1
      (.func 0) ⟨.init, true, fun _ => false⟩) = some (32, 35, true) := by decide +kernel
  obtain ⟨s', hrun, hlast, hok⟩ := figures_eq hfigures
  have hcount := (hall emptyFunc (fun _ => ⟨[1], [97, 46, 121, 109, 100]⟩) 1 (.func 0)
    ⟨.init, true, fun _ => false⟩ s' 32 hrun hok).1
  have hnone : Zostream.init.last = 0 := rfl
  rw [hlast, hnone] at hcount
  cases hcount

end

end

end Ymd
