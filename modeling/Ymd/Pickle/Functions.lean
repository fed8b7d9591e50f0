import Ymd.Pickle.FuncFields
import Ymd.Pickle.RoundTrip

/-! # Dumping functions and parsing them

A string of a function is written with a tag and read without one, so what is
read behind it lags behind what was written. No function comes back from its
dump: the property holds of the functions whose dump fails, because there is
something in them that can not be written.
-/

namespace Ymd

open Foundation

/-! ## The bytes of a dump -/

theorem encode_four : uint32encode (BitVec.ofNat 32 4) = [4] := by decide

namespace Trace

variable {t : Trace}

theorem bytes_append (ht : t.verdict = .finished) (u : Trace) (R : Bytes) :
    bytesOf (t ++ u).fields ++ R = bytesOf t.fields ++ (bytesOf u.fields ++ R) := by
  obtain ⟨fields, verdict⟩ := t
  cases ht
  change bytesOf (fields ++ u.fields) ++ R = _
  rw [bytesOf_append, List.append_assoc]

theorem bytes_field (k : Nat) (z : Bytes) (u : Trace) (R : Bytes) :
    bytesOf (field k z ++ u).fields ++ R = z ++ (bytesOf u.fields ++ R) := by
  rw [bytes_append rfl]
  change z ++ [] ++ _ = _
  rw [List.append_nil]

theorem bytes_count (n : Nat) (u : Trace) (R : Bytes) :
    bytesOf (count n ++ u).fields ++ R =
      uint32encode (BitVec.ofNat 32 n) ++ (bytesOf u.fields ++ R) :=
  bytes_field 5 _ u R

theorem bytes_kstr (z : Bytes) (u : Trace) (R : Bytes) :
    bytesOf (kstr z ++ u).fields ++ R =
      4 :: (uint32encode (BitVec.ofNat 32 z.length) ++ (z ++ (bytesOf u.fields ++ R))) := by
  rw [kstr, append_assoc, bytes_count, append_assoc, bytes_count, bytes_field, encode_four]
  rfl

end Trace

/-! ## What is read behind a tag that is not taken -/

/-- Bytes that were left behind. -/
def fours (k : Nat) : Bytes := List.replicate k 4

theorem fours_cons (k : Nat) (z : Bytes) : fours k ++ 4 :: z = fours (k + 1) ++ z := by
  rw [fours, fours, List.replicate_succ', List.append_assoc]
  rfl

/-- The integer that is read is left over from a string in front. -/
theorem u32_lag {k : Nat} {z rest : Bytes} {x : BitVec 32}
    (hread : U32 (fours (k + 1) ++ z) x rest) : x = 4 ∧ rest = fours k ++ z := by
  cases (show uint32decode (fours (k + 1) ++ z) = some (4, fours k ++ z) from rfl).symm.trans hread
  exact ⟨rfl, rfl⟩

/-- So it is 4, and as many bytes are left over behind it. -/
theorem count_lag {k n : Nat} {R rest : Bytes} {x : BitVec 32}
    (hread : U32 (fours (k + 1) ++ (uint32encode (BitVec.ofNat 32 n) ++ R)) x rest) (hn : n = 4) :
    rest = fours (k + 1) ++ R := by
  obtain ⟨_, rfl⟩ := u32_lag hread
  rw [hn, encode_four]
  exact fours_cons k R

/-- Bytes that are their own prefix behind some fours are fours. -/
theorem eq_fours {k : Nat} {z R : Bytes} (htake : (fours (k + 1) ++ (z ++ R)).take z.length = z) :
    z = fours z.length := by
  apply List.ext_getElem?
  intro i
  induction i using Nat.strong_induction_on with
  | _ i ih =>
      by_cases hi : i < z.length
      · have hshift : z[i]? = (fours (k + 1) ++ (z ++ R))[i]? := by
          conv_lhs => rw [← htake]
          rw [List.getElem?_take, if_pos hi]
        have hfour : (fours z.length)[i]? = some 4 := List.getElem?_replicate_of_lt hi
        rw [hfour]
        by_cases hk : i < k + 1
        · rw [hshift, List.getElem?_append_left (by simpa [fours] using hk)]
          exact List.getElem?_replicate_of_lt hk
        · have hback : i - (k + 1) < z.length := by omega
          rw [hshift, List.getElem?_append_right (by simpa [fours] using hk),
            List.getElem?_append_left (by simpa [fours] using hback)]
          have hbefore := ih (i - (k + 1)) (by omega)
          rw [fours, List.getElem?_replicate_of_lt hback] at hbefore
          simpa [fours] using hbefore
      · rw [List.getElem?_eq_none (not_lt.1 hi), List.getElem?_eq_none]
        rw [fours, List.length_replicate]
        exact not_lt.1 hi

theorem drop_fours {k n : Nat} (R : Bytes) :
    (fours (k + 1) ++ (fours n ++ R)).drop n = fours (k + 1) ++ R := by
  have hswap : fours (k + 1) ++ (fours n ++ R) = fours n ++ (fours (k + 1) ++ R) := by
    simp only [fours, ← List.append_assoc, List.replicate_append_replicate, Nat.add_comm]
  rw [hswap, List.drop_append_of_le_length (by simp [fours])]
  simp [fours]

/-- A string that is read behind fours as it was written. -/
theorem str_lag {k : Nat} {z R rest : Bytes}
    (hread : Str (fours (k + 1) ++ (uint32encode (BitVec.ofNat 32 z.length) ++ (z ++ R))) z rest) :
    rest = fours (k + 1) ++ R := by
  obtain ⟨len, body, hlen, _, hlong, hz, rfl⟩ := hread
  obtain ⟨rfl, rfl⟩ := u32_lag hlen
  have hfour : z.length = 4 := by
    have hlength := congrArg List.length hz
    rw [List.length_take] at hlength
    exact hlength.trans (Nat.min_eq_left (Int.ofNat_le.1 hlong))
  rw [hfour, encode_four] at hz ⊢
  have hbody : ∀ R, fours k ++ ([4] ++ R) = fours (k + 1) ++ R := fours_cons k
  rw [hbody] at hz ⊢
  have hall : z = fours 4 := by
    rw [← hfour]
    apply eq_fours (k := k) (R := R)
    rw [hfour]
    exact hz.symm
  rw [hall]
  exact drop_fours R

theorem lines_lag {k : Nat} {table : List (BitVec 32)} {R rest : Bytes}
    (hread : Lines (fours (k + 1) ++ (bytesOf (Trace.lines table).fields ++ R)) table rest) :
    rest = fours (k + 1) ++ R := by
  induction table with
  | nil => exact hread
  | cons line table ih =>
      obtain ⟨behind, hline, hlater⟩ := hread
      obtain ⟨rfl, rfl⟩ := u32_lag hline
      apply ih
      rw [← fours_cons]
      exact hlater

theorem names_lag {k : Nat} {lz : List Bytes} {R rest : Bytes}
    (hread : Names (fours (k + 1) ++ (bytesOf (Trace.names lz).fields ++ R)) lz rest) :
    rest = fours (k + 1 + lz.length) ++ R := by
  induction lz generalizing k with
  | nil => exact hread
  | cons name lz ih =>
      obtain ⟨behind, hname, hlater⟩ := hread
      have hwritten : fours (k + 1) ++ (bytesOf (Trace.names (name :: lz)).fields ++ R) =
          fours (k + 1 + 1) ++ (uint32encode (BitVec.ofNat 32 name.length) ++
            (name ++ (bytesOf (Trace.names lz).fields ++ R))) := by
        rw [← fours_cons (k + 1)]
        exact congrArg (fours (k + 1) ++ ·) (Trace.bytes_kstr name _ R)
      rw [hwritten] at hname
      rw [str_lag hname] at hlater
      rw [ih hlater, List.length_cons, Nat.add_assoc (k + 1), Nat.add_comm 1]

section

variable {heap heap' : Heap} {debug debug' : Addr → Debug} {env : Env} {d depth depth' : Nat}
  {lo : Addr} {marked : Addr → Bool}

/-- A value that is the same as a string is that string. -/
theorem Same.kstr {v : Variable} {z : Bytes}
    (hsame : Same heap debug heap' debug' lo d v (.kstr z)) : v = .kstr z := by
  cases d with
  | zero => exact hsame.elim
  | succ d =>
      cases v with
      | kstr z' => exact congrArg _ hsame
      | _ => exact hsame.elim

theorem item_lag {k : Nat} {m m' : Mem} {z rest : Bytes} {a : Int}
    (hdone : Format.item env depth' m (fours (k + 1) ++ z) = .ok (.done a m' rest)) :
    ∃ s, Str (fours k ++ z) s rest ∧ m'.l.stk = .kstr s :: m.l.stk := by
  obtain ⟨s, hs, rfl⟩ := Format.item_kstr hdone
  exact ⟨s, hs, rfl⟩

/-- The tag of the first value is left over, so the values are strings. -/
theorem readings_lag {k : Nat} {vs ws : List Variable} {R rest : Bytes}
    (hfinished : (Trace.all (walk heap debug depth marked) vs).verdict = .finished)
    (hread : Readings env depth'
      (fours (k + 1) ++ (bytesOf (Trace.all (walk heap debug depth marked) vs).fields ++ R)) ws rest)
    (hsame : vs.Forall₂ (Same heap debug heap' debug' lo d) ws) : rest = fours (k + 1) ++ R := by
  induction hsame with
  | nil => exact hread
  | @cons v w vs ws hfirst _ ih =>
      obtain ⟨behind, ⟨a, m, m', hitem, hstk⟩, hlater⟩ := hread
      obtain ⟨hwalk, hall⟩ := Trace.append_finished.1 hfinished
      obtain ⟨z, hz, hstk'⟩ := item_lag hitem
      cases hstk.symm.trans hstk'
      obtain rfl := hfirst.kstr
      have hstring : walk heap debug depth marked (.kstr z) = Trace.kstr z := by
        cases depth with
        | zero => cases hwalk
        | succ depth => rfl
      rw [Trace.all, hstring, Trace.bytes_kstr, fours_cons] at hz
      rw [str_lag hz] at hlater
      exact ih hall hlater

/-! ## The chunk -/

theorem inst_of_bytes (b0 b1 b2 b3 : UInt8) :
    Inst.bytes (b3.toBitVec ++ b2.toBitVec ++ b1.toBitVec ++ b0.toBitVec) = [b0, b1, b2, b3] := by
  have hbyte : ∀ (x : BitVec 8) (b : UInt8), x = b.toBitVec → UInt8.ofBitVec x = b := by
    rintro _ b rfl
    rfl
  simp only [Inst.bytes, List.cons.injEq, and_true]
  refine ⟨hbyte _ _ ?_, hbyte _ _ ?_, hbyte _ _ ?_, hbyte _ _ ?_⟩
  all_goals
    apply BitVec.eq_of_getLsbD_eq
    intro i hi
    simp only [BitVec.getLsbD_extractLsb', BitVec.getLsbD_append]
    grind

theorem bytes_instWords {k : Nat} {z : Bytes} (hz : z.length = 4 * k) :
    (instWords k z).flatMap Inst.bytes = z := by
  induction k generalizing z with
  | zero => exact (List.length_eq_zero_iff.1 hz).symm
  | succ k ih =>
      match z, hz with
      | b0 :: b1 :: b2 :: b3 :: z, hz =>
          rw [instWords, List.flatMap_cons, inst_of_bytes, ih (by simp at hz; omega)]
          rfl

theorem length_instWords (k : Nat) (z : Bytes) : (instWords k z).length = k := by
  induction k generalizing z with
  | zero => rfl
  | succ k ih =>
      match z with
      | b0 :: b1 :: b2 :: b3 :: z => exact congrArg (· + 1) (ih z)
      | [] => exact congrArg (· + 1) (ih [])
      | [_] => exact congrArg (· + 1) (ih [])
      | [_, _] => exact congrArg (· + 1) (ih [])
      | [_, _, _] => exact congrArg (· + 1) (ih [])

/-- Instructions that are read behind fours as they were written. -/
theorem inst_lag {k : Nat} {insts : List Inst} {R : Bytes}
    (hroom : 16 ≤ (fours (k + 1) ++ (insts.flatMap Inst.bytes ++ R)).length)
    (hwords : insts = instWords 4 ((fours (k + 1) ++ (insts.flatMap Inst.bytes ++ R)).take 16)) :
    (fours (k + 1) ++ (insts.flatMap Inst.bytes ++ R)).drop 16 = fours (k + 1) ++ R := by
  generalize hz : insts.flatMap Inst.bytes = z at hroom hwords ⊢
  have hlength : ((fours (k + 1) ++ (z ++ R)).take 16).length = 16 := by
    rw [List.length_take, Nat.min_eq_left hroom]
  have hprefix : z = (fours (k + 1) ++ (z ++ R)).take 16 := by
    rw [← bytes_instWords (k := 4) hlength, ← hwords, hz]
  have hsize : z.length = 16 := (congrArg List.length hprefix).trans hlength
  have hfours : z = fours 16 := by
    rw [← hsize]
    apply eq_fours (k := k) (R := R)
    rw [hsize]
    exact hprefix.symm
  rw [hfours]
  exact drop_fours R

theorem bytes_chunk {walk : Variable → Trace} {core : Chunk} {debug : Debug}
    (hfinished : (Trace.chunk walk core debug).verdict = .finished) (R : Bytes) :
    (Trace.all walk core.kval).verdict = .finished ∧
    bytesOf (Trace.chunk walk core debug).fields ++ R =
      uint32encode (BitVec.ofNat 32 core.kinst) ++ (core.inst.flatMap Inst.bytes ++
        (bytesOf (Trace.lines (debug.line.take core.kinst)).fields ++
          (uint32encode (BitVec.ofNat 32 core.kkval) ++
            (bytesOf (Trace.all walk core.kval).fields ++
              (uint32encode (BitVec.ofNat 32 core.klz) ++ (bytesOf (Trace.names core.lz).fields ++
                (4 :: (uint32encode (BitVec.ofNat 32 debug.file.length) ++ (debug.file ++
                  (uint32encode (BitVec.ofNat 32 core.kargs) ++ R)))))))))) := by
  rw [Trace.chunk] at hfinished ⊢
  split at hfinished
  next => cases hfinished
  next hsmall =>
    rw [if_neg hsmall]
    split at hfinished
    next => cases hfinished
    next hline =>
      rw [if_neg hline]
      obtain ⟨_, hbehind⟩ := Trace.append_finished.1 hfinished
      obtain ⟨_, hbehind⟩ := Trace.append_finished.1 hbehind
      obtain ⟨hlines, hbehind⟩ := Trace.append_finished.1 hbehind
      obtain ⟨_, hbehind⟩ := Trace.append_finished.1 hbehind
      obtain ⟨hkval, hbehind⟩ := Trace.append_finished.1 hbehind
      obtain ⟨_, hbehind⟩ := Trace.append_finished.1 hbehind
      obtain ⟨hnames, _⟩ := Trace.append_finished.1 hbehind
      refine ⟨hkval, ?_⟩
      rw [Trace.bytes_count, Trace.bytes_field, Trace.bytes_append hlines, Trace.bytes_count,
        Trace.bytes_append hkval, Trace.bytes_count, Trace.bytes_append hnames, Trace.bytes_kstr,
        ← Trace.append_done (Trace.count core.kargs), Trace.bytes_count]
      rfl

theorem bytes_func {walk : Variable → Trace} {fn : Func} {core : Chunk} {debug : Debug}
    (hcore : fn.core = some core) (hfinished : (Trace.func walk fn debug).verdict = .finished)
    (R : Bytes) :
    (Trace.all walk (fn.bind.take fn.nBind)).verdict = .finished ∧
    (Trace.chunk walk core debug).verdict = .finished ∧
    bytesOf (Trace.func walk fn debug).fields ++ R =
      uint32encode (BitVec.ofNat 32 5) ++ (4 :: (uint32encode (BitVec.ofNat 32 fn.proto.length) ++
        (fn.proto ++ (uint32encode (BitVec.ofNat 32 fn.nBind) ++
          (bytesOf (Trace.all walk (fn.bind.take fn.nBind)).fields ++
            (bytesOf (Trace.chunk walk core debug).fields ++ R)))))) := by
  simp only [Trace.func, hcore] at hfinished ⊢
  split at hfinished
  next => cases hfinished
  next hbind =>
    rw [if_neg hbind]
    obtain ⟨_, hbehind⟩ := Trace.append_finished.1 hfinished
    obtain ⟨_, hbehind⟩ := Trace.append_finished.1 hbehind
    obtain ⟨_, hbehind⟩ := Trace.append_finished.1 hbehind
    obtain ⟨hall, hchunk⟩ := Trace.append_finished.1 hbehind
    refine ⟨hall, hchunk, ?_⟩
    rw [Trace.bytes_count, Trace.bytes_kstr, Trace.bytes_count, Trace.bytes_append hall]

/-- The sections of a chunk that is read as it was written are all misread alike. -/
theorem chunk_lag {k : Nat} {core core' : Chunk} {table table' : Debug} {R rest : Bytes}
    (hfinished : (Trace.chunk (walk heap debug depth marked) core table).verdict = .finished)
    (hread : ReadsChunk env depth' core' table' rest (fours (k + 1) ++
      (bytesOf (Trace.chunk (walk heap debug depth marked) core table).fields ++ R)))
    (hinst : core.inst = core'.inst)
    (hline : table.line.take core.kinst = table'.line.take core'.kinst)
    (hkval : core.kval.Forall₂ (Same heap debug heap' debug' lo d) core'.kval)
    (hlz : core.lz = core'.lz) (hfile : table.file = table'.file)
    (hkargs : core.kargs = core'.kargs) : rest = fours (k + 6) ++ R := by
  obtain ⟨hall, hbytes⟩ := bytes_chunk hfinished R
  rw [hbytes] at hread
  obtain ⟨k₁, first, lines, hk₁, _, _, hroom, hwords, hlength, hlines, hconsts⟩ := hread
  obtain ⟨rfl, _⟩ := u32_lag hk₁
  change core'.inst = instWords 4 (first.take 16) at hwords
  change table'.line.length = 4 at hlength
  change 16 ≤ first.length at hroom
  change Lines (first.drop 16) table'.line lines at hlines
  have hkinst' : core'.kinst = 4 := (congrArg List.length hwords).trans (length_instWords _ _)
  have hkinst : core.kinst = 4 := (congrArg List.length hinst).trans hkinst'
  obtain rfl := count_lag hk₁ hkinst
  rw [← hinst] at hwords
  rw [inst_lag hroom hwords] at hlines
  have hlineAll : table.line.take core.kinst = table'.line := by
    rw [hline, hkinst', ← hlength, List.take_length]
  rw [hlineAll] at hlines
  obtain rfl := lines_lag hlines
  obtain ⟨k₂, second, locals, vals, hk₂, hvals, hreadings, hkval', hlocals⟩ := hconsts
  obtain ⟨rfl, _⟩ := u32_lag hk₂
  change vals.length = 4 at hvals
  change core'.kval = vals.take 4 at hkval'
  rw [← hvals, List.take_length] at hkval'
  subst hkval'
  obtain rfl := count_lag hk₂ (hkval.length_eq.trans hvals)
  obtain rfl := readings_lag hall hreadings hkval
  obtain ⟨k₃, third, names, hk₃, hklz, hnames, file, kargs, hstr, hlast, hargs⟩ := hlocals
  obtain ⟨rfl, _⟩ := u32_lag hk₃
  change core'.lz.length = 4 at hklz
  obtain rfl := count_lag hk₃ ((congrArg List.length hlz).trans hklz)
  rw [hlz] at hnames
  obtain rfl := names_lag hnames
  rw [hklz, fours_cons, hfile] at hstr
  obtain rfl := str_lag hstr
  obtain ⟨rfl, _⟩ := u32_lag hlast
  exact count_lag hlast (hkargs.trans hargs)

/-- What is left behind a function that is read as it was written. -/
theorem func_lag {a : Int} {o : Addr} {fn : Func} {core : Chunk} {m m' : Mem} {w : Variable}
    {R rest : Bytes} (hobj : heap.obj o = some (.func fn)) (hcore : fn.core = some core)
    (hfinished : (walk heap debug depth marked (.func o)).verdict = .finished)
    (hdepth : maxStack < depth')
    (hdone : Format.item env depth' m
      (bytesOf (walk heap debug depth marked (.func o)).fields ++ R) = .ok (.done a m' rest))
    (hstk : m'.l.stk = w :: m.l.stk)
    (hsame : Same heap debug m'.l.heap m'.debug lo d (.func o) w) : rest = fours 6 ++ R := by
  cases depth with
  | zero => cases hfinished
  | succ depth =>
      have hwalk : walk heap debug (depth + 1) marked (.func o) =
          Trace.func (walk heap debug depth marked) fn (debug o) := by
        simp only [walk, Heap.func_eq_ok.2 hobj]
        rfl
      rw [hwalk] at hfinished hdone
      obtain ⟨hall, hchunk, hbytes⟩ := bytes_func hcore hfinished R
      rw [hbytes] at hdone
      cases depth' with
      | zero => cases hdone
      | succ depth' =>
          obtain ⟨o', fn', core', table', hstk', hholds, hread⟩ :=
            Format.func_done (by omega) (Format.sized_done hdone).2
          cases hstk.symm.trans hstk'
          cases d with
          | zero => exact hsame.elim
          | succ d =>
              obtain ⟨_, fn₁, fn₂, core₁, core₂, hobj₁, hobj₂, hcore₁, hcore₂, hproto, hn, hbind,
                hinst, hline, hkval, hlz, hfile, hkargs⟩ := hsame
              cases hobj.symm.trans hobj₁
              cases hcore.symm.trans hcore₁
              cases hholds.obj.symm.trans hobj₂
              cases hcore₂
              rw [hholds.debug] at hline hfile
              obtain ⟨proto, nBind, first, behind, hstr, hcount, hnBind, hlength, hreadings, hrest⟩ :=
                hread
              change fn.proto = fn'.proto at hproto
              change fn.nBind = fn'.nBind at hn
              rw [← hproto] at hstr
              obtain rfl := str_lag (k := 0) hstr
              obtain ⟨rfl, _⟩ := u32_lag hcount
              obtain rfl := count_lag hcount (hn.trans hnBind)
              obtain rfl := readings_lag hall hreadings hbind
              exact chunk_lag hchunk hrest hinst hline hkval hlz hfile hkargs

/-- No function that is dumped in full comes back. -/
theorem not_parsesTo_func {o : Addr} {mem : Mem} {rest : Bytes}
    (hfinished : (walk heap debug depth marked (.func o)).verdict = .finished)
    (hdepth : maxStack < depth') : ¬ ParsesTo heap debug d (.func o) env depth' mem
      (bytesOf (walk heap debug depth marked (.func o)).fields) rest := by
  rintro ⟨k, t, w, hparse, hok, hforward, hlast, hstk, hsame⟩
  generalize hz : bytesOf (walk heap debug depth marked (.func o)).fields = z at *
  have hmatch := parse_matches env depth' (z ++ rest) mem
  rw [hparse] at hmatch
  cases hitem : Format.item env depth' mem (z ++ rest) with
  | error defect =>
      rw [hitem] at hmatch
      exact hmatch.off hforward
  | ok out =>
      rw [hitem] at hmatch
      cases out with
      | done a mem' rest' =>
          obtain ⟨_, hsame', rfl, rfl, _⟩ := hmatch
          cases hsame'
          cases d with
          | zero => exact hsame.elim
          | succ d =>
              cases w with
              | func o' =>
                  have hfunc := hsame
                  obtain ⟨_, fn, _, core, _, hobj, _, hcore, _⟩ := hfunc
                  rw [← hz] at hitem
                  have hlag := func_lag hobj hcore hfinished hdepth hitem hstk hsame
                  have hrest : Load.rest (z ++ rest) t = rest := by
                    rw [Load.rest, hlast]
                    exact List.drop_left
                  rw [hz, hrest] at hlag
                  have hlength := congrArg List.length hlag
                  rw [List.length_append] at hlength
                  change rest.length = 6 + rest.length at hlength
                  omega
              | _ => exact hsame.elim
      | rejected pending mem' =>
          obtain ⟨_, _, hsame', _, hfalse, _⟩ := hmatch
          cases hsame'
          rw [hok] at hfalse
          cases hfalse
      | panicked msg mem' =>
          obtain ⟨_, hsame', _⟩ := hmatch
          cases hsame'

end

/-! ## What can not be written -/

/-- What a value is made of: the elements of a container, the bound values and
the constants of a function. -/
def Heap.held (heap : Heap) : Variable → List Variable
  | .func o =>
      match heap.obj o with
      | some (.func fn) =>
          match fn.core with
          | some core => fn.bind.take fn.nBind ++ core.kval
          | none => []
      | _ => []
  | v => heap.parts v

/-- The marks inside a value. -/
def markedInside (marked : Addr → Bool) (v : Variable) : Addr → Bool :=
  match v.container with
  | some o => Function.update marked o true
  | none => marked

/-- There is something in the value that can not be written: an external
pointer, managed memory, or a container that is marked, such as one inside
itself. -/
inductive Unwritable (heap : Heap) : (marked : Addr → Bool) → Variable → Prop
  | ext (marked : Addr → Bool) (p : BitVec 64) : Unwritable heap marked (.ext p)
  | mand (marked : Addr → Bool) (o : Addr) : Unwritable heap marked (.mand o)
  | marked {marked : Addr → Bool} {v : Variable} {o : Addr} (hv : v.container = some o)
      (ho : marked o = true) : Unwritable heap marked v
  | inside {marked : Addr → Bool} {v e : Variable} (he : e ∈ heap.held v)
      (hin : Unwritable heap (markedInside marked v) e) : Unwritable heap marked v

section

variable {heap : Heap} {debug : Addr → Debug} {depth : Nat} {marked marked' : Addr → Bool}
  {v : Variable}

theorem markedInside_mono (hle : ∀ o, marked o = true → marked' o = true) (v : Variable) (o : Addr)
    (ho : markedInside marked v o = true) : markedInside marked' v o = true := by
  unfold markedInside at ho ⊢
  cases hv : v.container with
  | none =>
      rw [hv] at ho
      exact hle o ho
  | some o' =>
      rw [hv] at ho
      by_cases heq : o = o'
      · exact heq ▸ Function.update_self _ _ _
      · exact (Function.update_of_ne heq _ _).trans (hle o
          ((Function.update_of_ne heq _ _).symm.trans ho))

theorem Unwritable.mono (hun : Unwritable heap marked v)
    (hle : ∀ o, marked o = true → marked' o = true) : Unwritable heap marked' v := by
  induction hun generalizing marked' with
  | ext marked p => exact .ext marked' p
  | mand marked o => exact .mand marked' o
  | marked hv ho => exact .marked hv (hle _ ho)
  | inside he _ ih => exact .inside he (ih (markedInside_mono hle _))

namespace Trace

theorem append_refused {t u : Trace} (h : (t ++ u).verdict = .refused) :
    t.verdict = .refused ∨ u.verdict = .refused := by
  obtain ⟨fields, verdict⟩ := t
  cases verdict with
  | finished => exact .inr h
  | refused => exact .inl rfl
  | stuck f => cases h

theorem all_refused {walk : Variable → Trace} {vs : List Variable}
    (h : (all walk vs).verdict = .refused) : ∃ e ∈ vs, (walk e).verdict = .refused := by
  induction vs with
  | nil => cases h
  | cons v vs ih =>
      obtain hfirst | hlater := append_refused h
      · exact ⟨v, List.mem_cons_self, hfirst⟩
      · obtain ⟨e, he, hrefused⟩ := ih hlater
        exact ⟨e, List.mem_cons_of_mem _ he, hrefused⟩

theorem chunk_refused {walk : Variable → Trace} {core : Chunk} {debug : Debug}
    (h : (chunk walk core debug).verdict = .refused) :
    ∃ e ∈ core.kval, (walk e).verdict = .refused := by
  obtain h | h := append_refused h
  · cases h
  split at h
  · cases h
  obtain h | h := append_refused h
  · cases h
  split at h
  · cases h
  obtain h | h := append_refused h
  · rw [Follows.verdict_lines] at h
    cases h
  obtain h | h := append_refused h
  · cases h
  obtain h | h := append_refused h
  · exact all_refused h
  obtain h | h := append_refused h
  · cases h
  obtain h | h := append_refused h
  · rw [Follows.verdict_names] at h
    cases h
  · cases h

theorem func_refused {walk : Variable → Trace} {fn : Func} {core : Chunk} {debug : Debug}
    (hcore : fn.core = some core) (h : (func walk fn debug).verdict = .refused) :
    ∃ e ∈ fn.bind.take fn.nBind ++ core.kval, (walk e).verdict = .refused := by
  simp only [func, hcore] at h
  obtain h | h := append_refused h
  · cases h
  obtain h | h := append_refused h
  · cases h
  obtain h | h := append_refused h
  · cases h
  split at h
  · cases h
  obtain h | h := append_refused h
  · obtain ⟨e, he, hrefused⟩ := all_refused h
    exact ⟨e, List.mem_append_left _ he, hrefused⟩
  · obtain ⟨e, he, hrefused⟩ := chunk_refused h
    exact ⟨e, List.mem_append_right _ he, hrefused⟩

end Trace

/-- A container whose dump ends without a fault. -/
theorem walk_container {o : Addr} (hv : v.container = some o)
    (hend : ∀ f, (walk heap debug (depth + 1) marked v).verdict ≠ .stuck f) :
    ∃ tt n, walk heap debug (depth + 1) marked v = if marked o then .refuse
      else .container (walk heap debug depth (markedInside marked v)) tt (.ok (n, heap.held v)) := by
  cases v with
  | dyay o' =>
      cases hv
      cases hobj : heap.dyay o with
      | error f => exact absurd (by simp only [walk, hobj]; rfl) (hend f)
      | ok elem =>
          refine ⟨6, elem.length, ?_⟩
          simp only [walk, hobj, Heap.held, Heap.parts, Heap.dyay_eq_ok.1 hobj]
          rfl
  | hmap o' =>
      cases hv
      cases hobj : heap.hmap o with
      | error f => exact absurd (by simp only [walk, hobj]; rfl) (hend f)
      | ok map =>
          refine ⟨7, map.slots.length, ?_⟩
          simp only [walk, hobj, Heap.held, Heap.parts, Heap.hmap_eq_ok.1 hobj]
          rfl
  | skls o' =>
      cases hv
      cases hobj : heap.skls o with
      | error f => exact absurd (by simp only [walk, hobj]; rfl) (hend f)
      | ok list =>
          cases hpairs : list.traverse with
          | ok pairs =>
              refine ⟨8, pairs.length, ?_⟩
              simp only [walk, hobj, Heap.held, Heap.parts, Heap.skls_eq_ok.1 hobj, hpairs]
              change (if marked o = true then _ else Trace.container _ 8
                (list.traverse >>= fun pairs => pure (pairs.length, flatPairs pairs))) = _
              rw [hpairs]
              rfl
          | error f =>
              refine ⟨8, 0, ?_⟩
              by_cases hmarked : marked o = true
              · simp only [walk, hobj]
                exact (if_pos hmarked).trans (if_pos hmarked).symm
              · refine absurd ?_ (hend f)
                simp only [walk, hobj]
                change (if marked o = true then Trace.refuse else Trace.container _ 8
                  (list.traverse >>= fun pairs => pure (pairs.length, flatPairs pairs))).verdict = _
                rw [if_neg hmarked, hpairs]
                rfl
  | _ => cases hv

/-- What a dump refuses can not be written. -/
theorem unwritable_of_refused (hrefused : (walk heap debug depth marked v).verdict = .refused) :
    Unwritable heap marked v := by
  induction depth generalizing marked v with
  | zero => cases hrefused
  | succ depth ih =>
      cases hv : v.container with
      | some o =>
          obtain ⟨tt, n, hwalk⟩ := walk_container hv (fun f hf => by cases hrefused.symm.trans hf)
          rw [hwalk] at hrefused
          by_cases hmarked : marked o = true
          · exact .marked hv hmarked
          · rw [if_neg hmarked] at hrefused
            obtain h | h := Trace.append_refused hrefused
            · cases h
            obtain h | h := Trace.append_refused h
            · cases h
            obtain ⟨e, he, hin⟩ := Trace.all_refused h
            exact .inside he (ih hin)
      | none =>
          cases v with
          | func o =>
              cases hobj : heap.func o with
              | error f =>
                  simp only [walk, hobj] at hrefused
                  cases hrefused
              | ok fn =>
                  simp only [walk, hobj] at hrefused
                  change (Trace.func _ fn _).verdict = _ at hrefused
                  cases hcore : fn.core with
                  | none =>
                      simp only [Trace.func, hcore] at hrefused
                      cases hrefused
                  | some core =>
                      obtain ⟨e, he, hin⟩ := Trace.func_refused hcore hrefused
                      have hheld : heap.held (.func o) = fn.bind.take fn.nBind ++ core.kval := by
                        simp only [Heap.held, Heap.func_eq_ok.1 hobj, hcore]
                      exact .inside (hheld ▸ he) (ih hin)
          | ext p => exact .ext marked p
          | mand o => exact .mand marked o
          | dyay o => cases hv
          | hmap o => cases hv
          | skls o => cases hv
          | _ => cases hrefused

/-- What is inside a value that is dumped in full is dumped in full. -/
theorem finished_inside {e : Variable}
    (hfinished : (walk heap debug (depth + 1) marked v).verdict = .finished)
    (he : e ∈ heap.held v) :
    (walk heap debug depth (markedInside marked v) e).verdict = .finished := by
  cases hv : v.container with
  | some o =>
      obtain ⟨tt, n, hwalk⟩ := walk_container hv (fun f hf => by cases hfinished.symm.trans hf)
      rw [hwalk] at hfinished
      by_cases hmarked : marked o = true
      · rw [if_pos hmarked] at hfinished
        cases hfinished
      · rw [if_neg hmarked] at hfinished
        obtain ⟨_, hbehind⟩ := Trace.append_finished.1 hfinished
        obtain ⟨_, hall⟩ := Trace.append_finished.1 hbehind
        exact finished_of_all hall e he
  | none =>
      cases v with
      | func o =>
          cases hobj : heap.func o with
          | error f =>
              simp only [walk, hobj] at hfinished
              cases hfinished
          | ok fn =>
              simp only [walk, hobj] at hfinished
              simp only [Heap.held, Heap.func_eq_ok.1 hobj] at he
              cases hcore : fn.core with
              | none =>
                  rw [hcore] at he
                  exact absurd he List.not_mem_nil
              | some core =>
                  rw [hcore] at he
                  obtain ⟨hbinds, hchunk, _⟩ := bytes_func hcore hfinished []
                  obtain he | he := List.mem_append.1 he
                  · exact finished_of_all hbinds e he
                  · exact finished_of_all (bytes_chunk hchunk []).1 e he
      | dyay o => cases hv
      | hmap o => cases hv
      | skls o => cases hv
      | _ => exact absurd he List.not_mem_nil

/-- What is dumped in full can be written. -/
theorem Unwritable.not_finished (hun : Unwritable heap marked v) :
    (walk heap debug depth marked v).verdict ≠ .finished := by
  induction hun generalizing depth with
  | ext marked p => cases depth <;> nofun
  | mand marked o => cases depth <;> nofun
  | @marked marked v o hv ho =>
      intro hfinished
      cases depth with
      | zero => cases hfinished
      | succ depth =>
          obtain ⟨tt, n, hwalk⟩ := walk_container hv (fun f hf => by cases hfinished.symm.trans hf)
          rw [hwalk, if_pos ho] at hfinished
          cases hfinished
  | inside he _ ih =>
      intro hfinished
      cases depth with
      | zero => cases hfinished
      | succ depth => exact ih (finished_inside hfinished he)

/-- Nor is a value around it dumped in full. -/
theorem Unwritable.around {u : Variable} (hun : Unwritable heap marked u)
    (hin : Relation.ReflTransGen (fun v e => e ∈ heap.held v) v u) : Unwritable heap marked v := by
  induction hin using Relation.ReflTransGen.head_induction_on with
  | refl => exact hun
  | @head v e he _ ih =>
      apply Unwritable.inside he
      apply ih.mono
      intro o ho
      unfold markedInside
      cases v.container with
      | none => exact ho
      | some o' =>
          by_cases heq : o = o'
          · exact heq ▸ Function.update_self _ _ _
          · exact (Function.update_of_ne heq _ _).trans ho

/-- A dump from the state ends without a fault. -/
structure Unhindered (heap : Heap) (debug : Addr → Debug) (depth : Nat) (v : Variable) (s : Dump) :
    Prop where
  ends : ∀ f, (walk heap debug depth s.entered v).verdict ≠ .stuck f
  fits : ∃ os, s.os.writeAll (walk heap debug depth s.entered v).fields = .ok os

variable {env : Env} {depth' : Nat} {mem : Mem} {rest : Bytes} {s : Dump} {o : Addr}

/-- Dumping the value reports a failure, or the bytes it writes, in front of the
rest, parse to the same value. -/
def ComesBack (heap : Heap) (debug : Addr → Debug) (depth : Nat) (env : Env) (depth' : Nat)
    (mem : Mem) (rest : Bytes) (s : Dump) (v : Variable) : Prop :=
  ∃ n s', ymdSerialize heap debug depth v s = .ok n s' ∧ (s'.ok = false ∨
    ∃ z d, s'.os.buf = s.os.buf ++ z ∧ ParsesTo heap debug d v env depth' mem z rest)

/-- The function comes back on its own, and so does every value around it that
can be dumped. -/
def FuncComesBack (heap : Heap) (debug : Addr → Debug) (depth : Nat) (env : Env) (depth' : Nat)
    (mem : Mem) (rest : Bytes) (s : Dump) (o : Addr) : Prop :=
  ComesBack heap debug depth env depth' mem rest s (.func o) ∧
    ∀ v depth₁ n s', Relation.ReflTransGen (fun v e => e ∈ heap.held v) v (.func o) →
      ymdSerialize heap debug depth₁ v s = .ok n s' →
      ComesBack heap debug depth₁ env depth' mem rest s v

theorem Zostream.buf_write {os os' : Zostream} {k : Nat} {z : Bytes}
    (hwrite : os.write k z = .ok os') : os'.buf = os.buf ++ z := by
  have hfill : ∀ max, Zostream.fill { os with max := max } z = .ok os' → os'.buf = os.buf ++ z := by
    intro max hfill
    unfold fill at hfill
    split at hfill
    · cases hfill
      rfl
    · cases hfill
  unfold write reserved at hwrite
  split at hwrite
  · exact hfill _ hwrite
  split at hwrite
  · exact hfill _ hwrite
  split at hwrite
  · exact hfill _ hwrite
  · cases hwrite

theorem Zostream.buf_writeAll {os os' : Zostream} {fields : List Field}
    (hwrite : os.writeAll fields = .ok os') : os'.buf = os.buf ++ bytesOf fields := by
  induction fields generalizing os with
  | nil =>
      cases hwrite
      exact (List.append_nil _).symm
  | cons f fields ih =>
      cases hfirst : os.write f.reserve f.bytes with
      | error e =>
          simp only [writeAll, hfirst] at hwrite
          cases hwrite
      | ok os₁ =>
          simp only [writeAll, hfirst] at hwrite
          have hlater := ih hwrite
          rw [buf_write hfirst, List.append_assoc] at hlater
          exact hlater

/-- A dump that returns has met no fault, and reports a failure if it refused
the value. -/
theorem dump_returns {n : Nat} {s' : Dump} (hok : s.ok = true)
    (hrun : ymdSerialize heap debug depth v s = .ok n s') :
    Unhindered heap debug depth v s ∧
      ((walk heap debug depth s.entered v).verdict = .refused ∧ s'.ok = false ∨
        (walk heap debug depth s.entered v).verdict = .finished ∧ s'.ok = true ∧
          s'.os.buf = s.os.buf ++ bytesOf (walk heap debug depth s.entered v).fields) := by
  have hfollows := serialize_follows heap debug depth s.entered v s hok rfl
  rw [hrun] at hfollows
  cases hwrite : s.os.writeAll (walk heap debug depth s.entered v).fields with
  | error f =>
      rw [hwrite] at hfollows
      obtain ⟨_, herror⟩ := hfollows
      cases herror
  | ok os =>
      rw [hwrite] at hfollows
      cases hverdict : (walk heap debug depth s.entered v).verdict with
      | finished =>
          rw [hverdict] at hfollows
          obtain ⟨_, hsame⟩ := hfollows
          cases hsame
          exact ⟨⟨fun f hf => (by cases hverdict.symm.trans hf), os, hwrite⟩,
            .inr ⟨rfl, rfl, Zostream.buf_writeAll hwrite⟩⟩
      | refused =>
          rw [hverdict] at hfollows
          obtain ⟨_, _, hsame, hfalse⟩ := hfollows
          cases hsame
          exact ⟨⟨fun f hf => (by cases hverdict.symm.trans hf), os, hwrite⟩, .inl ⟨rfl, hfalse⟩⟩
      | stuck f =>
          rw [hverdict] at hfollows
          obtain ⟨_, herror⟩ := hfollows
          cases herror

/-- A dump that meets no fault returns. -/
theorem Unhindered.returns (hun : Unhindered heap debug depth v s) (hok : s.ok = true) :
    ∃ n s', ymdSerialize heap debug depth v s = .ok n s' := by
  have hfollows := serialize_follows heap debug depth s.entered v s hok rfl
  obtain ⟨hwalk, os, hwrite⟩ := hun
  rw [hwrite] at hfollows
  cases hverdict : (walk heap debug depth s.entered v).verdict with
  | finished =>
      rw [hverdict] at hfollows
      obtain ⟨n, hrun⟩ := hfollows
      exact ⟨n, _, hrun⟩
  | refused =>
      rw [hverdict] at hfollows
      obtain ⟨n, s', hrun, _⟩ := hfollows
      exact ⟨n, s', hrun⟩
  | stuck f => exact absurd hverdict (hwalk f)

/-- A dump of a value with something in it that can not be written reports a
failure. -/
theorem Unwritable.comesBack {n : Nat} {s' : Dump} (hun : Unwritable heap s.entered v)
    (hok : s.ok = true) (hrun : ymdSerialize heap debug depth v s = .ok n s') :
    ComesBack heap debug depth env depth' mem rest s v := by
  obtain ⟨_, ⟨_, hfalse⟩ | ⟨hfinished, _⟩⟩ := dump_returns hok hrun
  · exact ⟨n, s', hrun, .inl hfalse⟩
  · exact absurd hfinished hun.not_finished

theorem not_comesBack_of_finished (hok : s.ok = true) (hdepth : maxStack < depth')
    (hfinished : (walk heap debug depth s.entered (.func o)).verdict = .finished) :
    ¬ ComesBack heap debug depth env depth' mem rest s (.func o) := by
  rintro ⟨n, s', hrun, hres⟩
  obtain ⟨_, ⟨hrefused, _⟩ | ⟨_, htrue, hbuf⟩⟩ := dump_returns hok hrun
  · cases hfinished.symm.trans hrefused
  · obtain hfalse | ⟨z, d, hbuf', hparse⟩ := hres
    · rw [htrue] at hfalse
      cases hfalse
    · obtain rfl := List.append_cancel_left (hbuf'.symm.trans hbuf)
      exact not_parsesTo_func hfinished hdepth hparse

/-- A function comes back exactly when its dump fails, because there is
something in it that can not be written. -/
theorem func_comes_back_iff (hok : s.ok = true) (hdepth : maxStack < depth') :
    FuncComesBack heap debug depth env depth' mem rest s o ↔
      Unwritable heap s.entered (.func o) ∧ Unhindered heap debug depth (.func o) s := by
  constructor
  · rintro ⟨hback, _⟩
    obtain ⟨n, s', hrun, _⟩ := id hback
    obtain ⟨hun, ⟨hrefused, _⟩ | ⟨hfinished, _⟩⟩ := dump_returns hok hrun
    · exact ⟨unwritable_of_refused hrefused, hun⟩
    · exact absurd hback (not_comesBack_of_finished hok hdepth hfinished)
  · rintro ⟨hunwritable, hun⟩
    obtain ⟨n, s', hrun⟩ := hun.returns hok
    refine ⟨hunwritable.comesBack hok hrun, fun v depth₁ n s' hin hrun => ?_⟩
    exact (hunwritable.around hin).comesBack hok hrun

/-- A function that returns nil, and one that has an external pointer bound. -/
def twoFuncs : Heap :=
  ((Heap.empty.alloc (.func ⟨some ⟨[asmBuild Opcode.ret.code 0 0], [], [], 0⟩, [102], 0, [],
    none⟩)).1.alloc (.func ⟨some ⟨[asmBuild Opcode.ret.code 0 0], [], [], 0⟩, [102], 1, [.ext 8],
    none⟩)).1

theorem func_comes_back_ext : FuncComesBack twoFuncs (fun _ => ⟨[1], []⟩) 2
    ⟨0, fun _ _ => .ok false⟩ 129 (.initial fun _ => 1) [] ⟨.init, true, fun _ => false⟩ 1 := by
  have hun : Unwritable twoFuncs (fun _ => false) (.func 1) :=
    .inside (e := .ext 8) List.mem_cons_self (.ext _ _)
  have hwalk : (walk twoFuncs (fun _ => ⟨[1], []⟩) 2 (fun _ => false) (.func 1)).verdict =
      .refused := by decide +kernel
  refine (func_comes_back_iff rfl (by decide)).2 ⟨hun, fun f hf => ?_, ?_⟩
  · cases hwalk.symm.trans hf
  · exact ⟨_, rfl⟩

/-- The other one is written, but not read back. -/
theorem func_does_not_come_back : ¬ FuncComesBack twoFuncs (fun _ => ⟨[1], []⟩) 2
    ⟨0, fun _ _ => .ok false⟩ 129 (.initial fun _ => 1) [] ⟨.init, true, fun _ => false⟩ 0 := by
  have hwalk : (walk twoFuncs (fun _ => ⟨[1], []⟩) 2 (fun _ => false) (.func 0)).verdict =
      .finished := by decide +kernel
  exact fun hback => not_comesBack_of_finished rfl (by decide) hwalk hback.1

end

end Ymd
