import Ymd.Pickle.Pload

/-! # What a function is read from

A reading of a function that comes to its end has taken its fields from the
bytes, one behind the other, and the function on the stack is made of them.
-/

namespace Ymd

open Foundation

/-! ## Fields -/

/-- An integer and what is behind it. -/
def U32 (z : Bytes) (x : BitVec 32) (rest : Bytes) : Prop := uint32decode z = some (x, rest)

/-- A string with its length in front. -/
def Str (z s rest : Bytes) : Prop :=
  ∃ len body, U32 z len body ∧ 0 ≤ len.toInt ∧ len.toInt ≤ body.length ∧
    s = body.take len.toInt.toNat ∧ rest = body.drop len.toInt.toNat

/-- A line table. -/
def Lines : (z : Bytes) → List (BitVec 32) → (rest : Bytes) → Prop
  | z, [], rest => rest = z
  | z, line :: table, rest => ∃ behind, U32 z line behind ∧ Lines behind table rest

/-- Local names. -/
def Names : (z : Bytes) → List Bytes → (rest : Bytes) → Prop
  | z, [], rest => rest = z
  | z, name :: lz, rest => ∃ behind, Str z name behind ∧ Names behind lz rest

/-- A value that some memory reads. -/
def Reading (env : Env) (depth : Nat) (z : Bytes) (w : Variable) (rest : Bytes) : Prop :=
  ∃ a m m', Format.item env depth m z = .ok (.done a m' rest) ∧ m'.l.stk = w :: m.l.stk

def Readings (env : Env) (depth : Nat) : (z : Bytes) → List Variable → (rest : Bytes) → Prop
  | z, [], rest => rest = z
  | z, w :: ws, rest => ∃ behind, Reading env depth z w behind ∧ Readings env depth behind ws rest

section

variable (env : Env) (depth : Nat) (core : Chunk) (debug : Debug) (rest : Bytes)

def ReadsTail (z : Bytes) : Prop :=
  ∃ behind kargs, Str z debug.file behind ∧ U32 behind kargs rest ∧
    core.kargs = (kargs.setWidth 16).toNat

def ReadsLocals (z : Bytes) : Prop :=
  ∃ k first behind, U32 z k first ∧ core.lz.length = k.toInt.toNat ∧ Names first core.lz behind ∧
    ReadsTail core debug rest behind

def ReadsConsts (z : Bytes) : Prop :=
  ∃ k first behind vals, U32 z k first ∧ vals.length = k.toInt.toNat ∧
    Readings env depth first vals behind ∧ core.kval = vals.take (k.toInt.toNat % 2 ^ 16) ∧
    ReadsLocals core debug rest behind

def ReadsChunk (z : Bytes) : Prop :=
  ∃ k first behind, U32 z k first ∧ 0 < k.toInt ∧ 0 ≤ (4 * k.toInt).bmod (2 ^ 32) ∧
    ((4 * k.toInt).bmod (2 ^ 32)).toNat ≤ first.length ∧
    core.inst = instWords k.toInt.toNat (first.take ((4 * k.toInt).bmod (2 ^ 32)).toNat) ∧
    debug.line.length = k.toInt.toNat ∧
    Lines (first.drop ((4 * k.toInt).bmod (2 ^ 32)).toNat) debug.line behind ∧
    ReadsConsts env depth core debug rest behind

def ReadsFunc (fn : Func) (z : Bytes) : Prop :=
  ∃ proto nBind first behind, Str z fn.proto proto ∧ U32 proto nBind first ∧
    fn.nBind = (nBind.setWidth 16).toNat ∧ (fn.bind.take fn.nBind).length = fn.nBind ∧
    Readings env depth first (fn.bind.take fn.nBind) behind ∧
    ReadsChunk env depth core debug rest behind

end

namespace Format

/-! ## Pieces that come to their end -/

section

variable {α β : Type} {m m' : Mem} {z rest : Bytes}

theorem bind_done {r : Format α} {f : α → Format β} {b : β}
    (hdone : (r >>= f) m z = .ok (.done b m' rest)) :
    ∃ a m₁ z₁, r m z = .ok (.done a m₁ z₁) ∧ f a m₁ z₁ = .ok (.done b m' rest) := by
  rw [bind_apply] at hdone
  split at hdone
  next a m₁ z₁ hr => exact ⟨a, m₁, z₁, hr, hdone⟩
  next => cases hdone
  next => cases hdone
  next => cases hdone

theorem machine_done {x : MemM α} {a : α} (hdone : machine x m z = .ok (.done a m' rest)) :
    x m = .ok a m' ∧ rest = z := by
  unfold machine at hdone
  split at hdone
  next a₁ m₁ hx =>
    cases hdone
    exact ⟨hx, rfl⟩
  next => cases hdone
  next => cases hdone

theorem onVm_done {x : VmM α} {a : α} (hdone : machine (onVm x) m z = .ok (.done a m' rest)) :
    ∃ l, x m.l = .ok a l ∧ m' = { m with l := l } ∧ rest = z := by
  obtain ⟨hx, hrest⟩ := machine_done hdone
  obtain ⟨l, hl, hm'⟩ := onVm_ok_iff.1 hx
  exact ⟨l, hl, hm', hrest⟩

theorem onHeap_done {x : VmM α} {a : α} (hdone : machine (onHeap x) m z = .ok (.done a m' rest)) :
    ∃ l, x m.l = .ok a l ∧ m' = { m.tick with l := l } ∧ rest = z := by
  obtain ⟨hx, hrest⟩ := machine_done hdone
  obtain ⟨-, l, hl, hm'⟩ := onHeap_ok_iff.1 hx
  exact ⟨l, hl, hm', hrest⟩

theorem gcRecord_done (hdone : machine gcRecord m z = .ok (.done () m' rest)) :
    m' = m.tick ∧ rest = z := by
  obtain ⟨hx, hrest⟩ := machine_done hdone
  exact ⟨(gcRecord_ok_iff.1 hx).2, hrest⟩

theorem plus_done {r : Format α} {a : α} {n : Nat}
    (hdone : r.plus n m z = .ok (.done a m' rest)) : r m z = .ok (.done a m' rest) := by
  unfold plus at hdone
  split at hdone
  next => cases hdone
  next => exact hdone

theorem take_done {n : Nat} {bytes : Bytes} (hdone : take n m z = .ok (.done bytes m' rest)) :
    n ≤ z.length ∧ bytes = z.take n ∧ m' = m ∧ rest = z.drop n := by
  unfold take at hdone
  split at hdone
  next hn =>
    cases hdone
    exact ⟨hn, rfl, rfl, rfl⟩
  next => cases hdone

theorem kstr_done (hdone : kstr m z = .ok (.done () m' rest)) :
    ∃ s, Str z s rest ∧ m' = { m.tick with l := { m.l with stk := .kstr s :: m.l.stk } } := by
  obtain ⟨len, m₁, body, hlen, hbody⟩ := bind_done hdone
  obtain ⟨hdecode, rfl⟩ := varint_done hlen
  rw [kstrOf, remain_bind] at hbody
  split at hbody
  next => cases hbody
  next hlong =>
    split at hbody
    next =>
      obtain ⟨bytes, m₂, z₂, _, hpush⟩ := bind_done hbody
      obtain ⟨_, m₃, z₃, _, hdefect⟩ := bind_done hpush
      cases hdefect
    next hneg =>
      obtain ⟨bytes, m₂, z₂, htake, hpush⟩ := bind_done hbody
      obtain ⟨_, rfl, rfl, rfl⟩ := take_done htake
      obtain ⟨l, hl, rfl, rfl⟩ := onHeap_done hpush
      obtain ⟨_, rfl⟩ := ymdPush_ok_iff.1 hl
      exact ⟨_, ⟨len, body, hdecode, not_lt.1 hneg, not_lt.1 hlong, rfl, rfl⟩, rfl⟩

/-- A string that is read and taken off the stack again. -/
theorem name_done {f : Bytes → Format β} {b : β}
    (hdone : (kstr >>= fun _ => machine (onVm takeKstr) >>= f) m z = .ok (.done b m' rest)) :
    ∃ s behind, Str z s behind ∧ f s m.tick behind = .ok (.done b m' rest) := by
  obtain ⟨_, m₁, z₁, hkstr, hlater₁⟩ := bind_done hdone
  obtain ⟨s, hs, rfl⟩ := kstr_done hkstr
  obtain ⟨name, m₂, z₂, htake, hf⟩ := bind_done hlater₁
  obtain ⟨l, hl, rfl, rfl⟩ := onVm_done htake
  obtain ⟨hsame, rfl⟩ := takeKstr_ok rfl hl
  cases hsame
  exact ⟨s, z₂, hs, hf⟩

theorem lines_done {k : Nat} {table : List (BitVec 32)}
    (hdone : lines k m z = .ok (.done table m' rest)) :
    m' = m ∧ table.length = k ∧ Lines z table rest := by
  induction k generalizing z table with
  | zero =>
      cases hdone
      exact ⟨rfl, rfl, rfl⟩
  | succ k ih =>
      obtain ⟨line, m₁, z₁, hline, hlater₁⟩ := bind_done hdone
      obtain ⟨hdecode, rfl⟩ := varint_done hline
      obtain ⟨below, m₂, z₂, hbelow, hpure⟩ := bind_done hlater₁
      cases hpure
      obtain ⟨rfl, hlength, hlines⟩ := ih hbelow
      exact ⟨rfl, congrArg (· + 1) hlength, z₁, hdecode, hlines⟩

/-- The machine when `k` more steps have allocated. -/
def ticks (k : Nat) (m : Mem) : Mem := { m with due := fun i => m.due (i + k) }

theorem ticks_tick (k : Nat) (m : Mem) : ticks k m.tick = ticks (k + 1) m := by
  unfold ticks Mem.tick
  simp only [Nat.add_assoc]

theorem names_done {k : Nat} {read all : List Bytes}
    (hdone : names k read m z = .ok (.done all m' rest)) :
    m' = ticks k m ∧ ∃ lz, lz.length = k ∧ all = read ++ lz ∧ Names z lz rest := by
  induction k generalizing m z read with
  | zero =>
      cases hdone
      exact ⟨rfl, [], rfl, (List.append_nil _).symm, rfl⟩
  | succ k ih =>
      obtain ⟨s, behind, hs, hlater₁⟩ := name_done hdone
      obtain ⟨rfl, lz, hlength, rfl, hnames⟩ := ih hlater₁
      exact ⟨ticks_tick k m, s :: lz, congrArg (· + 1) hlength, List.append_assoc _ _ _, behind, hs,
        hnames⟩

/-- Where the tag is that of a string, a string is read. -/
theorem item_kstr {env : Env} {depth : Nat} {a : Int}
    (hdone : item env depth m (4 :: z) = .ok (.done a m' rest)) :
    ∃ s, Str z s rest ∧ m' = { m.tick with l := { m.l with stk := .kstr s :: m.l.stk } } := by
  cases depth with
  | zero => cases hdone
  | succ depth => exact kstr_done (sized_done (hdone : sized kstr m z = _)).2

end

/-! ## The function on the stack -/

/-- The function object at `o`, its chunk, and the tables of the chunk. -/
structure Holds (m : Mem) (o : Addr) (fn : Func) (core : Chunk) (debug : Debug) : Prop where
  obj : m.l.heap.obj o = some (.func { fn with core := some core })
  debug : m.debug o = debug

section

variable {env : Env} {depth : Nat} {m m' : Mem} {z rest : Bytes} {o : Addr} {fn : Func}
  {core : Chunk} {debug : Debug} {S : List Variable}

theorem Holds.restack (hholds : Holds m o fn core debug) (S : List Variable) :
    Holds { m with l := { m.l with stk := S } } o fn core debug :=
  ⟨hholds.obj, hholds.debug⟩

theorem Holds.tick (hholds : Holds m o fn core debug) : Holds m.tick o fn core debug :=
  ⟨hholds.obj, hholds.debug⟩

theorem Holds.ticks (hholds : Holds m o fn core debug) (k : Nat) :
    Holds (ticks k m) o fn core debug :=
  ⟨hholds.obj, hholds.debug⟩

/-- What only touches the objects above `o` leaves the function alone. -/
theorem Holds.above (hholds : Holds m o fn core debug) (hinv : m'.Inv (o + 1) m S) :
    Holds m' o fn core debug :=
  ⟨(hinv.obj o (Nat.lt_succ_self o)).trans hholds.obj,
    (hinv.debug o (Nat.lt_succ_self o)).trans hholds.debug⟩

/-- A value is read, and stays on the stack. -/
theorem item_done {a : Int} (hholds : Holds m o fn core debug)
    (hdepth : maxStack < m.l.stk.length + depth)
    (hdone : item env depth m z = .ok (.done a m' rest)) :
    ∃ w, m'.l.stk = w :: m.l.stk ∧ Reading env depth z w rest ∧ Holds m' o fn core debug := by
  have hpos : 0 < depth := by
    cases depth with
    | zero => cases hdone
    | succ depth => exact Nat.succ_pos depth
  have hinv : m.Inv (o + 1) m m.l.stk := Mem.Inv.refl (Heap.lt_next hholds.obj)
  have hsat := sat_item env hpos hdepth m z hinv
  rw [hdone] at hsat
  obtain ⟨w, hw⟩ := hsat
  exact ⟨w, hw.stk, ⟨a, m, m', hdone, hw.stk⟩, hholds.above hw⟩

theorem editFunc_done {edit : Func → Func} (fn' : Func) {core' : Chunk}
    (hholds : Holds m o fn core debug)
    (hedit : edit { fn with core := some core } = { fn' with core := some core' })
    (hdone : machine (onVm (editFunc o edit)) m z = .ok (.done () m' rest)) :
    rest = z ∧ m'.l.stk = m.l.stk ∧ Holds m' o fn' core' debug := by
  obtain ⟨l, hl, rfl, rfl⟩ := onVm_done hdone
  obtain ⟨fn₀, hobj, rfl⟩ := editFunc_ok hl
  rw [hholds.obj] at hobj
  cases hobj
  refine ⟨rfl, rfl, ?_, hholds.debug⟩
  rw [hedit]
  exact Heap.obj_set_self hholds.obj

theorem editCore_done {edit : Chunk → Chunk} (hholds : Holds m o fn core debug)
    (hdone : machine (onVm (editCore o edit)) m z = .ok (.done () m' rest)) :
    rest = z ∧ m'.l.stk = m.l.stk ∧ Holds m' o fn (edit core) debug :=
  editFunc_done fn hholds rfl hdone

theorem editDebug_done {edit : Debug → Debug} (hholds : Holds m o fn core debug)
    (hdone : machine (editDebug o edit) m z = .ok (.done () m' rest)) :
    rest = z ∧ m'.l.stk = m.l.stk ∧ Holds m' o fn core (edit debug) := by
  obtain ⟨hrun, rfl⟩ := machine_done hdone
  cases hrun
  refine ⟨rfl, rfl, hholds.obj, ?_⟩
  exact (Function.update_self _ _ _).trans (congrArg edit hholds.debug)

theorem setBare_done {null : Bool} (hholds : Holds m o fn core debug)
    (hdone : machine (setBare o null) m z = .ok (.done () m' rest)) :
    rest = z ∧ m'.l.stk = m.l.stk ∧ Holds m' o fn core debug := by
  obtain ⟨hrun, rfl⟩ := machine_done hdone
  cases hrun
  exact ⟨rfl, rfl, hholds.obj, hholds.debug⟩

/-! ## The sections of a chunk -/

theorem tail_done (hholds : Holds m o fn core debug)
    (hdone : tail o m z = .ok (.done () m' rest)) :
    ∃ kargs file, Holds m' o fn { core with kargs := kargs } { debug with file := file } ∧
      m'.l.stk = m.l.stk ∧
      ReadsTail { core with kargs := kargs } { debug with file := file } rest z := by
  obtain ⟨file, behind, hfile, hlater₁⟩ := name_done hdone
  obtain ⟨_, m₁, z₁, hdebug, hlater₂⟩ := bind_done hlater₁
  obtain ⟨rfl, hstk₁, hholds⟩ := editDebug_done hholds.tick hdebug
  obtain ⟨_, m₂, z₂, hbare, hlater₃⟩ := bind_done hlater₂
  obtain ⟨rfl, hstk₂, hholds⟩ := setBare_done hholds hbare
  obtain ⟨kargs, m₃, z₃, hvarint, hlater₄⟩ := bind_done hlater₃
  obtain ⟨hkargs, rfl⟩ := varint_done hvarint
  obtain ⟨_, m₄, z₄, hcore, hlast⟩ := bind_done hlater₄
  obtain ⟨rfl, hstk₄, hholds⟩ := editCore_done hholds hcore
  split at hlast
  · cases hlast
    exact ⟨_, file, hholds, hstk₄.trans (hstk₂.trans hstk₁), z₂, kargs, hfile, hkargs, rfl⟩
  · cases hlast

theorem locals_done (hholds : Holds m o fn core debug) (hlz : core.lz = [])
    (hdone : locals o m z = .ok (.done () m' rest)) :
    ∃ core' debug', Holds m' o fn core' debug' ∧ m'.l.stk = m.l.stk ∧
      ReadsLocals core' debug' rest z ∧ core'.inst = core.inst ∧ core'.kval = core.kval ∧
      debug'.line = debug.line := by
  obtain ⟨k, m₁, first, hvarint, hlater₁⟩ := bind_done hdone
  obtain ⟨hk, rfl⟩ := varint_done hvarint
  by_cases hpos : 0 < k.toInt
  · simp only [if_pos hpos] at hlater₁
    split at hlater₁
    · obtain ⟨_, m₁, z₁, hrecord, hread⟩ := bind_done hlater₁
      obtain ⟨rfl, rfl⟩ := gcRecord_done hrecord
      obtain ⟨all, m₂, z₂, hnames, hlater₂⟩ := bind_done hread
      obtain ⟨rfl, lz, hlength, rfl, hlz'⟩ := names_done hnames
      obtain ⟨_, m₃, z₃, hcore, htail⟩ := bind_done hlater₂
      obtain ⟨rfl, hstk, hholds⟩ := editCore_done (hholds.tick.ticks _) hcore
      obtain ⟨kargs, file, hholds, hstk', hreads⟩ := tail_done hholds htail
      exact ⟨_, _, hholds, hstk'.trans hstk, ⟨k, z₁, z₃, hk, hlength, hlz', hreads⟩, rfl, rfl, rfl⟩
    · cases hlater₁
  · simp only [if_neg hpos] at hlater₁
    obtain ⟨kargs, file, hholds, hstk, hreads⟩ := tail_done hholds hlater₁
    have hzero : k.toInt.toNat = 0 := Int.toNat_of_nonpos (not_lt.1 hpos)
    refine ⟨_, _, hholds, hstk, ⟨k, first, first, hk, ?_, ?_, hreads⟩, rfl, rfl, rfl⟩
    · rw [hlz, hzero]
      rfl
    · rw [hlz]
      rfl

theorem kvals_done {k : Nat} {vals all : List Variable} (hholds : Holds m o fn core debug)
    (hdepth : maxStack < m.l.stk.length + depth)
    (hdone : kvals (item env depth) k vals m z = .ok (.done all m' rest)) :
    ∃ ws, ws.length = k ∧ all = vals ++ ws ∧ Readings env depth z ws rest ∧
      m'.l.stk = m.l.stk ∧ Holds m' o fn core debug := by
  induction k generalizing m z vals with
  | zero =>
      cases hdone
      exact ⟨[], rfl, (List.append_nil _).symm, rfl, rfl, hholds⟩
  | succ k ih =>
      obtain ⟨a, m₁, z₁, hitem, hlater₁⟩ := bind_done hdone
      obtain ⟨w, hstk, hreading, hholds⟩ := item_done hholds hdepth hitem
      obtain ⟨v, m₂, z₂, htake, hlater₂⟩ := bind_done hlater₁
      obtain ⟨l, hl, rfl, rfl⟩ := onVm_done htake
      obtain ⟨rfl, rfl⟩ := takeTop_ok hstk hl
      obtain ⟨ws, hlength, rfl, hreadings, hstk', hholds⟩ :=
        ih (hholds.restack m.l.stk) hdepth hlater₂
      exact ⟨v :: ws, congrArg (· + 1) hlength, List.append_assoc _ _ _,
        ⟨z₂, hreading, hreadings⟩, hstk', hholds⟩

theorem consts_done (hholds : Holds m o fn core debug) (hkval : core.kval = [])
    (hlz : core.lz = []) (hdepth : maxStack < m.l.stk.length + depth)
    (hdone : consts (item env depth) o m z = .ok (.done () m' rest)) :
    ∃ core' debug', Holds m' o fn core' debug' ∧ m'.l.stk = m.l.stk ∧
      ReadsConsts env depth core' debug' rest z ∧ core'.inst = core.inst ∧
      debug'.line = debug.line := by
  obtain ⟨k, m₁, first, hvarint, hlater₁⟩ := bind_done hdone
  obtain ⟨hk, rfl⟩ := varint_done hvarint
  by_cases hpos : 0 < k.toInt
  · simp only [if_pos hpos] at hlater₁
    obtain ⟨_, m₁, z₁, hrecord, hread⟩ := bind_done hlater₁
    obtain ⟨rfl, rfl⟩ := gcRecord_done hrecord
    obtain ⟨all, m₂, z₂, hkvals, hlater₂⟩ := bind_done hread
    obtain ⟨vals, hlength, rfl, hreadings, hstk, hholds⟩ :=
      kvals_done hholds.tick hdepth hkvals
    obtain ⟨_, m₃, z₃, hcore, hlocals⟩ := bind_done hlater₂
    obtain ⟨rfl, hstk', hholds⟩ := editCore_done hholds hcore
    obtain ⟨core', debug', hholds, hstk'', hreads, hinst, hkval', hline⟩ :=
      locals_done hholds hlz hlocals
    exact ⟨core', debug', hholds, hstk''.trans (hstk'.trans hstk),
      ⟨k, z₁, z₃, all, hk, hlength, hreadings, hkval', hreads⟩, hinst, hline⟩
  · simp only [if_neg hpos] at hlater₁
    obtain ⟨core', debug', hholds, hstk, hreads, hinst, hkval', hline⟩ :=
      locals_done hholds hlz hlater₁
    have hzero : k.toInt.toNat = 0 := Int.toNat_of_nonpos (not_lt.1 hpos)
    refine ⟨core', debug', hholds, hstk, ⟨k, first, first, [], hk, ?_, rfl, ?_, hreads⟩, hinst,
      hline⟩
    · rw [hzero]
      rfl
    · rw [hkval', hkval, List.take_nil]

theorem chunk_done (hholds : Holds m o fn .zero debug)
    (hdepth : maxStack < m.l.stk.length + depth)
    (hdone : chunk (item env depth) o m z = .ok (.done () m' rest)) :
    ∃ core' debug', Holds m' o fn core' debug' ∧ m'.l.stk = m.l.stk ∧
      ReadsChunk env depth core' debug' rest z := by
  obtain ⟨k, m₁, first, hvarint, hlater₁⟩ := bind_done hdone
  obtain ⟨hk, rfl⟩ := varint_done hvarint
  by_cases hpos : 0 < k.toInt
  · simp only [if_pos hpos] at hlater₁
    obtain ⟨_, m₁, z₁, hrecord, hread⟩ := bind_done hlater₁
    obtain ⟨rfl, rfl⟩ := gcRecord_done hrecord
    split at hread
    next => cases hread
    next hsize =>
      obtain ⟨bytes, m₂, z₂, htake, hlater₂⟩ := bind_done hread
      obtain ⟨hroom, rfl, rfl, rfl⟩ := take_done htake
      obtain ⟨_, m₃, z₃, hrecord, hlater₃⟩ := bind_done hlater₂
      obtain ⟨rfl, rfl⟩ := gcRecord_done hrecord
      obtain ⟨table, m₃, z₃, hlines, hlater₃⟩ := bind_done hlater₃
      obtain ⟨rfl, hlength, hline⟩ := lines_done hlines
      obtain ⟨_, m₄, z₄, hdebug, hlater₄⟩ := bind_done hlater₃
      obtain ⟨rfl, hstk₄, hholds⟩ := editDebug_done hholds.tick.tick hdebug
      obtain ⟨_, m₅, z₅, hcore, hconsts⟩ := bind_done hlater₄
      obtain ⟨rfl, hstk₅, hholds⟩ := editCore_done hholds hcore
      have hdepth' : maxStack < m₅.l.stk.length + depth := by rwa [hstk₅, hstk₄]
      obtain ⟨core', debug', hholds, hstk, hreads, hinst, hline'⟩ :=
        consts_done hholds rfl rfl hdepth' hconsts
      refine ⟨core', debug', hholds, hstk.trans (hstk₅.trans hstk₄),
        k, z₁, z₅, hk, hpos, not_lt.1 hsize, hroom, hinst, ?_, ?_, hreads⟩
      · rw [hline']
        exact hlength
      · rw [hline']
        exact hline
  · simp only [if_neg hpos] at hlater₁
    cases hlater₁

/-! ## Functions -/

/-- The first `i + 1` entries after a store at `i`. -/
theorem take_set_succ {bind : List Variable} {i : Nat} (hi : i < bind.length) (w : Variable) :
    (bind.set i w).take (i + 1) = bind.take i ++ [w] := by
  rw [List.take_add_one, List.take_set_of_le le_rfl, List.getElem?_set_self hi]
  rfl

theorem binds_done {k i : Nat} (hholds : Holds m o fn core debug) (hstk : m.l.stk = .func o :: S)
    (hdepth : maxStack < S.length + 1 + depth) (hi : i + k = fn.nBind)
    (hbind : fn.bind.length = fn.nBind ∨ fn.bind = [] ∧ i = 0)
    (hdone : binds (item env depth) k i m z = .ok (.done () m' rest)) :
    ∃ bind ws, ws.length = k ∧ bind.take fn.nBind = fn.bind.take i ++ ws ∧
      Readings env depth z ws rest ∧ m'.l.stk = .func o :: S ∧
      Holds m' o { fn with bind := bind } core debug := by
  induction k generalizing m z fn i with
  | zero =>
      cases hdone
      refine ⟨fn.bind, [], rfl, ?_, rfl, hstk, hholds⟩
      rw [List.append_nil, ← hi]
      rfl
  | succ k ih =>
      obtain ⟨a, m₁, z₁, hitem, hlater₁⟩ := bind_done hdone
      have hdepth' : maxStack < m.l.stk.length + depth := by rwa [hstk]
      obtain ⟨w, hstk₁, hreading, hholds⟩ := item_done hholds hdepth' hitem
      rw [hstk] at hstk₁
      obtain ⟨_, m₂, z₂, hstore, hlater₂⟩ := bind_done hlater₁
      obtain ⟨l, hl, rfl, rfl⟩ := onHeap_done hstore
      obtain ⟨fn₀, fn', hobj, hfn', rfl⟩ := ymdBind_ok hstk₁ hl
      rw [hholds.obj] at hobj
      cases hobj
      have hlt : i < fn.nBind := by omega
      simp only [funcBind, if_pos hlt] at hfn'
      cases hfn'
      -- the array of `n_bind` entries that the first store makes
      obtain ⟨bind, hbind', hlength, hfirst⟩ : ∃ bind : List Variable,
          (if fn.bind = [] then .replicate fn.nBind .nil else fn.bind) = bind ∧
            bind.length = fn.nBind ∧ bind.take i = fn.bind.take i := by
        obtain hfull | ⟨hnil, rfl⟩ := hbind
        · have hne : fn.bind ≠ [] := List.ne_nil_of_length_pos (by omega)
          exact ⟨fn.bind, if_neg hne, hfull, rfl⟩
        · exact ⟨_, if_pos hnil, List.length_replicate, rfl⟩
      have hholds' : Holds { m₁.tick with l := { m₁.l with
          heap := m₁.l.heap.set o (.func { fn with core := some core, bind := bind.set i w })
          stk := .func o :: S } } o { fn with bind := bind.set i w } core debug :=
        ⟨Heap.obj_set_self hholds.obj, hholds.debug⟩
      rw [hbind'] at hlater₂
      obtain ⟨bind'', ws, hws, htake, hreadings, hstk', hholds''⟩ :=
        ih hholds' rfl (by change i + 1 + k = fn.nBind; omega)
          (.inl (by rw [List.length_set]; exact hlength)) hlater₂
      refine ⟨bind'', w :: ws, congrArg (· + 1) hws, ?_, ⟨z₂, hreading, hreadings⟩, hstk', hholds''⟩
      refine htake.trans ?_
      rw [take_set_succ (by omega), hfirst, List.append_assoc]
      rfl

theorem funcFields_done (hholds : Holds m o ⟨none, [], 0, [], none⟩ .zero debug)
    (hstk : m.l.stk = .func o :: S) (hdepth : maxStack < S.length + 1 + depth)
    (hdone : funcFields (item env depth) o m z = .ok (.done () m' rest)) :
    ∃ fn' core' debug', Holds m' o fn' core' debug' ∧ m'.l.stk = .func o :: S ∧
      ReadsFunc env depth core' debug' rest fn' z := by
  obtain ⟨proto, z₁, hproto, hlater₁⟩ := name_done hdone
  obtain ⟨_, m₁, z₂, hedit, hlater₂⟩ := bind_done hlater₁
  obtain ⟨rfl, hstk₁, hholds⟩ :=
    editFunc_done ⟨none, proto, 0, [], none⟩ hholds.tick rfl hedit
  obtain ⟨nBind, m₂, first, hvarint, hlater₃⟩ := bind_done hlater₂
  obtain ⟨hnBind, rfl⟩ := varint_done hvarint
  obtain ⟨_, m₃, z₃, hedit, hlater₄⟩ := bind_done hlater₃
  obtain ⟨rfl, hstk₃, hholds⟩ :=
    editFunc_done ⟨none, proto, (nBind.setWidth 16).toNat, [], none⟩ hholds rfl hedit
  obtain ⟨_, m₄, z₄, hbinds, hchunk⟩ := bind_done hlater₄
  obtain ⟨bind, ws, hlength, htake, hreadings, hstk₄, hholds⟩ :=
    binds_done hholds (hstk₃.trans (hstk₁.trans hstk)) hdepth (Nat.zero_add _) (.inr ⟨rfl, rfl⟩)
      hbinds
  obtain ⟨core', debug', hholds, hstk₅, hreads⟩ :=
    chunk_done hholds (by rwa [hstk₄]) hchunk
  refine ⟨_, core', debug', hholds, hstk₅.trans hstk₄, z₂, nBind, z₃, z₄, hproto, hnBind, rfl,
    ?_, ?_, hreads⟩
  · rw [htake]
    exact hlength
  · rw [htake]
    exact hreadings

/-- A function that is read to its end is on the stack. -/
theorem func_done (hdepth : maxStack < m.l.stk.length + 1 + depth)
    (hdone : func (item env depth) m z = .ok (.done () m' rest)) :
    ∃ o fn core debug, m'.l.stk = .func o :: m.l.stk ∧ Holds m' o fn core debug ∧
      ReadsFunc env depth core debug rest fn z := by
  obtain ⟨o, m₁, z₁, hnaked, hlater₁⟩ := bind_done hdone
  obtain ⟨l, hl, rfl, rfl⟩ := onHeap_done hnaked
  obtain ⟨rfl, _, rfl⟩ := ymdNaked_ok hl
  obtain ⟨_, m₂, z₂, hdebug, hlater₂⟩ := bind_done hlater₁
  have hholds : Holds
      { m.tick with l := { m.l with
        heap := (m.l.heap.alloc (.func ⟨some Chunk.zero, [], 0, [], none⟩)).1
        stk := .func m.l.heap.next :: m.l.stk } } m.l.heap.next ⟨none, [], 0, [], none⟩ .zero
      (m.debug m.l.heap.next) :=
    ⟨Heap.obj_alloc_self, rfl⟩
  obtain ⟨rfl, hstk, hholds⟩ := editDebug_done hholds hdebug
  obtain ⟨_, m₃, z₃, hbare, hlater₃⟩ := bind_done hlater₂
  obtain ⟨rfl, hstk₃, hholds⟩ := setBare_done hholds hbare
  obtain ⟨fn, core, debug, hholds, hstk', hreads⟩ :=
    funcFields_done hholds (hstk₃.trans hstk) hdepth (plus_done hlater₃)
  exact ⟨_, fn, core, debug, hstk', hholds, hreads⟩

end

end Format

end Ymd
