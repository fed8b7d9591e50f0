import Ymd.Pickle.Load

/-! # The pickle format

The format without a cursor: a reading takes fields from the front of the bytes
and works on the machine. A buffer that does not delimit a field it asks for has
a defect. A rejected reading says how many entries it leaves on the stack.
-/

namespace Ymd

/-- Why a buffer can not be read: an integer or an instruction block that the
buffer cuts off, a string whose length is negative, a fault of the machine, or
more nesting than the C stack has room for. -/
inductive Defect
  | cutOff
  | negative
  | machine (f : Fault)
  | nesting
  deriving DecidableEq

/-- What a reading of bytes without a defect comes to. -/
inductive Outcome (α : Type)
  | done (a : α) (mem : Mem) (rest : Bytes)
  | rejected (pending : Nat) (mem : Mem)
  | panicked (msg : Bytes) (mem : Mem)

/-- A piece of the format. -/
def Format (α : Type) := Mem → Bytes → Except Defect (Outcome α)

namespace Format

variable {α β : Type}

def pure (a : α) : Format α := fun mem z => .ok (.done a mem z)

def bind (r : Format α) (f : α → Format β) : Format β := fun mem z =>
  match r mem z with
  | .ok (.done a mem z) => f a mem z
  | .ok (.rejected pending mem) => .ok (.rejected pending mem)
  | .ok (.panicked msg mem) => .ok (.panicked msg mem)
  | .error defect => .error defect

instance : Monad Format where
  pure := pure
  bind := bind

/-- A field with a value that is not allowed. -/
def reject : Format Unit := fun mem _ => .ok (.rejected 0 mem)

/-- A buffer without a reading. -/
def defect (d : Defect) : Format α := fun _ _ => .error d

/-- The number of bytes left. -/
def remain : Format Int := fun mem z => .ok (.done z.length mem z)

/-- An integer. -/
def varint (decode : Bytes → Option (α × Bytes)) : Format α := fun mem z =>
  match decode z with
  | some (x, rest) => .ok (.done x mem rest)
  | none => .error .cutOff

/-- The next `n` bytes. -/
def take (n : Nat) : Format Bytes := fun mem z =>
  if n ≤ z.length then .ok (.done (z.take n) mem (z.drop n)) else .error .cutOff

/-- The bytes in front of a NUL, which stay. -/
def upToNul : Format Bytes := fun mem z =>
  if 0 ∈ z then .ok (.done (z.takeWhile (· ≠ 0)) mem z) else .error .cutOff

/-- A step of the machine. -/
def machine (x : MemM α) : Format α := fun mem z =>
  match x mem with
  | .ok a mem => .ok (.done a mem z)
  | .error (.panic msg) mem => .ok (.panicked msg mem)
  | .error (.fault f) _ => .error (.machine f)

/-- A reading with `n` entries of its own on the stack. -/
def plus (n : Nat) (r : Format α) : Format α := fun mem z =>
  match r mem z with
  | .ok (.rejected pending mem) => .ok (.rejected (pending + n) mem)
  | other => other

/-! ## Values -/

/-- The bytes of a string. Under a negative length the stack may overflow before
the cursor moves. -/
def kstrOf (len : Int) : Format Unit := do
  let left ← remain
  if left < len then reject
  else if len < 0 then do
    let bytes ← upToNul
    machine (onHeap (ymdKstr bytes))
    defect .negative
  else do
    let bytes ← take len.toNat
    machine (onHeap (ymdKstr bytes))

/-- The length and the bytes of a string. -/
def kstr : Format Unit := do kstrOf (← varint uint32decode).toInt

/-- The line table. -/
def lines : (k : Nat) → Format (List (BitVec 32))
  | 0 => pure []
  | k + 1 => do
      let line ← varint uint32decode
      let rest ← lines k
      pure (line :: rest)

/-- The local names. -/
def names : (k : Nat) → (names : List Bytes) → Format (List Bytes)
  | 0, read => pure read
  | k + 1, read => do
      kstr
      let name ← machine (onVm takeKstr)
      names k (read ++ [name])

/-- File name and number of parameters. -/
def tail (o : Addr) : Format Unit := do
  kstr
  let file ← machine (onVm takeKstr)
  machine (editDebug o fun debug => { debug with file := file })
  machine (setBare o false)
  let kargs := ((← varint uint32decode).setWidth 16).toNat
  machine (onVm (editCore o fun core => { core with kargs := kargs }))
  if kargs < 16 then pure () else reject

/-- The section of the local names and what follows it. -/
def locals (o : Addr) : Format Unit := do
  let k := (← varint uint32decode).toInt
  if 0 < k then
    if k < 0xFFFF then
      machine gcRecord
      let read ← names k.toNat []
      machine (onVm (editCore o fun core => { core with lz := read }))
      tail o
    else reject
  else tail o

section

variable (env : Env) (item : Format Int)

/-- The constants. -/
def kvals : (k : Nat) → (vals : List Variable) → Format (List Variable)
  | 0, vals => pure vals
  | k + 1, vals => do
      let _ ← item
      let v ← machine (onVm takeTop)
      kvals k (vals ++ [v])

/-- The section of the constants and what follows it. -/
def consts (o : Addr) : Format Unit := do
  let k := (← varint uint32decode).toInt
  if 0 < k then
    machine gcRecord
    let vals ← kvals item k.toNat []
    machine (onVm (editCore o fun core => { core with kval := vals.take (k.toNat % 2 ^ 16) }))
    locals o
  else locals o

/-- A chunk. -/
def chunk (o : Addr) : Format Unit := do
  let k := (← varint uint32decode).toInt
  if 0 < k then
    let size := (4 * k).bmod (2 ^ 32)
    machine gcRecord
    if size < 0 then defect .cutOff
    else
      let bytes ← take size.toNat
      machine gcRecord
      let table ← lines k.toNat
      machine (editDebug o fun debug => { debug with line := table })
      machine (onVm (editCore o fun core => { core with inst := instWords k.toNat bytes }))
      consts item o
  else reject

/-- The bound values from number `i` on. -/
def binds : (k i : Nat) → Format Unit
  | 0, _ => pure ()
  | k + 1, i => do
      let _ ← item
      machine (onHeap (ymdBind i))
      binds k (i + 1)

/-- The fields of a function that is on the stack. -/
def funcFields (o : Addr) : Format Unit := do
  kstr
  let proto ← machine (onVm takeKstr)
  machine (onVm (editFunc o fun fn => { fn with proto := proto }))
  let nBind := ((← varint uint32decode).setWidth 16).toNat
  machine (onVm (editFunc o fun fn => { fn with nBind := nBind }))
  binds item nBind 0
  chunk item o

def func : Format Unit := do
  let o ← machine (onHeap ymdNaked)
  machine (editDebug o fun _ => Debug.zero)
  machine (setBare o true)
  plus 1 (funcFields item o)

/-- The elements of an array. -/
def elems : (i : Nat) → Format Unit
  | 0 => pure ()
  | i + 1 => do
      let _ ← item
      machine (onHeap ymdAdd)
      elems i

def dyay : Format Unit := do
  let i ← varint uint32decode
  machine (onHeap ymdDyay)
  plus 1 (elems item i.toNat)

/-- The pairs of a map. -/
def pairs : (k : Nat) → Format Unit
  | 0 => pure ()
  | k + 1 => do
      let _ ← item
      let _ ← plus 1 item
      machine (onHeap (ymdPutf env))
      pairs k

def hmap : Format Unit := do
  let k := (← varint uint32decode).toInt
  machine (onHeap (ymdHmap k))
  plus 1 (pairs env item k.toNat)

def skls : Format Unit := do
  let k := (← varint uint32decode).toInt
  machine (onHeap ymdSkls)
  plus 1 (pairs env item k.toNat)

/-- A value and the number of its bytes. -/
def sized (r : Format Unit) : Format Int := do
  let before ← remain
  r
  let after ← remain
  pure (before - after)

end

/-- A tag and the value behind it; the result is the number of bytes behind the
tag. -/
def item (env : Env) : (depth : Nat) → Format Int
  | 0 => defect .nesting
  | depth + 1 => do
      let tt ← varint uint32decode
      match tt.toNat with
      | 0 => sized (machine (onVm (ymdPush .nil)))
      | 1 => sized do
          let i ← varint sint64decode
          machine (onVm (ymdPush (.int i)))
      | 2 => sized do
          let i ← varint uint64decode
          machine (onVm (ymdPush (.bool ((i.setWidth 32).signExtend 64))))
      | 4 => sized kstr
      | 5 => sized (func (item env depth))
      | 6 => sized (dyay (item env depth))
      | 7 => sized (hmap env (item env depth))
      | 8 => sized (skls env (item env depth))
      | _ => sized reject

/-! ## Sequencing -/

section

variable {r : Format α} {f : α → Format β} {mem : Mem} {z : Bytes}

theorem bind_apply : (r >>= f) mem z =
    match r mem z with
    | .ok (.done a mem z) => f a mem z
    | .ok (.rejected pending mem) => .ok (.rejected pending mem)
    | .ok (.panicked msg mem) => .ok (.panicked msg mem)
    | .error defect => .error defect := rfl

theorem bind_of_done {a : α} {mem' : Mem} {rest : Bytes} (hr : r mem z = .ok (.done a mem' rest)) :
    (r >>= f) mem z = f a mem' rest := by
  rw [bind_apply, hr]

theorem bind_of_rejected {mem' : Mem} {pending : Nat}
    (hr : r mem z = .ok (.rejected pending mem')) :
    (r >>= f) mem z = .ok (.rejected pending mem') := by
  rw [bind_apply, hr]

theorem bind_of_panicked {mem' : Mem} {msg : Bytes} (hr : r mem z = .ok (.panicked msg mem')) :
    (r >>= f) mem z = .ok (.panicked msg mem') := by
  rw [bind_apply, hr]

theorem bind_of_error {d : Defect} (hr : r mem z = .error d) : (r >>= f) mem z = .error d := by
  rw [bind_apply, hr]

theorem bind_assoc {γ : Type} (r : Format α) (f : α → Format β) (g : β → Format γ) :
    (r >>= f >>= g) = (r >>= fun a => f a >>= g) := by
  funext mem z
  simp only [bind_apply]
  cases r mem z with
  | error d => rfl
  | ok out => cases out <;> rfl

theorem remain_bind (f : Int → Format β) (mem : Mem) (z : Bytes) :
    (remain >>= f) mem z = f z.length mem z := rfl

theorem defect_bind (d : Defect) (f : α → Format β) :
    (defect d >>= f) = (defect d : Format β) := rfl

/-- A piece of the format that has no value to reject. -/
def Accepting (r : Format α) : Prop := ∀ mem z pending mem', r mem z ≠ .ok (.rejected pending mem')

theorem accepting_varint (decode : Bytes → Option (α × Bytes)) : Accepting (varint decode) := by
  intro mem z pending mem' hr
  unfold varint at hr
  split at hr <;> cases hr

theorem accepting_machine (x : MemM α) : Accepting (machine x) := by
  intro mem z pending mem' hr
  unfold machine at hr
  split at hr <;> cases hr

theorem accepting_take (n : Nat) : Accepting (take n) := by
  intro mem z pending mem' hr
  unfold take at hr
  split at hr <;> cases hr

theorem accepting_defect (d : Defect) : Accepting (defect d : Format α) := by
  intro mem z pending mem' hr
  cases hr

theorem accepting_pure (a : α) : Accepting (Pure.pure a : Format α) := by
  intro mem z pending mem' hr
  cases hr

theorem Accepting.bind (hr : Accepting r) (hf : ∀ a, Accepting (f a)) : Accepting (r >>= f) := by
  intro mem z pending mem' hrun
  rw [bind_apply] at hrun
  split at hrun
  next a mem₁ z₁ _ => exact hf a mem₁ z₁ pending mem' hrun
  next pending' mem₁ hrej => exact hr _ _ _ _ hrej
  next => cases hrun
  next => cases hrun

end

end Format

end Ymd
