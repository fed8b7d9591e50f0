import Ymd.Foundation.Buckets
import Ymd.Foundation.Outcome
import Ymd.Foundation.Runs
import Ymd.Gc.Sweep

/-! # The string pool

`string.c` over collected memory. A short string is looked up in the pool and
made only if it is not there; its allocation may collect, and the table may grow
behind it. Whether a collection is due is up to the run.
-/

namespace Ymd.Gc

open Foundation

/-- `MAX_KPOOL_LEN`. -/
def maxKpoolLen : Nat := 40

namespace Vm

/-- `kpool_init`. -/
def kpoolInit (vm : Vm) : Vm :=
  { vm with kpool := ⟨List.replicate (2 ^ 8) [], 0, 8⟩ }

/-- `kstr_hash`: 0 means that the hash is not computed yet. -/
def kstrHash (x : Addr) (vm : Vm) : Except Stop (BitVec 64 × Vm) :=
  match vm.obj x with
  | some (.kstr land hash) =>
      let hash := if hash ≠ 0 then hash else kzHash land
      return (hash, { vm with obj := Function.update vm.obj x (some (.kstr land hash)) })
  | _ => throw (.fault (.bounds "kz"))

/-- `kpool_copy2`. -/
def kpoolCopy2 (slot : List (List Addr)) (x : Addr) (shift : Nat) (vm : Vm) :
    Except Stop (List (List Addr) × Vm) := do
  let (hash, vm) ← vm.kstrHash x
  return (slot.modify (hash.toNat % 2 ^ shift) (x :: ·), vm)

/-- The loops of `kpool_resize`, over the strings chain by chain. -/
def kpoolCopyAll (shift : Nat) : List Addr → List (List Addr) → Vm →
    Except Stop (List (List Addr) × Vm)
  | [], slot, vm => return (slot, vm)
  | x :: rest, slot, vm => do
      let (slot, vm) ← vm.kpoolCopy2 slot x shift
      kpoolCopyAll shift rest slot vm

/-- `kpool_resize`; there is no memory for `1 << 31` chains. -/
def kpoolResize (shift : Nat) (vm : Vm) : Except Stop Vm := do
  if 31 ≤ shift then throw (.panic (lit "System: Not enough memory"))
  let (slot, vm) ← kpoolCopyAll shift vm.kpool.slot.flatten (List.replicate (2 ^ shift) []) vm
  return { vm with kpool := { vm.kpool with slot := slot, shift := shift } }

/-- The table of `kpool_insert` grows when it is full. -/
def kpoolGrow (vm : Vm) : Except Stop Vm :=
  if 2 ^ vm.kpool.shift ≤ vm.kpool.used then vm.kpoolResize (vm.kpool.shift + 1) else return vm

section

variable (final : BitVec 64 → Bytes → Int) (depth : Nat)

/-- `gc_record` of an allocation. -/
def gcRecord (due : Bool) (vm : Vm) : Except Stop Vm :=
  if due then vm.collect final depth else return vm

/-- `gc_new`: the object is gray, and not listed before the collection. -/
def gcNew (due : Bool) (obj : Obj) (vm : Vm) : Except Stop (Addr × Vm) := do
  let x := vm.next
  let vm ← gcRecord final depth due { vm with
    next := x + 1
    obj := Function.update vm.obj x (some obj)
    marked := Function.update vm.marked x grayBit0 }
  return (x, { vm with alloced := x :: vm.alloced })

/-- `kstr_new`. -/
def kstrNew (raw due : Bool) (z : Bytes) (vm : Vm) : Except Stop (Addr × Vm) :=
  if raw then do
    let vm ← vm.gcRecord final depth due
    let x := vm.next
    return (x, { vm with
      next := x + 1
      obj := Function.update vm.obj x (some (.kstr z 0))
      marked := Function.update vm.marked x grayBit0 })
  else do
    let (x, vm) ← vm.gcNew final depth due (.kstr [] 0)
    return (x, { vm with obj := Function.update vm.obj x (some (.kstr z 0)) })

/-- `kpool_insert`. -/
def kpoolInsert (due : Bool) (z : Bytes) (vm : Vm) : Except Stop (Addr × Vm) := do
  let (kz, vm) ← vm.kstrNew final depth true due z
  let vm ← vm.kpoolGrow
  let (hash, vm) ← vm.kstrHash kz
  return (kz, { vm with kpool := { vm.kpool with
    slot := vm.kpool.slot.modify (hash.toNat % 2 ^ vm.kpool.shift) (kz :: ·)
    used := vm.kpool.used + 1 } })

/-- The loop of `kpool_index`. -/
def kpoolSearch (vm : Vm) (z : Bytes) : List Addr → Except Fault (Option Addr)
  | [] => return none
  | x :: next => do
      if (← vm.kstr x) = z then return some x
      kpoolSearch vm z next

/-- `kpool_index`. -/
def kpoolIndex (due : Bool) (z : Bytes) (vm : Vm) : Except Stop (Addr × Vm) :=
  match vm.kpool.slot[(kzHash z).toNat % 2 ^ vm.kpool.shift]? with
  | none => throw (.fault (.bounds "kt->slot"))
  | some list =>
      match kpoolSearch vm z list with
      | .error f => throw (.fault f)
      | .ok (some x) => return (x, vm)
      | .ok none => vm.kpoolInsert final depth due z

/-- `kstr_fetch` of the bytes `z`. -/
def kstrFetch (due : Bool) (z : Bytes) (vm : Vm) : Except Stop (Addr × Vm) :=
  if z.length < maxKpoolLen then vm.kpoolIndex final depth due z
  else vm.kstrNew final depth false due z

end

/-- `gc_release`. -/
def gcRelease (o : Addr) (vm : Vm) : Vm :=
  { vm with marked := Function.update vm.marked o (vm.marked o &&& ~~~grayBit0) }

end Vm

/-! ## Runs -/

/-- The contents of a string. -/
def Obj.content : Obj → Option Bytes
  | .kstr land _ => some land
  | _ => none

def Vm.content (vm : Vm) (o : Addr) : Option Bytes := (vm.obj o).bind Obj.content

/-- The strings of the pool. -/
def Vm.pooled (vm : Vm) : List Addr := vm.kpool.slot.flatten

/-- What the machine does besides: it makes and frees other objects, hashes
strings, and sets marks, but the gray bit of a string. The rest of a sweep that a
finalizer has stopped is part of it, so that strings may be gone that are neither
pooled nor gray. -/
structure Other (vm vm' : Vm) : Prop where
  kpool : vm'.kpool = vm.kpool
  next : vm.next ≤ vm'.next
  alloced : ∀ o ∈ vm'.alloced, o < vm'.next ∧ (o ∈ vm.alloced ∨ vm.next ≤ o)
  nodup : vm'.alloced.Nodup
  content : ∀ o z, vm'.content o = some z → vm.content o = some z
  kept : ∀ o z, vm.content o = some z → o ∈ vm.pooled ∨ hasBits vm.marked o grayBit0 = true →
    vm'.content o = some z
  hashed : ∀ o z hash, vm'.obj o = some (.kstr z hash) →
    hash = kzHash z ∨ vm.obj o = some (.kstr z hash)
  gray : ∀ o z, vm.content o = some z →
    hasBits vm'.marked o grayBit0 = hasBits vm.marked o grayBit0

/-- What a step does with the strings. -/
inductive Act
  | fetch (z : Bytes) (o : Addr)
  | release (o : Addr)
  | mark
  | sweepPool
  | sweep
  | other

/-- A step of the machine. A sweep that a finalizer stops has swept the pool. -/
inductive Step (final : BitVec 64 → Bytes → Int) (depth : Nat) : Vm → Act → Vm → Prop
  | fetch {vm vm' : Vm} {due : Bool} {z : Bytes} {o : Addr}
      (hrun : vm.kstrFetch final depth due z = .ok (o, vm')) : Step final depth vm (.fetch z o) vm'
  | release {vm : Vm} {o : Addr} : Step final depth vm (.release o) (vm.gcRelease o)
  | mark {vm vm' : Vm} (hrun : vm.gcMark depth = .ok vm') : Step final depth vm .mark vm'
  | sweepPool {vm vm' : Vm} (hrun : vm.gcKpoolSweep final = .ok vm') :
      Step final depth vm .sweepPool vm'
  | sweep {vm vm' : Vm} (hrun : vm.gcSweep final = .ok vm') : Step final depth vm .sweep vm'
  | other {vm vm' : Vm} (hother : Other vm vm') : Step final depth vm .other vm'

/-- A machine as `calloc` and `gc_init` leave it. -/
def Vm.zero : Vm where
  obj := fun _ => none
  marked := fun _ => 0
  chunk := fun _ => none
  next := 0
  alloced := []
  pause := 0
  grab := 0
  kpool := ⟨[], 0, 0⟩
  global := 0
  info := []
  loc := []
  stk := []

end Ymd.Gc
