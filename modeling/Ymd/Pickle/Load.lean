import Ymd.Pickle.Collector

/-! # Reading pickles

The input stream of `zstream.h` and the load functions of `pickle.c`. A read
outside the buffer is a fault. Next to the cursor the stream keeps the positions
it has been at, which the source does not.
-/

namespace Ymd

/-! ## The machine under a load -/

/-- `ymd_kstr`, with the bytes it fetches. -/
def ymdKstr (z : Bytes) : VmM Unit := ymdPush (.kstr z)

/-- `ymd_dyay`. -/
def ymdDyay : VmM Unit := do ymdPush (.dyay (← gcNew (.dyay [])))

/-- `ymd_add`. -/
def ymdAdd : VmM Unit := do
  match ← ymdTop 1 with
  | .dyay o =>
      let arr ← check ((← get).heap.dyay o)
      let v ← ymdTop 0
      storeObj o (.dyay (arr ++ [v]))
      ymdPop 1
  | _ => panic "Variable is not `dyay`"

/-- `ymd_hmap`. -/
def ymdHmap (k : Int) : VmM Unit := do
  let map ← check (Hmap.new k)
  ymdPush (.hmap (← gcNew (.hmap map)))

/-- `ymd_skls`. -/
def ymdSkls : VmM Unit := do ymdPush (.skls (← gcNew (.skls Skls.new)))

section

variable (env : Env)

/-- The `switch` of `vm_put`, and the store through its result. -/
def vmPutOn (var key v : Variable) : VmM Unit :=
  match var with
  | .skls o => do
      let x ← sklsPut env o key
      storeObj o (.skls (Skls.store x v))
  | .hmap o => do
      let x ← hmapPut env o key
      storeObj o (.hmap (x.store v))
  | .dyay o => do
      let arr ← check ((← get).heap.dyay o)
      let i ← lift (intOf key)
      if i.slt 0 ∨ (arr.length : Int) ≤ i.toInt then
        fault (.assertion "i >= 0LL && i < (ymd_int_t)arr->count")
      else storeObj o (.dyay (arr.set i.toNat v))
  | .mand o => do
      match ← protoOf o with
      | (proto, .hmap _) =>
          let x ← hmapPut env proto key
          storeObj proto (.hmap (x.store v))
      | (proto, .skls _) =>
          let x ← sklsPut env proto key
          storeObj proto (.skls (Skls.store x v))
      | _ => fault (.assertion "o->proto->type == T_HMAP || o->proto->type == T_SKLS")
  | _ => panic "Variable can not be put"

/-- `ymd_putf`. -/
def ymdPutf : VmM Unit := do
  let var ← ymdTop 2
  let key ← ymdTop 1
  if key.isNil then panic "No any key will be `nil`"
  let v ← ymdTop 0
  vmPutOn env var key v
  ymdPop 2

end

/-- `ymd_naked` with a chunk fresh from `mm_zalloc`. -/
def ymdNaked : VmM Addr := do
  let o ← gcNew (.func ⟨some Chunk.zero, [], 0, [], none⟩)
  ymdPush (.func o)
  return o

/-- An assignment to a function object. -/
def editFunc (o : Addr) (edit : Func → Func) : VmM Unit := do
  let fn ← funcAt o
  storeObj o (.func (edit fn))

/-- An assignment to the chunk of a function object. -/
def editCore (o : Addr) (edit : Chunk → Chunk) : VmM Unit :=
  editFunc o fun fn => { fn with core := fn.core.map edit }

/-- `ymd_bind`. -/
def ymdBind (i : Nat) : VmM Unit := do
  let o ← lift (funcOf (← ymdTop 1))
  let v ← ymdTop 0
  let fn ← check (funcBind (← funcAt o) i v)
  storeObj o (.func fn)
  ymdPop 1

/-- `*ymd_top(l, 0)`, and `ymd_pop(l, 1)` behind it. -/
def takeTop : VmM Variable := do
  let v ← ymdTop 0
  ymdPop 1
  return v

/-- `kstr_of(l, ymd_top(l, 0))`, and `ymd_pop(l, 1)` behind it. -/
def takeKstr : VmM Bytes := do
  let z ← lift (kstrOf (← ymdTop 0))
  ymdPop 1
  return z

/-- An assignment to the line table or the file name of a chunk. -/
def editDebug (o : Addr) (edit : Debug → Debug) : MemM Unit :=
  modify fun m => { m with debug := Function.update m.debug o (edit (m.debug o)) }

/-- What `mm_zalloc` leaves in the pointers of a new chunk. -/
def Debug.zero : Debug := ⟨[], []⟩

/-- `fn->proto` and `x->file` are null pointers, or both are set. -/
def setBare (o : Addr) (null : Bool) : MemM Unit :=
  modify fun m => { m with bare := Function.update m.bare o null }

def Mem.initial (levels : Nat → Nat) : Mem where
  l := .initial levels
  debug := fun _ => .zero
  bare := fun _ => false
  due := fun _ => false

/-! ## The stream -/

/-- `struct zistream` on a buffer, and `*ok`. -/
structure Load where
  mem : Mem
  last : Int
  ok : Bool
  trail : List Int

abbrev LoadM := EStateM Stop Load

/-- A step of the machine inside a load. -/
def onMem {α : Type} (x : MemM α) : LoadM α := fun s =>
  match x s.mem with
  | .ok a mem => .ok a { s with mem := mem }
  | .error stop mem => .error stop { s with mem := mem }

def loadFault {α : Type} (f : Fault) : LoadM α := throw (.fault f)

section

variable (z : Bytes)

/-- `zis_remain`. -/
def zisRemain : LoadM Int := do return z.length - (← get).last

/-- `zis_advance`. -/
def zisAdvance (k : Int) : LoadM Unit := do
  if (← zisRemain z) < k then loadFault (.assertion "zis_remain(is) >= k")
  else modify fun s => { s with last := s.last + k, trail := (s.last + k) :: s.trail }

/-- Decode an integer at the cursor and move behind it. -/
def zisVarint {α : Type} (decode : Bytes → Option (α × Bytes)) : LoadM α := do
  let s ← get
  if s.last < 0 ∨ z.length < s.last then loadFault (.bounds "is->buf")
  else
    match decode (z.drop s.last.toNat) with
    | none => loadFault (.bounds "is->buf")
    | some (x, rest) => do
        zisAdvance z (z.length - s.last - rest.length)
        return x

/-- `zis_u32`. -/
def zisU32 : LoadM (BitVec 32) := zisVarint z uint32decode

/-- `zis_u64`. -/
def zisU64 : LoadM (BitVec 64) := zisVarint z uint64decode

/-- `zis_i64`. -/
def zisI64 : LoadM YmdInt := zisVarint z sint64decode

/-- The `n` bytes at the cursor. -/
def zisBytes (n : Nat) : LoadM Bytes := do
  let s ← get
  if n = 0 then return []
  else if s.last < 0 ∨ z.length < s.last + n then loadFault (.bounds "is->buf")
  else return (z.drop s.last.toNat).take n

/-- The bytes at the cursor up to a NUL, as `strlen` counts them. -/
def zisCstr : LoadM Bytes := do
  let s ← get
  if s.last < 0 ∨ z.length < s.last then loadFault (.bounds "is->buf")
  else if 0 ∈ z.drop s.last.toNat then return (z.drop s.last.toNat).takeWhile (· ≠ 0)
  else loadFault (.bounds "is->buf")

/-- `zis_fetch`: a negative count passes the assertion and is an enormous one
for `memcpy`. -/
def zisFetch (k : Int) : LoadM Bytes := do
  if (← zisRemain z) < k then loadFault (.assertion "zis_remain(is) >= k")
  else if k < 0 then loadFault (.bounds "is->buf")
  else do
    let bytes ← zisBytes z k.toNat
    zisAdvance z k
    return bytes

end

/-! ## The load functions -/

/-- The failure of a `pickle_assert`. -/
def loadFail : LoadM Unit := modify fun s => { s with ok := false }

/-- `CHECK_OK` behind a call. -/
def loadOk {α : Type} (x : LoadM α) (rest : LoadM Unit) : LoadM Unit := do
  let _ ← x
  if (← get).ok then rest else return ()

/-- The instructions in the bytes fetched for `k` of them. -/
def instWords : (k : Nat) → Bytes → List Inst
  | 0, _ => []
  | k + 1, b0 :: b1 :: b2 :: b3 :: rest =>
      (b3.toBitVec ++ b2.toBitVec ++ b1.toBitVec ++ b0.toBitVec) :: instWords k rest
  | k + 1, _ => 0 :: instWords k []

section

variable (env : Env) (z : Bytes)

/-- What `kstr_fetch` reads at the cursor: under a negative length the string
ends at a NUL. -/
def fetchKstr (len : Int) : LoadM Bytes := if len < 0 then zisCstr z else zisBytes z len.toNat

/-- `ymd_load_kstr` behind the length. -/
def loadKstrOf (len : Int) : LoadM Unit := do
  if (← zisRemain z) < len then loadFail
  else do
    let bytes ← fetchKstr z len
    onMem (onHeap (ymdKstr bytes))
    zisAdvance z len

/-- `ymd_load_kstr`. -/
def ymdLoadKstr : LoadM Unit := do loadKstrOf z (← zisU32 z).toInt

/-- The line table of `k` instructions. -/
def loadLines : (k : Nat) → LoadM (List (BitVec 32))
  | 0 => return []
  | k + 1 => do
      let line ← zisU32 z
      let rest ← loadLines k
      return line :: rest

/-- The local names of a chunk. -/
def loadLz : (k : Nat) → (names : List Bytes) → (List Bytes → LoadM Unit) → LoadM Unit
  | 0, names, done => done names
  | k + 1, names, done =>
      loadOk (ymdLoadKstr z) do
        let name ← onMem (onVm takeKstr)
        loadLz k (names ++ [name]) done

variable (parse : LoadM Int)

/-- The constants of a chunk. -/
def loadKvals : (k : Nat) → (vals : List Variable) → (List Variable → LoadM Unit) → LoadM Unit
  | 0, vals, done => done vals
  | k + 1, vals, done =>
      loadOk parse do
        let v ← onMem (onVm takeTop)
        loadKvals k (vals ++ [v]) done

/-- The sections of `ymd_load_chunk` behind the local names. -/
def loadTail (o : Addr) : LoadM Unit :=
  loadOk (ymdLoadKstr z) do
    let file ← onMem (onVm takeKstr)
    onMem (editDebug o fun debug => { debug with file := file })
    onMem (setBare o false)
    let kargs := ((← zisU32 z).setWidth 16).toNat
    onMem (onVm (editCore o fun core => { core with kargs := kargs }))
    if kargs < 16 then return () else loadFail

/-- The section of the local names and what follows it. -/
def loadNames (o : Addr) : LoadM Unit := do
  let k := (← zisU32 z).toInt
  if 0 < k then
    if k < 0xFFFF then do
      onMem gcRecord
      loadLz z k.toNat [] fun names => do
        onMem (onVm (editCore o fun core => { core with lz := names }))
        loadTail z o
    else loadFail
  else loadTail z o

/-- The section of the constants and what follows it; `kkval` has 16 bits. -/
def loadConsts (o : Addr) : LoadM Unit := do
  let k := (← zisU32 z).toInt
  if 0 < k then do
    onMem gcRecord
    loadKvals parse k.toNat [] fun vals => do
      onMem (onVm (editCore o fun core => { core with kval := vals.take (k.toNat % 2 ^ 16) }))
      loadNames z o
  else loadNames z o

/-- `ymd_load_chunk` into the chunk of the function at `o`. -/
def ymdLoadChunk (o : Addr) : LoadM Unit := do
  let k := (← zisU32 z).toInt
  if 0 < k then
    onMem gcRecord
    let bytes ← zisFetch z ((4 * k).bmod (2 ^ 32))
    onMem gcRecord
    let lines ← loadLines z k.toNat
    onMem (editDebug o fun debug => { debug with line := lines })
    onMem (onVm (editCore o fun core => { core with inst := instWords k.toNat bytes }))
    loadConsts z parse o
  else loadFail

/-- The loop of `ymd_load_func` over the bound values, from number `i` on. -/
def loadBinds : (k i : Nat) → LoadM Unit → LoadM Unit
  | 0, _, done => done
  | k + 1, i, done =>
      loadOk parse do
        onMem (onHeap (ymdBind i))
        loadBinds k (i + 1) done

/-- `ymd_load_func`. -/
def ymdLoadFunc : LoadM Unit := do
  let o ← onMem (onHeap ymdNaked)
  onMem (editDebug o fun _ => Debug.zero)
  onMem (setBare o true)
  loadOk (ymdLoadKstr z) do
    let proto ← onMem (onVm takeKstr)
    onMem (onVm (editFunc o fun fn => { fn with proto := proto }))
    let nBind := ((← zisU32 z).setWidth 16).toNat
    onMem (onVm (editFunc o fun fn => { fn with nBind := nBind }))
    loadBinds parse nBind 0 (ymdLoadChunk z parse o)

/-- The loop of `ymd_load_dyay`. -/
def loadElems : (i : Nat) → LoadM Unit
  | 0 => pure ()
  | i + 1 =>
      loadOk parse do
        onMem (onHeap ymdAdd)
        loadElems i

/-- `ymd_load_dyay`: the loop `while (i--)` runs through negative numbers. -/
def ymdLoadDyay : LoadM Unit := do
  let i ← zisU32 z
  onMem (onHeap ymdDyay)
  loadElems parse i.toNat

/-- The loop of `ymd_load_hmap` and `ymd_load_skls`. -/
def loadPairs : (k : Nat) → LoadM Unit
  | 0 => pure ()
  | k + 1 =>
      loadOk parse <| loadOk parse do
        onMem (onHeap (ymdPutf env))
        loadPairs k

/-- `ymd_load_hmap`. -/
def ymdLoadHmap : LoadM Unit := do
  let k := (← zisU32 z).toInt
  onMem (onHeap (ymdHmap k))
  loadPairs env parse k.toNat

/-- `ymd_load_skls`. -/
def ymdLoadSkls : LoadM Unit := do
  let k := (← zisU32 z).toInt
  onMem (onHeap ymdSkls)
  loadPairs env parse k.toNat

end

section

variable (env : Env) (z : Bytes)

/-- The end of `ymd_parse`: the bytes behind the tag. -/
def parsed (off : Int) : LoadM Int := do return (← get).last - off

/-- A case of `ymd_parse` under `CHECK_OK`. -/
def parseOk (off : Int) (x : LoadM Unit) : LoadM Int := do
  x
  if (← get).ok then parsed off else return 0

/-- `ymd_parse`; `depth` bounds the nested calls. -/
def ymdParse : (depth : Nat) → LoadM Int
  | 0 => loadFault .nesting
  | depth + 1 => do
      let tt ← zisU32 z
      let off := (← get).last
      match tt.toNat with
      | 0 => do
          onMem (onVm (ymdPush .nil))
          parsed off
      | 1 => do
          let i ← zisI64 z
          onMem (onVm (ymdPush (.int i)))
          parsed off
      | 2 => do
          let i ← zisU64 z
          onMem (onVm (ymdPush (.bool ((i.setWidth 32).signExtend 64))))
          parsed off
      | 4 => parseOk off (ymdLoadKstr z)
      | 5 => parseOk off (ymdLoadFunc z (ymdParse depth))
      | 6 => parseOk off (ymdLoadDyay z (ymdParse depth))
      | 7 => parseOk off (ymdLoadHmap env z (ymdParse depth))
      | 8 => parseOk off (ymdLoadSkls env z (ymdParse depth))
      | _ => do
          loadFail
          parsed off

/-- `ymd_pload` behind `ZIS_INIT`. -/
def ploadFrom (depth : Nat) : LoadM Int := do
  let i ← ymdParse env z depth
  if 0 < i ∧ (← get).ok then return (← get).last
  else
    onMem (onVm (ymdPop 1))
    return 0

/-- `ymd_pload`. -/
def ymdPload (depth : Nat) (mem : Mem) : EStateM.Result Stop Load Int :=
  ploadFrom env z depth ⟨mem, 0, true, [0]⟩

end

end Ymd
