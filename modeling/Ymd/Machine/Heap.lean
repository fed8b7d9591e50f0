import Ymd.Code.Chunk
import Ymd.Table.HashMap
import Ymd.Table.SkipList

/-! # Objects

The objects of `value.h` other than strings, in a memory that gives out fresh
addresses: there is nothing at the addresses from `next` on.
-/

namespace Ymd

/-- `MAX_LOCAL`. -/
def maxLocal : Nat := 512

/-- `MAX_STACK`. -/
def maxStack : Nat := 128

/-- `struct func`; a native function has no chunk. `bind` is empty while it is
the null pointer. -/
structure Func where
  core : Option Chunk
  proto : Bytes
  nBind : Nat
  bind : List Variable
  argv : Option Addr

/-- `struct mand`, with the object `proto` refers to. -/
structure Mand where
  final : BitVec 64
  land : Bytes
  proto : Option Addr
  deriving DecidableEq

inductive Obj
  | func (fn : Func)
  | dyay (elem : List Variable)
  | hmap (map : Hmap)
  | skls (list : Skls)
  | mand (m : Mand)

structure Heap where
  obj : Addr → Option Obj
  next : Addr
  fresh : ∀ o, next ≤ o → obj o = none

namespace Heap

def empty : Heap := ⟨fun _ => none, 0, fun _ _ => rfl⟩

/-- `*o = obj` for an object that exists. -/
def set (heap : Heap) (o : Addr) (obj : Obj) : Heap where
  obj := fun a => if a = o ∧ o < heap.next then some obj else heap.obj a
  next := heap.next
  fresh := by
    intro a ha
    have hne : ¬ (a = o ∧ o < heap.next) := fun h => Nat.not_lt.2 ha (h.1 ▸ h.2)
    rw [if_neg hne]
    exact heap.fresh a ha

/-- `gc_new`, with the object it is initialised to. -/
def alloc (heap : Heap) (obj : Obj) : Heap × Addr where
  fst :=
    { obj := fun a => if a = heap.next then some obj else heap.obj a
      next := heap.next + 1
      fresh := by
        intro a ha
        rw [if_neg (Nat.ne_of_gt ha)]
        exact heap.fresh a (Nat.le_of_succ_le ha) }
  snd := heap.next

variable {heap : Heap} {o a : Addr} {obj obj' : Obj}

theorem lt_next (hobj : heap.obj o = some obj) : o < heap.next := by
  by_contra hge
  rw [heap.fresh o (Nat.le_of_not_lt hge)] at hobj
  cases hobj

@[simp] theorem next_set : (heap.set o obj).next = heap.next := rfl

theorem obj_set_self (hobj : heap.obj o = some obj') : (heap.set o obj).obj o = some obj :=
  if_pos ⟨rfl, lt_next hobj⟩

theorem obj_set_of_ne (hne : a ≠ o) : (heap.set o obj).obj a = heap.obj a :=
  if_neg fun h => hne h.1

@[simp] theorem next_alloc : (heap.alloc obj).1.next = heap.next + 1 := rfl

@[simp] theorem snd_alloc : (heap.alloc obj).2 = heap.next := rfl

@[simp] theorem obj_alloc_self : (heap.alloc obj).1.obj heap.next = some obj := if_pos rfl

theorem obj_alloc_of_ne (hne : a ≠ heap.next) : (heap.alloc obj).1.obj a = heap.obj a := if_neg hne

theorem obj_alloc_of_some (hobj : heap.obj a = some obj') :
    (heap.alloc obj).1.obj a = some obj' := by
  rw [obj_alloc_of_ne (Nat.ne_of_lt (lt_next hobj)), hobj]

/-- What the casts of `value_inl.h` report about an object of another type. -/
def badCast : Fault := .assertion "var->value.ref->type == tt"

/-- `func_x`. -/
def func (heap : Heap) (o : Addr) : Except Fault Func :=
  match heap.obj o with
  | some (.func fn) => pure fn
  | _ => throw badCast

/-- `dyay_x`. -/
def dyay (heap : Heap) (o : Addr) : Except Fault (List Variable) :=
  match heap.obj o with
  | some (.dyay elem) => pure elem
  | _ => throw badCast

/-- `hmap_x`. -/
def hmap (heap : Heap) (o : Addr) : Except Fault Hmap :=
  match heap.obj o with
  | some (.hmap map) => pure map
  | _ => throw badCast

/-- `skls_x`. -/
def skls (heap : Heap) (o : Addr) : Except Fault Skls :=
  match heap.obj o with
  | some (.skls list) => pure list
  | _ => throw badCast

/-- `mand_x`. -/
def mand (heap : Heap) (o : Addr) : Except Fault Mand :=
  match heap.obj o with
  | some (.mand m) => pure m
  | _ => throw badCast

theorem func_eq_ok {fn : Func} : heap.func o = .ok fn ↔ heap.obj o = some (.func fn) := by
  unfold Heap.func
  split
  next hobj => simp [hobj, pure, Except.pure]
  next hno =>
    constructor
    · rintro ⟨⟩
    · exact fun hobj => absurd hobj (hno fn)

theorem dyay_eq_ok {elem : List Variable} :
    heap.dyay o = .ok elem ↔ heap.obj o = some (.dyay elem) := by
  unfold Heap.dyay
  split
  next hobj => simp [hobj, pure, Except.pure]
  next hno =>
    constructor
    · rintro ⟨⟩
    · exact fun hobj => absurd hobj (hno elem)

theorem hmap_eq_ok {map : Hmap} : heap.hmap o = .ok map ↔ heap.obj o = some (.hmap map) := by
  unfold Heap.hmap
  split
  next hobj => simp [hobj, pure, Except.pure]
  next hno =>
    constructor
    · rintro ⟨⟩
    · exact fun hobj => absurd hobj (hno map)

theorem skls_eq_ok {list : Skls} : heap.skls o = .ok list ↔ heap.obj o = some (.skls list) := by
  unfold Heap.skls
  split
  next hobj => simp [hobj, pure, Except.pure]
  next hno =>
    constructor
    · rintro ⟨⟩
    · exact fun hobj => absurd hobj (hno list)

end Heap

end Ymd
