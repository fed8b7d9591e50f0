import Ymd.Foundation.Marking
import Ymd.Machine.Run
import Ymd.Pickle.Dump

/-! # The collector under a load

An allocation may find more memory in use than the threshold. Then what is reached
from the roots is marked, and the rest, which nothing refers to, is released. A function
whose `proto` or whose chunk's `file` is still the null pointer can not be marked, as
`gc_mark_func` follows both.
-/

namespace Ymd

open Foundation

/-- The machine, with what else a load works on: the tables of the chunks that only a
dump reads, the functions with a null pointer for `proto` or `file`, and at which of the
next steps an allocation finds `used > threshold` while the collector does not pause. -/
structure Mem where
  l : Ctx
  debug : Addr → Debug
  bare : Addr → Bool
  due : Nat → Bool

abbrev MemM := EStateM Stop Mem

/-- An operation of the machine. -/
def onVm {α : Type} (x : VmM α) : MemM α := fun m =>
  match x m.l with
  | .ok a l => .ok a { m with l := l }
  | .error stop l => .error stop { m with l := l }

/-! ## What is marked -/

/-- `value.ref`, of the types whose objects refer to others. -/
def Variable.refs : Variable → List Addr
  | .func o | .dyay o | .hmap o | .skls o | .mand o => [o]
  | .nil | .int _ | .bool _ | .ext _ | .kstr _ => []

/-- What the `gc_mark_` function of an object visits. -/
def Heap.kids (heap : Heap) (o : Addr) : List Addr :=
  match heap.obj o with
  | some (.func fn) =>
      fn.argv.toList ++ (fn.bind.take fn.nBind).flatMap Variable.refs ++
        (fn.core.elim [] Chunk.kval).flatMap Variable.refs
  | some (.dyay elem) => elem.flatMap Variable.refs
  | some (.hmap map) => (flatPairs map.slots).flatMap Variable.refs
  | some (.skls list) =>
      match list.traverse with
      | .ok pairs => (flatPairs pairs).flatMap Variable.refs
      | .error _ => []
  | some (.mand m) => m.proto.toList
  | none => []

/-- The slots of the local area that `gc_mark` visits. -/
def Ctx.window (l : Ctx) : List Variable :=
  match l.info with
  | [] => []
  | info :: _ =>
      match l.heap.func info.run with
      | .ok fn => (List.range (info.loc + funcNlocal fn).toNat).map l.loc
      | .error _ => []

/-- Where `gc_mark` begins. -/
def Ctx.roots (l : Ctx) : List Addr :=
  l.global :: (l.window.flatMap Variable.refs ++ l.info.map CallInfo.run ++
    l.stk.flatMap Variable.refs)

/-- What `gc_mark` marks. -/
def Ctx.gcMark (l : Ctx) : List Addr := markFrom l.heap.kids (l.heap.next + 1) [] l.roots

/-- A function without `proto` or `file` is reached from the roots. -/
def Mem.Exposed (m : Mem) : Prop := ∃ o, m.bare o = true ∧ Reached m.l.heap.kids m.l.roots o

theorem mem_gcMark_iff {l : Ctx} {o : Addr} :
    o ∈ l.gcMark ↔ Reached l.heap.kids l.roots o := by
  have hlive : ∀ a ∉ Finset.range l.heap.next, l.heap.kids a = [] := fun a ha => by
    rw [Heap.kids, l.heap.fresh a (by simpa using ha)]
  refine mem_markFrom_iff hlive ?_
  rw [Finset.card_range]
  exact Nat.lt_succ_self _

instance (m : Mem) : Decidable m.Exposed :=
  decidable_of_iff (m.l.gcMark.any m.bare = true) (by
    simp only [List.any_eq_true, mem_gcMark_iff, Mem.Exposed, and_comm])

/-! ## Allocations -/

/-- The machine when one more step has allocated. -/
def Mem.tick (m : Mem) : Mem := { m with due := fun i => m.due (i + 1) }

/-- `gc_record` of an allocation. -/
def gcRecord : MemM Unit := fun m =>
  if m.due 0 = true ∧ m.Exposed then .error (.fault (.bounds "o->proto")) m
  else .ok () m.tick

/-- An operation of the machine that allocates. -/
def onHeap {α : Type} (x : VmM α) : MemM α := do
  gcRecord
  onVm x

/-- No allocation finds too much memory in use. -/
def Mem.Quiet (m : Mem) : Prop := ∀ i, m.due i = false

variable {α : Type} {m m' : Mem} {x : VmM α} {a : α}

theorem Mem.Quiet.tick (h : m.Quiet) : m.tick = m := by
  have hdue : (fun i => m.due (i + 1)) = m.due := funext fun i => (h (i + 1)).trans (h i).symm
  rw [Mem.tick, hdue]

theorem gcRecord_ok_iff : gcRecord m = .ok () m' ↔ (m.due 0 = true → ¬ m.Exposed) ∧ m' = m.tick := by
  unfold gcRecord
  by_cases h : m.due 0 = true ∧ m.Exposed
  · rw [if_pos h]
    exact iff_of_false nofun fun hok => hok.1 h.1 h.2
  · rw [if_neg h]
    constructor
    · rintro ⟨⟩
      exact ⟨fun hdue hexposed => h ⟨hdue, hexposed⟩, rfl⟩
    · rintro ⟨-, rfl⟩
      rfl

theorem gcRecord_of_quiet (h : m.Quiet) : gcRecord m = .ok () m :=
  gcRecord_ok_iff.2 ⟨fun hdue => (by rw [h 0] at hdue; cases hdue), h.tick.symm⟩

theorem onHeap_of_quiet (h : m.Quiet) : onHeap x m = onVm x m := bind_of_ok (gcRecord_of_quiet h)

theorem onVm_ok_iff : onVm x m = .ok a m' ↔ ∃ l, x m.l = .ok a l ∧ m' = { m with l := l } := by
  unfold onVm
  cases x m.l with
  | ok b l =>
      constructor
      · rintro ⟨⟩
        exact ⟨l, rfl, rfl⟩
      · rintro ⟨l', hl, rfl⟩
        cases hl
        rfl
  | error stop l =>
      constructor
      · rintro ⟨⟩
      · rintro ⟨l', hl, _⟩
        cases hl

theorem onHeap_ok_iff : onHeap x m = .ok a m' ↔ (m.due 0 = true → ¬ m.Exposed) ∧
    ∃ l, x m.l = .ok a l ∧ m' = { m.tick with l := l } := by
  constructor
  · intro h
    obtain ⟨u, m₁, hrecord, hrest⟩ := bind_ok_iff.1 h
    obtain ⟨hquiet, rfl⟩ := gcRecord_ok_iff.1 hrecord
    exact ⟨hquiet, onVm_ok_iff.1 hrest⟩
  · rintro ⟨hquiet, h⟩
    have hrecord : gcRecord m = .ok () m.tick := gcRecord_ok_iff.2 ⟨hquiet, rfl⟩
    exact (bind_of_ok hrecord).trans (onVm_ok_iff.2 h)

end Ymd
