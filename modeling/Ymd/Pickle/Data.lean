import Ymd.Pickle.Trace
import Ymd.Pickle.Load
import Ymd.Table.FiniteMap
import Ymd.Table.SortedMap

/-! # Data

The values a pickle is meant for: nil, booleans, integers, strings, and arrays
and maps of these without cycles. What such a value is written as, and when two
of them in different memories are the same.
-/

namespace Ymd

open Foundation

/-- The address of a container. -/
def Variable.container : Variable → Option Addr
  | .dyay o => some o
  | .hmap o => some o
  | .skls o => some o
  | _ => none

/-- The elements of an array, the keys and the values of a map. -/
def Heap.parts (heap : Heap) : Variable → List Variable
  | .dyay o =>
      match heap.obj o with
      | some (.dyay elem) => elem
      | _ => []
  | .hmap o =>
      match heap.obj o with
      | some (.hmap map) => flatPairs map.slots
      | _ => []
  | .skls o =>
      match heap.obj o with
      | some (.skls list) =>
          match list.traverse with
          | .ok pairs => flatPairs pairs
          | .error _ => []
      | _ => []
  | _ => []

/-- There is a container at `o` in the value. -/
inductive Reaches (heap : Heap) : Variable → Addr → Prop
  | here {v : Variable} {o : Addr} (ho : v.container = some o) : Reaches heap v o
  | inside {v e : Variable} {o : Addr} (he : e ∈ heap.parts v) (ho : Reaches heap e o) :
      Reaches heap v o

/-- A hash map as the operations leave it, with scalar keys. -/
def Hmap.Scalar (map : Hmap) : Prop := map.Wf Variable.IsScalarKey scalarHash

/-- A skip list as the operations leave it, with scalar keys, and its entries. -/
def Skls.Scalar (list : Skls) (pairs : List (Variable × Variable)) : Prop :=
  ∃ log cells, list.Represents Variable.IsScalarKey scalarContent log cells ∧
    pairs = cells.map list.entry

/-- Data nested less than `depth` deep. Containers have fewer than `2 ^ 30`
entries, and there is no integer that the format can not represent. -/
def IsData (heap : Heap) : (depth : Nat) → Variable → Prop
  | 0, _ => False
  | depth + 1, v =>
      match v with
      | .nil => True
      | .int i => i ≠ BitVec.intMin 64
      | .bool i => (i.setWidth 32).signExtend 64 = i
      | .kstr z => z.length ≤ maxStaticLen
      | .dyay o => ∃ elem, heap.obj o = some (.dyay elem) ∧ elem.length < 2 ^ 30 ∧
          ∀ e ∈ elem, IsData heap depth e
      | .hmap o => ∃ map, heap.obj o = some (.hmap map) ∧ map.Scalar ∧
          map.slots.length < 2 ^ 30 ∧ ∀ p ∈ map.slots, IsData heap depth p.1 ∧ IsData heap depth p.2
      | .skls o => ∃ list pairs, heap.obj o = some (.skls list) ∧ list.Scalar pairs ∧
          pairs.length < 2 ^ 30 ∧ ∀ p ∈ pairs, IsData heap depth p.1 ∧ IsData heap depth p.2
      | _ => False

/-- The fields of data. -/
def dataFields (heap : Heap) : (depth : Nat) → Variable → List Field
  | 0, _ => []
  | depth + 1, v =>
      match v with
      | .nil => (Trace.count 0).fields
      | .int i => (Trace.count 1 ++ Trace.field 10 (sint64encode i)).fields
      | .bool i => (Trace.count 2 ++ Trace.field 10 (uint64encode i)).fields
      | .kstr z => (Trace.kstr z).fields
      | .dyay o => (Trace.count 6 ++ Trace.count (heap.parts (.dyay o)).length).fields ++
          (heap.parts (.dyay o)).flatMap (dataFields heap depth)
      | .hmap o => (Trace.count 7 ++ Trace.count ((heap.parts (.hmap o)).length / 2)).fields ++
          (heap.parts (.hmap o)).flatMap (dataFields heap depth)
      | .skls o => (Trace.count 8 ++ Trace.count ((heap.parts (.skls o)).length / 2)).fields ++
          (heap.parts (.skls o)).flatMap (dataFields heap depth)
      | _ => []

theorem length_flatPairs (pairs : List (Variable × Variable)) :
    (flatPairs pairs).length = 2 * pairs.length := by
  induction pairs with
  | nil => rfl
  | cons p pairs ih =>
      change (p.1 :: p.2 :: flatPairs pairs).length = _
      rw [List.length_cons, List.length_cons, ih, List.length_cons]
      ring

theorem mem_flatPairs {pairs : List (Variable × Variable)} {e : Variable} :
    e ∈ flatPairs pairs ↔ ∃ p ∈ pairs, e = p.1 ∨ e = p.2 := by
  simp [flatPairs]

theorem Skls.Scalar.traverse {list : Skls} {pairs : List (Variable × Variable)}
    (hscalar : list.Scalar pairs) : list.traverse = .ok pairs := by
  obtain ⟨log, cells, hrep, rfl⟩ := hscalar
  exact hrep.traverse_eq

/-! ## The trace of data -/

section

variable {heap : Heap} {debug : Addr → Debug} {depth d : Nat} {v : Variable}

/-- A container of data: its address, its tag, the number of its entries. -/
structure IsContainer (heap : Heap) (debug : Addr → Debug) (d : Nat) (v : Variable) (o : Addr)
    (tt n : Nat) : Prop where
  here : v.container = some o
  parts : ∀ e ∈ heap.parts v, IsData heap d e
  count : n < 2 ^ 30
  fields : dataFields heap (d + 1) v = (Trace.count tt ++ Trace.count n).fields ++
    (heap.parts v).flatMap (dataFields heap d)
  walk : ∀ depth marked, walk heap debug (depth + 1) marked v = if marked o then .refuse
    else .container (Ymd.walk heap debug depth (Function.update marked o true)) tt
      (.ok (n, heap.parts v))

/-- Data is a scalar with its own fields, or a container. -/
theorem data_cases (debug : Addr → Debug) (hdata : IsData heap (d + 1) v) :
    (v.container = none ∧ heap.parts v = [] ∧ ∀ depth marked,
      walk heap debug (depth + 1) marked v = ⟨dataFields heap (d + 1) v, .finished⟩) ∨
    ∃ o tt n, IsContainer heap debug d v o tt n := by
  cases v with
  | nil => exact .inl ⟨rfl, rfl, fun _ _ => rfl⟩
  | int i => exact .inl ⟨rfl, rfl, fun _ _ => rfl⟩
  | bool i => exact .inl ⟨rfl, rfl, fun _ _ => rfl⟩
  | kstr z => exact .inl ⟨rfl, rfl, fun _ _ => rfl⟩
  | ext p => exact hdata.elim
  | func o => exact hdata.elim
  | mand o => exact hdata.elim
  | dyay o =>
      obtain ⟨elem, hobj, hlen, helem⟩ := hdata
      have hparts : heap.parts (.dyay o) = elem := by simp only [Heap.parts, hobj]
      refine .inr ⟨o, 6, elem.length, rfl, hparts ▸ helem, hlen, ?_, fun depth marked => ?_⟩
      · rw [dataFields, hparts]
      · simp only [walk, Heap.dyay_eq_ok.2 hobj, hparts]
        rfl
  | hmap o =>
      obtain ⟨map, hobj, _, hlen, hpairs⟩ := hdata
      have hparts : heap.parts (.hmap o) = flatPairs map.slots := by simp only [Heap.parts, hobj]
      refine .inr ⟨o, 7, map.slots.length, rfl, ?_, hlen, ?_, fun depth marked => ?_⟩
      · intro e he
        rw [hparts, mem_flatPairs] at he
        obtain ⟨p, hp, rfl | rfl⟩ := he
        · exact (hpairs p hp).1
        · exact (hpairs p hp).2
      · rw [dataFields, hparts, length_flatPairs, Nat.mul_div_cancel_left _ (by decide)]
      · simp only [walk, Heap.hmap_eq_ok.2 hobj, hparts]
        rfl
  | skls o =>
      obtain ⟨list, pairs, hobj, hscalar, hlen, hpairs⟩ := hdata
      have hparts : heap.parts (.skls o) = flatPairs pairs := by
        simp only [Heap.parts, hobj, hscalar.traverse]
      refine .inr ⟨o, 8, pairs.length, rfl, ?_, hlen, ?_, fun depth marked => ?_⟩
      · intro e he
        rw [hparts, mem_flatPairs] at he
        obtain ⟨p, hp, rfl | rfl⟩ := he
        · exact (hpairs p hp).1
        · exact (hpairs p hp).2
      · rw [dataFields, hparts, length_flatPairs, Nat.mul_div_cancel_left _ (by decide)]
      · simp only [walk, Heap.skls_eq_ok.2 hobj, hparts]
        change (if marked o = true then _ else Trace.container _ 8
          (list.traverse >>= fun pairs => pure (pairs.length, flatPairs pairs))) = _
        rw [hscalar.traverse]
        rfl

theorem IsData.parts (hdata : IsData heap (d + 1) v) : ∀ e ∈ heap.parts v, IsData heap d e := by
  obtain ⟨_, hnone, _⟩ | ⟨o, tt, n, hcontainer⟩ := data_cases (fun _ => Debug.zero) hdata
  · rw [hnone]
    exact fun e he => absurd he List.not_mem_nil
  · exact hcontainer.parts

/-- What is inside data is data, nested less deep. -/
theorem Reaches.data {o : Addr} (hreaches : Reaches heap v o) (hdata : IsData heap d v) :
    ∃ u d', d' ≤ d ∧ u.container = some o ∧ IsData heap d' u := by
  induction hreaches generalizing d with
  | here ho => exact ⟨_, d, le_rfl, ho, hdata⟩
  | inside he _ ih =>
      cases d with
      | zero => exact hdata.elim
      | succ d =>
          obtain ⟨u, d', hle, hu, hdata'⟩ := ih (hdata.parts _ he)
          exact ⟨u, d', Nat.le_succ_of_le hle, hu, hdata'⟩

/-- There is one container at an address. -/
theorem container_unique {u : Variable} {o : Addr} {d' : Nat} (hv : v.container = some o)
    (hu : u.container = some o) (hdata : IsData heap d v) (hdata' : IsData heap d' u) : u = v := by
  cases d with
  | zero => exact hdata.elim
  | succ d =>
      cases d' with
      | zero => exact hdata'.elim
      | succ d' =>
          cases v <;> cases hv <;> cases u <;> cases hu <;> first
            | rfl
            | (obtain ⟨_, hobj, _⟩ := hdata
               obtain ⟨_, hobj', _⟩ := hdata'
               rw [hobj] at hobj'
               cases hobj')
            | (obtain ⟨_, _, hobj, _⟩ := hdata
               obtain ⟨_, hobj', _⟩ := hdata'
               rw [hobj] at hobj'
               cases hobj')
            | (obtain ⟨_, hobj, _⟩ := hdata
               obtain ⟨_, _, hobj', _⟩ := hdata'
               rw [hobj] at hobj'
               cases hobj')

/-- No container of data is inside itself. -/
theorem IsData.acyclic {o : Addr} (hdata : IsData heap d v) (hv : v.container = some o)
    {e : Variable} (he : e ∈ heap.parts v) : ¬ Reaches heap e o := by
  induction d using Nat.strong_induction_on with
  | _ d ih =>
      intro hreaches
      cases d with
      | zero => exact hdata.elim
      | succ d =>
          obtain ⟨u, d', hle, hu, hdata'⟩ := hreaches.data (hdata.parts e he)
          obtain rfl := container_unique hv hu hdata hdata'
          exact ih d' (Nat.lt_succ_of_le hle) hdata' hreaches

/-- No container of the value carries the mark. -/
def Unmarked (heap : Heap) (marked : Addr → Bool) (v : Variable) : Prop :=
  ∀ o, Reaches heap v o → marked o = false

theorem all_of_finished {walk : Variable → Trace} {fields : Variable → List Field}
    {elems : List Variable} (hall : ∀ e ∈ elems, walk e = ⟨fields e, .finished⟩) :
    Trace.all walk elems = ⟨elems.flatMap fields, .finished⟩ := by
  induction elems with
  | nil => rfl
  | cons e rest ih =>
      rw [Trace.all, hall e List.mem_cons_self, ih fun e he => hall e (List.mem_cons_of_mem _ he)]
      rfl

theorem finished_of_all {walk : Variable → Trace} {elems : List Variable}
    (hall : (Trace.all walk elems).verdict = .finished) : ∀ e ∈ elems, (walk e).verdict = .finished := by
  induction elems with
  | nil => exact fun e he => absurd he List.not_mem_nil
  | cons e rest ih =>
      obtain ⟨hfirst, hrest⟩ := Trace.append_finished.1 hall
      intro v hv
      obtain rfl | hv := List.mem_cons.1 hv
      · exact hfirst
      · exact ih hrest v hv

/-- Data that is not marked is written in full. -/
theorem walk_data (hdata : IsData heap d v) (hle : d ≤ depth) {marked : Addr → Bool}
    (hunmarked : Unmarked heap marked v) :
    walk heap debug depth marked v = ⟨dataFields heap d v, .finished⟩ := by
  induction d generalizing depth v marked with
  | zero => exact hdata.elim
  | succ d ih =>
      obtain ⟨depth, rfl⟩ : ∃ k, depth = k + 1 := ⟨depth - 1, by omega⟩
      obtain ⟨_, _, hwalk⟩ | ⟨o, tt, n, hcontainer⟩ := data_cases debug hdata
      · exact hwalk depth marked
      · have hfree : marked o = false := hunmarked o (.here hcontainer.here)
        have hparts : ∀ e ∈ heap.parts v,
            walk heap debug depth (Function.update marked o true) e =
              ⟨dataFields heap d e, .finished⟩ := by
          intro e he
          apply ih (hcontainer.parts e he) (Nat.le_of_succ_le_succ hle)
          intro a ha
          have hne : a ≠ o := by
            rintro rfl
            exact hdata.acyclic hcontainer.here he ha
          rw [Function.update_of_ne hne]
          exact hunmarked a (.inside he ha)
        rw [hcontainer.walk, if_neg (by simp [hfree]), hcontainer.fields]
        change Trace.count tt ++ (Trace.count n ++ Trace.all _ _) = _
        rw [all_of_finished hparts, ← Trace.append_assoc]
        rfl

/-- Data that is written in full is not marked. -/
theorem unmarked_of_finished (hdata : IsData heap d v) (hle : d ≤ depth) {marked : Addr → Bool}
    (hfinished : (walk heap debug depth marked v).verdict = .finished) :
    Unmarked heap marked v := by
  induction d generalizing depth v marked with
  | zero => exact hdata.elim
  | succ d ih =>
      obtain ⟨depth, rfl⟩ : ∃ k, depth = k + 1 := ⟨depth - 1, by omega⟩
      intro a ha
      obtain ⟨hnone, hnil, _⟩ | ⟨o, tt, n, hcontainer⟩ := data_cases debug hdata
      · cases ha with
        | here ho =>
            rw [hnone] at ho
            cases ho
        | inside he _ =>
            rw [hnil] at he
            exact absurd he List.not_mem_nil
      · rw [hcontainer.walk] at hfinished
        by_cases hmarked : marked o = true
        · rw [if_pos hmarked] at hfinished
          cases hfinished
        rw [if_neg hmarked] at hfinished
        cases ha with
        | here ho =>
            rw [hcontainer.here] at ho
            cases ho
            exact Bool.eq_false_iff.2 hmarked
        | inside he ha =>
            obtain ⟨_, hrest⟩ := Trace.append_finished.1 hfinished
            obtain ⟨_, hall⟩ := Trace.append_finished.1 hrest
            have hinside := ih (hcontainer.parts _ he) (Nat.le_of_succ_le_succ hle)
              (finished_of_all hall _ he) a ha
            have hne : a ≠ o := by
              rintro rfl
              rw [Function.update_self] at hinside
              cases hinside
            rwa [Function.update_of_ne hne] at hinside

end

/-! ## The same value in another memory -/

section

variable (heap : Heap) (debug : Addr → Debug) (heap' : Heap) (debug' : Addr → Debug) (lo : Addr)

/-- Two values nested less than `depth` deep are the same. The objects of the
second one are at `lo` or above. -/
def Same : (depth : Nat) → Variable → Variable → Prop
  | 0, _, _ => False
  | depth + 1, v, w =>
      match v, w with
      | .nil, .nil => True
      | .int i, .int j => i = j
      | .bool i, .bool j => i = j
      | .kstr z, .kstr z' => z = z'
      | .dyay o, .dyay o' => lo ≤ o' ∧ ∃ elem elem', heap.obj o = some (.dyay elem) ∧
          heap'.obj o' = some (.dyay elem') ∧ elem.Forall₂ (Same depth) elem'
      | .hmap o, .hmap o' => lo ≤ o' ∧ ∃ map map', heap.obj o = some (.hmap map) ∧
          heap'.obj o' = some (.hmap map') ∧ map'.Scalar ∧
          (∀ k, (∃ v, Hmap.Holds map.item k v) ↔ ∃ w, Hmap.Holds map'.item k w) ∧
          ∀ k v w, Hmap.Holds map.item k v → Hmap.Holds map'.item k w → Same depth v w
      | .skls o, .skls o' => lo ≤ o' ∧ ∃ list list' pairs pairs', heap.obj o = some (.skls list) ∧
          heap'.obj o' = some (.skls list') ∧ list.traverse = .ok pairs ∧ list'.Scalar pairs' ∧
          pairs.Forall₂ (fun p q => p.1 = q.1 ∧ Same depth p.2 q.2) pairs'
      | .func o, .func o' => lo ≤ o' ∧ ∃ fn fn' core core', heap.obj o = some (.func fn) ∧
          heap'.obj o' = some (.func fn') ∧ fn.core = some core ∧ fn'.core = some core' ∧
          fn.proto = fn'.proto ∧ fn.nBind = fn'.nBind ∧
          (fn.bind.take fn.nBind).Forall₂ (Same depth) (fn'.bind.take fn'.nBind) ∧
          core.inst = core'.inst ∧
          (debug o).line.take core.kinst = (debug' o').line.take core'.kinst ∧
          core.kval.Forall₂ (Same depth) core'.kval ∧ core.lz = core'.lz ∧
          (debug o).file = (debug' o').file ∧ core.kargs = core'.kargs
      | _, _ => False

end

section

variable {heap : Heap} {debug : Addr → Debug} {heap' heap'' : Heap} {debug' debug'' : Addr → Debug}
  {lo lo' : Addr} {d : Nat} {v w : Variable}

/-- The second value stays the same where its objects do. -/
theorem Same.frame (hsame : Same heap debug heap' debug' lo d v w) (hlo : lo' ≤ lo)
    (hframe : ∀ a obj, lo ≤ a → heap'.obj a = some obj →
      heap''.obj a = some obj ∧ debug'' a = debug' a) :
    Same heap debug heap'' debug'' lo' d v w := by
  induction d generalizing v w with
  | zero => exact hsame
  | succ d ih =>
      have hall : ∀ {vs ws : List Variable}, vs.Forall₂ (Same heap debug heap' debug' lo d) ws →
          vs.Forall₂ (Same heap debug heap'' debug'' lo' d) ws :=
        fun h => h.imp fun _ _ hsame => ih hsame
      cases v <;> cases w <;> first
        | exact hsame
        | skip
      case func o o' =>
        obtain ⟨ho', fn, fn', core, core', hobj, hobj', hcore, hcore', hproto, hn, hbind, hinst,
          hline, hkval, hlz, hfile, hkargs⟩ := hsame
        obtain ⟨hobj'', hdebug⟩ := hframe o' _ ho' hobj'
        refine ⟨hlo.trans ho', fn, fn', core, core', hobj, hobj'', hcore, hcore', hproto, hn,
          hall hbind, hinst, ?_, hall hkval, hlz, ?_, hkargs⟩
        · rw [hline, hdebug]
        · rw [hfile, hdebug]
      case dyay o o' =>
        obtain ⟨ho', elem, elem', hobj, hobj', helem⟩ := hsame
        exact ⟨hlo.trans ho', elem, elem', hobj, (hframe o' _ ho' hobj').1, hall helem⟩
      case hmap o o' =>
        obtain ⟨ho', map, map', hobj, hobj', hmap', hkeys, hvalues⟩ := hsame
        exact ⟨hlo.trans ho', map, map', hobj, (hframe o' _ ho' hobj').1, hmap', hkeys,
          fun k v w hv hw => ih (hvalues k v w hv hw)⟩
      case skls o o' =>
        obtain ⟨ho', list, list', pairs, pairs', hobj, hobj', hlist, hlist', hpairs⟩ := hsame
        exact ⟨hlo.trans ho', list, list', pairs, pairs', hobj, (hframe o' _ ho' hobj').1, hlist,
          hlist', hpairs.imp fun p q h => ⟨h.1, ih h.2⟩⟩

/-- The same scalar is equal. -/
theorem Same.eq_of_scalar (hsame : Same heap debug heap' debug' lo d v w)
    (hscalar : v.IsScalarKey) : w = v := by
  cases d with
  | zero => exact hsame.elim
  | succ d =>
      cases v <;> cases w <;> first
        | exact hscalar.elim
        | exact hsame.elim
        | exact congrArg _ (Eq.symm hsame)

end

end Ymd
