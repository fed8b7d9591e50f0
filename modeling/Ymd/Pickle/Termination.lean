import Ymd.Pickle.Marks
import Mathlib.Data.Set.Finite.Lattice
import Mathlib.Order.Interval.Finset.Nat

/-! # Where a dump ends

The marks are on containers only. A dump of a finite heap runs for ever when it
comes to a function that leads back to itself through functions, and only then.
-/

namespace Ymd

open Foundation

/-! ## The walk and the trace -/

/-- The walk ends as the trace does. -/
def Comes (e : Ending Addr) (t : Trace) : Prop :=
  match e with
  | .finished => t.verdict = .finished
  | .refused _ => t.verdict = .refused
  | .stuck => ∃ f : Fault, f ≠ .nesting ∧ t.verdict = .stuck f
  | .deep => t.verdict = .stuck .nesting

namespace Comes

variable {e e' : Ending Addr} {t u : Trace}

theorem append (ht : Comes e t) (hu : Comes e' u) : Comes (seqEnding e e') (t ++ u) := by
  obtain ⟨fields, verdict⟩ := t
  cases e with
  | finished =>
      obtain rfl : verdict = .finished := ht
      exact hu
  | refused m =>
      obtain rfl : verdict = .refused := ht
      exact rfl
  | stuck =>
      obtain ⟨f, hf, rfl⟩ : ∃ f : Fault, f ≠ .nesting ∧ verdict = .stuck f := ht
      exact ⟨f, hf, rfl⟩
  | deep =>
      obtain rfl : verdict = .stuck .nesting := ht
      exact rfl

/-- A trace that finishes in front of another. -/
theorem behind (ht : t.verdict = .finished) (hu : Comes e u) : Comes e (t ++ u) :=
  append (e := .finished) ht hu

theorem all {f : Variable → Ending Addr} {walk : Variable → Trace}
    (helem : ∀ v, Comes (f v) (walk v)) (elems : List Variable) :
    Comes (goAll f (elems.map some)) (.all walk elems) := by
  induction elems with
  | nil => exact rfl
  | cons v rest ih =>
      have hboth := (helem v).append ih
      have hgo : goAll f ((v :: rest).map some) = seqEnding (f v) (goAll f (rest.map some)) := by
        cases h : f v <;> simp only [List.map_cons, goAll, h, seqEnding]
      rw [hgo]
      exact hboth

theorem finished_before (ht : Comes e t) (hu : u.verdict = .finished) : Comes e (t ++ u) := by
  have h : Comes (seqEnding e .finished) (t ++ u) := ht.append hu
  rwa [Leaves.seqEnding_finished] at h

section

variable {f : Variable → Ending Addr} {walk : Variable → Trace}
  (helem : ∀ v, Comes (f v) (walk v))

include helem

theorem chunk (core : Chunk) (debug : Debug) :
    Comes (goAll f (if 2 ^ 31 ≤ 4 * core.kinst ∨ debug.line.length < core.kinst then [none]
      else core.kval.map some)) (.chunk walk core debug) := by
  apply behind rfl
  by_cases hbig : 2 ^ 31 ≤ 4 * core.kinst
  · rw [if_pos (.inl hbig), if_pos hbig]
    exact ⟨.overflow, nofun, rfl⟩
  rw [if_neg hbig]
  by_cases hshort : debug.line.length < core.kinst
  · rw [if_pos (.inr hshort), if_pos hshort]
    exact ⟨.bounds "bk->line", nofun, rfl⟩
  rw [if_neg (not_or.2 ⟨hbig, hshort⟩), if_neg hshort]
  apply behind rfl
  apply behind (Follows.verdict_lines _)
  apply behind rfl
  apply (all helem core.kval).finished_before
  rw [Trace.append_finished, Trace.append_finished, Trace.append_finished]
  exact ⟨rfl, Follows.verdict_names _, rfl, rfl⟩

theorem func (fn : Func) (debug : Debug) :
    Comes (match fn.core with
      | none => .finished
      | some core => goAll f (funcItems fn core debug)) (.func walk fn debug) := by
  unfold Trace.func funcItems
  cases fn.core with
  | none => exact rfl
  | some core =>
      apply behind rfl
      apply behind rfl
      apply behind rfl
      by_cases hshort : fn.bind.length < fn.nBind
      · simp only [if_pos hshort]
        exact ⟨.bounds "fn->bind", nofun, rfl⟩
      simp only [if_neg hshort, goAll_append]
      exact (all helem _).append (chunk helem core debug)

/-- The elements are the same; only a fault in front of them is told apart. -/
theorem container (tt : Nat) {found : Except Fault (Nat × List Variable)}
    (hfound : found ≠ .error .nesting) :
    Comes (goAll f (dumpItems found)) (.container walk tt found) := by
  apply behind rfl
  cases found with
  | error fault => exact ⟨fault, fun h => hfound (h ▸ rfl), rfl⟩
  | ok counted => exact behind rfl (all helem counted.2)

end

end Comes

theorem traverse_ne_nesting (list : Skls) : list.traverse ≠ .error .nesting := by
  have hfwd : ∀ x i, list.fwdAt x i ≠ .error .nesting := by
    intro x i
    unfold Skls.fwdAt
    split
    next => nofun
    next => nofun
  have hfrom : ∀ fuel x, list.traverseFrom fuel x ≠ .error .nesting := by
    intro fuel
    induction fuel with
    | zero =>
        intro x
        cases x with
        | none => nofun
        | some x => nofun
    | succ fuel ih =>
        intro x
        cases x with
        | none => nofun
        | some x =>
            simp only [Skls.traverseFrom]
            cases hx : list.fwdAt x 0 with
            | error f =>
                intro h
                cases h
                exact hfwd x 0 hx
            | ok next =>
                change (do let rest ← list.traverseFrom fuel next; pure (_ :: rest)) ≠ _
                cases hnext : list.traverseFrom fuel next with
                | error f =>
                    intro h
                    cases h
                    exact ih next hnext
                | ok rest => nofun
  unfold Skls.traverse
  cases hx : list.fwdAt Skls.head 0 with
  | error f =>
      intro h
      cases h
      exact hfwd _ _ hx
  | ok next => exact hfrom _ _

theorem casts_ne_nesting (heap : Heap) (o : Addr) :
    heap.func o ≠ .error .nesting ∧ heap.dyay o ≠ .error .nesting ∧
      heap.hmap o ≠ .error .nesting ∧ heap.skls o ≠ .error .nesting := by
  unfold Heap.func Heap.dyay Heap.hmap Heap.skls
  cases heap.obj o with
  | none => exact ⟨nofun, nofun, nofun, nofun⟩
  | some obj => cases obj <;> exact ⟨nofun, nofun, nofun, nofun⟩

section

variable {heap : Heap} {debug : Addr → Debug} {depth : Nat} {m : Addr → Bool} {v : Variable}

theorem comes_inside {o : Addr} {tt : Nat} (found : Except Fault (Nat × List Variable))
    (ih : ∀ m v, Comes (go (dumpShape heap debug) depth m v) (walk heap debug depth m v))
    (hfound : found ≠ .error .nesting) :
    Comes (if m o then .refused m
      else goAll (go (dumpShape heap debug) depth (Function.update m o true)) (dumpItems found))
      (if m o then .refuse
      else .container (walk heap debug depth (Function.update m o true)) tt found) := by
  split
  next => exact rfl
  next => exact Comes.container (ih _) tt hfound

theorem walk_comes (heap : Heap) (debug : Addr → Debug) (depth : Nat) (m : Addr → Bool)
    (v : Variable) :
    Comes (go (dumpShape heap debug) depth m v) (walk heap debug depth m v) := by
  induction depth generalizing m v with
  | zero => exact rfl
  | succ depth ih =>
      cases v with
      | nil => exact rfl
      | int i => exact rfl
      | bool i => exact rfl
      | kstr z => exact rfl
      | ext p => exact rfl
      | mand o => exact rfl
      | func o =>
          simp only [walk, go, dumpShape]
          cases hfound : heap.func o with
          | error f => exact ⟨f, fun h => (casts_ne_nesting heap o).1 (h ▸ hfound), rfl⟩
          | ok fn =>
              have hfunc := Comes.func (ih m) fn (debug o)
              cases hcore : fn.core with
              | none =>
                  simp only [hcore] at hfunc ⊢
                  exact hfunc
              | some core =>
                  simp only [hcore] at hfunc ⊢
                  exact hfunc
      | dyay o =>
          simp only [walk, go, dumpShape]
          cases hfound : heap.dyay o with
          | error f => exact ⟨f, fun h => (casts_ne_nesting heap o).2.1 (h ▸ hfound), rfl⟩
          | ok elem => exact comes_inside (.ok (elem.length, elem)) ih (by simp)
      | hmap o =>
          simp only [walk, go, dumpShape]
          cases hfound : heap.hmap o with
          | error f => exact ⟨f, fun h => (casts_ne_nesting heap o).2.2.1 (h ▸ hfound), rfl⟩
          | ok map =>
              exact comes_inside (.ok (map.slots.length, flatPairs map.slots)) ih (by simp)
      | skls o =>
          simp only [walk, go, dumpShape]
          cases hfound : heap.skls o with
          | error f => exact ⟨f, fun h => (casts_ne_nesting heap o).2.2.2 (h ▸ hfound), rfl⟩
          | ok list =>
              apply comes_inside _ ih
              cases htraverse : list.traverse with
              | error f =>
                  intro h
                  cases h
                  exact traverse_ne_nesting list htraverse
              | ok pairs =>
                  intro h
                  cases h

/-! ## Streams -/

namespace Zostream

theorem write_ne_nesting (os : Zostream) (k : Nat) (z : Bytes) : os.write k z ≠ .error .nesting := by
  have hreserved : os.reserved k ≠ .error .nesting := by
    unfold reserved
    repeat' split
    all_goals nofun
  unfold write
  cases h : os.reserved k with
  | error f =>
      intro hsame
      cases hsame
      exact hreserved h
  | ok os' =>
      change os'.fill z ≠ _
      unfold fill
      split
      next => nofun
      next => nofun

theorem writeAll_ne_nesting (os : Zostream) (fields : List Field) :
    os.writeAll fields ≠ .error .nesting := by
  induction fields generalizing os with
  | nil => nofun
  | cons f rest ih =>
      unfold writeAll
      cases h : os.write f.reserve f.bytes with
      | error e =>
          intro hsame
          cases hsame
          exact write_ne_nesting _ _ _ h
      | ok os' => exact ih os'

/-- A buffer that is large enough from the beginning takes all fields. -/
theorem writeAll_of_room (os : Zostream) (fields : List Field)
    (hroom : os.last + (fields.map fun f => f.reserve + f.bytes.length).sum ≤ os.max) :
    ∃ os', os.writeAll fields = .ok os' := by
  induction fields generalizing os with
  | nil => exact ⟨os, rfl⟩
  | cons f rest ih =>
      simp only [List.map_cons, List.sum_cons] at hroom
      have hreserved : os.reserved f.reserve = .ok os := by
        unfold reserved
        rw [if_pos (show os.last + f.reserve ≤ os.max by omega), ite_self]
        rfl
      have hwrite : os.write f.reserve f.bytes = .ok { os with buf := os.buf ++ f.bytes } := by
        unfold write
        rw [hreserved]
        exact fill_eq (by omega)
      obtain ⟨os', hos'⟩ := ih { os with buf := os.buf ++ f.bytes } (by
        rw [last_fill]
        change _ ≤ os.max
        omega)
      refine ⟨os', ?_⟩
      unfold writeAll
      rw [hwrite]
      exact hos'

end Zostream

/-- A stream with room for everything that is written. -/
def roomFor (fields : List Field) : Zostream :=
  ⟨[], (fields.map fun f => f.reserve + f.bytes.length).sum⟩

theorem roomFor_writeAll (fields : List Field) : ∃ os, (roomFor fields).writeAll fields = .ok os := by
  apply Zostream.writeAll_of_room
  change 0 + _ ≤ _
  rw [Nat.zero_add]
  exact le_rfl

/-! ## Termination -/

/-- The dump ends: the depth of its calls is bounded, however much room the
stream has. -/
def SerializeEnds (heap : Heap) (debug : Addr → Debug) (v : Variable) : Prop :=
  ∃ depth, ∀ os s', ymdSerialize heap debug depth v ⟨os, true, fun _ => false⟩ ≠ .error .nesting s'

theorem serializeEnds_iff_go : SerializeEnds heap debug v ↔
    ∃ depth, go (dumpShape heap debug) depth (fun _ => false) v ≠ .deep := by
  have hcomes := fun depth => walk_comes heap debug depth (fun _ => false) v
  constructor
  · rintro ⟨depth, hends⟩
    refine ⟨depth, fun hdeep => ?_⟩
    have hverdict := hcomes depth
    rw [hdeep] at hverdict
    -- a stream with room for all fields does not fail before the walk is too deep
    obtain ⟨os, hwrite⟩ := roomFor_writeAll (walk heap debug depth (fun _ => false) v).fields
    have hrun := serialize_follows heap debug depth (fun _ => false) v
      ⟨roomFor (walk heap debug depth (fun _ => false) v).fields, true, fun _ => false⟩ rfl rfl
    rw [hwrite, show (walk heap debug depth _ v).verdict = _ from hverdict] at hrun
    obtain ⟨s', hs'⟩ := hrun
    exact hends _ s' hs'
  · rintro ⟨depth, hshallow⟩
    refine ⟨depth, fun os s' herror => ?_⟩
    have hrun := serialize_follows heap debug depth (fun _ => false) v ⟨os, true, fun _ => false⟩
      rfl rfl
    rw [herror] at hrun
    cases hwrite : os.writeAll (walk heap debug depth (fun _ => false) v).fields with
    | error f =>
        rw [hwrite] at hrun
        obtain ⟨t, ht⟩ := hrun
        cases ht
        exact os.writeAll_ne_nesting _ hwrite
    | ok os' =>
        rw [hwrite] at hrun
        have hverdict : (walk heap debug depth (fun _ => false) v).verdict = .stuck .nesting := by
          cases h : (walk heap debug depth (fun _ => false) v).verdict with
          | finished =>
              rw [h] at hrun
              obtain ⟨n, hn⟩ := hrun
              cases hn
          | refused =>
              rw [h] at hrun
              obtain ⟨n, t, ht, _⟩ := hrun
              cases ht
          | stuck f =>
              rw [h] at hrun
              obtain ⟨t, ht⟩ := hrun
              cases ht
              rfl
        have hcome := hcomes depth
        cases hgo : go (dumpShape heap debug) depth (fun _ => false) v with
        | finished =>
            rw [hgo] at hcome
            cases hverdict.symm.trans hcome
        | refused m =>
            rw [hgo] at hcome
            cases hverdict.symm.trans hcome
        | stuck =>
            rw [hgo] at hcome
            obtain ⟨f, hf, hstuck⟩ := hcome
            exact hf (Verdict.stuck.inj (hstuck.symm.trans hverdict))
        | deep => exact hshallow hgo

/-- What can be dumped is dumped, into a stream that has the room. -/
theorem Picklable.serialize (h : Picklable heap debug v) : ∃ depth os n s',
    ymdSerialize heap debug depth v ⟨os, true, fun _ => false⟩ = .ok n s' ∧ s'.ok = true := by
  obtain ⟨depth, hgo⟩ := Finishes.exists_go h
  have hverdict := walk_comes heap debug depth (fun _ => false) v
  rw [hgo] at hverdict
  obtain ⟨os, hwrite⟩ := roomFor_writeAll (walk heap debug depth (fun _ => false) v).fields
  have hrun := serialize_follows heap debug depth (fun _ => false) v
    ⟨roomFor (walk heap debug depth (fun _ => false) v).fields, true, fun _ => false⟩ rfl rfl
  rw [hwrite, show (walk heap debug depth _ v).verdict = _ from hverdict] at hrun
  obtain ⟨n, hn⟩ := hrun
  exact ⟨depth, _, n, _, hn, rfl⟩

theorem picklable_of_serialize {os : Zostream} {n : Nat} {s' : Dump}
    (hrun : ymdSerialize heap debug depth v ⟨os, true, fun _ => false⟩ = .ok n s')
    (hok : s'.ok = true) : Picklable heap debug v := by
  rcases serialize_leaves heap debug depth (fun _ => false) v os n s' hrun with
    ⟨_, _, hgo⟩ | ⟨hfalse, _⟩
  · exact finishes_of_go hgo
  · rw [hok] at hfalse
    cases hfalse

/-! ## The graph -/

/-- One value is an element, a bound value or a constant of the other. -/
inductive Edge (heap : Heap) : Variable → Variable → Prop
  | dyay {o : Addr} {elem : List Variable} {w : Variable} (hobj : heap.dyay o = .ok elem)
      (hw : w ∈ elem) : Edge heap (.dyay o) w
  | hmap {o : Addr} {map : Hmap} {w : Variable} (hobj : heap.hmap o = .ok map)
      (hw : w ∈ flatPairs map.slots) : Edge heap (.hmap o) w
  | skls {o : Addr} {list : Skls} {pairs : List (Variable × Variable)} {w : Variable}
      (hobj : heap.skls o = .ok list) (hpairs : list.traverse = .ok pairs)
      (hw : w ∈ flatPairs pairs) : Edge heap (.skls o) w
  | bind {o : Addr} {fn : Func} {w : Variable} (hobj : heap.func o = .ok fn)
      (hw : w ∈ fn.bind.take fn.nBind) : Edge heap (.func o) w
  | kval {o : Addr} {fn : Func} {core : Chunk} {w : Variable} (hobj : heap.func o = .ok fn)
      (hcore : fn.core = some core) (hw : w ∈ core.kval) : Edge heap (.func o) w

/-- The value leads to a value that leads back to itself. -/
def CycleReachable (heap : Heap) (v : Variable) : Prop :=
  ∃ w, Relation.ReflTransGen (Edge heap) v w ∧ Relation.TransGen (Edge heap) w w

theorem CycleReachable.of_reach {w : Variable} (h : CycleReachable heap w)
    (hreach : Relation.ReflTransGen (Edge heap) v w) : CycleReachable heap v := by
  obtain ⟨u, hu, hcycle⟩ := h
  exact ⟨u, hreach.trans hu, hcycle⟩

theorem CycleReachable.next (h : CycleReachable heap v) :
    ∃ u, Edge heap v u ∧ CycleReachable heap u := by
  obtain ⟨w, hreach, hcycle⟩ := h
  rcases Relation.ReflTransGen.cases_head hreach with rfl | ⟨u, hstep, hrest⟩
  · obtain ⟨u, hstep, hback⟩ := Relation.TransGen.head'_iff.1 hcycle
    exact ⟨u, hstep, v, hback, hcycle⟩
  · exact ⟨u, hstep, w, hrest, hcycle⟩

/-- A native function; its bound values are not dumped. -/
def Native (heap : Heap) (v : Variable) : Prop :=
  ∃ o fn, v = .func o ∧ heap.func o = .ok fn ∧ fn.core = none

/-- A value that finishes under some marks has its successors among the items
the walk goes through, unless it is a native function. -/
theorem edge_item {items : List (Option Variable)} {m m' : Addr → Bool} {u : Variable}
    (hopen : Opens (dumpShape heap debug) m v m' items) (hnone : none ∉ items)
    (hedge : Edge heap v u) (hnative : ¬ Native heap v) : some u ∈ items := by
  have hguarded : ∀ (o : Addr) {elems : List Variable},
      dumpShape heap debug v = .guarded o (elems.map some) → u ∈ elems → some u ∈ items := by
    intro o elems hshape hu
    cases hopen with
    | plain hv => cases hv.symm.trans hshape
    | guarded hv _ =>
        rw [(Shape.guarded.inj (hv.symm.trans hshape)).2]
        exact List.mem_map_of_mem hu
  have hplain : ∀ {o : Addr} {fn : Func} {core : Chunk}, heap.func o = .ok fn →
      fn.core = some core → v = .func o →
      u ∈ fn.bind.take fn.nBind ∨ u ∈ core.kval → some u ∈ items := by
    rintro o fn core hobj hcore rfl hu
    have hshape : dumpShape heap debug (.func o) = .plain (funcItems fn core (debug o)) := by
      simp only [dumpShape, hobj, hcore]
    cases hopen with
    | guarded hv _ => cases hv.symm.trans hshape
    | plain hv =>
        rw [Shape.plain.inj (hv.symm.trans hshape)] at hnone ⊢
        unfold funcItems at hnone ⊢
        split at hnone
        next => exact absurd List.mem_cons_self hnone
        next hlong =>
          rw [if_neg hlong]
          split at hnone
          next => exact absurd (List.mem_append_right _ List.mem_cons_self) hnone
          next hfits =>
            rw [if_neg hfits, List.mem_append]
            exact hu.imp List.mem_map_of_mem List.mem_map_of_mem
  cases hedge with
  | @dyay o _ _ hobj hw => exact hguarded o (by simp only [dumpShape, hobj]) hw
  | @hmap o _ _ hobj hw => exact hguarded o (by simp only [dumpShape, hobj]) hw
  | @skls o _ _ _ hobj hpairs hw =>
      apply hguarded o _ hw
      simp only [dumpShape, hobj, hpairs]
      rfl
  | @bind o fn _ hobj hw =>
      cases hcore : fn.core with
      | none => exact absurd ⟨o, fn, rfl, hobj, hcore⟩ hnative
      | some core => exact hplain hobj hcore rfl (.inl hw)
  | kval hobj hcore hw => exact hplain hobj hcore rfl (.inr hw)

/-- Where everything finishes, a cycle is behind a native function. -/
theorem native_of_cycle {m : Addr → Bool} (hfin : Finishes (dumpShape heap debug) m v)
    (hcycle : CycleReachable heap v) :
    ∃ w, Relation.ReflTransGen (Edge heap) v w ∧ Native heap w ∧ CycleReachable heap w := by
  induction hfin with
  | @leaf m v hv =>
      by_cases hnative : Native heap v
      · exact ⟨v, .refl, hnative, hcycle⟩
      · obtain ⟨u, hedge, _⟩ := hcycle.next
        exfalso
        cases hedge with
        | dyay hobj hw => simp [dumpShape, hobj] at hv
        | hmap hobj hw => simp [dumpShape, hobj] at hv
        | skls hobj hpairs hw => simp [dumpShape, hobj] at hv
        | @bind o fn _ hobj hw =>
            cases hcore : fn.core with
            | none => exact hnative ⟨o, fn, rfl, hobj, hcore⟩
            | some core => simp [dumpShape, hobj, hcore] at hv
        | kval hobj hcore hw => simp [dumpShape, hobj, hcore] at hv
  | @inside m m' v items hopen hnone hitems ih =>
      by_cases hnative : Native heap v
      · exact ⟨v, .refl, hnative, hcycle⟩
      · obtain ⟨u, hedge, hcycle'⟩ := hcycle.next
        obtain ⟨w, hreach, hw⟩ := ih u (edge_item hopen hnone hedge hnative) hcycle'
        exact ⟨w, .head hedge hreach, hw⟩

/-! ## Finitely many values -/

theorem below_finite (u : Variable) : {w | Below (dumpShape heap debug) u w}.Finite := by
  have hitems : ∀ items : List (Option Variable), {w | some w ∈ items}.Finite := by
    intro items
    have himage : {w | some w ∈ items} ⊆ {w | w ∈ items.filterMap id} := by
      intro w hw
      exact List.mem_filterMap.2 ⟨some w, hw, rfl⟩
    exact (List.finite_toSet _).subset himage
  cases hshape : dumpShape heap debug u with
  | leaf =>
      apply Set.finite_empty.subset
      rintro w ⟨items, _, h | ⟨o, h⟩⟩
      · cases hshape.symm.trans h
      · cases hshape.symm.trans h
  | bad =>
      apply Set.finite_empty.subset
      rintro w ⟨items, _, h | ⟨o, h⟩⟩
      · cases hshape.symm.trans h
      · cases hshape.symm.trans h
  | plain items =>
      apply (hitems items).subset
      rintro w ⟨items', hw, h | ⟨o, h⟩⟩
      · rwa [Shape.plain.inj (hshape.symm.trans h)]
      · cases hshape.symm.trans h
  | guarded o items =>
      apply (hitems items).subset
      rintro w ⟨items', hw, h | ⟨o', h⟩⟩
      · cases hshape.symm.trans h
      · rwa [(Shape.guarded.inj (hshape.symm.trans h)).2]

/-- The references to the objects of the heap. -/
def references (heap : Heap) : Set Variable :=
  ⋃ o ∈ Set.Iio heap.next, {.func o, .dyay o, .hmap o, .skls o}

theorem not_below_missing {u w : Variable} (hu : dumpShape heap debug u = .plain [none]) :
    ¬ Below (dumpShape heap debug) u w := by
  rintro ⟨items, hw, h | ⟨o, h⟩⟩
  · rw [← Shape.plain.inj (hu.symm.trans h)] at hw
    simp at hw
  · cases hu.symm.trans h

theorem below_reference {u w : Variable} (h : Below (dumpShape heap debug) u w) :
    u ∈ references heap := by
  have hin : ∀ {o : Addr} {obj : Obj}, heap.obj o = some obj →
      u = .func o ∨ u = .dyay o ∨ u = .hmap o ∨ u = .skls o → u ∈ references heap := by
    intro o obj hobj hu
    simp only [references, Set.mem_iUnion]
    refine ⟨o, Heap.lt_next hobj, ?_⟩
    simpa using hu
  cases u with
  | func o =>
      cases hobj : heap.func o with
      | error f => exact absurd h (not_below_missing (by simp only [dumpShape, hobj]))
      | ok fn => exact hin (Heap.func_eq_ok.1 hobj) (by simp)
  | dyay o =>
      cases hobj : heap.dyay o with
      | error f => exact absurd h (not_below_missing (by simp only [dumpShape, hobj]))
      | ok elem => exact hin (Heap.dyay_eq_ok.1 hobj) (by simp)
  | hmap o =>
      cases hobj : heap.hmap o with
      | error f => exact absurd h (not_below_missing (by simp only [dumpShape, hobj]))
      | ok map => exact hin (Heap.hmap_eq_ok.1 hobj) (by simp)
  | skls o =>
      cases hobj : heap.skls o with
      | error f => exact absurd h (not_below_missing (by simp only [dumpShape, hobj]))
      | ok list => exact hin (Heap.skls_eq_ok.1 hobj) (by simp)
  | nil => simp [Below, dumpShape] at h
  | int i => simp [Below, dumpShape] at h
  | bool i => simp [Below, dumpShape] at h
  | ext p => simp [Below, dumpShape] at h
  | kstr z => simp [Below, dumpShape] at h
  | mand o => simp [Below, dumpShape] at h

/-- The values a dump can come to. -/
def dumpNodes (heap : Heap) (debug : Addr → Debug) (v : Variable) : Set Variable :=
  insert v (⋃ u ∈ references heap, {w | Below (dumpShape heap debug) u w})

theorem dumpNodes_finite : (dumpNodes heap debug v).Finite := by
  apply Set.Finite.insert
  apply Set.Finite.biUnion
  · apply Set.Finite.biUnion (Set.finite_Iio _)
    intro o _
    simp
  · exact fun u _ => below_finite u

theorem dumpNodes_below (u : Variable) (_ : u ∈ dumpNodes heap debug v) (w : Variable)
    (h : Below (dumpShape heap debug) u w) : w ∈ dumpNodes heap debug v :=
  Set.mem_insert_of_mem _ (Set.mem_biUnion (below_reference h) h)

/-- A dump comes to its end, with a failure where a cycle can be reached, exactly
when it comes to no function that leads back to itself through functions only,
and no native function hides a cycle in a value that can be dumped. -/
theorem serialize_terminates_iff (heap : Heap) (debug : Addr → Debug) (v : Variable) :
    (SerializeEnds heap debug v ∧
      (CycleReachable heap v → ∀ depth os n s',
        ymdSerialize heap debug depth v ⟨os, true, fun _ => false⟩ = .ok n s' → s'.ok = false)) ↔
      ¬ Loops (dumpShape heap debug) (fun _ => false) v ∧
        (Picklable heap debug v → ∀ w, Relation.ReflTransGen (Edge heap) v w → Native heap w →
          ¬ CycleReachable heap w) := by
  rw [serializeEnds_iff_go, exists_go_iff_not_loops dumpNodes_finite dumpNodes_below
    (Set.mem_insert v _)]
  apply and_congr_right
  intro _
  constructor
  · intro hfails hpick w hreach _ hcycle
    obtain ⟨depth, os, n, s', hrun, hok⟩ := hpick.serialize
    have hfalse := hfails (hcycle.of_reach hreach) depth os n s' hrun
    rw [hok] at hfalse
    cases hfalse
  · intro hnative hcycle depth os n s' hrun
    by_contra hok
    have hpick := picklable_of_serialize hrun (Bool.not_eq_false _ ▸ hok)
    obtain ⟨w, hreach, hw, hcycle'⟩ := native_of_cycle hpick hcycle
    exact hnative hpick w hreach hw hcycle'

end

/-- A function that has bound itself. -/
def boundToItself : Heap :=
  (Heap.empty.alloc (.func ⟨some Chunk.zero, [], 1, [.func 0], none⟩)).1

/-- Its dump never ends. -/
theorem serialize_terminates_counterexample :
    ¬ ∀ (heap : Heap) (debug : Addr → Debug) (v : Variable), SerializeEnds heap debug v ∧
      (CycleReachable heap v → ∀ depth os n s',
        ymdSerialize heap debug depth v ⟨os, true, fun _ => false⟩ = .ok n s' → s'.ok = false) := by
  intro hall
  have hdeep : ∀ depth, go (dumpShape boundToItself fun _ => ⟨[], []⟩) depth (fun _ => false)
      (.func 0) = .deep := by
    intro depth
    induction depth with
    | zero => rfl
    | succ depth ih =>
        have hshape : dumpShape boundToItself (fun _ => ⟨[], []⟩) (.func 0) =
            .plain [some (.func 0)] := rfl
        simp only [go, hshape, goAll, ih]
  obtain ⟨depth, hends⟩ := serializeEnds_iff_go.1 (hall boundToItself (fun _ => ⟨[], []⟩) (.func 0)).1
  exact hends (hdeep depth)

end Ymd
