import Ymd.Foundation.GuardedWalk
import Ymd.Pickle.Trace

/-! # The marks of a dump

A dump is a guarded walk: containers are marked while they are dumped, functions
never are. The walk says which marks a dump leaves behind, and how it ends.
-/

namespace Ymd

open Foundation

section

variable (heap : Heap) (debug : Addr → Debug)

/-- The values a function is dumped with; the dump stops in front of what can
not be read. -/
def funcItems (fn : Func) (core : Chunk) (debug : Debug) : List (Option Variable) :=
  if fn.bind.length < fn.nBind then [none]
  else (fn.bind.take fn.nBind).map some ++
    if 2 ^ 31 ≤ 4 * core.kinst ∨ debug.line.length < core.kinst then [none]
    else core.kval.map some

/-- The elements of a container, unless they can not be read. -/
def dumpItems (found : Except Fault (Nat × List Variable)) : List (Option Variable) :=
  match found with
  | .ok (_, elems) => elems.map some
  | .error _ => [none]

/-- What the dump finds at a value. -/
def dumpShape (v : Variable) : Shape Variable Addr :=
  match v with
  | .nil | .int _ | .bool _ | .kstr _ => .leaf
  | .ext _ | .mand _ => .bad
  | .func o =>
      match heap.func o with
      | .error _ => .plain [none]
      | .ok fn =>
          match fn.core with
          | none => .leaf
          | some core => .plain (funcItems fn core (debug o))
  | .dyay o =>
      match heap.dyay o with
      | .error _ => .plain [none]
      | .ok elem => .guarded o (elem.map some)
  | .hmap o =>
      match heap.hmap o with
      | .error _ => .plain [none]
      | .ok map => .guarded o ((flatPairs map.slots).map some)
  | .skls o =>
      match heap.skls o with
      | .error _ => .plain [none]
      | .ok list =>
          .guarded o (dumpItems do
            let pairs ← list.traverse
            pure (pairs.length, flatPairs pairs))

end

/-! ## The marks behind a dump -/

/-- One walk behind another. -/
def seqEnding (first second : Ending Addr) : Ending Addr :=
  match first with
  | .finished => second
  | .refused m => .refused m
  | .stuck => .stuck
  | .deep => .deep

theorem goAll_append (f : Variable → Ending Addr) (items rest : List (Option Variable)) :
    goAll f (items ++ rest) = seqEnding (goAll f items) (goAll f rest) := by
  induction items with
  | nil => rfl
  | cons i items ih =>
      cases i with
      | none => rfl
      | some v =>
          cases h : f v with
          | finished =>
              simp only [List.cons_append, goAll, h]
              exact ih
          | refused m => simp only [List.cons_append, goAll, h, seqEnding]
          | stuck => simp only [List.cons_append, goAll, h, seqEnding]
          | deep => simp only [List.cons_append, goAll, h, seqEnding]

/-- A dump from the marks `m` that returns has finished with the marks `m'`, or
was refused with the marks the walk leaves. -/
def Leaves {α : Type} (x : DumpM α) (m m' : Addr → Bool) (e : Ending Addr) : Prop :=
  ∀ os n s', x ⟨os, true, m⟩ = .ok n s' →
    s'.ok = true ∧ s'.entered = m' ∧ e = .finished ∨ s'.ok = false ∧ e = .refused s'.entered

namespace Leaves

variable {α β : Type} {x : DumpM α} {m m' m'' : Addr → Bool} {e : Ending Addr}

/-- A fault returns nothing. -/
theorem throw (f : Fault) : Leaves (MonadExcept.throw f : DumpM α) m m' e := by
  intro os n s' hrun
  cases hrun

theorem pure (n : α) : Leaves (Pure.pure n) m m .finished := by
  intro os n' s' hrun
  obtain ⟨_, rfl⟩ := pure_ok_iff.1 hrun
  exact .inl ⟨rfl, rfl, rfl⟩

theorem throw_bind (f : Fault) (g : α → DumpM β) :
    Leaves ((MonadExcept.throw f : DumpM α) >>= g) m m' e := nofun

theorem check {y : Except Fault α} {f : α → DumpM β} {onError : Ending Addr}
    (hf : ∀ a, y = .ok a → Leaves (f a) m m' e) :
    Leaves (dumpCheck y >>= f) m m' (match y with | .ok _ => e | .error _ => onError) := by
  cases y with
  | ok a => exact hf a rfl
  | error f => nofun

theorem write (k : Nat) (z : Bytes) : Leaves (zosWrite k z) m m .finished := by
  intro os n s' hrun
  cases hwrite : os.write k z with
  | error f =>
      simp only [zosWrite, bind_of_ok (get_apply _), hwrite] at hrun
      cases hrun
  | ok os' =>
      simp only [zosWrite, bind_of_ok (get_apply _), hwrite] at hrun
      cases hrun
      exact .inl ⟨rfl, rfl, rfl⟩

/-- A call that can not refuse. -/
theorem bind {f : α → DumpM β} (hx : Leaves x m m' .finished) (hf : ∀ n, Leaves (f n) m' m'' e) :
    Leaves (x >>= f) m m'' e := by
  intro os b s'' hrun
  obtain ⟨n, ⟨os', ok, entered⟩, hn, hrest⟩ := bind_ok_iff.1 hrun
  rcases hx os n _ hn with ⟨hok, hsame, _⟩ | ⟨_, hno⟩
  · obtain rfl := hok
    obtain rfl := hsame
    exact hf n os' b s'' hrest
  · cases hno

/-- A call under `CHECK_OK`: what is refused there is refused at once. -/
theorem dumpOk {x : DumpM Nat} {rest : Nat → DumpM Nat} {e' : Ending Addr} (hx : Leaves x m m' e)
    (hf : ∀ n, Leaves (rest n) m' m'' e') :
    Leaves (dumpOk x rest) m m'' (seqEnding e e') := by
  intro os b s'' hrun
  obtain ⟨n, ⟨os', ok, entered⟩, hn, hrest⟩ := bind_ok_iff.1 hrun
  rw [bind_of_ok (get_apply _)] at hrest
  rcases hx os n _ hn with ⟨hok, hsame, he⟩ | ⟨hfalse, he⟩
  · obtain rfl := hok
    obtain rfl := hsame
    rw [he]
    exact hf n os' b s'' hrest
  · obtain rfl := hfalse
    obtain ⟨_, rfl⟩ := pure_ok_iff.1 hrest
    rw [he]
    exact .inr ⟨rfl, rfl⟩

theorem map (hx : Leaves x m m' .finished) (g : α → β) :
    Leaves (x >>= fun a => Pure.pure (g a)) m m' .finished :=
  hx.bind fun a => Leaves.pure (g a)

theorem all {serialize : Variable → DumpM Nat} {f : Variable → Ending Addr}
    {done : Nat → DumpM Nat} (helem : ∀ v, Leaves (serialize v) m m (f v))
    (hdone : ∀ i, Leaves (done i) m m' e) (elems : List Variable) (i : Nat) :
    Leaves (dumpAll serialize elems i done) m m' (seqEnding (goAll f (elems.map some)) e) := by
  induction elems generalizing i with
  | nil => exact hdone i
  | cons v rest ih =>
      have hboth := (helem v).dumpOk fun n => ih (i + n)
      cases h : f v with
      | finished =>
          rw [h] at hboth
          simp only [List.map_cons, goAll, h]
          exact hboth
      | refused marks =>
          rw [h] at hboth
          simp only [List.map_cons, goAll, h]
          exact hboth
      | stuck =>
          rw [h] at hboth
          simp only [List.map_cons, goAll, h]
          exact hboth
      | deep =>
          rw [h] at hboth
          simp only [List.map_cons, goAll, h]
          exact hboth

theorem kstr (z : Bytes) : Leaves (ymdDumpKstr z) m m .finished := by
  apply (write 5 _).bind
  intro i
  apply (write 5 _).bind
  intro j
  exact (write _ z).map _

theorem lines (table : List (BitVec 32)) : Leaves (dumpLines table) m m .finished := by
  induction table with
  | nil => exact pure ()
  | cons line rest ih => exact (write 5 _).bind fun _ => ih

theorem names (lz : List Bytes) (i : Nat) : Leaves (dumpLz lz i) m m .finished := by
  induction lz generalizing i with
  | nil => exact pure i
  | cons z rest ih => exact (kstr z).bind fun n => ih _

theorem seqEnding_finished (e : Ending Addr) : seqEnding e .finished = e := by
  cases e <;> rfl

section

variable {serialize : Variable → DumpM Nat} {f : Variable → Ending Addr}
  (helem : ∀ v, Leaves (serialize v) m m (f v))

include helem

theorem chunk (core : Chunk) (debug : Debug) :
    Leaves (ymdDumpChunk serialize core debug) m m
      (goAll f (if 2 ^ 31 ≤ 4 * core.kinst ∨ debug.line.length < core.kinst then [none]
        else core.kval.map some)) := by
  apply (write 5 _).bind
  intro i
  by_cases hbig : 2 ^ 31 ≤ 4 * core.kinst
  · simp only [if_pos hbig]
    exact throw_bind _ _
  simp only [if_neg hbig]
  apply (write _ _).bind
  intro k
  by_cases hshort : debug.line.length < core.kinst
  · simp only [if_pos hshort]
    exact throw_bind _ _
  rw [if_neg (not_or.2 ⟨hbig, hshort⟩)]
  simp only [if_neg hshort]
  apply (lines _).bind
  intro _
  apply (write 5 _).bind
  intro _
  have hrest : ∀ i, Leaves (do
      let _ ← zosCount core.klz
      let i ← dumpLz core.lz i
      let j ← ymdDumpKstr debug.file
      let k ← zosCount core.kargs
      return i + j + k) m m .finished := by
    intro i
    apply (write 5 _).bind
    intro _
    apply (names _ _).bind
    intro i
    apply (kstr _).bind
    intro j
    exact (write 5 _).map _
  have hkval := all helem hrest core.kval (i + k)
  rwa [seqEnding_finished] at hkval

theorem func (o : Addr) (fn : Func) (debug : Addr → Debug) :
    Leaves (ymdDumpFunc debug serialize o fn) m m
      (match fn.core with
        | none => .finished
        | some core => goAll f (funcItems fn core (debug o))) := by
  unfold ymdDumpFunc funcItems
  cases fn.core with
  | none => exact pure 0
  | some core =>
      apply (write 5 _).bind
      intro i
      apply (kstr _).bind
      intro j
      apply (write 5 _).bind
      intro k
      by_cases hshort : fn.bind.length < fn.nBind
      · simp only [if_pos hshort]
        exact throw_bind _ _
      simp only [if_neg hshort]
      rw [goAll_append]
      apply all helem
      intro i
      have hlast := (chunk helem core (debug o)).dumpOk fun n => pure (m := m) (i + n)
      rwa [seqEnding_finished] at hlast

end

/-- The mark is there while the elements are dumped; only the end of the loop
takes it away. -/
theorem container {serialize : Variable → DumpM Nat} {f : Variable → Ending Addr} {o : Addr}
    (helem : ∀ v, Leaves (serialize v) (Function.update m o true) (Function.update m o true) (f v))
    (tt : Nat) (found : Except Fault (Nat × List Variable)) :
    Leaves (dumpContainer serialize o tt found) m m
      (if m o then .refused m else goAll f (dumpItems found)) := by
  intro os n s' hrun
  rw [dumpContainer, ifRecursed, bind_of_ok (modify_apply _ _), bind_of_ok (get_apply _)] at hrun
  cases hm : m o with
  | true =>
      simp only [hm, Bool.not_true] at hrun
      cases hrun
      exact .inr ⟨rfl, rfl⟩
  | false =>
      simp only [hm, Bool.not_false] at hrun
      have hleave : ∀ i : Nat, Leaves (do fgMark o false; return i : DumpM Nat)
          (Function.update m o true) m .finished := by
        intro i os n s' hrun
        have hback : Function.update (Function.update m o true) o false = m := by
          rw [Function.update_idem, ← hm, Function.update_eq_self]
        rw [fgMark, bind_of_ok (modify_apply _ _), hback] at hrun
        obtain ⟨_, rfl⟩ := pure_ok_iff.1 hrun
        exact .inl ⟨rfl, rfl, rfl⟩
      change (zosCount tt >>= _) ⟨os, true, Function.update m o true⟩ = _ at hrun
      rw [if_neg Bool.false_ne_true]
      refine (write 5 _).bind (fun i => ?_) os n s' hrun
      cases found with
      | error fault => exact throw fault
      | ok counted =>
          apply (write 5 _).bind
          intro j
          have hall := all helem hleave counted.2 (i + j)
          rwa [seqEnding_finished] at hall

end Leaves

section

variable {heap : Heap} {debug : Addr → Debug} {depth : Nat} {m : Addr → Bool} {v : Variable}

/-- `ymd_serialize` leaves the marks that the walk leaves. -/
theorem serialize_leaves (heap : Heap) (debug : Addr → Debug) (depth : Nat) (m : Addr → Bool)
    (v : Variable) :
    Leaves (ymdSerialize heap debug depth v) m m (go (dumpShape heap debug) depth m v) := by
  induction depth generalizing m v with
  | zero => exact Leaves.throw .nesting
  | succ depth ih =>
      cases v with
      | nil => exact Leaves.write 5 _
      | int i => exact (Leaves.write 5 _).bind fun j => (Leaves.write 10 _).map _
      | bool i => exact (Leaves.write 5 _).bind fun j => (Leaves.write 10 _).map _
      | kstr z => exact Leaves.kstr z
      | ext p =>
          intro os n s' hrun
          cases hrun
          exact .inr ⟨rfl, rfl⟩
      | mand o =>
          intro os n s' hrun
          cases hrun
          exact .inr ⟨rfl, rfl⟩
      | func o =>
          simp only [ymdSerialize, go, dumpShape]
          cases hfn : heap.func o with
          | error f => exact Leaves.throw f
          | ok fn =>
              have hfunc := Leaves.func (ih m) o fn debug
              cases hcore : fn.core with
              | none =>
                  simp only [hcore] at hfunc ⊢
                  exact hfunc
              | some core =>
                  simp only [hcore] at hfunc ⊢
                  exact hfunc
      | dyay o =>
          simp only [ymdSerialize, go, dumpShape]
          cases hfound : heap.dyay o with
          | error f => exact Leaves.throw f
          | ok elem => exact Leaves.container (ih _) 6 (.ok (elem.length, elem))
      | hmap o =>
          simp only [ymdSerialize, go, dumpShape]
          cases hfound : heap.hmap o with
          | error f => exact Leaves.throw f
          | ok map =>
              exact Leaves.container (ih _) 7 (.ok (map.slots.length, flatPairs map.slots))
      | skls o =>
          simp only [ymdSerialize, go, dumpShape]
          cases hfound : heap.skls o with
          | error f => exact Leaves.throw f
          | ok list => exact Leaves.container (ih _) 8 _

/-- Everything the dump of the value comes to can be dumped: no external pointer
and no managed data, and no container inside itself. -/
def Picklable (heap : Heap) (debug : Addr → Debug) (v : Variable) : Prop :=
  Finishes (dumpShape heap debug) (fun _ => false) v

/-- The first thing that can not be dumped is the value itself, or is reached
through functions only. -/
def RefusedOutside (heap : Heap) (debug : Addr → Debug) (v : Variable) : Prop :=
  RefusesBare (dumpShape heap debug) (fun _ => false) v

/-- A dump that returns leaves no mark exactly when it succeeds or fails outside
of every container. -/
theorem serialize_unmarked_iff {os : Zostream} {n : Nat} {s' : Dump}
    (hrun : ymdSerialize heap debug depth v ⟨os, true, fun _ => false⟩ = .ok n s') :
    (∀ o, s'.entered o = false) ↔ Picklable heap debug v ∨ RefusedOutside heap debug v := by
  rcases serialize_leaves heap debug depth (fun _ => false) v os n s' hrun with
    ⟨_, hsame, hgo⟩ | ⟨_, hgo⟩
  · exact iff_of_true (fun o => by rw [hsame]) (.inl (finishes_of_go hgo))
  · have hrefuses := refuses_of_go hgo
    constructor
    · intro hclean
      have hsame : s'.entered = fun _ => false := funext hclean
      exact .inr (hrefuses.marks_eq_iff.1 hsame)
    · rintro (hfin | hbare)
      · exact absurd hfin hrefuses.not_finishes
      · have hsame := hrefuses.marks_eq_iff.2 hbare
        exact fun o => by rw [hsame]

/-- An array of two scalars. -/
def scalarPair : Heap := (Heap.empty.alloc (.dyay [.int 1, .nil])).1

theorem serialize_unmarked_pair :
    ∃ n s', ymdSerialize scalarPair (fun _ => ⟨[], []⟩) 2 (.dyay 0) ⟨.init, true, fun _ => false⟩ =
        .ok n s' ∧
      ((∀ o, s'.entered o = false) ↔ Picklable scalarPair (fun _ => ⟨[], []⟩) (.dyay 0) ∨
        RefusedOutside scalarPair (fun _ => ⟨[], []⟩) (.dyay 0)) := by
  obtain ⟨n, s', hrun⟩ : ∃ n s', ymdSerialize scalarPair (fun _ => ⟨[], []⟩) 2 (.dyay 0)
      ⟨.init, true, fun _ => false⟩ = .ok n s' := ⟨_, _, rfl⟩
  exact ⟨n, s', hrun, serialize_unmarked_iff hrun⟩

/-- An array of an external pointer. -/
def arrayOfExt : Heap := (Heap.empty.alloc (.dyay [.ext 0])).1

theorem serialize_unmarked_counterexample :
    ¬ ∀ (heap : Heap) (debug : Addr → Debug) (depth : Nat) (v : Variable) (os : Zostream) (n : Nat)
      (s' : Dump), ymdSerialize heap debug depth v ⟨os, true, fun _ => false⟩ = .ok n s' →
        ∀ o, s'.entered o = false := by
  intro hall
  have hmark := hall arrayOfExt (fun _ => ⟨[], []⟩) 2 (.dyay 0) .init 0 _ rfl 0
  cases hmark

end

end Ymd
