import Mathlib.Data.Set.Finite.Lattice
import Ymd.Foundation.Acyclic
import Ymd.Table.Lookups

/-! # Where the comparison of values ends

The functions of `value.c` follow the elements of containers without a mark. In
a graph without cycles they return, one level of containers after the other; in
a cycle the hash of a container calls itself.
-/

namespace Ymd

open Foundation

/-- Keys and values one after the other. -/
def pairsOf (entries : List (Variable × Variable)) : List Variable :=
  entries.flatMap fun e => [e.1, e.2]

/-- The elements of a container; everything else has none. -/
def elements (heap : Heap) (v : Variable) : List Variable :=
  match v with
  | .dyay o =>
      match heap.dyay o with
      | .ok elem => elem
      | .error _ => []
  | .hmap o =>
      match heap.hmap o with
      | .ok map => pairsOf map.entries
      | .error _ => []
  | .skls o =>
      match heap.skls o with
      | .ok list =>
          match list.traverse with
          | .ok entries => pairsOf entries
          | .error _ => []
      | .error _ => []
  | _ => []

/-- One value is an element of the other. -/
def Element (heap : Heap) (v w : Variable) : Prop := w ∈ elements heap v

/-- A scalar, or a reference to a container of the heap. -/
def IsDatum (heap : Heap) : Variable → Prop
  | .nil | .int _ | .bool _ | .ext _ | .kstr _ => True
  | .dyay o => ∃ elem, heap.dyay o = .ok elem
  | .hmap o => ∃ map, heap.hmap o = .ok map
  | .skls o => ∃ list, heap.skls o = .ok list
  | .func _ | .mand _ => False

/-- A heap of arrays, hash maps and skip lists with such elements. -/
structure DataGraph (heap : Heap) : Prop where
  element : ∀ v w, Element heap v w → IsDatum heap w
  hmap : ∀ o map, heap.hmap o = .ok map → map.Sound
  skls : ∀ o list, heap.skls o = .ok list → list.Sound

/-- With enough nested calls the three functions return. -/
def Returns (heap : Heap) (v w : Variable) : Prop :=
  ∃ depth, (∃ h, (valueOps heap depth).hash v = .ok h) ∧
    (∃ b, (valueOps heap depth).equals v w = .ok b) ∧
      ∃ c, (valueOps heap depth).compare v w = .ok c

/-- At most `n` containers lie inside each other. -/
def Low (heap : Heap) : (n : Nat) → Variable → Prop
  | 0, v => elements heap v = []
  | n + 1, v => ∀ w ∈ elements heap v, Low heap n w

section

variable {heap : Heap} {ops : KeyOps} {v w : Variable} {n : Nat}

theorem mem_pairsOf {entries : List (Variable × Variable)} :
    v ∈ pairsOf entries ↔ (∃ w, (v, w) ∈ entries) ∨ ∃ k, (k, v) ∈ entries := by
  simp only [pairsOf, List.mem_flatMap, List.mem_cons, List.not_mem_nil, or_false]
  constructor
  · rintro ⟨⟨k, w⟩, hmem, rfl | rfl⟩
    · exact .inl ⟨w, hmem⟩
    · exact .inr ⟨k, hmem⟩
  · rintro (⟨w, hmem⟩ | ⟨k, hmem⟩)
    · exact ⟨(v, w), hmem, .inl rfl⟩
    · exact ⟨(k, v), hmem, .inr rfl⟩

theorem elements_dyay {o : Addr} {elem : List Variable} (hobj : heap.dyay o = .ok elem) :
    elements heap (.dyay o) = elem := by simp only [elements, hobj]

theorem elements_hmap {o : Addr} {map : Hmap} (hobj : heap.hmap o = .ok map) :
    elements heap (.hmap o) = pairsOf map.entries := by simp only [elements, hobj]

theorem elements_skls {o : Addr} {list : Skls} {entries : List (Variable × Variable)}
    (hobj : heap.skls o = .ok list) (hentries : list.traverse = .ok entries) :
    elements heap (.skls o) = pairsOf entries := by simp only [elements, hobj, hentries]

theorem Low.succ (hlow : Low heap n v) : Low heap (n + 1) v := by
  induction n generalizing v with
  | zero =>
      intro w hw
      rw [show elements heap v = [] from hlow] at hw
      exact absurd hw List.not_mem_nil
  | succ n ih => exact fun w hw => ih (hlow w hw)

theorem Low.mono {m : Nat} (hlow : Low heap n v) (hle : n ≤ m) : Low heap m v := by
  induction hle with
  | refl => exact hlow
  | step _ ih => exact ih.succ

theorem Low.nil (heap : Heap) (n : Nat) : Low heap n .nil :=
  Low.mono (n := 0) rfl (Nat.zero_le n)

/-! ## The functions return -/

/-- The calls between two lists of values return. -/
structure ReturnsOn (ops : KeyOps) (vs ws : List Variable) : Prop where
  hash : ∀ v ∈ vs, ∃ h, ops.hash v = .ok h
  equals : ∀ v ∈ vs, ∀ w, w = .nil ∨ w ∈ ws → ∃ b, ops.equals v w = .ok b
  compare : ∀ v ∈ vs, ∀ w, w = .nil ∨ w ∈ ws → ∃ c, ops.compare v w = .ok c
  equals_back : ∀ v ∈ vs, ∀ w ∈ ws, ∃ b, ops.equals w v = .ok b
  compare_back : ∀ v ∈ vs, ∀ w ∈ ws, ∃ c, ops.compare w v = .ok c

theorem hashElems_returns {elem : List Variable} (hhash : ∀ v ∈ elem, ∃ h, ops.hash v = .ok h)
    {i : Nat} (hi : i ≤ elem.length) (h : BitVec 64) : ∃ h', hashElems ops elem i h = .ok h' := by
  induction i generalizing h with
  | zero => exact ⟨h, rfl⟩
  | succ i ih =>
      have hmem : elem.getD i .nil ∈ elem := by
        rw [List.getD_eq_getElem?_getD, List.getElem?_eq_getElem hi]
        exact List.getElem_mem hi
      obtain ⟨hi', hval⟩ := hhash (elem.getD i .nil) hmem
      obtain ⟨h', hh'⟩ := ih (Nat.le_of_succ_le hi) (if i % 2 = 1 then h ^^^ hi' else h + hi')
      refine ⟨h', ?_⟩
      rw [hashElems, hval]
      exact hh'

theorem hashEntries_returns {entries : List (Variable × Variable)}
    (hhash : ∀ v ∈ pairsOf entries, ∃ h, ops.hash v = .ok h) (h : BitVec 64) :
    ∃ h', hashEntries ops entries h = .ok h' := by
  induction entries generalizing h with
  | nil => exact ⟨h, rfl⟩
  | cons entry entries ih =>
      obtain ⟨k, v⟩ := entry
      obtain ⟨hk, hhk⟩ := hhash k (by simp [pairsOf])
      obtain ⟨hv, hhv⟩ := hhash v (by simp [pairsOf])
      obtain ⟨h', hh'⟩ := ih (fun w hw => hhash w (List.mem_append_right _ hw)) ((h + hk) ^^^ hv)
      refine ⟨h', ?_⟩
      rw [hashEntries, hhk]
      simp only [bind, Except.bind, hhv]
      exact hh'

theorem equalElems_returns {pairs : List (Variable × Variable)}
    (hequals : ∀ p ∈ pairs, ∃ b, ops.equals p.1 p.2 = .ok b) :
    ∃ b, equalElems ops pairs = .ok b := by
  induction pairs with
  | nil => exact ⟨true, rfl⟩
  | cons p pairs ih =>
      obtain ⟨l, r⟩ := p
      obtain ⟨b, hb⟩ := hequals (l, r) List.mem_cons_self
      obtain ⟨b', hb'⟩ := ih fun p hp => hequals p (List.mem_cons_of_mem _ hp)
      rw [equalElems, hb]
      cases b with
      | true => exact ⟨b', hb'⟩
      | false => exact ⟨false, rfl⟩

theorem equalEntries_returns {find : Variable → Except Fault Variable}
    {entries : List (Variable × Variable)}
    (hfind : ∀ k v, (k, v) ∈ entries → ∃ w, find k = .ok w ∧ ∃ b, ops.equals v w = .ok b) :
    ∃ b, equalEntries ops find entries = .ok b := by
  induction entries with
  | nil => exact ⟨true, rfl⟩
  | cons entry entries ih =>
      obtain ⟨k, v⟩ := entry
      obtain ⟨w, hw, b, hb⟩ := hfind k v List.mem_cons_self
      obtain ⟨b', hb'⟩ := ih fun k v hmem => hfind k v (List.mem_cons_of_mem _ hmem)
      rw [equalEntries, hw]
      simp only [bind, Except.bind, hb]
      cases b with
      | true => exact ⟨b', hb'⟩
      | false => exact ⟨false, rfl⟩

theorem compareEntries_returns {find : Variable → Except Fault Variable}
    {entries : List (Variable × Variable)}
    (hfind : ∀ k v, (k, v) ∈ entries → ∃ w, find k = .ok w ∧ ∃ c, ops.compare v w = .ok c)
    (rv : Int) : ∃ c, compareEntries ops find entries rv = .ok c := by
  induction entries generalizing rv with
  | nil => exact ⟨rv, rfl⟩
  | cons entry entries ih =>
      obtain ⟨k, v⟩ := entry
      obtain ⟨w, hw, c, hc⟩ := hfind k v List.mem_cons_self
      obtain ⟨c', hc'⟩ := ih (fun k v hmem => hfind k v (List.mem_cons_of_mem _ hmem)) (addInt rv c)
      refine ⟨c', ?_⟩
      rw [compareEntries, hw]
      simp only [bind, Except.bind, hc]
      exact hc'

theorem dyayCompare_returns {arr rhs : List Variable}
    (hcompare : ∀ l ∈ arr, ∀ r ∈ rhs, ∃ c, ops.compare l r = .ok c) :
    ∃ c, dyayCompare ops arr rhs = .ok c := by
  induction arr generalizing rhs with
  | nil =>
      cases rhs with
      | nil => exact ⟨0, rfl⟩
      | cons r rhs => exact ⟨-1, rfl⟩
  | cons l arr ih =>
      cases rhs with
      | nil => exact ⟨1, rfl⟩
      | cons r rhs =>
          obtain ⟨c, hc⟩ := hcompare l List.mem_cons_self r List.mem_cons_self
          obtain ⟨c', hc'⟩ := ih fun l hl r hr =>
            hcompare l (List.mem_cons_of_mem _ hl) r (List.mem_cons_of_mem _ hr)
          simp only [dyayCompare, hc, bind, Except.bind]
          split
          next => exact ⟨-1, rfl⟩
          next =>
            split
            next => exact ⟨1, rfl⟩
            next => exact ⟨c', hc'⟩

/-- A lookup of the keys of one map in another one. -/
theorem hmapFind_returns {map rhs : Hmap} (hsound : rhs.Sound)
    (hreturns : ReturnsOn ops (pairsOf map.entries) (pairsOf rhs.entries)) {k v : Variable}
    (hmem : (k, v) ∈ map.entries) :
    ∃ w, Hmap.find ops rhs k = .ok w ∧ (w = .nil ∨ w ∈ pairsOf rhs.entries) := by
  have hk : k ∈ pairsOf map.entries := mem_pairsOf.2 (.inl ⟨v, hmem⟩)
  obtain ⟨h, hhash⟩ := hreturns.hash k hk
  obtain ⟨w, hw, hcase⟩ := Hmap.find_returns hsound hhash fun k' v' hmem' =>
    hreturns.equals_back k hk k' (mem_pairsOf.2 (.inl ⟨v', hmem'⟩))
  exact ⟨w, hw, hcase.imp_right fun hentry => mem_pairsOf.2 (.inr hentry)⟩

/-- The same for skip lists. -/
theorem sklsFind_returns {rhs : Skls} {entries rhsEntries : List (Variable × Variable)}
    (hsound : rhs.Sound) (hrhs : rhs.traverse = .ok rhsEntries)
    (hreturns : ReturnsOn ops (pairsOf entries) (pairsOf rhsEntries)) {k v : Variable}
    (hmem : (k, v) ∈ entries) :
    ∃ w, Skls.find ops rhs k = .ok w ∧ (w = .nil ∨ w ∈ pairsOf rhsEntries) := by
  have hk : k ∈ pairsOf entries := mem_pairsOf.2 (.inl ⟨v, hmem⟩)
  obtain ⟨hsize, cells, hlinked⟩ := hsound
  obtain rfl := Except.ok.inj (hrhs.symm.trans (hlinked.traverse_eq hsize))
  obtain ⟨w, hw, hcase⟩ := Skls.find_returns hlinked hsize fun c hc => by
    have hkey : (rhs.node c).k ∈ pairsOf (cells.map rhs.entry) :=
      mem_pairsOf.2 (.inl ⟨(rhs.node c).v, List.mem_map_of_mem hc⟩)
    exact ⟨hreturns.compare_back k hk _ hkey, hreturns.equals_back k hk _ hkey⟩
  exact ⟨w, hw, hcase.imp_right fun hentry => mem_pairsOf.2 (.inr hentry)⟩

theorem hashWith_returns (hgraph : DataGraph heap) (hv : IsDatum heap v)
    (hhash : ∀ w ∈ elements heap v, ∃ h, ops.hash w = .ok h) :
    ∃ h, hashWith ops heap v = .ok h := by
  cases v with
  | nil => exact ⟨_, rfl⟩
  | int i => exact ⟨_, rfl⟩
  | bool i => exact ⟨_, rfl⟩
  | ext p => exact ⟨_, rfl⟩
  | kstr z => exact ⟨_, rfl⟩
  | func o => exact hv.elim
  | mand o => exact hv.elim
  | dyay o =>
      obtain ⟨elem, helem⟩ := hv
      rw [elements_dyay helem] at hhash
      simp only [hashWith, helem]
      exact hashElems_returns hhash le_rfl _
  | hmap o =>
      obtain ⟨map, hmap⟩ := hv
      rw [elements_hmap hmap] at hhash
      simp only [hashWith, hmap]
      exact hashEntries_returns hhash _
  | skls o =>
      obtain ⟨list, hlist⟩ := hv
      obtain ⟨hsize, cells, hlinked⟩ := hgraph.skls o list hlist
      have htraverse := hlinked.traverse_eq hsize
      rw [elements_skls hlist htraverse] at hhash
      simp only [hashWith, hlist]
      change ∃ h, (do hashEntries ops (← list.traverse) 0) = Except.ok h
      rw [htraverse]
      exact hashEntries_returns hhash _

theorem equalsWith_returns (hgraph : DataGraph heap) (hv : IsDatum heap v) (hw : IsDatum heap w)
    (hreturns : ReturnsOn ops (elements heap v) (elements heap w)) :
    ∃ b, equalsWith ops heap v w = .ok b := by
  unfold equalsWith
  split
  next => exact ⟨false, rfl⟩
  next htype =>
    split
    next => exact ⟨true, rfl⟩
    next o p =>
      split
      next => exact ⟨true, rfl⟩
      next =>
        obtain ⟨arr, harr⟩ := hv
        obtain ⟨rhs, hrhs⟩ := hw
        rw [elements_dyay harr, elements_dyay hrhs] at hreturns
        simp only [harr, hrhs]
        change ∃ b, dyayEquals ops arr rhs = .ok b
        unfold dyayEquals
        split
        next =>
          apply equalElems_returns
          rintro ⟨l, r⟩ hp
          obtain ⟨hl, hr⟩ := List.of_mem_zip (List.mem_reverse.1 hp)
          exact hreturns.equals l hl r (.inr hr)
        next => exact ⟨false, rfl⟩
    next o p =>
      split
      next => exact ⟨true, rfl⟩
      next =>
        obtain ⟨map, hmap⟩ := hv
        obtain ⟨rhs, hrhs⟩ := hw
        rw [elements_hmap hmap, elements_hmap hrhs] at hreturns
        simp only [hmap, hrhs]
        change ∃ b, hmapEquals ops map rhs = .ok b
        unfold hmapEquals
        split
        next => exact ⟨false, rfl⟩
        next =>
          -- each value is compared with what is found on the other side
          have hsame : ∃ same, equalEntries ops (Hmap.find ops rhs) map.entries = .ok same := by
            apply equalEntries_returns
            intro k v hmem
            obtain ⟨w, hfind, hcase⟩ := hmapFind_returns (hgraph.hmap p rhs hrhs) hreturns hmem
            exact ⟨w, hfind, hreturns.equals v (mem_pairsOf.2 (.inr ⟨k, hmem⟩)) w hcase⟩
          obtain ⟨same, hsame⟩ := hsame
          rw [hsame]
          exact ⟨_, rfl⟩
    next o p =>
      split
      next => exact ⟨true, rfl⟩
      next =>
        obtain ⟨list, hlist⟩ := hv
        obtain ⟨rhs, hrhs⟩ := hw
        obtain ⟨entries, hentries⟩ := (hgraph.skls o list hlist).traverse_returns
        obtain ⟨rhsEntries, hrhsEntries⟩ := (hgraph.skls p rhs hrhs).traverse_returns
        rw [elements_skls hlist hentries, elements_skls hrhs hrhsEntries] at hreturns
        simp only [hlist, hrhs]
        change ∃ b, sklsEquals ops list rhs = .ok b
        unfold sklsEquals
        have hsame : ∃ same, equalEntries ops (Skls.find ops rhs) entries = .ok same := by
          apply equalEntries_returns
          intro k v hmem
          obtain ⟨w, hfind, hcase⟩ :=
            sklsFind_returns (hgraph.skls p rhs hrhs) hrhsEntries hreturns hmem
          exact ⟨w, hfind, hreturns.equals v (mem_pairsOf.2 (.inr ⟨k, hmem⟩)) w hcase⟩
        obtain ⟨same, hsame⟩ := hsame
        simp only [hrhsEntries, hentries, bind, Except.bind, hsame]
        exact ⟨_, rfl⟩
    next => exact hv.elim
    next => exact ⟨_, rfl⟩

theorem compareWith_returns (hgraph : DataGraph heap) (hv : IsDatum heap v) (hw : IsDatum heap w)
    (hreturns : ReturnsOn ops (elements heap v) (elements heap w)) :
    ∃ c, compareWith ops heap v w = .ok c := by
  unfold compareWith
  split
  next => exact ⟨_, rfl⟩
  next htype =>
    split
    next => exact ⟨0, rfl⟩
    next => exact ⟨_, rfl⟩
    next => exact ⟨_, rfl⟩
    next => exact ⟨_, rfl⟩
    next => exact ⟨0, rfl⟩
    next o p =>
      split
      next => exact ⟨0, rfl⟩
      next =>
        obtain ⟨arr, harr⟩ := hv
        obtain ⟨rhs, hrhs⟩ := hw
        rw [elements_dyay harr, elements_dyay hrhs] at hreturns
        simp only [harr, hrhs]
        exact dyayCompare_returns fun l hl r hr => hreturns.compare l hl r (.inr hr)
    next o p =>
      split
      next => exact ⟨0, rfl⟩
      next =>
        obtain ⟨map, hmap⟩ := hv
        obtain ⟨rhs, hrhs⟩ := hw
        rw [elements_hmap hmap, elements_hmap hrhs] at hreturns
        simp only [hmap, hrhs]
        apply compareEntries_returns
        intro k v hmem
        obtain ⟨w, hfind, hcase⟩ := hmapFind_returns (hgraph.hmap p rhs hrhs) hreturns hmem
        exact ⟨w, hfind, hreturns.compare v (mem_pairsOf.2 (.inr ⟨k, hmem⟩)) w hcase⟩
    next o p =>
      split
      next => exact ⟨0, rfl⟩
      next =>
        obtain ⟨list, hlist⟩ := hv
        obtain ⟨rhs, hrhs⟩ := hw
        obtain ⟨entries, hentries⟩ := (hgraph.skls o list hlist).traverse_returns
        obtain ⟨rhsEntries, hrhsEntries⟩ := (hgraph.skls p rhs hrhs).traverse_returns
        rw [elements_skls hlist hentries, elements_skls hrhs hrhsEntries] at hreturns
        simp only [hlist, hrhs]
        change ∃ c, (do compareEntries ops (Skls.find ops rhs) (← list.traverse) 0) = Except.ok c
        rw [hentries]
        apply compareEntries_returns
        intro k v hmem
        obtain ⟨w, hfind, hcase⟩ :=
          sklsFind_returns (hgraph.skls p rhs hrhs) hrhsEntries hreturns hmem
        exact ⟨w, hfind, hreturns.compare v (mem_pairsOf.2 (.inr ⟨k, hmem⟩)) w hcase⟩
    next hnil hint hbool hkstr hext hdyay hhmap hskls =>
      -- what is left are functions and managed data
      exfalso
      cases v <;> cases w <;> simp_all [Variable.type, IsDatum]

/-! ## Without cycles -/

/-- One more call for one more level of containers. -/
theorem Low.returns (hgraph : DataGraph heap) (hlowv : Low heap n v) (hloww : Low heap n w)
    (hv : IsDatum heap v) (hw : IsDatum heap w) :
    (∃ h, (valueOps heap (n + 1)).hash v = .ok h) ∧
      (∃ b, (valueOps heap (n + 1)).equals v w = .ok b) ∧
        ∃ c, (valueOps heap (n + 1)).compare v w = .ok c := by
  induction n generalizing v w with
  | zero =>
      have hnone : elements heap v = [] := hlowv
      have hreturns : ReturnsOn (valueOps heap 0) (elements heap v) (elements heap w) := by
        rw [hnone]
        constructor <;> simp
      exact ⟨hashWith_returns hgraph hv hreturns.hash, equalsWith_returns hgraph hv hw hreturns,
        compareWith_returns hgraph hv hw hreturns⟩
  | succ n ih =>
      have hreturns : ReturnsOn (valueOps heap (n + 1)) (elements heap v) (elements heap w) := by
        have hnear : ∀ l ∈ elements heap v, ∀ r, r = .nil ∨ r ∈ elements heap w →
            Low heap n r ∧ IsDatum heap r := by
          intro l hl r hr
          rcases hr with rfl | hr
          · exact ⟨.nil heap n, trivial⟩
          · exact ⟨hloww r hr, hgraph.element w r hr⟩
        constructor
        case hash =>
          intro l hl
          exact (ih (hlowv l hl) (.nil heap n) (hgraph.element v l hl) trivial).1
        case equals =>
          intro l hl r hr
          obtain ⟨hlow, hdatum⟩ := hnear l hl r hr
          exact (ih (hlowv l hl) hlow (hgraph.element v l hl) hdatum).2.1
        case compare =>
          intro l hl r hr
          obtain ⟨hlow, hdatum⟩ := hnear l hl r hr
          exact (ih (hlowv l hl) hlow (hgraph.element v l hl) hdatum).2.2
        case equals_back =>
          intro l hl r hr
          exact (ih (hloww r hr) (hlowv l hl) (hgraph.element w r hr) (hgraph.element v l hl)).2.1
        case compare_back =>
          intro l hl r hr
          exact (ih (hloww r hr) (hlowv l hl) (hgraph.element w r hr) (hgraph.element v l hl)).2.2
      exact ⟨hashWith_returns hgraph hv hreturns.hash, equalsWith_returns hgraph hv hw hreturns,
        compareWith_returns hgraph hv hw hreturns⟩

theorem exists_low_of_forall {vs : List Variable} (hall : ∀ v ∈ vs, ∃ n, Low heap n v) :
    ∃ n, ∀ v ∈ vs, Low heap n v := by
  induction vs with
  | nil => exact ⟨0, fun v hv => absurd hv List.not_mem_nil⟩
  | cons v vs ih =>
      obtain ⟨n, hn⟩ := hall v List.mem_cons_self
      obtain ⟨m, hm⟩ := ih fun w hw => hall w (List.mem_cons_of_mem _ hw)
      refine ⟨max n m, fun w hw => ?_⟩
      rcases List.mem_cons.1 hw with rfl | hw
      · exact hn.mono (le_max_left n m)
      · exact (hm w hw).mono (le_max_right n m)

/-- The values with elements are containers, at the addresses in use. -/
theorem finite_containers (heap : Heap) : {v | elements heap v ≠ []}.Finite := by
  have hcontainers : (Set.range fun i : Fin heap.next => Variable.dyay i.1) ∪
      (Set.range fun i : Fin heap.next => Variable.hmap i.1) ∪
        (Set.range fun i : Fin heap.next => Variable.skls i.1) |>.Finite :=
    ((Set.finite_range _).union (Set.finite_range _)).union (Set.finite_range _)
  apply hcontainers.subset
  intro v hv
  cases v with
  | nil => exact absurd rfl hv
  | int i => exact absurd rfl hv
  | bool i => exact absurd rfl hv
  | ext p => exact absurd rfl hv
  | kstr z => exact absurd rfl hv
  | func o => exact absurd rfl hv
  | mand o => exact absurd rfl hv
  | dyay o =>
      cases hobj : heap.dyay o with
      | error e => exact absurd (by simp only [elements, hobj]) hv
      | ok elem => exact .inl (.inl ⟨⟨o, Heap.lt_next (Heap.dyay_eq_ok.1 hobj)⟩, rfl⟩)
  | hmap o =>
      cases hobj : heap.hmap o with
      | error e => exact absurd (by simp only [elements, hobj]) hv
      | ok map => exact .inl (.inr ⟨⟨o, Heap.lt_next (Heap.hmap_eq_ok.1 hobj)⟩, rfl⟩)
  | skls o =>
      cases hobj : heap.skls o with
      | error e => exact absurd (by simp only [elements, hobj]) hv
      | ok list => exact .inr ⟨⟨o, Heap.lt_next (Heap.skls_eq_ok.1 hobj)⟩, rfl⟩

theorem exists_low (hcycle : ¬ ∃ v, Relation.TransGen (Element heap) v v) (v : Variable) :
    ∃ n, Low heap n v := by
  have hwf := wellFounded_of_acyclic (r := fun w v => Element heap v w) (finite_containers heap)
    fun v _ hv => hcycle ⟨v, Relation.transGen_swap.1 hv⟩
  have hall : ∀ a : {v | elements heap v ≠ []}, ∃ n, Low heap n a.1 := by
    intro a
    induction a using hwf.induction with
    | _ a ih =>
      have helems : ∀ w ∈ elements heap a.1, ∃ n, Low heap n w := by
        intro w hw
        by_cases hleaf : elements heap w = []
        · exact ⟨0, hleaf⟩
        · exact ih ⟨w, hleaf⟩ hw
      obtain ⟨n, hn⟩ := exists_low_of_forall helems
      exact ⟨n + 1, hn⟩
  by_cases hleaf : elements heap v = []
  · exact ⟨0, hleaf⟩
  · exact hall ⟨v, hleaf⟩

/-! ## With a cycle -/

theorem hash_of_hashElems {elem : List Variable} {i : Nat} {h h' : BitVec 64}
    (hok : hashElems ops elem i h = .ok h') {j : Nat} (hj : j < i) :
    ∃ hj, ops.hash (elem.getD j .nil) = .ok hj := by
  induction i generalizing h with
  | zero => exact absurd hj (Nat.not_lt_zero j)
  | succ i ih =>
      rw [hashElems, except_bind_ok_iff] at hok
      obtain ⟨hi, hval, hrest⟩ := hok
      rcases Nat.lt_succ_iff_lt_or_eq.1 hj with hlt | rfl
      · exact ih hrest hlt
      · exact ⟨hi, hval⟩

theorem hash_of_hashEntries {entries : List (Variable × Variable)} {h h' : BitVec 64}
    (hok : hashEntries ops entries h = .ok h') (hv : v ∈ pairsOf entries) :
    ∃ hv, ops.hash v = .ok hv := by
  induction entries generalizing h with
  | nil => exact absurd hv List.not_mem_nil
  | cons entry entries ih =>
      obtain ⟨k, w⟩ := entry
      simp only [hashEntries, except_bind_ok_iff] at hok
      obtain ⟨hk, hkey, hw, hval, hrest⟩ := hok
      rcases List.mem_append.1 hv with hv | hv
      · rcases List.mem_pair.1 hv with rfl | rfl
        · exact ⟨hk, hkey⟩
        · exact ⟨hw, hval⟩
      · exact ih hrest hv

/-- The hash of a container takes the hash of every element. -/
theorem hash_of_hashWith {h : BitVec 64} (hok : hashWith ops heap v = .ok h)
    (hw : w ∈ elements heap v) : ∃ hw, ops.hash w = .ok hw := by
  cases v with
  | nil => exact absurd hw List.not_mem_nil
  | int i => exact absurd hw List.not_mem_nil
  | bool i => exact absurd hw List.not_mem_nil
  | ext p => exact absurd hw List.not_mem_nil
  | kstr z => exact absurd hw List.not_mem_nil
  | func o => exact absurd hw List.not_mem_nil
  | mand o => exact absurd hw List.not_mem_nil
  | dyay o =>
      simp only [hashWith, except_bind_ok_iff] at hok
      obtain ⟨elem, helem, hloop⟩ := hok
      rw [elements_dyay helem] at hw
      obtain ⟨j, hj, rfl⟩ := List.getElem_of_mem hw
      have hval := hash_of_hashElems hloop hj
      rwa [List.getD_eq_getElem?_getD, List.getElem?_eq_getElem hj] at hval
  | hmap o =>
      simp only [hashWith, except_bind_ok_iff] at hok
      obtain ⟨map, hmap, hloop⟩ := hok
      rw [elements_hmap hmap] at hw
      exact hash_of_hashEntries hloop hw
  | skls o =>
      simp only [hashWith, except_bind_ok_iff] at hok
      obtain ⟨list, hlist, entries, hentries, hloop⟩ := hok
      rw [elements_skls hlist hentries] at hw
      exact hash_of_hashEntries hloop hw

theorem acc_of_hash {depth : Nat} {h : BitVec 64} (hok : (valueOps heap depth).hash v = .ok h) :
    Acc (fun w u => Element heap u w) v := by
  induction depth generalizing v h with
  | zero => cases hok
  | succ depth ih =>
      constructor
      intro w hw
      obtain ⟨h', hhash⟩ := hash_of_hashWith hok hw
      exact ih hhash

/-- The three functions return for all values of a graph exactly when no
container lies inside itself. -/
theorem values_return_iff (hgraph : DataGraph heap) :
    (∀ v w, IsDatum heap v → IsDatum heap w → Returns heap v w) ↔
      ¬ ∃ v, Relation.TransGen (Element heap) v v := by
  constructor
  · rintro hall ⟨v, hcycle⟩
    have hv : IsDatum heap v := by
      cases hcycle with
      | single hstep => exact hgraph.element _ _ hstep
      | tail _ hstep => exact hgraph.element _ _ hstep
    obtain ⟨depth, ⟨h, hhash⟩, _⟩ := hall v v hv hv
    exact not_transGen_self_of_acc (acc_of_hash hhash) (Relation.transGen_swap.2 hcycle)
  · intro hcycle v w hv hw
    obtain ⟨n, hn⟩ := exists_low hcycle v
    obtain ⟨m, hm⟩ := exists_low hcycle w
    exact ⟨max n m + 1, (hn.mono (le_max_left n m)).returns hgraph (hm.mono (le_max_right n m)) hv hw⟩

/-! ## Heaps of arrays -/

theorem element_of_arrays {holds : Addr → Variable → Prop}
    (harrays : ∀ o obj, heap.obj o = some obj → ∃ elem, obj = .dyay elem ∧ ∀ w ∈ elem, holds o w)
    (hvw : Element heap v w) : ∃ o, v = .dyay o ∧ holds o w := by
  have hcontainer : elements heap v ≠ [] := List.ne_nil_of_mem hvw
  cases v with
  | dyay o =>
      cases hobj : heap.dyay o with
      | error e => exact absurd (by simp only [elements, hobj]) hcontainer
      | ok elem =>
          obtain ⟨_, heq, hall⟩ := harrays o _ (Heap.dyay_eq_ok.1 hobj)
          cases heq
          unfold Element at hvw
          rw [elements_dyay hobj] at hvw
          exact ⟨o, rfl, hall w hvw⟩
  | hmap o =>
      cases hobj : heap.hmap o with
      | error e => exact absurd (by simp only [elements, hobj]) hcontainer
      | ok map =>
          obtain ⟨_, heq, _⟩ := harrays o _ (Heap.hmap_eq_ok.1 hobj)
          cases heq
  | skls o =>
      cases hobj : heap.skls o with
      | error e => exact absurd (by simp only [elements, hobj]) hcontainer
      | ok list =>
          obtain ⟨_, heq, _⟩ := harrays o _ (Heap.skls_eq_ok.1 hobj)
          cases heq
  | nil => exact absurd rfl hcontainer
  | int i => exact absurd rfl hcontainer
  | bool i => exact absurd rfl hcontainer
  | ext p => exact absurd rfl hcontainer
  | kstr z => exact absurd rfl hcontainer
  | func o => exact absurd rfl hcontainer
  | mand o => exact absurd rfl hcontainer

theorem DataGraph.of_arrays (harrays : ∀ o obj, heap.obj o = some obj →
    ∃ elem, obj = .dyay elem ∧ ∀ w ∈ elem, IsDatum heap w) : DataGraph heap where
  element := by
    intro v w hvw
    obtain ⟨_, -, hw⟩ := @element_of_arrays heap v w (fun _ => IsDatum heap) harrays hvw
    exact hw
  hmap := by
    intro o map hmap
    obtain ⟨_, heq, _⟩ := harrays o _ (Heap.hmap_eq_ok.1 hmap)
    cases heq
  skls := by
    intro o list hlist
    obtain ⟨_, heq, _⟩ := harrays o _ (Heap.skls_eq_ok.1 hlist)
    cases heq

/-- Arrays of scalars and of arrays that were made before. -/
theorem arrays_of_earlier (heap : Heap) (harrays : ∀ o obj, heap.obj o = some obj →
    ∃ elem, obj = .dyay elem ∧ ∀ w ∈ elem,
      w.IsScalarKey ∨ ∃ p, w = .dyay p ∧ p < o ∧ heap.obj p ≠ none) :
    DataGraph heap ∧ ¬ ∃ v, Relation.TransGen (Element heap) v v := by
  constructor
  · apply DataGraph.of_arrays
    intro o obj hobj
    obtain ⟨elem, rfl, hall⟩ := harrays o obj hobj
    refine ⟨elem, rfl, fun w hw => ?_⟩
    rcases hall w hw with hscalar | ⟨p, rfl, -, hp⟩
    · cases w <;> first
        | exact hscalar.elim
        | trivial
    · obtain ⟨obj, hobj⟩ := Option.ne_none_iff_exists'.1 hp
      obtain ⟨elem, rfl, -⟩ := harrays p obj hobj
      exact ⟨elem, Heap.dyay_eq_ok.2 hobj⟩
  · have hlower : ∀ v w, Element heap v w → ∃ o, v = .dyay o ∧ ∀ p, w = .dyay p → p < o := by
      intro v w hvw
      obtain ⟨o, rfl, hscalar | ⟨q, rfl, hlt, -⟩⟩ := element_of_arrays harrays hvw
      · exact ⟨o, rfl, fun p hp => (hp ▸ hscalar : (Variable.dyay p).IsScalarKey).elim⟩
      · exact ⟨o, rfl, fun p hp => Variable.dyay.inj hp ▸ hlt⟩
    -- along a path the addresses go down
    have hpaths : ∀ v w, Relation.TransGen (Element heap) v w →
        ∃ o, v = .dyay o ∧ ∀ p, w = .dyay p → p < o := by
      intro v w hpath
      induction hpath with
      | single hvw => exact hlower _ _ hvw
      | tail _ huw ih =>
          obtain ⟨o, rfl, hbelow⟩ := ih
          obtain ⟨q, rfl, hlt⟩ := hlower _ _ huw
          exact ⟨o, rfl, fun p hp => (hlt p hp).trans (hbelow q rfl)⟩
    rintro ⟨v, hcycle⟩
    obtain ⟨o, rfl, hbelow⟩ := hpaths v v hcycle
    exact lt_irrefl o (hbelow o rfl)

end

/-- `x = [7]`, `y = [x, x]` and `z = [y, 8, x]`. -/
private def shared : Heap :=
  (((Heap.empty.alloc (.dyay [.int 7])).1.alloc (.dyay [.dyay 0, .dyay 0])).1.alloc
    (.dyay [.dyay 1, .int 8, .dyay 0])).1

theorem values_return_shared : Returns shared (.dyay 1) (.dyay 2) := by
  have hthere : shared.obj 0 ≠ none ∧ shared.obj 1 ≠ none := ⟨nofun, nofun⟩
  obtain ⟨hgraph, hcycle⟩ := arrays_of_earlier shared fun o obj hobj => by
    match o with
    | 0 =>
        cases hobj
        exact ⟨_, rfl, by simp [Variable.IsScalarKey]⟩
    | 1 =>
        cases hobj
        exact ⟨_, rfl, by simp [Variable.IsScalarKey, hthere]⟩
    | 2 =>
        cases hobj
        exact ⟨_, rfl, by simp [Variable.IsScalarKey, hthere]⟩
    | n + 3 => cases hobj
  exact (values_return_iff hgraph).2 hcycle _ _ ⟨_, rfl⟩ ⟨_, rfl⟩

/-- `x[0] = x` and `y[0] = y`. -/
def selfArrays : Heap := ((Heap.empty.alloc (.dyay [.dyay 0])).1.alloc (.dyay [.dyay 1])).1

theorem selfArrays_graph : DataGraph selfArrays := by
  apply DataGraph.of_arrays
  intro o obj hobj
  match o with
  | 0 =>
      cases hobj
      refine ⟨_, rfl, fun w hw => ?_⟩
      rw [List.mem_singleton.1 hw]
      exact ⟨[.dyay 0], rfl⟩
  | 1 =>
      cases hobj
      refine ⟨_, rfl, fun w hw => ?_⟩
      rw [List.mem_singleton.1 hw]
      exact ⟨[.dyay 1], rfl⟩
  | n + 2 => cases hobj

theorem selfArrays_nesting (depth : Nat) :
    (valueOps selfArrays depth).hash (.dyay 0) = .error .nesting ∧
      (valueOps selfArrays depth).equals (.dyay 0) (.dyay 1) = .error .nesting ∧
        (valueOps selfArrays depth).compare (.dyay 0) (.dyay 1) = .error .nesting := by
  have harrays : selfArrays.dyay 0 = .ok [.dyay 0] ∧ selfArrays.dyay 1 = .ok [.dyay 1] := ⟨rfl, rfl⟩
  induction depth with
  | zero => exact ⟨rfl, rfl, rfl⟩
  | succ depth ih =>
      obtain ⟨hhash, hequals, hcompare⟩ := ih
      refine ⟨?_, ?_, ?_⟩
      · simp only [valueOps, hashWith, harrays.1, bind, Except.bind, hashDyay]
        simp [hashElems, hhash, bind, Except.bind]
      · simp [valueOps, equalsWith, harrays.1, harrays.2, bind, Except.bind, dyayEquals, equalElems,
          hequals, Variable.type]
      · simp [valueOps, compareWith, harrays.1, harrays.2, bind, Except.bind, dyayCompare, hcompare,
          Variable.type]

/-- Two arrays, each its own only element: none of the three functions ends. -/
theorem selfArrays_never_return : ∃ heap, DataGraph heap ∧ ∃ v w,
    IsDatum heap v ∧ IsDatum heap w ∧ ∀ depth, (∀ h, (valueOps heap depth).hash v ≠ .ok h) ∧
      (∀ b, (valueOps heap depth).equals v w ≠ .ok b) ∧
        ∀ c, (valueOps heap depth).compare v w ≠ .ok c := by
  refine ⟨selfArrays, selfArrays_graph, .dyay 0, .dyay 1, ⟨_, rfl⟩, ⟨_, rfl⟩, fun depth => ?_⟩
  obtain ⟨hhash, hequals, hcompare⟩ := selfArrays_nesting depth
  rw [hhash, hequals, hcompare]
  exact ⟨nofun, nofun, nofun⟩

end Ymd
