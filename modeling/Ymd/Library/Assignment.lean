import Ymd.Library.NoNil
import Ymd.Table.FiniteMap
import Ymd.Table.Puts

/-! # Index assignment

`c[k] = v` and `c.name = v` come to `vm_iput`, which makes the entry of the key
before it looks at the value, and which does not check an index of an array. What
an assignment leaves of the container, in every outcome.
-/

namespace Ymd

open Foundation

/-! ## Contents -/

/-- The entries of a container. -/
def Obj.Holds : Obj → Variable → Variable → Prop
  | .dyay elem => fun k v => ∃ i : YmdInt, k = .int i ∧ i.slt 0 = false ∧ elem[i.toNat]? = some v
  | .hmap map => Hmap.Holds map.item
  | .skls list => fun k v => ∃ pairs, list.traverse = .ok pairs ∧ (k, v) ∈ pairs
  | _ => fun _ _ => False

namespace Heap

/-- The object with the entries of a container: managed data has those of its
metatable. -/
def table (heap : Heap) : Variable → Option Addr
  | .dyay o => some o
  | var => assignTarget heap var

/-- The container has the value under the key. -/
def Holds (heap : Heap) (var k v : Variable) : Prop :=
  ∃ o obj, heap.table var = some o ∧ heap.obj o = some obj ∧ obj.Holds k v

variable {heap : Heap} {o : Addr} {obj obj' : Obj}

theorem set_set (heap : Heap) (o : Addr) (obj obj' : Obj) :
    (heap.set o obj).set o obj' = heap.set o obj' := by
  have hobj : ((heap.set o obj).set o obj').obj = (heap.set o obj').obj := by
    funext a
    by_cases ha : a = o ∧ o < heap.next
    · exact (if_pos ha).trans (if_pos ha).symm
    · exact ((if_neg ha).trans (if_neg ha)).trans (if_neg ha).symm
  simp only [set] at hobj ⊢
  simp only [hobj]

theorem set_self (hobj : heap.obj o = some obj) : heap.set o obj = heap := by
  have hsame : (heap.set o obj).obj = heap.obj := by
    funext a
    by_cases ha : a = o ∧ o < heap.next
    · exact (if_pos ha).trans (ha.1 ▸ hobj.symm)
    · exact if_neg ha
  cases heap
  simp only [set] at hsame ⊢
  simp only [hsame]

/-- A table that stays a table changes no metatable. -/
theorem table_set {var : Variable} (hobj : heap.obj o = some obj) (hmand : ∀ m, obj ≠ .mand m)
    (hmand' : ∀ m, obj' ≠ .mand m) : (heap.set o obj').table var = heap.table var := by
  have hnot : ∀ {heap : Heap} {obj : Obj}, heap.obj o = some obj → (∀ m, obj ≠ .mand m) →
      heap.mand o = .error badCast := by
    intro heap obj hobj hmand
    unfold mand
    rw [hobj]
    cases obj with
    | mand m => exact absurd rfl (hmand m)
    | func fn => rfl
    | dyay elem => rfl
    | hmap map => rfl
    | skls list => rfl
  cases var with
  | mand a =>
      have hsame : (heap.set o obj').mand a = heap.mand a := by
        by_cases hao : a = o
        · rw [hao, hnot hobj hmand, hnot (obj_set_self hobj) hmand']
        · unfold mand
          rw [obj_set_of_ne hao]
      simp only [table, assignTarget, hsame]
  | nil => rfl
  | int i => rfl
  | bool i => rfl
  | ext p => rfl
  | kstr z => rfl
  | func a => rfl
  | dyay a => rfl
  | hmap a => rfl
  | skls a => rfl

theorem holds_iff {var k v : Variable} (htable : heap.table var = some o)
    (hobj : heap.obj o = some obj) : heap.Holds var k v ↔ obj.Holds k v := by
  constructor
  · rintro ⟨o', obj', ho', hobj', hholds⟩
    cases htable.symm.trans ho'
    cases hobj.symm.trans hobj'
    exact hholds
  · exact fun hholds => ⟨o, obj, htable, hobj, hholds⟩

end Heap

/-! ## Whole assignments -/

section

variable (env : Env) (l : Ctx) (var key v : Variable)

/-- The key is the other one, or equal to it. -/
def SameKey (k key : Variable) : Prop :=
  k = key ∨ (valueOps l.heap env.depth).equals k key = .ok true

/-- The value is stored under the key, nothing else has changed, and every entry is read
back under its key. -/
structure Stores (l' : Ctx) : Prop where
  holds : ∀ k w, l'.heap.Holds var k w ↔
    (k = key ∧ w = v) ∨ (l.heap.Holds var k w ∧ ¬ SameKey env l k key)
  reads : ∀ k w, l'.heap.Holds var k w → vmGet env var k l' = .ok w l'

def Unchanged (l' : Ctx) : Prop := ∀ k w, l'.heap.Holds var k w ↔ l.heap.Holds var k w

def Panics {α : Type} (result : EStateM.Result Stop Ctx α) : Prop :=
  ∃ msg l', result = .error (.panic msg) l'

def InRange (elem : List Variable) (i : YmdInt) : Prop := i.slt 0 = false ∧ i.toInt < elem.length

/-- An assignment stores or panics, never half, and it panics for an index out of
range where reading does. -/
def Whole (result : EStateM.Result Stop Ctx Unit) : Prop :=
  (match result with
    | .ok _ l' => Stores env l var key v l'
    | .error (.panic _) l' => Unchanged l var l'
    | .error (.fault _) _ => False) ∧
  ∀ o elem i, var = .dyay o → l.heap.obj o = some (.dyay elem) → key = .int i → ¬ InRange elem i →
    (Panics result ↔ Panics (vmGet env var key l))

/-- `hash` returns for the key: it asserts on functions. -/
def Hashes : Prop := ∃ h, (valueOps l.heap env.depth).hash key = .ok h

/-- The map at `o` can take the key, and the value or the key is not refused. -/
def Accepts (o : Addr) : Prop :=
  (∀ map, l.heap.obj o = some (.hmap map) → Hashes env l key) ∧
    (v ≠ .nil ∨ ∃ w, l.heap.Holds var key w)

/-- When an assignment is whole. -/
def MayAssign : Prop :=
  key = .nil ∨ match var with
    | .dyay o => ∀ elem i, l.heap.obj o = some (.dyay elem) → key = .int i → InRange elem i
    | .hmap o => Accepts env l var key v o
    | .skls o => Accepts env l var key v o
    | .mand o => ∀ m p, l.heap.mand o = .ok m → m.proto = some p → Accepts env l var key v p
    | _ => True

/-! ## Containers and keys -/

/-- The hash map at `o` as the operations leave it, with keys that are told apart,
also from the key of the assignment, whatever the map itself holds. -/
def HmapReady (o : Addr) : Prop :=
  ∃ map, l.heap.obj o = some (.hmap map) ∧ (Hashes env l key → ∃ hashOf twin,
    ∀ obj, map.Admits (valueOps (l.heap.set o obj) env.depth) hashOf key twin)

/-- The same of the skip list at `o`, with the level that `randlv` returns. -/
def SklsReady (o : Addr) : Prop :=
  ∃ (list : Skls) (rank : Variable → Nat) (log : List (Variable × Variable)) (cells : List Nat),
    l.heap.obj o = some (.skls list) ∧ (1 ≤ l.levels 0 ∧ l.levels 0 ≤ Skls.maxLevel) ∧
    list.Represents (fun k => (∃ c ∈ cells, (list.node c).k = k) ∨ k = key) rank log cells ∧
    ∀ obj, OrderedKeys (valueOps (l.heap.set o obj) env.depth)
      (fun k => (∃ c ∈ cells, (list.node c).k = k) ∨ k = key) rank

/-- What stands in front of `[key]` or `.key` refers to its object, whose keys are told
apart. -/
def Ready : Prop :=
  key = .nil ∨ match var with
  | .dyay o => ∃ elem, l.heap.obj o = some (.dyay elem)
  | .hmap o => HmapReady env l key o
  | .skls o => SklsReady env l key o
  | .mand o => ∃ m, l.heap.mand o = .ok m ∧
      ∀ p, m.proto = some p → HmapReady env l key p ∨ SklsReady env l key p
  | _ => True

end

/-! ## Assignments to a map -/

section

variable {env : Env} {l : Ctx} {var key v : Variable} {o : Addr}

/-- What `vm_iput` comes to on a map: `IsMap` is the type of its object, and `read`
what reads a key. -/
structure MapIput (env : Env) (l : Ctx) (key v : Variable) (o : Addr) (obj : Obj)
    (IsMap : Obj → Prop) (read : Variable → VmM Variable) (result : EStateM.Result Stop Ctx Unit) :
    Prop where
  stored : v ≠ .nil → ∃ l' obj', result = .ok () l' ∧ l'.stk = l.stk ∧
    l'.heap = l.heap.set o obj' ∧ IsMap obj' ∧
    (∀ k w, obj'.Holds k w ↔ (k = key ∧ w = v) ∨ (obj.Holds k w ∧ ¬ SameKey env l k key)) ∧
    ∀ k w, obj'.Holds k w → k ≠ .nil ∧ ∀ l'', l''.heap = l'.heap → read k l'' = .ok w l''
  refused : v = .nil → ∃ msg l' obj', result = .error (.panic msg) l' ∧
    l'.heap = l.heap.set o obj' ∧ IsMap obj' ∧ (∃ w, obj'.Holds key w) ∧
    ((∃ w, obj.Holds key w) → obj' = obj)

def Obj.IsHmap (obj : Obj) : Prop := ∃ map, obj = .hmap map

def Obj.IsSkls (obj : Obj) : Prop := ∃ list, obj = .skls list

theorem checkValue_ne_nil (hv : v ≠ .nil) : checkValue v l = .ok () l := by
  cases v <;> first
    | exact absurd rfl hv
    | rfl

theorem checkValue_nil (l : Ctx) : ∃ msg, checkValue .nil l = .error (.panic msg) l := ⟨_, rfl⟩

/-- `hmap_put` begins with the hash of the key. -/
theorem hmapIput_unhashed {map : Hmap} (hobj : l.heap.obj o = some (.hmap map))
    (hkey : key ≠ .nil) (hhash : ¬ Hashes env l key) :
    ∃ f, hmapIput env o key v l = .error (.fault f) l := by
  obtain ⟨f, hf⟩ : ∃ f, (valueOps l.heap env.depth).hash key = .error f := by
    cases hrun : (valueOps l.heap env.depth).hash key with
    | ok h => exact absurd ⟨h, hrun⟩ hhash
    | error f => exact ⟨f, rfl⟩
  have hnil : key.isNil = false := by
    cases key <;> first
      | exact absurd rfl hkey
      | rfl
  have hput : map.put (valueOps l.heap env.depth) env.depth key = .error f := by
    rw [Hmap.put, Hmap.putWith, Hmap.indexWith, hnil, hf]
    rfl
  refine ⟨f, ?_⟩
  have hrun : hmapPut env o key l = .error (.fault f) l := by
    rw [hmapPut, bind_of_ok (get_apply l), bind_of_ok (check_of_ok (Heap.hmap_eq_ok.2 hobj)),
      bind_of_ok (keyOps_apply env), bind_of_error (check_of_error hput)]
  rw [hmapIput, bind_of_error hrun]

theorem hmapIput_spec (hready : HmapReady env l key o) (hhash : Hashes env l key) (v : Variable) :
    ∃ obj, l.heap.obj o = some obj ∧ obj.IsHmap ∧
      MapIput env l key v o obj Obj.IsHmap (hmapGet env o) (hmapIput env o key v l) := by
  obtain ⟨map, hobj, hready⟩ := hready
  obtain ⟨hashOf, twin, hall⟩ := hready hhash
  have hadmits := hall (.hmap map)
  rw [Heap.set_self hobj] at hadmits
  obtain ⟨d, hdepth⟩ : ∃ d, env.depth = d + 1 := by
    cases hd : env.depth with
    | zero =>
        have hself := hadmits.self
        rw [hd] at hself
        cases hself
    | succ d => exact ⟨d, rfl⟩
  -- the slot that `hmap_put` makes for the key
  obtain ⟨e, hput, hputAt⟩ := hadmits.put_spec d
  rw [← hdepth] at hput
  have hrun : hmapPut env o key l = .ok e { l with heap := l.heap.set o (.hmap e.map) } := by
    rw [hmapPut, bind_of_ok (get_apply l), bind_of_ok (check_of_ok (Heap.hmap_eq_ok.2 hobj)),
      bind_of_ok (keyOps_apply env), bind_of_ok (check_of_ok hput)]
    rfl
  refine ⟨.hmap map, hobj, ⟨map, rfl⟩, fun hv => ?_, fun hv => ?_⟩
  · refine ⟨{ l with heap := l.heap.set o (.hmap (e.store v)) }, .hmap (e.store v), ?_, rfl, rfl,
      ⟨_, rfl⟩, fun k w => ?_, fun k w hold => ⟨?_, fun l'' hheap => ?_⟩⟩
    · rw [hmapIput, bind_of_ok hrun, bind_of_ok (checkValue_ne_nil hv), storeObj_apply]
      simp only [Heap.set_set]
    · change Hmap.Holds (e.store v).item k w ↔ _ ∨ Hmap.Holds map.item k w ∧ _
      rw [hputAt.holds_store]
      by_cases hk : k = key
      · simp [hk, SameKey]
      · rw [if_neg hk]
        constructor
        · rintro ⟨hne, hold⟩
          have hother := hadmits.found (Hmap.hasKey_iff.2 ⟨w, hold⟩)
          rw [decide_eq_false hne] at hother
          refine .inr ⟨hold, ?_⟩
          rintro (hsame | hsame)
          · exact hk hsame
          · cases hother.symm.trans hsame
        · rintro (⟨hsame, -⟩ | ⟨hold, hother⟩)
          · exact absurd hsame hk
          · refine ⟨fun htwin => hother (.inr ?_), hold⟩
            rw [hadmits.found (Hmap.hasKey_iff.2 ⟨w, hold⟩), decide_eq_true htwin]
            rfl
    · exact ne_nil_of_isNil (Bool.eq_false_iff.1
        ((hadmits.lawful_store hputAt v).notNil (Hmap.hasKey_iff.2 ⟨w, hold⟩)))
    · have hobj'' : l''.heap.hmap o = .ok (e.store v) := by
        rw [hheap]
        exact Heap.hmap_eq_ok.2 (Heap.obj_set_self hobj)
      have hget : (e.store v).get (valueOps l''.heap env.depth) k = .ok w := by
        rw [hheap]
        exact (hall (.hmap (e.store v))).get_store hputAt hold
      rw [hmapGet, bind_of_ok (get_apply l''), bind_of_ok (check_of_ok hobj''),
        bind_of_ok (keyOps_apply env), check_of_ok hget]
  · obtain ⟨msg, hcheck⟩ := checkValue_nil { l with heap := l.heap.set o (.hmap e.map) }
    refine ⟨msg, { l with heap := l.heap.set o (.hmap e.map) }, .hmap e.map, ?_, rfl, ⟨_, rfl⟩, ?_,
      fun hpresent => ?_⟩
    · rw [hmapIput, bind_of_ok hrun, hv, bind_of_error hcheck]
    · refine ⟨e.value, ?_⟩
      change Hmap.Holds e.map.item key e.value
      rw [hputAt.holds, if_pos rfl]
    · rw [hputAt.present (Hmap.hasKey_iff.2 hpresent)]

/-- Lawful keys are told apart. -/
theorem hmapReady_of_lawful {IsKey : Variable → Prop} {hashOf : Variable → BitVec 64} {map : Hmap}
    (hobj : l.heap.obj o = some (.hmap map)) (hwf : Hmap.Wf IsKey hashOf map)
    (hlaw : ∀ heap, Hmap.LawfulKeys (valueOps heap env.depth) IsKey hashOf) (hkey : IsKey key) :
    HmapReady env l key o := by
  have hkeys : ∀ {k}, map.HasKey k ∨ k = key → IsKey k := by
    rintro k (⟨i, hi, rfl⟩ | rfl)
    · exact hwf.linked.key i hi
    · exact hkey
  refine ⟨map, hobj, fun _ => ⟨hashOf, key, fun obj => ?_⟩⟩
  have hlaw := hlaw (l.heap.set o obj)
  exact {
    wf := hwf.restrict fun _ h => h
    notNil := fun h => hlaw.notNil (hkeys h)
    hash := fun h => hlaw.hash (hkeys h)
    equals := fun ha hb => hlaw.equals (hkeys (.inl ha)) (hkeys (.inl hb))
    found := fun ha => hlaw.equals (hkeys (.inl ha)) hkey
    meets := fun ha => (hlaw.equals hkey (hkeys (.inl ha))).trans (by simp only [eq_comm])
    self := (hlaw.equals hkey hkey).trans (by rw [decide_eq_true rfl])
    twin_cases := .inl rfl
    hash_twin := rfl }

theorem holds_skls {list : Skls} {pairs : List (Variable × Variable)}
    (hpairs : list.traverse = .ok pairs) {k w : Variable} :
    (Obj.skls list).Holds k w ↔ (k, w) ∈ pairs := by
  constructor
  · rintro ⟨pairs', hpairs', hmem⟩
    cases hpairs.symm.trans hpairs'
    exact hmem
  · exact fun hmem => ⟨pairs, hpairs, hmem⟩

theorem sklsIput_spec (hready : SklsReady env l key o) (v : Variable) :
    ∃ obj, l.heap.obj o = some obj ∧ obj.IsSkls ∧
      MapIput env l key v o obj Obj.IsSkls (sklsGet env o) (sklsIput env o key v l) := by
  obtain ⟨list, rank, log, cells, hobj, ⟨hpos, hlvl⟩, hrep, hall⟩ := hready
  have hlaw := hall (.skls list)
  rw [Heap.set_self hobj] at hlaw
  obtain ⟨e, hput, hputAt⟩ := hrep.put_spec hlaw (.inr rfl) hpos hlvl
  have hrun : sklsPut env o key l = .ok e { l with
      heap := l.heap.set o (.skls e.list)
      levels := fun i => l.levels (i + 1) } := by
    rw [sklsPut, bind_of_ok (get_apply l), bind_of_ok (check_of_ok (Heap.skls_eq_ok.2 hobj)),
      bind_of_ok (keyOps_apply env), bind_of_ok (randlv_apply l), bind_of_ok (check_of_ok hput)]
    rfl
  have hbefore : ∀ k w, (Obj.skls list).Holds k w ↔ (k, w) ∈ cells.map list.entry :=
    fun k w => holds_skls hrep.traverse_eq
  -- the entries behind a store are those in front of it but for the key
  have hentries : ∀ {list' : Skls} {cells' : List Nat} {v : Variable},
      list'.Represents (fun k => (∃ c ∈ cells, (list.node c).k = k) ∨ k = key) rank
        (log ++ [(key, v)]) cells' →
      ∀ k w, (Obj.skls list').Holds k w ↔
        if rank k = rank key then k = key ∧ w = v else (Obj.skls list).Holds k w := by
    intro list' cells' v hrep' k w
    rw [hbefore, ← hrep.mem_stored hrep']
    exact holds_skls hrep'.traverse_eq
  have hkeys : ∀ {k w}, (Obj.skls list).Holds k w → ∃ c ∈ cells, (list.node c).k = k := by
    intro k w hold
    obtain ⟨c, hc, hentry⟩ := List.mem_map.1 ((hbefore k w).1 hold)
    exact ⟨c, hc, congrArg Prod.fst hentry⟩
  refine ⟨.skls list, hobj, ⟨list, rfl⟩, fun hv => ?_, fun hv => ?_⟩
  · obtain ⟨cells', hrep'⟩ := hputAt.stored v
    refine ⟨{ l with
      heap := l.heap.set o (.skls (Skls.store e v))
      levels := fun i => l.levels (i + 1) }, .skls (Skls.store e v), ?_, rfl, rfl, ⟨_, rfl⟩,
      fun k w => ?_, fun k w hold => ?_⟩
    · rw [sklsIput, bind_of_ok hrun, bind_of_ok (checkValue_ne_nil hv), storeObj_apply]
      simp only [Heap.set_set]
    · rw [hentries hrep']
      by_cases hrank : rank k = rank key
      · rw [if_pos hrank]
        constructor
        · exact .inl
        · rintro (hnew | ⟨hold, hother⟩)
          · exact hnew
          · refine absurd (.inr ?_) hother
            rw [hlaw.equals (.inl (hkeys hold)) (.inr rfl), decide_eq_true hrank]
            rfl
      · rw [if_neg hrank]
        constructor
        · intro hold
          refine .inr ⟨hold, ?_⟩
          rintro (rfl | hsame)
          · exact hrank rfl
          · rw [hlaw.equals (.inl (hkeys hold)) (.inr rfl), decide_eq_false hrank] at hsame
            cases hsame
        · rintro (⟨rfl, -⟩ | ⟨hold, -⟩)
          · exact absurd rfl hrank
          · exact hold
    · have hin := (holds_skls hrep'.traverse_eq).1 hold
      obtain ⟨c, hc, hentry⟩ := List.mem_map.1 hin
      obtain rfl : ((Skls.store e v).node c).k = k := congrArg Prod.fst hentry
      have hnil := hlaw.notNil (hrep'.keys c hc)
      refine ⟨ne_nil_of_isNil (Bool.eq_false_iff.1 hnil), fun l'' hheap => ?_⟩
      have hobj'' : l''.heap.skls o = .ok (Skls.store e v) := by
        rw [hheap]
        exact Heap.skls_eq_ok.2 (Heap.obj_set_self hobj)
      have hget : (Skls.store e v).get (valueOps l''.heap env.depth)
          ((Skls.store e v).node c).k = .ok w := by
        rw [hheap]
        exact hrep'.get_mem (hall _) hin
      rw [sklsGet, bind_of_ok (get_apply l''), bind_of_ok (check_of_ok hobj''),
        bind_of_ok (keyOps_apply env), check_of_ok hget]
  · obtain ⟨cells', hrep'⟩ := hputAt.stored (e.list.node e.node).v
    rw [Skls.store_value] at hrep'
    obtain ⟨msg, hcheck⟩ := checkValue_nil { l with
      heap := l.heap.set o (.skls e.list)
      levels := fun i => l.levels (i + 1) }
    refine ⟨msg, { l with
      heap := l.heap.set o (.skls e.list)
      levels := fun i => l.levels (i + 1) }, .skls e.list, ?_, rfl, ⟨_, rfl⟩,
      ⟨(e.list.node e.node).v, ?_⟩, fun hpresent => ?_⟩
    · rw [sklsIput, bind_of_ok hrun, hv, bind_of_error hcheck]
    · rw [hentries hrep', if_pos rfl]
      exact ⟨rfl, rfl⟩
    · obtain ⟨w, hold⟩ := hpresent
      obtain ⟨c, hc, hck⟩ := hkeys hold
      rw [hputAt.present c hc hck]

/-! ## The instruction -/

/-- What `I_SETF` finds for `c[k] = v` and for `c.name = v`. -/
def Operands (l : Ctx) (core : Chunk) (flag : BitVec 8) (param : Nat) (var key v : Variable) :
    Prop :=
  (flag = Flag.stack ∧ param = 1 ∧ ∃ S, l.stk = v :: key :: var :: S) ∨
  (flag = Flag.fast ∧ core.kval[param]? = some key ∧ ∃ S, l.stk = v :: var :: S)

variable {core : Chunk} {flag : BitVec 8} {param : Nat} {l' : Ctx}

/-- `I_SETF` is `vm_iput` and a pop. -/
theorem instSetf_eq (env : Env) (hops : Operands l core flag param var key v) :
    ∃ n, n ≤ l.stk.length ∧ instSetf env core flag param l =
      (do vmIput env var key v; ymdPop n) l := by
  rcases hops with ⟨rfl, rfl, S, hstk⟩ | ⟨rfl, hkey, S, hstk⟩
  · refine ⟨3, by simp [hstk], ?_⟩
    have hvar : ymdTop 2 l = .ok var l := ymdTop_of_getElem? (by simp [hstk])
    have hkey : ymdTop 1 l = .ok key l := ymdTop_of_getElem? (by simp [hstk])
    have hv : ymdTop 0 l = .ok v l := ymdTop_of_getElem? (by simp [hstk])
    have hpairs : setPairs env var 1 1 l = vmIput env var key v l := by
      change (do let k ← ymdTop 1; let w ← ymdTop 0; vmIput env var k w; pure ()) l = _
      rw [bind_of_ok hkey, bind_of_ok hv, bind_pure]
    rw [instSetf, if_pos rfl, bind_of_ok hvar]
    cases hrun : vmIput env var key v l with
    | ok _ l' => rw [bind_of_ok (hpairs.trans hrun), bind_of_ok hrun]
    | error stop l' => rw [bind_of_error (hpairs.trans hrun), bind_of_error hrun]
  · refine ⟨2, by simp [hstk], ?_⟩
    have hvar : ymdTop 1 l = .ok var l := ymdTop_of_getElem? (by simp [hstk])
    have hv : ymdTop 0 l = .ok v l := ymdTop_of_getElem? (by simp [hstk])
    have hkval : kvalAt core param l = .ok key l := by
      rw [kvalAt, hkey]
      rfl
    rw [instSetf, if_neg (by decide), if_pos rfl, bind_of_ok hvar, bind_of_ok hkval, bind_of_ok hv]

theorem instSetf_ok (hops : Operands l core flag param var key v)
    (hrun : vmIput env var key v l = .ok () l') (hstk : l'.stk = l.stk) :
    ∃ l'', instSetf env core flag param l = .ok () l'' ∧ l''.heap = l'.heap := by
  obtain ⟨n, hn, heq⟩ := instSetf_eq env hops
  rw [heq, bind_of_ok hrun, ymdPop_of_le (hstk ▸ hn)]
  exact ⟨_, rfl, rfl⟩

theorem instSetf_error {stop : Stop} (hops : Operands l core flag param var key v)
    (hrun : vmIput env var key v l = .error stop l') :
    instSetf env core flag param l = .error stop l' := by
  obtain ⟨n, -, heq⟩ := instSetf_eq env hops
  rw [heq, bind_of_error hrun]

theorem vmIput_of_ne (hkey : key ≠ .nil) : vmIput env var key v = vmIputOn env var key v := by
  cases key <;> first
    | exact absurd rfl hkey
    | rfl

theorem vmGet_of_ne (hkey : key ≠ .nil) : vmGet env var key = vmGetOn env var key := by
  cases key <;> first
    | exact absurd rfl hkey
    | rfl

/-- On a map an assignment is whole unless a `nil` is refused behind a new entry. -/
theorem whole_of_map {obj : Obj} (IsMap : Obj → Prop) (read : Variable → VmM Variable)
    (htable : l.heap.table var = some o) (hobj : l.heap.obj o = some obj)
    (hmand : ∀ {obj}, IsMap obj → ∀ m, obj ≠ .mand m) (hmap : IsMap obj)
    (hdyay : ∀ a, var ≠ .dyay a)
    (hread : ∀ l' obj' k, k ≠ .nil → l'.heap.obj o = some obj' → IsMap obj' →
      l'.heap.table var = some o → vmGet env var k l' = read k l')
    (hiput : MapIput env l key v o obj IsMap read (vmIput env var key v l))
    (hops : Operands l core flag param var key v) :
    Whole env l var key v (instSetf env core flag param l) ↔
      v ≠ .nil ∨ ∃ w, l.heap.Holds var key w := by
  have hbefore : ∀ k w, l.heap.Holds var k w ↔ obj.Holds k w :=
    fun _ _ => Heap.holds_iff htable hobj
  have hafter : ∀ {obj'}, IsMap obj' → ∀ k w, (l.heap.set o obj').Holds var k w ↔ obj'.Holds k w :=
    fun hmap' _ _ => Heap.holds_iff ((Heap.table_set hobj (hmand hmap) (hmand hmap')).trans htable)
      (Heap.obj_set_self hobj)
  have hbounds : ∀ (result : EStateM.Result Stop Ctx Unit) o elem i, var = .dyay o →
      l.heap.obj o = some (.dyay elem) → key = .int i → ¬ InRange elem i →
        (Panics result ↔ Panics (vmGet env var key l)) :=
    fun _ a _ _ hvar => absurd hvar (hdyay a)
  by_cases hv : v = .nil
  · obtain ⟨msg, l', obj', hrun, hheap, hmap', ⟨w, hw⟩, hpresent⟩ := hiput.refused hv
    rw [instSetf_error hops hrun]
    constructor
    · rintro ⟨hunchanged, -⟩
      have hold := (hunchanged key w).1 (by rw [hheap]; exact (hafter hmap' key w).2 hw)
      exact .inr ⟨w, hold⟩
    · rintro (hne | ⟨w', hold⟩)
      · exact absurd hv hne
      · refine ⟨fun k w => ?_, hbounds _⟩
        rw [hheap, hpresent ⟨w', (hbefore key w').1 hold⟩, Heap.set_self hobj]
  · obtain ⟨l', obj', hrun, hstk, hheap, hmap', hholds, hreads⟩ := hiput.stored hv
    obtain ⟨l'', hsetf, hheap''⟩ := instSetf_ok hops hrun hstk
    rw [hsetf]
    have hset := hheap''.trans hheap
    refine ⟨fun _ => .inl hv, fun _ => ⟨⟨fun k w => ?_, fun k w hold => ?_⟩, hbounds _⟩⟩
    · rw [hset, hafter hmap', hholds, hbefore]
    · rw [hset, hafter hmap'] at hold
      obtain ⟨hk, hback⟩ := hreads k w hold
      rw [hread l'' obj' k hk (by rw [hset]; exact Heap.obj_set_self hobj) hmap' (by
        rw [hset, Heap.table_set hobj (hmand hmap) (hmand hmap'), htable])]
      exact hback l'' hheap''

/-- On a hash map, reached under any container. -/
theorem whole_of_hmap (hready : HmapReady env l key o) (htable : l.heap.table var = some o)
    (hkey : key ≠ .nil) (hdyay : ∀ a, var ≠ .dyay a)
    (hiput : vmIput env var key v l = hmapIput env o key v l)
    (hread : ∀ l' map k, k ≠ .nil → l'.heap.obj o = some (.hmap map) →
      l'.heap.table var = some o → vmGet env var k l' = hmapGet env o k l')
    (hops : Operands l core flag param var key v) :
    Whole env l var key v (instSetf env core flag param l) ↔ Accepts env l var key v o := by
  by_cases hhash : Hashes env l key
  · obtain ⟨obj, hobj, hmap, hspec⟩ := hmapIput_spec hready hhash v
    rw [← hiput] at hspec
    refine (whole_of_map Obj.IsHmap (hmapGet env o) htable hobj ?_ hmap hdyay ?_ hspec
      hops).trans (and_iff_right fun _ _ => hhash).symm
    · rintro _ ⟨map, rfl⟩ m ⟨⟩
    · rintro l' _ k hk hobj' ⟨map, rfl⟩ htable'
      exact hread l' map k hk hobj' htable'
  · obtain ⟨map, hobj, -⟩ := hready
    obtain ⟨f, hrun⟩ := hmapIput_unhashed (v := v) hobj hkey hhash
    rw [instSetf_error hops (hiput.trans hrun)]
    exact ⟨fun hwhole => hwhole.1.elim, fun haccepts => absurd (haccepts.1 map hobj) hhash⟩

/-- On a skip list, reached under any container. -/
theorem whole_of_skls (hready : SklsReady env l key o) (htable : l.heap.table var = some o)
    (hdyay : ∀ a, var ≠ .dyay a) (hiput : vmIput env var key v l = sklsIput env o key v l)
    (hread : ∀ l' list k, k ≠ .nil → l'.heap.obj o = some (.skls list) →
      l'.heap.table var = some o → vmGet env var k l' = sklsGet env o k l')
    (hops : Operands l core flag param var key v) :
    Whole env l var key v (instSetf env core flag param l) ↔ Accepts env l var key v o := by
  obtain ⟨obj, hobj, ⟨list, rfl⟩, hspec⟩ := sklsIput_spec hready v
  rw [← hiput] at hspec
  refine (whole_of_map Obj.IsSkls (sklsGet env o) htable hobj ?_ ⟨list, rfl⟩ hdyay ?_ hspec
    hops).trans (and_iff_right fun map hmap => ?_).symm
  · rintro _ ⟨list, rfl⟩ m ⟨⟩
  · rintro l' _ k hk hobj' ⟨list', rfl⟩ htable'
    exact hread l' list' k hk hobj' htable'
  · cases hobj.symm.trans hmap

theorem InRange.toNat_lt {elem : List Variable} {i : YmdInt} (hrange : InRange elem i) :
    i.toNat < elem.length := by
  have hnat := toNat_of_nonneg (slt_zero_iff.1 hrange.1)
  have hlt := hrange.2
  omega

theorem not_inRange_iff {elem : List Variable} {i : YmdInt} :
    i.slt 0 = true ∨ (elem.length : Int) ≤ i.toInt ↔ ¬ InRange elem i := by
  rw [InRange, not_and_or, Bool.not_eq_false, not_lt]

theorem equals_int {heap : Heap} {depth : Nat} {i j : YmdInt} (hne : i ≠ j) :
    (valueOps heap depth).equals (.int i) (.int j) ≠ .ok true := by
  intro hsame
  cases depth with
  | zero => cases hsame
  | succ d =>
      have hequals : (valueOps heap (d + 1)).equals (.int i) (.int j) = .ok (decide _) :=
        equalsWith_scalar (valueOps heap d) heap (a := .int i) (b := .int j) trivial trivial
      have htrue := Except.ok.inj (hequals.symm.trans hsame)
      exact hne (Variable.int.inj (of_decide_eq_true htrue))

theorem holds_dyay {elem : List Variable} {i : YmdInt} (hrange : InRange elem i) {k w : Variable} :
    (Obj.dyay (elem.set i.toNat v)).Holds k w ↔
      (k = .int i ∧ w = v) ∨ ((Obj.dyay elem).Holds k w ∧ ¬ SameKey env l k (.int i)) := by
  have hlt := hrange.toNat_lt
  constructor
  · rintro ⟨j, rfl, hj, hget⟩
    by_cases hji : j = i
    · subst hji
      rw [List.getElem?_set_self hlt] at hget
      exact .inl ⟨rfl, (Option.some.inj hget).symm⟩
    · have hnat : i.toNat ≠ j.toNat := fun heq => hji (BitVec.eq_of_toNat_eq heq.symm)
      rw [List.getElem?_set_ne hnat] at hget
      refine .inr ⟨⟨j, rfl, hj, hget⟩, ?_⟩
      rintro (hsame | hsame)
      · exact hji (Variable.int.inj hsame)
      · exact equals_int hji hsame
  · rintro (⟨rfl, rfl⟩ | ⟨⟨j, rfl, hj, hget⟩, hother⟩)
    · exact ⟨i, rfl, hrange.1, List.getElem?_set_self hlt⟩
    · have hji : j ≠ i := fun hji => hother (.inl (congrArg _ hji))
      have hnat : i.toNat ≠ j.toNat := fun heq => hji (BitVec.eq_of_toNat_eq heq.symm)
      exact ⟨j, rfl, hj, (List.getElem?_set_ne hnat).trans hget⟩

theorem unchanged_whole {msg : Bytes} (hbounds : ∀ o elem i, var = .dyay o →
    l.heap.obj o = some (.dyay elem) → key = .int i → InRange elem i) :
    Whole env l var key v (.error (.panic msg) l) :=
  ⟨fun _ _ => Iff.rfl, fun o elem i hvar hobj hkey hnot =>
    absurd (hbounds o elem i hvar hobj hkey) hnot⟩

theorem vmGet_dyay {elem : List Variable} {k w : Variable} (hobj : l.heap.obj o = some (.dyay elem))
    (hold : (Obj.dyay elem).Holds k w) : vmGet env (.dyay o) k l = .ok w l := by
  obtain ⟨i, rfl, hi, hget⟩ := hold
  obtain ⟨hlt, hw⟩ := List.getElem?_eq_some_iff.1 hget
  have hnat := toNat_of_nonneg (slt_zero_iff.1 hi)
  have hin : ¬ (i.slt 0 = true ∨ (elem.length : Int) ≤ i.toInt) := by
    rintro (hneg | hge)
    · rw [hi] at hneg
      cases hneg
    · omega
  have hif : lift (intOf (.int i)) l = .ok i l := lift_of_ok rfl
  rw [vmGet_of_ne Variable.noConfusion, vmGetOn, bind_of_ok (get_apply l),
    bind_of_ok (check_of_ok (Heap.dyay_eq_ok.2 hobj)), bind_of_ok hif, if_neg hin,
    List.getD_eq_getElem?_getD, hget]
  rfl

/-- On an array an assignment is whole unless the index is out of range. -/
theorem whole_of_dyay {elem : List Variable} (hobj : l.heap.obj o = some (.dyay elem))
    (hkey : key ≠ .nil) (hops : Operands l core flag param (.dyay o) key v) :
    Whole env l (.dyay o) key v (instSetf env core flag param l) ↔
      ∀ elem i, l.heap.obj o = some (.dyay elem) → key = .int i → InRange elem i := by
  have hdyay : l.heap.dyay o = .ok elem := Heap.dyay_eq_ok.2 hobj
  have hrun : vmIput env (.dyay o) key v l = dyayIput o key v l := by
    rw [vmIput_of_ne hkey, vmIputOn]
  by_cases hint : ∃ i, key = .int i
  · obtain ⟨i, rfl⟩ := hint
    have hif : lift (intOf (.int i)) l = .ok i l := lift_of_ok rfl
    by_cases hrange : InRange elem i
    · refine ⟨fun _ elem' i' hobj' hkey' => ?_, fun hall => ?_⟩
      · cases hobj.symm.trans hobj'
        cases hkey'
        exact hrange
      have hnot : ¬ (i.slt 0 = true ∨ (elem.length : Int) ≤ i.toInt) :=
        fun hout => not_inRange_iff.1 hout hrange
      rw [dyayIput, bind_of_ok (get_apply l), bind_of_ok (check_of_ok hdyay), bind_of_ok hif,
        if_neg hnot] at hrun
      by_cases hv : v = .nil
      · obtain ⟨msg, hcheck⟩ := checkValue_nil l
        rw [hv, bind_of_error hcheck] at hrun
        rw [hv] at hops ⊢
        rw [instSetf_error hops hrun]
        refine unchanged_whole fun a elem i hvar hobj => ?_
        cases hvar
        exact hall elem i hobj
      · rw [bind_of_ok (checkValue_ne_nil hv), storeObj_apply] at hrun
        obtain ⟨l', hsetf, hheap⟩ := instSetf_ok hops hrun rfl
        rw [hsetf]
        have hobj' : l'.heap.obj o = some (.dyay (elem.set i.toNat v)) := by
          rw [hheap]
          exact Heap.obj_set_self hobj
        refine ⟨⟨fun k w => ?_, fun k w hold => ?_⟩, fun a elem i hvar hobj hkey hout => ?_⟩
        · rw [Heap.holds_iff rfl hobj', Heap.holds_iff rfl hobj]
          exact holds_dyay hrange
        · exact vmGet_dyay hobj' ((Heap.holds_iff rfl hobj').1 hold)
        · cases hvar
          exact absurd (hall elem i hobj hkey) hout
    · refine ⟨fun hwhole => ?_, fun hall => absurd (hall elem i hobj rfl) hrange⟩
      -- the assertion of `dyay_get` is the only check of the index
      rw [dyayIput, bind_of_ok (get_apply l), bind_of_ok (check_of_ok hdyay), bind_of_ok hif,
        if_pos (not_inRange_iff.2 hrange)] at hrun
      rw [instSetf_error hops hrun] at hwhole
      exact hwhole.1.elim
  · obtain ⟨msg, hif⟩ : ∃ msg, lift (intOf key) l = .error (.panic msg) l := by
      cases key <;> first
        | exact absurd ⟨_, rfl⟩ hint
        | exact ⟨_, rfl⟩
    rw [dyayIput, bind_of_ok (get_apply l), bind_of_ok (check_of_ok hdyay), bind_of_error hif]
      at hrun
    rw [instSetf_error hops hrun]
    exact ⟨fun _ elem' i _ hkey' => absurd ⟨i, hkey'⟩ hint,
      fun _ => unchanged_whole fun _ _ i _ _ hkey' => absurd ⟨i, hkey'⟩ hint⟩

theorem protoOf_of_table {a : Addr} {obj : Obj} (htable : l.heap.table (.mand a) = some o)
    (hobj : l.heap.obj o = some obj) : protoOf a l = .ok (o, obj) l := by
  simp only [Heap.table, assignTarget] at htable
  cases hmand : l.heap.mand a with
  | error f =>
      rw [hmand] at htable
      cases htable
  | ok m =>
      rw [hmand] at htable
      rw [protoOf, bind_of_ok (get_apply l), bind_of_ok (check_of_ok hmand)]
      simp only [htable, hobj]
      rfl

theorem protoOf_none {a : Addr} {m : Mand} (hmand : l.heap.mand a = .ok m)
    (hproto : m.proto = none) : ∃ msg, protoOf a l = .error (.panic msg) l := by
  rw [protoOf, bind_of_ok (get_apply l), bind_of_ok (check_of_ok hmand)]
  simp only [hproto]
  exact ⟨_, rfl⟩

/-- Managed data hands the assignment on to its metatable. -/
theorem whole_of_mand {a : Addr} {m : Mand} (hkey : key ≠ .nil) (hmand : l.heap.mand a = .ok m)
    (hproto : ∀ p, m.proto = some p → HmapReady env l key p ∨ SklsReady env l key p)
    (hops : Operands l core flag param (.mand a) key v) :
    Whole env l (.mand a) key v (instSetf env core flag param l) ↔
      ∀ m' p, l.heap.mand a = .ok m' → m'.proto = some p → Accepts env l (.mand a) key v p := by
  have hrun : vmIput env (.mand a) key v l = vmIputOn env (.mand a) key v l :=
    congrFun (vmIput_of_ne hkey) l
  have hthe : ∀ {m' p}, l.heap.mand a = .ok m' → m'.proto = some p → m.proto = some p := by
    intro m' p hmand' hp
    cases hmand.symm.trans hmand'
    exact hp
  -- without a metatable `mand_proto` panics
  cases hp : m.proto with
  | none =>
      obtain ⟨msg, hnone⟩ := protoOf_none hmand hp
      rw [vmIputOn, bind_of_error hnone] at hrun
      rw [instSetf_error hops hrun]
      refine ⟨fun _ m' p hmand' hp' => ?_,
        fun _ => unchanged_whole fun o elem i hvar _ _ => by cases hvar⟩
      cases hp.symm.trans (hthe hmand' hp')
  | some p =>
      have htable : l.heap.table (.mand a) = some p := by
        simp only [Heap.table, assignTarget, hmand, hp]
      have haccepts : (∀ m' p', l.heap.mand a = .ok m' → m'.proto = some p' →
          Accepts env l (.mand a) key v p') ↔ Accepts env l (.mand a) key v p := by
        refine ⟨fun hall => hall m p hmand hp, fun hp' m' p' hmand' hproto' => ?_⟩
        cases hp.symm.trans (hthe hmand' hproto')
        exact hp'
      refine Iff.trans ?_ haccepts.symm
      rcases hproto p hp with hready | hready
      · obtain ⟨map, hobj, -⟩ := id hready
        rw [vmIputOn, bind_of_ok (protoOf_of_table htable hobj)] at hrun
        refine whole_of_hmap hready htable hkey (by simp) hrun
          (fun l' map' k hk hobj' htable' => ?_) hops
        rw [vmGet_of_ne hk, vmGetOn, bind_of_ok (protoOf_of_table htable' hobj')]
      · obtain ⟨list, -, -, -, hobj, -⟩ := id hready
        rw [vmIputOn, bind_of_ok (protoOf_of_table htable hobj)] at hrun
        refine whole_of_skls hready htable (by simp) hrun
          (fun l' list' k hk hobj' htable' => ?_) hops
        rw [vmGet_of_ne hk, vmGetOn, bind_of_ok (protoOf_of_table htable' hobj')]

/-- Where the keys are told apart. -/
theorem whole_iff_of_ready (hops : Operands l core flag param var key v)
    (hready : Ready env l var key) :
    Whole env l var key v (instSetf env core flag param l) ↔ MayAssign env l var key v := by
  by_cases hkey : key = .nil
  · have hrun : ∃ msg, vmIput env var key v l = .error (.panic msg) l := by
      rw [hkey]
      exact ⟨_, rfl⟩
    obtain ⟨msg, hrun⟩ := hrun
    rw [instSetf_error hops hrun]
    refine ⟨fun _ => .inl hkey, fun _ => unchanged_whole fun o elem i _ _ hint => ?_⟩
    rw [hkey] at hint
    cases hint
  have hready := hready.resolve_left hkey
  refine Iff.trans ?_ (or_iff_right hkey).symm
  have hrefused : vmIput env var key v l = .error (.panic (lit "Variable can not be put")) l →
      (∀ o, var ≠ .dyay o) → Whole env l var key v (instSetf env core flag param l) := by
    intro hrun hdyay
    rw [instSetf_error hops hrun]
    exact unchanged_whole fun o elem i hvar _ _ => absurd hvar (hdyay o)
  have hrun : vmIput env var key v l = vmIputOn env var key v l := congrFun (vmIput_of_ne hkey) l
  cases var with
  | dyay o =>
      obtain ⟨elem, hobj⟩ := hready
      exact whole_of_dyay hobj hkey hops
  | hmap o =>
      exact whole_of_hmap hready rfl hkey (by simp) hrun
        (fun l' _ _ hk _ _ => congrFun (vmGet_of_ne hk) l') hops
  | skls o =>
      exact whole_of_skls hready rfl (by simp) hrun
        (fun l' _ _ hk _ _ => congrFun (vmGet_of_ne hk) l') hops
  | mand a =>
      obtain ⟨m, hmand, hproto⟩ := hready
      exact whole_of_mand hkey hmand hproto hops
  | nil => exact ⟨fun _ => trivial, fun _ => hrefused hrun (by simp)⟩
  | int i => exact ⟨fun _ => trivial, fun _ => hrefused hrun (by simp)⟩
  | bool i => exact ⟨fun _ => trivial, fun _ => hrefused hrun (by simp)⟩
  | ext p => exact ⟨fun _ => trivial, fun _ => hrefused hrun (by simp)⟩
  | kstr z => exact ⟨fun _ => trivial, fun _ => hrefused hrun (by simp)⟩
  | func a => exact ⟨fun _ => trivial, fun _ => hrefused hrun (by simp)⟩

end

/-! ### Assignments to literals -/

private def scalarEnv : Env := ⟨1, fun _ _ => .ok false⟩

/-- A literal and the operands of an assignment to it. -/
private def onto (obj : Obj) (var key v : Variable) : Ctx :=
  { Ctx.initial (fun _ => 1) with
    heap := (Heap.empty.alloc obj).1
    stk := [v, key, var] }

private theorem operands_onto (obj : Obj) (var key v : Variable) :
    Operands (onto obj var key v) .zero Flag.stack 1 var key v := .inl ⟨rfl, rfl, [], rfl⟩

private theorem ready_emptyMap (v : Variable) :
    HmapReady scalarEnv (onto (.hmap (.zalloc 5)) (.hmap 0) (.int 7) v) (.int 7) 0 :=
  hmapReady_of_lawful rfl (Hmap.Wf.zalloc (by decide)) (fun heap => lawfulKeys_scalar heap 0)
    trivial

/-- Room for the comparison of maps that are keys. -/
private def nestedEnv : Env := ⟨3, fun _ _ => .ok false⟩

/-- A literal of `n` pairs, which lie on the stack. -/
private def literalOf (op : Opcode) (n : Nat) (S : List Variable) (l : Ctx) : Ctx :=
  stateOf (execOp nestedEnv ⟨0, 0, 0, .root, []⟩ ⟨none, [], 0, [], none⟩ .zero op
    (asmBuild op.code 0 n) { l with
      stk := S })

/-- The maps `{}` and `{1 : 10}`, and an empty list. -/
private def twoMaps : Ctx :=
  literalOf .newskl 0 [] <| literalOf .newmap 1 [.int 10, .int 1] <| literalOf .newmap 0 [] <|
    .initial fun _ => 1

/-- An assignment to a container, its operands on the stack. -/
private def assign (var key v : Variable) (l : Ctx) : Ctx :=
  stateOf (instSetf nestedEnv .zero Flag.stack 1 { l with
    stk := [v, key, var] })

/-- Behind `s[{}] = 1`, in front of a second assignment. -/
private def secondAssign : Ctx :=
  { assign (.skls 3) (.hmap 1) (.int 1) twoMaps with
    stk := [.int 2, .hmap 2, .skls 3] }

private def elementOf : EStateM.Result Stop Ctx Variable → Option Variable
  | .ok v _ => some v
  | .error _ _ => none

private def returnsWell : EStateM.Result Stop Ctx Unit → Bool
  | .ok _ _ => true
  | .error _ _ => false

/-- The entries of a list in the order of its nodes. -/
private def pairsAt (heap : Heap) (o : Addr) : Option (List (Variable × Variable)) :=
  match heap.obj o with
  | some (.skls list) => list.traverse.toOption
  | _ => none

private theorem holds_of_pairsAt {heap : Heap} {o : Addr} (pairs : List (Variable × Variable))
    (hpairs : pairsAt heap o = some pairs) {k w : Variable} (hin : (k, w) ∈ pairs) :
    heap.Holds (.skls o) k w := by
  unfold pairsAt at hpairs
  split at hpairs
  next list hobj =>
    refine ⟨o, .skls list, rfl, hobj, pairs, ?_, hin⟩
    cases htraverse : list.traverse with
    | error f =>
        rw [htraverse] at hpairs
        cases hpairs
    | ok pairs' =>
        rw [htraverse] at hpairs
        exact congrArg _ (Option.some.inj hpairs)
  next => cases hpairs

/-- `hmap_compare` sums over the left map: `{}` is not below `{1 : 10}`, so the new node
goes in front of it, and `{1 : 10}` is not below `{}`, so a search for `{}` stops there. -/
private theorem second_not_whole : ¬ Whole nestedEnv secondAssign (.skls 3) (.hmap 2) (.int 2)
    (instSetf nestedEnv .zero Flag.stack 1 secondAssign) := by
  intro hwhole
  have hwell : returnsWell (instSetf nestedEnv .zero Flag.stack 1 secondAssign) = true := by
    decide +kernel
  have hlost : elementOf (vmGet nestedEnv (.skls 3) (.hmap 1)
      (stateOf (instSetf nestedEnv .zero Flag.stack 1 secondAssign))) = some .nil := by
    decide +kernel
  have hheld : secondAssign.heap.Holds (.skls 3) (.hmap 1) (.int 1) :=
    holds_of_pairsAt [(.hmap 1, .int 1)] (by decide +kernel) (by simp)
  have hother : ¬ SameKey nestedEnv secondAssign (.hmap 1) (.hmap 2) := by
    have hunequal : ((valueOps secondAssign.heap nestedEnv.depth).equals (.hmap 1)
        (.hmap 2)).toOption = some false := by
      decide +kernel
    rintro (hsame | hsame)
    · cases hsame
    · rw [hsame] at hunequal
      cases hunequal
  cases hrun : instSetf nestedEnv .zero Flag.stack 1 secondAssign with
  | error stop l' =>
      rw [hrun] at hwell
      cases hwell
  | ok u l' =>
      rw [hrun] at hwhole hlost
      have hstores : Stores nestedEnv secondAssign (.skls 3) (.hmap 2) (.int 2) l' := hwhole.1
      have hread := hstores.reads _ _ ((hstores.holds _ _).2 (.inr ⟨hheld, hother⟩))
      change elementOf (vmGet nestedEnv (.skls 3) (.hmap 1) l') = some .nil at hlost
      rw [hread] at hlost
      cases hlost

end Ymd
