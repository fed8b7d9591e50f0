import Ymd.Foundation.Runs
import Ymd.Library.Containers
import Ymd.Machine.Effect

/-! # No container holds `nil`

The containers of the machine over runs of the operations that store into them. A
value is checked before or after its slot is made: a `nil` that is assigned under a new
key leaves the key behind, and `append` does not check at all.
-/

namespace Ymd

open Foundation

/-! ## Objects without `nil` -/

/-- No element, key or value of a container is `nil`. -/
def Obj.NoNil : Obj → Prop
  | .dyay elem => ∀ v ∈ elem, v ≠ .nil
  | .hmap map => map.NoNil
  | .skls list => list.NoNil
  | _ => True

def Heap.NoNil (heap : Heap) : Prop := ∀ o obj, heap.obj o = some obj → obj.NoNil

theorem Heap.NoNil.set {heap : Heap} (h : heap.NoNil) (o : Addr) {obj : Obj} (hobj : obj.NoNil) :
    (heap.set o obj).NoNil := by
  intro a obj' ha
  change (if a = o ∧ o < heap.next then some obj else heap.obj a) = some obj' at ha
  split at ha
  · obtain rfl := Option.some.inj ha
    exact hobj
  · exact h a obj' ha

theorem Heap.NoNil.alloc {heap : Heap} (h : heap.NoNil) {obj : Obj} (hobj : obj.NoNil) :
    (heap.alloc obj).1.NoNil := by
  intro a obj' ha
  change (if a = heap.next then some obj else heap.obj a) = some obj' at ha
  split at ha
  · obtain rfl := Option.some.inj ha
    exact hobj
  · exact h a obj' ha

/-! ## Steps -/

/-- From `l` on, no container gets to hold `nil`, and `post` holds where it ends well. -/
def Spares {α : Type} (l : Ctx) (x : VmM α) (post : α → Ctx → Prop) : Prop :=
  match x l with
  | .ok a l' => l'.heap.NoNil ∧ post a l'
  | .error _ l' => l'.heap.NoNil

section

variable {α β : Type} {l : Ctx} {x : VmM α} {f : α → VmM β} {post : α → Ctx → Prop}
  {post₂ : β → Ctx → Prop}

theorem Spares.bind (hx : Spares l x post)
    (hf : ∀ a l', x l = .ok a l' → l'.heap.NoNil → post a l' → Spares l' (f a) post₂) :
    Spares l (x >>= f) post₂ := by
  unfold Spares at hx ⊢
  rcases hxl : x l with ⟨a, l'⟩ | ⟨stop, l'⟩
  · rw [hxl] at hx
    rw [bind_of_ok hxl]
    exact hf a l' hxl hx.1 hx.2
  · rw [hxl] at hx
    rw [bind_of_error hxl]
    exact hx

theorem Spares.mono {post' : α → Ctx → Prop} (h : Spares l x post)
    (hpost : ∀ a l', post a l' → post' a l') : Spares l x post' := by
  unfold Spares at h ⊢
  rcases hxl : x l with ⟨a, l'⟩ | ⟨stop, l'⟩
  · rw [hxl] at h
    exact ⟨h.1, hpost a l' h.2⟩
  · rw [hxl] at h
    exact h

/-- A computation that leaves the objects alone. -/
theorem Spares.of_heap (hl : l.heap.NoNil) (hx : (stateOf (x l)).heap = l.heap) :
    Spares l x fun a l' => x l = .ok a l' ∧ l'.heap = l.heap := by
  unfold Spares
  rcases hxl : x l with ⟨a, l'⟩ | ⟨stop, l'⟩
  · rw [hxl] at hx
    have hheap : l'.heap = l.heap := hx
    exact ⟨by rwa [hheap], rfl, hheap⟩
  · rw [hxl] at hx
    have hheap : l'.heap = l.heap := hx
    change l'.heap.NoNil
    rwa [hheap]

theorem Spares.of_readOnly (hl : l.heap.NoNil) (hx : ReadOnly x) :
    Spares l x fun a l' => x l = .ok a l' ∧ l' = l := by
  have hstate := hx l
  refine (Spares.of_heap hl (by rw [← hstate])).mono fun a l' h => ⟨h.1, ?_⟩
  rw [h.1] at hstate
  exact hstate.symm

theorem Spares.pure (hl : l.heap.NoNil) {a : α} (h : post a l) : Spares l (pure a) post := ⟨hl, h⟩

theorem Spares.throw (hl : l.heap.NoNil) (stop : Stop) : Spares l (throw stop) post := hl

theorem Spares.ite {c : Prop} [Decidable c] {y : VmM α} (hx : c → Spares l x post)
    (hy : ¬ c → Spares l y post) : Spares l (if c then x else y) post := by
  by_cases hc : c
  · rw [if_pos hc]
    exact hx hc
  · rw [if_neg hc]
    exact hy hc

theorem Spares.get {f : Ctx → VmM β} (hf : Spares l (f l) post₂) :
    Spares l (MonadState.get >>= f) post₂ := hf

end

section

variable {l : Ctx} (hl : l.heap.NoNil)

include hl

theorem spares_storeObj (o : Addr) {obj : Obj} (hobj : obj.NoNil) :
    Spares l (storeObj o obj) fun _ _ => True :=
  ⟨hl.set o hobj, trivial⟩

theorem spares_gcNew {obj : Obj} (hobj : obj.NoNil) : Spares l (gcNew obj) fun _ _ => True :=
  ⟨hl.alloc hobj, trivial⟩

theorem spares_ymdPush (v : Variable) :
    Spares l (ymdPush v) fun _ l' => l'.stk = v :: l.stk := by
  have hheap : (stateOf (ymdPush v l)).heap = l.heap := by
    rw [stackOnly_ymdPush v l]
  refine (Spares.of_heap hl hheap).mono fun _ l' h => ?_
  rw [(ymdPush_ok_iff.1 h.1).2]

theorem spares_ymdPop (n : Nat) : Spares l (ymdPop n) fun _ _ => True := by
  have hheap : (stateOf (ymdPop n l)).heap = l.heap := by
    rw [stackOnly_ymdPop n l]
  exact (Spares.of_heap hl hheap).mono fun _ _ _ => trivial

theorem spares_ymdTop (i : Nat) :
    Spares l (ymdTop i) fun v l' => l.stk[i]? = some v ∧ l' = l :=
  (Spares.of_readOnly hl (readOnly_ymdTop i)).mono fun _ _ h => ⟨(ymdTop_ok_iff.1 h.1).1, h.2⟩

theorem spares_check {α : Type} (x : Except Fault α) :
    Spares l (check x) fun a l' => x = .ok a ∧ l' = l :=
  (Spares.of_readOnly hl (ReadOnly.check x)).mono fun _ _ h => ⟨(check_ok_iff.1 h.1).1, h.2⟩

theorem spares_lift {α : Type} (x : Partial α) :
    Spares l (lift x) fun a l' => x = .ok a ∧ l' = l :=
  (Spares.of_readOnly hl (ReadOnly.lift x)).mono fun _ _ h => ⟨(lift_ok_iff.1 h.1).1, h.2⟩

theorem spares_keyOps (env : Env) : Spares l (keyOps env) fun _ _ => True := ⟨hl, trivial⟩

theorem spares_randlv : Spares l randlv fun _ _ => True := ⟨hl, trivial⟩

theorem spares_checkValue (v : Variable) :
    Spares l (checkValue v) fun _ l' => v ≠ .nil ∧ l' = l :=
  Spares.ite (fun _ => .throw hl _) fun h => .pure hl ⟨ne_nil_of_isNil h, rfl⟩

theorem spares_checkPair (k v : Variable) :
    Spares l (checkPair k v) fun _ l' => v ≠ .nil ∧ l' = l := by
  unfold checkPair
  refine Spares.ite (fun _ => ?_) fun _ => spares_checkValue hl v
  refine (spares_checkValue hl k).bind fun _ l' _ hl' h => ?_
  obtain ⟨-, rfl⟩ := h
  exact spares_checkValue hl' v

end

/-! ## Assignments -/

/-- What an assignment stores into. -/
def assignTarget (heap : Heap) : Variable → Option Addr
  | .hmap o => some o
  | .skls o => some o
  | .mand o =>
      match heap.mand o with
      | .ok m => m.proto
      | .error _ => none
  | _ => none

section

variable (env : Env)

/-- The slot that `vm_put` returns for the key holds a value already. -/
def SlotHolds (l : Ctx) (o : Addr) (key : Variable) : Prop :=
  (∀ map x, l.heap.obj o = some (.hmap map) →
    map.put (valueOps l.heap env.depth) env.depth key = .ok x → x.value ≠ .nil) ∧
  ∀ list x, l.heap.obj o = some (.skls list) →
    list.put (valueOps l.heap env.depth) key (l.levels 0) = .ok x → (x.list.node x.node).v ≠ .nil

/-- An assignment of `nil` makes no slot. -/
def IputOk (l : Ctx) (var key v : Variable) : Prop :=
  v ≠ .nil ∨ ∀ o, assignTarget l.heap var = some o → SlotHolds env l o key

variable {env} {l : Ctx}

theorem Heap.NoNil.set_set {heap : Heap} (h : heap.NoNil) (o : Addr) (obj' : Obj) {obj : Obj}
    (hobj : obj.NoNil) : ((heap.set o obj').set o obj).NoNil := by
  intro a obj'' ha
  by_cases hao : a = o ∧ o < heap.next
  · have hset : ((heap.set o obj').set o obj).obj a = some obj := if_pos hao
    obtain rfl := Option.some.inj (hset.symm.trans ha)
    exact hobj
  · have hset : ((heap.set o obj').set o obj).obj a = heap.obj a :=
      (if_neg hao).trans (if_neg hao)
    exact h a obj'' (hset.symm.trans ha)

/-- A store into an object that is no array, and stays none, leaves the arrays alone. -/
theorem Heap.dyay_set {heap : Heap} {o : Addr} {obj obj' : Obj} (hobj : heap.obj o = some obj)
    (hno : ∀ elem, obj ≠ .dyay elem) (hno' : ∀ elem, obj' ≠ .dyay elem) (p : Addr) :
    (heap.set o obj').dyay p = heap.dyay p := by
  have hnone : ∀ {heap : Heap} {obj : Obj}, heap.obj o = some obj → (∀ elem, obj ≠ .dyay elem) →
      heap.dyay o = .error badCast := by
    intro heap obj hobj hno
    unfold Heap.dyay
    rw [hobj]
    cases obj with
    | dyay elem => exact absurd rfl (hno elem)
    | func fn => rfl
    | hmap map => rfl
    | skls list => rfl
    | mand m => rfl
  by_cases hpo : p = o
  · rw [hpo, hnone hobj hno, hnone (Heap.obj_set_self hobj) hno']
  · unfold Heap.dyay
    rw [Heap.obj_set_of_ne hpo]

/-- The arrays are as they were. -/
def KeepsArrays (l l' : Ctx) : Prop := ∀ p, l'.heap.dyay p = l.heap.dyay p

section

variable (hl : l.heap.NoNil)

include hl

/-- `*hmap_put(o, key) = v`. -/
theorem spares_hmapStore (o : Addr) (key : Variable) {v : Variable} (hv : v ≠ .nil) :
    Spares l (do
      let x ← hmapPut env o key
      storeObj o (.hmap (x.store v))) fun _ => KeepsArrays l := by
  rcases hmapPut_cases env l o key with ⟨f, hput⟩ | ⟨map, x, hmap, hx, hput⟩
  · unfold Spares
    rw [bind_of_error hput]
    exact hl
  · unfold Spares
    rw [bind_of_ok hput]
    obtain ⟨hapart, hkey⟩ := Hmap.put_noNil (hl o _ hmap) hx
    refine ⟨hl.set_set o _ (Hmap.noNil_store hapart hkey hv), fun p => ?_⟩
    exact (Heap.dyay_set (Heap.obj_set_self hmap) (by simp) (by simp) p).trans
      (Heap.dyay_set hmap (by simp) (by simp) p)

/-- `*skls_put(o, key) = v`. -/
theorem spares_sklsStore (o : Addr) (key : Variable) {v : Variable} (hv : v ≠ .nil) :
    Spares l (do
      let x ← sklsPut env o key
      storeObj o (.skls (Skls.store x v))) fun _ => KeepsArrays l := by
  rcases sklsPut_cases env l o key with
    ⟨f, levels, hput⟩ | ⟨list, x, hlist, hx, hput⟩
  · unfold Spares
    rw [bind_of_error hput]
    exact hl
  · unfold Spares
    rw [bind_of_ok hput]
    obtain ⟨hapart, hkey⟩ := Skls.put_noNil (hl o _ hlist) hx
    refine ⟨hl.set_set o _ (Skls.noNil_store hapart hkey hv), fun p => ?_⟩
    exact (Heap.dyay_set (Heap.obj_set_self hlist) (by simp) (by simp) p).trans
      (Heap.dyay_set hlist (by simp) (by simp) p)

/-- The slot is made before the value is looked at. -/
theorem spares_hmapIput (o : Addr) (key v : Variable) (hv : v ≠ .nil ∨ SlotHolds env l o key) :
    Spares l (hmapIput env o key v) fun _ _ => True := by
  by_cases hnil : v = .nil
  · subst hnil
    have hholds := hv.resolve_left fun h => h rfl
    rcases hmapPut_cases env l o key with ⟨f, hput⟩ | ⟨map, x, hmap, hx, hput⟩
    · unfold Spares
      rw [hmapIput, bind_of_error hput]
      exact hl
    · unfold Spares
      rw [hmapIput, bind_of_ok hput]
      obtain ⟨hapart, hkey⟩ := Hmap.put_noNil (hl o _ hmap) hx
      exact hl.set o (Hmap.noNil_of_value hapart hkey (hholds.1 map x hmap hx))
  · have hcheck : checkValue v = pure () := if_neg fun h => hnil (eq_nil_of_isNil h)
    rw [hmapIput, hcheck]
    exact (spares_hmapStore hl o key hnil).mono fun _ _ _ => trivial

theorem spares_sklsIput (o : Addr) (key v : Variable) (hv : v ≠ .nil ∨ SlotHolds env l o key) :
    Spares l (sklsIput env o key v) fun _ _ => True := by
  by_cases hnil : v = .nil
  · subst hnil
    have hholds := hv.resolve_left fun h => h rfl
    rcases sklsPut_cases env l o key with
      ⟨f, levels, hput⟩ | ⟨list, x, hlist, hx, hput⟩
    · unfold Spares
      rw [sklsIput, bind_of_error hput]
      exact hl
    · unfold Spares
      rw [sklsIput, bind_of_ok hput]
      obtain ⟨hapart, hkey⟩ := Skls.put_noNil (hl o _ hlist) hx
      exact hl.set o (Skls.noNil_of_value hapart hkey (hholds.2 list x hlist hx))
  · have hcheck : checkValue v = pure () := if_neg fun h => hnil (eq_nil_of_isNil h)
    rw [sklsIput, hcheck]
    exact (spares_sklsStore hl o key hnil).mono fun _ _ _ => trivial

theorem spares_dyayIput (o : Addr) (key v : Variable) :
    Spares l (dyayIput o key v) fun _ _ => True := by
  refine Spares.get ((spares_check hl _).bind fun arr l₁ _ hl₁ h => ?_)
  obtain ⟨harr, rfl⟩ := h
  refine (spares_lift hl₁ _).bind fun i l₂ _ hl₂ h => ?_
  obtain ⟨-, rfl⟩ := h
  refine Spares.ite (fun _ => .throw hl₂ _) fun _ => ?_
  refine (spares_checkValue hl₂ v).bind fun _ l₃ _ hl₃ h => ?_
  obtain ⟨hv, rfl⟩ := h
  refine spares_storeObj hl₃ o fun w hw => ?_
  rcases List.mem_or_eq_of_mem_set hw with hw | rfl
  · exact hl o _ (Heap.dyay_eq_ok.1 harr) w hw
  · exact hv

omit hl in
theorem protoOf_ok {o proto : Addr} {obj : Obj} {l' : Ctx} (h : protoOf o l = .ok (proto, obj) l') :
    assignTarget l.heap (.mand o) = some proto := by
  rw [protoOf, bind_of_ok (get_apply l)] at h
  obtain ⟨m, l₁, hmand, h⟩ := bind_ok_iff.1 h
  obtain ⟨hmand, rfl⟩ := check_ok_iff.1 hmand
  rw [assignTarget, hmand]
  cases hproto : m.proto with
  | none =>
      rw [hproto] at h
      cases h
  | some a =>
      rw [hproto] at h
      cases hobj : l₁.heap.obj a with
      | none =>
          simp only [hobj] at h
          cases h
      | some obj' =>
          simp only [hobj] at h
          obtain ⟨heq, -⟩ := pure_ok_iff.1 h
          change m.proto = some proto
          exact hproto.trans (congrArg some (congrArg Prod.fst heq))

theorem spares_vmIput (var key v : Variable) (hok : IputOk env l var key v) :
    Spares l (vmIput env var key v) fun _ _ => True := by
  refine Spares.ite (fun _ => .throw hl _) fun _ => ?_
  cases var with
  | skls o => exact spares_sklsIput hl o key v (hok.imp_right fun h => h o rfl)
  | hmap o => exact spares_hmapIput hl o key v (hok.imp_right fun h => h o rfl)
  | dyay o => exact spares_dyayIput hl o key v
  | mand o =>
      refine (Spares.of_readOnly hl (readOnly_protoOf o)).bind fun x l₁ _ hl₁ h => ?_
      obtain ⟨hproto, rfl⟩ := h
      rcases x with ⟨proto, obj⟩
      have hheld := hok.imp_right fun h => h proto (protoOf_ok hproto)
      cases obj with
      | hmap map => exact spares_hmapIput hl₁ proto key v hheld
      | skls list => exact spares_sklsIput hl₁ proto key v hheld
      | func fn => exact .throw hl₁ _
      | dyay elem => exact .throw hl₁ _
      | mand m => exact .throw hl₁ _
  | nil => exact .throw hl _
  | int i => exact .throw hl _
  | bool i => exact .throw hl _
  | ext p => exact .throw hl _
  | kstr z => exact .throw hl _
  | func o => exact .throw hl _

end

/-! ## Instructions -/

/-- What `I_SETF` assigns pair by pair keeps to the condition. -/
def PairsOk (env : Env) (var : Variable) (param : Nat) : Nat → Ctx → Prop
  | 0, _ => True
  | n + 1, l => ∀ k v, l.stk[2 * (param - (n + 1)) + 1]? = some k →
      l.stk[2 * (param - (n + 1))]? = some v → IputOk env l var k v ∧
        ∀ l', vmIput env var k v l = .ok () l' → PairsOk env var param n l'

/-- What `I_SETF` assigns keeps to the condition. -/
def SetfOk (env : Env) (core : Chunk) (flag : BitVec 8) (param : Nat) (l : Ctx) : Prop :=
  if flag = Flag.stack then
    ∀ var, l.stk[2 * param]? = some var → PairsOk env var param param l
  else ∀ var k v, l.stk[1]? = some var → core.kval[param]? = some k → l.stk[0]? = some v →
    IputOk env l var k v

theorem spares_setPairs (var : Variable) (param n : Nat) (hl : l.heap.NoNil)
    (hok : PairsOk env var param n l) : Spares l (setPairs env var param n) fun _ _ => True := by
  induction n generalizing l with
  | zero => exact .pure hl trivial
  | succ n ih =>
      refine (spares_ymdTop hl _).bind fun k l₁ _ hl₁ h => ?_
      obtain ⟨hk, rfl⟩ := h
      refine (spares_ymdTop hl₁ _).bind fun v l₂ _ hl₂ h => ?_
      obtain ⟨hv, rfl⟩ := h
      obtain ⟨hiput, hrest⟩ := hok k v hk hv
      exact (spares_vmIput hl₂ var k v hiput).bind fun _ l₃ hrun hl₃ _ => ih hl₃ (hrest l₃ hrun)

theorem spares_kvalAt (hl : l.heap.NoNil) (core : Chunk) (i : Nat) :
    Spares l (kvalAt core i) fun v l' => core.kval[i]? = some v ∧ l' = l := by
  unfold kvalAt
  cases core.kval[i]? with
  | none => exact .throw hl _
  | some v => exact .pure hl ⟨rfl, rfl⟩

theorem spares_instSetf (core : Chunk) (flag : BitVec 8) (param : Nat) (hl : l.heap.NoNil)
    (hok : SetfOk env core flag param l) :
    Spares l (instSetf env core flag param) fun _ _ => True := by
  unfold SetfOk at hok
  refine Spares.ite (fun hflag => ?_) fun hflag => Spares.ite (fun _ => ?_) fun _ => .throw hl _
  · rw [if_pos hflag] at hok
    refine (spares_ymdTop hl _).bind fun var l₁ _ hl₁ h => ?_
    obtain ⟨hvar, rfl⟩ := h
    refine (spares_setPairs var param param hl₁ (hok var hvar)).bind fun _ l₂ _ hl₂ _ => ?_
    exact spares_ymdPop hl₂ _
  · rw [if_neg hflag] at hok
    refine (spares_ymdTop hl _).bind fun var l₁ _ hl₁ h => ?_
    obtain ⟨hvar, rfl⟩ := h
    refine (spares_kvalAt hl₁ core param).bind fun k l₂ _ hl₂ h => ?_
    obtain ⟨hk, rfl⟩ := h
    refine (spares_ymdTop hl₂ _).bind fun v l₃ _ hl₃ h => ?_
    obtain ⟨hv, rfl⟩ := h
    refine (spares_vmIput hl₃ var k v (hok var k v hvar hk hv)).bind fun _ l₄ _ hl₄ _ => ?_
    exact spares_ymdPop hl₄ _

/-- The pairs of a literal are checked before they are put. -/
theorem spares_mapPairs (param n : Nat) {map : Hmap} (hl : l.heap.NoNil) (hmap : map.NoNil) :
    Spares l (mapPairs env param n map) fun map' _ => map'.NoNil := by
  induction n generalizing l map with
  | zero => exact .pure hl hmap
  | succ n ih =>
      refine (spares_ymdTop hl _).bind fun k l₁ _ hl₁ h => ?_
      obtain ⟨-, rfl⟩ := h
      refine (spares_ymdTop hl₁ _).bind fun v l₂ _ hl₂ h => ?_
      obtain ⟨-, rfl⟩ := h
      refine (spares_checkPair hl₂ k v).bind fun _ l₃ _ hl₃ h => ?_
      obtain ⟨hv, rfl⟩ := h
      refine (spares_keyOps hl₃ env).bind fun ops l₄ _ hl₄ _ => ?_
      refine (spares_check hl₄ _).bind fun x l₅ _ hl₅ h => ?_
      obtain ⟨hx, rfl⟩ := h
      obtain ⟨hapart, hkey⟩ := Hmap.put_noNil hmap hx
      exact ih hl₅ (Hmap.noNil_store hapart hkey hv)

theorem spares_sklPairs (param n : Nat) {list : Skls} (hl : l.heap.NoNil) (hlist : list.NoNil) :
    Spares l (sklPairs env param n list) fun list' _ => list'.NoNil := by
  induction n generalizing l list with
  | zero => exact .pure hl hlist
  | succ n ih =>
      refine (spares_ymdTop hl _).bind fun k l₁ _ hl₁ h => ?_
      obtain ⟨-, rfl⟩ := h
      refine (spares_ymdTop hl₁ _).bind fun v l₂ _ hl₂ h => ?_
      obtain ⟨-, rfl⟩ := h
      refine (spares_checkPair hl₂ k v).bind fun _ l₃ _ hl₃ h => ?_
      obtain ⟨hv, rfl⟩ := h
      refine (spares_keyOps hl₃ env).bind fun ops l₄ _ hl₄ _ => ?_
      refine (spares_randlv hl₄).bind fun lv l₅ _ hl₅ _ => ?_
      refine (spares_check hl₅ _).bind fun x l₆ _ hl₆ h => ?_
      obtain ⟨hx, rfl⟩ := h
      obtain ⟨hapart, hkey⟩ := Skls.put_noNil hlist hx
      exact ih hl₆ (Skls.noNil_store hapart hkey hv)

theorem spares_dyaElems (n : Nat) (hl : l.heap.NoNil) :
    Spares l (dyaElems n) fun elem _ => ∀ v ∈ elem, v ≠ .nil := by
  induction n generalizing l with
  | zero => exact .pure hl (by simp)
  | succ n ih =>
      refine (spares_ymdTop hl _).bind fun v l₁ _ hl₁ h => ?_
      obtain ⟨-, rfl⟩ := h
      refine (spares_checkValue hl₁ v).bind fun _ l₂ _ hl₂ h => ?_
      obtain ⟨hv, rfl⟩ := h
      refine (ih hl₂).bind fun elem l₃ _ hl₃ helem => .pure hl₃ ?_
      exact List.forall_mem_cons.2 ⟨hv, helem⟩

/-- The instructions that store into containers. -/
def containerOps : List Opcode := [.newmap, .newskl, .newdya, .setf]

/-- The values an instruction assigns keep to the condition. -/
def InstOk (env : Env) (core : Chunk) (op : Opcode) (inst : Inst) (l : Ctx) : Prop :=
  op = .setf → SetfOk env core (asmFlag inst) (asmParam inst).toNat l

theorem spares_execOp {op : Opcode} (hop : op ∈ containerOps) (info : CallInfo) (fn : Func)
    (core : Chunk) (inst : Inst) (hl : l.heap.NoNil) (hok : InstOk env core op inst l) :
    Spares l (execOp env info fn core op inst) fun _ _ => True := by
  simp only [containerOps, List.mem_cons, List.not_mem_nil, or_false] at hop
  rcases hop with rfl | rfl | rfl | rfl
  · refine (spares_check hl _).bind fun map l₁ _ hl₁ h => ?_
    obtain ⟨hnew, rfl⟩ := h
    refine (spares_mapPairs _ _ hl₁ (Hmap.noNil_new hnew)).bind fun map' l₂ _ hl₂ hmap => ?_
    refine (spares_ymdPop hl₂ _).bind fun _ l₃ _ hl₃ _ => ?_
    refine (spares_gcNew hl₃ (show Obj.NoNil (.hmap map') from hmap)).bind fun o l₄ _ hl₄ _ => ?_
    exact (spares_ymdPush hl₄ _).bind fun _ l₅ _ hl₅ _ => .pure hl₅ trivial
  · refine (spares_sklPairs _ _ hl Skls.noNil_new).bind fun list l₁ _ hl₁ hlist => ?_
    refine (spares_ymdPop hl₁ _).bind fun _ l₂ _ hl₂ _ => ?_
    refine (spares_gcNew hl₂ (show Obj.NoNil (.skls list) from hlist)).bind fun o l₃ _ hl₃ _ => ?_
    exact (spares_ymdPush hl₃ _).bind fun _ l₄ _ hl₄ _ => .pure hl₄ trivial
  · refine (spares_dyaElems _ hl).bind fun elem l₁ _ hl₁ helem => ?_
    refine (spares_ymdPop hl₁ _).bind fun _ l₂ _ hl₂ _ => ?_
    refine (spares_gcNew hl₂ (show Obj.NoNil (.dyay elem) from helem)).bind fun o l₃ _ hl₃ _ => ?_
    exact (spares_ymdPush hl₃ _).bind fun _ l₄ _ hl₄ _ => .pure hl₄ trivial
  · refine (spares_instSetf core _ _ hl (hok rfl)).bind fun _ l₁ _ hl₁ _ => ?_
    exact .pure hl₁ trivial

end

/-! ## `insert` and `append` -/

section

variable {env : Env} {l : Ctx}

section

variable (hl : l.heap.NoNil)

include hl

theorem spares_ymdArgvChk (argv : List Variable) (need : Nat) :
    Spares l (ymdArgvChk argv need) fun _ l' => l' = l :=
  Spares.ite (fun _ => .throw hl _) fun _ => .pure hl rfl

theorem spares_ymdArgvGet (argv : List Variable) (i : Nat) :
    Spares l (ymdArgvGet argv i) fun v l' => v = argv.getD i .nil ∧ l' = l := by
  refine (spares_ymdArgvChk hl argv _).bind fun _ l₁ _ hl₁ h => ?_
  exact .pure hl₁ ⟨rfl, h⟩

/-- The array behind an address, with no `nil` in it. -/
theorem spares_dyay (o : Addr) :
    Spares l (check (l.heap.dyay o)) fun arr l' => (∀ v ∈ arr, v ≠ .nil) ∧ l' = l :=
  (spares_check hl _).mono fun _ _ h => ⟨hl o _ (Heap.dyay_eq_ok.1 h.1), h.2⟩

theorem spares_dyayInsert (o : Addr) (i : YmdInt) {elem : Variable} (helem : elem ≠ .nil) :
    Spares l (dyayInsert o i elem) fun _ _ => True := by
  refine Spares.get ((spares_dyay hl o).bind fun arr l₁ _ hl₁ h => ?_)
  obtain ⟨harr, rfl⟩ := h
  refine Spares.ite (fun _ => .throw hl₁ _) fun hi => spares_storeObj hl₁ o fun v hv => ?_
  by_cases hle : i.toNat ≤ arr.length
  · rcases (List.mem_insertIdx hle).1 hv with rfl | hv
    · exact helem
    · exact harr v hv
  · rw [List.insertIdx_of_length_lt (Nat.lt_of_not_le hle)] at hv
    exact harr v hv

theorem spares_dyayAdd (o : Addr) {elem : Variable} (helem : elem ≠ .nil) :
    Spares l (dyayAdd o elem) fun _ _ => True := by
  refine Spares.get ((spares_dyay hl o).bind fun arr l₁ _ hl₁ h => ?_)
  obtain ⟨harr, rfl⟩ := h
  refine spares_storeObj hl₁ o fun v hv => ?_
  rcases List.mem_append.1 hv with hv | hv
  · exact harr v hv
  · rw [List.mem_singleton.1 hv]
    exact helem

theorem spares_ymdAdd (htop : ∀ v, l.stk[0]? = some v → v ≠ .nil) :
    Spares l ymdAdd fun _ _ => True := by
  refine (spares_ymdTop hl 1).bind fun arr l₁ _ hl₁ h => ?_
  obtain ⟨-, rfl⟩ := h
  cases arr with
  | dyay o =>
      refine Spares.get ((spares_dyay hl₁ o).bind fun arr l₂ _ hl₂ h => ?_)
      obtain ⟨harr, rfl⟩ := h
      refine (spares_ymdTop hl₂ 0).bind fun v l₃ _ hl₃ h => ?_
      obtain ⟨hv, rfl⟩ := h
      have hadd : Obj.NoNil (.dyay (arr ++ [v])) := by
        intro w hw
        rcases List.mem_append.1 hw with hw | hw
        · exact harr w hw
        · rw [List.mem_singleton.1 hw]
          exact htop v hv
      exact (spares_storeObj hl₃ o hadd).bind fun _ l₄ _ hl₄ _ => spares_ymdPop hl₄ 1
  | nil => exact .throw hl₁ _
  | int i => exact .throw hl₁ _
  | bool i => exact .throw hl₁ _
  | ext p => exact .throw hl₁ _
  | kstr z => exact .throw hl₁ _
  | func o => exact .throw hl₁ _
  | hmap o => exact .throw hl₁ _
  | skls o => exact .throw hl₁ _
  | mand o => exact .throw hl₁ _

/-- Both branches of `do_insert` look at the element first. -/
theorem spares_doInsert (argv : List Variable) (self : Addr) :
    Spares l (doInsert argv self) fun _ _ => True := by
  refine (spares_ymdArgvChk hl argv 2).bind fun _ l₁ _ hl₁ _ => ?_
  split
  · refine (spares_ymdArgvGet hl₁ argv 1).bind fun elem l₂ _ hl₂ _ => ?_
    refine Spares.ite (fun _ => .throw hl₂ _) fun hnil => ?_
    refine (spares_ymdPush hl₂ _).bind fun _ l₃ _ hl₃ _ => ?_
    refine (spares_ymdPush hl₃ _).bind fun _ l₄ _ hl₄ hstk => ?_
    refine (spares_ymdAdd hl₄ fun v hv => ?_).bind fun _ l₅ _ hl₅ _ => spares_ymdPop hl₅ 1
    rw [hstk] at hv
    obtain rfl := Option.some.inj hv
    exact ne_nil_of_isNil hnil
  · refine (spares_ymdArgvGet hl₁ argv 1).bind fun arg l₂ _ hl₂ _ => ?_
    refine (spares_lift hl₂ _).bind fun i l₃ _ hl₃ _ => ?_
    refine Spares.get ((spares_dyay hl₃ self).bind fun arr l₄ _ hl₄ _ => ?_)
    refine Spares.ite (fun _ => .throw hl₄ _) fun _ => ?_
    refine (spares_ymdArgvGet hl₄ argv 2).bind fun elem l₅ _ hl₅ _ => ?_
    refine Spares.ite (fun _ => .throw hl₅ _) fun hnil => ?_
    exact spares_dyayInsert hl₅ self i (ne_nil_of_isNil hnil)
  · exact .throw hl₁ _

/-- The pair is checked before its slot is made. -/
theorem spares_checkedPut (arg0 k v : Variable) :
    Spares l (checkedPut env arg0 k v) fun _ _ => True := by
  refine (spares_checkPair hl k v).bind fun _ l₁ _ hl₁ h => ?_
  obtain ⟨hv, rfl⟩ := h
  cases arg0 with
  | hmap o => exact (spares_hmapStore hl₁ o k hv).mono fun _ _ _ => trivial
  | skls o => exact (spares_sklsStore hl₁ o k hv).mono fun _ _ _ => trivial
  | nil => exact .throw hl₁ _
  | int i => exact .throw hl₁ _
  | bool i => exact .throw hl₁ _
  | ext p => exact .throw hl₁ _
  | kstr z => exact .throw hl₁ _
  | func o => exact .throw hl₁ _
  | dyay o => exact .throw hl₁ _
  | mand o => exact .throw hl₁ _

theorem spares_libxInsert (argv : List Variable) :
    Spares l (libxInsert env argv) fun _ _ => True := by
  refine (spares_ymdArgvGet hl argv 0).bind fun arg0 l₁ _ hl₁ _ => ?_
  split
  · exact spares_doInsert hl₁ argv _
  · refine (spares_ymdArgvGet hl₁ argv 1).bind fun k l₂ _ hl₂ _ => ?_
    refine (spares_ymdArgvGet hl₂ argv 2).bind fun v l₃ _ hl₃ _ => ?_
    exact spares_checkedPut hl₃ arg0 k v

/-- The elements of a pair are no `nil`, unless the second is not there. -/
theorem spares_pairOf {arg : Variable} (harg : ∀ p, arg = .dyay p → ∀ k, l.heap.dyay p ≠ .ok [k]) :
    Spares l (pairOf arg) fun p l' => p.2 ≠ .nil ∧ l' = l := by
  refine (spares_lift hl _).bind fun o l₁ _ hl₁ h => ?_
  obtain ⟨hof, rfl⟩ := h
  have harg := harg o (dyayOf_ok hof)
  refine Spares.get ((spares_check hl₁ _).bind fun arr l₂ _ hl₂ h => ?_)
  obtain ⟨harr, rfl⟩ := h
  have hnoNil := hl₂ o _ (Heap.dyay_eq_ok.1 harr)
  split
  · next _ v _ _ => exact .pure hl₂ ⟨hnoNil v (by simp), rfl⟩
  · next k _ => exact absurd harr (harg k)
  · exact .throw hl₂ _

end

/-- The loop on an array checks nothing. -/
theorem spares_appendElems (o : Addr) {argv : List Variable} (hargv : ∀ v ∈ argv, v ≠ .nil)
    (hl : l.heap.NoNil) : Spares l (appendElems o argv) fun _ _ => True := by
  induction argv generalizing l with
  | nil => exact .pure hl trivial
  | cons elem rest ih =>
      obtain ⟨helem, hrest⟩ := List.forall_mem_cons.1 hargv
      exact (spares_dyayAdd hl o helem).bind fun _ l₁ _ hl₁ _ => ih hrest hl₁

/-- No argument is an array of one element. -/
def PairArgs (l : Ctx) (args : List Variable) : Prop :=
  ∀ arg ∈ args, ∀ p, arg = .dyay p → ∀ k, l.heap.dyay p ≠ .ok [k]

theorem spares_appendPairs {put : (k v : Variable) → VmM Unit}
    (hput : ∀ l k v, l.heap.NoNil → v ≠ .nil → Spares l (put k v) fun _ => KeepsArrays l)
    {argv : List Variable} (hargv : PairArgs l argv) (hl : l.heap.NoNil) :
    Spares l (appendPairs put argv) fun _ _ => True := by
  induction argv generalizing l with
  | nil => exact .pure hl trivial
  | cons arg rest ih =>
      obtain ⟨harg, hrest⟩ := List.forall_mem_cons.1 hargv
      refine (spares_pairOf hl harg).bind fun p l₁ _ hl₁ hp => ?_
      obtain ⟨hv, rfl⟩ := hp
      refine (hput l₁ p.1 p.2 hl₁ hv).bind fun _ l₂ _ hl₂ hkeeps => ih ?_ hl₂
      intro arg' hin q hq k
      rw [hkeeps q]
      exact hrest arg' hin q hq k

/-- `append` gives an array no `nil`, and a map no pair that lacks its value. -/
def AppendOk (l : Ctx) (argv : List Variable) : Prop :=
  match argv.getD 0 .nil with
  | .dyay _ => ∀ v ∈ argv.drop 1, v ≠ .nil
  | .hmap _ | .skls _ => PairArgs l (argv.drop 1)
  | _ => True

theorem spares_libxAppend {argv : List Variable} (hargv : AppendOk l argv) (hl : l.heap.NoNil) :
    Spares l (libxAppend env argv) fun _ _ => True := by
  refine (spares_ymdArgvGet hl argv 0).bind fun arg0 l₁ _ hl₁ h => ?_
  obtain ⟨harg, rfl⟩ := h
  rw [AppendOk, ← harg] at hargv
  split
  · next o _ =>
      refine (spares_ymdArgvChk hl₁ argv 2).bind fun _ l₂ _ hl₂ _ => ?_
      exact spares_appendElems o hargv hl₂
  · next o _ =>
      refine (spares_ymdArgvChk hl₁ argv 2).bind fun _ l₂ _ hl₂ h => ?_
      obtain rfl := h
      exact spares_appendPairs (fun l' k v hl' hv => spares_hmapStore hl' o k hv) hargv hl₂
  · next o _ =>
      refine (spares_ymdArgvChk hl₁ argv 2).bind fun _ l₂ _ hl₂ h => ?_
      obtain rfl := h
      exact spares_appendPairs (fun l' k v hl' hv => spares_sklsStore hl' o k hv) hargv hl₂
  · exact .throw hl₁ _

end

/-! ## Runs -/

/-- What a script does to containers. -/
inductive ContainerAct
  | exec (info : CallInfo) (fn : Func) (core : Chunk) (op : Opcode) (inst : Inst)
  | insert (argv : List Variable)
  | append (argv : List Variable)
  | other

def Obj.isContainer : Obj → Bool
  | .dyay _ | .hmap _ | .skls _ => true
  | _ => false

/-- A step of a script. A panic leaves its state behind, for what the host calls next;
between the operations everything may change but the containers. -/
def ContainerStep (env : Env) (l : Ctx) : ContainerAct → Ctx → Prop
  | .exec info fn core op inst, l' =>
      op ∈ containerOps ∧ l' = stateOf (execOp env info fn core op inst l)
  | .insert argv, l' => l' = stateOf (libxInsert env argv l)
  | .append argv, l' => l' = stateOf (libxAppend env argv l)
  | .other, l' =>
      ∀ o obj, l'.heap.obj o = some obj → obj.isContainer → l.heap.obj o = some obj

/-- No `nil` is assigned under a new key and none is appended. -/
def ContainerAct.Ok (env : Env) (l : Ctx) : ContainerAct → Prop
  | .exec _ _ core op inst => InstOk env core op inst l
  | .append argv => AppendOk l argv
  | _ => True

theorem Spares.stateOf {α : Type} {l : Ctx} {x : VmM α} {post : α → Ctx → Prop}
    (h : Spares l x post) : (stateOf (x l)).heap.NoNil := by
  unfold Spares at h
  rcases hxl : x l with ⟨a, l'⟩ | ⟨stop, l'⟩
  · rw [hxl] at h
    exact h.1
  · rw [hxl] at h
    exact h

/-- One step. -/
theorem ContainerStep.noNil {env : Env} {l l' : Ctx} {act : ContainerAct}
    (hstep : ContainerStep env l act l') (hok : act.Ok env l) (hl : l.heap.NoNil) :
    l'.heap.NoNil := by
  cases act with
  | exec info fn core op inst =>
      obtain ⟨hop, rfl⟩ := hstep
      exact (spares_execOp hop info fn core inst hl hok).stateOf
  | insert argv =>
      obtain rfl := hstep
      exact (spares_libxInsert hl argv).stateOf
  | append argv =>
      obtain rfl := hstep
      exact (spares_libxAppend hok hl).stateOf
  | other =>
      intro o obj hobj
      cases obj with
      | func fn => trivial
      | mand m => trivial
      | dyay elem => exact hl o _ (hstep o _ hobj rfl)
      | hmap map => exact hl o _ (hstep o _ hobj rfl)
      | skls list => exact hl o _ (hstep o _ hobj rfl)

theorem Ctx.noNil_initial (levels : Nat → Nat) : (Ctx.initial levels).heap.NoNil := by
  refine Heap.NoNil.alloc (fun o obj h => ?_) (Hmap.noNil_zalloc 5)
  cases h

/-- Where no `nil` is assigned under a new key and none is appended, no container of a
reachable state holds one. -/
theorem containers_hold_no_nil (env : Env) (levels : Nat → Nat) {l : Ctx}
    (hrun : Runs (ContainerStep env) (ContainerAct.Ok env) (Ctx.initial levels) l) :
    l.heap.NoNil :=
  hrun.invariant (fun _ _ _ hl hok hstep => hstep.noNil hok hl) (Ctx.noNil_initial levels)

/-! ### A run with and without `nil` -/

private def plainEnv : Env := ⟨1, fun _ _ => .ok false⟩

private def callInfo : CallInfo := ⟨0, 0, 0, .root, []⟩

private def caller : Func := ⟨none, [], 0, [], none⟩

/-- A literal with nothing in it. -/
private def literal (op : Opcode) : Ctx :=
  stateOf (execOp plainEnv callInfo caller .zero op 0 (.initial fun _ => 1))

/-- `append` on an array literal. -/
private def appended (v : Variable) : Ctx :=
  stateOf (libxAppend plainEnv [.dyay 1, v] (literal .newdya))

/-- A map literal, and behind it an array literal of the elements. -/
private def withPair (elem : List Variable) : Ctx :=
  stateOf (execOp plainEnv callInfo caller .zero .newdya (asmBuild Opcode.newdya.code 0 elem.length)
    { literal .newmap with
      stk := elem.reverse })

/-- `append` of the array to the map. -/
private def appendedPair (elem : List Variable) : Ctx :=
  stateOf (libxAppend plainEnv [.hmap 1, .dyay 2] (withPair elem))

private def assignInst : Inst := asmBuild Opcode.setf.code Flag.stack 1

/-- A map literal in front of an assignment. -/
private def beforeAssign (k v : Variable) : Ctx :=
  { literal .newmap with
    stk := [v, k, .hmap 1] }

/-- An assignment to a map literal. -/
private def assigned (k v : Variable) : Ctx :=
  stateOf (execOp plainEnv callInfo caller .zero .setf assignInst (beforeAssign k v))

private theorem runs_literal (guard : Ctx → ContainerAct → Prop) (op : Opcode)
    (hop : op ∈ containerOps)
    (hguard : guard (.initial fun _ => 1) (.exec callInfo caller .zero op 0)) :
    Runs (ContainerStep plainEnv) guard (.initial fun _ => 1) (literal op) :=
  .single hguard ⟨hop, rfl⟩

private theorem runs_withPair (guard : Ctx → ContainerAct → Prop) (elem : List Variable)
    (hguard : ∀ l op inst, op ≠ .setf → guard l (.exec callInfo caller .zero op inst))
    (hother : ∀ l, guard l .other) :
    Runs (ContainerStep plainEnv) guard (.initial fun _ => 1) (withPair elem) := by
  have hmap := runs_literal guard .newmap (by decide) (hguard _ _ _ (by decide))
  have hstk : Runs (ContainerStep plainEnv) guard (.initial fun _ => 1)
      { literal .newmap with
        stk := elem.reverse } :=
    .tail (a := .other) hmap (hother _) fun _ _ h _ => h
  exact .tail (a := .exec callInfo caller .zero .newdya _) hstk (hguard _ _ _ (by decide))
    ⟨by decide, rfl⟩

/-- A map literal, an array literal `[7, 1]`, and `append` of the array to the map. -/
theorem containers_hold_no_nil_append : (appendedPair [.int 7, .int 1]).heap.NoNil := by
  refine containers_hold_no_nil plainEnv (fun _ => 1) ?_
  have hpair := runs_withPair (ContainerAct.Ok plainEnv) [.int 7, .int 1]
    (fun l op inst hop h => absurd h hop) fun _ => trivial
  refine .tail (a := .append [.hmap 1, .dyay 2]) hpair ?_ rfl
  intro arg harg p hp k hk
  obtain rfl := List.mem_singleton.1 harg
  cases hp
  cases hk

/-- A slot in use holds `nil`. -/
private def nilHeld : Option Obj → Bool
  | some (.hmap map) => decide (∃ i, (map.item i).flag ≠ .free ∧ (map.item i).v = .nil)
  | some (.dyay elem) => elem.contains .nil
  | _ => false

private theorem not_noNil_of_nilHeld {heap : Heap} {o : Addr} (h : nilHeld (heap.obj o) = true) :
    ¬ heap.NoNil := by
  intro hheap
  cases hobj : heap.obj o with
  | none =>
      rw [hobj] at h
      cases h
  | some obj =>
      have hnil := hheap o obj hobj
      rw [hobj] at h
      cases obj with
      | dyay elem => exact hnil .nil (List.contains_iff_mem.1 h) rfl
      | hmap map =>
          obtain ⟨i, hflag, hv⟩ := of_decide_eq_true h
          exact (hnil i hflag).2 hv
      | skls list => cases h
      | func fn => cases h
      | mand m => cases h

/-- `append(a, nil)` goes through, `append(m, [7])` stores the `nil` behind the element, and
`m[7] = nil` panics and leaves its slot behind. -/
theorem nil_in_containers :
    (Runs (ContainerStep plainEnv) (fun _ _ => True) (.initial fun _ => 1) (appended .nil) ∧
      ¬ (appended .nil).heap.NoNil) ∧
    (Runs (ContainerStep plainEnv) (fun _ _ => True) (.initial fun _ => 1)
        (appendedPair [.int 7]) ∧ ¬ (appendedPair [.int 7]).heap.NoNil) ∧
    Runs (ContainerStep plainEnv) (fun _ _ => True) (.initial fun _ => 1) (assigned (.int 7) .nil) ∧
      ¬ (assigned (.int 7) .nil).heap.NoNil := by
  refine ⟨⟨?_, not_noNil_of_nilHeld (o := 1) (by decide +kernel)⟩,
    ⟨?_, not_noNil_of_nilHeld (o := 1) (by decide +kernel)⟩, ?_,
    not_noNil_of_nilHeld (o := 1) (by decide +kernel)⟩
  · exact .tail (a := .append [.dyay 1, .nil]) (runs_literal _ .newdya (by decide) trivial) trivial rfl
  · have hpair := runs_withPair (fun _ _ => True) [.int 7] (fun _ _ _ _ => trivial)
      fun _ => trivial
    exact .tail (a := .append [.hmap 1, .dyay 2]) hpair trivial rfl
  · have hbefore : Runs (ContainerStep plainEnv) (fun _ _ => True) (.initial fun _ => 1)
        (beforeAssign (.int 7) .nil) :=
      .tail (a := .other) (runs_literal _ .newmap (by decide) trivial) trivial fun _ _ h _ => h
    exact .tail (a := .exec callInfo caller .zero .setf assignInst) hbefore trivial
      ⟨by decide, rfl⟩

end Ymd
