import Ymd.Pickle.Data
import Ymd.Pickle.Frame

/-! # Reading data back

The fields of data, in front of any other bytes, are a complete value of the
format, and the value is the same. A loop over the parts of a container carries
what the container holds so far.
-/

namespace Ymd

open Foundation

/-- The levels that `randlv` can return. -/
def Ctx.Leveled (l : Ctx) : Prop := ∀ i, 1 ≤ l.levels i ∧ l.levels i ≤ Skls.maxLevel

/-- And no allocation collects. -/
structure Mem.Calm (m : Mem) : Prop where
  leveled : m.l.Leveled
  quiet : m.Quiet

/-- The bytes of fields. -/
def bytesOf (fields : List Field) : Bytes := fields.flatMap Field.bytes

@[simp] theorem bytesOf_append (fields fields' : List Field) :
    bytesOf (fields ++ fields') = bytesOf fields ++ bytesOf fields' := List.flatMap_append

namespace Format

variable {α : Type} {mem : Mem} {z rest : Bytes}

/-! ## Pieces -/

theorem varint_of_decode {decode : Bytes → Option (α × Bytes)} {a : α}
    (hdecode : decode z = some (a, rest)) :
    varint decode mem z = .ok (.done a mem rest) := by
  simp only [varint, hdecode]

theorem varint_count {n : Nat} :
    varint uint32decode mem (uint32encode (BitVec.ofNat 32 n) ++ rest) =
      .ok (.done (BitVec.ofNat 32 n) mem rest) :=
  varint_of_decode (uint32decode_encode _ _)

theorem machine_ok {x : VmM α} {a : α} {l : Ctx} (hx : x mem.l = .ok a l) :
    machine (onVm x) mem z = .ok (.done a { mem with l := l } z) := by
  simp only [machine, onVm, hx]

theorem onHeap_ok {x : VmM α} {a : α} {l : Ctx} (hquiet : mem.Quiet) (hx : x mem.l = .ok a l) :
    machine (onHeap x) mem z = .ok (.done a { mem with l := l } z) := by
  simp only [machine, onHeap_of_quiet hquiet, onVm, hx]

theorem machine_push {v : Variable} (hroom : mem.l.stk.length < maxStack) :
    machine (onVm (ymdPush v)) mem z =
      .ok (.done () { mem with l := { mem.l with stk := v :: mem.l.stk } } z) :=
  machine_ok (ymdPush_of_lt hroom)

theorem sized_of_done {r : Format Unit} {mem' : Mem} (hr : r mem z = .ok (.done () mem' rest)) :
    sized r mem z = .ok (.done (z.length - rest.length) mem' rest) := by
  rw [sized, remain_bind, bind_of_done hr, remain_bind]
  rfl

theorem plus_of_done {r : Format α} {a : α} {mem' : Mem} (n : Nat)
    (hr : r mem z = .ok (.done a mem' rest)) : r.plus n mem z = .ok (.done a mem' rest) := by
  rw [plus, hr]

theorem toNat_ofNat_of_lt {n : Nat} (hn : n < 2 ^ 30) : (BitVec.ofNat 32 n).toNat = n := by
  rw [BitVec.toNat_ofNat, Nat.mod_eq_of_lt (by omega)]

theorem toInt_ofNat_of_lt {n : Nat} (hn : n < 2 ^ 30) : (BitVec.ofNat 32 n).toInt = n := by
  have hnat := toNat_ofNat_of_lt hn
  rw [BitVec.toInt_eq_toNat_of_lt (by omega), hnat]

theorem kstr_of_encode (hquiet : mem.Quiet) (hlen : z.length < 2 ^ 30) (hroom : mem.l.stk.length < maxStack) :
    kstr mem (uint32encode (BitVec.ofNat 32 z.length) ++ (z ++ rest)) =
      .ok (.done () { mem with l := { mem.l with stk := .kstr z :: mem.l.stk } } rest) := by
  rw [kstr, bind_of_done varint_count, toInt_ofNat_of_lt hlen, kstrOf, remain_bind]
  have hleft : ¬ ((z ++ rest).length : Int) < z.length := by
    rw [List.length_append]
    omega
  have hneg : ¬ (z.length : Int) < 0 := by omega
  rw [if_neg hleft, if_neg hneg, Int.toNat_natCast]
  have htake : take z.length mem (z ++ rest) = .ok (.done z mem rest) := by
    rw [take, if_pos (by simp), List.take_left, List.drop_left]
  rw [bind_of_done htake]
  exact onHeap_ok hquiet (ymdPush_of_lt hroom)

end Format

/-! ## The machine -/

section

variable {l : Ctx} {S : List Variable} {o : Addr} {v : Variable}

theorem ymdAdd_of_top {elem : List Variable} (hstk : l.stk = v :: .dyay o :: S)
    (hobj : l.heap.obj o = some (.dyay elem)) :
    ymdAdd l = .ok () { l with heap := l.heap.set o (.dyay (elem ++ [v])), stk := .dyay o :: S } := by
  have htop : ymdTop 1 l = .ok (.dyay o) l := ymdTop_of_getElem? (by simp [hstk])
  have htop0 : ymdTop 0 l = .ok v l := ymdTop_of_getElem? (by simp [hstk])
  rw [ymdAdd, bind_of_ok htop]
  change (check (l.heap.dyay o) >>= _) l = _
  rw [bind_of_ok (check_of_ok (Heap.dyay_eq_ok.2 hobj)), bind_of_ok htop0,
    bind_of_ok (storeObj_apply o _), ymdPop_of_le (by simp [hstk])]
  simp [hstk]

/-- What a map that is on the stack holds. -/
def Stored (heap : Heap) (var : Variable) (log : List (Variable × Variable)) : Prop :=
  match var with
  | .hmap o => ∃ map, heap.obj o = some (.hmap map) ∧
      map.Represents Variable.IsScalarKey scalarHash log
  | .skls o => ∃ list cells, heap.obj o = some (.skls list) ∧
      list.Represents Variable.IsScalarKey scalarContent log cells
  | _ => False

theorem Stored.frame {heap heap' : Heap} {var : Variable} {log : List (Variable × Variable)}
    (hstored : Stored heap var log) (hframe : ∀ a obj, heap.obj a = some obj →
      heap'.obj a = some obj) : Stored heap' var log := by
  cases var with
  | hmap o =>
      obtain ⟨map, hobj, hrep⟩ := hstored
      exact ⟨map, hframe o _ hobj, hrep⟩
  | skls o =>
      obtain ⟨list, cells, hobj, hrep⟩ := hstored
      exact ⟨list, cells, hframe o _ hobj, hrep⟩
  | _ => exact hstored.elim

theorem Ctx.Leveled.next (hlevels : l.Leveled) :
    ({ l with levels := fun i => l.levels (i + 1) } : Ctx).Leveled := fun i => hlevels (i + 1)

theorem ymdPutf_eq {env : Env} {var key : Variable} (hstk : l.stk = v :: key :: var :: S)
    (hkey : key.IsScalarKey) :
    ymdPutf env l = (vmPutOn env var key v >>= fun _ => ymdPop 2) l := by
  have htop2 : ymdTop 2 l = .ok var l := ymdTop_of_getElem? (by simp [hstk])
  have htop1 : ymdTop 1 l = .ok key l := ymdTop_of_getElem? (by simp [hstk])
  have htop0 : ymdTop 0 l = .ok v l := ymdTop_of_getElem? (by simp [hstk])
  have hnil : ¬ key.isNil = true := by simp [hkey.isNil_eq_false]
  rw [ymdPutf, bind_of_ok htop2, bind_of_ok htop1]
  simp only [if_neg hnil]
  exact bind_of_ok htop0

theorem of_bind_pure {α β : Type} {x : Except Fault α} {f : α → β} {b : β}
    (hx : (x >>= fun a => pure (f a)) = pure b) : ∃ a, x = .ok a ∧ f a = b := by
  cases x with
  | ok a => exact ⟨a, rfl, Except.ok.inj hx⟩
  | error e => cases hx

theorem hmapPut_of_put {env : Env} {key : Variable} {map : Hmap} {x : Entry}
    (hobj : l.heap.obj o = some (.hmap map))
    (hput : map.put (valueOps l.heap env.depth) env.depth key = .ok x) :
    hmapPut env o key l = .ok x { l with heap := l.heap.set o (.hmap x.map) } := by
  rw [hmapPut, bind_of_ok (get_apply l), bind_of_ok (check_of_ok (Heap.hmap_eq_ok.2 hobj)),
    bind_of_ok (keyOps_apply env), bind_of_ok (check_of_ok hput)]
  rfl

theorem sklsPut_of_put {env : Env} {key : Variable} {list : Skls} {x : SkEntry}
    (hobj : l.heap.obj o = some (.skls list))
    (hput : list.put (valueOps l.heap env.depth) key (l.levels 0) = .ok x) :
    sklsPut env o key l = .ok x { l with
      heap := l.heap.set o (.skls x.list), levels := fun i => l.levels (i + 1) } := by
  rw [sklsPut, bind_of_ok (get_apply l), bind_of_ok (check_of_ok (Heap.skls_eq_ok.2 hobj)),
    bind_of_ok (keyOps_apply env), bind_of_ok (randlv_apply l), bind_of_ok (check_of_ok hput)]
  rfl

/-- A store of a pair from the stack into the map below it. -/
theorem ymdPutf_stored {env : Env} {var key : Variable} {log : List (Variable × Variable)}
    (henv : 0 < env.depth) (hlevels : l.Leveled) (hstk : l.stk = v :: key :: var :: S)
    (hkey : key.IsScalarKey) (hstored : Stored l.heap var log) :
    ∃ l', ymdPutf env l = .ok () l' ∧ l'.stk = var :: S ∧ l'.Leveled ∧
      l'.heap.next = l.heap.next ∧ Stored l'.heap var (log ++ [(key, v)]) ∧
      ∀ a, var.container ≠ some a → l'.heap.obj a = l.heap.obj a := by
  obtain ⟨depth, hdepth⟩ : ∃ k, env.depth = k + 1 := ⟨env.depth - 1, by omega⟩
  have hpop : ∀ heap levels, ymdPop 2 { l with heap := heap, levels := levels } =
      .ok () { l with heap := heap, levels := levels, stk := var :: S } := by
    intro heap levels
    rw [ymdPop_of_le (by simp [hstk])]
    simp [hstk]
  rw [ymdPutf_eq hstk hkey]
  cases var with
  | hmap o =>
      obtain ⟨map, hobj, hrep⟩ := hstored
      obtain ⟨map', hput, hrep'⟩ := hrep.putStore (lawfulKeys_scalar l.heap depth) hkey v
      obtain ⟨x, hx, rfl⟩ := of_bind_pure (hput depth)
      rw [← hdepth] at hx
      have hon : vmPutOn env (.hmap o) key v l = .ok () { l with
          heap := (l.heap.set o (.hmap x.map)).set o (.hmap (x.store v)) } :=
        bind_of_ok (hmapPut_of_put hobj hx)
      rw [bind_of_ok hon]
      refine ⟨_, hpop _ l.levels, rfl, hlevels, rfl, ⟨x.store v, ?_, hrep'⟩, fun a ha => ?_⟩
      · exact Heap.obj_set_self (Heap.obj_set_self hobj)
      · have hne : a ≠ o := fun h => ha (h ▸ rfl)
        exact (Heap.obj_set_of_ne hne).trans (Heap.obj_set_of_ne hne)
  | skls o =>
      obtain ⟨list, cells, hobj, hrep⟩ := hstored
      obtain ⟨list', cells', hput, hrep'⟩ := hrep.putStore (orderedKeys_scalar l.heap depth) hkey v
        (hlevels 0).1 (hlevels 0).2
      obtain ⟨x, hx, rfl⟩ := of_bind_pure hput
      rw [← hdepth] at hx
      have hon : vmPutOn env (.skls o) key v l = .ok () { l with
          heap := (l.heap.set o (.skls x.list)).set o (.skls (Skls.store x v))
          levels := fun i => l.levels (i + 1) } :=
        bind_of_ok (sklsPut_of_put hobj hx)
      rw [bind_of_ok hon]
      refine ⟨_, hpop _ _, rfl, hlevels.next, rfl, ⟨Skls.store x v, cells', ?_, hrep'⟩,
        fun a ha => ?_⟩
      · exact Heap.obj_set_self (Heap.obj_set_self hobj)
      · have hne : a ≠ o := fun h => ha (h ▸ rfl)
        exact (Heap.obj_set_of_ne hne).trans (Heap.obj_set_of_ne hne)
  | _ => exact hstored.elim

end

/-! ## Entries of maps -/

theorem Hmap.mem_slots {map : Hmap} {k v : Variable} :
    (k, v) ∈ map.slots ↔ Hmap.Holds map.item k v := by
  rw [Hmap.slots, List.mem_filterMap]
  constructor
  · rintro ⟨i, _, hi⟩
    by_cases hfree : (map.item i).flag = .free
    · rw [if_pos hfree] at hi
      cases hi
    · rw [if_neg hfree] at hi
      cases hi
      exact ⟨i, hfree, rfl, rfl⟩
  · rintro ⟨i, hfree, rfl, rfl⟩
    exact ⟨i, List.mem_finRange i, if_neg hfree⟩

theorem Hmap.Wf.nodup_slots {IsKey : Variable → Prop} {hashOf : Variable → BitVec 64} {map : Hmap}
    (hwf : Hmap.Wf IsKey hashOf map) : (map.slots.map Prod.fst).Nodup := by
  rw [Hmap.slots, List.map_filterMap]
  apply (List.nodup_finRange _).filterMap
  intro i j k hi hj
  by_cases hfree : (map.item i).flag = .free
  · simp [hfree] at hi
  by_cases hfree' : (map.item j).flag = .free
  · simp [hfree'] at hj
  simp only [hfree, if_false, Option.map_some, Option.mem_def, Option.some.injEq] at hi
  simp only [hfree', if_false, Option.map_some, Option.mem_def, Option.some.injEq] at hj
  exact hwf.linked.inj i j hfree hfree' (hi.trans hj.symm)

section

variable {R : Variable → Variable → Prop} {pairs log : List (Variable × Variable)}

/-- Two logs with the same keys and related values. -/
def PairsRel (R : Variable → Variable → Prop) (pairs log : List (Variable × Variable)) : Prop :=
  pairs.Forall₂ (fun p q => p.1 = q.1 ∧ R p.2 q.2) log

theorem PairsRel.keys (hrel : PairsRel R pairs log) : pairs.map Prod.fst = log.map Prod.fst := by
  induction hrel with
  | nil => rfl
  | cons h _ ih => rw [List.map_cons, List.map_cons, h.1, ih]

theorem PairsRel.left (hrel : PairsRel R pairs log) {k v : Variable} (hin : (k, v) ∈ pairs) :
    ∃ w, (k, w) ∈ log ∧ R v w := by
  induction hrel with
  | nil => exact absurd hin List.not_mem_nil
  | @cons p q _ _ h _ ih =>
      obtain rfl | hin := List.mem_cons.1 hin
      · exact ⟨q.2, List.mem_cons.2 (.inl (Prod.ext h.1 rfl)), h.2⟩
      · obtain ⟨w, hw, hrel⟩ := ih hin
        exact ⟨w, List.mem_cons_of_mem _ hw, hrel⟩

theorem PairsRel.right (hrel : PairsRel R pairs log) {k w : Variable} (hin : (k, w) ∈ log) :
    ∃ v, (k, v) ∈ pairs := by
  have hkey : k ∈ log.map Prod.fst := List.mem_map_of_mem hin
  rw [← hrel.keys, List.mem_map] at hkey
  obtain ⟨⟨_, v⟩, hv, rfl⟩ := hkey
  exact ⟨v, hv⟩

end

namespace Format

section

variable {heap : Heap} {debug : Addr → Debug} {env : Env} {depth d : Nat} {v : Variable}

/-- The memory behind a value that was read back. -/
structure Restores (heap : Heap) (debug : Addr → Debug) (d : Nat) (v : Variable) (mem mem' : Mem)
    (w : Variable) : Prop where
  inv : mem'.Inv mem.l.heap.next mem (w :: mem.l.stk)
  same : Same heap debug mem'.l.heap mem'.debug mem.l.heap.next d v w
  calm : mem'.Calm

/-- The fields of the value are read back, whatever follows them. -/
def ReadsBack (heap : Heap) (debug : Addr → Debug) (env : Env) (depth d : Nat) (v : Variable) :
    Prop :=
  ∀ mem rest, mem.Calm → mem.l.stk.length + 2 * d ≤ maxStack →
    ∃ n mem' w, item env depth mem (bytesOf (dataFields heap d v) ++ rest) =
      .ok (.done n mem' rest) ∧ Restores heap debug d v mem mem' w

/-- A reading on top of another one. -/
theorem Inv.trans {n : Addr} {m₀ mem mem' : Mem} {S S' : List Variable} (hinv : mem.Inv n m₀ S)
    (hinv' : mem'.Inv mem.l.heap.next mem S') : mem'.Inv n m₀ S' where
  stk := hinv'.stk
  room := hinv.room.trans hinv'.room
  obj := fun a ha => (hinv'.obj a (Nat.lt_of_lt_of_le ha hinv.room)).trans (hinv.obj a ha)
  debug := fun a ha => (hinv'.debug a (Nat.lt_of_lt_of_le ha hinv.room)).trans (hinv.debug a ha)

/-- An object there was stays as it is. -/
theorem Restores.obj {mem mem' : Mem} {w : Variable} (hres : Restores heap debug d v mem mem' w)
    {a : Addr} {obj : Obj} (hobj : mem.l.heap.obj a = some obj) :
    mem'.l.heap.obj a = some obj ∧ mem'.debug a = mem.debug a := by
  have hlt := Heap.lt_next hobj
  exact ⟨(hres.inv.obj a hlt).trans hobj, hres.inv.debug a hlt⟩

theorem elems_readsBack {n₀ o : Addr} {m₀ : Mem} {S later earlier done : List Variable} {mem : Mem}
    (rest : Bytes) (hitem : ∀ e ∈ later, ReadsBack heap debug env depth d e)
    (hinv : mem.Inv n₀ m₀ (.dyay o :: S)) (ho : n₀ ≤ o)
    (hobj : mem.l.heap.obj o = some (.dyay done))
    (hsame : earlier.Forall₂ (Same heap debug mem.l.heap mem.debug (o + 1) d) done)
    (hcalm : mem.Calm) (hroom : S.length + 2 * d < maxStack) :
    ∃ mem' done', elems (item env depth) later.length mem
        (bytesOf (later.flatMap (dataFields heap d)) ++ rest) = .ok (.done () mem' rest) ∧
      mem'.Inv n₀ m₀ (.dyay o :: S) ∧ mem'.l.heap.obj o = some (.dyay done') ∧
      (earlier ++ later).Forall₂ (Same heap debug mem'.l.heap mem'.debug (o + 1) d) done' ∧
      mem'.Calm := by
  induction later generalizing mem earlier done with
  | nil => exact ⟨mem, done, rfl, hinv, hobj, by rwa [List.append_nil], hcalm⟩
  | cons e later ih =>
      have hspace : mem.l.stk.length + 2 * d ≤ maxStack := by
        rw [hinv.stk, List.length_cons]
        omega
      obtain ⟨n, mem₁, w, hrun, hres⟩ := hitem e List.mem_cons_self mem
        (bytesOf (later.flatMap (dataFields heap d)) ++ rest) hcalm hspace
      have hstk : mem₁.l.stk = w :: .dyay o :: S := by rw [hres.inv.stk, hinv.stk]
      have hobj₁ := (hres.obj hobj).1
      have hadd := onHeap_ok hres.calm.quiet (z := bytesOf (later.flatMap (dataFields heap d)) ++ rest)
        (ymdAdd_of_top hstk hobj₁)
      -- the array itself is the only object that changes
      have hset : ∀ a obj, o + 1 ≤ a → mem₁.l.heap.obj a = some obj →
          (mem₁.l.heap.set o (.dyay (done ++ [w]))).obj a = some obj := by
        intro a obj ha h
        rw [Heap.obj_set_of_ne (Nat.ne_of_gt ha), h]
      have hearlier : earlier.Forall₂ (Same heap debug
          (mem₁.l.heap.set o (.dyay (done ++ [w]))) mem₁.debug (o + 1) d) done :=
        hsame.imp fun _ _ h => h.frame le_rfl fun a obj ha hobj =>
          ⟨hset a obj ha (hres.obj hobj).1, (hres.obj hobj).2⟩
      have hw : Same heap debug (mem₁.l.heap.set o (.dyay (done ++ [w]))) mem₁.debug (o + 1) d e w :=
        hres.same.frame (Heap.lt_next hobj) fun a obj ha hobj' =>
          ⟨hset a obj ((Heap.lt_next hobj).trans_le ha) hobj', rfl⟩
      obtain ⟨mem', done', hrest, hinv', hobj', hsame', hcalm'⟩ :=
        ih (fun e he => hitem e (List.mem_cons_of_mem _ he))
          ((Inv.trans hinv hres.inv).store ho (.dyay (done ++ [w])) (.dyay o :: S))
          (Heap.obj_set_self hobj₁) (List.rel_append hearlier (.cons hw .nil))
          ⟨hres.calm.leveled, hres.calm.quiet⟩
      refine ⟨mem', done', ?_, hinv', hobj', by simpa using hsame', hcalm'⟩
      rw [List.length_cons, List.flatMap_cons, bytesOf_append, List.append_assoc, elems,
        bind_of_done hrun, bind_of_done hadd]
      exact hrest

theorem pairs_readsBack {n₀ o : Addr} {m₀ : Mem} {var : Variable} {S : List Variable}
    {later earlier log : List (Variable × Variable)} {mem : Mem} (rest : Bytes)
    (henv : 0 < env.depth) (hvar : var.container = some o)
    (hkeys : ∀ p ∈ later, p.1.IsScalarKey)
    (hitem : ∀ p ∈ later, ReadsBack heap debug env depth d p.1 ∧ ReadsBack heap debug env depth d p.2)
    (hinv : mem.Inv n₀ m₀ (var :: S)) (ho : n₀ ≤ o) (hnext : o < mem.l.heap.next)
    (hstored : Stored mem.l.heap var log)
    (hsame : PairsRel (Same heap debug mem.l.heap mem.debug (o + 1) d) earlier log)
    (hcalm : mem.Calm) (hroom : S.length + 2 + 2 * d ≤ maxStack) :
    ∃ mem' log', pairs env (item env depth) later.length mem
        (bytesOf ((flatPairs later).flatMap (dataFields heap d)) ++ rest) = .ok (.done () mem' rest) ∧
      mem'.Inv n₀ m₀ (var :: S) ∧ Stored mem'.l.heap var log' ∧
      PairsRel (Same heap debug mem'.l.heap mem'.debug (o + 1) d) (earlier ++ later) log' ∧
      mem'.Calm := by
  induction later generalizing mem earlier log with
  | nil => exact ⟨mem, log, rfl, hinv, hstored, by rwa [List.append_nil], hcalm⟩
  | cons p later ih =>
      obtain ⟨key, value⟩ := p
      obtain ⟨hkeyReads, hvalueReads⟩ := hitem _ List.mem_cons_self
      have hscalar : key.IsScalarKey := hkeys _ List.mem_cons_self
      have hspace : mem.l.stk.length + 2 * d ≤ maxStack := by
        rw [hinv.stk, List.length_cons]
        omega
      obtain ⟨n₁, mem₁, k, hrun₁, hres₁⟩ := hkeyReads mem (bytesOf (dataFields heap d value) ++
        (bytesOf ((flatPairs later).flatMap (dataFields heap d)) ++ rest)) hcalm hspace
      obtain rfl := hres₁.same.eq_of_scalar hscalar
      have hspace₁ : mem₁.l.stk.length + 2 * d ≤ maxStack := by
        rw [hres₁.inv.stk, hinv.stk, List.length_cons, List.length_cons]
        omega
      obtain ⟨n₂, mem₂, w, hrun₂, hres₂⟩ := hvalueReads mem₁
        (bytesOf ((flatPairs later).flatMap (dataFields heap d)) ++ rest) hres₁.calm hspace₁
      have hstk : mem₂.l.stk = w :: k :: var :: S := by
        rw [hres₂.inv.stk, hres₁.inv.stk, hinv.stk]
      have hkept : ∀ {a : Addr} {obj : Obj}, mem.l.heap.obj a = some obj →
          mem₂.l.heap.obj a = some obj ∧ mem₂.debug a = mem.debug a := by
        intro a obj hobj
        obtain ⟨hobj₁, hdebug₁⟩ := hres₁.obj hobj
        obtain ⟨hobj₂, hdebug₂⟩ := hres₂.obj hobj₁
        exact ⟨hobj₂, hdebug₂.trans hdebug₁⟩
      have hstored₂ : Stored mem₂.l.heap var log := hstored.frame fun a obj hobj => (hkept hobj).1
      obtain ⟨l, hput, hstk', hlevels', hnext', hstored', hother⟩ :=
        ymdPutf_stored henv hres₂.calm.leveled hstk hscalar hstored₂
      -- the map itself is the only object that changes
      have hset : ∀ a obj, o + 1 ≤ a → mem₂.l.heap.obj a = some obj → l.heap.obj a = some obj := by
        intro a obj ha hobj
        have hne : var.container ≠ some a := by
          rw [hvar]
          exact fun h => Nat.ne_of_lt ha (Option.some.inj h)
        rw [hother a hne, hobj]
      have hearlier : PairsRel (Same heap debug l.heap mem₂.debug (o + 1) d) earlier log :=
        hsame.imp fun _ _ h => ⟨h.1, h.2.frame le_rfl fun a obj ha hobj =>
          ⟨hset a obj ha (hkept hobj).1, (hkept hobj).2⟩⟩
      have hnext₁ : o < mem₁.l.heap.next := hnext.trans_le hres₁.inv.room
      have hw : Same heap debug l.heap mem₂.debug (o + 1) d value w :=
        hres₂.same.frame hnext₁ fun a obj ha hobj => ⟨hset a obj (hnext₁.trans_le ha) hobj, rfl⟩
      have hpair : PairsRel (Same heap debug l.heap mem₂.debug (o + 1) d) [(k, value)] [(k, w)] :=
        .cons ⟨rfl, hw⟩ .nil
      have hinv₂ : mem₂.Inv n₀ m₀ (w :: mem₁.l.stk) :=
        Inv.trans (Inv.trans hinv hres₁.inv) hres₂.inv
      have hinv' : Mem.Inv { mem₂ with l := l } n₀ m₀ (var :: S) := by
        apply hinv₂.step (l := l) hnext'.ge _ hstk'
        intro a ha
        apply hother
        rw [hvar]
        exact fun h => Nat.ne_of_gt (Nat.lt_of_lt_of_le ha ho) (Option.some.inj h)
      obtain ⟨mem', log', hrest, hinv'', hstored'', hsame', hcalm''⟩ :=
        ih (fun p hp => hkeys p (List.mem_cons_of_mem _ hp))
          (fun p hp => hitem p (List.mem_cons_of_mem _ hp)) hinv'
          ((hnext₁.trans_le hres₂.inv.room).trans_le hnext'.ge) hstored'
          (List.rel_append hearlier hpair) ⟨hlevels', hres₂.calm.quiet⟩
      refine ⟨mem', log', ?_, hinv'', hstored'', by simpa using hsame', hcalm''⟩
      have hbytes : bytesOf ((flatPairs ((k, value) :: later)).flatMap (dataFields heap d)) ++ rest =
          bytesOf (dataFields heap d k) ++ (bytesOf (dataFields heap d value) ++
            (bytesOf ((flatPairs later).flatMap (dataFields heap d)) ++ rest)) := by
        change bytesOf ((k :: value :: flatPairs later).flatMap (dataFields heap d)) ++ rest = _
        simp only [List.flatMap_cons, bytesOf_append, List.append_assoc]
      rw [List.length_cons, hbytes, pairs, bind_of_done hrun₁, bind_of_done (plus_of_done 1 hrun₂),
        bind_of_done (onHeap_ok hres₂.calm.quiet hput)]
      exact hrest

/-! ## Values -/

/-- A tag, and what is behind it. -/
theorem item_of_tag {n : Nat} {r : Format Unit} {mem mem' : Mem} {z rest : Bytes}
    (htag : ∀ z, item env (depth + 1) mem (uint32encode (BitVec.ofNat 32 n) ++ z) = sized r mem z)
    (hr : r mem z = .ok (.done () mem' rest)) :
    item env (depth + 1) mem (uint32encode (BitVec.ofNat 32 n) ++ z) =
      .ok (.done (z.length - rest.length) mem' rest) :=
  (htag z).trans (sized_of_done hr)

theorem bytesOf_container (tt n : Nat) (fields : List Field) (rest : Bytes) :
    bytesOf ((Trace.count tt ++ Trace.count n).fields ++ fields) ++ rest =
      uint32encode (BitVec.ofNat 32 tt) ++ (uint32encode (BitVec.ofNat 32 n) ++
        (bytesOf fields ++ rest)) := by
  rw [bytesOf_append, List.append_assoc]
  change uint32encode _ ++ (uint32encode _ ++ []) ++ _ = _
  rw [List.append_nil, List.append_assoc]

theorem bytesOf_pair (n k : Nat) (z : Bytes) :
    bytesOf (Trace.count n ++ Trace.field k z).fields = uint32encode (BitVec.ofNat 32 n) ++ z := by
  change uint32encode _ ++ (z ++ []) = _
  rw [List.append_nil]

theorem readsBack_dyay {o : Addr} (hdata : IsData heap (d + 1) (.dyay o))
    (hitem : ∀ e ∈ heap.parts (.dyay o), ReadsBack heap debug env depth d e) :
    ReadsBack heap debug env (depth + 1) (d + 1) (.dyay o) := by
  intro mem rest hcalm hroom
  obtain ⟨elem, hobj, hlen, _⟩ := hdata
  have hparts : heap.parts (.dyay o) = elem := by simp only [Heap.parts, hobj]
  rw [hparts] at hitem
  have hspace : mem.l.stk.length < maxStack := by omega
  have hnew : ymdDyay mem.l = .ok () { mem.l with
      heap := (mem.l.heap.alloc (.dyay [])).1, stk := .dyay mem.l.heap.next :: mem.l.stk } := by
    rw [ymdDyay, bind_of_ok (gcNew_apply _ mem.l)]
    exact ymdPush_of_lt hspace
  have hinv := (Mem.Inv.refl (m := mem) le_rfl).alloc (.dyay []) (.dyay mem.l.heap.next :: mem.l.stk)
  obtain ⟨mem', done', hrun, hinv', hobj', hsame, hcalm'⟩ := elems_readsBack rest
    hitem hinv le_rfl Heap.obj_alloc_self .nil ⟨hcalm.leveled, hcalm.quiet⟩ (by omega)
  have hdyay : dyay (item env depth) mem (uint32encode (BitVec.ofNat 32 elem.length) ++
      (bytesOf (elem.flatMap (dataFields heap d)) ++ rest)) = .ok (.done () mem' rest) := by
    rw [dyay, bind_of_done varint_count, bind_of_done (onHeap_ok hcalm.quiet hnew), toNat_ofNat_of_lt hlen]
    exact plus_of_done 1 hrun
  have hsame' : Same heap debug mem'.l.heap mem'.debug mem.l.heap.next (d + 1) (.dyay o)
      (.dyay mem.l.heap.next) := by
    refine ⟨le_rfl, elem, done', hobj, hobj', ?_⟩
    exact hsame.imp fun _ _ h => h.frame (Nat.le_succ _) fun a obj _ hobj => ⟨hobj, rfl⟩
  have hfull := item_of_tag (n := 6) (fun z => bind_of_done varint_count) hdyay
  rw [← bytesOf_container, ← hparts] at hfull
  exact ⟨_, mem', _, hfull, hinv', hsame', hcalm'⟩

/-- A hash map with the entries of another one. -/
theorem same_hmap {heap' : Heap} {debug' : Addr → Debug} {lo o o' : Addr} {map : Hmap}
    {log : List (Variable × Variable)} (hobj : heap.obj o = some (.hmap map))
    (hscalar : map.Scalar) (ho' : lo ≤ o') (hstored : Stored heap' (.hmap o') log)
    (hsame : PairsRel (Same heap debug heap' debug' lo d) map.slots log) :
    Same heap debug heap' debug' lo (d + 1) (.hmap o) (.hmap o') := by
  obtain ⟨map', hobj', hrep⟩ := hstored
  have hnodup : (log.map Prod.fst).Nodup := hsame.keys ▸ Hmap.Wf.nodup_slots hscalar
  have hholds : ∀ k w, Hmap.Holds map'.item k w ↔ (k, w) ∈ log := fun k w =>
    (hrep.holds k w).trans (lastStored_eq_some hnodup)
  refine ⟨ho', map, map', hobj, hobj', hrep.wf, fun k => ⟨?_, ?_⟩, fun k v w hv hw => ?_⟩
  · rintro ⟨v, hv⟩
    obtain ⟨w, hw, _⟩ := hsame.left (Hmap.mem_slots.2 hv)
    exact ⟨w, (hholds k w).2 hw⟩
  · rintro ⟨w, hw⟩
    obtain ⟨v, hv⟩ := hsame.right ((hholds k w).1 hw)
    exact ⟨v, Hmap.mem_slots.1 hv⟩
  · obtain ⟨w', hw', hrel⟩ := hsame.left (Hmap.mem_slots.2 hv)
    have hlast := (lastStored_eq_some hnodup).2 ((hholds k w).1 hw)
    rw [(lastStored_eq_some hnodup).2 hw'] at hlast
    exact Option.some.inj hlast ▸ hrel

/-- A skip list with the entries of another one. -/
theorem same_skls {heap' : Heap} {debug' : Addr → Debug} {lo o o' : Addr} {list : Skls}
    {pairs log : List (Variable × Variable)} (hobj : heap.obj o = some (.skls list))
    (hscalar : list.Scalar pairs) (ho' : lo ≤ o') (hstored : Stored heap' (.skls o') log)
    (hsame : PairsRel (Same heap debug heap' debug' lo d) pairs log) :
    Same heap debug heap' debug' lo (d + 1) (.skls o) (.skls o') := by
  obtain ⟨list', cells', hobj', hrep'⟩ := hstored
  obtain ⟨before, cells, hrep, hpairs⟩ := id hscalar
  have hsorted : log.Pairwise fun a b => scalarContent a.1 < scalarContent b.1 := by
    have hkeys := hrep.entries.sorted
    rw [← hpairs] at hkeys
    have hranks : ((pairs.map Prod.fst).map scalarContent).Pairwise (· < ·) := by
      rw [List.map_map]
      exact List.pairwise_map.2 hkeys
    rw [hsame.keys, List.map_map] at hranks
    exact List.pairwise_map.1 hranks
  have hentries : log = cells'.map list'.entry := (SortedLog.self hsorted).unique hrep'.entries
  exact ⟨ho', list, list', pairs, log, hobj, hobj', hscalar.traverse, ⟨log, cells', hrep', hentries⟩,
    hsame⟩

/-- The pairs of a map that is read into a new object. -/
theorem fresh_readsBack (var : Addr → Variable) (hvar : ∀ o, (var o).container = some o) {obj : Obj}
    (hnew : ∀ (heap' : Heap) o, heap'.obj o = some obj → Stored heap' (var o) []) {mem : Mem}
    {entries : List (Variable × Variable)} (rest : Bytes) (henv : 0 < env.depth)
    (hkeys : ∀ p ∈ entries, p.1.IsScalarKey)
    (hitem : ∀ p ∈ entries,
      ReadsBack heap debug env depth d p.1 ∧ ReadsBack heap debug env depth d p.2)
    (hcalm : mem.Calm) (hroom : mem.l.stk.length + 2 * (d + 1) ≤ maxStack) :
    ∃ mem' log, (pairs env (item env depth) entries.length).plus 1
        { mem with l := { mem.l with
          heap := (mem.l.heap.alloc obj).1, stk := var mem.l.heap.next :: mem.l.stk } }
        (bytesOf ((flatPairs entries).flatMap (dataFields heap d)) ++ rest) =
          .ok (.done () mem' rest) ∧
      mem'.Inv mem.l.heap.next mem (var mem.l.heap.next :: mem.l.stk) ∧
      Stored mem'.l.heap (var mem.l.heap.next) log ∧
      PairsRel (Same heap debug mem'.l.heap mem'.debug mem.l.heap.next d) entries log ∧
      mem'.Calm := by
  have hinv := (Mem.Inv.refl (m := mem) le_rfl).alloc obj (var mem.l.heap.next :: mem.l.stk)
  obtain ⟨mem', log, hrun, hinv', hstored, hsame, hcalm'⟩ := pairs_readsBack rest henv
    (hvar _) hkeys hitem hinv le_rfl (Nat.lt_succ_self _) (hnew _ _ Heap.obj_alloc_self) .nil
    ⟨hcalm.leveled, hcalm.quiet⟩ (by omega)
  refine ⟨mem', log, plus_of_done 1 hrun, hinv', hstored, ?_, hcalm'⟩
  exact hsame.imp fun _ _ h =>
    ⟨h.1, h.2.frame (Nat.le_succ _) fun a obj _ hobj => ⟨hobj, rfl⟩⟩

theorem readsBack_hmap {o : Addr} (henv : 0 < env.depth) (hdata : IsData heap (d + 1) (.hmap o))
    (hitem : ∀ e ∈ heap.parts (.hmap o), ReadsBack heap debug env depth d e) :
    ReadsBack heap debug env (depth + 1) (d + 1) (.hmap o) := by
  intro mem rest hcalm hroom
  obtain ⟨map, hobj, hscalar, hlen, _⟩ := hdata
  have hparts : heap.parts (.hmap o) = flatPairs map.slots := by simp only [Heap.parts, hobj]
  rw [hparts] at hitem
  obtain ⟨shift, hshift, hzero⟩ := Hmap.new_spec (show (map.slots.length : Int) < 2 ^ 30 by omega)
  have hkeys : ∀ p ∈ map.slots, p.1.IsScalarKey := by
    rintro ⟨k, v⟩ hp
    obtain ⟨i, hi, rfl, _⟩ := Hmap.mem_slots.1 hp
    exact hscalar.linked.key i hi
  have hnew : ymdHmap map.slots.length mem.l = .ok () { mem.l with
      heap := (mem.l.heap.alloc (.hmap (.zalloc shift))).1
      stk := .hmap mem.l.heap.next :: mem.l.stk } := by
    rw [ymdHmap, Foundation.bind_of_ok (check_of_ok hzero),
      Foundation.bind_of_ok (gcNew_apply _ mem.l)]
    exact ymdPush_of_lt (by change mem.l.stk.length < _; omega)
  obtain ⟨mem', log, hrun, hinv', hstored, hsame, hcalm'⟩ := fresh_readsBack .hmap (fun _ => rfl)
    (fun _ _ h => ⟨_, h, Hmap.Represents.zalloc hshift⟩) rest henv hkeys
    (fun p hp => ⟨hitem _ (mem_flatPairs.2 ⟨p, hp, .inl rfl⟩),
      hitem _ (mem_flatPairs.2 ⟨p, hp, .inr rfl⟩)⟩) hcalm hroom
  have hread : hmap env (item env depth) mem (uint32encode (BitVec.ofNat 32 map.slots.length) ++
      (bytesOf ((flatPairs map.slots).flatMap (dataFields heap d)) ++ rest)) =
        .ok (.done () mem' rest) := by
    rw [hmap, bind_of_done varint_count, toInt_ofNat_of_lt hlen, bind_of_done (onHeap_ok hcalm.quiet hnew),
      Int.toNat_natCast]
    exact hrun
  have hfull := item_of_tag (n := 7) (fun z => bind_of_done varint_count) hread
  have hbytes := bytesOf_container 7 map.slots.length
    ((flatPairs map.slots).flatMap (dataFields heap d)) rest
  have hfields : dataFields heap (d + 1) (.hmap o) =
      (Trace.count 7 ++ Trace.count map.slots.length).fields ++
        (flatPairs map.slots).flatMap (dataFields heap d) := by
    rw [dataFields, hparts, length_flatPairs, Nat.mul_div_cancel_left _ (by decide)]
  rw [← hbytes, ← hfields] at hfull
  exact ⟨_, mem', _, hfull, hinv', same_hmap hobj hscalar le_rfl hstored hsame, hcalm'⟩

theorem readsBack_skls {o : Addr} (henv : 0 < env.depth) (hdata : IsData heap (d + 1) (.skls o))
    (hitem : ∀ e ∈ heap.parts (.skls o), ReadsBack heap debug env depth d e) :
    ReadsBack heap debug env (depth + 1) (d + 1) (.skls o) := by
  intro mem rest hcalm hroom
  obtain ⟨list, entries, hobj, hscalar, hlen, _⟩ := hdata
  have hparts : heap.parts (.skls o) = flatPairs entries := by
    simp only [Heap.parts, hobj, hscalar.traverse]
  rw [hparts] at hitem
  have hkeys : ∀ p ∈ entries, p.1.IsScalarKey := by
    obtain ⟨log, cells, hrep, rfl⟩ := hscalar
    intro p hp
    obtain ⟨c, hc, rfl⟩ := List.mem_map.1 hp
    exact hrep.keys c hc
  have hnew : ymdSkls mem.l = .ok () { mem.l with
      heap := (mem.l.heap.alloc (.skls .new)).1
      stk := .skls mem.l.heap.next :: mem.l.stk } := by
    rw [ymdSkls, Foundation.bind_of_ok (gcNew_apply _ mem.l)]
    exact ymdPush_of_lt (by change mem.l.stk.length < _; omega)
  obtain ⟨mem', log, hrun, hinv', hstored, hsame, hcalm'⟩ := fresh_readsBack .skls (fun _ => rfl)
    (fun _ _ h => ⟨_, _, h, Skls.Represents.new⟩) rest henv hkeys
    (fun p hp => ⟨hitem _ (mem_flatPairs.2 ⟨p, hp, .inl rfl⟩),
      hitem _ (mem_flatPairs.2 ⟨p, hp, .inr rfl⟩)⟩) hcalm hroom
  have hread : skls env (item env depth) mem (uint32encode (BitVec.ofNat 32 entries.length) ++
      (bytesOf ((flatPairs entries).flatMap (dataFields heap d)) ++ rest)) =
        .ok (.done () mem' rest) := by
    rw [skls, bind_of_done varint_count, bind_of_done (onHeap_ok hcalm.quiet hnew), toInt_ofNat_of_lt hlen,
      Int.toNat_natCast]
    exact hrun
  have hfull := item_of_tag (n := 8) (fun z => bind_of_done varint_count) hread
  have hbytes := bytesOf_container 8 entries.length
    ((flatPairs entries).flatMap (dataFields heap d)) rest
  have hfields : dataFields heap (d + 1) (.skls o) =
      (Trace.count 8 ++ Trace.count entries.length).fields ++
        (flatPairs entries).flatMap (dataFields heap d) := by
    rw [dataFields, hparts, length_flatPairs, Nat.mul_div_cancel_left _ (by decide)]
  rw [← hbytes, ← hfields] at hfull
  exact ⟨_, mem', _, hfull, hinv', same_skls hobj hscalar le_rfl hstored hsame, hcalm'⟩

/-- A tag and a scalar. -/
theorem readsBack_scalar {v : Variable} {r : Format Unit} (n : Nat) (behind : Bytes)
    (htag : ∀ mem z, item env (depth + 1) mem (uint32encode (BitVec.ofNat 32 n) ++ z) =
      sized r mem z)
    (hfields : bytesOf (dataFields heap (d + 1) v) = uint32encode (BitVec.ofNat 32 n) ++ behind)
    (hread : ∀ mem rest, mem.Quiet → mem.l.stk.length < maxStack → r mem (behind ++ rest) =
      .ok (.done () { mem with l := { mem.l with stk := v :: mem.l.stk } } rest))
    (hsame : ∀ heap' debug' lo, Same heap debug heap' debug' lo (d + 1) v v) :
    ReadsBack heap debug env (depth + 1) (d + 1) v := by
  intro mem rest hcalm hroom
  have hfull := item_of_tag (htag mem) (hread mem rest hcalm.quiet (by omega))
  rw [← List.append_assoc, ← hfields] at hfull
  exact ⟨_, _, v, hfull, (Mem.Inv.refl le_rfl).restack _, hsame _ _ _,
    ⟨hcalm.leveled, hcalm.quiet⟩⟩

/-- The fields of data are read back. -/
theorem readsBack (henv : 0 < env.depth) (hdata : IsData heap d v) (hle : d ≤ depth) :
    ReadsBack heap debug env depth d v := by
  induction d generalizing depth v with
  | zero => exact hdata.elim
  | succ d ih =>
      obtain ⟨depth, rfl⟩ : ∃ k, depth = k + 1 := ⟨depth - 1, by omega⟩
      have hitem : ∀ e ∈ heap.parts v, ReadsBack heap debug env depth d e := fun e he =>
        ih (hdata.parts e he) (Nat.le_of_succ_le_succ hle)
      have htag : ∀ n mem z, item env (depth + 1) mem (uint32encode (BitVec.ofNat 32 n) ++ z) =
          _ := fun n mem z => bind_of_done varint_count
      cases v with
      | nil =>
          apply readsBack_scalar 0 [] (htag 0) rfl
          · exact fun mem rest _ hroom => machine_push hroom
          · exact fun _ _ _ => trivial
      | int i =>
          apply readsBack_scalar 1 (sint64encode i) (htag 1)
          · exact bytesOf_pair 1 10 _
          · intro mem rest _ hroom
            rw [bind_of_done (varint_of_decode (sint64decode_encode hdata rest))]
            exact machine_push hroom
          · exact fun _ _ _ => rfl
      | bool i =>
          apply readsBack_scalar 2 (uint64encode i) (htag 2)
          · exact bytesOf_pair 2 10 _
          · intro mem rest _ hroom
            rw [bind_of_done (varint_of_decode (uint64decode_encode i rest)), show _ = i from hdata]
            exact machine_push hroom
          · exact fun _ _ _ => rfl
      | kstr z =>
          have hlen : z.length < 2 ^ 30 := Nat.lt_of_le_of_lt hdata (by decide)
          apply readsBack_scalar 4 (uint32encode (BitVec.ofNat 32 z.length) ++ z) (htag 4)
          · change uint32encode _ ++ (uint32encode _ ++ (z ++ [])) = _
            rw [List.append_nil]
          · intro mem rest hquiet hroom
            rw [List.append_assoc]
            exact kstr_of_encode hquiet hlen hroom
          · exact fun _ _ _ => rfl
      | dyay o => exact readsBack_dyay hdata hitem
      | hmap o => exact readsBack_hmap henv hdata hitem
      | skls o => exact readsBack_skls henv hdata hitem
      | _ => exact hdata.elim

end

end Format

end Ymd
