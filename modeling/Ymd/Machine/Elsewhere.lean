import Ymd.Foundation.Errors
import Ymd.Machine.Call
import Ymd.Machine.Stack

/-! # Faults that are not the local area's

What works on values, containers and the operand stack never faults with an index of
the local area.
-/

namespace Ymd

open Foundation

/-- Not a fault with an index that the local area does not have. -/
def Fault.Elsewhere (f : Fault) : Prop := f ≠ .bounds "l->loc"

def Stop.Elsewhere : Stop → Prop
  | .panic _ => True
  | .fault f => f.Elsewhere

theorem elsewhere_assertion (cond : String) : (Fault.assertion cond).Elsewhere := nofun

theorem elsewhere_looping : Fault.looping.Elsewhere := nofun

theorem elsewhere_nesting : Fault.nesting.Elsewhere := nofun

theorem elsewhere_overflow : Fault.overflow.Elsewhere := nofun

theorem elsewhere_bounds {array : String} (h : array ≠ "l->loc") :
    (Fault.bounds array).Elsewhere :=
  fun heq => h (Fault.bounds.inj heq)

/-! ## Hash maps -/

structure KeyOps.Elsewhere (ops : KeyOps) : Prop where
  hash : ∀ k, Raises Fault.Elsewhere (ops.hash k)
  equals : ∀ k k', Raises Fault.Elsewhere (ops.equals k k')
  compare : ∀ k k', Raises Fault.Elsewhere (ops.compare k k')

namespace Hmap

variable {ops : KeyOps} (hops : ops.Elsewhere)

theorem elsewhere_new (count : Int) : Raises Fault.Elsewhere (new count) := by
  have hlog : Raises Fault.Elsewhere (log2x count) := by
    unfold log2x
    split
    · exact .pure _
    · exact .throw (elsewhere_assertion _)
  have hrest : ∀ shift, Raises Fault.Elsewhere
      (if 0 < shift then pure (zalloc shift) else throw (.assertion "shift > 0")) :=
    fun _ => .ite (.pure _) (.throw (elsewhere_assertion _))
  exact .ite ((Raises.pure 5).bind hrest) (hlog.bind hrest)

include hops

theorem elsewhere_hits {n : Nat} (i : Kvi n) (key : Variable) (h : BitVec 64) :
    Raises Fault.Elsewhere (hits ops i key h) :=
  .ite (hops.equals _ _) (.pure false)

theorem elsewhere_search {n : Nat} (item : Fin n → Kvi n) (key : Variable) (h : BitVec 64)
    (fuel : Nat) (i : Fin n) : Raises Fault.Elsewhere (search ops item key h fuel i) := by
  induction fuel generalizing i with
  | zero => exact .throw elsewhere_looping
  | succ fuel ih =>
      refine (elsewhere_hits hops _ key h).bind fun hit => .ite (.pure _) ?_
      split
      · exact .pure _
      · exact ih _

theorem elsewhere_find (map : Hmap) (key : Variable) : Raises Fault.Elsewhere (find ops map key) := by
  refine (hops.hash key).bind fun h => ?_
  dsimp only
  split
  · exact (elsewhere_search hops _ key h _ _).bind fun _ => .pure _
  · exact .pure _
  · exact .pure _

theorem elsewhere_get (map : Hmap) (key : Variable) : Raises Fault.Elsewhere (get ops map key) :=
  .ite (.bind (.throw (elsewhere_assertion _)) fun _ => elsewhere_find hops map key)
    (elsewhere_find hops map key)

omit hops in
theorem elsewhere_prevOf {n : Nat} (item : Fin n → Kvi n) (slot : Fin n) (fuel : Nat)
    (prev : Fin n) : Raises Fault.Elsewhere (prevOf item slot fuel prev) := by
  induction fuel generalizing prev with
  | zero => exact .throw elsewhere_looping
  | succ fuel ih =>
      refine .ite (.pure _) ?_
      split
      · exact .throw (elsewhere_assertion _)
      · exact ih _

section

variable {grow : Grow} (hgrow : ∀ map key, Raises Fault.Elsewhere (grow map key))

include hgrow

theorem elsewhere_indexIfHead (map : Hmap) (key : Variable) (slot : Fin (2 ^ map.shift))
    (h : BitVec 64) : Raises Fault.Elsewhere (indexIfHead ops grow map key slot h) := by
  refine (elsewhere_search hops _ key h _ slot).bind fun x => .ite (.pure _) ?_
  split
  · exact hgrow map key
  · exact .ite (.throw (elsewhere_assertion _)) (.pure _)

theorem elsewhere_indexIfNode (map : Hmap) (key : Variable) (slot : Fin (2 ^ map.shift))
    (h : BitVec 64) : Raises Fault.Elsewhere (indexIfNode ops grow map key slot h) := by
  unfold indexIfNode
  split
  · exact hgrow map key
  · exact (hops.hash _).bind fun _ => (elsewhere_prevOf _ slot _ _).bind fun _ => .pure _

theorem elsewhere_indexWith (map : Hmap) (key : Variable) :
    Raises Fault.Elsewhere (indexWith ops grow map key) := by
  refine (hops.hash key).bind fun h => ?_
  dsimp only
  split
  · exact .pure _
  · exact elsewhere_indexIfHead hops hgrow map key _ h
  · exact elsewhere_indexIfNode hops hgrow map key _ h

theorem elsewhere_putWith (map : Hmap) (key : Variable) :
    Raises Fault.Elsewhere (putWith ops grow map key) := by
  have hindex := (elsewhere_indexWith hops hgrow map key).bind fun x => .pure (x.setKey key)
  exact .ite (.bind (.throw (elsewhere_assertion _)) fun _ => hindex) hindex

theorem elsewhere_rehash {shift : Nat} (bak : Items shift) (is : List (Fin (2 ^ shift)))
    (map : Hmap) : Raises Fault.Elsewhere (rehash ops grow bak is map) := by
  induction is generalizing map with
  | nil => exact .pure map
  | cons i is ih =>
      exact .ite (ih map) ((elsewhere_putWith hops hgrow map _).bind fun pv => ih _)

end

theorem elsewhere_grow (depth : Nat) (map : Hmap) (key : Variable) :
    Raises Fault.Elsewhere (grow ops depth map key) := by
  induction depth generalizing map key with
  | zero => exact .throw elsewhere_nesting
  | succ depth ih =>
      have hresize : Raises Fault.Elsewhere (resizeWith ops (grow ops depth) map (map.shift + 1)) :=
        .ite (elsewhere_rehash hops ih _ _ _) (.throw (elsewhere_assertion _))
      exact hresize.bind fun map => elsewhere_indexWith hops ih map key

theorem elsewhere_put (depth : Nat) (map : Hmap) (key : Variable) :
    Raises Fault.Elsewhere (put ops depth map key) :=
  elsewhere_putWith hops (elsewhere_grow hops depth) map key

end Hmap

/-! ## Skip lists -/

namespace Skls

theorem elsewhere_fwdAt (list : Skls) (x i : Nat) : Raises Fault.Elsewhere (list.fwdAt x i) :=
  .ite (.pure _) (.throw (elsewhere_bounds (by decide)))

theorem elsewhere_setFwd (list : Skls) (x i : Nat) (target : Option Nat) :
    Raises Fault.Elsewhere (list.setFwd x i target) :=
  .ite (.pure _) (.throw (elsewhere_bounds (by decide)))

theorem elsewhere_updateAt (update : Update) (i : Nat) :
    Raises Fault.Elsewhere (updateAt update i) := by
  unfold updateAt
  split
  · exact .ite (.pure _) (.throw (elsewhere_bounds (by decide)))
  · exact .throw (elsewhere_bounds (by decide))

theorem elsewhere_append (list : Skls) (update : Update) (lvl : Nat) :
    Raises Fault.Elsewhere (append list update lvl) := by
  have hlink : ∀ x update list i, Raises Fault.Elsewhere (linkLevel x update list i) :=
    fun x update list i => (elsewhere_updateAt update i).bind fun u =>
      (elsewhere_fwdAt list u i).bind fun y => (elsewhere_setFwd list x i y).bind fun list =>
        elsewhere_setFwd list u i (some x)
  exact (Raises.foldlM (hlink _ _) _ _).bind fun _ => .pure _

theorem elsewhere_traverseFrom (list : Skls) (fuel : Nat) (x : Option Nat) :
    Raises Fault.Elsewhere (list.traverseFrom fuel x) := by
  induction fuel generalizing x with
  | zero =>
      cases x with
      | none => exact .pure _
      | some x => exact .throw elsewhere_looping
  | succ fuel ih =>
      cases x with
      | none => exact .pure _
      | some x => exact (elsewhere_fwdAt list x 0).bind fun y => (ih y).bind fun _ => .pure _

theorem elsewhere_traverse (list : Skls) : Raises Fault.Elsewhere list.traverse :=
  (elsewhere_fwdAt list head 0).bind fun x => elsewhere_traverseFrom list _ x

section

variable {ops : KeyOps} (hops : ops.Elsewhere) (list : Skls) (key : Variable)

include hops

theorem elsewhere_walk (i fuel x : Nat) : Raises Fault.Elsewhere (walk ops list key i fuel x) := by
  induction fuel generalizing x with
  | zero => exact .throw elsewhere_looping
  | succ fuel ih =>
      refine (elsewhere_fwdAt list x i).bind fun y => ?_
      cases y with
      | none => exact .pure _
      | some y => exact (hops.compare _ key).bind fun c => .ite (ih y) (.pure _)

theorem elsewhere_descend (i x : Nat) (update : Update) :
    Raises Fault.Elsewhere (descend ops list key i x update) := by
  induction i generalizing x update with
  | zero => exact .pure _
  | succ i ih => exact (elsewhere_walk hops list key i _ x).bind fun x => ih x _

theorem elsewhere_hit (x : Option Nat) : Raises Fault.Elsewhere (hit ops list key x) := by
  cases x with
  | none => exact .pure _
  | some x => exact (hops.equals _ key).bind fun _ => .pure _

theorem elsewhere_find : Raises Fault.Elsewhere (find ops list key) := by
  refine (elsewhere_descend hops list key _ _ _).bind fun x => ?_
  refine (elsewhere_fwdAt list _ 0).bind fun y => (elsewhere_hit hops list key y).bind fun found => ?_
  cases found with
  | none => exact .pure _
  | some x => exact .pure _

theorem elsewhere_get : Raises Fault.Elsewhere (get ops list key) :=
  .ite (.bind (.throw (elsewhere_assertion _)) fun _ => elsewhere_find hops list key)
    (elsewhere_find hops list key)

theorem elsewhere_index (lvl : Nat) : Raises Fault.Elsewhere (index ops list key lvl) := by
  refine (elsewhere_descend hops list key _ _ _).bind fun x => ?_
  refine (elsewhere_fwdAt list _ 0).bind fun y => (elsewhere_hit hops list key y).bind fun found => ?_
  cases found with
  | none => exact elsewhere_append list _ lvl
  | some x => exact .pure _

theorem elsewhere_put (lvl : Nat) : Raises Fault.Elsewhere (put ops list key lvl) := by
  have hindex := elsewhere_index hops list key lvl
  exact .ite (.bind (.throw (elsewhere_assertion _)) fun _ => hindex.bind fun _ => .pure _)
    (hindex.bind fun _ => .pure _)

end

end Skls

/-! ## Values -/

section

variable {ops : KeyOps} (hops : ops.Elsewhere)

include hops

theorem elsewhere_hashElems (elem : List Variable) (i : Nat) (h : BitVec 64) :
    Raises Fault.Elsewhere (hashElems ops elem i h) := by
  induction i generalizing h with
  | zero => exact .pure h
  | succ i ih => exact (hops.hash _).bind fun _ => ih _

theorem elsewhere_hashEntries (entries : List (Variable × Variable)) (h : BitVec 64) :
    Raises Fault.Elsewhere (hashEntries ops entries h) := by
  induction entries generalizing h with
  | nil => exact .pure h
  | cons entry entries ih => exact (hops.hash _).bind fun _ => (hops.hash _).bind fun _ => ih _

theorem elsewhere_equalElems (pairs : List (Variable × Variable)) :
    Raises Fault.Elsewhere (equalElems ops pairs) := by
  induction pairs with
  | nil => exact .pure true
  | cons pair pairs ih => exact (hops.equals _ _).bind fun _ => .ite ih (.pure false)

theorem elsewhere_dyayEquals (arr rhs : List Variable) :
    Raises Fault.Elsewhere (dyayEquals ops arr rhs) :=
  .ite (elsewhere_equalElems hops _) (.pure false)

theorem elsewhere_equalEntries {find : Variable → Except Fault Variable}
    (hfind : ∀ k, Raises Fault.Elsewhere (find k)) (entries : List (Variable × Variable)) :
    Raises Fault.Elsewhere (equalEntries ops find entries) := by
  induction entries with
  | nil => exact .pure true
  | cons entry entries ih =>
      exact (hfind _).bind fun _ => (hops.equals _ _).bind fun _ => .ite ih (.pure false)

theorem elsewhere_hmapEquals (map rhs : Hmap) : Raises Fault.Elsewhere (hmapEquals ops map rhs) :=
  .ite (.pure false)
    ((elsewhere_equalEntries hops (Hmap.elsewhere_find hops rhs) _).bind fun _ => .pure _)

theorem elsewhere_sklsEquals (list rhs : Skls) :
    Raises Fault.Elsewhere (sklsEquals ops list rhs) :=
  (Skls.elsewhere_traverse rhs).bind fun _ => (Skls.elsewhere_traverse list).bind fun _ =>
    (elsewhere_equalEntries hops (Skls.elsewhere_find hops rhs) _).bind fun _ => .pure _

theorem elsewhere_dyayCompare (arr rhs : List Variable) :
    Raises Fault.Elsewhere (dyayCompare ops arr rhs) := by
  induction arr generalizing rhs with
  | nil => cases rhs <;> exact .pure _
  | cons l arr ih =>
      cases rhs with
      | nil => exact .pure _
      | cons r rhs =>
          refine (hops.compare l r).bind fun _ => .ite (.pure _) ?_
          exact (hops.compare l r).bind fun _ => .ite (.pure _) (ih rhs)

theorem elsewhere_compareEntries {find : Variable → Except Fault Variable}
    (hfind : ∀ k, Raises Fault.Elsewhere (find k)) (entries : List (Variable × Variable)) (rv : Int) :
    Raises Fault.Elsewhere (compareEntries ops find entries rv) := by
  induction entries generalizing rv with
  | nil => exact .pure rv
  | cons entry entries ih => exact (hfind _).bind fun _ => (hops.compare _ _).bind fun _ => ih _

end

section

variable (heap : Heap) (o : Addr)

theorem elsewhere_badCast : Heap.badCast.Elsewhere := elsewhere_assertion _

theorem elsewhere_func : Raises Fault.Elsewhere (heap.func o) := by
  unfold Heap.func
  split
  · exact .pure _
  · exact .throw elsewhere_badCast

theorem elsewhere_dyay : Raises Fault.Elsewhere (heap.dyay o) := by
  unfold Heap.dyay
  split
  · exact .pure _
  · exact .throw elsewhere_badCast

theorem elsewhere_hmap : Raises Fault.Elsewhere (heap.hmap o) := by
  unfold Heap.hmap
  split
  · exact .pure _
  · exact .throw elsewhere_badCast

theorem elsewhere_skls : Raises Fault.Elsewhere (heap.skls o) := by
  unfold Heap.skls
  split
  · exact .pure _
  · exact .throw elsewhere_badCast

theorem elsewhere_mand : Raises Fault.Elsewhere (heap.mand o) := by
  unfold Heap.mand
  split
  · exact .pure _
  · exact .throw elsewhere_badCast

end

theorem elsewhere_valueOps (heap : Heap) (depth : Nat) : (valueOps heap depth).Elsewhere := by
  induction depth with
  | zero =>
      exact ⟨fun _ => .throw elsewhere_nesting, fun _ _ => .throw elsewhere_nesting,
        fun _ _ => .throw elsewhere_nesting⟩
  | succ depth ih =>
      constructor
      case hash =>
        intro v
        cases v with
        | dyay o => exact (elsewhere_dyay heap o).bind fun _ => elsewhere_hashElems ih _ _ _
        | hmap o => exact (elsewhere_hmap heap o).bind fun _ => elsewhere_hashEntries ih _ _
        | skls o =>
            exact (elsewhere_skls heap o).bind fun list =>
              (Skls.elsewhere_traverse list).bind fun _ => elsewhere_hashEntries ih _ _
        | mand o => exact (elsewhere_mand heap o).bind fun _ => .pure _
        | func o => exact .throw (elsewhere_assertion _)
        | _ => exact .pure _
      case equals =>
        intro lhs rhs
        refine .ite (.pure false) ?_
        split
        · exact .pure _
        · exact .ite (.pure _) ((elsewhere_dyay heap _).bind fun _ =>
            (elsewhere_dyay heap _).bind fun _ => elsewhere_dyayEquals ih _ _)
        · exact .ite (.pure _) ((elsewhere_hmap heap _).bind fun _ =>
            (elsewhere_hmap heap _).bind fun _ => elsewhere_hmapEquals ih _ _)
        · exact .ite (.pure _) ((elsewhere_skls heap _).bind fun _ =>
            (elsewhere_skls heap _).bind fun _ => elsewhere_sklsEquals ih _ _)
        · exact .throw (elsewhere_assertion _)
        · exact .pure _
      case compare =>
        intro lhs rhs
        refine .ite (.pure _) ?_
        split
        · exact .pure _
        · exact .pure _
        · exact .pure _
        · exact .pure _
        · exact .pure _
        · exact .ite (.pure _) ((elsewhere_dyay heap _).bind fun _ =>
            (elsewhere_dyay heap _).bind fun _ => elsewhere_dyayCompare ih _ _)
        · exact .ite (.pure _) ((elsewhere_hmap heap _).bind fun map =>
            (elsewhere_hmap heap _).bind fun _ =>
              elsewhere_compareEntries ih (Hmap.elsewhere_find ih _) _ _)
        · exact .ite (.pure _) ((elsewhere_skls heap _).bind fun list =>
            (elsewhere_skls heap _).bind fun rhs => (Skls.elsewhere_traverse _).bind fun _ =>
              elsewhere_compareEntries ih (Skls.elsewhere_find ih _) _ _)
        · exact .throw (elsewhere_assertion _)

/-! ## Operators -/

theorem elsewhere_panic (msg : Bytes) : (Stop.panic msg).Elsewhere := trivial

theorem elsewhere_intOf (v : Variable) : Raises Stop.Elsewhere (intOf v) := by
  cases v <;> first
    | exact .pure _
    | exact .throw (elsewhere_panic _)

theorem elsewhere_kstrOf (v : Variable) : Raises Stop.Elsewhere (kstrOf v) := by
  cases v <;> first
    | exact .pure _
    | exact .throw (elsewhere_panic _)

theorem elsewhere_funcOf (v : Variable) : Raises Stop.Elsewhere (funcOf v) := by
  cases v <;> first
    | exact .pure _
    | exact .throw (elsewhere_panic _)

theorem elsewhere_arith (f : YmdInt → YmdInt → YmdInt) (rhs lhs : Variable) :
    Raises Stop.Elsewhere (arith f rhs lhs) :=
  (elsewhere_intOf rhs).bind fun _ => (elsewhere_intOf lhs).bind fun _ => .pure _

theorem elsewhere_opAdd (rhs lhs : Variable) : Raises Stop.Elsewhere (opAdd rhs lhs) := by
  cases rhs <;> first
    | exact (elsewhere_intOf lhs).bind fun _ => .pure _
    | exact (elsewhere_kstrOf lhs).bind fun _ => .pure _
    | exact .throw (elsewhere_panic _)

theorem elsewhere_quotient (f : YmdInt → YmdInt → YmdInt) (opd1 opd2 : YmdInt) :
    Raises Stop.Elsewhere (quotient f opd1 opd2) :=
  .ite (.throw elsewhere_overflow) (.pure _)

theorem elsewhere_opDiv (rhs lhs : Variable) : Raises Stop.Elsewhere (opDiv rhs lhs) :=
  (elsewhere_intOf lhs).bind fun _ => .ite (.throw (elsewhere_panic _))
    ((elsewhere_intOf rhs).bind fun _ => elsewhere_quotient _ _ _)

theorem elsewhere_opMod (rhs lhs : Variable) : Raises Stop.Elsewhere (opMod rhs lhs) :=
  (elsewhere_intOf lhs).bind fun _ => .ite (.throw (elsewhere_panic _))
    ((elsewhere_intOf rhs).bind fun _ => elsewhere_quotient _ _ _)

theorem elsewhere_opPow (rhs lhs : Variable) : Raises Stop.Elsewhere (opPow rhs lhs) :=
  (elsewhere_intOf rhs).bind fun _ => (elsewhere_intOf lhs).bind fun _ =>
    .ite (.throw (elsewhere_panic _)) (.ite (.pure _) (.pure _))

theorem elsewhere_opShift (flag : BitVec 8) (rhs lhs : Variable) :
    Raises Stop.Elsewhere (opShift flag rhs lhs) := by
  refine (elsewhere_intOf lhs).bind fun _ => .ite (.throw (elsewhere_panic _)) ?_
  refine (elsewhere_intOf rhs).bind fun _ => ?_
  exact .ite (.pure _) (.ite (.pure _) (.ite (.pure _) (.throw (elsewhere_assertion _))))

theorem elsewhere_opInvb (v : Variable) : Raises Stop.Elsewhere (opInvb v) := by
  cases v <;> first
    | exact .pure _
    | exact .throw (elsewhere_bounds (by decide))

theorem elsewhere_opInv (v : Variable) : Raises Stop.Elsewhere (opInv v) :=
  (elsewhere_intOf v).bind fun _ => .pure _

/-! ## The operand stack and the objects -/

/-- Whatever the machine is like, the computation does not fault at the local area. -/
abbrev Elsewhere {α : Type} (x : VmM α) : Prop := Throws Stop.Elsewhere x

theorem elsewhere_lift {α : Type} {x : Partial α} (hx : Raises Stop.Elsewhere x) :
    Elsewhere (lift x) := by
  cases x with
  | ok a => exact .pure a
  | error stop => exact .throw (hx stop rfl)

theorem elsewhere_check {α : Type} {x : Except Fault α} (hx : Raises Fault.Elsewhere x) :
    Elsewhere (check x) := by
  cases x with
  | ok a => exact .pure a
  | error f => exact .throw (hx f rfl)

theorem elsewhere_ymdPush (v : Variable) : Elsewhere (ymdPush v) :=
  Throws.get.bind fun _ => .ite (.bind (.throw (elsewhere_panic _)) fun _ => .set _) (.set _)

theorem elsewhere_ymdTop (i : Nat) : Elsewhere (ymdTop i) := by
  intro l
  cases hv : l.stk[i]? with
  | some v => exact .of_ok (ymdTop_of_getElem? hv)
  | none =>
      obtain ⟨msg, hmsg⟩ := ymdTop_of_none hv
      exact .of_error hmsg (elsewhere_panic msg)

theorem elsewhere_setTop (i : Nat) (v : Variable) : Elsewhere (setTop i v) :=
  (elsewhere_ymdTop i).bind fun _ => .modify _

theorem elsewhere_ymdPop (n : Nat) : Elsewhere (ymdPop n) := by
  have hlast : ∀ l : Ctx, Elsewhere (do
      if l.stk.length < n then panic "Bad pop!"
      set { l with stk := l.stk.drop n }) :=
    fun l => .ite (.bind (.throw (elsewhere_panic _)) fun _ => .set _) (.set _)
  exact Throws.get.bind fun l =>
    .ite (.bind (.throw (elsewhere_panic _)) fun _ => hlast l) (hlast l)

theorem elsewhere_pushNils (n : Nat) : Elsewhere (pushNils n) := by
  induction n with
  | zero => exact .pure ()
  | succ n ih => exact (elsewhere_ymdPush .nil).bind fun _ => ih

theorem elsewhere_ymdAdjust (adjust : Nat) (ret : Int) : Elsewhere (ymdAdjust adjust ret) :=
  .ite (elsewhere_ymdPop _) (elsewhere_pushNils _)

theorem elsewhere_storeObj (o : Addr) (obj : Obj) : Elsewhere (storeObj o obj) := .modify _

theorem elsewhere_gcNew (obj : Obj) : Elsewhere (gcNew obj) :=
  Throws.get.bind fun _ => (Throws.set _).bind fun _ => .pure _

theorem elsewhere_randlv : Elsewhere randlv :=
  Throws.get.bind fun _ => (Throws.set _).bind fun _ => .pure _

section

variable (env : Env)

/-- What is done with `hash`, `equals` and `compare` of the values there are. -/
theorem elsewhere_keyOps {α : Type} {f : KeyOps → VmM α}
    (hf : ∀ ops : KeyOps, ops.Elsewhere → Elsewhere (f ops)) : Elsewhere (keyOps env >>= f) :=
  fun l => hf _ (elsewhere_valueOps l.heap env.depth) l

theorem elsewhere_hmapPut (o : Addr) (key : Variable) : Elsewhere (hmapPut env o key) :=
  Throws.get.bind fun l => (elsewhere_check (elsewhere_hmap l.heap o)).bind fun map =>
    elsewhere_keyOps env fun _ hops =>
      (elsewhere_check (Hmap.elsewhere_put hops env.depth map key)).bind fun _ =>
        (elsewhere_storeObj _ _).bind fun _ => .pure _

theorem elsewhere_sklsPut (o : Addr) (key : Variable) : Elsewhere (sklsPut env o key) :=
  Throws.get.bind fun l => (elsewhere_check (elsewhere_skls l.heap o)).bind fun list =>
    elsewhere_keyOps env fun _ hops => elsewhere_randlv.bind fun lvl =>
      (elsewhere_check (Skls.elsewhere_put hops list key lvl)).bind fun _ =>
        (elsewhere_storeObj _ _).bind fun _ => .pure _

theorem elsewhere_hmapGet (o : Addr) (key : Variable) : Elsewhere (hmapGet env o key) :=
  Throws.get.bind fun l => (elsewhere_check (elsewhere_hmap l.heap o)).bind fun map =>
    elsewhere_keyOps env fun _ hops => elsewhere_check (Hmap.elsewhere_get hops map key)

theorem elsewhere_sklsGet (o : Addr) (key : Variable) : Elsewhere (sklsGet env o key) :=
  Throws.get.bind fun l => (elsewhere_check (elsewhere_skls l.heap o)).bind fun list =>
    elsewhere_keyOps env fun _ hops => elsewhere_check (Skls.elsewhere_get hops list key)

theorem elsewhere_protoOf (o : Addr) : Elsewhere (protoOf o) := by
  refine Throws.get.bind fun l => (elsewhere_check (elsewhere_mand l.heap o)).bind fun m => ?_
  cases m.proto with
  | none => exact .throw (elsewhere_panic _)
  | some proto =>
      cases hobj : l.heap.obj proto with
      | none =>
          simp only [hobj]
          exact .throw elsewhere_badCast
      | some obj =>
          simp only [hobj]
          exact .pure _

theorem elsewhere_vmGetOn (var key : Variable) : Elsewhere (vmGetOn env var key) := by
  cases var with
  | skls o => exact elsewhere_sklsGet env o key
  | hmap o => exact elsewhere_hmapGet env o key
  | dyay o =>
      exact Throws.get.bind fun l => (elsewhere_check (elsewhere_dyay l.heap o)).bind fun _ =>
        (elsewhere_lift (elsewhere_intOf key)).bind fun _ =>
          .ite (.throw (elsewhere_panic _)) (.pure _)
  | mand o =>
      refine (elsewhere_protoOf o).bind fun proto => ?_
      rcases proto with ⟨proto, obj⟩
      cases obj with
      | hmap map => exact elsewhere_hmapGet env proto key
      | skls list => exact elsewhere_sklsGet env proto key
      | _ => exact .throw (elsewhere_assertion _)
  | _ => exact .throw (elsewhere_panic _)

theorem elsewhere_vmGet (var key : Variable) : Elsewhere (vmGet env var key) :=
  .ite (.bind (.throw (elsewhere_panic _)) fun _ => elsewhere_vmGetOn env var key)
    (elsewhere_vmGetOn env var key)

omit env in
theorem elsewhere_checkValue (v : Variable) : Elsewhere (checkValue v) :=
  .ite (.throw (elsewhere_panic _)) (.pure ())

theorem elsewhere_hmapIput (o : Addr) (key v : Variable) : Elsewhere (hmapIput env o key v) :=
  (elsewhere_hmapPut env o key).bind fun _ => (elsewhere_checkValue v).bind fun _ =>
    elsewhere_storeObj _ _

theorem elsewhere_sklsIput (o : Addr) (key v : Variable) : Elsewhere (sklsIput env o key v) :=
  (elsewhere_sklsPut env o key).bind fun _ => (elsewhere_checkValue v).bind fun _ =>
    elsewhere_storeObj _ _

omit env in
theorem elsewhere_dyayIput (o : Addr) (key v : Variable) : Elsewhere (dyayIput o key v) :=
  Throws.get.bind fun l => (elsewhere_check (elsewhere_dyay l.heap o)).bind fun _ =>
    (elsewhere_lift (elsewhere_intOf key)).bind fun _ => .ite (.throw (elsewhere_assertion _))
      ((elsewhere_checkValue v).bind fun _ => elsewhere_storeObj _ _)

theorem elsewhere_vmIputOn (var key v : Variable) : Elsewhere (vmIputOn env var key v) := by
  cases var with
  | skls o => exact elsewhere_sklsIput env o key v
  | hmap o => exact elsewhere_hmapIput env o key v
  | dyay o => exact elsewhere_dyayIput o key v
  | mand o =>
      refine (elsewhere_protoOf o).bind fun proto => ?_
      rcases proto with ⟨proto, obj⟩
      cases obj with
      | hmap map => exact elsewhere_hmapIput env proto key v
      | skls list => exact elsewhere_sklsIput env proto key v
      | _ => exact .throw (elsewhere_assertion _)
  | _ => exact .throw (elsewhere_panic _)

theorem elsewhere_vmIput (var key v : Variable) : Elsewhere (vmIput env var key v) :=
  .ite (.bind (.throw (elsewhere_panic _)) fun _ => elsewhere_vmIputOn env var key v)
    (elsewhere_vmIputOn env var key v)

end

/-! ## Instructions -/

theorem elsewhere_ymdCalled : Elsewhere ymdCalled := by
  refine Throws.get.bind fun l => ?_
  cases l.info with
  | nil => exact .throw (elsewhere_assertion _)
  | cons info chain => exact .pure info

theorem elsewhere_funcAt (o : Addr) : Elsewhere (funcAt o) :=
  Throws.get.bind fun l => elsewhere_check (elsewhere_func l.heap o)

theorem elsewhere_coreOf (fn : Func) : Elsewhere (coreOf fn) := by
  unfold coreOf
  cases fn.core with
  | none => exact .throw (elsewhere_assertion _)
  | some core => exact .pure core

theorem elsewhere_kvalAt (core : Chunk) (i : Nat) : Elsewhere (kvalAt core i) := by
  unfold kvalAt
  cases core.kval[i]? with
  | none => exact .throw (elsewhere_bounds (by decide))
  | some v => exact .pure v

theorem elsewhere_doKeyz (core : Chunk) (i : Nat) : Elsewhere (doKeyz core i) := by
  unfold doKeyz
  cases core.kval[i]? with
  | none => exact .throw (elsewhere_assertion _)
  | some v => cases v <;> first | exact .pure _ | exact .throw (elsewhere_assertion _)

theorem elsewhere_implJump (pc : Nat) (flag : BitVec 8) (param : Nat) :
    Elsewhere (implJump pc flag param) :=
  .ite (.pure _) (.ite (.ite (.pure _) (.throw (elsewhere_bounds (by decide))))
    (.throw (elsewhere_assertion _)))

theorem elsewhere_binaryInst {f : Variable → Variable → VmM Variable}
    (hf : ∀ rhs lhs, Elsewhere (f rhs lhs)) : Elsewhere (binaryInst f) :=
  (elsewhere_ymdTop 1).bind fun rhs => (elsewhere_ymdTop 0).bind fun lhs =>
    (hf rhs lhs).bind fun v => (elsewhere_setTop 1 v).bind fun _ => elsewhere_ymdPop 1

theorem elsewhere_unaryInst {f : Variable → VmM Variable} (hf : ∀ v, Elsewhere (f v)) :
    Elsewhere (unaryInst f) :=
  (elsewhere_ymdTop 0).bind fun v => (hf v).bind fun v => elsewhere_setTop 0 v

theorem elsewhere_testJump (info : CallInfo) (flag : BitVec 8) (param : Nat) (keeps : Bool)
    (jumps : Variable → Bool) : Elsewhere (testJump info flag param keeps jumps) := by
  refine (elsewhere_ymdTop 0).bind fun v => .ite ?_ ((elsewhere_ymdPop 1).bind fun _ => .pure _)
  refine (elsewhere_implJump _ _ _).bind fun target => ?_
  exact .ite ((elsewhere_ymdPop 1).bind fun _ => .pure target) (.pure target)

theorem elsewhere_checkPair (k v : Variable) : Elsewhere (checkPair k v) :=
  .ite ((elsewhere_checkValue k).bind fun _ => elsewhere_checkValue v) (elsewhere_checkValue v)

theorem elsewhere_dyaElems (n : Nat) : Elsewhere (dyaElems n) := by
  induction n with
  | zero => exact .pure _
  | succ n ih =>
      exact (elsewhere_ymdTop n).bind fun v => (elsewhere_checkValue v).bind fun _ =>
        ih.bind fun _ => .pure _

theorem elsewhere_funcBind (fn : Func) (i : Nat) (v : Variable) :
    Raises Fault.Elsewhere (funcBind fn i v) :=
  .ite (.pure _) (.throw (elsewhere_assertion _))

theorem elsewhere_bindAll (param n : Nat) (copied : Func) : Elsewhere (bindAll param n copied) := by
  induction n generalizing copied with
  | zero => exact .pure _
  | succ n ih =>
      exact (elsewhere_ymdTop n).bind fun v =>
        (elsewhere_check (elsewhere_funcBind copied _ v)).bind fun copied => ih copied

theorem elsewhere_instBind (param : Nat) : Elsewhere (instBind param) := by
  refine (elsewhere_ymdTop param).bind fun opd => (elsewhere_lift (elsewhere_funcOf opd)).bind fun o => ?_
  refine (elsewhere_funcAt o).bind fun fn => ?_
  have hclone : Raises Fault.Elsewhere (funcClone fn) :=
    .ite (.pure _) (.throw (elsewhere_assertion _))
  refine (elsewhere_check hclone).bind fun copied => ?_
  have hrest : Elsewhere (bindAll param param copied >>= fun copied =>
      gcNew (.func copied) >>= fun o => setTop param (.func o) >>= fun _ => ymdPop param) :=
    (elsewhere_bindAll param param copied).bind fun copied => (elsewhere_gcNew _).bind fun o =>
      (elsewhere_setTop param _).bind fun _ => elsewhere_ymdPop param
  exact .ite (.bind (.throw (elsewhere_assertion _)) fun _ => hrest) hrest

section

variable (env : Env)

theorem elsewhere_vmMatch (lhs pattern : Bytes) : Elsewhere (vmMatch env lhs pattern) := by
  unfold vmMatch
  cases env.regex lhs pattern with
  | ok b => exact .pure b
  | error msg => exact .throw (elsewhere_panic _)

theorem elsewhere_opTest (flag : BitVec 8) (rhs lhs : Variable) :
    Elsewhere (opTest env flag rhs lhs) := by
  have htest : ∀ {α : Type} {x : Except Fault α} (f : α → Bool), Raises Fault.Elsewhere x →
      Elsewhere (do return boolVar (f (← check x)) : VmM Variable) :=
    fun f hx => (elsewhere_check hx).bind fun _ => .pure _
  refine elsewhere_keyOps env fun ops hops => ?_
  refine .ite (htest id (hops.equals _ _)) (.ite (htest Bool.not (hops.equals _ _)) ?_)
  refine .ite (htest _ (hops.compare _ _)) (.ite (htest _ (hops.compare _ _)) ?_)
  refine .ite (htest _ (hops.compare _ _)) (.ite (htest _ (hops.compare _ _)) ?_)
  exact .ite ((elsewhere_lift (elsewhere_kstrOf rhs)).bind fun _ =>
    (elsewhere_lift (elsewhere_kstrOf lhs)).bind fun _ => (elsewhere_vmMatch env _ _).bind fun _ =>
      .pure _) (.throw (elsewhere_assertion _))

theorem elsewhere_vmIgetg (core : Chunk) (i : Nat) : Elsewhere (vmIgetg env core i) :=
  Throws.get.bind fun _ => (elsewhere_doKeyz core i).bind fun _ => elsewhere_hmapGet env _ _

theorem elsewhere_vmIputg (core : Chunk) (i : Nat) (v : Variable) :
    Elsewhere (vmIputg env core i v) :=
  Throws.get.bind fun _ => (elsewhere_doKeyz core i).bind fun _ =>
    (elsewhere_hmapPut env _ _).bind fun _ => elsewhere_storeObj _ _

theorem elsewhere_setPairs (var : Variable) (param n : Nat) :
    Elsewhere (setPairs env var param n) := by
  induction n with
  | zero => exact .pure _
  | succ n ih =>
      exact (elsewhere_ymdTop _).bind fun k => (elsewhere_ymdTop _).bind fun v =>
        (elsewhere_vmIput env var k v).bind fun _ => ih

theorem elsewhere_instSetf (core : Chunk) (flag : BitVec 8) (param : Nat) :
    Elsewhere (instSetf env core flag param) :=
  .ite
    ((elsewhere_ymdTop _).bind fun var => (elsewhere_setPairs env var param param).bind fun _ =>
      elsewhere_ymdPop _)
    (.ite
      ((elsewhere_ymdTop 1).bind fun var => (elsewhere_kvalAt core param).bind fun k =>
        (elsewhere_ymdTop 0).bind fun v => (elsewhere_vmIput env var k v).bind fun _ =>
          elsewhere_ymdPop 2)
      (.throw (elsewhere_assertion _)))

theorem elsewhere_instGetf (core : Chunk) (flag : BitVec 8) (param : Nat) :
    Elsewhere (instGetf env core flag param) :=
  .ite
    ((elsewhere_ymdTop 0).bind fun k => (elsewhere_ymdTop 1).bind fun var =>
      (elsewhere_vmGet env var k).bind fun v => (elsewhere_ymdPop 2).bind fun _ => elsewhere_ymdPush v)
    (.ite
      ((elsewhere_ymdTop 0).bind fun var => (elsewhere_kvalAt core param).bind fun k =>
        (elsewhere_vmGet env var k).bind fun v => elsewhere_setTop 0 v)
      (.throw (elsewhere_assertion _)))

theorem elsewhere_mapPairs (param n : Nat) (map : Hmap) : Elsewhere (mapPairs env param n map) := by
  induction n generalizing map with
  | zero => exact .pure map
  | succ n ih =>
      exact (elsewhere_ymdTop _).bind fun k => (elsewhere_ymdTop _).bind fun v =>
        (elsewhere_checkPair k v).bind fun _ => elsewhere_keyOps env fun _ hops =>
          (elsewhere_check (Hmap.elsewhere_put hops env.depth map k)).bind fun x => ih _

theorem elsewhere_sklPairs (param n : Nat) (list : Skls) :
    Elsewhere (sklPairs env param n list) := by
  induction n generalizing list with
  | zero => exact .pure list
  | succ n ih =>
      exact (elsewhere_ymdTop _).bind fun k => (elsewhere_ymdTop _).bind fun v =>
        (elsewhere_checkPair k v).bind fun _ => elsewhere_keyOps env fun _ hops =>
          elsewhere_randlv.bind fun lvl =>
            (elsewhere_check (Skls.elsewhere_put hops list k lvl)).bind fun x => ih _

end

end Ymd
