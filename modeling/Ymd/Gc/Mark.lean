import Ymd.Gc.Memory
import Ymd.Foundation.Marking

/-! # The mark phase

The `gc_mark_` functions of `memory.c`. Where what is reached from the roots is
sound, a mark phase ends and blackens exactly what is reached.
-/

namespace Ymd.Gc

open Foundation

namespace Vm

variable (vm : Vm)

/-! ## The functions -/

/-- `z->marked |= GC_BLACK_BIT0` of a string. -/
def markKstr (z : Addr) (m : Addr → BitVec 16) : Except Fault (Addr → BitVec 16) := do
  let _ ← vm.kstr z
  return blacken z m

def markKstrs : List Addr → (Addr → BitVec 16) → Except Fault (Addr → BitVec 16)
  | [], m => return m
  | z :: rest, m => do markKstrs rest (← vm.markKstr z m)

section

variable (markVar : Variable → (Addr → BitVec 16) → Except Fault (Addr → BitVec 16))

/-- A loop over variables: those that are not marked are visited. -/
def markEach : List Variable → (Addr → BitVec 16) → Except Fault (Addr → BitVec 16)
  | [], m => return m
  | var :: rest, m => do
      if Gc.marked m var blackBit0 then markEach rest m else markEach rest (← markVar var m)

/-- `gc_mark_dyay`. -/
def gcMarkDyay (o : Addr) (m : Addr → BitVec 16) : Except Fault (Addr → BitVec 16) := do
  let elem ← vm.dyay o
  markEach markVar elem (blacken o m)

/-- Keys and values of the slots that are in use. -/
def slots (item : List Kvi) : List Variable :=
  (item.filter (·.flag ≠ 0)).flatMap fun i => [i.k, i.v]

/-- `gc_mark_hmap`. -/
def gcMarkHmap (o : Addr) (m : Addr → BitVec 16) : Except Fault (Addr → BitVec 16) := do
  let item ← vm.hmap o
  markEach markVar (slots item) (blacken o m)

/-- Keys and values of the nodes. -/
def nodes (node : List (Variable × Variable)) : List Variable := node.flatMap fun i => [i.1, i.2]

/-- `gc_mark_skls`. -/
def gcMarkSkls (o : Addr) (m : Addr → BitVec 16) : Except Fault (Addr → BitVec 16) := do
  let node ← vm.skls o
  markEach markVar (nodes node) (blacken o m)

/-- `gc_mark_mand`. -/
def gcMarkMand (o : Addr) (m : Addr → BitVec 16) : Except Fault (Addr → BitVec 16) := do
  let proto ← vm.mandProto o
  let m := blacken o m
  match proto with
  | none => return m
  | some proto =>
      if hasBits m proto blackBit0 then return m
      else
        match vm.obj proto with
        | some (.hmap _) => gcMarkHmap vm markVar proto m
        | some (.skls _) => gcMarkSkls vm markVar proto m
        | _ => throw (.assertion "0")

/-- The arguments of `gc_mark_func`. -/
def gcMarkArgv (argv : Option Addr) (m : Addr → BitVec 16) : Except Fault (Addr → BitVec 16) :=
  match argv with
  | none => return m
  | some argv => if hasBits m argv blackBit0 then return m else gcMarkDyay vm markVar argv m

/-- The chunk of `gc_mark_func`. -/
def gcMarkCore (core : Option Addr) (m : Addr → BitVec 16) : Except Fault (Addr → BitVec 16) :=
  match core with
  | none => return m
  | some c => do
      let core ← vm.core c
      let m ← vm.markKstr core.file m
      let m ← vm.markKstrs core.lz m
      markEach markVar core.kval m

/-- `gc_mark_func`. -/
def gcMarkFunc (o : Addr) (m : Addr → BitVec 16) : Except Fault (Addr → BitVec 16) := do
  let fn ← vm.func o
  let m ← vm.markKstr fn.proto (blacken o m)
  let m ← gcMarkArgv vm markVar fn.argv m
  let m ← markEach markVar (fn.bind.take fn.nBind) m
  gcMarkCore vm markVar fn.core m

end

/-- `gc_mark_var`; `depth` bounds the nested calls. -/
def gcMarkVar : (depth : Nat) → Variable → (Addr → BitVec 16) → Except Fault (Addr → BitVec 16)
  | 0, _, _ => throw .nesting
  | depth + 1, var, m =>
      match var with
      | .kstr o => vm.markKstr o m
      | .mand o => gcMarkMand vm (gcMarkVar depth) o m
      | .func o => gcMarkFunc vm (gcMarkVar depth) o m
      | .dyay o => gcMarkDyay vm (gcMarkVar depth) o m
      | .hmap o => gcMarkHmap vm (gcMarkVar depth) o m
      | .skls o => gcMarkSkls vm (gcMarkVar depth) o m
      | .nil | .int _ | .bool _ | .ext _ => return m

/-- The locals from `l->loc` up to the end of the window of the running frame. -/
def locals : Except Fault (List Variable) :=
  match vm.info with
  | [] => pure []
  | i :: _ => do
      let k := i.loc + (← vm.funcNlocal (← vm.func i.run))
      if 0 ≤ k ∧ k ≤ vm.loc.length then pure (vm.loc.take k.toNat) else throw (.bounds "l->loc")

/-- The loop of `gc_mark` over the frames. -/
def markFrames (markVar : Variable → (Addr → BitVec 16) → Except Fault (Addr → BitVec 16)) :
    List CallInfo → (Addr → BitVec 16) → Except Fault (Addr → BitVec 16)
  | [], m => return m
  | i :: chain, m => do
      if hasBits m i.run blackBit0 then markFrames markVar chain m
      else markFrames markVar chain (← gcMarkFunc vm markVar i.run m)

/-- `gc_mark`. -/
def gcMark (depth : Nat) : Except Fault Vm := do
  let markVar := vm.gcMarkVar depth
  let m ← gcMarkHmap vm markVar vm.global vm.marked
  let m ← markEach markVar (← vm.locals) m
  let m ← markFrames vm markVar vm.info m
  let m ← markEach markVar vm.stk m
  return { vm with marked := m }

/-! ## The graph -/

/-- The objects an object refers to. -/
def kids (a : Addr) : List Addr :=
  match vm.obj a with
  | some (.func fn) => fn.proto :: (fn.argv.toList ++
      ((fn.bind.take fn.nBind).filterMap Variable.ref ++
        match fn.core.bind vm.chunk with
        | some core => core.file :: (core.lz ++ core.kval.filterMap Variable.ref)
        | none => []))
  | some (.dyay elem) => elem.filterMap Variable.ref
  | some (.hmap item) => (slots item).filterMap Variable.ref
  | some (.skls node) => (nodes node).filterMap Variable.ref
  | some (.mand proto _ _) => proto.toList
  | _ => []

/-- A variable that refers to an object of its type. -/
def Typed : Variable → Prop
  | .kstr o => ∃ z, vm.kstr o = .ok z
  | .func o => ∃ fn, vm.func o = .ok fn
  | .dyay o => ∃ elem, vm.dyay o = .ok elem
  | .hmap o => ∃ item, vm.hmap o = .ok item
  | .skls o => ∃ node, vm.skls o = .ok node
  | .mand o => ∃ proto, vm.mandProto o = .ok proto
  | _ => True

/-- An object whose references are typed. -/
def Sound (a : Addr) : Prop :=
  match vm.obj a with
  | none => False
  | some (.kstr _ _) => True
  | some (.func fn) => vm.Typed (.kstr fn.proto) ∧ (∀ o ∈ fn.argv, vm.Typed (.dyay o)) ∧
      (∀ var ∈ fn.bind.take fn.nBind, vm.Typed var) ∧
      ∀ c ∈ fn.core, ∃ core, vm.chunk c = some core ∧ vm.Typed (.kstr core.file) ∧
        (∀ z ∈ core.lz, vm.Typed (.kstr z)) ∧ ∀ var ∈ core.kval, vm.Typed var
  | some (.dyay elem) => ∀ var ∈ elem, vm.Typed var
  | some (.hmap item) => ∀ var ∈ slots item, vm.Typed var
  | some (.skls node) => ∀ var ∈ nodes node, vm.Typed var
  | some (.mand proto _ _) => ∀ p ∈ proto, vm.Typed (.hmap p) ∨ vm.Typed (.skls p)

/-- The objects the roots refer to: the global map, the locals, the functions
on the call chain and the operand stack. -/
def roots (locals : List Variable) : List Addr :=
  vm.global :: (locals.filterMap Variable.ref ++ (vm.info.map CallInfo.run ++
    vm.stk.filterMap Variable.ref))

end Vm

/-! ## Black objects -/

/-- The objects that are black. -/
def black (m : Addr → BitVec 16) : Set Addr := {o | hasBits m o blackBit0 = true}

theorem mem_black {m : Addr → BitVec 16} {o : Addr} : o ∈ black m ↔ m o &&& blackBit0 ≠ 0 := by
  simp [black, hasBits]

theorem or_black_and (x : BitVec 16) : (x ||| blackBit0) &&& blackBit0 ≠ 0 := by
  rw [BitVec.and_comm, BitVec.and_or_distrib_left]
  intro hzero
  exact absurd (BitVec.or_eq_zero_iff.1 hzero).2 (by decide)

theorem black_blacken (o : Addr) (m : Addr → BitVec 16) :
    black (blacken o m) = insert o (black m) := by
  ext a
  rw [Set.mem_insert_iff, mem_black, mem_black, blacken]
  by_cases ha : a = o
  · subst ha
    rw [Function.update_self]
    exact iff_of_true (or_black_and _) (.inl rfl)
  · rw [Function.update_of_ne ha]
    exact (or_iff_right ha).symm

theorem mem_black_iff_marked {m : Addr → BitVec 16} {var : Variable} {o : Addr}
    (ho : var.ref = some o) : o ∈ black m ↔ marked m var blackBit0 = true := by
  rw [marked, ho]
  rfl

/-- A part of a mark phase has marked what hangs on the objects, and set no
other bit. -/
structure Marked (vm : Vm) (objs : List Addr) (m m' : Addr → BitVec 16) : Prop where
  marking : Marking vm.kids objs (black m) (black m')
  bits : ∀ a, m' a = m a ∨ m' a = m a ||| blackBit0

namespace Marked

variable {vm : Vm} {objs objs' : List Addr} {m m' m'' : Addr → BitVec 16}

theorem nil : Marked vm [] m m := ⟨.nil, fun _ => .inl rfl⟩

theorem seen {o : Addr} (ho : o ∈ black m) : Marked vm [o] m m := ⟨.seen ho, fun _ => .inl rfl⟩

theorem append (h : Marked vm objs m m') (h' : Marked vm objs' m' m'') :
    Marked vm (objs ++ objs') m m'' := by
  refine ⟨h.marking.append h'.marking, fun a => ?_⟩
  have hidem : ∀ x : BitVec 16, x ||| blackBit0 ||| blackBit0 = x ||| blackBit0 := by
    intro x
    rw [BitVec.or_assoc, BitVec.or_self]
  obtain ha | ha := h.bits a <;> obtain ha' | ha' := h'.bits a
  · exact .inl (ha'.trans ha)
  · exact .inr (by rw [ha', ha])
  · exact .inr (by rw [ha', ha])
  · exact .inr (by rw [ha', ha, hidem])

theorem enter {o : Addr} (h : Marked vm (vm.kids o) (blacken o m) m') : Marked vm [o] m m' := by
  refine ⟨.enter (by rw [← black_blacken]; exact h.marking), fun a => ?_⟩
  by_cases ha : a = o
  · subst ha
    have hself : blacken a m a = m a ||| blackBit0 := Function.update_self _ _ _
    obtain h' | h' := h.bits a
    · exact .inr (h'.trans hself)
    · rw [hself, BitVec.or_assoc, BitVec.or_self] at h'
      exact .inr h'
  · have hother : blacken o m a = m a := Function.update_of_ne ha _ _
    rw [← hother]
    exact h.bits a

theorem black_mono (h : Marked vm objs m m') (live : Finset Addr) :
    white live (black m') ≤ white live (black m) :=
  white_le h.marking.grows

end Marked

/-! ## A mark phase -/

section

variable {vm : Vm} {live : Finset Addr} {inside : Addr → Prop} {depth : Nat}
  {markVar : Variable → (Addr → BitVec 16) → Except Fault (Addr → BitVec 16)}
  {m : Addr → BitVec 16}

/-- Objects that are sound, and what they refer to with them. -/
structure Inside (vm : Vm) (live : Finset Addr) (inside : Addr → Prop) : Prop where
  sound : ∀ o, inside o → vm.Sound o
  live : ∀ o, inside o → o ∈ live
  kids : ∀ o, inside o → ∀ b ∈ vm.kids o, inside b

/-- A visit of a variable that is not marked succeeds, as long as `depth`
objects at most are white. -/
def Visits (vm : Vm) (live : Finset Addr) (inside : Addr → Prop) (depth : Nat)
    (markVar : Variable → (Addr → BitVec 16) → Except Fault (Addr → BitVec 16)) : Prop :=
  ∀ var m, vm.Typed var → (∀ o ∈ var.ref, inside o) → marked m var blackBit0 = false →
    white live (black m) ≤ depth → ∃ m', markVar var m = .ok m' ∧ Marked vm var.ref.toList m m'

theorem cast_eq_ok {α : Type} {o : Addr} {pick : Obj → Option α} {a : α} :
    vm.cast o pick = .ok a ↔ ∃ obj, vm.obj o = some obj ∧ pick obj = some a := by
  unfold Vm.cast
  cases vm.obj o with
  | none => simp [throw, throwThe, MonadExceptOf.throw]
  | some obj =>
      cases hpick : pick obj with
      | none => simp [hpick, throw, throwThe, MonadExceptOf.throw]
      | some b => simp [hpick, pure, Except.pure]

theorem kstr_eq_ok {o : Addr} {z : Bytes} (h : vm.kstr o = .ok z) :
    ∃ hash, vm.obj o = some (.kstr z hash) := by
  obtain ⟨obj, hobj, hpick⟩ := cast_eq_ok.1 h
  cases obj with
  | kstr land hash =>
      cases hpick
      exact ⟨hash, hobj⟩
  | _ => cases hpick

theorem func_eq_ok {o : Addr} {fn : Func} (h : vm.func o = .ok fn) :
    vm.obj o = some (.func fn) := by
  obtain ⟨obj, hobj, hpick⟩ := cast_eq_ok.1 h
  cases obj with
  | func fn' =>
      cases hpick
      exact hobj
  | _ => cases hpick

theorem dyay_eq_ok {o : Addr} {elem : List Variable} (h : vm.dyay o = .ok elem) :
    vm.obj o = some (.dyay elem) := by
  obtain ⟨obj, hobj, hpick⟩ := cast_eq_ok.1 h
  cases obj with
  | dyay elem' =>
      cases hpick
      exact hobj
  | _ => cases hpick

theorem hmap_eq_ok {o : Addr} {item : List Kvi} (h : vm.hmap o = .ok item) :
    vm.obj o = some (.hmap item) := by
  obtain ⟨obj, hobj, hpick⟩ := cast_eq_ok.1 h
  cases obj with
  | hmap item' =>
      cases hpick
      exact hobj
  | _ => cases hpick

theorem skls_eq_ok {o : Addr} {node : List (Variable × Variable)} (h : vm.skls o = .ok node) :
    vm.obj o = some (.skls node) := by
  obtain ⟨obj, hobj, hpick⟩ := cast_eq_ok.1 h
  cases obj with
  | skls node' =>
      cases hpick
      exact hobj
  | _ => cases hpick

theorem mandProto_eq_ok {o : Addr} {proto : Option Addr} (h : vm.mandProto o = .ok proto) :
    ∃ final land, vm.obj o = some (.mand proto final land) := by
  obtain ⟨obj, hobj, hpick⟩ := cast_eq_ok.1 h
  cases obj with
  | mand proto' final land =>
      cases hpick
      exact ⟨final, land, hobj⟩
  | _ => cases hpick

theorem markKstr_marks {z : Addr} (hz : vm.Typed (.kstr z)) :
    ∃ m', vm.markKstr z m = .ok m' ∧ Marked vm [z] m m' := by
  obtain ⟨land, hland⟩ := hz
  obtain ⟨hash, hobj⟩ := kstr_eq_ok hland
  have hkids : vm.kids z = [] := by simp only [Vm.kids, hobj]
  refine ⟨blacken z m, by rw [Vm.markKstr, hland]; rfl, .enter ?_⟩
  rw [hkids]
  exact .nil

theorem markKstrs_marks {lz : List Addr} (hlz : ∀ z ∈ lz, vm.Typed (.kstr z)) :
    ∃ m', vm.markKstrs lz m = .ok m' ∧ Marked vm lz m m' := by
  induction lz generalizing m with
  | nil => exact ⟨m, rfl, .nil⟩
  | cons z rest ih =>
      obtain ⟨m₁, hfirst, hmarked⟩ := markKstr_marks (m := m) (hlz z List.mem_cons_self)
      obtain ⟨m₂, hrest, hmarked'⟩ := ih (m := m₁) fun z hz => hlz z (List.mem_cons_of_mem _ hz)
      refine ⟨m₂, ?_, hmarked.append hmarked'⟩
      rw [Vm.markKstrs, hfirst]
      exact hrest

theorem markEach_marks (hvisits : Visits vm live inside depth markVar) {vars : List Variable}
    (htyped : ∀ var ∈ vars, vm.Typed var) (hin : ∀ o ∈ vars.filterMap Variable.ref, inside o)
    (hwhite : white live (black m) ≤ depth) :
    ∃ m', Vm.markEach markVar vars m = .ok m' ∧ Marked vm (vars.filterMap Variable.ref) m m' := by
  induction vars generalizing m with
  | nil => exact ⟨m, rfl, .nil⟩
  | cons var rest ih =>
      have hrest := fun m₁ (hle : white live (black m₁) ≤ depth) =>
        ih (m := m₁) (fun v hv => htyped v (List.mem_cons_of_mem _ hv))
          (fun o ho => hin o (by
            rw [List.filterMap_cons]
            split
            · exact ho
            · exact List.mem_cons_of_mem _ ho)) hle
      have hlist : (var :: rest).filterMap Variable.ref =
          var.ref.toList ++ rest.filterMap Variable.ref := by
        rw [List.filterMap_cons]
        cases var.ref <;> rfl
      rw [hlist]
      cases hmarked : marked m var blackBit0 with
      | true =>
          obtain ⟨m', hrun, hm'⟩ := hrest m hwhite
          refine ⟨m', by rw [Vm.markEach, if_pos hmarked]; exact hrun, ?_⟩
          cases href : var.ref with
          | none => exact hm'
          | some o => exact Marked.append (.seen ((mem_black_iff_marked href).2 hmarked)) hm'
      | false =>
          obtain ⟨m₁, hvisit, hm₁⟩ := hvisits var m (htyped var List.mem_cons_self)
            (fun o ho => hin o (by rw [hlist, ho]; exact List.mem_cons_self)) hmarked hwhite
          obtain ⟨m', hrun, hm'⟩ := hrest m₁ ((hm₁.black_mono live).trans hwhite)
          refine ⟨m', ?_, hm₁.append hm'⟩
          rw [Vm.markEach, if_neg (by simp [hmarked]), hvisit]
          exact hrun

/-- A white object is blackened, and what it refers to is visited. -/
theorem visit_object {o : Addr} (hinside : Inside vm live inside) (ho : inside o)
    (hwhite : o ∉ black m) (hdepth : white live (black m) ≤ depth + 1)
    {run : Except Fault (Addr → BitVec 16)}
    (hrun : white live (black (blacken o m)) ≤ depth →
      ∃ m', run = .ok m' ∧ Marked vm (vm.kids o) (blacken o m) m') :
    ∃ m', run = .ok m' ∧ Marked vm [o] m m' := by
  have hlt := white_insert_lt (hinside.live o ho) hwhite
  rw [← black_blacken] at hlt
  obtain ⟨m', hok, hmarked⟩ := hrun (by omega)
  exact ⟨m', hok, .enter hmarked⟩

theorem gcMarkDyay_marks (hinside : Inside vm live inside)
    (hvisits : Visits vm live inside depth markVar) {o : Addr} (htyped : vm.Typed (.dyay o))
    (ho : inside o) (hwhite : o ∉ black m) (hdepth : white live (black m) ≤ depth + 1) :
    ∃ m', Vm.gcMarkDyay vm markVar o m = .ok m' ∧ Marked vm [o] m m' := by
  obtain ⟨elem, helem⟩ := htyped
  have hobj := dyay_eq_ok helem
  have hkids : vm.kids o = elem.filterMap Variable.ref := by simp only [Vm.kids, hobj]
  have hsound := hinside.sound o ho
  simp only [Vm.Sound, hobj] at hsound
  apply visit_object hinside ho hwhite hdepth
  intro hle
  rw [Vm.gcMarkDyay, helem, hkids]
  apply markEach_marks hvisits hsound _ hle
  rw [← hkids]
  exact hinside.kids o ho

theorem gcMarkHmap_marks (hinside : Inside vm live inside)
    (hvisits : Visits vm live inside depth markVar) {o : Addr} (htyped : vm.Typed (.hmap o))
    (ho : inside o) (hwhite : o ∉ black m) (hdepth : white live (black m) ≤ depth + 1) :
    ∃ m', Vm.gcMarkHmap vm markVar o m = .ok m' ∧ Marked vm [o] m m' := by
  obtain ⟨item, hitem⟩ := htyped
  have hobj := hmap_eq_ok hitem
  have hkids : vm.kids o = (Vm.slots item).filterMap Variable.ref := by simp only [Vm.kids, hobj]
  have hsound := hinside.sound o ho
  simp only [Vm.Sound, hobj] at hsound
  apply visit_object hinside ho hwhite hdepth
  intro hle
  rw [Vm.gcMarkHmap, hitem, hkids]
  apply markEach_marks hvisits hsound _ hle
  rw [← hkids]
  exact hinside.kids o ho

theorem gcMarkSkls_marks (hinside : Inside vm live inside)
    (hvisits : Visits vm live inside depth markVar) {o : Addr} (htyped : vm.Typed (.skls o))
    (ho : inside o) (hwhite : o ∉ black m) (hdepth : white live (black m) ≤ depth + 1) :
    ∃ m', Vm.gcMarkSkls vm markVar o m = .ok m' ∧ Marked vm [o] m m' := by
  obtain ⟨node, hnode⟩ := htyped
  have hobj := skls_eq_ok hnode
  have hkids : vm.kids o = (Vm.nodes node).filterMap Variable.ref := by simp only [Vm.kids, hobj]
  have hsound := hinside.sound o ho
  simp only [Vm.Sound, hobj] at hsound
  apply visit_object hinside ho hwhite hdepth
  intro hle
  rw [Vm.gcMarkSkls, hnode, hkids]
  apply markEach_marks hvisits hsound _ hle
  rw [← hkids]
  exact hinside.kids o ho

theorem gcMarkMand_marks (hinside : Inside vm live inside)
    (hvisits : Visits vm live inside depth markVar) {o : Addr} (htyped : vm.Typed (.mand o))
    (ho : inside o) (hwhite : o ∉ black m) (hdepth : white live (black m) ≤ depth + 1) :
    ∃ m', Vm.gcMarkMand vm markVar o m = .ok m' ∧ Marked vm [o] m m' := by
  obtain ⟨proto, hproto⟩ := htyped
  obtain ⟨final, land, hobj⟩ := mandProto_eq_ok hproto
  have hkids : vm.kids o = proto.toList := by simp only [Vm.kids, hobj]
  have hsound := hinside.sound o ho
  simp only [Vm.Sound, hobj] at hsound
  apply visit_object hinside ho hwhite hdepth
  intro hle
  rw [hkids]
  cases proto with
  | none =>
      refine ⟨_, ?_, .nil⟩
      rw [Vm.gcMarkMand, hproto]
      rfl
  | some p =>
      have hrun : Vm.gcMarkMand vm markVar o m =
          if hasBits (blacken o m) p blackBit0 then pure (blacken o m)
          else
            match vm.obj p with
            | some (.hmap _) => Vm.gcMarkHmap vm markVar p (blacken o m)
            | some (.skls _) => Vm.gcMarkSkls vm markVar p (blacken o m)
            | _ => throw (.assertion "0") := by
        rw [Vm.gcMarkMand, hproto]
        rfl
      rw [hrun]
      have hp : inside p := hinside.kids o ho p (by rw [hkids]; exact List.mem_cons_self)
      by_cases hblack : hasBits (blacken o m) p blackBit0 = true
      · exact ⟨_, if_pos hblack, .seen hblack⟩
      · simp only [if_neg hblack]
        obtain ⟨item, hitem⟩ | ⟨node, hnode⟩ := hsound p rfl
        · rw [hmap_eq_ok hitem]
          exact gcMarkHmap_marks hinside hvisits ⟨item, hitem⟩ hp hblack (Nat.le_succ_of_le hle)
        · rw [skls_eq_ok hnode]
          exact gcMarkSkls_marks hinside hvisits ⟨node, hnode⟩ hp hblack (Nat.le_succ_of_le hle)

/-- The argument array of a function. -/
theorem gcMarkArgv_marks (hinside : Inside vm live inside)
    (hvisits : Visits vm live inside depth markVar) {argv : Option Addr}
    (htyped : ∀ o ∈ argv, vm.Typed (.dyay o)) (hin : ∀ o ∈ argv, inside o)
    (hdepth : white live (black m) ≤ depth) :
    ∃ m', Vm.gcMarkArgv vm markVar argv m = .ok m' ∧ Marked vm argv.toList m m' := by
  cases argv with
  | none => exact ⟨m, rfl, .nil⟩
  | some o =>
      by_cases hblack : hasBits m o blackBit0 = true
      · exact ⟨m, if_pos hblack, .seen hblack⟩
      · simp only [Vm.gcMarkArgv, if_neg hblack]
        exact gcMarkDyay_marks hinside hvisits (htyped o rfl) (hin o rfl) hblack
          (Nat.le_succ_of_le hdepth)

/-- The chunk of a function. -/
theorem gcMarkCore_marks (hvisits : Visits vm live inside depth markVar) {core : Option Addr}
    (hsound : ∀ c ∈ core, ∃ core, vm.chunk c = some core ∧ vm.Typed (.kstr core.file) ∧
      (∀ z ∈ core.lz, vm.Typed (.kstr z)) ∧ ∀ var ∈ core.kval, vm.Typed var)
    (hin : ∀ c ∈ core.bind vm.chunk, ∀ o ∈ c.kval.filterMap Variable.ref, inside o)
    (hdepth : white live (black m) ≤ depth) :
    ∃ m', Vm.gcMarkCore vm markVar core m = .ok m' ∧
      Marked vm (match core.bind vm.chunk with
        | some core => core.file :: (core.lz ++ core.kval.filterMap Variable.ref)
        | none => []) m m' := by
  cases core with
  | none => exact ⟨m, rfl, .nil⟩
  | some c =>
      obtain ⟨core, hcore, hfile, hlz, hkval⟩ := hsound c rfl
      have hchunk : (some c).bind vm.chunk = some core := hcore
      obtain ⟨m₁, hrun₁, hm₁⟩ := markKstr_marks (m := m) hfile
      obtain ⟨m₂, hrun₂, hm₂⟩ := markKstrs_marks (m := m₁) hlz
      have hle := (hm₂.black_mono live).trans ((hm₁.black_mono live).trans hdepth)
      obtain ⟨m₃, hrun₃, hm₃⟩ := markEach_marks hvisits hkval (hin core hchunk) hle
      rw [hchunk]
      refine ⟨m₃, ?_, hm₁.append (hm₂.append hm₃)⟩
      have hread : vm.core c = .ok core := by
        rw [Vm.core, hcore]
        rfl
      simp only [Vm.gcMarkCore, hread]
      change (vm.markKstr core.file m >>= fun m => vm.markKstrs core.lz m >>= fun m =>
        Vm.markEach markVar core.kval m) = _
      rw [hrun₁]
      change (vm.markKstrs core.lz m₁ >>= fun m => Vm.markEach markVar core.kval m) = _
      rw [hrun₂]
      exact hrun₃

theorem gcMarkFunc_marks (hinside : Inside vm live inside)
    (hvisits : Visits vm live inside depth markVar) {o : Addr} (htyped : vm.Typed (.func o))
    (ho : inside o) (hwhite : o ∉ black m) (hdepth : white live (black m) ≤ depth + 1) :
    ∃ m', Vm.gcMarkFunc vm markVar o m = .ok m' ∧ Marked vm [o] m m' := by
  obtain ⟨fn, hfn⟩ := htyped
  have hobj := func_eq_ok hfn
  have hkids : vm.kids o = fn.proto :: (fn.argv.toList ++
      ((fn.bind.take fn.nBind).filterMap Variable.ref ++
        match fn.core.bind vm.chunk with
        | some core => core.file :: (core.lz ++ core.kval.filterMap Variable.ref)
        | none => [])) := by simp only [Vm.kids, hobj]
  have hin := hinside.kids o ho
  rw [hkids] at hin
  have hsound := hinside.sound o ho
  simp only [Vm.Sound, hobj] at hsound
  obtain ⟨hproto, hargv, hbind, hcore⟩ := hsound
  apply visit_object hinside ho hwhite hdepth
  intro hle
  obtain ⟨m₁, hrun₁, hm₁⟩ := markKstr_marks (m := blacken o m) hproto
  have hle₁ := (hm₁.black_mono live).trans hle
  obtain ⟨m₂, hrun₂, hm₂⟩ := gcMarkArgv_marks (m := m₁) hinside hvisits hargv
    (fun a ha => hin a (List.mem_cons_of_mem _ (List.mem_append_left _ (by
      rw [ha]
      exact List.mem_cons_self)))) hle₁
  have hle₂ := (hm₂.black_mono live).trans hle₁
  obtain ⟨m₃, hrun₃, hm₃⟩ := markEach_marks (m := m₂) hvisits hbind
    (fun a ha => hin a (List.mem_cons_of_mem _ (List.mem_append_right _
      (List.mem_append_left _ ha)))) hle₂
  have hle₃ := (hm₃.black_mono live).trans hle₂
  obtain ⟨m₄, hrun₄, hm₄⟩ := gcMarkCore_marks (m := m₃) hvisits hcore
    (fun c hc a ha => hin a (List.mem_cons_of_mem _ (List.mem_append_right _
      (List.mem_append_right _ (by
        rw [hc]
        exact List.mem_cons_of_mem _ (List.mem_append_right _ ha)))))) hle₃
  rw [hkids]
  refine ⟨m₄, ?_, hm₁.append (hm₂.append (hm₃.append hm₄))⟩
  rw [Vm.gcMarkFunc, hfn]
  change (vm.markKstr fn.proto (blacken o m) >>= _) = _
  rw [hrun₁]
  change (Vm.gcMarkArgv vm markVar fn.argv m₁ >>= _) = _
  rw [hrun₂]
  change (Vm.markEach markVar (fn.bind.take fn.nBind) m₂ >>= _) = _
  rw [hrun₃]
  exact hrun₄

/-- A visit nests no deeper than there are white objects. -/
theorem gcMarkVar_visits (hinside : Inside vm live inside) (depth : Nat) :
    Visits vm live inside depth (vm.gcMarkVar depth) := by
  induction depth with
  | zero =>
      intro var m _ hin hmarked hle
      cases href : var.ref with
      | none =>
          rw [marked, href] at hmarked
          cases hmarked
      | some o =>
          have hwhite : o ∉ black m := by
            rw [mem_black_iff_marked href, hmarked]
            exact Bool.false_ne_true
          have hlt := white_insert_lt (hinside.live o (hin o href)) hwhite
          omega
  | succ depth ih =>
      intro var m htyped hin hmarked hle
      have hwhite : ∀ o ∈ var.ref, o ∉ black m := by
        intro o ho
        rw [mem_black_iff_marked ho, hmarked]
        exact Bool.false_ne_true
      cases var with
      | kstr o => exact markKstr_marks htyped
      | func o => exact gcMarkFunc_marks hinside ih htyped (hin o rfl) (hwhite o rfl) hle
      | dyay o => exact gcMarkDyay_marks hinside ih htyped (hin o rfl) (hwhite o rfl) hle
      | hmap o => exact gcMarkHmap_marks hinside ih htyped (hin o rfl) (hwhite o rfl) hle
      | skls o => exact gcMarkSkls_marks hinside ih htyped (hin o rfl) (hwhite o rfl) hle
      | mand o => exact gcMarkMand_marks hinside ih htyped (hin o rfl) (hwhite o rfl) hle
      | _ => cases hmarked

theorem markFrames_marks (hinside : Inside vm live inside)
    (hvisits : Visits vm live inside depth markVar) {info : List CallInfo}
    (htyped : ∀ i ∈ info, vm.Typed (.func i.run)) (hin : ∀ o ∈ info.map CallInfo.run, inside o)
    (hdepth : white live (black m) ≤ depth) :
    ∃ m', Vm.markFrames vm markVar info m = .ok m' ∧ Marked vm (info.map CallInfo.run) m m' := by
  induction info generalizing m with
  | nil => exact ⟨m, rfl, .nil⟩
  | cons i chain ih =>
      have hchain := fun m₁ (hle : white live (black m₁) ≤ depth) =>
        ih (m := m₁) (fun j hj => htyped j (List.mem_cons_of_mem _ hj))
          (fun o ho => hin o (List.mem_cons_of_mem _ ho)) hle
      by_cases hblack : hasBits m i.run blackBit0 = true
      · obtain ⟨m', hrun, hm'⟩ := hchain m hdepth
        refine ⟨m', ?_, Marked.append (.seen hblack) hm'⟩
        rw [Vm.markFrames, if_pos hblack]
        exact hrun
      · obtain ⟨m₁, hvisit, hm₁⟩ := gcMarkFunc_marks hinside hvisits (htyped i List.mem_cons_self)
          (hin _ List.mem_cons_self) hblack (Nat.le_succ_of_le hdepth)
        obtain ⟨m', hrun, hm'⟩ := hchain m₁ ((hm₁.black_mono live).trans hdepth)
        refine ⟨m', ?_, hm₁.append hm'⟩
        rw [Vm.markFrames, if_neg hblack, hvisit]
        exact hrun

end

/-! ## The whole phase -/

/-- The roots of a machine are typed, and what is reached from them is sound. -/
structure Vm.Rooted (vm : Vm) (locals : List Variable) : Prop where
  window : vm.locals = .ok locals
  global : vm.Typed (.hmap vm.global)
  loc : ∀ var ∈ locals, vm.Typed var
  frames : ∀ i ∈ vm.info, vm.Typed (.func i.run)
  stk : ∀ var ∈ vm.stk, vm.Typed var
  sound : ∀ o, Reached vm.kids (vm.roots locals) o → vm.Sound o

/-- A mark phase ends, blackens what is reached from the roots, and sets no
other bit. -/
theorem gcMark_exact {vm : Vm} {live : Finset Addr} {locals : List Variable} {depth : Nat}
    (hrooted : vm.Rooted locals) (hlive : ∀ o, Reached vm.kids (vm.roots locals) o → o ∈ live)
    (hblack : black vm.marked = ∅) (hdepth : live.card ≤ depth) :
    ∃ m, vm.gcMark depth = .ok { vm with marked := m } ∧
      (∀ o, o ∈ black m ↔ Reached vm.kids (vm.roots locals) o) ∧
      ∀ o, m o = vm.marked o ∨ m o = vm.marked o ||| blackBit0 := by
  have hinside : Inside vm live (Reached vm.kids (vm.roots locals)) :=
    ⟨hrooted.sound, hlive, fun _ ho _ hb => ho.kid hb⟩
  have hvisits := gcMarkVar_visits hinside depth
  have hroot : ∀ o ∈ vm.roots locals, Reached vm.kids (vm.roots locals) o := fun o => .root
  have hle : white live (black vm.marked) ≤ depth := white_le_card.trans hdepth
  obtain ⟨m₁, hrun₁, hm₁⟩ := gcMarkHmap_marks hinside hvisits hrooted.global
    (hroot _ List.mem_cons_self) (by rw [hblack]; exact Set.notMem_empty _) (Nat.le_succ_of_le hle)
  have hle₁ := (hm₁.black_mono live).trans hle
  obtain ⟨m₂, hrun₂, hm₂⟩ := markEach_marks hvisits hrooted.loc
    (fun o ho => hroot o (List.mem_cons_of_mem _ (List.mem_append_left _ ho))) hle₁
  have hle₂ := (hm₂.black_mono live).trans hle₁
  obtain ⟨m₃, hrun₃, hm₃⟩ := markFrames_marks hinside hvisits hrooted.frames
    (fun o ho => hroot o (List.mem_cons_of_mem _ (List.mem_append_right _
      (List.mem_append_left _ ho)))) hle₂
  have hle₃ := (hm₃.black_mono live).trans hle₂
  obtain ⟨m₄, hrun₄, hm₄⟩ := markEach_marks hvisits hrooted.stk
    (fun o ho => hroot o (List.mem_cons_of_mem _ (List.mem_append_right _
      (List.mem_append_right _ ho)))) hle₃
  have hmarked : Marked vm (vm.roots locals) vm.marked m₄ :=
    hm₁.append (hm₂.append (hm₃.append hm₄))
  refine ⟨m₄, ?_, fun o => ?_, hmarked.bits⟩
  · simp only [Vm.gcMark, hrun₁, hrooted.window]
    change (Vm.markEach (vm.gcMarkVar depth) locals m₁ >>= _) = _
    rw [hrun₂]
    change (Vm.markFrames vm (vm.gcMarkVar depth) vm.info m₂ >>= _) = _
    rw [hrun₃]
    change (Vm.markEach (vm.gcMarkVar depth) vm.stk m₃ >>= _) = _
    rw [hrun₄]
    rfl
  · have hmarking := hmarked.marking
    rw [hblack] at hmarking
    exact hmarking.exact

end Ymd.Gc
