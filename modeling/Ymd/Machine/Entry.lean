import Ymd.Machine.Effect

/-! # Entering a function

What the machine looks like when a function begins to run: its frame, the slots
of its window, and the array of its arguments.
-/

namespace Ymd

open Foundation

variable {l l' : Ctx}

/-- Only the local area and the objects differ. -/
structure Ctx.Like (l l' : Ctx) : Prop where
  info : l'.info = l.info
  stk : l'.stk = l.stk
  jpt : l'.jpt = l.jpt
  global : l'.global = l.global
  rv : l'.rv = l.rv
  levels : l'.levels = l.levels

theorem Ctx.Like.refl (l : Ctx) : l.Like l := ⟨rfl, rfl, rfl, rfl, rfl, rfl⟩

theorem Ctx.Like.trans {l₁ l₂ l₃ : Ctx} (h₁ : l₁.Like l₂) (h₂ : l₂.Like l₃) : l₁.Like l₃ :=
  ⟨h₂.info.trans h₁.info, h₂.stk.trans h₁.stk, h₂.jpt.trans h₁.jpt, h₂.global.trans h₁.global,
    h₂.rv.trans h₁.rv, h₂.levels.trans h₁.levels⟩

/-- The machine behind the loop that copies the parameters `k - n` to `k - 1`. -/
def Ctx.withParams (l : Ctx) (base k n : Nat) : Ctx :=
  { l with loc := fun i =>
      if base + (k - n) ≤ i ∧ i < base + k then l.stk.getD (k - 1 - (i - base)) .nil else l.loc i }

theorem setLoc_ok_iff {i : Nat} {v : Variable} :
    setLoc i v l = .ok () l' ↔
      i < maxLocal ∧ l' = { l with loc := Function.update l.loc i v } := by
  unfold setLoc
  split
  next hlt =>
    constructor
    · intro h
      cases h
      exact ⟨hlt, rfl⟩
    · rintro ⟨-, rfl⟩
      rfl
  next hge =>
    constructor
    · rintro ⟨⟩
    · exact fun h => absurd h.1 hge

theorem withParams_zero (l : Ctx) (base k : Nat) : l.withParams base k 0 = l := by
  have hloc : (fun i => if base + (k - 0) ≤ i ∧ i < base + k then
      l.stk.getD (k - 1 - (i - base)) .nil else l.loc i) = l.loc := by
    funext i
    exact if_neg (by omega)
  rw [Ctx.withParams, hloc]

theorem withParams_succ (l : Ctx) {base k n : Nat} {v : Variable} (hn : n < k)
    (hv : l.stk[n]? = some v) :
    ({ l with loc := Function.update l.loc (base + (k - n - 1)) v } : Ctx).withParams base k n =
      l.withParams base k (n + 1) := by
  unfold Ctx.withParams
  congr 1
  funext i
  dsimp only
  by_cases hi : i = base + (k - n - 1)
  · subst hi
    have hidx : k - 1 - (base + (k - n - 1) - base) = n := by omega
    rw [if_neg (by omega), Function.update_self, if_pos (by omega), hidx]
    simp [hv]
  · rw [Function.update_of_ne hi]
    by_cases hin : base + (k - n) ≤ i ∧ i < base + k
    · rw [if_pos hin, if_pos (by omega)]
    · rw [if_neg hin, if_neg (by omega)]

theorem copyParams_ok {base k n : Nat} (hn : n ≤ k) (h : copyParams base k n l = .ok () l') :
    n ≤ l.stk.length ∧ l' = l.withParams base k n := by
  induction n generalizing l with
  | zero =>
      obtain ⟨-, rfl⟩ := pure_ok_iff.1 h
      exact ⟨Nat.zero_le _, (withParams_zero l base k).symm⟩
  | succ n ih =>
      obtain ⟨v, l₁, hv, hrest⟩ := bind_ok_iff.1 h
      obtain ⟨hv, rfl⟩ := ymdTop_ok_iff.1 hv
      obtain ⟨u, l₂, hset, htail⟩ := bind_ok_iff.1 hrest
      obtain ⟨-, rfl⟩ := setLoc_ok_iff.1 hset
      obtain ⟨-, htail⟩ := ih (Nat.le_of_succ_le hn) htail
      refine ⟨?_, ?_⟩
      · by_contra hlt
        rw [List.getElem?_eq_none (by omega)] at hv
        cases hv
      · rw [htail, withParams_succ l₁ hn hv]

/-- The array `argv` grows by the topmost `n` operands, the lowest one first. -/
theorem addArgs_ok {argv : Addr} {n : Nat} {arr : List Variable}
    (harr : l.heap.obj argv = some (.dyay arr)) (h : addArgs argv n l = .ok () l') :
    n ≤ l.stk.length ∧ l.Like l' ∧ l'.loc = l.loc ∧ l'.heap.next = l.heap.next ∧
      l'.heap.obj argv = some (.dyay (arr ++ (l.stk.take n).reverse)) ∧
      ∀ o, o ≠ argv → l'.heap.obj o = l.heap.obj o := by
  induction n generalizing l arr with
  | zero =>
      obtain ⟨-, rfl⟩ := pure_ok_iff.1 h
      exact ⟨Nat.zero_le _, .refl l, rfl, rfl, by simpa using harr, fun _ _ => rfl⟩
  | succ n ih =>
      rw [addArgs, bind_of_ok (get_apply l), bind_of_ok (check_of_ok (Heap.dyay_eq_ok.2 harr))] at h
      obtain ⟨v, l₁, hv, hrest⟩ := bind_ok_iff.1 h
      obtain ⟨hv, rfl⟩ := ymdTop_ok_iff.1 hv
      rw [bind_of_ok (storeObj_apply argv _)] at hrest
      obtain ⟨-, hlike, hloc, hnext, hargv, hothers⟩ := ih (Heap.obj_set_self harr) hrest
      have hlt : n < l₁.stk.length := by
        by_contra hge
        rw [List.getElem?_eq_none (by omega)] at hv
        cases hv
      refine ⟨hlt, ⟨hlike.info, hlike.stk, hlike.jpt, hlike.global, hlike.rv, hlike.levels⟩, hloc, hnext, ?_,
        fun o ho => ?_⟩
      · rw [hargv, List.take_add_one, hv]
        simp
      · rw [hothers o ho]
        exact Heap.obj_set_of_ne ho

/-! ## The objects behind a function's arguments -/

/-- What holds of the objects at every moment: code names local variables it
has, and every function that has an array for its arguments has one of its own. -/
structure Heap.Ok (heap : Heap) : Prop where
  code : heap.CodeOk
  argv : ∀ o fn a, heap.obj o = some (.func fn) → fn.argv = some a →
    ∃ elem, heap.obj a = some (.dyay elem)
  inj : ∀ o fn o' fn' a, heap.obj o = some (.func fn) → heap.obj o' = some (.func fn') →
    fn.argv = some a → fn'.argv = some a → o = o'

/-- Where the arguments of the next call of a function go. -/
def Heap.argvAddr (heap : Heap) (fn : Func) : Addr := fn.argv.getD heap.next

/-- What earlier calls of a function left in its array. -/
def Heap.argvLeft (heap : Heap) (fn : Func) : List Variable :=
  match fn.argv.bind heap.obj with
  | some (.dyay elem) => elem
  | _ => []

/-- One function has got another array or other bound values, and this array
other elements. -/
structure Heap.Served (o a : Addr) (elem : List Variable) (fn : Func) (heap heap' : Heap) : Prop where
  func : ∃ fn', heap'.obj o = some (.func fn') ∧ fn'.core = fn.core ∧ fn'.nBind = fn.nBind ∧
    fn'.bind.length = fn.bind.length ∧ fn'.argv = some a
  array : heap'.obj a = some (.dyay elem)
  others : ∀ p, p ≠ o → p ≠ a → heap'.obj p = heap.obj p
  next : heap.next ≤ heap'.next

theorem argvOf_ok {info : CallInfo} {fn : Func} {a : Addr} (hok : l.heap.Ok)
    (hfn : l.heap.obj info.run = some (.func fn)) (h : argvOf info l = .ok a l') :
    a = l.heap.argvAddr fn ∧ l.Like l' ∧ l'.loc = l.loc ∧
      l.heap.Served info.run a (l.heap.argvLeft fn) fn l'.heap := by
  rw [argvOf, bind_of_ok (funcAt_of_obj hfn)] at h
  cases hargv : fn.argv with
  | some b =>
      rw [hargv] at h
      obtain ⟨rfl, rfl⟩ := pure_ok_iff.1 h
      obtain ⟨elem, helem⟩ := hok.argv _ _ _ hfn hargv
      refine ⟨by simp [Heap.argvAddr, hargv], .refl l, rfl, ⟨fn, hfn, rfl, rfl, rfl, hargv⟩, ?_,
        fun _ _ _ => rfl, le_rfl⟩
      simp [Heap.argvLeft, hargv, helem]
  | none =>
      rw [hargv] at h
      obtain ⟨b, l₁, hnew, hrest⟩ := bind_ok_iff.1 h
      cases hnew
      rw [bind_of_ok (storeObj_apply _ _)] at hrest
      obtain ⟨rfl, rfl⟩ := pure_ok_iff.1 hrest
      have hne : info.run ≠ l.heap.next := Nat.ne_of_lt (Heap.lt_next hfn)
      have hfn' : (l.heap.alloc (.dyay [])).1.obj info.run = some (.func fn) :=
        Heap.obj_alloc_of_some hfn
      refine ⟨by simp [Heap.argvAddr, hargv], ⟨rfl, rfl, rfl, rfl, rfl, rfl⟩, rfl,
        ⟨_, Heap.obj_set_self hfn', rfl, rfl, rfl, rfl⟩, ?_, ?_, ?_⟩
      · have hleft : l.heap.argvLeft fn = [] := by simp [Heap.argvLeft, hargv]
        rw [hleft]
        exact (Heap.obj_set_of_ne hne.symm).trans Heap.obj_alloc_self
      · intro p hp hpa
        exact (Heap.obj_set_of_ne hp).trans (Heap.obj_alloc_of_ne hpa)
      · exact Nat.le_succ _

/-- What a store through `vm_local` changes. -/
theorem storeLocal_ok {info : CallInfo} {fn : Func} {i : Nat} {v : Variable}
    (hfn : l.heap.obj info.run = some (.func fn)) (h : storeLocal info i v l = .ok () l') :
    (∃ b, vmLocal fn info.loc i = .ok (.bind b) ∧ l' = { l with
        heap := l.heap.set info.run (.func { fn with bind := fn.bind.set b v }) }) ∨
    ∃ j, vmLocal fn info.loc i = .ok (.loc j) ∧ j < maxLocal ∧
      l' = { l with loc := Function.update l.loc j v } := by
  rw [storeLocal, bind_of_ok (funcAt_of_obj hfn)] at h
  cases hslot : vmLocal fn info.loc i with
  | error f =>
      rw [hslot, bind_of_error (check_of_error rfl)] at h
      cases h
  | ok slot =>
      rw [hslot, bind_of_ok (check_of_ok rfl)] at h
      cases slot with
      | bind b =>
          cases h
          exact .inl ⟨b, rfl, rfl⟩
      | loc j =>
          obtain ⟨hj, rfl⟩ := setLoc_ok_iff.1 h
          exact .inr ⟨j, rfl, hj, rfl⟩

theorem vmLocal_congr {fn fn' : Func} (hbind : fn'.nBind = fn.nBind)
    (hlen : fn'.bind.length = fn.bind.length) (base i : Nat) :
    vmLocal fn' base i = vmLocal fn base i := by
  unfold vmLocal
  rw [hbind, hlen]

/-- A bound value of the function changes. -/
theorem Heap.Served.set_bind {o a : Addr} {elem : List Variable} {fn fn' : Func}
    {heap heap' : Heap} (h : Heap.Served o a elem fn heap heap')
    (hfn' : heap'.obj o = some (.func fn')) (b : Nat) (v : Variable) :
    Heap.Served o a elem fn heap
      (heap'.set o (.func { fn' with bind := fn'.bind.set b v })) where
  func := by
    obtain ⟨fn'', hfn'', hcore, hbind, hlen, hargv⟩ := h.func
    rw [hfn'] at hfn''
    cases hfn''
    exact ⟨_, Heap.obj_set_self hfn', hcore, hbind, by simpa using hlen, hargv⟩
  array := by
    have hne : a ≠ o := by
      rintro rfl
      have harray := h.array
      rw [hfn'] at harray
      cases harray
    exact (Heap.obj_set_of_ne hne).trans h.array
  others := fun p hp hpa => (Heap.obj_set_of_ne hp).trans (h.others p hp hpa)
  next := h.next

/-- The array gets other elements. -/
theorem Heap.Served.set_array {o a : Addr} {elem elem' : List Variable} {fn : Func}
    {heap heap' heap'' : Heap} (h : Heap.Served o a elem fn heap heap')
    (harray : heap''.obj a = some (.dyay elem')) (hothers : ∀ p, p ≠ a → heap''.obj p = heap'.obj p)
    (hnext : heap''.next = heap'.next) : Heap.Served o a elem' fn heap heap'' where
  func := by
    obtain ⟨fn', hfn', hkept⟩ := h.func
    have hne : o ≠ a := by
      rintro rfl
      rw [h.array] at hfn'
      cases hfn'
    exact ⟨fn', (hothers o hne).trans hfn', hkept⟩
  array := harray
  others := fun p hp hpa => (hothers p hpa).trans (h.others p hp hpa)
  next := hnext ▸ h.next

/-- Where the local variable `argv` of a frame is. -/
def argvSlot (fn : Func) (core : Chunk) (base : Nat) : Option Slot :=
  (core.findLz (lit "argv")).bind fun i => (vmLocal fn base i).toOption

/-- The local area behind `vm_copy_args` with `n` arguments and the array `a`. -/
def Ctx.argsLoc (l : Ctx) (fn : Func) (core : Chunk) (base n : Nat) (a : Addr) (j : Nat) :
    Variable :=
  if 0 < n ∧ argvSlot fn core base = some (.loc j) then .dyay a
  else if base ≤ j ∧ j < base + min core.kargs n then
    l.stk.getD (min core.kargs n - 1 - (j - base)) .nil
  else if argvSlot fn core base = some (.loc j) then .nil
  else l.loc j

/-- What a slot of a frame holds. -/
def Ctx.slot (l : Ctx) (fn : Func) : Slot → Variable
  | .bind b => fn.bind.getD b .nil
  | .loc j => l.loc j

/-- The two stores to `argv` with the copy of the parameters between them. -/
theorem argsLoc_eq {fn : Func} {core : Chunk} {base n i : Nat} {slot : Slot} (a : Addr)
    (hargv : core.findLz (lit "argv") = some i) (hslot : vmLocal fn base i = .ok slot) :
    l.argsLoc fn core base n a = fun j =>
      if 0 < n ∧ slot = .loc j then .dyay a
      else if base ≤ j ∧ j < base + min core.kargs n then
        l.stk.getD (min core.kargs n - 1 - (j - base)) .nil
      else if slot = .loc j then .nil else l.loc j := by
  have hargv : argvSlot fn core base = some slot := by simp [argvSlot, hargv, hslot, Except.toOption]
  funext j
  simp [Ctx.argsLoc, hargv]

/-- A store through `vm_local` while the arguments are copied. -/
theorem storeLocal_served {info : CallInfo} {fn : Func} {heap : Heap} {a : Addr}
    {elem : List Variable} {i : Nat} {v : Variable}
    (hserved : heap.Served info.run a elem fn l.heap) (h : storeLocal info i v l = .ok () l') :
    ∃ slot, vmLocal fn info.loc i = .ok slot ∧ l.Like l' ∧
      l'.loc = (fun j => if slot = .loc j then v else l.loc j) ∧
      heap.Served info.run a elem fn l'.heap ∧
      ∀ fn', l'.heap.obj info.run = some (.func fn') → l'.slot fn' slot = v := by
  obtain ⟨fn₁, hfn₁, -, hbind₁, hlen₁, -⟩ := hserved.func
  have hcongr := vmLocal_congr hbind₁ hlen₁ info.loc i
  rcases storeLocal_ok hfn₁ h with ⟨b, hslot, rfl⟩ | ⟨j, hslot, -, rfl⟩
  · refine ⟨.bind b, hcongr ▸ hslot, ⟨rfl, rfl, rfl, rfl, rfl, rfl⟩, ?_, hserved.set_bind hfn₁ b v, ?_⟩
    · simp
    · intro fn' hfn'
      rw [Heap.obj_set_self hfn₁] at hfn'
      cases hfn'
      have hb : b < fn₁.bind.length := by
        unfold vmLocal at hslot
        split at hslot
        · split at hslot
          next hlt =>
            cases hslot
            exact hlt
          next => cases hslot
        · split at hslot <;> cases hslot
      simp [Ctx.slot, hb]
  · refine ⟨.loc j, hcongr ▸ hslot, ⟨rfl, rfl, rfl, rfl, rfl, rfl⟩, ?_, hserved,
      fun fn' _ => Function.update_self _ _ _⟩
    funext k
    by_cases hk : k = j
    · subst hk
      simp
    · exact (Function.update_of_ne hk _ _).trans (if_neg fun hjk => hk (Slot.loc.inj hjk).symm).symm

/-- The function whose arguments are copied is an object. -/
theorem callee_of_vmCopyArgs {info : CallInfo} {n : Nat} (h : vmCopyArgs info n l = .ok () l') :
    ∃ fn, l.heap.obj info.run = some (.func fn) := by
  obtain ⟨a, l₁, hargv, -⟩ := bind_ok_iff.1 h
  obtain ⟨fn, l₂, hfn, -⟩ := bind_ok_iff.1 hargv
  exact ⟨fn, (funcAt_ok_iff.1 hfn).1⟩

/-- `vm_copy_args` for a compiled function. -/
theorem vmCopyArgs_ok {info : CallInfo} {fn : Func} {core : Chunk} {n : Nat} (hok : l.heap.Ok)
    (hfn : l.heap.obj info.run = some (.func fn)) (hcore : fn.core = some core)
    (h : vmCopyArgs info n l = .ok () l') :
    l.Like l' ∧ l'.loc = l.argsLoc fn core info.loc n (l.heap.argvAddr fn) ∧
    l.heap.Served info.run (l.heap.argvAddr fn) (l.heap.argvLeft fn ++ (l.stk.take n).reverse) fn
      l'.heap ∧
    ∃ slot, argvSlot fn core info.loc = some slot ∧
      (0 < n → ∀ fn', l'.heap.obj info.run = some (.func fn') →
        l'.slot fn' slot = .dyay (l.heap.argvAddr fn)) := by
  obtain ⟨a, l₁, hargv, hrest⟩ := bind_ok_iff.1 h
  obtain ⟨rfl, hlike₁, hloc₁, hserved⟩ := argvOf_ok hok hfn hargv
  obtain ⟨fn₁, hfn₁, hcore₁, -⟩ := hserved.func
  rw [bind_of_ok (funcAt_of_obj hfn₁), hcore₁, hcore] at hrest
  dsimp only at hrest
  cases hfind : core.findLz (lit "argv") with
  | none =>
      rw [hfind] at hrest
      cases hrest
  | some i =>
      rw [hfind] at hrest
      dsimp only at hrest
      obtain ⟨u, l₂, hstore, hrest⟩ := bind_ok_iff.1 hrest
      obtain ⟨slot, hslot, hlike₂, hloc₂, hserved₂, -⟩ := storeLocal_served hserved hstore
      obtain ⟨u, l₃, hcopy, hrest⟩ := bind_ok_iff.1 hrest
      obtain ⟨-, rfl⟩ := copyParams_ok le_rfl hcopy
      have hfound : argvSlot fn core info.loc = some slot := by
        simp [argvSlot, hfind, hslot, Except.toOption]
      have hlike₃ : l.Like (l₂.withParams info.loc (min core.kargs n) (min core.kargs n)) :=
        (hlike₁.trans hlike₂).trans ⟨rfl, rfl, rfl, rfl, rfl, rfl⟩
      have hserved₃ : l.heap.Served info.run (l.heap.argvAddr fn) (l.heap.argvLeft fn) fn
          (l₂.withParams info.loc (min core.kargs n) (min core.kargs n)).heap := hserved₂
      -- the local area in front of the second store to `argv`
      have hloc₃ : ∀ j, (l₂.withParams info.loc (min core.kargs n) (min core.kargs n)).loc j =
          if info.loc ≤ j ∧ j < info.loc + min core.kargs n then
            l.stk.getD (min core.kargs n - 1 - (j - info.loc)) .nil
          else if slot = .loc j then .nil else l.loc j := by
        intro j
        simp only [Ctx.withParams, Nat.sub_self, Nat.add_zero, hloc₂, hloc₁,
          (hlike₁.trans hlike₂).stk]
      rw [argsLoc_eq _ hfind hslot]
      by_cases hn : 0 < n
      · rw [if_pos hn] at hrest
        obtain ⟨u, l₄, hadd, hrest⟩ := bind_ok_iff.1 hrest
        obtain ⟨-, hlike₄, hloc₄, hnext, harray, hothers⟩ := addArgs_ok hserved₃.array hadd
        have hserved₄ := hserved₃.set_array harray hothers hnext
        obtain ⟨slot', hslot', hlike', hloc', hserved', hset⟩ := storeLocal_served hserved₄ hrest
        rw [hslot] at hslot'
        cases hslot'
        refine ⟨(hlike₃.trans hlike₄).trans hlike', ?_, ?_, slot, hfound, fun _ => hset⟩
        · funext j
          simp only [hloc', hloc₄, hloc₃, hn, true_and]
        · rw [hlike₃.stk] at hserved'
          exact hserved'
      · rw [if_neg hn] at hrest
        obtain ⟨-, rfl⟩ := pure_ok_iff.1 hrest
        have hzero : n = 0 := Nat.eq_zero_of_not_pos hn
        refine ⟨hlike₃, ?_, ?_, slot, hfound, fun h => absurd h hn⟩
        · funext j
          simp only [hloc₃, hn, false_and, if_false]
        · subst hzero
          simpa using hserved₃

/-- `vm_copy_args` for a native function. -/
theorem vmCopyArgs_native_ok {info : CallInfo} {fn : Func} {n : Nat} (hok : l.heap.Ok)
    (hfn : l.heap.obj info.run = some (.func fn)) (hcore : fn.core = none)
    (h : vmCopyArgs info n l = .ok () l') :
    l.Like l' ∧ l'.loc = l.loc ∧
    l.heap.Served info.run (l.heap.argvAddr fn) (l.heap.argvLeft fn ++ (l.stk.take n).reverse) fn
      l'.heap := by
  obtain ⟨a, l₁, hargv, hrest⟩ := bind_ok_iff.1 h
  obtain ⟨rfl, hlike₁, hloc₁, hserved⟩ := argvOf_ok hok hfn hargv
  obtain ⟨fn₁, hfn₁, hcore₁, -⟩ := hserved.func
  rw [bind_of_ok (funcAt_of_obj hfn₁), hcore₁, hcore] at hrest
  obtain ⟨-, hlike', hloc', hnext, harray, hothers⟩ := addArgs_ok hserved.array hrest
  refine ⟨hlike₁.trans hlike', hloc'.trans hloc₁, ?_⟩
  rw [← hlike₁.stk]
  exact hserved.set_array harray hothers hnext

/-! ## Calls -/

/-- The machine with `k` slots from `base` on cleared. -/
def Ctx.cleared (l : Ctx) (base k : Nat) : Ctx :=
  { l with loc := fun i => if base ≤ i ∧ i < base + k then .nil else l.loc i }

theorem cleared_zero (l : Ctx) (base : Nat) : l.cleared base 0 = l := by
  have hloc : (fun i => if base ≤ i ∧ i < base + 0 then Variable.nil else l.loc i) = l.loc := by
    funext i
    exact if_neg (by omega)
  rw [Ctx.cleared, hloc]

theorem clearSlots_ok {loc base : Nat} {k : Int} (h : clearSlots loc k l = .ok base l') :
    ∃ clear : Nat, k = clear ∧ base = loc + clear ∧ (0 < clear → base + clear ≤ maxLocal) ∧
      l' = l.cleared base clear := by
  unfold clearSlots at h
  split at h
  · cases h
  next hneg =>
    split at h
    · cases h
    next hfits =>
      obtain ⟨clear, rfl⟩ := Int.eq_ofNat_of_zero_le (Int.not_lt.1 hneg)
      cases h
      refine ⟨clear, rfl, rfl, fun hpos => ?_, rfl⟩
      by_contra hgt
      apply hfits
      simp only [Int.toNat_natCast] at hgt ⊢
      omega

theorem callInit_ok {base : Nat} (h : callInit l = .ok base l') :
    ∃ top chain caller, ∃ clear : Nat, l.info = top :: chain ∧
      l.heap.obj top.run = some (.func caller) ∧ funcNlocal caller = clear ∧
      base = top.loc + clear ∧ (0 < clear → base + clear ≤ maxLocal) ∧
      l' = l.cleared base clear := by
  obtain ⟨top, l₁, htop, hrest⟩ := bind_ok_iff.1 h
  rw [ymdCalled, bind_of_ok (get_apply l)] at htop
  cases hinfo : l.info with
  | nil =>
      rw [hinfo] at htop
      cases htop
  | cons top' chain =>
      rw [hinfo] at htop
      obtain ⟨rfl, rfl⟩ := pure_ok_iff.1 htop
      obtain ⟨caller, l₂, hcaller, hclear⟩ := bind_ok_iff.1 hrest
      obtain ⟨hcaller, rfl⟩ := funcAt_ok_iff.1 hcaller
      obtain ⟨clear, hk, hbase, hfits, hl'⟩ := clearSlots_ok hclear
      exact ⟨top', chain, caller, clear, rfl, hcaller, hk, hbase, hfits, hl'⟩

/-- The operands a call takes from the stack. -/
def Call.pops (c : Call) : Nat := c.args + if c.method then 0 else 1

/-- The arguments of a call, the receiver of a method among them. -/
def Ctx.argsOf (l : Ctx) (c : Call) : List Variable := (l.stk.take c.args).reverse

/-- The handlers while a function runs that is called in `l`. -/
def Ctx.handlersIn (l : Ctx) : Kont → List Jmpbuf
  | .exec _ => l.jpt
  | .native => l.jpt
  | .pcall => ⟨(l.jpt.head?.elim 0 Jmpbuf.level) + 1, l.info.length⟩ :: l.jpt
  | .root => ⟨1, l.info.length⟩ :: l.jpt

/-- The machine `l'` behind a call made in `l`. The callee's frame begins at
`base`, and `clear` slots of it have been cleared. -/
structure Entered (l l' : Ctx) (c : Call) (base clear : Nat) (fn : Func) : Prop where
  callee : l.heap.obj c.fn = some (.func fn)
  frame : (c.kont = .root ∧ base = 0 ∧ clear = 0) ∨
    ∃ top chain caller, c.kont ≠ .root ∧ l.info = top :: chain ∧
      l.heap.obj top.run = some (.func caller) ∧ funcNlocal caller = clear ∧
      base = top.loc + clear ∧ (0 < clear → base + clear ≤ maxLocal)
  info : l'.info = ⟨c.fn, 0, base, c.kont, l.argsOf c⟩ :: l.info
  enough : c.pops ≤ l.stk.length
  stk : l'.stk = l.stk.drop c.pops
  jpt : l'.jpt = l.handlersIn c.kont
  global : l'.global = l.global
  native : fn.core = none → l'.loc = (l.cleared base clear).loc
  compiled : ∀ core, fn.core = some core →
    l'.loc = (l.cleared base clear).argsLoc fn core base c.args (l.heap.argvAddr fn) ∧
    ∃ slot, argvSlot fn core base = some slot ∧
      (0 < c.args → ∀ fn', l'.heap.obj c.fn = some (.func fn') →
        l'.slot fn' slot = .dyay (l.heap.argvAddr fn))
  heap : l.heap.Served c.fn (l.heap.argvAddr fn) (l.heap.argvLeft fn ++ l.argsOf c) fn l'.heap

theorem vmCall_ok {base : Nat} {c : Call} (hok : l.heap.Ok) (h : vmCall base c l = .ok () l') :
    ∃ fn, l.heap.obj c.fn = some (.func fn) ∧
      l'.info = ⟨c.fn, 0, base, c.kont, l.argsOf c⟩ :: l.info ∧
      c.pops ≤ l.stk.length ∧ l'.stk = l.stk.drop c.pops ∧ l'.jpt = l.jpt ∧ l'.global = l.global ∧
      (fn.core = none → l'.loc = l.loc) ∧
      (∀ core, fn.core = some core →
        l'.loc = l.argsLoc fn core base c.args (l.heap.argvAddr fn) ∧
        ∃ slot, argvSlot fn core base = some slot ∧
          (0 < c.args → ∀ fn', l'.heap.obj c.fn = some (.func fn') →
            l'.slot fn' slot = .dyay (l.heap.argvAddr fn))) ∧
      l.heap.Served c.fn (l.heap.argvAddr fn) (l.heap.argvLeft fn ++ l.argsOf c) fn l'.heap := by
  rw [vmCall, bind_of_ok (get_apply l)] at h
  rw [bind_of_ok (set_apply _ _)] at h
  obtain ⟨u, l₁, hcopy, hpop⟩ := bind_ok_iff.1 h
  obtain ⟨hle, rfl⟩ := ymdPop_ok_iff.1 hpop
  obtain ⟨fn, hfn⟩ := callee_of_vmCopyArgs hcopy
  refine ⟨fn, hfn, ?_⟩
  cases hcore : fn.core with
  | none =>
      obtain ⟨hlike, hloc, hserved⟩ := vmCopyArgs_native_ok (l := { l with info := _ :: l.info }) hok hfn hcore hcopy
      refine ⟨hlike.info, hlike.stk ▸ hle, congrArg _ hlike.stk, hlike.jpt, hlike.global,
        fun _ => hloc, nofun, hserved⟩
  | some core =>
      obtain ⟨hlike, hloc, hserved, slot, hslot, hargv⟩ :=
        vmCopyArgs_ok (l := { l with info := _ :: l.info }) hok hfn hcore hcopy
      refine ⟨hlike.info, hlike.stk ▸ hle, congrArg _ hlike.stk, hlike.jpt, hlike.global,
        nofun, ?_, hserved⟩
      rintro core' hcore'
      cases hcore'
      exact ⟨hloc, slot, hslot, hargv⟩

/-- `call_init`, perhaps a new handler, and `vm_call`. -/
theorem entered_of_callInit {base : Nat} {c : Call} {jpt : List Jmpbuf} {l₁ : Ctx}
    (hok : l.heap.Ok) (hkont : c.kont ≠ .root) (hjpt : jpt = l.handlersIn c.kont)
    (hinit : callInit l = .ok base l₁)
    (hcall : vmCall base c { l₁ with jpt := jpt } = .ok () l') :
    ∃ clear fn, Entered l l' c base clear fn := by
  obtain ⟨top, chain, caller, clear, hinfo, hcaller, hk, hbase, hfits, rfl⟩ := callInit_ok hinit
  obtain ⟨fn, hfn, hinfo', hle, hstk, hjpt', hglobal, hnative, hcompiled, hserved⟩ :=
    vmCall_ok (l := { l.cleared base clear with jpt := jpt }) hok hcall
  refine ⟨clear, fn, hfn, .inr ⟨top, chain, caller, hkont, hinfo, hcaller, hk, hbase, hfits⟩,
    hinfo', hle, hstk, hjpt'.trans hjpt, hglobal, hnative, hcompiled, hserved⟩

theorem enter_ok {c : Call} (hok : l.heap.Ok) (h : enter c l = .ok () l') :
    ∃ base clear fn, Entered l l' c base clear fn := by
  unfold enter at h
  cases hkont : c.kont with
  | root =>
      rw [hkont] at h
      obtain ⟨u, l₁, hjenter, hcall⟩ := bind_ok_iff.1 h
      cases hjenter
      obtain ⟨fn, hfn, hinfo, hle, hstk, hjpt, hglobal, hnative, hcompiled, hserved⟩ :=
        vmCall_ok (l := { l with jpt := _ :: l.jpt }) hok hcall
      refine ⟨0, 0, fn, hfn, .inl ⟨hkont, rfl, rfl⟩, hinfo, hle, hstk, ?_, hglobal, ?_, ?_,
        hserved⟩
      · rw [hjpt, hkont]
        rfl
      · rw [cleared_zero]
        exact hnative
      · rw [cleared_zero]
        exact hcompiled
  | exec adjust =>
      rw [hkont] at h
      obtain ⟨base, l₁, hinit, hcall⟩ := bind_ok_iff.1 h
      have hjpt : l₁.jpt = l.jpt := by
        obtain ⟨-, -, -, -, -, -, -, -, -, rfl⟩ := callInit_ok hinit
        rfl
      refine ⟨base, entered_of_callInit hok (by simp [hkont]) ?_ hinit hcall⟩
      rw [hjpt, hkont]
      rfl
  | native =>
      rw [hkont] at h
      obtain ⟨base, l₁, hinit, hcall⟩ := bind_ok_iff.1 h
      have hjpt : l₁.jpt = l.jpt := by
        obtain ⟨-, -, -, -, -, -, -, -, -, rfl⟩ := callInit_ok hinit
        rfl
      refine ⟨base, entered_of_callInit hok (by simp [hkont]) ?_ hinit hcall⟩
      rw [hjpt, hkont]
      rfl
  | pcall =>
      rw [hkont] at h
      obtain ⟨base, l₁, hinit, hrest⟩ := bind_ok_iff.1 h
      have hsame : l₁.jpt = l.jpt ∧ l₁.info = l.info := by
        obtain ⟨-, -, -, -, -, -, -, -, -, rfl⟩ := callInit_ok hinit
        exact ⟨rfl, rfl⟩
      rw [bind_of_ok (get_apply l₁)] at hrest
      cases hj : l₁.jpt with
      | nil =>
          rw [hj] at hrest
          cases hrest
      | cons jpt rest =>
          rw [hj] at hrest
          obtain ⟨u, l₂, hjenter, hcall⟩ := bind_ok_iff.1 hrest
          cases hjenter
          refine ⟨base, entered_of_callInit hok (by simp [hkont]) ?_ hinit hcall⟩
          rw [hkont, Ctx.handlersIn, ← hsame.1, ← hsame.2, hj]
          rfl

end Ymd
