import Ymd.Machine.Windows

/-! # Closures

An instance of a function shares its code with the template and has bound values of
its own: those that are on the stack when `I_BIND` makes it. After that only its own
body assigns them, and the copy of the arguments where one of them is named `argv`.
-/

namespace Ymd

open Foundation

/-! ## Instances -/

/-- The bound values, with those that `func_bind` allocates first. -/
def Func.filled (fn : Func) : List Variable :=
  if fn.bind = [] then .replicate fn.nBind .nil else fn.bind

section

variable {l l' : Ctx}

theorem funcBind_ok {fn fn' : Func} {i : Nat} {v : Variable} (h : funcBind fn i v = .ok fn') :
    i < fn.nBind ∧ fn' = { fn with bind := fn.filled.set i v } := by
  unfold funcBind at h
  split at h
  next hi =>
    cases h
    exact ⟨hi, rfl⟩
  next => cases h

theorem filled_of_ne_nil {fn : Func} (hne : fn.bind ≠ []) : fn.filled = fn.bind := if_neg hne

/-- The loop of `I_BIND` sets the bound values from place `k - n` on to the topmost
operands, the lowest one first. -/
theorem bindAll_filled {k n : Nat} {copied copied' : Func} (hn : n ≤ k)
    (hnum : copied.nBind = k) (hlen : copied.filled.length = k)
    (h : bindAll k n copied l = .ok copied' l') :
    l' = l ∧ copied' = { copied with bind := copied'.bind } ∧
      copied'.filled = copied.filled.take (k - n) ++ (l.stk.take n).reverse ∧
      (copied.bind ≠ [] ∨ 0 < n → copied'.bind ≠ []) := by
  induction n generalizing copied with
  | zero =>
      obtain ⟨rfl, rfl⟩ := pure_ok_iff.1 h
      exact ⟨rfl, rfl, by simp [← hlen], fun hne => hne.elim id fun hlt => absurd hlt (lt_irrefl 0)⟩
  | succ n ih =>
      obtain ⟨v, l₁, hv, hrest⟩ := bind_ok_iff.1 h
      obtain ⟨hv, rfl⟩ := ymdTop_ok_iff.1 hv
      obtain ⟨mid, l₂, hmid, htail⟩ := bind_ok_iff.1 hrest
      obtain ⟨hbound, rfl⟩ := check_ok_iff.1 hmid
      obtain ⟨-, rfl⟩ := funcBind_ok hbound
      have hne : copied.filled.set (k - n - 1) v ≠ [] := by
        rw [Ne, ← List.length_eq_zero_iff, List.length_set, hlen]
        omega
      have hfilled : Func.filled { copied with bind := copied.filled.set (k - n - 1) v } =
          copied.filled.set (k - n - 1) v := filled_of_ne_nil hne
      have hlen' : (Func.filled { copied with bind := copied.filled.set (k - n - 1) v }).length = k := by
        rw [hfilled, List.length_set, hlen]
      have hnum' : ({ copied with bind := copied.filled.set (k - n - 1) v } : Func).nBind = k := hnum
      obtain ⟨rfl, hrest, heq, hkept⟩ := ih (Nat.le_of_succ_le hn) hnum' hlen' htail
      refine ⟨rfl, hrest, ?_, fun _ => hkept (.inl hne)⟩
      have hsplit : k - n = (k - (n + 1)) + 1 := by omega
      have hidx : k - n - 1 = k - (n + 1) := by omega
      rw [heq, hfilled, hidx, hsplit, List.take_add_one, List.take_set_of_le le_rfl,
        List.getElem?_set_self (by omega), List.take_add_one, hv]
      simp

theorem funcOf_ok {v : Variable} {o : Addr} (h : funcOf v = .ok o) : v = .func o := by
  unfold funcOf at h
  split at h
  next =>
    cases h
    rfl
  next => cases h

/-- The instance that `I_BIND` makes of a function. -/
def Func.instance' (fn : Func) (vals : List Variable) : Func := { fn with bind := vals, argv := none }

/-- `I_BIND` makes an instance with the topmost operands for its bound values, and
leaves the template as it is. -/
theorem instBind_ok {n : Nat} (h : instBind n l = .ok () l') :
    ∃ o fn, l.stk[n]? = some (.func o) ∧ l.heap.obj o = some (.func fn) ∧ fn.core.isSome = true ∧
      fn.nBind = n ∧ l' = { l with
        heap := (l.heap.alloc (.func (fn.instance' (l.stk.take n).reverse))).1
        stk := .func l.heap.next :: l.stk.drop (n + 1) } := by
  obtain ⟨opd, l₁, hopd, h₁⟩ := bind_ok_iff.1 h
  obtain ⟨hopd, rfl⟩ := ymdTop_ok_iff.1 hopd
  obtain ⟨o, l₂, hlift, h₂⟩ := bind_ok_iff.1 h₁
  obtain ⟨ho, rfl⟩ := lift_ok_iff.1 hlift
  obtain rfl := funcOf_ok ho
  obtain ⟨fn, l₃, hfn, h₃⟩ := bind_ok_iff.1 h₂
  obtain ⟨hfn, rfl⟩ := funcAt_ok_iff.1 hfn
  obtain ⟨copied, l₄, hclone, h₄⟩ := bind_ok_iff.1 h₃
  obtain ⟨hclone, rfl⟩ := check_ok_iff.1 hclone
  unfold funcClone at hclone
  split at hclone
  next hcode =>
    cases hclone
    by_cases hnum : fn.nBind = n
    · rw [if_neg (not_not.2 hnum)] at h₄
      obtain ⟨bound, l₅, hall, h₅⟩ := bind_ok_iff.1 h₄
      -- `func_clone` leaves the bound values out, and `func_bind` fills them in one by one
      have hempty : Func.filled { fn with bind := [], argv := none } = .replicate n .nil :=
        (if_pos rfl).trans (by rw [hnum])
      have hnum' : ({ fn with bind := [], argv := none } : Func).nBind = n := hnum
      have hlen : (Func.filled { fn with bind := [], argv := none }).length = n := by
        rw [hempty, List.length_replicate]
      obtain ⟨rfl, hbound, hfilled, hkept⟩ := bindAll_filled le_rfl hnum' hlen hall
      have hvals : bound.bind = (l₅.stk.take n).reverse := by
        rw [Nat.sub_self, List.take_zero, List.nil_append] at hfilled
        rcases Nat.eq_zero_or_pos n with rfl | hpos
        · obtain ⟨rfl, -⟩ := pure_ok_iff.1 hall
          rfl
        · rw [← hfilled, filled_of_ne_nil (hkept (.inr hpos))]
      obtain ⟨o', l₆, hnew, h₆⟩ := bind_ok_iff.1 h₅
      cases hnew
      obtain ⟨u, l₇, hset, h₇⟩ := bind_ok_iff.1 h₆
      obtain ⟨hlt, rfl⟩ := setTop_ok_iff.1 hset
      obtain ⟨hle, rfl⟩ := ymdPop_ok_iff.1 h₇
      refine ⟨o, fn, hopd, hfn, hcode, hnum, ?_⟩
      have hdrop : (l₅.stk.set n (.func l₅.heap.next)).drop n =
          .func l₅.heap.next :: l₅.stk.drop (n + 1) := by
        have hlt' : n < (l₅.stk.set n (.func l₅.heap.next)).length := by
          rw [List.length_set]
          exact hlt
        rw [List.drop_eq_getElem_cons hlt', List.getElem_set_self, List.drop_set_of_lt (Nat.lt_succ_self n)]
      have hmade : bound = fn.instance' (l₅.stk.take n).reverse := by
        rw [hbound, hvals]
        rfl
      rw [← hmade, ← hdrop]
      rfl
    · rw [if_pos hnum] at h₄
      cases h₄
  next => cases hclone

theorem exists_bindAll {k n : Nat} {copied : Func} (hn : n ≤ k) (hnum : copied.nBind = k)
    (henough : n ≤ l.stk.length) : ∃ copied', bindAll k n copied l = .ok copied' l := by
  induction n generalizing copied with
  | zero => exact ⟨copied, rfl⟩
  | succ n ih =>
      have hbound : funcBind copied (k - n - 1) l.stk[n] =
          .ok { copied with bind := copied.filled.set (k - n - 1) l.stk[n] } := by
        rw [funcBind, if_pos (by omega)]
        rfl
      rw [bindAll, bind_of_ok (ymdTop_of_getElem? (List.getElem?_eq_getElem henough)),
        bind_of_ok (check_of_ok hbound)]
      have hnum' : ({ copied with bind := copied.filled.set (k - n - 1) l.stk[n] } : Func).nBind = k :=
        hnum
      exact ih (Nat.le_of_succ_le hn) hnum' (Nat.le_of_succ_le henough)

/-- `I_BIND` succeeds for a template with as many bound values. -/
theorem exists_instBind {n : Nat} {o : Addr} {fn : Func} (ho : l.stk[n]? = some (.func o))
    (hfn : l.heap.obj o = some (.func fn)) (hcode : fn.core.isSome = true) (hnum : fn.nBind = n) :
    ∃ l', instBind n l = .ok () l' := by
  obtain ⟨hlt, -⟩ := List.getElem?_eq_some_iff.1 ho
  have hclone : funcClone fn = .ok { fn with bind := [], argv := none } := if_pos hcode
  have hnum' : ({ fn with bind := [], argv := none } : Func).nBind = n := hnum
  obtain ⟨bound, hall⟩ := exists_bindAll le_rfl hnum' (Nat.le_of_lt hlt)
  have hcast : funcOf (.func o) = .ok o := rfl
  rw [instBind, bind_of_ok (ymdTop_of_getElem? ho), bind_of_ok (lift_of_ok hcast),
    bind_of_ok (funcAt_of_obj hfn), bind_of_ok (check_of_ok hclone)]
  dsimp only
  rw [if_neg (not_not.2 hnum), bind_of_ok hall]
  have hnew : gcNew (.func bound) l =
      .ok l.heap.next { l with heap := (l.heap.alloc (.func bound)).1 } := rfl
  have hset := setTop_of_lt (l := { l with heap := (l.heap.alloc (.func bound)).1 })
    (v := .func l.heap.next) hlt
  rw [bind_of_ok hnew, bind_of_ok hset]
  refine ⟨_, ymdPop_of_le ?_⟩
  rw [List.length_set]
  exact Nat.le_of_lt hlt

end

/-! ## Closure expressions -/

/-- Two machines with the same objects and the same local area. -/
structure Ctx.Alike (l l' : Ctx) : Prop where
  heap : l'.heap = l.heap
  loc : l'.loc = l.loc
  global : l'.global = l.global

/-- A computation that depends on nothing else. -/
def Blind {α : Type} (x : VmM α) : Prop :=
  ∀ l l' a, l.Alike l' → x l = .ok a l → x l' = .ok a l'

section

variable {α β : Type} {x : VmM α} {f : α → VmM β} {env : Env}

theorem Blind.bind (hread : ReadOnly x) (hx : Blind x) (hf : ∀ a, Blind (f a)) : Blind (x >>= f) := by
  intro l l' b halike h
  obtain ⟨a, l₁, hxa, hfb⟩ := bind_ok_iff.1 h
  obtain rfl := hread.ok hxa
  rw [bind_of_ok (hx l l' a halike hxa)]
  exact hf a l l' b halike hfb

/-- A look at the objects, the local area or the global map. -/
theorem Blind.get {f : Ctx → VmM β} (hsame : ∀ l l', l.Alike l' → f l' = f l) (hf : ∀ l, Blind (f l)) :
    Blind (MonadState.get >>= f) := by
  intro l l' b halike h
  rw [bind_of_ok (get_apply l)] at h
  rw [bind_of_ok (get_apply l'), hsame l l' halike]
  exact hf l l l' b halike h

theorem Blind.lift (y : Partial α) : Blind (lift y) := by
  intro l l' a _ h
  exact lift_of_ok (lift_ok_iff.1 h).1

theorem Blind.check (y : Except Fault α) : Blind (check y) := Blind.lift _

theorem Blind.pure (a : α) : Blind (pure a : VmM α) := by
  intro l l' b _ h
  obtain ⟨rfl, -⟩ := pure_ok_iff.1 h
  rfl

theorem Blind.throw (stop : Stop) : Blind (throw stop : VmM α) := by
  intro l l' b _ h
  cases h

theorem blind_funcAt (o : Addr) : Blind (funcAt o) :=
  Blind.get (fun l l' halike => by rw [halike.heap]) fun _ => Blind.check _

theorem blind_kvalAt (core : Chunk) (i : Nat) : Blind (kvalAt core i) := by
  unfold kvalAt
  cases core.kval[i]? with
  | none => exact Blind.throw _
  | some v => exact Blind.pure v

theorem blind_loadLocal (info : CallInfo) (i : Nat) : Blind (loadLocal info i) := by
  refine Blind.bind (readOnly_funcAt _) (blind_funcAt _) fun fn =>
    Blind.bind (ReadOnly.check _) (Blind.check _) fun slot => ?_
  cases slot with
  | bind i => exact Blind.pure _
  | loc i => exact Blind.get (fun l l' halike => by rw [halike.loc]) fun _ => Blind.pure _

theorem blind_hmapGet (o : Addr) (key : Variable) : Blind (hmapGet env o key) := by
  refine Blind.get (fun l l' halike => by rw [halike.heap]) fun l => ?_
  refine Blind.bind (ReadOnly.check _) (Blind.check _) fun map => ?_
  refine Blind.bind (readOnly_keyOps env) ?_ fun ops => Blind.check _
  intro l₁ l₂ ops halike h
  rw [keyOps_apply] at h ⊢
  cases h
  rw [halike.heap]

theorem blind_doKeyz (core : Chunk) (i : Nat) : Blind (doKeyz core i) := by
  unfold doKeyz
  cases core.kval[i]? with
  | none => exact Blind.throw _
  | some v => cases v <;> first | exact Blind.pure _ | exact Blind.throw _

theorem readOnly_doKeyz (core : Chunk) (i : Nat) : ReadOnly (doKeyz core i) := by
  unfold doKeyz
  cases core.kval[i]? with
  | none => exact ReadOnly.throw _
  | some v => cases v <;> first | exact ReadOnly.pure _ | exact ReadOnly.throw _

theorem blind_vmIgetg (core : Chunk) (i : Nat) : Blind (vmIgetg env core i) :=
  Blind.get (fun l l' halike => by rw [halike.global]) fun _ =>
    Blind.bind (readOnly_doKeyz core i) (blind_doKeyz core i) fun _ => blind_hmapGet _ _

theorem Blind.ite {c : Prop} [Decidable c] {y : VmM α} (hx : Blind x) (hy : Blind y) :
    Blind (if c then x else y) := by
  split
  · exact hx
  · exact hy

/-- What a `PUSH` pushes depends on the frame, its window and the objects. -/
theorem blind_pushed (info : CallInfo) (core : Chunk) (flag : BitVec 8) (param : Nat) :
    Blind (pushed env info core flag param) :=
  Blind.ite (blind_kvalAt core param) <| Blind.ite (blind_loadLocal info param) <|
    Blind.ite (Blind.pure _) <| Blind.ite (Blind.pure _) <|
      Blind.ite (blind_vmIgetg core param) (Blind.throw _)

/-- The machine behind an instruction that changes the stack. -/
def Ctx.stepped (l : Ctx) (info : CallInfo) (chain : List CallInfo) (pc : Nat)
    (stk : List Variable) : Ctx :=
  { l with info := { info with pc := pc } :: chain, stk := stk }

theorem after_push {l : Ctx} {info : CallInfo} {chain : List CallInfo} {fn : Func} {core : Chunk}
    {inst : Inst} {v : Variable} (hinfo : l.info = info :: chain)
    (hfn : l.heap.obj info.run = some (.func fn)) (hcore : fn.core = some core)
    (hinst : core.inst[info.pc]? = some inst) (hop : asmOp inst = Opcode.push.code)
    (hpush : pushed env info core (asmFlag inst) (asmParam inst).toNat l = .ok v l)
    (hroom : l.stk.length < maxStack) :
    after env l .exec = .run (l.stepped info chain (info.pc + 1) (v :: l.stk)) := by
  have hexec : execInst env l = .ok .next { l with stk := v :: l.stk } := by
    rw [execInst_of_inst env hinfo hfn hcore hinst hop]
    change (pushed env info core (asmFlag inst) (asmParam inst).toNat >>= fun v =>
      ymdPush v >>= fun _ => (return Next.next : VmM Next)) l = _
    rw [bind_of_ok hpush, bind_of_ok (ymdPush_of_lt hroom)]
    rfl
  change settle (vmRound env l) = _
  rw [vmRound, bind_of_ok hexec]
  change Mach.run (Ctx.withPc _ _) = _
  rw [Ctx.withPc, Ctx.stepped, hinfo]

/-- The pushes of a closure expression: each one pushes what its variable holds in front
of the first. -/
theorem runs_pushes {info : CallInfo} {chain : List CallInfo} {fn : Func} {core : Chunk}
    {pushes : List (Inst × Variable)} {rest : List Inst} {pc : Nat} {l : Ctx}
    (hinfo : l.info = { info with pc := pc } :: chain) (hfn : l.heap.obj info.run = some (.func fn))
    (hcore : fn.core = some core) (hcode : core.inst.drop pc = pushes.map Prod.fst ++ rest)
    (hpush : ∀ p ∈ pushes, asmOp p.1 = Opcode.push.code ∧
      pushed env info core (asmFlag p.1) (asmParam p.1).toNat l = .ok p.2 l)
    (hroom : l.stk.length + pushes.length ≤ maxStack) :
    Runs (Step env) (Mach.Guarded fun _ a => a = .exec) (.run l)
      (.run (l.stepped info chain (pc + pushes.length) ((pushes.map Prod.snd).reverse ++ l.stk))) := by
  induction pushes generalizing l pc with
  | nil =>
      have hsame : l.stepped info chain pc l.stk = l := by
        rw [Ctx.stepped, ← hinfo]
      have hrefl : Runs (Step env) (Mach.Guarded fun _ a => a = .exec) (.run l)
          (.run (l.stepped info chain pc l.stk)) := by
        rw [hsame]
        exact .refl
      exact hrefl
  | cons p pushes ih =>
      obtain ⟨hop, hv⟩ := hpush p List.mem_cons_self
      have hat : core.inst[pc]? = some p.1 := by
        rw [← List.head?_drop, hcode]
        rfl
      have hlt : l.stk.length < maxStack := by
        rw [List.length_cons] at hroom
        omega
      have hstep : Step env (.run l) .exec (.run (l.stepped info chain (pc + 1) (p.2 :: l.stk))) :=
        ⟨l, rfl, enabled_exec hinfo hfn hcore,
          (@after_push env l { info with pc := pc } chain fn core p.1 p.2 hinfo hfn hcore hat hop hv
            hlt).symm⟩
      have hrest := @ih (pc + 1) (l.stepped info chain (pc + 1) (p.2 :: l.stk)) rfl hfn ?_ ?_ ?_
      · refine (Runs.single ?_ hstep).trans ?_
        · exact fun _ _ => rfl
        · have hpc : pc + 1 + pushes.length = pc + (pushes.length + 1) := by omega
          rw [List.map_cons, List.reverse_cons, List.append_assoc, List.length_cons, ← hpc]
          exact hrest
      · rw [← List.tail_drop, hcode]
        rfl
      · intro q hq
        obtain ⟨hop', hv'⟩ := hpush q (List.mem_cons_of_mem p hq)
        exact ⟨hop', blind_pushed info core _ _ l _ q.2 ⟨rfl, rfl, rfl⟩ hv'⟩
      · change (p.2 :: l.stk).length + pushes.length ≤ maxStack
        rw [List.length_cons] at hroom ⊢
        omega

/-- The step behind the pushes makes the instance. -/
theorem after_bind {l : Ctx} {info : CallInfo} {chain : List CallInfo} {fn tmpl : Func} {core : Chunk}
    {inst : Inst} {n : Nat} {o : Addr} (hinfo : l.info = info :: chain)
    (hfn : l.heap.obj info.run = some (.func fn)) (hcore : fn.core = some core)
    (hinst : core.inst[info.pc]? = some inst) (hop : asmOp inst = Opcode.bind.code)
    (hn : (asmParam inst).toNat = n) (ho : l.stk[n]? = some (.func o))
    (htmpl : l.heap.obj o = some (.func tmpl)) (hcode : tmpl.core.isSome = true)
    (hnum : tmpl.nBind = n) :
    after env l .exec = .run (Ctx.stepped
      { l with heap := (l.heap.alloc (.func (tmpl.instance' (l.stk.take n).reverse))).1 } info chain
      (info.pc + 1) (.func l.heap.next :: l.stk.drop (n + 1))) := by
  obtain ⟨l₁, hbind⟩ := exists_instBind ho htmpl hcode hnum
  obtain ⟨o', tmpl', ho', htmpl', -, -, heq⟩ := instBind_ok hbind
  rw [ho] at ho'
  cases ho'
  rw [htmpl] at htmpl'
  cases htmpl'
  have hexec : execInst env l = .ok .next l₁ := by
    rw [execInst_of_inst env hinfo hfn hcore hinst hop]
    change (instBind (asmParam inst).toNat >>= fun _ => (return Next.next : VmM Next)) l = _
    rw [hn, bind_of_ok hbind]
    rfl
  change settle (vmRound env l) = _
  rw [vmRound, bind_of_ok hexec, heq]
  change Mach.run (Ctx.withPc _ _) = _
  rw [Ctx.withPc, Ctx.stepped, hinfo]

/-- The code of a closure expression behind the push of its template: it pushes the
variables that are bound, with the values they have in `l`, and makes the instance. -/
structure Ctx.Closure (env : Env) (l : Ctx) (info : CallInfo) (core : Chunk)
    (pushes : List (Inst × Variable)) : Prop where
  code : ∃ inst rest, core.inst.drop info.pc = pushes.map Prod.fst ++ inst :: rest ∧
    asmOp inst = Opcode.bind.code ∧ (asmParam inst).toNat = pushes.length
  push : ∀ p ∈ pushes, asmOp p.1 = Opcode.push.code ∧
    Ymd.pushed env info core (asmFlag p.1) (asmParam p.1).toNat l = .ok p.2 l

/-- A closure expression makes an instance whose bound values are those of its variables. -/
theorem closure_made {l : Ctx} {info : CallInfo} {chain : List CallInfo} {fn tmpl : Func}
    {core : Chunk} {pushes : List (Inst × Variable)} {o : Addr} {stk : List Variable}
    (hinfo : l.info = info :: chain) (hfn : l.heap.obj info.run = some (.func fn))
    (hcore : fn.core = some core) (hclosure : l.Closure env info core pushes)
    (hstk : l.stk = .func o :: stk) (htmpl : l.heap.obj o = some (.func tmpl))
    (hcode : tmpl.core.isSome = true) (hnum : tmpl.nBind = pushes.length)
    (hroom : l.stk.length + pushes.length ≤ maxStack) :
    Runs (Step env) (Mach.Guarded fun _ a => a = .exec) (.run l) (.run (Ctx.stepped
      { l with heap := (l.heap.alloc (.func (tmpl.instance' (pushes.map Prod.snd)))).1 } info chain
      (info.pc + pushes.length + 1) (.func l.heap.next :: stk))) := by
  obtain ⟨inst, rest, hdrop, hop, hn⟩ := hclosure.code
  have hpushes := @runs_pushes env info chain fn core pushes _ info.pc l hinfo hfn hcore hdrop hclosure.push hroom
  have hinst : core.inst[info.pc + pushes.length]? = some inst := by
    rw [← List.getElem?_drop, hdrop, List.getElem?_append_right (by rw [List.length_map]),
      List.length_map, Nat.sub_self]
    rfl
  have hvals : ((pushes.map Prod.snd).reverse ++ l.stk).take pushes.length =
      (pushes.map Prod.snd).reverse := List.take_left' (by simp)
  have htop : ((pushes.map Prod.snd).reverse ++ l.stk)[pushes.length]? = some (.func o) := by
    rw [List.getElem?_append_right (by simp), hstk]
    simp
  have hbelow : ((pushes.map Prod.snd).reverse ++ l.stk).drop (pushes.length + 1) = stk := by
    rw [← List.drop_drop, List.drop_left' (by simp), hstk]
    rfl
  have hlast : after env (l.stepped info chain (info.pc + pushes.length)
      ((pushes.map Prod.snd).reverse ++ l.stk)) .exec = .run (Ctx.stepped
        { l with heap := (l.heap.alloc (.func (tmpl.instance' (pushes.map Prod.snd)))).1 } info chain
        (info.pc + pushes.length + 1) (.func l.heap.next :: stk)) := by
    have hafter : after env (l.stepped info chain (info.pc + pushes.length)
        ((pushes.map Prod.snd).reverse ++ l.stk)) .exec = _ :=
      @after_bind env _ { info with pc := info.pc + pushes.length } chain fn tmpl core inst
        pushes.length o rfl hfn hcore hinst hop hn htop htmpl hcode hnum
    rw [hafter, Ctx.stepped]
    dsimp only [Ctx.stepped]
    rw [hvals, List.reverse_reverse, hbelow]
  refine hpushes.trans (Runs.single (fun _ _ => rfl) ⟨_, rfl, ?_, hlast.symm⟩)
  exact enabled_exec rfl hfn hcore

end

/-! ## Bound values -/

/-- `func_bind` is called for native functions only. -/
def Act.BindsNative (l : Ctx) (a : Act) : Prop :=
  ∀ o i v, a = .prim (.bind o i v) → ∀ fn, l.heap.obj o = some (.func fn) → fn.core = none

/-- A function assigns a bound value of its own: its body does, or the copy of the
arguments of a call of it where the variable is named `argv`. -/
def Act.AssignsOwn (env : Env) (l : Ctx) (a : Act) (o : Addr) (j : Nat) : Prop :=
  (a = .exec ∧ l.BodyAssigns o j) ∨ ∃ c, callOf env l a = some c ∧ l.CallAssigns c o j

section

variable {env : Env} {l l' : Ctx} {a : Act} {o : Addr} {fn : Func} {j : Nat}

/-- Nothing else assigns a bound value of a compiled function. -/
theorem Act.Assigns.own (hfn : l.heap.obj o = some (.func fn)) (hcode : fn.core.isSome = true)
    (hnative : a.BindsNative l) (h : a.Assigns env l o j) : a.AssignsOwn env l o j := by
  cases h with
  | body ha h => exact .inl ⟨ha, h⟩
  | args hcall h => exact .inr ⟨_, hcall, h⟩
  | native ha =>
      rw [hnative o _ _ ha fn hfn] at hcode
      cases hcode

/-- A bound value stays as it is in every run in which its function does not assign it. -/
theorem bound_kept (hfn : l.heap.obj o = some (.func fn)) (hcode : fn.core.isSome = true)
    (hrun : Runs (Step env) (Mach.Guarded fun l a => a.BindsNative l ∧ ¬ a.AssignsOwn env l o j)
      (.run l) (.run l')) :
    ∃ fn', l'.heap.obj o = some (.func fn') ∧ fn'.core = fn.core ∧ fn'.nBind = fn.nBind ∧
      fn'.bind[j]? = fn.bind[j]? := by
  let kept (m : Mach) : Prop := ∀ l₁, m = .run l₁ → ∃ fn', l₁.heap.obj o = some (.func fn') ∧
    fn'.core = fn.core ∧ fn'.nBind = fn.nBind ∧ fn'.bind[j]? = fn.bind[j]?
  have hkept : kept (.run l') := by
    refine hrun.invariant ?_ ?_
    · rintro t b u hkept hguard ⟨l₁, rfl, -, hafter⟩ l₂ rfl
      obtain ⟨fn₁, hfn₁, hcore₁, hnum₁, hbind₁⟩ := hkept l₁ rfl
      obtain ⟨hnative, hown⟩ := hguard l₁ rfl
      obtain ⟨fn₂, hfn₂, hcore₂, hnum₂, hbind₂⟩ := (edit_after hafter.symm).heap.func o fn₁ hfn₁
      refine ⟨fn₂, hfn₂, hcore₂.trans hcore₁, hnum₂.trans hnum₁, ?_⟩
      rw [← hbind₁]
      refine hbind₂ j fun hassigns => hown (hassigns.own hfn₁ ?_ hnative)
      rw [hcore₁]
      exact hcode
    · rintro l₁ ⟨⟩
      exact ⟨fn, hfn, rfl, rfl, rfl⟩
  exact hkept l' rfl

/-- The body of a function finds its bound value in the function, and assigns it there. -/
theorem bound_variable {info : CallInfo} {v : Variable} (hrun : info.run = o)
    (hfn : l.heap.obj o = some (.func fn)) (hj : j < fn.nBind) (hv : fn.bind[j]? = some v) :
    loadLocal info j l = .ok v l ∧ ∀ w, storeLocal info j w l = .ok ()
      { l with heap := l.heap.set o (.func { fn with bind := fn.bind.set j w }) } := by
  subst hrun
  obtain ⟨hlt, -⟩ := List.getElem?_eq_some_iff.1 hv
  have hslot : vmLocal fn info.loc j = .ok (.bind j) := by
    rw [vmLocal, if_pos hj, if_pos hlt]
    rfl
  constructor
  · have hget : fn.bind.getD j .nil = v := by rw [List.getD_eq_getElem?_getD, hv]; rfl
    rw [loadLocal, bind_of_ok (funcAt_of_obj hfn), bind_of_ok (check_of_ok hslot), ← hget]
    rfl
  · intro w
    rw [storeLocal, bind_of_ok (funcAt_of_obj hfn), bind_of_ok (check_of_ok hslot)]
    rfl

/-- **Closure instances are isolated**: a closure expression makes an instance with the
values of its variables; the instance keeps a bound value until its own body assigns it,
which then finds it there, or a call of the instance itself where the variable is named
`argv`; and a call leaves the local variables of all frames below it as they were. -/
theorem closures_isolated (env : Env) {l₀ l : Ctx} (hinit : l₀.Initial)
    (hrun : Runs (Step env) (Mach.Guarded fun l a => a.RootOutside env l) (.run l₀) (.run l)) :
    (∀ info chain fn tmpl core pushes o stk, l.info = info :: chain →
      l.heap.obj info.run = some (.func fn) → fn.core = some core →
      l.Closure env info core pushes → l.stk = .func o :: stk →
      l.heap.obj o = some (.func tmpl) → tmpl.core.isSome = true → tmpl.nBind = pushes.length →
      l.stk.length + pushes.length ≤ maxStack →
      Runs (Step env) (Mach.Guarded fun _ a => a = .exec) (.run l) (.run (Ctx.stepped
        { l with heap := (l.heap.alloc (.func (tmpl.instance' (pushes.map Prod.snd)))).1 } info chain
        (info.pc + pushes.length + 1) (.func l.heap.next :: stk)))) ∧
    (∀ o fn, l.heap.obj o = some (.func fn) → fn.core.isSome = true → ∀ j,
      (∀ l', Runs (Step env) (Mach.Guarded fun l a => a.BindsNative l ∧ ¬ a.AssignsOwn env l o j)
        (.run l) (.run l') → ∃ fn', l'.heap.obj o = some (.func fn') ∧ fn'.core = fn.core ∧
          fn'.nBind = fn.nBind ∧ fn'.bind[j]? = fn.bind[j]?) ∧
      ∀ info v, info.run = o → j < fn.nBind → fn.bind[j]? = some v →
        loadLocal info j l = .ok v l ∧ ∀ w, storeLocal info j w l = .ok ()
          { l with heap := l.heap.set o (.func { fn with bind := fn.bind.set j w }) }) ∧
    (∀ a c m l₂, callOf env l a = some c → a.RootOutside env l → Step env (.run l) a m →
      Runs (Step env) (Mach.Guarded fun l₁ b => l.info.length < l₁.info.length ∧ b.RootOutside env l₁)
        m (.run l₂) → ∀ g ∈ l.info, ∀ j, l.heap.Window g j → l₂.loc j = l.loc j) := by
  have hsound := sound_of_runs hinit hrun
  have hstacked := stacked_of_runs hinit (fun _ _ h => h) hrun
  refine ⟨?_, ?_, ?_⟩
  · intro info chain fn tmpl core pushes o stk hinfo hfn hcore hclosure hstk htmpl hcode hnum hroom
    exact closure_made hinfo hfn hcore hclosure hstk htmpl hcode hnum hroom
  · intro o fn hfn hcode j
    exact ⟨fun l' hrest => bound_kept hfn hcode hrest,
      fun info v hrun hj hv => bound_variable hrun hfn hj hv⟩
  · intro a c m l₂ hcall hroot hstep hinside
    exact windows_kept hsound hstacked hcall hroot hstep hinside

end

/-! ### Two instances -/

/-- The host has called a function twice that returns an instance with the argument as
its bound value, and the second instance is about to assign it. -/
private def twoInstances : Ctx :=
  (executeIf quietEnv (fun l a => a.Fits quietEnv l)
    ([.prim (.compile 12 [] (lit "func m (v) {return func [v] () {v = 8}}")),
      .prim (.push (.func 2)), .prim (.push (.int 7)), .call .root 2 1, .exec, .exec, .exec, .exec,
      .prim (.push (.func 2)), .prim (.push (.int 9)), .call .root 2 1, .exec, .exec, .exec, .exec,
      .call .root 6 0, .exec])
    (.initial fun _ => 1)).getD (.initial fun _ => 1)

theorem closures_isolated_two : ∃ l', Step quietEnv (.run twoInstances) .exec (.run l') ∧
    (l'.heap.func 6).toOption.map Func.bind = some [.int 8] ∧
    ∃ fn, l'.heap.obj 5 = some (.func fn) ∧ fn.bind[0]? = some (.int 7) := by
  have hrun : Runs (Step quietEnv) (Mach.Guarded fun l a => a.Fits quietEnv l)
      (.run (.initial fun _ => 1)) (.run twoInstances) := runs_executeIf quietEnv (by decide +kernel)
  obtain ⟨henabled, hcall, hhead, hfive, hstep⟩ : Act.exec.Enabled twoInstances ∧
      callOf quietEnv twoInstances .exec = none ∧
      (twoInstances.info.head?).map CallInfo.run = some 6 ∧
      (twoInstances.heap.func 5).toOption.map (fun fn => (fn.core.isSome, fn.bind)) =
        some (true, [.int 7]) ∧
      ((after quietEnv twoInstances .exec).ctx.bind fun l' =>
        (l'.heap.func 6).toOption.map Func.bind) = some [.int 8] := by decide +kernel
  generalize twoInstances = l at *
  obtain ⟨l', hl', hsix⟩ := Option.bind_eq_some_iff.1 hstep
  obtain ⟨fn, hfn, hparts⟩ := Option.map_eq_some_iff.1 hfive
  obtain ⟨hcode, hbind⟩ := Prod.mk.inj hparts
  have hdone := step_of_ctx quietEnv henabled hl'
  refine ⟨l', hdone, hsix, ?_⟩
  -- the second instance runs, so the step assigns nothing of the first one
  have hguard : Mach.Guarded (fun l a => a.BindsNative l ∧ ¬ a.AssignsOwn quietEnv l 5 0) (.run l)
      .exec := by
    rintro _ ⟨⟩
    refine ⟨nofun, ?_⟩
    rintro (⟨-, info, hinfo, heq, -⟩ | ⟨c, hc, -⟩)
    · rw [hinfo] at hhead
      cases (Option.some.inj hhead).symm.trans heq.symm
    · rw [hcall] at hc
      cases hc
  obtain ⟨-, hbound, -⟩ :=
    closures_isolated quietEnv (initial_initial _) (hrun.mono fun t b hfits l₁ hl₁ =>
      (hfits l₁ hl₁).rootOutside)
  obtain ⟨hkept, -⟩ := hbound 5 fn (mem_toOption_func.1 hfn) hcode 0
  obtain ⟨fn', hfn', -, -, hsame⟩ := hkept l' (Runs.single hguard hdone)
  refine ⟨fn', hfn', ?_⟩
  rw [hsame, hbind]
  rfl

/-- The program is about to call an instance with a bound variable `argv`. -/
private def boundArgv : Ctx :=
  (execute quietEnv
    ([.prim (.compile 8 [] (lit "var x = func [argv] () {} x()")), .prim (.push (.func 1)),
      .prim (.push (.int 7)), .call .root 1 1, .exec, .exec, .exec, .exec, .exec])
    (.initial fun _ => 1)).getD (.initial fun _ => 1)

/-- The bound value is gone when the body starts. -/
example : Act.exec.Enabled boundArgv ∧ boundArgv.info.head?.map CallInfo.run = some 1 ∧
    (boundArgv.heap.func 4).toOption.map Func.bind = some [.dyay 3] ∧
    (after quietEnv boundArgv .exec).ctx.map (fun l' =>
      (l'.info.head?.map (fun info => (info.run, info.pc)),
        (l'.heap.func 4).toOption.map Func.bind)) = some (some (4, 0), some [.nil]) := by
  decide +kernel

end Ymd
