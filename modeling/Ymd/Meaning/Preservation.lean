import Ymd.Meaning.Layout
import Ymd.Meaning.Statements

/-! # The compiler preserves what a program means

The function objects that the compiler makes for a script, and for the functions and
closures in it, do on the machine what the evaluator does with their bodies.
-/

namespace Ymd

open Foundation

/-- The machine is about to leave the function with `rv` results. -/
def Yields (env : Env) (info : CallInfo) (chain : List CallInfo) (rv : Int) (stk : List Variable) (l : Ctx)
    (m : Mach) : Prop :=
  ∃ pc, Located info chain pc stk l m ∧ execInst env (l.onto ({ info with pc := pc } :: chain) stk) =
    .ok (.ret rv) (l.onto ({ info with pc := pc } :: chain) stk)

/-- Where the machine is when the body of a function has ended: a `return` leaves its value
on the stack, the end of the body nothing. -/
def Ends (env : Env) (info : CallInfo) (chain : List CallInfo) (stk : List Variable) :
    StmtEnd → Ctx → Mach → Prop
  | .normal => Yields env info chain 0 stk
  | .ret v => Yields env info chain 1 (v :: stk)
  | .unfinished => fun l m => ∃ pc, Located info chain pc stk l m
  | _ => fun _ _ => False

/-- A function with this code, called with room for `room` operands, does what the
computation does, or stops with its error. -/
def Chunk.Computes (core : Chunk) (env : Env) (room : Nat) (x : CallInfo → VmM StmtEnd) : Prop :=
  ∀ (info : CallInfo) (chain : List CallInfo) (l : Ctx), l.info = info :: chain → info.pc = 0 →
    l.Installed core info → l.stk.length + room ≤ maxStack →
      CarriesOut (Step env) (fun _ a => a = .exec) (StopsWith env info chain) (Ctx.Installed core info)
        (.run l) (Ends env info chain l.stk) (x info l)

section

variable {env : Env} {core : Chunk} {info : CallInfo} {chain : List CallInfo} {l : Ctx} {m : Mach}
  {stk : List Variable} {i j : Nat}

theorem Located.returns {rv : Nat} (hl : l.Installed core info) (hinst : core.Has i .ret 0 rv)
    (hm : Located info chain i stk l m) : Yields env info chain rv stk l m := by
  obtain ⟨fn, -, heq⟩ := @execInst_installed env core info chain i rv l .ret 0 stk hl hinst
  refine ⟨i, hm, heq.trans ?_⟩
  change EStateM.Result.ok (Next.ret ((asmParam _).toNat : Int)) _ = _
  rw [hinst.param]

/-- Behind its last instruction a function returns nothing. -/
theorem execInst_of_end {fn : Func} (hinfo : l.info = info :: chain) (hfn : l.heap.obj info.run = some (.func fn))
    (hcore : fn.core = some core) (hnone : core.inst[info.pc]? = none) : execInst env l = .ok (.ret 0) l := by
  have hat : coreOf fn l = .ok core l := by
    rw [coreOf, hcore]
    rfl
  rw [execInst, bind_of_ok (ymdCalled_of_cons hinfo), bind_of_ok (funcAt_of_obj hfn), bind_of_ok hat, hnone]
  rfl

theorem Located.returns_end (hl : l.Installed core info) (hnone : core.inst[i]? = none)
    (hm : Located info chain i stk l m) : Yields env info chain 0 stk l m := by
  obtain ⟨fn, hfn, hcore⟩ := hl
  exact ⟨i, hm, @execInst_of_end env core { info with pc := i } chain _ fn rfl hfn hcore hnone⟩

theorem Lays.computes {body : Tree .block} {names : List Bytes} (fuel : Nat) (h : Lays core none body names 0 j)
    (hend : core.inst[j]? = none ∨ core.Has j .ret 0 0) :
    core.Computes env body.room fun info => body.exec env info fuel names := by
  intro info chain l hinfo hpc hl hroom
  have hperforms := @Lays.performs env core info chain none 0 j names _ body fuel h
  rw [Tree.entryOf_block] at hperforms
  have hstart : Located info chain 0 l.stk l (.run l) := by
    have hself : l.onto ({ info with pc := 0 } :: chain) l.stk = l := by
      rw [← hpc, Ctx.onto, ← hinfo]
    rw [Located, hself]
  refine Realises.onward (fun o l' m hl' hm => ?_) (hperforms l.stk hroom) l _ hl hstart
  refine ⟨m, .refl, ?_⟩
  cases o with
  | normal =>
      rcases hend with hnone | hinst
      · exact Located.returns_end hl' hnone hm
      · exact Located.returns hl' hinst hm
  | break' =>
      obtain ⟨place, hplace, -⟩ := hm
      cases hplace
  | continue' =>
      obtain ⟨place, hplace, -⟩ := hm
      cases hplace
  | ret v =>
      obtain ⟨pc, hinst, hm⟩ := hm
      exact Located.returns hl' hinst hm
  | unfinished => exact hm

end

/-! ## Bodies of functions -/

/-- The end of a body: a `return` behind the last instruction, unless that is one. -/
def Draft.Closed (d d' : Draft) : Prop := d' = d ∨ d.Adds d' .ret 0 0

theorem Draft.Written.computes {d d₁ d₂ : Draft} {body : Tree .block}
    (hinst : d.blk.inst = []) (hkval : d.blk.kval = []) (hklz : d.blk.klz < 2 ^ 16) (hloop : d.loop = [])
    (hbody : d.Written d₁ body.scope (.code body)) (hend : d₁.Closed d₂) (hlt : d₂.kinst < 2 ^ 16)
    (env : Env) (fuel : Nat) :
    d₂.blk.Computes env body.room fun info => body.exec env info fuel d.blk.lz := by
  have hkinst : d.kinst = 0 := congrArg List.length hinst
  have hsmall : d.Small := by
    refine ⟨?_, hklz⟩
    rw [Chunk.kkval, hkval]
    exact Nat.zero_le _
  have hmore : d₁.Extends d₂ := by
    rcases hend with rfl | hadds
    · exact .refl _
    · exact hadds.more
  have hfits : d.Fits d₂ := ⟨hsmall, hlt⟩
  have htop := hfits.right hbody.more hmore
  obtain ⟨holes, -, hnone, hcode⟩ := hbody.code
  rw [hnone hloop] at hcode
  have hin : d.In none := by
    rw [Draft.In, hloop]
    rfl
  have hholds : d₂.blk.HoldsBut d₁.blk [] d.kinst d₁.kinst :=
    hmore.holdsBut htop ⟨fun _ _ _ _ => rfl, List.prefix_rfl⟩ le_rfl hmore.le
  have hlays := (hcode (hfits.left hmore)).2 d₂.blk none hin hholds (by simp)
  rw [hkinst] at hlays
  refine Lays.computes fuel hlays ?_
  rcases hend with rfl | hadds
  · exact .inl (List.getElem?_eq_none le_rfl)
  · refine .inr ⟨?_, Nat.two_pow_pos 16⟩
    rw [hadds.inst]
    exact List.getElem?_concat_length

/-- The names of a body: the values bound to it and its parameters, and its array. -/
def reserved (names : List Bytes) : List Bytes :=
  if (lookIn names (lit "argv")).isSome then names else Chunk.push16 names (lit "argv")

theorem Chunk.length_push16_lt {α : Type} (table : List α) (entry : α) :
    (Chunk.push16 table entry).length < 2 ^ 16 := by
  unfold Chunk.push16
  split
  next hlt =>
    rw [List.length_append]
    exact hlt
  next => exact Nat.two_pow_pos 16

theorem Chunk.addLz_reserved (core : Chunk) :
    (core.addLz (lit "argv")).1 = { core with lz := reserved core.lz } := by
  unfold Chunk.addLz reserved
  by_cases hfound : (core.findLz (lit "argv")).isSome
  · rw [if_pos hfound, if_pos (show (lookIn core.lz (lit "argv")).isSome from hfound)]
  · rw [if_neg hfound, if_neg (show ¬ (lookIn core.lz (lit "argv")).isSome from hfound)]

theorem length_reserved_lt {names : List Bytes} (hlt : names.length < 2 ^ 16) :
    (reserved names).length < 2 ^ 16 := by
  unfold reserved
  split
  · exact hlt
  · exact Chunk.length_push16_lt _ _

section

variable {σ : Type} {src : Source σ} {r : Rec σ}

theorem after_ymkEmitEnd (d : Draft) : After (ymkEmitEnd : ParseM σ Unit) d fun _ d' => d.Closed d' := by
  refine .get fun p hp => ?_
  subst hp
  exact .ite (fun _ => (after_ymkEmitOfP 0).mono fun _ _ h => .inr h) fun _ => .pure (.inl rfl)

/-- Only names are added. -/
structure Draft.Names (d d' : Draft) (names : List Bytes) : Prop where
  inst : d'.blk.inst = d.blk.inst
  kval : d'.blk.kval = d.blk.kval
  lz : d'.blk.lz = d.blk.lz ++ names
  klz : d.blk.klz < 2 ^ 16 → d'.blk.klz < 2 ^ 16
  loop : d'.loop = d.loop

theorem Draft.Names.empty (d : Draft) : d.Names d [] := ⟨rfl, rfl, (List.append_nil _).symm, id, rfl⟩

theorem Draft.Names.followed {d d₁ d₂ : Draft} {names names' : List Bytes} (h : d.Names d₁ names)
    (h' : d₁.Names d₂ names') : d.Names d₂ (names ++ names') where
  inst := h'.inst.trans h.inst
  kval := h'.kval.trans h.kval
  lz := by rw [h'.lz, h.lz, List.append_assoc]
  klz := fun hlt => h'.klz (h.klz hlt)
  loop := h'.loop.trans h.loop

theorem names_newLocvar (name : Bytes) (d : Draft) :
    After (ymkNewLocvar name : ParseM σ Nat) d fun _ d' => d.Names d' [name] := by
  refine (after_ymkNewLocvar name d).mono fun i d' ⟨hi, hlt, hd'⟩ => ?_
  subst hi hd'
  refine ⟨rfl, rfl, rfl, fun _ => ?_, rfl⟩
  change (d.blk.lz ++ [name]).length < _
  rw [List.length_append]
  exact hlt

theorem after_paramNames (fuel : Nat) (d : Draft) :
    After (paramNames src fuel) d fun names d' => d.Names d' names := by
  induction fuel generalizing d with
  | zero => exact .throw _
  | succ fuel ih =>
      refine .idle idle_ymcPeek fun token => ?_
      split
      · exact .pure (.empty d)
      · refine .idle (idle_ymkSymbol src) fun name => .bind (names_newLocvar name d) fun _ d₁ hname => ?_
        refine .idle (idle_ymcTest src _) fun _ => .ite (fun _ => ?_) fun _ => .pure hname
        exact .bind (ih d₁) fun names d₂ hnames => .pure (hname.followed hnames)
      · exact .throw _

theorem names_kargs (k : Nat) (d : Draft) :
    After (onBlk fun core => ({ core with kargs := k }, ()) : ParseM σ Unit) d fun _ d' => d.Names d' [] :=
  after_onBlk ⟨rfl, rfl, (List.append_nil _).symm, id, rfl⟩

theorem after_parseParams (method : Bool) (d : Draft) :
    After (parseParams src r method) d fun params d' => d.Names d' params := by
  refine .idle (idle_ymcMatch src _) fun _ => ?_
  cases method with
  | false =>
      refine .bind (after_paramNames _ d) fun names d₁ hnames => .idle (idle_ymcMatch src _) fun _ => ?_
      refine .bind (names_kargs _ d₁) fun _ d₂ hkargs => .pure ?_
      have hboth := hnames.followed hkargs
      rwa [List.append_nil] at hboth
  | true =>
      refine .bind (names_newLocvar _ d) fun _ d₁ hself => ?_
      refine .bind (after_paramNames _ d₁) fun names d₂ hnames => .idle (idle_ymcMatch src _) fun _ => ?_
      refine .bind (names_kargs _ d₂) fun _ d₃ hkargs => .pure ?_
      have hboth := hself.followed (hnames.followed hkargs)
      rwa [List.append_nil] at hboth

/-- A function object gets the chunk that is closed. -/
theorem ymkLeave_ok {fn : Addr} {p p' : Parser σ} {u : Unit} (h : ymkLeave fn p = .ok u p') :
    ∃ f, p'.heap.obj fn = some (.func f) ∧ f.core = some p.blk := by
  rw [ymkLeave_apply] at h
  split at h
  next f hf =>
    cases h
    exact ⟨_, Heap.obj_set_self hf, rfl⟩
  next => cases h

theorem ymkHack_heap {i : Nat} {inst : Inst} {p p' : Parser σ} {u : Unit}
    (h : ymkHack i inst p = .ok u p') : p'.heap = p.heap := by
  rw [ymkHack, bind_of_ok (get_apply p), assert] at h
  split at h
  · rw [pure_bind] at h
    cases h
    rfl
  · obtain ⟨_, _, hthrow, -⟩ := bind_ok_iff.1 h
    cases hthrow

theorem ymkEmitFunc_ok {desc : FuncDeclDesc} {fn : Addr} {f : Func} {p p' : Parser σ} {u : Unit}
    (hf : p.heap.obj fn = some (.func f)) (h : ymkEmitFunc desc fn p = .ok u p') :
    p'.heap.obj fn = some (.func { f with nBind := desc.nBind % 2 ^ 16 }) := by
  rw [ymkEmitFunc_eq] at h
  obtain ⟨_, p₁, hbind, h⟩ := bind_ok_iff.1 h
  obtain ⟨k, p₂, hkf, h⟩ := bind_ok_iff.1 h
  obtain ⟨_, p₃, hhack, hpop⟩ := bind_ok_iff.1 h
  rw [setBindCount_apply, hf] at hbind
  cases hbind
  cases hkf
  cases hpop
  change p₃.heap.obj fn = _
  rw [ymkHack_heap hhack]
  exact Heap.obj_set_self hf

/-- What `parse_func` and `parse_closure` make of a body computes what the body means,
outside of loops. -/
theorem parseBody_computes {depth : Nat} {fn : Addr} {core : Chunk} {desc : FuncDeclDesc} {p p' : Parser σ}
    {params : List Bytes} {body : Tree .block}
    (hrun : parseBody src (parser src depth) fn core desc p = .ok (.func fn params body) p')
    (hinst : core.inst = []) (hkval : core.kval = []) (hklz : core.klz < 2 ^ 16) (hloop : p.loop = [])
    (hplain : body.plain = true) :
    ∃ f code, p'.heap.obj fn = some (.func f) ∧ f.core = some code ∧ f.nBind = desc.nBind % 2 ^ 16 ∧
      (code.kinst < 2 ^ 16 → ∀ (env : Env) (fuel : Nat), code.Computes env body.room fun info =>
        body.exec env info fuel (reserved (core.lz ++ params))) := by
  obtain ⟨_, p₁, henter, hrun⟩ := bind_ok_iff.1 hrun
  obtain ⟨params', p₂, hparams, hrun⟩ := bind_ok_iff.1 hrun
  obtain ⟨_, p₃, hreserve, hrun⟩ := bind_ok_iff.1 hrun
  obtain ⟨body', p₄, hbody, hrun⟩ := bind_ok_iff.1 hrun
  obtain ⟨_, p₅, hend, hrun⟩ := bind_ok_iff.1 hrun
  obtain ⟨_, p₆, hleave, hrun⟩ := bind_ok_iff.1 hrun
  obtain ⟨_, p₇, hfunc, hrun⟩ := bind_ok_iff.1 hrun
  obtain ⟨htree, rfl⟩ := pure_ok_iff.1 hrun
  cases htree
  cases henter
  obtain ⟨f, hf, hcore⟩ := ymkLeave_ok hleave
  refine ⟨_, _, ymkEmitFunc_ok hf hfunc, hcore, rfl, fun hlt env fuel => ?_⟩
  have hnames := after_parseParams desc.method ⟨core, p.loop⟩ _ _ _ rfl hparams
  have hreserved : p₃.draft = ⟨{ p₂.blk with lz := reserved p₂.blk.lz }, p₂.loop⟩ := by
    cases hreserve
    rw [← Chunk.addLz_reserved]
    rfl
  have hlz : p₃.blk.lz = reserved (core.lz ++ params) :=
    (congrArg (·.blk.lz) hreserved).trans (congrArg reserved hnames.lz)
  have hwritten := after_parseBlock (writes_parsing depth) p₃.draft _ _ _ rfl hbody hplain
  have hclosed := after_ymkEmitEnd p₄.draft _ _ _ rfl hend
  rw [← hlz]
  refine hwritten.computes ?_ ?_ ?_ ?_ hclosed hlt env fuel
  · exact (congrArg (·.blk.inst) hreserved).trans (hnames.inst.trans hinst)
  · exact (congrArg (·.blk.kval) hreserved).trans (hnames.kval.trans hkval)
  · exact (congrArg (·.blk.klz) hreserved).trans_lt (length_reserved_lt (hnames.klz hklz))
  · exact (congrArg (·.loop) hreserved).trans (hnames.loop.trans hloop)

/-- What `ymd_compile` makes of a script computes what the script means. -/
theorem ymdCompile_computes {depth : Nat} {name : Bytes} {lex : σ} {heap : Heap} {stk : List Variable}
    {fn : Addr} {body : Tree .block} {p' : Parser σ}
    (hrun : ymdCompile src depth name (Parser.init lex heap stk) = .ok (.func fn [] body) p')
    (hplain : body.plain = true) :
    ∃ f code, p'.heap.obj fn = some (.func f) ∧ f.core = some code ∧
      (code.kinst < 2 ^ 16 → ∀ (env : Env) (fuel : Nat), code.Computes env body.room fun info =>
        body.exec env info fuel [lit "argv"]) := by
  obtain ⟨o, p₀, hmake, hrun⟩ := bind_ok_iff.1 hrun
  rw [ymdFunc_apply] at hmake
  split at hmake
  · cases hmake
  obtain ⟨_, p₁, hnext, hrun⟩ := bind_ok_iff.1 hrun
  obtain ⟨_, p₂, henter, hrun⟩ := bind_ok_iff.1 hrun
  obtain ⟨body', p₃, hbody, hrun⟩ := bind_ok_iff.1 hrun
  obtain ⟨_, p₄, hend, hrun⟩ := bind_ok_iff.1 hrun
  obtain ⟨_, p₅, hleave, hrun⟩ := bind_ok_iff.1 hrun
  obtain ⟨htree, rfl⟩ := pure_ok_iff.1 hrun
  cases htree
  obtain ⟨f, hf, hcore⟩ := ymkLeave_ok hleave
  refine ⟨f, _, hf, hcore, fun hlt env fuel => ?_⟩
  have hidle := idle_ymcNext src _ _ _ hnext
  cases hmake
  cases henter
  have hwritten := after_topStmts (writes_parsing depth) depth _ _ _ _ rfl hbody hplain
  have hclosed := after_ymkEmitEnd p₃.draft _ _ _ rfl hend
  have hloop : p₁.loop = [] := congrArg Draft.loop hidle
  have hklz : (Chunk.zero.addLz (lit "argv")).1.klz < 2 ^ 16 := by decide
  exact hwritten.computes rfl rfl hklz hloop hclosed hlt env fuel

end

/-! ### A script and a function -/

/-- Whether the function object 0 gets a body without calls, with few instructions. -/
private def plainFunc (params : List Bytes) : EStateM.Result Abort (Parser Lex) (Tree .func) → Bool
  | .ok (.func fn params' body) p => fn = 0 ∧ params' = params ∧ body.plain = true ∧
      (((p.heap.func 0).toOption.bind Func.core).all fun code => code.kinst < 2 ^ 16) = true
  | _ => false

private theorem ok_of_plainFunc {params : List Bytes} {r : EStateM.Result Abort (Parser Lex) (Tree .func)}
    (h : plainFunc params r = true) : ∃ body p, r = .ok (.func 0 params body) p ∧ body.plain = true ∧
      ∀ f code, p.heap.obj 0 = some (.func f) → f.core = some code → code.kinst < 2 ^ 16 := by
  unfold plainFunc at h
  split at h
  · obtain ⟨rfl, rfl, hplain, hfits⟩ := of_decide_eq_true h
    refine ⟨_, _, rfl, hplain, fun f code hf hcode => ?_⟩
    rw [Heap.func_eq_ok.2 hf] at hfits
    change (f.core.all _) = true at hfits
    rw [hcode] at hfits
    exact of_decide_eq_true hfits
  · cases h

/-- The parser behind the name of a function whose object is made. -/
private def larger : Parser Lex :=
  stateOf ((ymdFunc [] >>= fun _ => ymkHold >>= fun _ => ymcNext Lex.source)
    (.init (.init (lit "(a, b) { if a > b { return a } else { return b } }")) Heap.empty []))

theorem parseBody_computes_larger : ∃ body p' f code,
    parseBody Lex.source (parser Lex.source 8) 0 .zero ⟨false, [], 0, 0⟩ larger =
        .ok (.func 0 [lit "a", lit "b"] body) p' ∧
      p'.heap.obj 0 = some (.func f) ∧ f.core = some code ∧ f.nBind = 0 ∧ ∀ (env : Env) (fuel : Nat),
        code.Computes env body.room fun info =>
          body.exec env info fuel [lit "a", lit "b", lit "argv"] := by
  obtain ⟨body, p', hrun, hplain, hfits⟩ := @ok_of_plainFunc [lit "a", lit "b"] _
    (show plainFunc _ (parseBody Lex.source (parser Lex.source 8) 0 .zero ⟨false, [], 0, 0⟩ larger) = true by
      decide +kernel)
  obtain ⟨f, code, hf, hcode, hbind, hcomputes⟩ :=
    parseBody_computes hrun rfl rfl (by decide) rfl hplain
  exact ⟨body, p', f, code, hrun, hf, hcode, hbind, hcomputes (hfits f code hf hcode)⟩

/-- A script that adds up the numbers below ten. -/
private def summing : EStateM.Result Abort (Parser Lex) (Tree .func) :=
  ymdCompile Lex.source 12 [] (.init (.init (lit
    "var i = 0, s = 0 for { if i >= 10 { break } s = s + i i = i + 1 } return s")) Heap.empty [])

theorem ymdCompile_computes_summing : ∃ body p' f code, summing = .ok (.func 0 [] body) p' ∧
    p'.heap.obj 0 = some (.func f) ∧ f.core = some code ∧ ∀ (env : Env) (fuel : Nat),
      code.Computes env body.room fun info => body.exec env info fuel [lit "argv"] := by
  obtain ⟨body, p', hrun, hplain, hfits⟩ :=
    ok_of_plainFunc (show plainFunc [] summing = true by decide +kernel)
  obtain ⟨f, code, hf, hcode, hcomputes⟩ := ymdCompile_computes hrun hplain
  exact ⟨body, p', f, code, hrun, hf, hcode, hcomputes (hfits f code hf hcode)⟩

/-- What a script returns, with at most `fuel` rounds of each loop. -/
private def scriptValue (fuel : Nat) : EStateM.Result Abort (Parser Lex) (Tree .func) → Option Variable
  | .ok (.func fn _ body) p =>
      match body.exec quietEnv ⟨fn, 0, 0, .root, []⟩ fuel [lit "argv"]
          { Ctx.initial (fun _ => 1) with heap := p.heap } with
      | .ok (.ret v) _ => some v
      | _ => none
  | _ => none

example : scriptValue 11 summing = some (.int 45) := by decide +kernel

end Ymd
