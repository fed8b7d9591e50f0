import Ymd.Compiler.Effects
import Ymd.Compiler.Parse

/-! # The effect of a compilation

Every production of the parser keeps to the objects that the compilation made,
and names local variables of its chunk only.
-/

namespace Ymd

open Foundation

variable {σ : Type} {n : Addr} {src : Source σ} {r : Rec σ}

/-- The recursive calls do what is allowed. -/
structure Rec.Sound (n : Addr) (r : Rec σ) : Prop where
  expr : ∀ limit, Ymd.Sound n (r.expr limit)
  stmt : Ymd.Sound n r.stmt

/-! ## Expressions -/

theorem sound_arrayElems (hr : r.Sound n) (fuel : Nat) : Sound n (arrayElems src r fuel) := by
  induction fuel with
  | zero => exact Sound.throw _
  | succ fuel ih =>
      refine Sound.bind sound_ymcPeek fun _ => Sound.ite (Sound.pure _) ?_
      refine Sound.bind (hr.expr 0) fun _ => Sound.bind (sound_ymcTest src _) fun _ => ?_
      exact Sound.ite (Sound.bind ih fun _ => Sound.pure _) (Sound.pure _)

theorem sound_parseArray (hr : r.Sound n) : Sound n (parseArray src r) := by
  refine Sound.bind (sound_ymcMatch src _) fun _ => ?_
  refine Sound.bind (sound_arrayElems hr _) fun elems => ?_
  exact Sound.bind (sound_ymkEmitOfP _ (.inl (by decide))) fun _ => Sound.pure _

theorem sound_mapKey (hr : r.Sound n) : Sound n (mapKey src r) := by
  refine Sound.bind sound_ymcPeek fun token => ?_
  split
  · refine Sound.bind (sound_ymkSymbol src) fun name => ?_
    refine Sound.bind (sound_ymkEmitPushz name) fun _ => ?_
    exact Sound.bind (sound_ymcMatch src _) fun _ => Sound.pure _
  · refine Sound.bind Sound.get fun p => Sound.bind (sound_ymkEmitKz _) fun _ => ?_
    refine Sound.bind (sound_ymcNext src) fun _ => ?_
    exact Sound.bind (sound_ymcMatch src _) fun _ => Sound.pure _
  · refine Sound.bind (sound_ymcMatch src _) fun _ => Sound.bind (hr.expr 0) fun k => ?_
    refine Sound.bind (sound_ymcMatch src _) fun _ => ?_
    exact Sound.bind (sound_ymcMatch src _) fun _ => Sound.pure _

theorem sound_mapEntries (hr : r.Sound n) (fuel : Nat) : Sound n (mapEntries src r fuel) := by
  induction fuel with
  | zero => exact Sound.throw _
  | succ fuel ih =>
      refine Sound.bind sound_ymcPeek fun _ => Sound.ite (Sound.pure _) ?_
      refine Sound.bind (sound_mapKey hr) fun k => Sound.bind (hr.expr 0) fun v => ?_
      refine Sound.bind (sound_ymcTest src _) fun _ => ?_
      exact Sound.ite (Sound.bind ih fun _ => Sound.pure _) (Sound.pure _)

theorem sound_parseMap (hr : r.Sound n) (ord : Bool) : Sound n (parseMap src r ord) := by
  refine Sound.bind (sound_ymcMatch src _) fun _ => ?_
  refine Sound.bind (sound_mapEntries hr _) fun elems => ?_
  exact Sound.bind (sound_ymkEmitOfP _ (.inl (by decide))) fun _ => Sound.pure _

theorem sound_parseArgs (hr : r.Sound n) (fuel : Nat) : Sound n (parseArgs src r fuel) := by
  induction fuel with
  | zero => exact Sound.throw _
  | succ fuel ih =>
      refine Sound.bind (hr.expr 0) fun _ => Sound.bind (sound_ymcTest src _) fun _ => ?_
      exact Sound.ite (Sound.bind ih fun _ => Sound.pure _) (Sound.pure _)

theorem sound_callArgs (hr : r.Sound n) : Sound n (callArgs src r) := by
  refine Sound.bind sound_ymcPeek fun token => ?_
  split
  · refine Sound.bind (sound_ymcNext src) fun _ => Sound.bind sound_ymcPeek fun _ => ?_
    apply Sound.ite
    · exact Sound.bind (sound_ymcNext src) fun _ => Sound.pure _
    · refine Sound.bind (sound_parseArgs hr _) fun args => ?_
      exact Sound.bind (sound_ymcMatch src _) fun _ => Sound.pure _
  · refine Sound.bind Sound.get fun p => Sound.bind (sound_ymkEmitKz _) fun _ => ?_
    exact Sound.bind (sound_ymcNext src) fun _ => Sound.pure _
  · exact Sound.throw _

theorem sound_parseCallargs (hr : r.Sound n) (adjust : Nat) (method : Option Bytes) :
    Sound n (parseCallargs src r adjust method) := by
  refine Sound.bind (sound_callArgs hr) fun args => ?_
  cases method with
  | none =>
      exact Sound.bind (sound_ymkEmitCall _ _ _ Opcode.noConfusion Opcode.noConfusion) fun _ =>
        Sound.pure _
  | some method => exact Sound.bind (sound_ymkEmitSelfcall _ _ _) fun _ => Sound.pure _

theorem sound_parsePrimary (hr : r.Sound n) : Sound n (parsePrimary src r) := by
  refine Sound.bind sound_ymcPeek fun token => ?_
  split
  · refine Sound.bind (sound_ymcNext src) fun _ => Sound.bind (hr.expr 0) fun e => ?_
    exact Sound.bind (sound_ymcMatch src _) fun _ => Sound.pure _
  · refine Sound.bind (sound_ymkSymbol src) fun name => ?_
    exact Sound.bind (sound_ymkEmitPush name) fun _ => Sound.pure _
  · exact Sound.throw _

theorem sound_suffixes (hr : r.Sound n) (fuel : Nat) (e : Tree .expr) : Sound n (suffixes src r fuel e) := by
  induction fuel generalizing e with
  | zero => exact Sound.throw _
  | succ fuel ih =>
      refine Sound.bind sound_ymcPeek fun token => ?_
      split
      · refine Sound.bind (sound_ymcNext src) fun _ => Sound.bind (sound_ymkSymbol src) fun name => ?_
        exact Sound.bind (sound_ymkEmitGetf name) fun _ => ih _
      · refine Sound.bind (sound_ymcNext src) fun _ => Sound.bind (hr.expr 0) fun i => ?_
        refine Sound.bind (sound_ymcMatch src _) fun _ => ?_
        exact Sound.bind (sound_ymkEmitOfP _ (.inl (by decide))) fun _ => ih _
      · refine Sound.bind (sound_ymcNext src) fun _ => Sound.bind (sound_ymkSymbol src) fun name => ?_
        exact Sound.bind (sound_parseCallargs hr _ _) fun args => ih _
      · exact Sound.bind (sound_parseCallargs hr _ _) fun args => ih _
      · exact Sound.bind (sound_parseCallargs hr _ _) fun args => ih _
      · exact Sound.pure _

theorem sound_parseSuffixed (hr : r.Sound n) : Sound n (parseSuffixed src r) :=
  Sound.bind (sound_parsePrimary hr) fun e => sound_suffixes hr _ e

/-! ## Functions -/

theorem soundAt_ymkEmitBind (symbol : Bytes) {core : Chunk} (hcore : core.inst = [])
    {p : Parser σ} (hp : p.Ok n) :
    SoundAt n (ymkEmitBind symbol core) p fun core' _ => core'.inst = [] := by
  have hinst : (core.addLz symbol).1.inst = [] := by
    unfold Chunk.addLz
    split <;> exact hcore
  unfold ymkEmitBind
  rcases hadd : core.addLz symbol with ⟨core', _ | i⟩
  · exact SoundAt.throw hp _
  · rw [hadd] at hinst
    refine SoundAt.bind (sound_ymkEmitPush symbol p hp) fun _ p' h => ?_
    exact SoundAt.pure h.ok hinst

/-- The chunk of a closure has no code while its bound variables are read. -/
theorem soundAt_bindNames (fuel : Nat) {core : Chunk} (hcore : core.inst = []) {p : Parser σ}
    (hp : p.Ok n) : SoundAt n (bindNames src fuel core) p fun x _ => x.2.inst = [] := by
  induction fuel generalizing core p with
  | zero => exact SoundAt.throw hp _
  | succ fuel ih =>
      refine SoundAt.bind (sound_ymcPeek p hp) fun token p₁ h₁ => ?_
      split
      · exact SoundAt.pure h₁.ok hcore
      · refine SoundAt.bind (sound_ymkSymbol src p₁ h₁.ok) fun name p₂ h₂ => ?_
        refine SoundAt.bind (soundAt_ymkEmitBind name hcore h₂.ok) fun core' p₃ h₃ => ?_
        refine SoundAt.bind (sound_ymcTest src _ p₃ h₃.ok) fun more p₄ h₄ => ?_
        apply SoundAt.ite
        · intro _
          refine SoundAt.bind (ih h₃.post h₄.ok) fun x p₅ h₅ => ?_
          exact SoundAt.pure h₅.ok h₅.post
        · exact fun _ => SoundAt.pure h₄.ok h₃.post
      · exact SoundAt.throw h₁.ok _

theorem soundAt_parseBind (r : Rec σ) {core : Chunk} (hcore : core.inst = []) {p : Parser σ}
    (hp : p.Ok n) : SoundAt n (parseBind src r core) p fun x _ => x.2.inst = [] := by
  refine SoundAt.bind (sound_ymcNext src p hp) fun _ p₁ h₁ => ?_
  refine SoundAt.bind (soundAt_bindNames _ hcore h₁.ok) fun x p₂ h₂ => ?_
  refine SoundAt.bind (sound_ymcMatch src _ p₂ h₂.ok) fun _ p₃ h₃ => ?_
  apply SoundAt.ite
  · intro _
    exact SoundAt.throw_bind h₃.ok _
  · intro _
    refine SoundAt.bind (sound_ymkEmitOfP _ (.inl (by decide)) p₃ h₃.ok) fun _ p₄ h₄ => ?_
    exact SoundAt.pure h₄.ok h₂.post

theorem quiet_paramNames (fuel : Nat) : Quiet n (paramNames src fuel) := by
  induction fuel with
  | zero => exact Quiet.throw _
  | succ fuel ih =>
      refine Quiet.bind quiet_ymcPeek fun token => ?_
      split
      · exact Quiet.pure _
      · refine Quiet.bind (quiet_ymkSymbol src) fun name => ?_
        refine Quiet.bind (quiet_ymkNewLocvar name) fun _ => Quiet.bind (quiet_ymcTest src _) fun _ => ?_
        exact Quiet.ite (Quiet.bind ih fun _ => Quiet.pure _) (Quiet.pure _)
      · exact Quiet.throw _

theorem quiet_kargs (k : Nat) :
    Quiet n (onBlk fun core => ({ core with kargs := k }, ()) : ParseM σ Unit) :=
  fun _ hp => ⟨⟨hp.heap, hp.blk, hp.outer⟩, .refl _ _, rfl, le_rfl, rfl⟩

theorem quiet_parseParams (r : Rec σ) (method : Bool) : Quiet n (parseParams src r method) := by
  refine Quiet.bind (quiet_ymcMatch src _) fun _ => ?_
  cases method with
  | false =>
      refine Quiet.bind (quiet_paramNames _) fun names => Quiet.bind (quiet_ymcMatch src _) fun _ => ?_
      exact Quiet.bind (quiet_kargs _) fun _ => Quiet.pure _
  | true =>
      refine Quiet.bind (quiet_ymkNewLocvar _) fun _ => Quiet.bind (quiet_paramNames _) fun names => ?_
      refine Quiet.bind (quiet_ymcMatch src _) fun _ => ?_
      exact Quiet.bind (quiet_kargs _) fun _ => Quiet.pure _

theorem sound_blockStmts (hr : r.Sound n) (fuel : Nat) : Sound n (blockStmts r fuel) := by
  induction fuel with
  | zero => exact Sound.throw _
  | succ fuel ih =>
      refine Sound.bind sound_ymcPeek fun _ => Sound.ite (Sound.pure _) ?_
      exact Sound.bind hr.stmt fun s => Sound.bind ih fun _ => Sound.pure _

theorem sound_parseBlock (hr : r.Sound n) : Sound n (parseBlock src r) := by
  refine Sound.bind (sound_ymcMatch src _) fun _ => Sound.bind (sound_blockStmts hr _) fun body => ?_
  exact Sound.bind (sound_ymcNext src) fun _ => Sound.pure _

/-- What is between the parameters and the end of a function. -/
theorem bodyAt_parseBody (hr : r.Sound n) (method : Bool) {p : Parser σ} (hp : p.Ok n)
    (hinst : p.blk.inst = []) :
    BodyAt n (do
      let params ← parseParams src r method
      ymkChunkReserved
      let body ← parseBlock src r
      ymkEmitEnd
      return (params, body)) p := by
  refine BodyAt.bind (quiet_parseParams r method p hp) fun params p₁ h₁ => ?_
  have hreserved : (p₁.blk.addLz (lit "argv")).1.inst = [] := by
    unfold Chunk.addLz
    split <;> exact h₁.post.trans hinst
  refine BodyAt.onBlk h₁.ok hreserved fun _ p₂ hp₂ => ?_
  have hbody : Sound n (do
      let body ← parseBlock src r
      ymkEmitEnd
      return (params, body)) :=
    Sound.bind (sound_parseBlock hr) fun body => Sound.bind sound_ymkEmitEnd fun _ => Sound.pure _
  exact SoundAt.body (hbody p₂ hp₂)

theorem parseBody_eq (fn : Addr) (core : Chunk) (desc : FuncDeclDesc) :
    parseBody src r fn core desc = (do
      ymkEnter core
      let x ← (do
        let params ← parseParams src r desc.method
        ymkChunkReserved
        let body ← parseBlock src r
        ymkEmitEnd
        return (params, body))
      ymkLeave fn
      ymkEmitFunc desc fn
      return .func fn x.1 x.2) := by
  simp only [parseBody, bind_assoc, pure_bind]

theorem sound_parseBody (hr : r.Sound n) {fn : Addr} (hfn : n ≤ fn) {core : Chunk}
    (hinst : core.inst = []) (desc : FuncDeclDesc) : Sound n (parseBody src r fn core desc) := by
  intro p hp
  rw [parseBody_eq]
  refine SoundAt.scope hfn ?_ (fun x => ?_) hp
  · exact bodyAt_parseBody hr _ (hp.entered (Chunk.localsOk_of_nil hinst)) hinst
  · exact Sound.bind (sound_ymkEmitFunc desc hfn) fun _ => Sound.pure _

theorem sound_catName (name part : Bytes) : Sound n (catName name part : ParseM σ Bytes) :=
  Sound.ite (Sound.throw_bind _) (Sound.pure _)

theorem sound_declPath (fuel : Nat) (last : Option Bytes) (name : Bytes) :
    Sound n (declPath src fuel last name) := by
  induction fuel generalizing last name with
  | zero => exact Sound.throw _
  | succ fuel ih =>
      rcases last with _ | last
      case' some => refine Sound.bind (sound_ymkEmitGetf last) fun _ => ?_
      all_goals
        refine Sound.bind (sound_ymcMatch src _) fun _ => Sound.bind (sound_ymkSymbol src) fun next => ?_
        refine Sound.bind (sound_catName _ _) fun name => Sound.bind sound_ymcPeek fun _ => ?_
        exact Sound.ite (Sound.pure _) (Sound.bind (ih _ _) fun _ => Sound.pure _)

theorem sound_parseFuncDecl (r : Rec σ) (first : Bytes) (isLocal : Bool) :
    Sound n (parseFuncDecl src r first isLocal) := by
  refine Sound.ite (Sound.throw_bind _) (Sound.bind sound_ymcPeek fun _ => Sound.ite ?_ ?_)
  · refine Sound.bind (sound_ymkEmitPush first) fun _ => Sound.bind (sound_declPath _ _ _) fun x => ?_
    refine Sound.bind sound_ymkHold fun loadP => ?_
    exact Sound.bind (sound_ymkEmitSetf _) fun _ => Sound.pure _
  · refine Sound.bind sound_ymkHold fun loadP => Sound.ite ?_ ?_
    · refine Sound.bind (sound_ymkNewLocvar first) fun _ => ?_
      exact Sound.bind (sound_ymkEmitStore first) fun _ => Sound.pure _
    · exact Sound.bind (sound_ymkEmitStore first) fun _ => Sound.pure _

theorem sound_parseFunc (hr : r.Sound n) (isLocal : Bool) : Sound n (parseFunc src r isLocal) := by
  refine Sound.bind (sound_ymcNext src) fun _ => Sound.bind sound_ymcPeek fun _ => ?_
  refine Sound.ite (Sound.throw_bind _) (Sound.bind (sound_ymkSymbol src) fun first => ?_)
  refine Sound.bind (sound_parseFuncDecl r first isLocal) fun x p hp => ?_
  refine SoundAt.bind (soundAt_ymdFunc _ hp) fun fn p₁ h₁ => ?_
  exact Sound.bind (sound_parseBody hr h₁.post rfl _) (fun _ => Sound.pure _) p₁ h₁.ok

theorem sound_parseClosure (hr : r.Sound n) : Sound n (parseClosure src r) := by
  refine Sound.bind (sound_ymcNext src) fun _ => Sound.bind sound_ymkHold fun loadP => ?_
  refine Sound.bind Sound.get fun q p hp => ?_
  refine SoundAt.bind (soundAt_ymdFunc _ hp) fun fn p₁ h₁ => ?_
  refine SoundAt.bind (sound_ymcPeek p₁ h₁.ok) fun token p₂ h₂ => ?_
  have hrest : ∀ (binds : List Bytes) {core : Chunk}, core.inst = [] → Sound n (do
      return Tree.closure binds
        (← parseBody src r fn core ⟨false, [], loadP, binds.length % 2 ^ 16⟩)) :=
    fun _ _ hcore => Sound.bind (sound_parseBody hr h₁.post hcore _) fun _ => Sound.pure _
  apply SoundAt.ite
  · intro _
    refine SoundAt.bind (soundAt_parseBind r rfl h₂.ok) fun x p₃ h₃ => ?_
    exact hrest x.1 h₃.post p₃ h₃.ok
  · exact fun _ => hrest [] rfl p₂ h₂.ok

/-! ## Operators -/

theorem sound_parseSimple (hr : r.Sound n) : Sound n (parseSimple src r) := by
  refine Sound.bind sound_ymcPeek fun token => ?_
  split
  · refine Sound.bind (sound_ymkEmitOfP _ (.inl (by decide))) fun _ => ?_
    exact Sound.bind (sound_ymcNext src) fun _ => Sound.pure _
  · refine Sound.bind (sound_ymkEmitOfP _ (.inl (by decide))) fun _ => ?_
    exact Sound.bind (sound_ymcNext src) fun _ => Sound.pure _
  · refine Sound.bind (sound_ymkEmitOfP _ (.inl (by decide))) fun _ => ?_
    exact Sound.bind (sound_ymcNext src) fun _ => Sound.pure _
  · refine Sound.bind Sound.get fun p => ?_
    dsimp only
    split
    · exact Sound.throw_bind _
    · refine Sound.bind (sound_ymkEmitInt _) fun _ => ?_
      exact Sound.bind (sound_ymcNext src) fun _ => Sound.pure _
  · refine Sound.bind Sound.get fun p => ?_
    dsimp only
    split
    · refine Sound.bind (sound_ymkEmitInt _) fun _ => ?_
      exact Sound.bind (sound_ymcNext src) fun _ => Sound.pure _
    · exact Sound.throw_bind _
    · exact Sound.throw_bind _
  · refine Sound.bind Sound.get fun p => Sound.bind (sound_ymkEmitKz _) fun _ => ?_
    exact Sound.bind (sound_ymcNext src) fun _ => Sound.pure _
  · refine Sound.bind (sound_parseMap hr _) fun e => ?_
    exact Sound.bind (sound_ymcNext src) fun _ => Sound.pure _
  · refine Sound.bind (sound_parseMap hr _) fun e => ?_
    exact Sound.bind (sound_ymcNext src) fun _ => Sound.pure _
  · refine Sound.bind (sound_parseArray hr) fun e => ?_
    exact Sound.bind (sound_ymcNext src) fun _ => Sound.pure _
  · exact sound_parseClosure hr
  · exact sound_parseSuffixed hr

theorem sound_ymkUnary (op : UnaryOp) : Sound n (ymkUnary op : ParseM σ Unit) := by
  cases op <;> exact sound_ymkEmitOfP _ (.inl (by decide))

theorem sound_ymkHoldLogc (op : BinaryOp) : Sound n (ymkHoldLogc op : ParseM σ Nat) := by
  cases op <;> first
    | exact sound_ymkHold
    | exact Sound.pure _

theorem sound_ymkBinary (op : BinaryOp) (i : Nat) : Sound n (ymkBinary op i : ParseM σ Unit) := by
  cases op <;> first
    | exact sound_ymkHackJmp _ _
    | exact sound_ymkEmitOfP _ (.inr ⟨nofun, nofun⟩)

theorem sound_binaries (hr : r.Sound n) (limit fuel : Nat) (e : Tree .expr) (op : Option BinaryOp) :
    Sound n (binaries src r limit fuel e op) := by
  induction fuel generalizing e op with
  | zero => exact Sound.throw _
  | succ fuel ih =>
      cases op with
      | none => exact Sound.pure _
      | some op =>
          refine Sound.ite ?_ (Sound.pure _)
          refine Sound.bind (sound_ymcNext src) fun _ => Sound.bind (sound_ymkHoldLogc op) fun i => ?_
          refine Sound.bind (hr.expr _) fun x => Sound.bind (sound_ymkBinary op i) fun _ => ?_
          exact ih _ _

theorem sound_parseOperand (hr : r.Sound n) : Sound n (parseOperand src r) := by
  refine Sound.bind sound_ymcPeek fun token => ?_
  cases ymcUnaryOp token with
  | none => exact sound_parseSimple hr
  | some op =>
      refine Sound.bind (sound_ymcNext src) fun _ => Sound.bind (hr.expr _) fun x => ?_
      exact Sound.bind (sound_ymkUnary op) fun _ => Sound.pure _

theorem sound_parseExpr (hr : r.Sound n) (limit : Nat) : Sound n (parseExpr src r limit) :=
  Sound.bind (sound_parseOperand hr) fun e => Sound.bind sound_ymcPeek fun _ =>
    sound_binaries hr limit _ e _

/-! ## Statements -/

theorem sound_ymkLvalPartial (lv : Tree .lval) : Sound n (ymkLvalPartial lv : ParseM σ Unit) := by
  cases lv with
  | lsym name => exact sound_ymkEmitPush name
  | lindex lv i => exact sound_ymkEmitOfP _ (.inl (by decide))
  | lfield lv name => exact sound_ymkEmitGetf name
  | lcall lv args => exact Sound.pure _
  | lselfcall lv method args => exact Sound.pure _

theorem sound_ymkLvalFinish (lv : Tree .lval) : Sound n (ymkLvalFinish lv : ParseM σ Unit) := by
  cases lv with
  | lsym name => exact sound_ymkEmitStore name
  | lindex lv i => exact sound_ymkEmitOfP _ (.inl (by decide))
  | lfield lv name => exact sound_ymkEmitSetf name
  | lcall lv args => exact Sound.throw _
  | lselfcall lv method args => exact Sound.throw _

theorem sound_lvalSuffixes (hr : r.Sound n) (fuel : Nat) (lv : Tree .lval) :
    Sound n (lvalSuffixes src r fuel lv) := by
  induction fuel generalizing lv with
  | zero => exact Sound.throw _
  | succ fuel ih =>
      refine Sound.bind sound_ymcPeek fun token => ?_
      split
      · refine Sound.bind (sound_ymkLvalPartial lv) fun _ => Sound.bind (sound_ymcNext src) fun _ => ?_
        exact Sound.bind (sound_ymkSymbol src) fun name => ih _
      · refine Sound.bind (sound_ymkLvalPartial lv) fun _ => Sound.bind (sound_ymcNext src) fun _ => ?_
        refine Sound.bind (hr.expr 0) fun i => ?_
        exact Sound.bind (sound_ymcMatch src _) fun _ => ih _
      · refine Sound.bind (sound_ymkLvalPartial lv) fun _ => Sound.bind (sound_ymcNext src) fun _ => ?_
        refine Sound.bind (sound_ymkSymbol src) fun method => ?_
        exact Sound.bind (sound_parseCallargs hr _ _) fun args => ih _
      · refine Sound.bind (sound_ymkLvalPartial lv) fun _ => ?_
        exact Sound.bind (sound_parseCallargs hr _ _) fun args => ih _
      · refine Sound.bind (sound_ymkLvalPartial lv) fun _ => ?_
        exact Sound.bind (sound_parseCallargs hr _ _) fun args => ih _
      · exact Sound.pure _

theorem sound_parseLval (hr : r.Sound n) : Sound n (parseLval src r) := by
  refine Sound.bind sound_ymcPeek fun token => ?_
  split
  · exact Sound.bind (sound_ymkSymbol src) fun name => sound_lvalSuffixes hr _ _
  · exact Sound.throw _

theorem sound_parseExprStat (hr : r.Sound n) : Sound n (parseExprStat src r) := by
  refine Sound.bind (sound_parseLval hr) fun lv => Sound.bind sound_ymcPeek fun _ => Sound.ite ?_ ?_
  · refine Sound.bind (sound_ymcNext src) fun _ => Sound.bind (hr.expr 0) fun x => ?_
    exact Sound.bind (sound_ymkLvalFinish lv) fun _ => Sound.pure _
  · exact Sound.ite (Sound.pure _) (Sound.throw _)

theorem sound_parseReturn (hr : r.Sound n) : Sound n (parseReturn src r) := by
  refine Sound.bind (sound_ymcNext src) fun _ => Sound.bind (hr.expr 0) fun x => ?_
  exact Sound.bind (sound_ymkEmitOfP _ (.inl (by decide))) fun _ => Sound.pure _

/-- The slot of a declared variable is still there behind its initial value. -/
theorem sound_parseDecl (hr : r.Sound n) : Sound n (parseDecl src r) := by
  refine Sound.bind (sound_ymkSymbol src) fun name p hp => ?_
  refine SoundAt.bind (soundAt_ymkNewLocvar name hp) fun i p₁ h₁ => ?_
  refine SoundAt.bind (show SoundAt _ _ _ fun _ p' => i < p'.blk.klz from ?_) fun token p₂ h₂ => ?_
  · exact ⟨h₁.ok, .refl _ _, rfl, le_rfl, h₁.post.1⟩
  refine SoundAt.ite (fun _ => SoundAt.pure h₂.ok trivial) fun _ => ?_
  refine SoundAt.bind (sound_ymcNext src p₂ h₂.ok) fun _ p₃ h₃ => ?_
  refine SoundAt.bind (hr.expr 0 p₃ h₃.ok) fun x p₄ h₄ => ?_
  have hi : i < p₄.blk.klz := h₂.post.trans_le (h₃.klz.trans h₄.klz)
  refine SoundAt.bind (soundAt_emit_loc h₄.ok hi) fun _ p₅ h₅ => ?_
  exact SoundAt.pure h₅.ok trivial

theorem sound_parseDecls (hr : r.Sound n) (fuel : Nat) : Sound n (parseDecls src r fuel) := by
  induction fuel with
  | zero => exact Sound.throw _
  | succ fuel ih =>
      refine Sound.bind (sound_parseDecl hr) fun put => Sound.bind (sound_ymcTest src _) fun _ => ?_
      exact Sound.ite (Sound.bind ih fun _ => Sound.pure _) (Sound.pure _)

theorem sound_parseLocal (hr : r.Sound n) : Sound n (parseLocal src r) := by
  refine Sound.bind (sound_ymcNext src) fun _ => Sound.bind sound_ymcPeek fun _ => ?_
  exact Sound.ite (sound_parseFunc hr true)
    (Sound.bind (sound_parseDecls hr _) fun _ => Sound.pure _)

theorem sound_holdJout (jout : List Nat) : Sound n (holdJout jout : ParseM σ (List Nat)) :=
  Sound.ite (Sound.throw_bind _) (Sound.bind sound_ymkHold fun _ => Sound.pure _)

theorem sound_fillJout (jout : List Nat) : Sound n (fillJout jout : ParseM σ Unit) := by
  induction jout with
  | nil => exact Sound.pure ()
  | cons i rest ih => exact Sound.bind (sound_ymkHackJmp _ _) fun _ => ih

theorem sound_elifs (hr : r.Sound n) (fuel jnxt : Nat) (jout : List Nat) (nsub : Nat) :
    Sound n (elifs src r fuel jnxt jout nsub) := by
  induction fuel generalizing jnxt jout nsub with
  | zero => exact Sound.throw _
  | succ fuel ih =>
      refine Sound.bind sound_ymcPeek fun token => ?_
      split
      · refine Sound.bind (sound_ymcNext src) fun _ => Sound.bind (sound_holdJout jout) fun jout => ?_
        refine Sound.bind (sound_ymkHackJmp _ _) fun _ => Sound.bind (hr.expr 0) fun cond => ?_
        refine Sound.bind sound_ymkHold fun jnxt => Sound.bind (sound_parseBlock hr) fun body => ?_
        exact Sound.bind (ih _ _ _) fun _ => Sound.pure _
      · refine Sound.bind (sound_ymcNext src) fun _ => Sound.bind (sound_holdJout jout) fun jout => ?_
        refine Sound.bind (sound_ymkHackJmp _ _) fun _ => Sound.bind (sound_parseBlock hr) fun body => ?_
        exact Sound.bind (sound_fillJout _) fun _ => Sound.pure _
      · refine Sound.bind (sound_fillJout _) fun _ => Sound.ite ?_ (Sound.pure _)
        exact Sound.bind (sound_ymkHackJmp _ _) fun _ => Sound.pure _

theorem sound_parseIf (hr : r.Sound n) : Sound n (parseIf src r) := by
  refine Sound.bind (sound_ymcNext src) fun _ => Sound.bind (hr.expr 0) fun cond => ?_
  refine Sound.bind sound_ymkHold fun jnxt => Sound.bind (sound_parseBlock hr) fun body => ?_
  exact Sound.bind (sound_elifs hr _ _ _ _) fun _ => Sound.pure _

theorem sound_parseIn (hr : r.Sound n) (tmp : Bytes) : Sound n (parseIn src r tmp) := by
  refine Sound.bind (sound_ymcMatch src _) fun _ => Sound.bind (hr.expr 0) fun x p hp => ?_
  apply SoundAt.get
  refine SoundAt.bind (show SoundAt _ _ _ anything from ?_) fun _ p₁ h₁ => ?_
  · exact ⟨⟨hp.heap, hp.blk, hp.outer⟩, .refl _ _, rfl, le_rfl, trivial⟩
  refine SoundAt.bind (soundAt_ymkNewLocvar _ h₁.ok) fun i p₂ h₂ => ?_
  refine SoundAt.bind (soundAt_emit_loc h₂.ok h₂.post.1) fun _ p₃ h₃ => ?_
  refine Sound.bind sound_ymkIpos (fun retry => Sound.bind (sound_onLoop _) fun _ => ?_) p₃ h₃.ok
  refine Sound.bind (sound_ymkEmitPush _) fun _ => ?_
  refine Sound.bind (sound_ymkEmitCall _ _ _ Opcode.noConfusion Opcode.noConfusion) fun _ => ?_
  refine Sound.bind sound_ymkHold fun jcond => Sound.bind (sound_onLoop _) fun _ => ?_
  refine Sound.bind (sound_ymkEmitStore tmp) fun _ => Sound.bind (sound_parseBlock hr) fun body => ?_
  exact Sound.bind sound_ymkLoopLeave fun _ => Sound.pure _

theorem sound_parseFor (hr : r.Sound n) : Sound n (parseFor src r) := by
  refine Sound.bind (sound_ymcNext src) fun _ => Sound.bind sound_ymkLoopEnter fun _ => ?_
  refine Sound.bind sound_ymcPeek fun token => ?_
  split
  · refine Sound.bind sound_ymkIpos fun retry => Sound.bind (sound_onLoop _) fun _ => ?_
    refine Sound.bind (sound_parseBlock hr) fun body => ?_
    exact Sound.bind sound_ymkLoopLeave fun _ => Sound.pure _
  · refine Sound.bind (sound_ymcNext src) fun _ => Sound.bind (sound_ymkSymbol src) fun tmp => ?_
    exact Sound.bind (sound_ymkNewLocvar tmp) fun _ => sound_parseIn hr tmp
  · exact Sound.bind (sound_ymkSymbol src) fun tmp => sound_parseIn hr tmp
  · exact Sound.throw _

theorem sound_holdBreak : Sound n (holdBreak : ParseM σ Unit) := by
  refine Sound.bind sound_theLoop fun info => Sound.ite (Sound.throw_bind _) ?_
  exact Sound.bind sound_ymkHold fun i => sound_onLoop _

theorem sound_parseStmt (hr : r.Sound n) : Sound n (parseStmt src r) := by
  refine Sound.bind sound_ymcPeek fun token => ?_
  split
  · exact Sound.bind (sound_ymcNext src) fun _ => Sound.pure _
  · exact sound_parseIf hr
  · exact Sound.pure _
  · exact sound_parseFor hr
  · exact sound_parseFunc hr false
  · exact sound_parseLocal hr
  · exact sound_parseReturn hr
  · refine Sound.bind sound_holdBreak fun _ => ?_
    exact Sound.bind (sound_ymcNext src) fun _ => Sound.pure _
  · refine Sound.bind sound_theLoop fun info => Sound.bind (sound_ymkEmitJmp _) fun _ => ?_
    exact Sound.bind (sound_ymcNext src) fun _ => Sound.pure _
  · exact sound_parseExprStat hr

/-! ## Compilations -/

theorem sound_parsing (depth : Nat) : (parser src depth).Sound n := by
  induction depth with
  | zero => exact ⟨fun _ => Sound.throw _, Sound.throw _⟩
  | succ depth ih => exact ⟨fun limit => sound_parseExpr ih limit, sound_parseStmt ih⟩

theorem sound_topStmts (hr : r.Sound n) (fuel : Nat) : Sound n (topStmts r fuel) := by
  induction fuel with
  | zero => exact Sound.throw _
  | succ fuel ih =>
      refine Sound.bind sound_ymcPeek fun _ => Sound.ite (Sound.pure _) ?_
      exact Sound.bind hr.stmt fun s => Sound.bind ih fun _ => Sound.pure _

theorem ymcCompile_eq (depth : Nat) (fn : Addr) :
    ymcCompile src depth fn = (do
      ymcNext src
      ymkEnter (Chunk.zero.addLz (lit "argv")).1
      let body ← (do
        let body ← topStmts (parser src depth) depth
        ymkEmitEnd
        return body)
      ymkLeave fn
      return .func fn [] body) := by
  simp only [ymcCompile, bind_assoc, pure_bind]

theorem sound_ymcCompile (depth : Nat) {fn : Addr} (hfn : n ≤ fn) :
    Sound n (ymcCompile src depth fn) := by
  rw [ymcCompile_eq]
  refine Sound.bind (sound_ymcNext src) fun _ p hp => ?_
  refine SoundAt.scope hfn ?_ (fun _ => Sound.pure _) hp
  refine SoundAt.body (show SoundAt _ _ _ anything from ?_)
  refine Sound.bind (sound_topStmts (sound_parsing depth) depth) (fun body => ?_) _ ?_
  · exact Sound.bind sound_ymkEmitEnd fun _ => Sound.pure _
  · exact hp.entered (Chunk.localsOk_of_nil rfl)

/-- However a compilation ends, the objects in front of it are as they were, and
the others are functions whose code names local variables they have. -/
theorem ymdCompile_scope (depth : Nat) (name : Bytes) (lex : σ) (heap : Heap)
    (stk : List Variable) :
    (stateOf (ymdCompile src depth name (.init lex heap stk))).heap.Compiled heap.next ∧
      heap.SameBelow heap.next
        (stateOf (ymdCompile src depth name (.init lex heap stk))).heap := by
  have hinit : (Parser.init lex heap stk).Ok heap.next := by
    refine ⟨⟨le_rfl, fun o obj ho hobj => ?_⟩, Chunk.localsOk_zero, fun _ h => absurd h List.not_mem_nil⟩
    change heap.obj o = _ at hobj
    rw [heap.fresh o ho] at hobj
    cases hobj
  have hsound : SoundAt heap.next (ymdCompile src depth name) (.init lex heap stk) anything :=
    SoundAt.bind (soundAt_ymdFunc name hinit) fun fn p h => sound_ymcCompile depth h.post p h.ok
  unfold SoundAt at hsound
  cases hrun : ymdCompile src depth name (.init lex heap stk) with
  | ok a p =>
      rw [hrun] at hsound
      exact ⟨hsound.ok.heap, hsound.same⟩
  | error e p =>
      rw [hrun] at hsound
      exact hsound

end Ymd
