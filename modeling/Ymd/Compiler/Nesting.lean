import Ymd.Compiler.Lookahead
import Ymd.Foundation.Brackets

/-! # The brackets of a program

`parse_simple` skips one token behind an array or a map, whatever it is. An accepted
program is well bracketed exactly when it is accepted by the parser that looks at
this token.
-/

namespace Ymd

open Foundation

variable {σ : Type}

/-- `( )`, `[ ]`, `{ }` and `@{ }`. -/
def brackets : Bracketing Token where
  closer
    | .lparen => some .rparen
    | .lbrack => some .rbrack
    | .lbrace => some .rbrace
    | .SKLS => some .rbrace
    | _ => none
  closes t := t = .rparen ∨ t = .rbrack ∨ t = .rbrace

/-- A token that is no bracket. -/
def Token.Plain (t : Token) : Prop := brackets.closer t = none ∧ brackets.closes t = false

/-! ## The strict parser -/

def Abort.misclosed : Abort := .panic "wrong closing token"

/-- The last token of an array or a map has to be the one that closes it. -/
def Hooks.strict (src : Source σ) : Hooks σ :=
  { Hooks.plain src with
    closing := fun t => do
      if (← ymcPeek) = t then ymcNext src else throw .misclosed }

/-! ## The tokens that are read -/

/-- The tokens that are read from one place on up to another. -/
inductive Consumed (src : Source σ) : Ytoken × σ → List Token → Ytoken × σ → Prop
  | nil (s : Ytoken × σ) : Consumed src s [] s
  | cons {s next s' : Ytoken × σ} {ts : List Token} (hnext : src.next s.2 = .ok next)
      (hrest : Consumed src next ts s') : Consumed src s (s.1.token :: ts) s'

theorem Consumed.append {src : Source σ} {s s' s'' : Ytoken × σ} {ts ts' : List Token}
    (h : Consumed src s ts s') (h' : Consumed src s' ts' s'') : Consumed src s (ts ++ ts') s'' := by
  induction h with
  | nil => exact h'
  | cons hnext _ ih => exact .cons hnext (ih h')

/-! ## Productions -/

/-- From a token with `pre` on, with the closing tokens `d` due, the parsers read the
same, up to the first literal that is closed by another token; what is read leaves
`d'` due, and `post` holds of the result and the token behind it. -/
def Nests {α : Type} (src : Source σ) (pre : Token → Prop) (d : List Token) (x y : ParseM σ α)
    (d' : List Token) (post : α → Token → Prop) : Prop :=
  ∀ p, pre p.lah.token → match x p with
    | .ok a p' => post a p'.lah.token ∧ ∃ ts, Consumed src p.front ts p'.front ∧
        brackets.Fragment d d' ts ∧
        (y p = .ok a p' ∧ brackets.Matched d d' ts ∨
          (∃ q, y p = .error .misclosed q) ∧ brackets.Mismatched d d' ts)
    | .error e p' => y p = .error e p' ∨ ∃ q, y p = .error .misclosed q

/-- No condition on the token. -/
def anyToken (_ : Token) : Prop := True

/-- A production that leaves due what is due in front of it. -/
def Nested {α : Type} (src : Source σ) (x y : ParseM σ α) : Prop :=
  ∀ d, Nests src anyToken d x y d fun _ => anyToken

section

variable {α β : Type} {src : Source σ} {pre pre' : Token → Prop} {d d' d'' : List Token}
  {x y : ParseM σ α} {f g : α → ParseM σ β} {post post' : α → Token → Prop}
  {post₂ : β → Token → Prop}

theorem Nests.mono (h : Nests src pre d x y d' post) (hpre : ∀ t, pre' t → pre t)
    (hpost : ∀ a t, post a t → post' a t) : Nests src pre' d x y d' post' := by
  intro p hp
  have hrun := h p (hpre _ hp)
  rcases hxp : x p with ⟨a, p₁⟩ | ⟨e, p₁⟩
  · rw [hxp] at hrun
    exact ⟨hpost _ _ hrun.1, hrun.2⟩
  · rw [hxp] at hrun
    exact hrun

theorem Nests.bind (hx : Nests src pre d x y d' post)
    (hf : ∀ a, Nests src (post a) d' (f a) (g a) d'' post₂) :
    Nests src pre d (x >>= f) (y >>= g) d'' post₂ := by
  intro p hp
  have hrun := hx p hp
  rcases hxp : x p with ⟨a, p₁⟩ | ⟨e, p₁⟩
  · rw [hxp] at hrun
    obtain ⟨hpost, ts, hreads, hfrag, hcases⟩ := hrun
    have hrest := hf a p₁ hpost
    rw [bind_of_ok hxp]
    rcases hfa : f a p₁ with ⟨b, p₂⟩ | ⟨e, p₂⟩
    · rw [hfa] at hrest
      obtain ⟨hpost₂, ts', hreads', hfrag', hcases'⟩ := hrest
      refine ⟨hpost₂, ts ++ ts', hreads.append hreads', hfrag.append hfrag', ?_⟩
      rcases hcases with ⟨hy, hmatched⟩ | ⟨⟨q, hy⟩, hmis⟩
      · rw [bind_of_ok hy]
        rcases hcases' with ⟨hg, hmatched'⟩ | ⟨hg, hmis⟩
        · exact .inl ⟨hg, hmatched.append hmatched'⟩
        · exact .inr ⟨hg, hmatched.append_mismatched hmis⟩
      · exact .inr ⟨⟨q, bind_of_error hy⟩, hmis.append hfrag'⟩
    · rw [hfa] at hrest
      rcases hcases with ⟨hy, -⟩ | ⟨⟨q, hy⟩, -⟩
      · rw [bind_of_ok hy]
        exact hrest
      · exact .inr ⟨q, bind_of_error hy⟩
  · rw [hxp] at hrun
    rw [bind_of_error hxp]
    rcases hrun with hy | ⟨q, hy⟩
    · exact .inl (bind_of_error hy)
    · exact .inr ⟨q, bind_of_error hy⟩

theorem Nests.ite {c : Prop} [Decidable c] {x₂ y₂ : ParseM σ α} (hx : c → Nests src pre d x y d' post)
    (hy : ¬ c → Nests src pre d x₂ y₂ d' post) :
    Nests src pre d (if c then x else x₂) (if c then y else y₂) d' post := by
  by_cases hc : c
  · rw [if_pos hc, if_pos hc]
    exact hx hc
  · rw [if_neg hc, if_neg hc]
    exact hy hc

theorem Still.nests (hx : Still x) : Nests src pre d x x d fun _ => pre := by
  intro p hp
  have hrun := hx p
  rcases hxp : x p with ⟨a, p₁⟩ | ⟨e, p₁⟩
  · rw [hxp] at hrun
    have hfront : p₁.front = p.front := hrun
    refine ⟨?_, [], ?_, .nil d, .inl ⟨rfl, .nil d⟩⟩
    · rwa [show p₁.lah = p.lah from congrArg Prod.fst hfront]
    · rw [hfront]
      exact .nil _
  · exact .inl rfl

theorem Nests.pure {a : α} (h : ∀ t, pre t → post a t) :
    Nests src pre d (Pure.pure a) (Pure.pure a) d post :=
  fun _ hp => ⟨h _ hp, [], .nil _, .nil d, .inl ⟨rfl, .nil d⟩⟩

theorem Nests.throw (e : Abort) : Nests src pre d (throw e) (MonadExcept.throw e) d' post :=
  fun _ _ => .inl rfl

theorem Nests.throw_bind (e : Abort) : Nests src pre d ((MonadExcept.throw e : ParseM σ α) >>= f)
    ((MonadExcept.throw e : ParseM σ α) >>= g) d' post₂ :=
  fun _ _ => .inl rfl

theorem Nests.get {f g : Parser σ → ParseM σ β} (hfg : ∀ p, Nests src pre d (f p) (g p) d' post₂) :
    Nests src pre d (MonadState.get >>= f) (MonadState.get >>= g) d' post₂ :=
  fun p hp => hfg p p hp

/-- The token is known behind a look at it. -/
theorem nests_peek {f g : Token → ParseM σ β}
    (hfg : ∀ t, pre t → Nests src (· = t) d (f t) (g t) d' post₂) :
    Nests src pre d (ymcPeek >>= f) (ymcPeek >>= g) d' post₂ :=
  fun p hp => hfg p.lah.token hp p rfl

/-- One token is read. -/
theorem nests_next (hfrag : ∀ t, pre t → brackets.Fragment d d' [t] ∧ brackets.Matched d d' [t]) :
    Nests src pre d (ymcNext src) (ymcNext src) d' fun _ => anyToken := by
  intro p hp
  rw [ymcNext_apply]
  cases hnext : src.next p.lex with
  | error f => exact .inl rfl
  | ok next =>
      obtain ⟨hfrag, hmatched⟩ := hfrag _ hp
      exact ⟨trivial, [p.lah.token], .cons hnext (.nil _), hfrag, .inl ⟨rfl, hmatched⟩⟩

theorem nests_plain (hplain : ∀ t, pre t → t.Plain) :
    Nests src pre d (ymcNext src) (ymcNext src) d fun _ => anyToken :=
  nests_next fun t ht => ⟨Bracketing.fragment_plain d (hplain t ht).1 (hplain t ht).2,
    Bracketing.matched_plain d (hplain t ht).1 (hplain t ht).2⟩

theorem nests_open {t c : Token} (hc : brackets.closer t = some c) :
    Nests src (· = t) d (ymcNext src) (ymcNext src) (c :: d) fun _ => anyToken :=
  nests_next fun t' ht => by
    rw [ht]
    exact ⟨Bracketing.fragment_open d hc, Bracketing.matched_open d hc⟩

theorem nests_close {c : Token} (hcloser : brackets.closer c = none)
    (hcloses : brackets.closes c = true) :
    Nests src (· = c) (c :: d) (ymcNext src) (ymcNext src) d fun _ => anyToken :=
  nests_next fun t ht => by
    rw [ht]
    exact ⟨Bracketing.fragment_slot c d c, Bracketing.matched_slot d hcloser hcloses⟩

/-- `ymc_match` reads the token it needs. -/
theorem nests_match {need : Token}
    (hnext : Nests src (· = need) d (ymcNext src) (ymcNext src) d' fun _ => anyToken) :
    Nests src pre d (ymcMatch src need) (ymcMatch src need) d' fun _ => anyToken := by
  refine nests_peek fun t _ => Nests.ite (fun _ => ?_) fun ht => ?_
  · exact .throw_bind _
  · exact hnext.mono (fun t' ht' => ht'.trans (not_not.1 ht)) fun _ _ h => h

theorem nested_match {need : Token} (hneed : need.Plain) :
    Nests src pre d (ymcMatch src need) (ymcMatch src need) d fun _ => anyToken :=
  nests_match (nests_plain fun t ht => by rw [ht]; exact hneed)

theorem nested_test {token : Token} (htoken : token.Plain) :
    Nests src pre d (ymcTest src token) (ymcTest src token) d fun _ => anyToken := by
  refine nests_peek fun t _ => Nests.ite (fun ht => ?_) fun _ => .pure fun _ _ => trivial
  refine Nests.bind (nests_plain fun t' ht' => ?_) fun _ => .pure fun _ _ => trivial
  rw [ht', ht]
  exact htoken

theorem nested_symbol : Nests src pre d (ymkSymbol src) (ymkSymbol src) d fun _ => anyToken := by
  refine nests_peek fun t _ => Nests.ite (fun _ => .throw_bind _) fun ht => .get fun p => ?_
  refine Nests.bind (nests_plain fun t' ht' => ?_) fun _ => .pure fun _ _ => trivial
  rw [ht', not_not.1 ht]
  exact ⟨rfl, rfl⟩

end

section

variable {src : Source σ} {r r' : Rec σ}

/-- The recursive calls of the two parsers. -/
structure Rec.Nests (src : Source σ) (r r' : Rec σ) : Prop where
  expr : ∀ limit d, Ymd.Nests src anyToken d (r.expr limit) (r'.expr limit) d
    fun x t => x.2 = ymcBinaryOp t
  stmt : Nested src r.stmt r'.stmt
  fuel : r.fuel = r'.fuel

/-- An expression, where nothing is said about the operator behind it. -/
theorem Rec.Nests.expr' (hr : r.Nests src r') (limit : Nat) (d : List Token) {pre : Token → Prop} :
    Ymd.Nests src pre d (r.expr limit) (r'.expr limit) d fun _ => anyToken :=
  (hr.expr limit d).mono (fun _ _ => trivial) fun _ _ _ => trivial

variable {pre : Token → Prop} {d : List Token} (hr : r.Nests src r')

include hr

/-! ## Expressions -/

theorem nested_arrayElems (fuel : Nat) :
    Nests src anyToken d (arrayElems src r fuel) (arrayElems src r' fuel) d fun _ => anyToken := by
  induction fuel with
  | zero => exact .throw _
  | succ fuel ih =>
      refine nests_peek fun t _ => Nests.ite (fun _ => .pure fun _ _ => trivial) fun _ => ?_
      refine (hr.expr' 0 d).bind fun e => (nested_test ⟨rfl, rfl⟩).bind fun more => ?_
      refine Nests.ite (fun _ => ih.bind fun _ => .pure fun _ _ => trivial) fun _ => ?_
      exact .pure fun _ _ => trivial

/-- An array up to its last token. -/
theorem nests_parseArray : Nests src pre d (parseArray src r) (parseArray src r') (.rbrack :: d)
    fun _ => anyToken := by
  have hE := emitting_still src
  refine (nests_match (nests_open rfl)).bind fun _ => ?_
  rw [← hr.fuel]
  refine (nested_arrayElems hr _).bind fun elems => (hE.emit _ _ _).nests.bind fun _ => ?_
  exact .pure fun _ _ => trivial

theorem nested_mapKey :
    Nests src anyToken d (mapKey src r) (mapKey src r') d fun _ => anyToken := by
  have hE := emitting_still src
  refine nests_peek fun t _ => ?_
  split
  · refine nested_symbol.bind fun name => (hE.emitPushz name).nests.bind fun _ => ?_
    exact (nested_match ⟨rfl, rfl⟩).bind fun _ => .pure fun _ _ => trivial
  · refine Nests.get fun p => (hE.emitKz _).nests.bind fun _ => ?_
    refine (nests_plain fun t ht => by rw [ht]; exact ⟨rfl, rfl⟩).bind fun _ => ?_
    exact (nested_match ⟨rfl, rfl⟩).bind fun _ => .pure fun _ _ => trivial
  · refine (nests_match (nests_open rfl)).bind fun _ => (hr.expr' 0 _).bind fun k => ?_
    refine (nests_match (nests_close rfl rfl)).bind fun _ => ?_
    exact (nested_match ⟨rfl, rfl⟩).bind fun _ => .pure fun _ _ => trivial

theorem nested_mapEntries (fuel : Nat) :
    Nests src anyToken d (mapEntries src r fuel) (mapEntries src r' fuel) d fun _ => anyToken := by
  induction fuel with
  | zero => exact .throw _
  | succ fuel ih =>
      refine nests_peek fun t _ => Nests.ite (fun _ => .pure fun _ _ => trivial) fun _ => ?_
      refine ((nested_mapKey hr).mono (fun _ _ => trivial) fun _ _ h => h).bind fun k => ?_
      refine (hr.expr' 0 d).bind fun v => (nested_test ⟨rfl, rfl⟩).bind fun more => ?_
      refine Nests.ite (fun _ => ih.bind fun _ => .pure fun _ _ => trivial) fun _ => ?_
      exact .pure fun _ _ => trivial

/-- A map up to its last token. -/
theorem nests_parseMap (ord : Bool) : Nests src pre d (parseMap src r ord) (parseMap src r' ord)
    (.rbrace :: d) fun _ => anyToken := by
  have hE := emitting_still src
  have hopen : Nests src pre d (ymcMatch src (if ord then .SKLS else .lbrace))
      (ymcMatch src (if ord then .SKLS else .lbrace)) (.rbrace :: d) fun _ => anyToken := by
    cases ord
    · exact nests_match (nests_open rfl)
    · exact nests_match (nests_open rfl)
  refine hopen.bind fun _ => ?_
  rw [← hr.fuel]
  refine (nested_mapEntries hr _).bind fun elems => (hE.emit _ _ _).nests.bind fun _ => ?_
  exact .pure fun _ _ => trivial

theorem nested_parseArgs (fuel : Nat) :
    Nests src anyToken d (parseArgs src r fuel) (parseArgs src r' fuel) d fun _ => anyToken := by
  induction fuel with
  | zero => exact .throw _
  | succ fuel ih =>
      refine (hr.expr' 0 d).bind fun e => (nested_test ⟨rfl, rfl⟩).bind fun more => ?_
      refine Nests.ite (fun _ => ih.bind fun _ => .pure fun _ _ => trivial) fun _ => ?_
      exact .pure fun _ _ => trivial

theorem nested_callArgs :
    Nests src pre d (callArgs src r) (callArgs src r') d fun _ => anyToken := by
  have hE := emitting_still src
  refine nests_peek fun t _ => ?_
  split
  · refine (nests_open (c := .rparen) rfl).bind fun _ => nests_peek fun t' _ => ?_
    refine Nests.ite (fun ht' => ?_) fun _ => ?_
    · rw [ht']
      exact (nests_close rfl rfl).bind fun _ => .pure fun _ _ => trivial
    · rw [← hr.fuel]
      refine ((nested_parseArgs hr _).mono (fun _ _ => trivial) fun _ _ h => h).bind fun args => ?_
      exact (nests_match (nests_close rfl rfl)).bind fun _ => .pure fun _ _ => trivial
  · refine Nests.get fun p => (hE.emitKz _).nests.bind fun _ => ?_
    refine (nests_plain fun t ht => by rw [ht]; exact ⟨rfl, rfl⟩).bind fun _ => ?_
    exact .pure fun _ _ => trivial
  · exact .throw _

theorem nested_parseCallargs (adjust : Nat) (method : Option Bytes) :
    Nests src pre d (parseCallargs src r adjust method) (parseCallargs src r' adjust method) d
      fun _ => anyToken := by
  have hE := emitting_still src
  refine (nested_callArgs hr).bind fun args => ?_
  cases method with
  | none => exact (hE.emitCall _ _ _ _).nests.bind fun _ => .pure fun _ _ => trivial
  | some method => exact (hE.emitSelfcall _ _ _).nests.bind fun _ => .pure fun _ _ => trivial

theorem nested_parsePrimary :
    Nests src pre d (parsePrimary src r) (parsePrimary src r') d fun _ => anyToken := by
  have hE := emitting_still src
  refine nests_peek fun t _ => ?_
  split
  · refine (nests_open (c := .rparen) rfl).bind fun _ => (hr.expr' 0 _).bind fun e => ?_
    exact (nests_match (nests_close rfl rfl)).bind fun _ => .pure fun _ _ => trivial
  · refine nested_symbol.bind fun name => (hE.emitPush name).nests.bind fun _ => ?_
    exact .pure fun _ _ => trivial
  · exact .throw _

theorem nested_suffixes (fuel : Nat) (e : Tree .expr) :
    Nests src anyToken d (suffixes src r fuel e) (suffixes src r' fuel e) d fun _ => anyToken := by
  have hE := emitting_still src
  induction fuel generalizing e with
  | zero => exact .throw _
  | succ fuel ih =>
      refine nests_peek fun t _ => ?_
      split
      · refine (nests_plain fun t ht => by rw [ht]; exact ⟨rfl, rfl⟩).bind fun _ => ?_
        exact nested_symbol.bind fun name => (hE.emitGetf name).nests.bind fun _ => ih _
      · refine (nests_open (c := .rbrack) rfl).bind fun _ => (hr.expr' 0 _).bind fun i => ?_
        refine (nests_match (nests_close rfl rfl)).bind fun _ => ?_
        exact (hE.emit _ _ _).nests.bind fun _ => ih _
      · refine (nests_plain fun t ht => by rw [ht]; exact ⟨rfl, rfl⟩).bind fun _ => ?_
        exact nested_symbol.bind fun method => (nested_parseCallargs hr _ _).bind fun args => ih _
      · exact (nested_parseCallargs hr _ _).bind fun args => ih _
      · exact (nested_parseCallargs hr _ _).bind fun args => ih _
      · exact .pure fun _ _ => trivial

theorem nested_parseSuffixed :
    Nests src pre d (parseSuffixed src r) (parseSuffixed src r') d fun _ => anyToken := by
  refine (nested_parsePrimary hr).bind fun e => ?_
  rw [← hr.fuel]
  exact nested_suffixes hr _ e

/-! ## Functions -/

omit hr in
theorem nested_bindNames (fuel : Nat) (core : Chunk) :
    Nests src anyToken d (bindNames src fuel core) (bindNames src fuel core) d
      fun _ => anyToken := by
  have hE := emitting_still src
  induction fuel generalizing core with
  | zero => exact .throw _
  | succ fuel ih =>
      refine nests_peek fun t _ => ?_
      split
      · exact .pure fun _ _ => trivial
      · refine nested_symbol.bind fun name => (hE.emitBind name core).nests.bind fun core => ?_
        refine (nested_test ⟨rfl, rfl⟩).bind fun more => Nests.ite (fun _ => ?_) fun _ => ?_
        · exact (ih core).bind fun _ => .pure fun _ _ => trivial
        · exact .pure fun _ _ => trivial
      · exact .throw _

theorem nested_closureBinds :
    Nests src anyToken d (Hooks.closureBinds src r) (Hooks.closureBinds src r') d
      fun _ => anyToken := by
  have hE := emitting_still src
  refine nests_peek fun t _ => Nests.ite (fun ht => ?_) fun _ => .pure fun _ _ => trivial
  rw [ht]
  refine (nests_open (c := .rbrack) rfl).bind fun _ => ?_
  rw [← hr.fuel]
  refine (nested_bindNames _ _).bind fun x => (nests_match (nests_close rfl rfl)).bind fun _ => ?_
  refine Nests.ite (fun _ => .throw_bind _) fun _ => (hE.emit _ _ _).nests.bind fun _ => ?_
  exact .pure fun _ _ => trivial

omit hr in
theorem nested_paramNames (fuel : Nat) :
    Nests src anyToken d (paramNames src fuel) (paramNames src fuel) d fun _ => anyToken := by
  have hE := emitting_still src
  induction fuel with
  | zero => exact .throw _
  | succ fuel ih =>
      refine nests_peek fun t _ => ?_
      split
      · exact .pure fun _ _ => trivial
      · refine nested_symbol.bind fun name => (hE.newLocvar name).nests.bind fun _ => ?_
        refine (nested_test ⟨rfl, rfl⟩).bind fun more => Nests.ite (fun _ => ?_) fun _ => ?_
        · exact ih.bind fun _ => .pure fun _ _ => trivial
        · exact .pure fun _ _ => trivial
      · exact .throw _

theorem nested_parseParams (method : Bool) :
    Nests src pre d (parseParams src r method) (parseParams src r' method) d fun _ => anyToken := by
  have hE := emitting_still src
  have hrest : ∀ params : List Bytes → List Bytes, Nests src anyToken (.rparen :: d) (do
      let names ← paramNames src r.fuel
      ymcMatch src .rparen
      onBlk fun core => ({ core with kargs := (params names).length % 2 ^ 16 }, ())
      return params names) (do
      let names ← paramNames src r.fuel
      ymcMatch src .rparen
      onBlk fun core => ({ core with kargs := (params names).length % 2 ^ 16 }, ())
      return params names) d fun _ => anyToken := fun params => by
    refine (nested_paramNames _).bind fun names => ?_
    refine (nests_match (nests_close rfl rfl)).bind fun _ => (hE.kargs _).nests.bind fun _ => ?_
    exact .pure fun _ _ => trivial
  refine (nests_match (nests_open rfl)).bind fun _ => ?_
  rw [← hr.fuel]
  cases method with
  | false => exact hrest id
  | true => exact (hE.newLocvar _).nests.bind fun _ => hrest (lit "self" :: ·)

theorem nested_blockStmts (fuel : Nat) :
    Nests src anyToken d (blockStmts r fuel) (blockStmts r' fuel) d fun _ t => t = .rbrace := by
  induction fuel with
  | zero => exact .throw _
  | succ fuel ih =>
      refine nests_peek fun t _ => Nests.ite (fun ht => .pure fun t' ht' => ht'.trans ht) fun _ => ?_
      refine ((hr.stmt d).mono (fun _ _ => trivial) fun _ _ h => h).bind fun s => ?_
      exact ih.bind fun _ => .pure fun _ h => h

theorem nested_parseBlock :
    Nests src pre d (parseBlock src r) (parseBlock src r') d fun _ => anyToken := by
  refine (nests_match (nests_open rfl)).bind fun _ => ?_
  rw [← hr.fuel]
  refine (nested_blockStmts hr _).bind fun body => (nests_close rfl rfl).bind fun _ => ?_
  exact .pure fun _ _ => trivial

theorem nested_funcInner (method : Bool) :
    Nests src anyToken d (Hooks.funcInner src r method) (Hooks.funcInner src r' method) d
      fun _ => anyToken := by
  have hE := emitting_still src
  refine (nested_parseParams hr method).bind fun params => (hE.reserved).nests.bind fun _ => ?_
  refine (nested_parseBlock hr).bind fun body => hE.emitEnd.nests.bind fun _ => ?_
  exact .pure fun _ _ => trivial

theorem nested_scope (name : Bytes) (desc : List Bytes → FuncDeclDesc)
    {b b' : ParseM σ (List Bytes × Chunk)} (method : Bool)
    (hb : Nests src anyToken d b b' d fun _ => anyToken) :
    Nests src anyToken d
      ((Hooks.plain src).funcScope name b desc (Hooks.funcInner src r method))
      ((Hooks.strict src).funcScope name b' desc (Hooks.funcInner src r' method)) d
      fun _ => anyToken := by
  refine (still_ymdFunc name).nests.bind fun fn => hb.bind fun names => ?_
  refine (still_ymkEnter _).nests.bind fun _ => (nested_funcInner hr method).bind fun y => ?_
  refine (still_ymkLeave fn).nests.bind fun _ => (still_ymkEmitFunc src _ fn).nests.bind fun _ => ?_
  exact .pure fun _ _ => trivial

/-! ## Names and operators -/

omit hr in
theorem nested_declPath (fuel : Nat) (last : Option Bytes) (name : Bytes) :
    Nests src anyToken d ((Hooks.plain src).declPath src fuel last name)
      ((Hooks.strict src).declPath src fuel last name) d fun _ => anyToken := by
  have hE := emitting_still src
  induction fuel generalizing last name with
  | zero => exact .throw _
  | succ fuel ih =>
      rcases last with _ | last
      case' some => refine (hE.emitGetf last).nests.bind fun _ => ?_
      all_goals
        refine (nested_match ⟨rfl, rfl⟩).bind fun _ => nested_symbol.bind fun next => ?_
        have hcat : Nests src anyToken d ((Hooks.plain src).catName name next)
            ((Hooks.strict src).catName name next) d fun _ => anyToken :=
          (still_name src _).nests.bind fun _ => .pure fun _ h => h
        refine hcat.bind fun name => nests_peek fun t _ => ?_
        refine Nests.ite (fun _ => .pure fun _ _ => trivial) fun _ => ?_
        refine ((ih (some next) name).mono (fun _ _ => trivial) fun _ _ h => h).bind fun _ => ?_
        exact .pure fun _ _ => trivial

theorem nested_parseFuncDecl (first : Bytes) (isLocal : Bool) :
    Nests src anyToken d ((Hooks.plain src).parseFuncDecl src r first isLocal)
      ((Hooks.strict src).parseFuncDecl src r' first isLocal) d fun _ => anyToken := by
  have hE := emitting_still src
  refine (still_name src first).nests.bind fun _ => nests_peek fun t _ => Nests.ite (fun _ => ?_) fun _ => ?_
  · refine (hE.emitPush first).nests.bind fun _ => ?_
    rw [← hr.fuel]
    refine ((nested_declPath _ _ _).mono (fun _ _ => trivial) fun _ _ h => h).bind fun x => ?_
    refine hE.hold.nests.bind fun loadP => (hE.emitSetf _).nests.bind fun _ => ?_
    exact .pure fun _ _ => trivial
  · refine hE.hold.nests.bind fun loadP => Nests.ite (fun _ => ?_) fun _ => ?_
    · refine (hE.newLocvar first).nests.bind fun _ => (hE.emitStore first).nests.bind fun _ => ?_
      exact .pure fun _ _ => trivial
    · exact (hE.emitStore first).nests.bind fun _ => .pure fun _ _ => trivial

theorem nested_parseFunc (isLocal : Bool) :
    Nests src (· = .FUNC) d ((Hooks.plain src).parseFunc src r isLocal)
      ((Hooks.strict src).parseFunc src r' isLocal) d fun _ => anyToken := by
  refine (nests_plain fun t ht => by rw [ht]; exact ⟨rfl, rfl⟩).bind fun _ => ?_
  refine nests_peek fun t _ => Nests.ite (fun _ => .throw_bind _) fun _ => ?_
  refine nested_symbol.bind fun first => (nested_parseFuncDecl hr first isLocal).bind fun x => ?_
  refine (nested_scope hr _ _ _ (.pure fun _ _ => trivial)).bind fun y => ?_
  exact .pure fun _ _ => trivial

theorem nested_parseClosure :
    Nests src (· = .FUNC) d ((Hooks.plain src).parseClosure src r)
      ((Hooks.strict src).parseClosure src r') d fun _ => anyToken := by
  have hE := emitting_still src
  refine (nests_plain fun t ht => by rw [ht]; exact ⟨rfl, rfl⟩).bind fun _ => ?_
  refine hE.hold.nests.bind fun loadP => Nests.get fun p => ?_
  refine (nested_scope hr _ _ _ (nested_closureBinds hr)).bind fun x => ?_
  exact .pure fun _ _ => trivial

omit hr in
/-- The last token of a literal: the strict parser refuses any other one. -/
theorem nests_closing {c : Token} (hcloser : brackets.closer c = none)
    (hcloses : brackets.closes c = true) :
    Nests src anyToken (c :: d) ((Hooks.plain src).closing c) ((Hooks.strict src).closing c) d
      fun _ => anyToken := by
  intro p _
  have hstrict : (Hooks.strict src).closing c p =
      if p.lah.token = c then ymcNext src p else .error .misclosed p := by
    change (ymcPeek >>= fun t => if t = c then ymcNext src else throw .misclosed) p = _
    have hpeek : ymcPeek p = .ok p.lah.token p := rfl
    rw [bind_of_ok hpeek]
    split <;> rfl
  rw [hstrict, Hooks.plain_closing, ymcNext_apply]
  cases hnext : src.next p.lex with
  | error f =>
      by_cases hc : p.lah.token = c
      · exact .inl (if_pos hc)
      · exact .inr ⟨p, if_neg hc⟩
  | ok next =>
      refine ⟨trivial, [p.lah.token], .cons hnext (.nil _), Bracketing.fragment_slot c d _, ?_⟩
      by_cases hc : p.lah.token = c
      · rw [if_pos hc]
        refine .inl ⟨rfl, ?_⟩
        rw [hc]
        exact Bracketing.matched_slot d hcloser hcloses
      · rw [if_neg hc]
        exact .inr ⟨⟨p, rfl⟩, Bracketing.mismatched_slot d hc⟩

theorem nested_parseSimple :
    Nests src pre d ((Hooks.plain src).parseSimple src r) ((Hooks.strict src).parseSimple src r') d
      fun _ => anyToken := by
  have hE := emitting_still src
  have hnext : ∀ {t : Token} (a : Tree .expr), t.Plain → Nests src (· = t) d
      (do ymcNext src; return a) (do ymcNext src; return a) d fun _ => anyToken := fun a ht =>
    (nests_plain fun t' ht' => by rw [ht']; exact ht).bind fun _ => .pure fun _ _ => trivial
  refine nests_peek fun t _ => ?_
  split
  · exact (hE.emit _ _ _).nests.bind fun _ => hnext _ ⟨rfl, rfl⟩
  · exact (hE.emit _ _ _).nests.bind fun _ => hnext _ ⟨rfl, rfl⟩
  · exact (hE.emit _ _ _).nests.bind fun _ => hnext _ ⟨rfl, rfl⟩
  · exact Nests.get fun p => (still_decLiteral src p.lah.text).nests.bind fun _ => hnext _ ⟨rfl, rfl⟩
  · exact Nests.get fun p => (still_hexLiteral src p.lah.text).nests.bind fun _ => hnext _ ⟨rfl, rfl⟩
  · exact Nests.get fun p => (hE.emitKz _).nests.bind fun _ => hnext _ ⟨rfl, rfl⟩
  · refine (nests_parseMap hr _).bind fun e => (nests_closing rfl rfl).bind fun _ => ?_
    exact .pure fun _ _ => trivial
  · refine (nests_parseMap hr _).bind fun e => (nests_closing rfl rfl).bind fun _ => ?_
    exact .pure fun _ _ => trivial
  · refine (nests_parseArray hr).bind fun e => (nests_closing rfl rfl).bind fun _ => ?_
    exact .pure fun _ _ => trivial
  · exact nested_parseClosure hr
  · exact nested_parseSuffixed hr

omit hr in
theorem plain_of_binaryOp {t : Token} {op : BinaryOp} (h : some op = ymcBinaryOp t) : t.Plain := by
  unfold ymcBinaryOp at h
  split at h <;> first
    | exact ⟨rfl, rfl⟩
    | cases h

omit hr in
theorem plain_of_unaryOp {t : Token} {op : UnaryOp} (h : ymcUnaryOp t = some op) : t.Plain := by
  unfold ymcUnaryOp at h
  split at h <;> first
    | exact ⟨rfl, rfl⟩
    | cases h

/-- The operator that is passed on is the one that is looked at. -/
theorem nested_binaries (limit fuel : Nat) (e : Tree .expr) (op : Option BinaryOp) :
    Nests src (fun t => op = ymcBinaryOp t) d (binaries src r limit fuel e op)
      (binaries src r' limit fuel e op) d fun x t => x.2 = ymcBinaryOp t := by
  have hE := emitting_still src
  induction fuel generalizing e op with
  | zero => exact .throw _
  | succ fuel ih =>
      cases op with
      | none => exact .pure fun _ h => h
      | some op =>
          refine Nests.ite (fun _ => ?_) fun _ => .pure fun _ h => h
          refine (nests_plain fun t ht => plain_of_binaryOp ht).bind fun _ => ?_
          refine (hE.holdLogc op).nests.bind fun i => (hr.expr _ d).bind fun x => ?_
          exact (hE.binary op i).nests.bind fun _ => ih _ _

theorem nested_parseOperand :
    Nests src anyToken d ((Hooks.plain src).parseOperand src r)
      ((Hooks.strict src).parseOperand src r') d fun _ => anyToken := by
  have hE := emitting_still src
  refine nests_peek fun t _ => ?_
  rcases hop : ymcUnaryOp t with _ | op
  · exact nested_parseSimple hr
  · refine (nests_plain fun t' ht' => by rw [ht']; exact plain_of_unaryOp hop).bind fun _ => ?_
    refine (hr.expr' prioUnary d).bind fun x => (hE.unary op).nests.bind fun _ => ?_
    exact .pure fun _ _ => trivial

theorem nested_parseExpr (limit : Nat) :
    Nests src anyToken d ((Hooks.plain src).parseExpr src r limit)
      ((Hooks.strict src).parseExpr src r' limit) d fun x t => x.2 = ymcBinaryOp t := by
  refine (nested_parseOperand hr).bind fun e => nests_peek fun t _ => ?_
  rw [← hr.fuel]
  exact (nested_binaries hr limit _ e _).mono (fun t' ht' => by rw [ht']) fun _ _ h => h

/-! ## Statements -/

theorem nested_lvalSuffixes (fuel : Nat) (lv : Tree .lval) :
    Nests src anyToken d (lvalSuffixes src r fuel lv) (lvalSuffixes src r' fuel lv) d
      fun _ => anyToken := by
  have hE := emitting_still src
  induction fuel generalizing lv with
  | zero => exact .throw _
  | succ fuel ih =>
      refine nests_peek fun t _ => ?_
      split
      · refine (hE.lvalPartial lv).nests.bind fun _ => ?_
        refine (nests_plain fun t ht => by rw [ht]; exact ⟨rfl, rfl⟩).bind fun _ => ?_
        exact nested_symbol.bind fun name => ih _
      · refine (hE.lvalPartial lv).nests.bind fun _ => ?_
        refine (nests_open (c := .rbrack) rfl).bind fun _ => (hr.expr' 0 _).bind fun i => ?_
        exact (nests_match (nests_close rfl rfl)).bind fun _ => ih _
      · refine (hE.lvalPartial lv).nests.bind fun _ => ?_
        refine (nests_plain fun t ht => by rw [ht]; exact ⟨rfl, rfl⟩).bind fun _ => ?_
        exact nested_symbol.bind fun method => (nested_parseCallargs hr _ _).bind fun args => ih _
      · exact (hE.lvalPartial lv).nests.bind fun _ => (nested_parseCallargs hr _ _).bind fun _ => ih _
      · exact (hE.lvalPartial lv).nests.bind fun _ => (nested_parseCallargs hr _ _).bind fun _ => ih _
      · exact .pure fun _ _ => trivial

theorem nested_parseExprStat :
    Nests src pre d (parseExprStat src r) (parseExprStat src r') d fun _ => anyToken := by
  have hE := emitting_still src
  have hlval : Nests src pre d (parseLval src r) (parseLval src r') d fun _ => anyToken := by
    refine nests_peek fun t _ => ?_
    split
    · refine nested_symbol.bind fun name => ?_
      rw [← hr.fuel]
      exact nested_lvalSuffixes hr _ _
    · exact .throw _
  refine hlval.bind fun lv => nests_peek fun t _ => Nests.ite (fun ht => ?_) fun _ => ?_
  · refine (nests_plain fun t' ht' => by rw [ht', ht]; exact ⟨rfl, rfl⟩).bind fun _ => ?_
    refine (hr.expr' 0 d).bind fun x => (hE.lvalFinish lv).nests.bind fun _ => ?_
    exact .pure fun _ _ => trivial
  · exact Nests.ite (fun _ => .pure fun _ _ => trivial) fun _ => .throw _

theorem nested_parseReturn :
    Nests src (· = .RETURN) d (parseReturn src r) (parseReturn src r') d fun _ => anyToken := by
  have hE := emitting_still src
  refine (nests_plain fun t ht => by rw [ht]; exact ⟨rfl, rfl⟩).bind fun _ => ?_
  refine (hr.expr' 0 d).bind fun x => (hE.emit _ _ _).nests.bind fun _ => ?_
  exact .pure fun _ _ => trivial

theorem nested_parseDecls (fuel : Nat) :
    Nests src pre d (parseDecls src r fuel) (parseDecls src r' fuel) d fun _ => anyToken := by
  have hE := emitting_still src
  have hdecl : ∀ {pre : Token → Prop},
      Nests src pre d (parseDecl src r) (parseDecl src r') d fun _ => anyToken := by
    intro pre
    refine nested_symbol.bind fun name => (hE.newLocvar name).nests.bind fun i => ?_
    refine nests_peek fun t _ => Nests.ite (fun _ => .pure fun _ _ => trivial) fun ht => ?_
    refine (nests_plain fun t' ht' => ?_).bind fun _ => (hr.expr' 0 d).bind fun x => ?_
    · rw [ht', not_not.1 ht]
      exact ⟨rfl, rfl⟩
    · exact (hE.emit _ _ _).nests.bind fun _ => .pure fun _ _ => trivial
  induction fuel generalizing pre with
  | zero => exact .throw _
  | succ fuel ih =>
      refine hdecl.bind fun put => (nested_test ⟨rfl, rfl⟩).bind fun more => ?_
      refine Nests.ite (fun _ => ih.bind fun _ => .pure fun _ _ => trivial) fun _ => ?_
      exact .pure fun _ _ => trivial

theorem nested_parseLocal :
    Nests src (· = .VAR) d ((Hooks.plain src).parseLocal src r)
      ((Hooks.strict src).parseLocal src r') d fun _ => anyToken := by
  refine (nests_plain fun t ht => by rw [ht]; exact ⟨rfl, rfl⟩).bind fun _ => ?_
  refine nests_peek fun t _ => Nests.ite (fun ht => ?_) fun _ => ?_
  · rw [ht]
    exact nested_parseFunc hr true
  · rw [← hr.fuel]
    exact (nested_parseDecls hr _).bind fun _ => .pure fun _ _ => trivial

theorem nested_elifs (fuel jnxt : Nat) (jout : List Nat) (nsub : Nat) :
    Nests src anyToken d ((Hooks.plain src).elifs src r fuel jnxt jout nsub)
      ((Hooks.strict src).elifs src r' fuel jnxt jout nsub) d fun _ => anyToken := by
  have hE := emitting_still src
  induction fuel generalizing jnxt jout nsub with
  | zero => exact .throw _
  | succ fuel ih =>
      refine nests_peek fun t _ => ?_
      split
      · refine (nests_plain fun t ht => by rw [ht]; exact ⟨rfl, rfl⟩).bind fun _ => ?_
        refine (still_holdJout src jout).nests.bind fun jout => (hE.hackJmp _ _).nests.bind fun _ => ?_
        refine (hr.expr' 0 d).bind fun cond => hE.hold.nests.bind fun jnxt => ?_
        refine (nested_parseBlock hr).bind fun body => (ih _ _ _).bind fun _ => ?_
        exact .pure fun _ _ => trivial
      · refine (nests_plain fun t ht => by rw [ht]; exact ⟨rfl, rfl⟩).bind fun _ => ?_
        refine (still_holdJout src jout).nests.bind fun jout => (hE.hackJmp _ _).nests.bind fun _ => ?_
        refine (nested_parseBlock hr).bind fun body => (hE.fillJout _).nests.bind fun _ => ?_
        exact .pure fun _ _ => trivial
      · refine (hE.fillJout _).nests.bind fun _ => Nests.ite (fun _ => ?_) fun _ => ?_
        · exact (hE.hackJmp _ _).nests.bind fun _ => .pure fun _ _ => trivial
        · exact .pure fun _ _ => trivial

theorem nested_parseIf :
    Nests src (· = .IF) d ((Hooks.plain src).parseIf src r) ((Hooks.strict src).parseIf src r') d
      fun _ => anyToken := by
  have hE := emitting_still src
  refine (nests_plain fun t ht => by rw [ht]; exact ⟨rfl, rfl⟩).bind fun _ => ?_
  refine (still_mark src _).nests.bind fun _ => (hr.expr' 0 d).bind fun cond => ?_
  refine hE.hold.nests.bind fun jnxt => (nested_parseBlock hr).bind fun body => ?_
  rw [← hr.fuel]
  refine (nested_elifs hr _ _ _ _).bind fun rest => (still_mark src _).nests.bind fun _ => ?_
  exact .pure fun _ _ => trivial

theorem nested_parseIn (tmp : Bytes) :
    Nests src pre d ((Hooks.plain src).parseIn src r tmp) ((Hooks.strict src).parseIn src r' tmp) d
      fun _ => anyToken := by
  have hE := emitting_still src
  refine (nested_match ⟨rfl, rfl⟩).bind fun _ => (hr.expr' 0 d).bind fun x => ?_
  refine still_freshIter.nests.bind fun iter => (hE.newLocvar iter).nests.bind fun i => ?_
  refine (hE.emit _ _ _).nests.bind fun _ => (still_site src _).nests.bind fun _ => ?_
  refine hE.ipos.nests.bind fun retry => ?_
  refine (still_onLoop _).nests.bind fun _ => (hE.emitPush _).nests.bind fun _ => ?_
  refine (hE.emitCall _ _ _ _).nests.bind fun _ => hE.hold.nests.bind fun jcond => ?_
  refine (still_onLoop _).nests.bind fun _ => (hE.emitStore tmp).nests.bind fun _ => ?_
  refine (nested_parseBlock hr).bind fun body => (still_loopLeave src).nests.bind fun _ => ?_
  exact .pure fun _ _ => trivial

theorem nested_parseFor :
    Nests src (· = .FOR) d ((Hooks.plain src).parseFor src r) ((Hooks.strict src).parseFor src r') d
      fun _ => anyToken := by
  have hE := emitting_still src
  refine (nests_plain fun t ht => by rw [ht]; exact ⟨rfl, rfl⟩).bind fun _ => ?_
  refine (still_loopEnter src).nests.bind fun _ => nests_peek fun t _ => ?_
  split
  · refine (still_site src _).nests.bind fun _ => hE.ipos.nests.bind fun retry => ?_
    refine (still_onLoop _).nests.bind fun _ => ?_
    refine (nested_parseBlock hr).bind fun body => (still_loopLeave src).nests.bind fun _ => ?_
    exact .pure fun _ _ => trivial
  · refine (nests_plain fun t ht => by rw [ht]; exact ⟨rfl, rfl⟩).bind fun _ => ?_
    refine nested_symbol.bind fun tmp => (hE.newLocvar tmp).nests.bind fun _ => ?_
    exact nested_parseIn hr tmp
  · exact nested_symbol.bind fun tmp => nested_parseIn hr tmp
  · exact .throw _

theorem nested_parseStmt :
    Nests src anyToken d ((Hooks.plain src).parseStmt src r) ((Hooks.strict src).parseStmt src r') d
      fun _ => anyToken := by
  have hE := emitting_still src
  have hnext : ∀ {t : Token} (a : Tree .stmt), t.Plain → Nests src (· = t) d
      (do ymcNext src; return a) (do ymcNext src; return a) d fun _ => anyToken := fun a ht =>
    (nests_plain fun t' ht' => by rw [ht']; exact ht).bind fun _ => .pure fun _ _ => trivial
  refine nests_peek fun t _ => ?_
  split
  · exact hnext _ ⟨rfl, rfl⟩
  · exact nested_parseIf hr
  · exact .pure fun _ _ => trivial
  · exact nested_parseFor hr
  · exact nested_parseFunc hr false
  · exact nested_parseLocal hr
  · exact nested_parseReturn hr
  · exact (still_holdBreak src).nests.bind fun _ => hnext _ ⟨rfl, rfl⟩
  · refine (still_retry src).nests.bind fun target => (hE.emitJmp _).nests.bind fun _ => ?_
    exact hnext _ ⟨rfl, rfl⟩
  · exact nested_parseExprStat hr

/-! ## Compilations -/

omit hr in
theorem nested_parsing (src : Source σ) (depth : Nat) :
    ((Hooks.plain src).parser src depth).Nests src ((Hooks.strict src).parser src depth) := by
  induction depth with
  | zero => exact ⟨fun _ _ => .throw _, fun _ => .throw _, rfl⟩
  | succ depth ih =>
      refine ⟨fun limit d => nested_parseExpr ih limit, fun d => ?_, rfl⟩
      have hstmt : Still (Hooks.plain src).stmt := fun _ => rfl
      exact hstmt.nests.bind fun _ => nested_parseStmt ih

omit hr in
theorem nested_topStmts {r r' : Rec σ} (hstmt : Nested src r.stmt r'.stmt) (fuel : Nat) :
    Nests src anyToken d (topStmts r fuel) (topStmts r' fuel) d fun _ t => t = .EOS := by
  induction fuel with
  | zero => exact .throw _
  | succ fuel ih =>
      refine nests_peek fun t _ => Nests.ite (fun ht => .pure fun t' ht' => ht'.trans ht) fun _ => ?_
      refine ((hstmt d).mono (fun _ _ => trivial) fun _ _ h => h).bind fun s => ?_
      exact ih.bind fun _ => .pure fun _ h => h

end

/-- `ymc_compile` behind its first token. -/
def Hooks.compileTop (h : Hooks σ) (src : Source σ) (depth : Nat) (fn : Addr) :
    ParseM σ (Tree .func) := do
  ymkEnter (Chunk.zero.addLz (lit "argv")).1
  let body ← topStmts (h.parser src depth) depth
  ymkEmitEnd
  ymkLeave fn
  return .func fn [] body

theorem nested_compileTop (src : Source σ) (depth : Nat) (fn : Addr) (d : List Token) :
    Nests src anyToken d ((Hooks.plain src).compileTop src depth fn)
      ((Hooks.strict src).compileTop src depth fn) d fun _ t => t = .EOS := by
  have hE := emitting_still src
  refine (still_ymkEnter _).nests.bind fun _ => (nested_topStmts (nested_parsing src depth).stmt _).bind fun body => ?_
  refine hE.emitEnd.nests.bind fun _ => (still_ymkLeave fn).nests.bind fun _ => ?_
  exact .pure fun _ h => h

section

variable (line : List Ytoken → Nat)

/-- There is no `EOS` in a sequence of tokens but behind its end. -/
def Ended (s : Ytoken × List Ytoken) : Prop :=
  (∀ t ∈ s.2, t.token ≠ .EOS) ∧ (s.1.token = .EOS → s.2 = [])

/-- What is read up to the end is the whole sequence. -/
theorem Consumed.run_eq {s s' : Ytoken × List Ytoken} {read : List Token}
    (h : Consumed (tokenSource line false) s read s') (hs : Ended s) (hs' : s'.1.token = .EOS)
    (due : List Token) :
    brackets.run read due = brackets.run (s.1.token :: s.2.map Ytoken.token) due := by
  have hEOS : ∀ due, brackets.step due .EOS = some due := fun due =>
    Bracketing.step_plain due rfl rfl
  induction h generalizing due with
  | nil s =>
      rw [hs.2 hs', hs', Bracketing.run_cons, hEOS]
      rfl
  | @cons s next s' ts hnext hrest ih =>
      rw [Bracketing.run_cons, Bracketing.run_cons]
      congr 1
      funext due
      rcases s with ⟨t, _ | ⟨t', ts'⟩⟩
      · cases hnext
        rw [ih ⟨hs.1, fun _ => rfl⟩ hs', Bracketing.run_cons]
        change (brackets.step due .EOS).bind _ = _
        rw [hEOS]
        rfl
      · cases hnext
        refine ih ⟨fun a ha => hs.1 a (List.mem_cons_of_mem _ ha), fun ht => ?_⟩ hs' due
        exact absurd ht (hs.1 t' (List.mem_cons_self ..))

/-- `ymc_compile` returns 0. -/
def accepted {α : Type} : EStateM.Result Abort (Parser σ) α → Bool
  | .ok _ _ => true
  | .error _ _ => false

/-- The compilation meets an array or a map that is closed by another token. -/
def Misclosed (ts : List Ytoken) (depth : Nat) (fn : Addr) (heap : Heap) (stk : List Variable) :
    Prop :=
  ∃ p', (Hooks.strict (tokenSource line false)).ymcCompile (tokenSource line false) depth fn
    (.init ts heap stk) = .error .misclosed p'

/-- An accepted program is well bracketed exactly when each of its arrays and maps is
closed by its own token. -/
theorem ymcCompile_well_bracketed_iff (ts : List Ytoken) (hts : ∀ t ∈ ts, t.token ≠ .EOS)
    (depth : Nat) (fn : Addr) (heap : Heap) (stk : List Variable)
    (haccept : accepted (ymcCompile (tokenSource line false) depth fn (.init ts heap stk)) = true) :
    brackets.Balanced (ts.map Ytoken.token) ↔ ¬ Misclosed line ts depth fn heap stk := by
  -- the first token, `EOS` where there is none
  obtain ⟨first, rest, hfirst, hended, hrun⟩ : ∃ first rest,
      (tokenSource line false).next ts = .ok (first, rest) ∧ Ended (first, rest) ∧
        brackets.run (ts.map Ytoken.token) [] =
          brackets.run (first.token :: rest.map Ytoken.token) [] := by
    cases ts with
    | nil => exact ⟨_, [], rfl, ⟨hts, fun _ => rfl⟩, rfl⟩
    | cons t ts =>
        refine ⟨t, ts, rfl, ⟨fun a ha => hts a (List.mem_cons_of_mem _ ha), fun ht => ?_⟩, rfl⟩
        exact absurd ht (hts t (List.mem_cons_self ..))
  have hstart := ymcNext_of_ok (p := Parser.init ts heap stk) hfirst
  rw [← Hooks.ymcCompile_plain] at haccept
  have hx : (Hooks.plain (tokenSource line false)).ymcCompile (tokenSource line false) depth fn
      (.init ts heap stk) = (Hooks.plain (tokenSource line false)).compileTop (tokenSource line false) depth fn
        { Parser.init ts heap stk with lex := rest, lah := first } := bind_of_ok hstart
  have hy : (Hooks.strict (tokenSource line false)).ymcCompile (tokenSource line false) depth fn
      (.init ts heap stk) = (Hooks.strict (tokenSource line false)).compileTop (tokenSource line false) depth fn
        { Parser.init ts heap stk with lex := rest, lah := first } := bind_of_ok hstart
  have hnests := nested_compileTop (tokenSource line false) depth fn []
    { Parser.init ts heap stk with lex := rest, lah := first } trivial
  rw [hx] at haccept
  unfold Misclosed
  rw [hy]
  rcases hrun₁ : (Hooks.plain (tokenSource line false)).compileTop (tokenSource line false) depth fn
    { Parser.init ts heap stk with lex := rest, lah := first } with ⟨tree, p'⟩ | ⟨e, p'⟩
  swap
  · rw [hrun₁] at haccept
    cases haccept
  rw [hrun₁] at hnests
  obtain ⟨hend, read, hreads, -, hcases⟩ := hnests
  have hread := hreads.run_eq line hended hend []
  rcases hcases with ⟨hstrict, hmatched⟩ | ⟨hstrict, hmismatched⟩
  · refine iff_of_true ?_ ?_
    · exact hrun.trans (hread.symm.trans hmatched.balanced)
    · rintro ⟨q, hq⟩
      cases hstrict.symm.trans hq
  · refine iff_of_false (fun hbal => ?_) fun h => h hstrict
    exact hmismatched.not_balanced (hread.trans (hrun.symm.trans hbal))

end

/-- `x = [nil )`. -/
def closedByAnother : List Ytoken :=
  [⟨.SYMBOL, 0, 1, lit "x"⟩, ⟨.assign, 2, 1, lit "="⟩, ⟨.lbrack, 4, 1, lit "["⟩,
    ⟨.NIL, 5, 3, lit "nil"⟩, ⟨.rparen, 9, 1, lit ")"⟩]

/-- The array is closed by a parenthesis. -/
theorem array_closed_by_another :
    accepted (ymcCompile (tokenSource (fun _ => 1) false) 5 0 (.init closedByAnother
      (Heap.empty.alloc (.func ⟨some .zero, [], 0, [], none⟩)).1 [.func 0])) = true ∧
    ¬ brackets.Balanced (closedByAnother.map Ytoken.token) := by
  unfold Bracketing.Balanced
  decide +kernel

/-- `x = [nil]`. -/
def closedByItself : List Ytoken :=
  [⟨.SYMBOL, 0, 1, lit "x"⟩, ⟨.assign, 2, 1, lit "="⟩, ⟨.lbrack, 4, 1, lit "["⟩,
    ⟨.NIL, 5, 3, lit "nil"⟩, ⟨.rbrack, 8, 1, lit "]"⟩]

theorem ymcCompile_well_bracketed_ownArray :
    brackets.Balanced (closedByItself.map Ytoken.token) ↔
      ¬ Misclosed (fun _ => 1) closedByItself 5 0
        (Heap.empty.alloc (.func ⟨some .zero, [], 0, [], none⟩)).1 [.func 0] :=
  ymcCompile_well_bracketed_iff (fun _ => 1) closedByItself (by decide) 5 0 _ _ (by decide +kernel)

end Ymd
