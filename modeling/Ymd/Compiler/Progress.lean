import Ymd.Compiler.Lookahead

/-! # The end of a compilation

Every production reads a token on its way or fails, but for the statement `with`:
`parse_stmt` has a case for it and no parser, and the loops around it come back to the
same token for ever. The checked parser stops there.
-/

namespace Ymd

open Foundation

variable {σ : Type}

def Abort.with : Abort := .panic "with"

/-- The parser stops at a statement that begins with `with`. -/
def Hooks.checked (src : Source σ) : Hooks σ :=
  { Hooks.plain src with
    stmt := do
      if (← ymcPeek) = .WITH then throw .with else return () }

/-- `parse_block` and `ymc_compile` have the same loop, up to another token. -/
def stmtsUntil (stop : Token) (r : Rec σ) : Nat → ParseM σ (Tree .block)
  | 0 => throw .fuel
  | fuel + 1 => do
      if (← ymcPeek) = stop then return .done
      let s ← r.stmt
      return .stmt s (← stmtsUntil stop r fuel)

theorem blockStmts_eq (r : Rec σ) (fuel : Nat) : blockStmts r fuel = stmtsUntil .rbrace r fuel := by
  induction fuel with
  | zero => rfl
  | succ fuel ih => rw [blockStmts, stmtsUntil, ih]

theorem topStmts_eq (r : Rec σ) (fuel : Nat) : topStmts r fuel = stmtsUntil .EOS r fuel := by
  induction fuel with
  | zero => rfl
  | succ fuel ih => rw [topStmts, stmtsUntil, ih]

/-! ## What is left to read -/

/-- The tokens behind which there may be no other. -/
def Token.weight (t : Token) : Nat := if t = .EOS ∨ t = .ERROR then 0 else 1

/-- What is left of a source of tokens, in the states that reading comes through. -/
structure Measure (σ : Type) where
  size : σ → Nat
  good : σ → Prop

/-- Each token of a source takes something of what is left, but for the last ones. -/
def Source.Shrinks (src : Source σ) (m : Measure σ) : Prop :=
  ∀ lex t lex', m.good lex → src.next lex = .ok (t, lex') →
    m.good lex' ∧ m.size lex' + t.token.weight ≤ m.size lex

/-- The number of tokens. -/
def tokensLeft : Measure (List Ytoken) := ⟨List.length, fun _ => True⟩

theorem tokenSource_shrinks (line : List Ytoken → Nat) (faulty : Bool) :
    (tokenSource line faulty).Shrinks tokensLeft := by
  intro ts t ts' _ h
  refine ⟨trivial, ?_⟩
  change ts'.length + t.token.weight ≤ ts.length
  cases ts with
  | nil =>
      cases h
      cases faulty <;> exact Nat.le_refl _
  | cons t' ts =>
      cases h
      have hweight : t.token.weight ≤ 1 := by
        unfold Token.weight
        split <;> decide
      rw [List.length_cons]
      omega

/-- What is left to read, with the token that is looked at. -/
def Parser.left (size : σ → Nat) (p : Parser σ) : Nat := size p.lex + p.lah.token.weight

/-- From a token with `pre` on, with less than `n` left, there are rounds enough; `k`
tokens are read at least, and `post` holds of the result and the token behind it. -/
def Takes {α : Type} (m : Measure σ) (n k : Nat) (pre : Token → Prop) (x : ParseM σ α)
    (post : α → Token → Prop) : Prop :=
  ∀ p, m.good p.lex → pre p.lah.token → p.left m.size < n → match x p with
    | .ok a p' => m.good p'.lex ∧ post a p'.lah.token ∧ p'.left m.size + k ≤ p.left m.size
    | .error e _ => e ≠ .fuel

/-- No condition on the token. -/
abbrev whatever (_ : Token) : Prop := True

section

variable {α β : Type} {src : Source σ} {m : Measure σ} {n n' k k' : Nat}
  {pre pre' : Token → Prop} {x y : ParseM σ α} {f : α → ParseM σ β}
  {post post' : α → Token → Prop} {post₂ : β → Token → Prop}

theorem Takes.mono (h : Takes m n k pre x post) (hn : n' ≤ n) (hk : k' ≤ k)
    (hpre : ∀ t, pre' t → pre t) (hpost : ∀ a t, post a t → post' a t) :
    Takes m n' k' pre' x post' := by
  intro p hgood hp hleft
  have hrun := h p hgood (hpre _ hp) (by omega)
  rcases hxp : x p with ⟨a, p₁⟩ | ⟨e, p₁⟩
  · rw [hxp] at hrun
    exact ⟨hrun.1, hpost _ _ hrun.2.1, by have := hrun.2.2; omega⟩
  · rw [hxp] at hrun
    exact hrun

/-- Fewer rounds, for less that is left. -/
theorem Takes.within (h : Takes m n k pre x post) (hn : n' ≤ n) : Takes m n' k pre x post :=
  h.mono hn (Nat.le_refl k) (fun _ h => h) fun _ _ h => h

/-- Whether a token is read does not matter. -/
theorem Takes.weaken (h : Takes m n k pre x post) : Takes m n 0 pre x post :=
  h.mono (Nat.le_refl n) (Nat.zero_le k) (fun _ h => h) fun _ _ h => h

theorem Takes.any (h : Takes m n k pre x post) : Takes m n k pre x fun _ => whatever :=
  h.mono (Nat.le_refl n) (Nat.le_refl k) (fun _ h => h) fun _ _ _ => trivial

theorem Takes.bind_add {j : Nat} (hx : Takes m n k pre x post)
    (hf : ∀ a, Takes m (n - k) j (post a) (f a) post₂) :
    Takes m n (k + j) pre (x >>= f) post₂ := by
  intro p hgood hp hleft
  have hrun := hx p hgood hp hleft
  rcases hxp : x p with ⟨a, p₁⟩ | ⟨e, p₁⟩
  · rw [hxp] at hrun
    obtain ⟨hgood₁, hpost, hk⟩ := hrun
    have hrest := hf a p₁ hgood₁ hpost (by omega)
    rw [bind_of_ok hxp]
    rcases hfa : f a p₁ with ⟨b, p₂⟩ | ⟨e, p₂⟩
    · rw [hfa] at hrest
      exact ⟨hrest.1, hrest.2.1, by have := hrest.2.2; omega⟩
    · rw [hfa] at hrest
      exact hrest
  · rw [hxp] at hrun
    rw [bind_of_error hxp]
    exact hrun

/-- The token is read, and one round less is left for the rest. -/
theorem Takes.first (hx : Takes m (n + 1) 1 pre x post)
    (hf : ∀ a, Takes m n 0 (post a) (f a) post₂) : Takes m (n + 1) 1 pre (x >>= f) post₂ :=
  hx.bind_add hf

theorem Takes.bind (hx : Takes m n k pre x post)
    (hf : ∀ a, Takes m n 0 (post a) (f a) post₂) : Takes m n k pre (x >>= f) post₂ :=
  hx.bind_add fun a => (hf a).within (Nat.sub_le n k)

/-- What reads tokens is behind. -/
theorem Takes.before (hx : Takes m n 0 pre x post)
    (hf : ∀ a, Takes m n k (post a) (f a) post₂) : Takes m n k pre (x >>= f) post₂ := by
  have hbind := hx.bind_add hf
  rwa [Nat.zero_add] at hbind

theorem Takes.ite {c : Prop} [Decidable c] (hx : c → Takes m n k pre x post)
    (hy : ¬ c → Takes m n k pre y post) : Takes m n k pre (if c then x else y) post := by
  by_cases hc : c
  · rw [if_pos hc]
    exact hx hc
  · rw [if_neg hc]
    exact hy hc

theorem Still.takes (hx : Still x) : Takes m n 0 pre x fun _ => pre := by
  intro p hgood hp _
  have hrun := hx p
  rcases hxp : x p with ⟨a, p₁⟩ | ⟨e, p₁⟩
  · rw [hxp] at hrun
    have hfront : p₁.front = p.front := hrun
    have hlah : p₁.lah = p.lah := congrArg Prod.fst hfront
    have hlex : p₁.lex = p.lex := congrArg Prod.snd hfront
    refine ⟨by rwa [hlex], by rwa [hlah], Nat.le_of_eq ?_⟩
    rw [Nat.add_zero, Parser.left, Parser.left, hlah, hlex]
  · rw [hxp] at hrun
    exact hrun

theorem Takes.pure {a : α} (h : ∀ t, pre t → post a t) : Takes m n 0 pre (pure a) post :=
  fun _ hgood hp _ => ⟨hgood, h _ hp, Nat.le_refl _⟩

theorem Takes.throw {e : Abort} (he : e ≠ .fuel) : Takes m n k pre (throw e) post :=
  fun _ _ _ _ => he

theorem Takes.throw_bind {e : Abort} (he : e ≠ .fuel) :
    Takes m n k pre ((MonadExcept.throw e : ParseM σ α) >>= f) post₂ :=
  fun _ _ _ _ => he

/-- No rounds are left, and nothing to read. -/
theorem Takes.zero : Takes m 0 k pre x post :=
  fun _ _ _ h => absurd h (Nat.not_lt_zero _)

theorem Takes.get {f : Parser σ → ParseM σ β} (hf : ∀ p, Takes m n k pre (f p) post₂) :
    Takes m n k pre (MonadState.get >>= f) post₂ :=
  fun p hgood hp hleft => hf p p hgood hp hleft

/-- The token is known behind a look at it. -/
theorem takes_peek {f : Token → ParseM σ β}
    (hf : ∀ t, pre t → Takes m n k (· = t) (f t) post₂) :
    Takes m n k pre (ymcPeek >>= f) post₂ :=
  fun p hgood hp hleft => hf p.lah.token hp p hgood rfl hleft

variable (hsize : src.Shrinks m)

include hsize

/-- A token is read, whatever it is. -/
theorem takes_skip : Takes m n 0 pre (ymcNext src) fun _ => whatever := by
  intro p hgood _ _
  rw [ymcNext_apply]
  cases hnext : src.next p.lex with
  | error f => exact Abort.noConfusion
  | ok next =>
      obtain ⟨hgood', hle⟩ := hsize _ _ _ hgood hnext
      exact ⟨hgood', trivial, hle.trans (Nat.le_add_right _ _)⟩

/-- A token that is not the last one. -/
theorem takes_next (hpre : ∀ t, pre t → t.weight = 1) :
    Takes m n 1 pre (ymcNext src) fun _ => whatever := by
  intro p hgood hp _
  rw [ymcNext_apply]
  cases hnext : src.next p.lex with
  | error f => exact Abort.noConfusion
  | ok next =>
      obtain ⟨hgood', hle⟩ := hsize _ _ _ hgood hnext
      refine ⟨hgood', trivial, Nat.succ_le_succ hle |>.trans (Nat.le_of_eq ?_)⟩
      rw [Parser.left, hpre _ hp]

theorem takes_match {need : Token} (hneed : need.weight = 1) :
    Takes m n 1 pre (ymcMatch src need) fun _ => whatever := by
  refine takes_peek fun t _ => Takes.ite (fun _ => .throw_bind Abort.noConfusion) fun ht => ?_
  exact takes_next hsize fun t' ht' => by rw [ht', not_not.1 ht, hneed]

theorem takes_test (token : Token) :
    Takes m n 0 pre (ymcTest src token) fun _ => whatever := by
  refine takes_peek fun t _ => Takes.ite (fun _ => ?_) fun _ => .pure fun _ _ => trivial
  exact (takes_skip hsize).bind fun _ => .pure fun _ _ => trivial

theorem takes_symbol : Takes m n 1 pre (ymkSymbol src) fun _ => whatever := by
  refine takes_peek fun t _ => Takes.ite (fun _ => .throw_bind Abort.noConfusion) fun ht => ?_
  refine Takes.get fun p => (takes_next hsize fun t' ht' => ?_).bind fun _ => .pure fun _ _ => trivial
  rw [ht', not_not.1 ht]
  rfl

end

section

variable {src : Source σ} {m : Measure σ} {r : Rec σ}

/-- The recursive calls read a token, within as many rounds as a loop has. -/
structure Rec.Takes (src : Source σ) (m : Measure σ) (r : Rec σ) : Prop where
  expr : ∀ limit, Ymd.Takes m r.fuel 1 whatever (r.expr limit) fun x t => x.2 = ymcBinaryOp t
  stmt : Ymd.Takes m r.fuel 1 whatever r.stmt fun _ => whatever

/-- An expression, where nothing is said about the operator behind it. -/
theorem Rec.Takes.expr' (hr : r.Takes src m) (limit : Nat) {n : Nat} (hn : n ≤ r.fuel)
    {pre : Token → Prop} : Ymd.Takes m n 1 pre (r.expr limit) fun _ => whatever :=
  (hr.expr limit).mono hn (Nat.le_refl 1) (fun _ _ => trivial) fun _ _ _ => trivial

variable {n : Nat} {pre : Token → Prop} (hsize : src.Shrinks m) (hr : r.Takes src m)

include hsize hr

/-! ## Expressions -/

theorem takes_arrayElems (fuel : Nat) (hn : fuel ≤ r.fuel) :
    Takes m fuel 0 whatever (arrayElems src r fuel) fun _ => whatever := by
  induction fuel with
  | zero => exact .zero
  | succ fuel ih =>
      have hrest := ih (Nat.le_of_succ_le hn)
      refine takes_peek fun t _ => Takes.ite (fun _ => .pure fun _ _ => trivial) fun _ => ?_
      refine ((hr.expr' 0 hn).first fun e => ?_).weaken
      refine (takes_test hsize _).bind fun more => Takes.ite (fun _ => ?_) fun _ => ?_
      · exact hrest.bind fun _ => .pure fun _ _ => trivial
      · exact .pure fun _ _ => trivial

theorem takes_parseArray :
    Takes m (r.fuel + 1) 1 pre (parseArray src r) fun _ => whatever := by
  have hE := emitting_still src
  refine (takes_match hsize rfl).first fun _ => ?_
  refine (takes_arrayElems hsize hr _ (Nat.le_refl _)).bind fun elems => ?_
  exact (hE.emit _ _ _).takes.bind fun _ => .pure fun _ _ => trivial

theorem takes_mapKey (hn : n ≤ r.fuel) :
    Takes m n 1 whatever (mapKey src r) fun _ => whatever := by
  have hE := emitting_still src
  refine takes_peek fun t _ => ?_
  split
  · refine (takes_symbol hsize).bind fun name => (hE.emitPushz name).takes.bind fun _ => ?_
    exact (takes_match hsize rfl).weaken.bind fun _ => .pure fun _ _ => trivial
  · refine Takes.get fun p => (hE.emitKz _).takes.before fun _ => ?_
    refine (takes_next hsize fun t ht => by rw [ht]; rfl).bind fun _ => ?_
    exact (takes_match hsize rfl).weaken.bind fun _ => .pure fun _ _ => trivial
  · refine (takes_match hsize rfl).bind fun _ => (hr.expr' 0 hn).weaken.bind fun k => ?_
    refine (takes_match hsize rfl).weaken.bind fun _ => ?_
    exact (takes_match hsize rfl).weaken.bind fun _ => .pure fun _ _ => trivial

theorem takes_mapEntries (fuel : Nat) (hn : fuel ≤ r.fuel) :
    Takes m fuel 0 whatever (mapEntries src r fuel) fun _ => whatever := by
  induction fuel with
  | zero => exact .zero
  | succ fuel ih =>
      have hfuel := Nat.le_of_succ_le hn
      refine takes_peek fun t _ => Takes.ite (fun _ => .pure fun _ _ => trivial) fun _ => ?_
      refine (((takes_mapKey hsize hr hn).mono (Nat.le_refl _) (Nat.le_refl 1) (fun _ _ => trivial)
        fun _ _ h => h).first fun k => ?_).weaken
      refine (hr.expr' 0 hfuel).weaken.bind fun v => (takes_test hsize _).bind fun more => ?_
      refine Takes.ite (fun _ => ?_) fun _ => .pure fun _ _ => trivial
      exact (ih hfuel).bind fun _ => .pure fun _ _ => trivial

theorem takes_parseMap (ord : Bool) :
    Takes m (r.fuel + 1) 1 pre (parseMap src r ord) fun _ => whatever := by
  have hE := emitting_still src
  refine (takes_match hsize (by cases ord <;> rfl)).first fun _ => ?_
  refine (takes_mapEntries hsize hr _ (Nat.le_refl _)).bind fun elems => ?_
  exact (hE.emit _ _ _).takes.bind fun _ => .pure fun _ _ => trivial

theorem takes_parseArgs (fuel : Nat) (hn : fuel ≤ r.fuel) :
    Takes m fuel 0 whatever (parseArgs src r fuel) fun _ => whatever := by
  induction fuel with
  | zero => exact .zero
  | succ fuel ih =>
      refine ((hr.expr' 0 hn).first fun e => ?_).weaken
      refine (takes_test hsize _).bind fun more => Takes.ite (fun _ => ?_) fun _ => ?_
      · exact (ih (Nat.le_of_succ_le hn)).bind fun _ => .pure fun _ _ => trivial
      · exact .pure fun _ _ => trivial

theorem takes_callArgs :
    Takes m (r.fuel + 1) 1 pre (callArgs src r) fun _ => whatever := by
  have hE := emitting_still src
  refine takes_peek fun t _ => ?_
  split
  · refine (takes_next hsize fun t ht => by rw [ht]; rfl).first fun _ => takes_peek fun t' _ => ?_
    refine Takes.ite (fun _ => ?_) fun _ => ?_
    · exact (takes_skip hsize).bind fun _ => .pure fun _ _ => trivial
    · refine ((takes_parseArgs hsize hr _ (Nat.le_refl _)).mono (Nat.le_refl _) (Nat.le_refl 0)
        (fun _ _ => trivial) fun _ _ h => h).bind fun args => ?_
      exact (takes_match hsize rfl).weaken.bind fun _ => .pure fun _ _ => trivial
  · refine Takes.get fun p => (hE.emitKz _).takes.before fun _ => ?_
    refine (takes_next hsize fun t ht => by rw [ht]; rfl).bind fun _ => ?_
    exact .pure fun _ _ => trivial
  · exact .throw Abort.noConfusion

theorem takes_parseCallargs (adjust : Nat) (method : Option Bytes) :
    Takes m (r.fuel + 1) 1 pre (parseCallargs src r adjust method) fun _ => whatever := by
  have hE := emitting_still src
  refine (takes_callArgs hsize hr).bind fun args => ?_
  cases method with
  | none => exact (hE.emitCall _ _ _ _).takes.bind fun _ => .pure fun _ _ => trivial
  | some method => exact (hE.emitSelfcall _ _ _).takes.bind fun _ => .pure fun _ _ => trivial

theorem takes_parsePrimary :
    Takes m (r.fuel + 1) 1 pre (parsePrimary src r) fun _ => whatever := by
  have hE := emitting_still src
  refine takes_peek fun t _ => ?_
  split
  · refine (takes_next hsize fun t ht => by rw [ht]; rfl).first fun _ => ?_
    refine (hr.expr' 0 (Nat.le_refl _)).weaken.bind fun e => ?_
    exact (takes_match hsize rfl).weaken.bind fun _ => .pure fun _ _ => trivial
  · refine (takes_symbol hsize).bind fun name => (hE.emitPush name).takes.bind fun _ => ?_
    exact .pure fun _ _ => trivial
  · exact .throw Abort.noConfusion

theorem takes_suffixes (fuel : Nat) (hn : fuel ≤ r.fuel) (e : Tree .expr) :
    Takes m fuel 0 whatever (suffixes src r fuel e) fun _ => whatever := by
  have hE := emitting_still src
  induction fuel generalizing e with
  | zero => exact .zero
  | succ fuel ih =>
      have hfuel := Nat.le_of_succ_le hn
      have hround : ∀ {pre : Token → Prop} (adjust : Nat) (method : Option Bytes),
          Takes m (fuel + 1) 1 pre (parseCallargs src r adjust method) fun _ => whatever :=
        fun adjust method => (takes_parseCallargs hsize hr adjust method).within (by omega)
      refine takes_peek fun t _ => ?_
      split
      · refine ((takes_next hsize fun t ht => by rw [ht]; rfl).first fun _ => ?_).weaken
        refine (takes_symbol hsize).weaken.bind fun name => (hE.emitGetf name).takes.bind fun _ => ?_
        exact ih hfuel _
      · refine ((takes_next hsize fun t ht => by rw [ht]; rfl).first fun _ => ?_).weaken
        refine (hr.expr' 0 hfuel).weaken.bind fun i => ?_
        refine (takes_match hsize rfl).weaken.bind fun _ => (hE.emit _ _ _).takes.bind fun _ => ?_
        exact ih hfuel _
      · refine ((takes_next hsize fun t ht => by rw [ht]; rfl).first fun _ => ?_).weaken
        refine (takes_symbol hsize).weaken.bind fun method => ?_
        refine ((hround _ _).within (Nat.le_succ _)).weaken.bind fun args => ih hfuel _
      · exact ((hround _ _).first fun args => ih hfuel _).weaken
      · exact ((hround _ _).first fun args => ih hfuel _).weaken
      · exact .pure fun _ _ => trivial

theorem takes_parseSuffixed :
    Takes m (r.fuel + 1) 1 pre (parseSuffixed src r) fun _ => whatever :=
  (takes_parsePrimary hsize hr).first fun e => takes_suffixes hsize hr _ (Nat.le_refl _) e

/-! ## Functions -/

omit hr in
theorem takes_bindNames (fuel : Nat) (core : Chunk) :
    Takes m fuel 0 whatever (bindNames src fuel core) fun _ => whatever := by
  have hE := emitting_still src
  induction fuel generalizing core with
  | zero => exact .zero
  | succ fuel ih =>
      refine takes_peek fun t _ => ?_
      split
      · exact .pure fun _ _ => trivial
      · refine ((takes_symbol hsize).first fun name => ?_).weaken
        refine (hE.emitBind name core).takes.bind fun core => ?_
        refine (takes_test hsize _).bind fun more => Takes.ite (fun _ => ?_) fun _ => ?_
        · exact (ih core).bind fun _ => .pure fun _ _ => trivial
        · exact .pure fun _ _ => trivial
      · exact .throw Abort.noConfusion

omit hr in
theorem takes_closureBinds :
    Takes m r.fuel 0 whatever (Hooks.closureBinds src r) fun _ => whatever := by
  have hE := emitting_still src
  refine takes_peek fun t _ => Takes.ite (fun _ => ?_) fun _ => .pure fun _ _ => trivial
  refine (takes_skip hsize).bind fun _ => (takes_bindNames hsize _ _).bind fun x => ?_
  refine (takes_match hsize rfl).weaken.bind fun _ => ?_
  refine Takes.ite (fun _ => .throw_bind Abort.noConfusion) fun _ => ?_
  exact (hE.emit _ _ _).takes.bind fun _ => .pure fun _ _ => trivial

omit hr in
theorem takes_paramNames (fuel : Nat) :
    Takes m fuel 0 whatever (paramNames src fuel) fun _ => whatever := by
  have hE := emitting_still src
  induction fuel with
  | zero => exact .zero
  | succ fuel ih =>
      refine takes_peek fun t _ => ?_
      split
      · exact .pure fun _ _ => trivial
      · refine ((takes_symbol hsize).first fun name => ?_).weaken
        refine (hE.newLocvar name).takes.bind fun _ => ?_
        refine (takes_test hsize _).bind fun more => Takes.ite (fun _ => ?_) fun _ => ?_
        · exact ih.bind fun _ => .pure fun _ _ => trivial
        · exact .pure fun _ _ => trivial
      · exact .throw Abort.noConfusion

omit hr in
theorem takes_parseParams (method : Bool) :
    Takes m r.fuel 0 pre (parseParams src r method) fun _ => whatever := by
  have hE := emitting_still src
  have hrest : ∀ params : List Bytes → List Bytes, Takes m r.fuel 0 whatever (do
      let names ← paramNames src r.fuel
      ymcMatch src .rparen
      onBlk fun core => ({ core with kargs := (params names).length % 2 ^ 16 }, ())
      return params names) fun _ => whatever := fun params => by
    refine (takes_paramNames hsize _).bind fun names => ?_
    refine (takes_match hsize rfl).weaken.bind fun _ => (hE.kargs _).takes.bind fun _ => ?_
    exact .pure fun _ _ => trivial
  refine (takes_match hsize rfl).weaken.bind fun _ => ?_
  cases method with
  | false => exact hrest id
  | true => exact (hE.newLocvar _).takes.bind fun _ => hrest (lit "self" :: ·)

omit hsize in
theorem takes_stmtsUntil (stop : Token) (fuel : Nat) (hfuel : n ≤ fuel) (hn : n ≤ r.fuel) :
    Takes m n 0 whatever (stmtsUntil stop r fuel) fun _ => whatever := by
  induction fuel generalizing n with
  | zero =>
      obtain rfl := Nat.le_zero.1 hfuel
      exact .zero
  | succ fuel ih =>
      cases n with
      | zero => exact .zero
      | succ n =>
          refine takes_peek fun t _ => Takes.ite (fun _ => .pure fun _ _ => trivial) fun _ => ?_
          refine ((hr.stmt.mono hn (Nat.le_refl 1) (fun _ _ => trivial) fun _ _ h => h).first
            fun s => ?_).weaken
          refine (ih (Nat.le_of_succ_le_succ hfuel) (Nat.le_of_succ_le hn)).bind fun _ => ?_
          exact .pure fun _ _ => trivial

theorem takes_parseBlock : Takes m r.fuel 0 pre (parseBlock src r) fun _ => whatever := by
  refine (takes_match hsize rfl).weaken.bind fun _ => ?_
  rw [blockStmts_eq]
  refine (takes_stmtsUntil hr _ _ (Nat.le_refl _) (Nat.le_refl _)).bind fun body => ?_
  exact (takes_skip hsize).bind fun _ => .pure fun _ _ => trivial

theorem takes_funcInner (method : Bool) :
    Takes m r.fuel 0 whatever (Hooks.funcInner src r method) fun _ => whatever := by
  have hE := emitting_still src
  refine (takes_parseParams hsize method).bind fun params => hE.reserved.takes.bind fun _ => ?_
  refine (takes_parseBlock hsize hr).bind fun body => hE.emitEnd.takes.bind fun _ => ?_
  exact .pure fun _ _ => trivial

theorem takes_scope (name : Bytes) (desc : List Bytes → FuncDeclDesc)
    {b : ParseM σ (List Bytes × Chunk)} (method : Bool)
    (hb : Takes m r.fuel 0 whatever b fun _ => whatever) :
    Takes m r.fuel 0 whatever ((Hooks.checked src).funcScope name b desc
      (Hooks.funcInner src r method)) fun _ => whatever := by
  refine (still_site src .function).takes.bind fun _ => (still_ymdFunc name).takes.bind fun fn => ?_
  refine hb.bind fun names => ?_
  refine (still_ymkEnter _).takes.bind fun _ => (takes_funcInner hsize hr method).bind fun y => ?_
  refine (still_ymkLeave fn).takes.bind fun _ => (still_ymkEmitFunc src _ fn).takes.bind fun _ => ?_
  exact .pure fun _ _ => trivial

omit hr in
theorem takes_declPath (fuel : Nat) (last : Option Bytes) (name : Bytes) :
    Takes m fuel 0 whatever ((Hooks.checked src).declPath src fuel last name)
      fun _ => whatever := by
  have hE := emitting_still src
  induction fuel generalizing last name with
  | zero => exact .zero
  | succ fuel ih =>
      rcases last with _ | last
      case' some => refine (hE.emitGetf last).takes.bind fun _ => ?_
      all_goals
        refine ((takes_match hsize rfl).first fun _ => ?_).weaken
        refine (takes_symbol hsize).weaken.bind fun next => ?_
        have hcat : Takes m fuel 0 whatever ((Hooks.checked src).catName name next)
            fun _ => whatever :=
          (still_name src _).takes.bind fun _ => .pure fun _ h => h
        refine hcat.bind fun name => takes_peek fun t _ => ?_
        refine Takes.ite (fun _ => .pure fun _ _ => trivial) fun _ => ?_
        refine ((ih (some next) name).mono (Nat.le_refl _) (Nat.le_refl 0) (fun _ _ => trivial)
          fun _ _ h => h).bind fun _ => ?_
        exact .pure fun _ _ => trivial

omit hr in
theorem takes_parseFuncDecl (first : Bytes) (isLocal : Bool) :
    Takes m r.fuel 0 whatever ((Hooks.checked src).parseFuncDecl src r first isLocal)
      fun _ => whatever := by
  have hE := emitting_still src
  refine (still_name src first).takes.bind fun _ => takes_peek fun t _ => ?_
  refine Takes.ite (fun _ => ?_) fun _ => ?_
  · refine (hE.emitPush first).takes.bind fun _ => ?_
    refine ((takes_declPath hsize _ _ _).mono (Nat.le_refl _) (Nat.le_refl 0) (fun _ _ => trivial)
      fun _ _ h => h).bind fun x => ?_
    refine hE.hold.takes.bind fun loadP => (hE.emitSetf _).takes.bind fun _ => ?_
    exact .pure fun _ _ => trivial
  · refine hE.hold.takes.bind fun loadP => Takes.ite (fun _ => ?_) fun _ => ?_
    · refine (hE.newLocvar first).takes.bind fun _ => (hE.emitStore first).takes.bind fun _ => ?_
      exact .pure fun _ _ => trivial
    · exact (hE.emitStore first).takes.bind fun _ => .pure fun _ _ => trivial

/-- Also behind `var`. -/
theorem takes_parseFunc (hn : n ≤ r.fuel + 1) (isLocal : Bool) :
    Takes m n 1 (· = .FUNC) ((Hooks.checked src).parseFunc src r isLocal)
      fun _ => whatever := by
  refine Takes.within (n := r.fuel + 1) ?_ hn
  refine (takes_next hsize fun t ht => by rw [ht]; rfl).first fun _ => takes_peek fun t _ => ?_
  refine Takes.ite (fun _ => .throw_bind Abort.noConfusion) fun _ => ?_
  refine (takes_symbol hsize).weaken.bind fun first => ?_
  refine (takes_parseFuncDecl hsize first isLocal).bind fun x => ?_
  refine (takes_scope hsize hr _ _ _ (.pure fun _ _ => trivial)).bind fun y => ?_
  exact .pure fun _ _ => trivial

theorem takes_parseClosure :
    Takes m (r.fuel + 1) 1 (· = .FUNC) ((Hooks.checked src).parseClosure src r)
      fun _ => whatever := by
  have hE := emitting_still src
  refine (takes_next hsize fun t ht => by rw [ht]; rfl).first fun _ => ?_
  refine hE.hold.takes.bind fun loadP => Takes.get fun p => ?_
  refine (takes_scope hsize hr _ _ _ (takes_closureBinds hsize)).bind fun x => ?_
  exact .pure fun _ _ => trivial

/-! ## Operators -/

theorem takes_parseSimple :
    Takes m (r.fuel + 1) 1 pre ((Hooks.checked src).parseSimple src r) fun _ => whatever := by
  have hE := emitting_still src
  have hnext : ∀ {t : Token} (a : Tree .expr), t.weight = 1 → Takes m (r.fuel + 1) 1 (· = t)
      (do ymcNext src; return a) fun _ => whatever := fun a ht =>
    (takes_next hsize fun t' ht' => by rw [ht']; exact ht).bind fun _ => .pure fun _ _ => trivial
  have hclose : ∀ (a : Tree .expr) (t : Token), Takes m r.fuel 0 whatever
      (do (Hooks.checked src).closing t; return a) fun _ => whatever := fun a _ =>
    (takes_skip hsize).bind fun _ => .pure fun _ _ => trivial
  refine takes_peek fun t _ => ?_
  split
  · exact (hE.emit _ _ _).takes.before fun _ => hnext _ rfl
  · exact (hE.emit _ _ _).takes.before fun _ => hnext _ rfl
  · exact (hE.emit _ _ _).takes.before fun _ => hnext _ rfl
  · exact Takes.get fun p => (still_decLiteral src p.lah.text).takes.before fun _ => hnext _ rfl
  · exact Takes.get fun p => (still_hexLiteral src p.lah.text).takes.before fun _ => hnext _ rfl
  · exact Takes.get fun p => (hE.emitKz _).takes.before fun _ => hnext _ rfl
  · exact (takes_parseMap hsize hr _).first fun e => hclose e _
  · exact (takes_parseMap hsize hr _).first fun e => hclose e _
  · exact (takes_parseArray hsize hr).first fun e => hclose e _
  · exact takes_parseClosure hsize hr
  · exact takes_parseSuffixed hsize hr

omit hsize hr in
theorem weight_of_binaryOp {t : Token} {op : BinaryOp} (h : some op = ymcBinaryOp t) :
    t.weight = 1 := by
  unfold ymcBinaryOp at h
  split at h <;> first
    | rfl
    | cases h

omit hsize hr in
theorem weight_of_unaryOp {t : Token} {op : UnaryOp} (h : ymcUnaryOp t = some op) :
    t.weight = 1 := by
  unfold ymcUnaryOp at h
  split at h <;> first
    | rfl
    | cases h

/-- The operator that is passed on is the one that is looked at. -/
theorem takes_binaries (limit fuel : Nat) (hn : fuel ≤ r.fuel) (e : Tree .expr)
    (op : Option BinaryOp) :
    Takes m fuel 0 (fun t => op = ymcBinaryOp t) (binaries src r limit fuel e op)
      fun x t => x.2 = ymcBinaryOp t := by
  have hE := emitting_still src
  induction fuel generalizing e op with
  | zero => exact .zero
  | succ fuel ih =>
      have hfuel := Nat.le_of_succ_le hn
      cases op with
      | none => exact .pure fun _ h => h
      | some op =>
          refine Takes.ite (fun _ => ?_) fun _ => .pure fun _ h => h
          refine ((takes_next hsize fun t ht => weight_of_binaryOp ht).first fun _ => ?_).weaken
          refine (hE.holdLogc op).takes.bind fun i => ?_
          refine ((hr.expr _).mono hfuel (Nat.zero_le 1) (fun _ _ => trivial) fun _ _ h => h).bind
            fun x => ?_
          exact (hE.binary op i).takes.bind fun _ => ih hfuel _ _

theorem takes_parseOperand :
    Takes m (r.fuel + 1) 1 whatever ((Hooks.checked src).parseOperand src r)
      fun _ => whatever := by
  have hE := emitting_still src
  refine takes_peek fun t _ => ?_
  rcases hop : ymcUnaryOp t with _ | op
  · exact takes_parseSimple hsize hr
  · refine (takes_next hsize fun t' ht' => by rw [ht']; exact weight_of_unaryOp hop).first
      fun _ => ?_
    refine (hr.expr' prioUnary (Nat.le_refl _)).weaken.bind fun x => ?_
    exact (hE.unary op).takes.bind fun _ => .pure fun _ _ => trivial

theorem takes_parseExpr (limit : Nat) :
    Takes m (r.fuel + 1) 1 whatever ((Hooks.checked src).parseExpr src r limit)
      fun x t => x.2 = ymcBinaryOp t := by
  refine (takes_parseOperand hsize hr).first fun e => takes_peek fun t _ => ?_
  exact (takes_binaries hsize hr limit _ (Nat.le_refl _) e _).mono (Nat.le_refl _) (Nat.le_refl 0)
    (fun t' ht' => by rw [ht']) fun _ _ h => h

/-! ## Statements -/

theorem takes_lvalSuffixes (fuel : Nat) (hn : fuel ≤ r.fuel) (lv : Tree .lval) :
    Takes m fuel 0 whatever (lvalSuffixes src r fuel lv) fun _ => whatever := by
  have hE := emitting_still src
  induction fuel generalizing lv with
  | zero => exact .zero
  | succ fuel ih =>
      have hfuel := Nat.le_of_succ_le hn
      have hround : ∀ {pre : Token → Prop} (adjust : Nat) (method : Option Bytes),
          Takes m (fuel + 1) 1 pre (parseCallargs src r adjust method) fun _ => whatever :=
        fun adjust method => (takes_parseCallargs hsize hr adjust method).within (by omega)
      refine takes_peek fun t _ => ?_
      split
      · refine (hE.lvalPartial lv).takes.bind fun _ => ?_
        refine ((takes_next hsize fun t ht => by rw [ht]; rfl).first fun _ => ?_).weaken
        exact (takes_symbol hsize).weaken.bind fun name => ih hfuel _
      · refine (hE.lvalPartial lv).takes.bind fun _ => ?_
        refine ((takes_next hsize fun t ht => by rw [ht]; rfl).first fun _ => ?_).weaken
        refine (hr.expr' 0 hfuel).weaken.bind fun i => ?_
        exact (takes_match hsize rfl).weaken.bind fun _ => ih hfuel _
      · refine (hE.lvalPartial lv).takes.bind fun _ => ?_
        refine ((takes_next hsize fun t ht => by rw [ht]; rfl).first fun _ => ?_).weaken
        refine (takes_symbol hsize).weaken.bind fun method => ?_
        refine ((hround _ _).within (Nat.le_succ _)).weaken.bind fun args => ih hfuel _
      · refine (hE.lvalPartial lv).takes.bind fun _ => ?_
        exact ((hround _ _).first fun args => ih hfuel _).weaken
      · refine (hE.lvalPartial lv).takes.bind fun _ => ?_
        exact ((hround _ _).first fun args => ih hfuel _).weaken
      · exact .pure fun _ _ => trivial

theorem takes_parseExprStat :
    Takes m (r.fuel + 1) 1 pre (parseExprStat src r) fun _ => whatever := by
  have hE := emitting_still src
  have hlval : Takes m (r.fuel + 1) 1 pre (parseLval src r) fun _ => whatever := by
    refine takes_peek fun t _ => ?_
    split
    · exact (takes_symbol hsize).first fun name => takes_lvalSuffixes hsize hr _ (Nat.le_refl _) _
    · exact .throw Abort.noConfusion
  refine hlval.first fun lv => takes_peek fun t _ => Takes.ite (fun ht => ?_) fun _ => ?_
  · refine (takes_skip hsize).bind fun _ => (hr.expr' 0 (Nat.le_refl _)).weaken.bind fun x => ?_
    exact (hE.lvalFinish lv).takes.bind fun _ => .pure fun _ _ => trivial
  · exact Takes.ite (fun _ => .pure fun _ _ => trivial) fun _ => .throw Abort.noConfusion

theorem takes_parseReturn :
    Takes m (r.fuel + 1) 1 (· = .RETURN) (parseReturn src r) fun _ => whatever := by
  have hE := emitting_still src
  refine (takes_next hsize fun t ht => by rw [ht]; rfl).first fun _ => ?_
  refine (hr.expr' 0 (Nat.le_refl _)).weaken.bind fun x => (hE.emit _ _ _).takes.bind fun _ => ?_
  exact .pure fun _ _ => trivial

theorem takes_parseDecls (fuel : Nat) (hn : fuel ≤ r.fuel) :
    Takes m fuel 0 pre (parseDecls src r fuel) fun _ => whatever := by
  have hE := emitting_still src
  induction fuel generalizing pre with
  | zero => exact .zero
  | succ fuel ih =>
      have hfuel := Nat.le_of_succ_le hn
      have hdecl : Takes m (fuel + 1) 1 pre (parseDecl src r) fun _ => whatever := by
        refine (takes_symbol hsize).first fun name => (hE.newLocvar name).takes.bind fun i => ?_
        refine takes_peek fun t _ => Takes.ite (fun _ => .pure fun _ _ => trivial) fun ht => ?_
        refine (takes_skip hsize).bind fun _ => (hr.expr' 0 hfuel).weaken.bind fun x => ?_
        exact (hE.emit _ _ _).takes.bind fun _ => .pure fun _ _ => trivial
      refine (hdecl.first fun put => ?_).weaken
      refine (takes_test hsize _).bind fun more => Takes.ite (fun _ => ?_) fun _ => ?_
      · exact (ih hfuel).bind fun _ => .pure fun _ _ => trivial
      · exact .pure fun _ _ => trivial

theorem takes_parseLocal :
    Takes m (r.fuel + 1) 1 (· = .VAR) ((Hooks.checked src).parseLocal src r)
      fun _ => whatever := by
  refine (takes_next hsize fun t ht => by rw [ht]; rfl).first fun _ => takes_peek fun t _ => ?_
  refine Takes.ite (fun ht => ?_) fun _ => ?_
  · rw [ht]
    exact (takes_parseFunc hsize hr (Nat.le_succ _) true).weaken
  · exact (takes_parseDecls hsize hr _ (Nat.le_refl _)).bind fun _ => .pure fun _ _ => trivial

theorem takes_elifs (fuel : Nat) (hn : fuel ≤ r.fuel) (jnxt : Nat) (jout : List Nat) (nsub : Nat) :
    Takes m fuel 0 whatever ((Hooks.checked src).elifs src r fuel jnxt jout nsub)
      fun _ => whatever := by
  have hE := emitting_still src
  induction fuel generalizing jnxt jout nsub with
  | zero => exact .zero
  | succ fuel ih =>
      have hfuel := Nat.le_of_succ_le hn
      have hblock : Takes m fuel 0 whatever (parseBlock src r) fun _ => whatever :=
        (takes_parseBlock hsize hr).within hfuel
      refine takes_peek fun t _ => ?_
      split
      · refine ((takes_next hsize fun t ht => by rw [ht]; rfl).first fun _ => ?_).weaken
        refine (still_holdJout src jout).takes.bind fun jout => (hE.hackJmp _ _).takes.bind fun _ => ?_
        refine (hr.expr' 0 hfuel).weaken.bind fun cond => hE.hold.takes.bind fun jnxt => ?_
        exact hblock.bind fun body => (ih hfuel _ _ _).bind fun _ => .pure fun _ _ => trivial
      · refine ((takes_next hsize fun t ht => by rw [ht]; rfl).first fun _ => ?_).weaken
        refine (still_holdJout src jout).takes.bind fun jout => (hE.hackJmp _ _).takes.bind fun _ => ?_
        refine hblock.bind fun body => (hE.fillJout _).takes.bind fun _ => ?_
        exact .pure fun _ _ => trivial
      · refine (hE.fillJout _).takes.bind fun _ => Takes.ite (fun _ => ?_) fun _ => ?_
        · exact (hE.hackJmp _ _).takes.bind fun _ => .pure fun _ _ => trivial
        · exact .pure fun _ _ => trivial

theorem takes_parseIf :
    Takes m (r.fuel + 1) 1 (· = .IF) ((Hooks.checked src).parseIf src r) fun _ => whatever := by
  have hE := emitting_still src
  refine (takes_next hsize fun t ht => by rw [ht]; rfl).first fun _ => ?_
  refine (still_mark src .ifBegin).takes.bind fun _ => (hr.expr' 0 (Nat.le_refl _)).weaken.bind fun cond => ?_
  refine hE.hold.takes.bind fun jnxt => (takes_parseBlock hsize hr).bind fun body => ?_
  refine (takes_elifs hsize hr _ (Nat.le_refl _) _ _ _).bind fun rest => ?_
  exact (still_mark src .ifEnd).takes.bind fun _ => .pure fun _ _ => trivial

theorem takes_parseIn (tmp : Bytes) :
    Takes m r.fuel 0 pre ((Hooks.checked src).parseIn src r tmp) fun _ => whatever := by
  have hE := emitting_still src
  refine (takes_match hsize rfl).weaken.bind fun _ => ?_
  refine (hr.expr' 0 (Nat.le_refl _)).weaken.bind fun x => still_freshIter.takes.bind fun iter => ?_
  refine (hE.newLocvar iter).takes.bind fun i => (hE.emit _ _ _).takes.bind fun _ => ?_
  refine (still_site src .retry).takes.bind fun _ => hE.ipos.takes.bind fun retry => ?_
  refine (still_onLoop _).takes.bind fun _ => ?_
  refine (hE.emitPush _).takes.bind fun _ => (hE.emitCall _ _ _ _).takes.bind fun _ => ?_
  refine hE.hold.takes.bind fun jcond => (still_onLoop _).takes.bind fun _ => ?_
  refine (hE.emitStore tmp).takes.bind fun _ => (takes_parseBlock hsize hr).bind fun body => ?_
  exact (still_loopLeave src).takes.bind fun _ => .pure fun _ _ => trivial

theorem takes_parseFor :
    Takes m (r.fuel + 1) 1 (· = .FOR) ((Hooks.checked src).parseFor src r)
      fun _ => whatever := by
  have hE := emitting_still src
  refine (takes_next hsize fun t ht => by rw [ht]; rfl).first fun _ => ?_
  refine (still_loopEnter src).takes.bind fun _ => takes_peek fun t _ => ?_
  split
  · refine (still_site src .retry).takes.bind fun _ => hE.ipos.takes.bind fun retry => ?_
    refine (still_onLoop _).takes.bind fun _ => ?_
    refine (takes_parseBlock hsize hr).bind fun body => (still_loopLeave src).takes.bind fun _ => ?_
    exact .pure fun _ _ => trivial
  · refine (takes_skip hsize).bind fun _ => (takes_symbol hsize).weaken.bind fun tmp => ?_
    exact (hE.newLocvar tmp).takes.bind fun _ => takes_parseIn hsize hr tmp
  · exact (takes_symbol hsize).weaken.bind fun tmp => takes_parseIn hsize hr tmp
  · exact .throw Abort.noConfusion

/-- A statement reads a token, unless it is `with`. -/
theorem takes_parseStmt :
    Takes m (r.fuel + 1) 1 (· ≠ .WITH) ((Hooks.checked src).parseStmt src r)
      fun _ => whatever := by
  have hE := emitting_still src
  have hnext : ∀ {t : Token} (a : Tree .stmt), t.weight = 1 → Takes m (r.fuel + 1) 1 (· = t)
      (do ymcNext src; return a) fun _ => whatever := fun a ht =>
    (takes_next hsize fun t' ht' => by rw [ht']; exact ht).bind fun _ => .pure fun _ _ => trivial
  refine takes_peek fun t ht => ?_
  split
  · exact hnext _ rfl
  · exact takes_parseIf hsize hr
  · exact absurd rfl ht
  · exact takes_parseFor hsize hr
  · exact (takes_parseFunc hsize hr (Nat.le_refl _) false)
  · exact takes_parseLocal hsize hr
  · exact takes_parseReturn hsize hr
  · exact (still_holdBreak src).takes.before fun _ => hnext _ rfl
  · refine (still_retry src).takes.before fun target => (hE.emitJmp _).takes.before fun _ => ?_
    exact hnext _ rfl
  · exact takes_parseExprStat hsize hr

/-! ## Compilations -/

omit hsize hr in
theorem takes_checked (n : Nat) :
    Takes m n 0 whatever (Hooks.checked src).stmt fun _ t => t ≠ .WITH := by
  refine takes_peek fun t _ => Takes.ite (fun _ => .throw Abort.noConfusion) fun ht => ?_
  exact .pure fun t' ht' => by rwa [ht']

omit hsize hr in
theorem parser_fuel (h : Hooks σ) (depth : Nat) : (h.parser src depth).fuel = depth - 1 := by
  cases depth <;> rfl

omit hr in
theorem takes_parsing (depth : Nat) : ((Hooks.checked src).parser src depth).Takes src m := by
  induction depth with
  | zero => exact ⟨fun _ => .zero, .zero⟩
  | succ depth ih =>
      have hdepth : depth ≤ ((Hooks.checked src).parser src depth).fuel + 1 := by
        rw [parser_fuel]
        omega
      refine ⟨fun limit => (takes_parseExpr hsize ih limit).within hdepth, ?_⟩
      exact (takes_checked depth).before fun _ => (takes_parseStmt hsize ih).within hdepth

omit hr in
/-- With more rounds than there are tokens a compilation runs to its end. -/
theorem takes_ymcCompile (depth : Nat) (fn : Addr) :
    Takes m (depth - 1) 0 whatever ((Hooks.checked src).ymcCompile src depth fn)
      fun _ => whatever := by
  have hE := emitting_still src
  have hfuel : depth - 1 ≤ ((Hooks.checked src).parser src depth).fuel :=
    Nat.le_of_eq (parser_fuel _ depth).symm
  refine (takes_skip hsize).bind fun _ => (still_ymkEnter _).takes.bind fun _ => ?_
  rw [topStmts_eq]
  refine (takes_stmtsUntil (takes_parsing hsize depth) _ depth (Nat.sub_le depth 1) hfuel).bind
    fun body => ?_
  refine hE.emitEnd.takes.bind fun _ => (still_ymkLeave fn).takes.bind fun _ => ?_
  exact .pure fun _ _ => trivial

end

/-! ## Running out of rounds -/

/-- The same result, or no rounds are left for the first one and `ok` holds of the
second one. -/
def Outlasts (ok : ∀ {α : Type}, EStateM.Result Abort (Parser σ) α → Prop) {α : Type}
    (a b : EStateM.Result Abort (Parser σ) α) : Prop :=
  a = b ∨ (∃ q, a = .error .fuel q) ∧ ok b

section

variable {ok : ∀ {α : Type}, EStateM.Result Abort (Parser σ) α → Prop}
  (hok : ∀ {α β : Type} (y : ParseM σ α) (g : α → ParseM σ β) (p : Parser σ),
    ok (y p) → ok ((y >>= g) p))

include hok

theorem outlasts_bind {α β : Type} {x y : ParseM σ α} {f g : α → ParseM σ β} {p : Parser σ}
    (hxy : Outlasts ok (x p) (y p)) (hfg : ∀ a p, Outlasts ok (f a p) (g a p)) :
    Outlasts ok ((x >>= f) p) ((y >>= g) p) := by
  rcases hxy with heq | ⟨⟨q, hx⟩, hy⟩
  · rcases hyp : y p with ⟨a, p₁⟩ | ⟨e, p₁⟩
    · rw [bind_of_ok (heq.trans hyp), bind_of_ok hyp]
      exact hfg a p₁
    · rw [bind_of_error (heq.trans hyp), bind_of_error hyp]
      exact .inl rfl
  · exact .inr ⟨⟨q, bind_of_error hx⟩, hok y g p hy⟩

/-- Two parsers that only differ in what they do in front of a statement. -/
theorem congruence_outlasts (src : Source σ) (s s' : ParseM σ Unit) :
    Congruence src src { Hooks.plain src with stmt := s } { Hooks.plain src with stmt := s' }
      (fun {_} x y => ∀ p, Outlasts ok (x p) (y p)) where
  pure _ _ := .inl rfl
  bind hx hf := fun p => outlasts_bind hok (hx p) hf
  fail _ _ := .inl rfl
  assertion _ _ := .inl rfl
  get hf := fun p => hf p p ⟨rfl, rfl, rfl, rfl⟩ p
  onBlk _ _ _ := .inl rfl
  fuel _ := .inl rfl
  next _ := .inl rfl
  closing _ _ := .inl rfl
  name _ _ := .inl rfl
  holdBreak _ := .inl rfl
  retry _ := .inl rfl
  site _ _ := .inl rfl
  scope _ _ _ _ _ _ hb hx := fun _ => outlasts_bind hok (.inl rfl) fun _ _ =>
    outlasts_bind hok (.inl rfl) fun _ _ =>
    outlasts_bind hok (hb _) fun _ _ => outlasts_bind hok (.inl rfl) fun _ _ =>
      outlasts_bind hok (hx _) fun _ _ => .inl rfl

omit hok in
theorem pieces_outlasts (ok : ∀ {α : Type}, EStateM.Result Abort (Parser σ) α → Prop)
    (src : Source σ) (s s' : ParseM σ Unit) :
    Pieces { Hooks.plain src with stmt := s } { Hooks.plain src with stmt := s' }
      (fun {_} x y => ∀ p, Outlasts ok (x p) (y p)) where
  branch _ _ := .inl rfl
  mark _ _ := .inl rfl
  onLoop _ _ := .inl rfl
  freshIter _ := .inl rfl
  loopEnter _ := .inl rfl
  loopLeave _ := .inl rfl

end

/-- The same result, or no rounds are left for the first one. -/
abbrev Extends {α : Type} (x y : ParseM σ α) : Prop := ∀ p, Outlasts (fun _ => True) (x p) (y p)

theorem congruence_extends (src : Source σ) :
    Congruence src src (Hooks.checked src) (Hooks.checked src) (fun {_} x y => Extends x y) :=
  congruence_outlasts (fun _ _ _ h => h) src (Hooks.checked src).stmt (Hooks.checked src).stmt

section

variable (src : Source σ) {depth depth' : Nat} (hle : depth ≤ depth')

include hle

/-- More rounds change nothing but that there are more of them. -/
theorem fuels_extends : Fuels (fun {_} (x y : ParseM σ _) => Extends x y) depth depth' :=
  .inr ⟨hle, fun _ p => .inr ⟨⟨p, rfl⟩, trivial⟩⟩

theorem stmt_more : Extends ((Hooks.checked src).parser src depth).stmt
    ((Hooks.checked src).parser src depth').stmt := by
  have hR := congruence_extends src
  have hp := pieces_outlasts (fun _ => True) src (Hooks.checked src).stmt
    (Hooks.checked src).stmt
  exact (hR.parser (fun _ => .inl rfl) (fun hr => hR.parseIf hr hp) (fun hr => hR.parseFor hr hp)
    (fuels_extends hle)).2

theorem ymcCompile_more (fn : Addr) : Extends ((Hooks.checked src).ymcCompile src depth fn)
    ((Hooks.checked src).ymcCompile src depth' fn) := by
  have hR := congruence_extends src
  refine hR.bind hR.next fun _ => hR.bind (fun _ => .inl rfl) fun _ => ?_
  refine hR.bind (hR.topStmts (stmt_more src hle) (fuels_extends hle)) fun body => ?_
  exact hR.bind hR.emitEnd fun _ _ => .inl rfl

end
/-! ## The statement that reads nothing -/

/-- The checked parser has stopped. -/
def Stopped {α : Type} (b : EStateM.Result Abort (Parser σ) α) : Prop :=
  ∃ q, b = .error .with q

theorem stopped_bind {α β : Type} (y : ParseM σ α) (g : α → ParseM σ β) (p : Parser σ)
    (h : Stopped (y p)) : Stopped ((y >>= g) p) := by
  obtain ⟨q, hq⟩ := h
  exact ⟨q, bind_of_error hq⟩

section

variable (src : Source σ) {p : Parser σ}

theorem checked_stmt_apply (p : Parser σ) : (Hooks.checked src).stmt p =
    if p.lah.token = .WITH then .error .with p else .ok () p := by
  change (if p.lah.token = .WITH then throw .with else return () : ParseM σ Unit) p = _
  split <;> rfl

variable {src}

theorem peek_with (hp : p.lah.token = .WITH) : ymcPeek p = .ok .WITH p := by
  rw [← hp]
  rfl

theorem parseStmt_with (r : Rec σ) (hp : p.lah.token = .WITH) :
    (Hooks.plain src).parseStmt src r p = .ok .empty p := by
  rw [Hooks.parseStmt, bind_of_ok (peek_with hp)]
  rfl

/-- `with` as a statement: nothing happens, or there is no round for it. -/
theorem parser_stmt_with (depth : Nat) (hp : p.lah.token = .WITH) :
    ((Hooks.plain src).parser src depth).stmt p = .ok .empty p ∨
      ((Hooks.plain src).parser src depth).stmt p = .error .fuel p := by
  cases depth with
  | zero => exact .inr rfl
  | succ depth => exact .inl (parseStmt_with _ hp)

/-- The two parsers agree on a computation, or the checked one stops and the other one
runs for ever. -/
abbrev Detects {α : Type} (x y : ParseM σ α) : Prop := ∀ p, Outlasts Stopped (x p) (y p)

variable {stop : Token} (hstop : stop ≠ .WITH)

include hstop

/-- A loop over statements comes back to `with` as often as it can. -/
theorem stmtsUntil_with (depth fuel : Nat) (hp : p.lah.token = .WITH) :
    stmtsUntil stop ((Hooks.plain src).parser src depth) fuel p = .error .fuel p := by
  induction fuel with
  | zero => rfl
  | succ fuel ih =>
      rw [stmtsUntil, bind_of_ok (peek_with hp), if_neg hstop.symm]
      rcases parser_stmt_with depth hp with hstmt | hstmt
      · rw [bind_of_ok hstmt, bind_of_error ih]
      · exact bind_of_error hstmt

/-- A loop over statements, where the statements are related that do not begin with
`with`. -/
theorem detects_stmtsUntil (depth : Nat)
    (hstmt : ∀ p : Parser σ, p.lah.token ≠ .WITH →
      Outlasts Stopped (((Hooks.plain src).parser src (depth + 1)).stmt p)
        (((Hooks.checked src).parser src (depth + 1)).stmt p)) (fuel : Nat) :
    Detects (stmtsUntil stop ((Hooks.plain src).parser src (depth + 1)) fuel)
      (stmtsUntil stop ((Hooks.checked src).parser src (depth + 1)) fuel) := by
  induction fuel with
  | zero =>
      intro p
      rw [stmtsUntil, stmtsUntil]
      exact .inl rfl
  | succ fuel ih =>
      intro p
      by_cases hp : p.lah.token = .WITH
      · refine .inr ⟨⟨p, stmtsUntil_with hstop _ _ hp⟩, p, ?_⟩
        have hthrow : ((Hooks.checked src).parser src (depth + 1)).stmt p = .error .with p := by
          refine bind_of_error ?_
          rw [checked_stmt_apply, if_pos hp]
        rw [stmtsUntil, bind_of_ok (peek_with hp), if_neg hstop.symm]
        exact bind_of_error hthrow
      · have hpeek : ymcPeek p = .ok p.lah.token p := rfl
        rw [stmtsUntil, stmtsUntil, bind_of_ok hpeek, bind_of_ok hpeek]
        by_cases ht : p.lah.token = stop
        · rw [if_pos ht, if_pos ht]
          exact .inl rfl
        · rw [if_neg ht, if_neg ht]
          refine outlasts_bind stopped_bind (hstmt p hp) fun s p => ?_
          exact outlasts_bind stopped_bind (ih p) fun _ _ => .inl rfl

end

theorem detects_parsing (src : Source σ) (depth : Nat) :
    Related Detects ((Hooks.plain src).parser src depth) ((Hooks.checked src).parser src depth) ∧
      (∀ p : Parser σ, p.lah.token ≠ .WITH →
        Outlasts Stopped (((Hooks.plain src).parser src depth).stmt p)
          (((Hooks.checked src).parser src depth).stmt p)) ∧
      ∀ {stop : Token}, stop ≠ .WITH → ∀ fuel,
        Detects (stmtsUntil stop ((Hooks.plain src).parser src depth) fuel)
          (stmtsUntil stop ((Hooks.checked src).parser src depth) fuel) := by
  have hR := congruence_outlasts stopped_bind src (Hooks.plain src).stmt (Hooks.checked src).stmt
  have hp := pieces_outlasts Stopped src (Hooks.plain src).stmt (Hooks.checked src).stmt
  induction depth with
  | zero =>
      refine ⟨⟨fun _ => hR.fuel, hR.blockStmts hR.fuel, .inl rfl⟩, fun _ _ => .inl rfl, ?_⟩
      intro stop _ fuel
      have hloop : stmtsUntil stop ((Hooks.plain src).parser src 0) fuel =
          stmtsUntil stop ((Hooks.checked src).parser src 0) fuel := by
        induction fuel with
        | zero => rfl
        | succ fuel ih => rw [stmtsUntil, stmtsUntil, ih]; rfl
      exact fun p => .inl (congrFun hloop p)
  | succ depth ih =>
      have hparse := hR.parseStmt ih.1 (hR.parseIf ih.1 hp) (hR.parseFor ih.1 hp)
      have hstmt : ∀ p : Parser σ, p.lah.token ≠ .WITH →
          Outlasts Stopped (((Hooks.plain src).parser src (depth + 1)).stmt p)
            (((Hooks.checked src).parser src (depth + 1)).stmt p) := fun p hp => by
        have hchecked : (Hooks.checked src).stmt p = .ok () p := by
          rw [checked_stmt_apply, if_neg hp]
        have hy : ((Hooks.checked src).parser src (depth + 1)).stmt p =
          (Hooks.checked src).parseStmt src ((Hooks.checked src).parser src depth) p :=
            bind_of_ok hchecked
        rw [hy]
        exact hparse p
      have hloop : ∀ {stop : Token}, stop ≠ .WITH → ∀ fuel,
          Detects (stmtsUntil stop ((Hooks.plain src).parser src (depth + 1)) fuel)
            (stmtsUntil stop ((Hooks.checked src).parser src (depth + 1)) fuel) :=
        fun hstop => detects_stmtsUntil hstop depth hstmt
      refine ⟨⟨hR.parseExpr ih.1, fun {n n'} hn => ?_, .inl rfl⟩, hstmt, hloop⟩
      rw [blockStmts_eq, blockStmts_eq]
      rcases hn with rfl | ⟨-, hout⟩
      · exact hloop (by decide) n
      · intro p
        rcases hout (pure () : ParseM σ Unit) p with h | ⟨-, q, h⟩
        · cases h
        · cases h

theorem detects_ymcCompile (src : Source σ) (depth : Nat) (fn : Addr) :
    Detects ((Hooks.plain src).ymcCompile src depth fn)
      ((Hooks.checked src).ymcCompile src depth fn) := by
  have hR := congruence_outlasts stopped_bind src (Hooks.plain src).stmt (Hooks.checked src).stmt
  refine hR.bind hR.next fun _ => hR.bind (fun _ => .inl rfl) fun _ => ?_
  rw [topStmts_eq, topStmts_eq]
  refine hR.bind ((detects_parsing src depth).2.2 (by decide) depth) fun body => ?_
  exact hR.bind hR.emitEnd fun _ _ => .inl rfl

end Ymd
