import Ymd.Meaning.Draft

/-! # The compiler emits code for what it reads

Every function that parses an expression leaves code for the tree that it returns, if
there is no call and no closure in it.
-/

namespace Ymd

open Foundation

/-- Code for a tree. -/
def CodeShape.code {c : Category} (t : Tree c) : CodeShape := fun core look i j => Codes core look t i j

namespace Draft

/-- There is code of this shape more. -/
structure Compiled (d d' : Draft) (s : CodeShape) : Prop where
  more : d.Extends d'
  level : d.Level d'
  code : d.Fits d' → ∀ core : Chunk, core.Holds d'.blk d.kinst d'.kinst →
    s core d.blk.findLz d.kinst d'.kinst

section

variable {d d₁ d₂ d' d'' : Draft} {core : Chunk} {s s' : CodeShape} {i j m k : Nat} {op : Opcode} {flag : BitVec 8}
  {v : Variable}

theorem Compiled.empty (hs : ∀ core look i, s core look i i) (d : Draft) : d.Compiled d s :=
  ⟨.refl d, .refl d, fun _ core _ => hs core _ _⟩

theorem Compiled.mono (h : d.Compiled d' s) (himp : ∀ core look i j, s core look i j → s' core look i j) :
    d.Compiled d' s' :=
  ⟨h.more, h.level, fun hfits core hcore => himp _ _ _ _ (h.code hfits core hcore)⟩

theorem Compiled.followed (h : d.Compiled d' s) (h' : d'.Compiled d'' s') :
    d.Compiled d'' (s.then' s') where
  more := h.more.trans h'.more
  level := h.level.trans h'.level
  code := by
    intro hfits core hcore
    have hleft := hfits.left h'.more
    have hright := hfits.right h.more h'.more
    refine ⟨d'.kinst, h.code hleft core (h'.more.holds hright hcore le_rfl h'.more.le), ?_⟩
    rw [← h.level.findLz]
    exact h'.code hright core (hcore.mono h.more.le le_rfl)

/-! ## Single instructions -/

theorem Adds.compiled (h : d.Adds d' op flag k) (hk : d.Fits d' → k < 2 ^ 16) :
    d.Compiled d' (.inst op flag k) := by
  refine ⟨h.more, h.level, fun hfits core hcore => ?_⟩
  rw [h.kinst] at hcore ⊢
  exact ⟨h.has (hk hfits) hcore le_rfl (Nat.lt_succ_self _), rfl⟩

theorem AddsConst.compiled (h : d.AddsConst d' op flag v) : d.Compiled d' (.const op flag v) := by
  obtain ⟨k, hadds, hconst⟩ := h
  refine ⟨hadds.more, hadds.level, fun hfits core hcore => ?_⟩
  obtain ⟨hk, hentry⟩ := hconst hfits
  rw [hadds.kinst] at hcore ⊢
  refine ⟨k, hadds.has hk hcore le_rfl (Nat.lt_succ_self _), ?_, rfl⟩
  obtain ⟨rest, hrest⟩ := hcore.kval
  rw [← hrest, List.getElem?_append_left (List.getElem?_eq_some_iff.1 hentry).1]
  exact hentry

theorem AddsVariable.compiled {name : Bytes} (h : d.AddsVariable d' op name) :
    d.Compiled d' (.variable' op name) := by
  rcases h with ⟨k, hfind, hadds⟩ | ⟨hfind, hconst⟩
  · have hinst := hadds.compiled fun hfits => (Chunk.findLz_lt hfind).trans hfits.1.2
    refine ⟨hinst.more, hinst.level, fun hfits core hcore => .inl ⟨k, hfind, ?_⟩⟩
    exact hinst.code hfits core hcore
  · have hinst := hconst.compiled
    exact ⟨hinst.more, hinst.level, fun hfits core hcore => .inr ⟨hfind, hinst.code hfits core hcore⟩⟩

/-- An instruction whose operand the code in front of it bounds. -/
theorem Compiled.inst (h : d.Compiled d' s) (hadds : d'.Adds d'' op flag k)
    (hk : ∀ core look i j, s core look i j → j < 2 ^ 16 → k < 2 ^ 16) :
    d.Compiled d'' (s.then' (.inst op flag k)) := by
  refine ⟨h.more.trans hadds.more, h.level.trans hadds.level, fun hfits core hcore => ?_⟩
  have hleft := hfits.left hadds.more
  have hright := hfits.right h.more hadds.more
  have hfirst := h.code hleft core (hadds.more.holds hright hcore le_rfl hadds.more.le)
  have hinst := hadds.compiled fun _ => hk _ _ _ _ hfirst hleft.2
  exact ⟨d'.kinst, hfirst, hinst.code hright core (hcore.mono h.more.le le_rfl)⟩

/-! ## A reserved instruction -/

/-- `core->inst[n] = inst` in the top chunk. -/
def patch (d : Draft) (n : Nat) (inst : Inst) : Draft := { d with blk := d.blk.setInst n inst }

@[simp] theorem kinst_patch (d : Draft) (n : Nat) (inst : Inst) : (d.patch n inst).kinst = d.kinst :=
  List.length_set

theorem patch_holds {n : Nat} {inst : Inst} (hcore : core.Holds (d.patch n inst).blk i j)
    (hn : n < i ∨ j ≤ n) : core.Holds d.blk i j where
  inst := by
    intro n' hi hj
    rw [hcore.inst n' hi hj]
    exact List.getElem?_set_ne (by omega)
  kval := hcore.kval

theorem patch_inst {n : Nat} {inst : Inst} (hcore : core.Holds (d.patch n inst).blk i j) (hi : i ≤ n)
    (hj : n < j) (hn : n < d.kinst) : core.inst[n]? = some inst := by
  rw [hcore.inst n hi hj]
  exact List.getElem?_set_self hn

theorem fills_patch (d : Draft) (n : Nat) (inst : Inst) : d.Fills [n] (d.patch n inst) where
  le := (kinst_patch d n inst).ge
  inst := fun _ n' _ hno => List.getElem?_set_ne fun heq => hno (List.mem_singleton.2 heq.symm)
  kval := fun _ => List.prefix_rfl
  small := by
    intro hfits
    refine ⟨?_, hfits.1.2⟩
    rw [kinst_patch]
    exact hfits.1.1

theorem level_patch (d : Draft) (n : Nat) (inst : Inst) : d.Level (d.patch n inst) := ⟨rfl, rfl⟩

/-- The position of an instruction in 16 bits. -/
theorem kinst_mod (h : d.Extends d') (hfits : d.Fits d') : d.kinst % 2 ^ 16 = d.kinst :=
  Nat.mod_eq_of_lt (h.le.trans_lt hfits.2)

/-- An instruction that is reserved, and filled in with a jump over the code behind it. -/
theorem Compiled.jumpOver {n : Nat} (hold : d.Adds d₁ .panic 0 0) (h : d₁.Compiled d₂ s)
    (hn : n = d.kinst % 2 ^ 16) :
    d.Compiled (d₂.patch n (asmBuild op.code flag (BitVec.ofNat 16 (d₂.kinst - n)))) (.jumpOver op flag s) := by
  have hmore := hold.more.trans h.more
  have hpos : d.Fits d₂ → n = d.kinst := fun hfits => hn.trans (kinst_mod hmore hfits)
  have hlevel := hold.level.trans h.level
  refine ⟨?_, hlevel.trans (level_patch d₂ n _), fun hfits core hcore => ?_⟩
  · refine (Fills.trans hmore (fills_patch d₂ n _)).mono fun hfits n' hn' hlt => ?_
    rw [List.mem_singleton.1 hn', hpos (hfits.left (fills_patch d₂ n _))] at hlt
    exact absurd hlt (Nat.lt_irrefl _)
  replace hfits : d.Fits d₂ := hfits.left (fills_patch d₂ n _)
  rw [kinst_patch] at hcore ⊢
  have hlt : d.kinst < d₂.kinst := hold.kinst.ge.trans h.more.le
  have hinst := patch_inst hcore (hpos hfits).ge ((hpos hfits).trans_lt hlt) ((hpos hfits).trans_lt hlt)
  rw [hpos hfits] at hinst
  refine ⟨⟨hinst, (Nat.sub_le _ _).trans_lt hfits.2⟩, ?_⟩
  have hinner : core.Holds d₂.blk (d.kinst + 1) d₂.kinst :=
    patch_holds (hcore.mono (Nat.le_succ _) le_rfl) (.inl (by rw [hpos hfits]; exact Nat.lt_succ_self _))
  rw [← hold.kinst] at hinner ⊢
  rw [← hold.level.findLz]
  exact h.code (hfits.right hold.more h.more) core hinner

end

end Draft

/-! ## Expressions -/

/-- The recursive calls leave code for their trees. -/
def Rec.Emits {σ : Type} (r : Rec σ) : Prop :=
  ∀ limit d, After (r.expr limit) d fun x d' => x.1.plain = true → d.Compiled d' (.code x.1)

/-- The elements that there is code for can be counted. -/
theorem CodeShape.least_lt {c : Category} {t : Tree c} {core : Chunk} {look : Bytes → Option Nat} {i j : Nat}
    (h : CodeShape.code t core look i j) (hj : j < 2 ^ 16) : t.least < 2 ^ 16 :=
  ((Nat.le_add_left _ _).trans (Codes.least_le h)).trans_lt hj

section

variable {σ : Type} {src : Source σ} {r : Rec σ}

theorem compiled_noArgs (d : Draft) : d.Compiled d (.code Tree.noArgs) :=
  .empty (fun _ _ _ => .noArgs) d

theorem compiled_noEntries (d : Draft) : d.Compiled d (.code Tree.noEntries) :=
  .empty (fun _ _ _ => .noEntries) d

theorem Draft.Compiled.arg {d d₁ d₂ : Draft} {e : Tree .expr} {rest : Tree .args}
    (he : d.Compiled d₁ (.code e)) (hrest : d₁.Compiled d₂ (.code rest)) :
    d.Compiled d₂ (.code (Tree.arg e rest)) :=
  (he.followed hrest).mono fun _ _ _ _ ⟨_, hfirst, hsecond⟩ => .arg hfirst hsecond

theorem Draft.Compiled.entry {d d₁ d₂ d₃ : Draft} {k v : Tree .expr} {rest : Tree .entries}
    (hk : d.Compiled d₁ (.code k)) (hv : d₁.Compiled d₂ (.code v)) (hrest : d₂.Compiled d₃ (.code rest)) :
    d.Compiled d₃ (.code (Tree.entry k v rest)) :=
  (hk.followed (hv.followed hrest)).mono fun _ _ _ _ ⟨_, hkey, _, hvalue, hothers⟩ =>
    .entry hkey hvalue hothers

theorem after_arrayElems (hr : r.Emits) (fuel : Nat) (d : Draft) :
    After (arrayElems src r fuel) d fun t d' => t.plain = true → d.Compiled d' (.code t) := by
  induction fuel generalizing d with
  | zero => exact .throw _
  | succ fuel ih =>
      refine .idle idle_ymcPeek fun _ => .ite (fun _ => .pure fun _ => compiled_noArgs d) fun _ => ?_
      refine .bind (hr 0 d) fun x d₁ he => .idle (idle_ymcTest src _) fun _ => .ite (fun _ => ?_) fun _ => ?_
      · refine .bind (ih d₁) fun rest d₂ hrest => .pure fun hplain => ?_
        obtain ⟨hx, hr⟩ := (Bool.and_eq_true _ _).mp hplain
        exact (he hx).arg (hrest hr)
      · refine .pure fun hplain => ?_
        obtain ⟨hx, -⟩ := (Bool.and_eq_true _ _).mp hplain
        exact (he hx).arg (compiled_noArgs d₁)

theorem after_parseArray (hr : r.Emits) (d : Draft) :
    After (parseArray src r) d fun t d' => t.plain = true → d.Compiled d' (.code t) := by
  refine .idle (idle_ymcMatch src _) fun _ => .bind (after_arrayElems hr _ d) fun elems d₁ helems => ?_
  refine .bind (after_ymkEmitOfP _) fun _ d₂ hadds => .pure fun hplain => ?_
  refine ((helems hplain).inst hadds fun core look i j hcode hj => ?_).mono ?_
  · rw [← Tree.least_args]
    exact CodeShape.least_lt hcode hj
  · rintro core look i _ ⟨j, hcode, hinst, rfl⟩
    exact .array hcode hinst

theorem after_mapKey (hr : r.Emits) (d : Draft) :
    After (mapKey src r) d fun t d' => t.plain = true → d.Compiled d' (.code t) := by
  refine .idle idle_ymcPeek fun token => ?_
  split
  · refine .idle (idle_ymkSymbol src) fun name => .bind (after_kz name) fun _ d₁ hadds => ?_
    refine .idle (idle_ymcMatch src _) fun _ => .pure fun _ => hadds.compiled.mono ?_
    rintro core look i _ ⟨k, hinst, hk, rfl⟩
    exact .constant rfl hinst hk
  · refine .get fun p _ => .bind (after_ymkEmitKz _) fun _ d₁ ⟨z, hz, hadds⟩ => ?_
    refine .idle (idle_ymcNext src) fun _ => .idle (idle_ymcMatch src _) fun _ => .pure fun _ => ?_
    refine hadds.compiled.mono ?_
    rintro core look i _ ⟨k, hinst, hk, rfl⟩
    exact .constant (congrArg (Option.map Variable.kstr) hz) hinst hk
  · refine .idle (idle_ymcMatch src _) fun _ => .bind (hr 0 d) fun x d₁ he => ?_
    exact .idle (idle_ymcMatch src _) fun _ => .idle (idle_ymcMatch src _) fun _ => .pure he

theorem after_mapEntries (hr : r.Emits) (fuel : Nat) (d : Draft) :
    After (mapEntries src r fuel) d fun t d' => t.plain = true → d.Compiled d' (.code t) := by
  induction fuel generalizing d with
  | zero => exact .throw _
  | succ fuel ih =>
      refine .idle idle_ymcPeek fun _ => .ite (fun _ => .pure fun _ => compiled_noEntries d) fun _ => ?_
      refine .bind (after_mapKey hr d) fun k d₁ hk => .bind (hr 0 d₁) fun x d₂ hv => ?_
      refine .idle (idle_ymcTest src _) fun _ => .ite (fun _ => ?_) fun _ => ?_
      · refine .bind (ih d₂) fun rest d₃ hrest => .pure fun hplain => ?_
        obtain ⟨hkv, hrest'⟩ := (Bool.and_eq_true _ _).mp hplain
        obtain ⟨hk', hv'⟩ := (Bool.and_eq_true _ _).mp hkv
        exact (hk hk').entry (hv hv') (hrest hrest')
      · refine .pure fun hplain => ?_
        obtain ⟨hkv, -⟩ := (Bool.and_eq_true _ _).mp hplain
        obtain ⟨hk', hv'⟩ := (Bool.and_eq_true _ _).mp hkv
        exact (hk hk').entry (hv hv') (compiled_noEntries d₂)

theorem after_parseMap (hr : r.Emits) (ord : Bool) (d : Draft) :
    After (parseMap src r ord) d fun t d' => t.plain = true → d.Compiled d' (.code t) := by
  refine .idle (idle_ymcMatch src _) fun _ => .bind (after_mapEntries hr _ d) fun elems d₁ helems => ?_
  refine .bind (after_ymkEmitOfP _) fun _ d₂ hadds => .pure fun hplain => ?_
  refine ((helems hplain).inst hadds fun core look i j hcode hj => ?_).mono ?_
  · have hlt := CodeShape.least_lt hcode hj
    rw [Tree.least_entries] at hlt
    omega
  · rintro core look i _ ⟨j, hcode, hinst, rfl⟩
    exact .map hcode hinst

theorem after_parsePrimary (hr : r.Emits) (d : Draft) :
    After (parsePrimary src r) d fun t d' => t.plain = true → d.Compiled d' (.code t) := by
  refine .idle idle_ymcPeek fun token => ?_
  split
  · refine .idle (idle_ymcNext src) fun _ => .bind (hr 0 d) fun x d₁ he => ?_
    exact .idle (idle_ymcMatch src _) fun _ => .pure he
  · refine .idle (idle_ymkSymbol src) fun name => .bind (after_ymkEmitPush name) fun _ d₁ hadds => ?_
    exact .pure fun _ => hadds.compiled.mono fun core look i j => .sym
  · exact .throw _

/-- What a loop adds to code for the tree in front of it. -/
def Draft.Grown (d d' : Draft) {c : Category} (e t : Tree c) : Prop :=
  t.plain = true → e.plain = true ∧ ∀ d₀ : Draft, d₀.Compiled d (.code e) → d₀.Compiled d' (.code t)

theorem Draft.Grown.refl (d : Draft) {c : Category} (e : Tree c) : d.Grown d e e := fun he => ⟨he, fun _ h => h⟩

theorem after_suffixes (hr : r.Emits) (fuel : Nat) (e : Tree .expr) (d : Draft) :
    After (suffixes src r fuel e) d fun t d' => d.Grown d' e t := by
  induction fuel generalizing e d with
  | zero => exact .throw _
  | succ fuel ih =>
      refine .idle idle_ymcPeek fun token => ?_
      split
      · refine .idle (idle_ymcNext src) fun _ => .idle (idle_ymkSymbol src) fun name => ?_
        refine .bind (after_kz name) fun _ d₁ hadds => (ih _ d₁).mono fun t d' hgrown hplain => ?_
        obtain ⟨he, hcompiled⟩ := hgrown hplain
        refine ⟨he, fun d₀ h => hcompiled d₀ ((h.followed hadds.compiled).mono ?_)⟩
        rintro core look i _ ⟨j, hcode, k, hinst, hk, rfl⟩
        exact .field hcode hinst hk
      · refine .idle (idle_ymcNext src) fun _ => .bind (hr 0 d) fun x d₁ hx => ?_
        refine .idle (idle_ymcMatch src _) fun _ => .bind (after_ymkEmitOfP _) fun _ d₂ hadds => ?_
        refine (ih _ d₂).mono fun t d' hgrown hplain => ?_
        obtain ⟨hindex, hcompiled⟩ := hgrown hplain
        obtain ⟨he, hkey⟩ := (Bool.and_eq_true _ _).mp hindex
        have hinst := hadds.compiled fun _ => (by decide : 1 < 2 ^ 16)
        refine ⟨he, fun d₀ h => hcompiled d₀ ((h.followed ((hx hkey).followed hinst)).mono ?_)⟩
        rintro core look i _ ⟨j, hcode, k, hkeycode, hget, rfl⟩
        exact .index hcode hkeycode hget
      · refine .idle (idle_ymcNext src) fun _ => .idle (idle_ymkSymbol src) fun name => ?_
        refine .bind .any fun args d₁ _ => (ih _ d₁).mono fun t d' hgrown hplain => ?_
        cases (hgrown hplain).1
      · refine .bind .any fun args d₁ _ => (ih _ d₁).mono fun t d' hgrown hplain => ?_
        cases (hgrown hplain).1
      · refine .bind .any fun args d₁ _ => (ih _ d₁).mono fun t d' hgrown hplain => ?_
        cases (hgrown hplain).1
      · exact .pure (.refl d e)

theorem after_parseSuffixed (hr : r.Emits) (d : Draft) :
    After (parseSuffixed src r) d fun t d' => t.plain = true → d.Compiled d' (.code t) := by
  refine .bind (after_parsePrimary hr d) fun e d₁ he => (after_suffixes hr _ e d₁).mono ?_
  intro t d' hgrown hplain
  obtain ⟨heplain, hcompiled⟩ := hgrown hplain
  exact hcompiled d (he heplain)

theorem after_parseClosure (d : Draft) :
    After (parseClosure src r) d fun t d' => t.plain = true → d.Compiled d' (.code t) := by
  refine .idle (idle_ymcNext src) fun _ => .bind .any fun _ _ _ => .get fun _ _ => ?_
  refine .bind .any fun _ _ _ => .bind .any fun _ _ _ => .ite (fun _ => ?_) fun _ => ?_
  · exact .bind .any fun _ _ _ => .bind .any fun _ _ _ => .pure nofun
  · exact .bind .any fun _ _ _ => .bind .any fun _ _ _ => .pure nofun

theorem after_parseSimple (hr : r.Emits) (d : Draft) :
    After (parseSimple src r) d fun t d' => t.plain = true → d.Compiled d' (.code t) := by
  have hconst : ∀ {e : Tree .expr} {v : Variable} {d' : Draft}, e.constant = some v →
      d.AddsConst d' .push Flag.kval v → d.Compiled d' (.code e) := by
    intro e v d' hv hadds
    refine hadds.compiled.mono ?_
    rintro core look i _ ⟨k, hinst, hk, rfl⟩
    exact .constant hv hinst hk
  refine .idle idle_ymcPeek fun token => ?_
  split
  -- `nil`, `true` and `false` are operands of the instruction
  · refine .bind (after_ymkEmitOfP _) fun _ d₁ hadds => .idle (idle_ymcNext src) fun _ => .pure fun _ => ?_
    refine (hadds.compiled fun _ => (by decide : 0 < 2 ^ 16)).mono ?_
    rintro core look i _ ⟨hinst, rfl⟩
    exact .nil hinst
  · refine .bind (after_ymkEmitOfP _) fun _ d₁ hadds => .idle (idle_ymcNext src) fun _ => .pure fun _ => ?_
    refine (hadds.compiled fun _ => (by decide : 1 < 2 ^ 16)).mono ?_
    rintro core look i _ ⟨hinst, rfl⟩
    exact .bool hinst
  · refine .bind (after_ymkEmitOfP _) fun _ d₁ hadds => .idle (idle_ymcNext src) fun _ => .pure fun _ => ?_
    refine (hadds.compiled fun _ => (by decide : 0 < 2 ^ 16)).mono ?_
    rintro core look i _ ⟨hinst, rfl⟩
    exact .bool hinst
  -- numbers and texts are constants
  · refine .get fun p _ => ?_
    dsimp only
    split
    next => exact .throw_bind _
    next imm himm =>
      refine .bind (after_ymkEmitInt _) fun _ d₁ hadds => .idle (idle_ymcNext src) fun _ => .pure fun _ => ?_
      exact hconst (congrArg (Option.map Variable.int) himm) hadds
  · refine .get fun p _ => ?_
    dsimp only
    split
    next imm himm =>
      refine .bind (after_ymkEmitInt _) fun _ d₁ hadds => .idle (idle_ymcNext src) fun _ => .pure fun _ => ?_
      refine hconst ?_ hadds
      rw [Tree.constant, himm]
      rfl
    next => exact .throw_bind _
    next => exact .throw_bind _
  · refine .get fun p _ => .bind (after_ymkEmitKz _) fun _ d₁ ⟨z, hz, hadds⟩ => ?_
    refine .idle (idle_ymcNext src) fun _ => .pure fun _ => ?_
    exact hconst (congrArg (Option.map Variable.kstr) hz) hadds
  -- literals of containers, with the bracket behind them
  · refine .bind (after_parseMap hr _ d) fun e d₁ he => ?_
    exact .idle (idle_ymcNext src) fun _ => .pure he
  · refine .bind (after_parseMap hr _ d) fun e d₁ he => ?_
    exact .idle (idle_ymcNext src) fun _ => .pure he
  · refine .bind (after_parseArray hr d) fun e d₁ he => ?_
    exact .idle (idle_ymcNext src) fun _ => .pure he
  · exact after_parseClosure d
  · exact after_parseSuffixed hr d

/-! ## Operators -/

theorem after_ymkUnary (op : UnaryOp) (d : Draft) :
    After (ymkUnary op : ParseM σ Unit) d fun _ d' => d.Adds d' op.opcode 0 0 := by
  cases op with
  | mins => exact after_ymkEmitOfP 0
  | not => exact after_ymkEmitOfP 0
  | notNil => exact after_ymkEmitOfP 0
  | typeof => exact after_ymkEmitOfP 0

theorem after_ymkBinary {op : BinaryOp} (hop : op.isLogic = false) (i : Nat) (d : Draft) :
    After (ymkBinary op i : ParseM σ Unit) d fun _ d' => d.Adds d' op.opcode.1 op.opcode.2 0 := by
  cases op with
  | and => cases hop
  | or => cases hop
  | _ => exact after_ymkEmitOfP 0

theorem ymkHoldLogc_of_not {op : BinaryOp} (hop : op.isLogic = false) :
    (ymkHoldLogc op : ParseM σ Nat) = pure 0 := by
  cases op with
  | and => cases hop
  | or => cases hop
  | _ => rfl

theorem ymkHoldLogc_of_logic {op : BinaryOp} (hop : op.isLogic = true) :
    (ymkHoldLogc op : ParseM σ Nat) = ymkHold := by
  cases op with
  | and => rfl
  | or => rfl
  | _ => cases hop

theorem ymkBinary_of_logic {op : BinaryOp} (hop : op.isLogic = true) (i : Nat) :
    (ymkBinary op i : ParseM σ Unit) = ymkHackJmp i op.opcode.1 := by
  cases op with
  | and => rfl
  | or => rfl
  | _ => cases hop

theorem flag_of_logic {op : BinaryOp} (hop : op.isLogic = true) : op.opcode.2 = Flag.forward := by
  cases op with
  | and => rfl
  | or => rfl
  | _ => cases hop

theorem after_ymkHold (d : Draft) :
    After (ymkHold : ParseM σ Nat) d fun i d' => i = d.kinst % 2 ^ 16 ∧ d.Adds d' .panic 0 0 := by
  refine .get fun p hp => ?_
  subst hp
  exact .bind (after_ymkEmitOfP 0) fun _ d' hadds => .pure ⟨rfl, hadds⟩

theorem after_ymkHackJmp (i : Nat) (op : Opcode) (d : Draft) :
    After (ymkHackJmp i op : ParseM σ Unit) d fun _ d' =>
      d' = d.patch i (asmBuild op.code Flag.forward (BitVec.ofNat 16 (d.kinst - i))) := by
  refine .get fun p hp => ?_
  subst hp
  exact .assert fun _ => .get fun p' _ => .assert fun _ => after_onBlk rfl

theorem after_binaries (hr : r.Emits) (limit fuel : Nat) (e : Tree .expr) (op : Option BinaryOp)
    (d : Draft) : After (binaries src r limit fuel e op) d fun x d' => d.Grown d' e x.1 := by
  induction fuel generalizing e op d with
  | zero => exact .throw _
  | succ fuel ih =>
      cases op with
      | none => exact .pure (.refl d e)
      | some op =>
          refine .ite (fun _ => .idle (idle_ymcNext src) fun _ => ?_) fun _ => .pure (.refl d e)
          cases hop : op.isLogic with
          | false =>
              rw [ymkHoldLogc_of_not hop, pure_bind]
              refine .bind (hr _ d) fun x d₁ hx => .bind (after_ymkBinary hop 0 d₁) fun _ d₂ hadds => ?_
              refine (ih _ _ d₂).mono fun y d' hgrown hplain => ?_
              obtain ⟨hbinary, hcompiled⟩ := hgrown hplain
              obtain ⟨he, hrhs⟩ := (Bool.and_eq_true _ _).mp hbinary
              have hinst := hadds.compiled fun _ => (by decide : 0 < 2 ^ 16)
              refine ⟨he, fun d₀ h => hcompiled d₀ ((h.followed ((hx hrhs).followed hinst)).mono ?_)⟩
              rintro core look i _ ⟨j, hleft, k, hright, hget, rfl⟩
              exact .binary hop hleft hright hget
          | true =>
              rw [ymkHoldLogc_of_logic hop]
              refine .bind (after_ymkHold d) fun n d₁ hhold => .bind (hr _ d₁) fun x d₂ hx => ?_
              dsimp only
              rw [ymkBinary_of_logic hop]
              refine .bind (after_ymkHackJmp n _ d₂) fun _ d₃ hd₃ => ?_
              refine (ih _ _ d₃).mono fun y d' hgrown hplain => ?_
              obtain ⟨hbinary, hcompiled⟩ := hgrown hplain
              obtain ⟨he, hrhs⟩ := (Bool.and_eq_true _ _).mp hbinary
              have hjump : d.Compiled d₃ (.jumpOver op.opcode.1 op.opcode.2 (.code x.1)) := by
                rw [hd₃, ← flag_of_logic hop]
                exact .jumpOver hhold.2 (hx hrhs) hhold.1
              refine ⟨he, fun d₀ h => hcompiled d₀ ((h.followed hjump).mono ?_)⟩
              rintro core look i k ⟨j, hleft, hinst, hright⟩
              exact .logic hop hleft hinst hright

theorem after_parseOperand (hr : r.Emits) (d : Draft) :
    After (parseOperand src r) d fun t d' => t.plain = true → d.Compiled d' (.code t) := by
  refine .idle idle_ymcPeek fun token => ?_
  cases ymcUnaryOp token with
  | none => exact after_parseSimple hr d
  | some op =>
      refine .idle (idle_ymcNext src) fun _ => .bind (hr _ d) fun x d₁ hx => ?_
      refine .bind (after_ymkUnary op d₁) fun _ d₂ hadds => .pure fun hplain => ?_
      have hinst := hadds.compiled fun _ => (by decide : 0 < 2 ^ 16)
      refine ((hx hplain).followed hinst).mono ?_
      rintro core look i _ ⟨j, hcode, hget, rfl⟩
      exact .unary hcode hget

theorem after_parseExpr (hr : r.Emits) (limit : Nat) (d : Draft) :
    After (parseExpr src r limit) d fun x d' => x.1.plain = true → d.Compiled d' (.code x.1) := by
  refine .bind (after_parseOperand hr d) fun e d₁ he => .idle idle_ymcPeek fun token => ?_
  refine (after_binaries hr limit _ e _ d₁).mono fun x d' hgrown hplain => ?_
  obtain ⟨heplain, hcompiled⟩ := hgrown hplain
  exact hcompiled d (he heplain)

/-- Parsing an expression leaves code for it. -/
theorem emits_parsing (depth : Nat) : (parser src depth).Emits := by
  induction depth with
  | zero => exact fun _ _ => .throw _
  | succ depth ih => exact after_parseExpr ih

end

end Ymd
