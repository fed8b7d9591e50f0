import Ymd.Compiler.Effects
import Ymd.Meaning.Emission

/-! # The compiler emits code for statements

Jumps out of a loop are reserved while its body is read, and filled in behind it: until
then they are holes in the code.
-/

namespace Ymd

open Foundation

/-- What the instructions of a chunk from one position up to another one may be, in a
loop and a scope. -/
abbrev Layout := Chunk → Option LoopAt → List Bytes → Nat → Nat → Prop

/-- One piece of code behind another one, in the scope that the first one makes. -/
def Layout.then' (f : List Bytes → List Bytes) (s s' : Layout) : Layout := fun core lp names i k =>
  ∃ j, s core lp names i j ∧ s' core lp (f names) j k

/-- Code for a statement. -/
def Layout.code {c : Category} (t : Tree c) : Layout := fun core lp names i j => Lays core lp t names i j

/-- Code that makes no difference between loops. -/
def CodeShape.layout (s : CodeShape) : Layout := fun core _ names i j => s core (lookIn names) i j

/-- The chunk agrees with another one but for these instructions. -/
structure Chunk.HoldsBut (core blk : Chunk) (holes : List Nat) (i j : Nat) : Prop where
  inst : ∀ n, i ≤ n → n < j → n ∉ holes → core.inst[n]? = blk.inst[n]?
  kval : blk.kval <+: core.kval

theorem Chunk.HoldsBut.holds {core blk : Chunk} {holes : List Nat} {i j : Nat}
    (h : core.HoldsBut blk holes i j) (hno : ∀ n ∈ holes, n < i ∨ j ≤ n) : core.Holds blk i j where
  inst := by
    intro n hin hnj
    refine h.inst n hin hnj fun hmem => ?_
    rcases hno n hmem with hlt | hle
    · exact Nat.not_lt.2 hin hlt
    · exact Nat.not_lt.2 hle hnj
  kval := h.kval

theorem Chunk.HoldsBut.sub {core blk : Chunk} {holes holes' : List Nat} {i j i' j' : Nat}
    (h : core.HoldsBut blk holes i j) (hi : i ≤ i') (hj : j' ≤ j)
    (hsub : ∀ n ∈ holes, i' ≤ n → n < j' → n ∈ holes') : core.HoldsBut blk holes' i' j' where
  inst := fun n hin hnj hno => h.inst n (hi.trans hin) (hnj.trans_le hj) fun hmem => hno (hsub n hmem hin hnj)
  kval := h.kval

/-- The instruction is a jump out of the loop. -/
def Chunk.Leaves (core : Chunk) (lp : Option LoopAt) (n : Nat) : Prop :=
  ∃ place, lp = some place ∧ n ≤ place.exit ∧ core.Has n .jmp Flag.forward (place.exit - n)

/-- More jumps out of the innermost loop. -/
def addBreaks : List LoopInfo → List Nat → List LoopInfo
  | [], _ => []
  | info :: rest, holes => { info with jmt := info.jmt ++ holes } :: rest

@[simp] theorem addBreaks_nil (loop : List LoopInfo) : addBreaks loop [] = loop := by
  cases loop with
  | nil => rfl
  | cons info rest => rw [addBreaks, List.append_nil]

theorem addBreaks_append (loop : List LoopInfo) (holes holes' : List Nat) :
    addBreaks (addBreaks loop holes) holes' = addBreaks loop (holes ++ holes') := by
  cases loop with
  | nil => rfl
  | cons info rest => simp [addBreaks]

namespace Draft

/-- Where the innermost loop begins. -/
def In (d : Draft) (lp : Option LoopAt) : Prop := lp.map LoopAt.retry = d.loop.head?.map LoopInfo.iRetry

/-- There is a statement more: where it leaves the loop there are holes. The instructions
of `fills` in front of it have been filled in. -/
structure Completes (fills : List Nat) (d d' : Draft) (f : List Bytes → List Bytes) (s : Layout) : Prop where
  more : d.Fills fills d'
  lz : d'.blk.lz = f d.blk.lz
  code : ∃ holes, d'.loop = addBreaks d.loop holes ∧ (d.loop = [] → holes = []) ∧ (d.Fits d' →
    (∀ n ∈ holes, d.kinst ≤ n ∧ n < d'.kinst) ∧ ∀ (core : Chunk) lp, d.In lp →
      core.HoldsBut d'.blk holes d.kinst d'.kinst → (∀ n ∈ holes, core.Leaves lp n) →
          s core lp d.blk.lz d.kinst d'.kinst)

/-- There is a statement more, behind what was there before. -/
abbrev Written (d d' : Draft) (f : List Bytes → List Bytes) (s : Layout) : Prop := Completes [] d d' f s

section

variable {d d₁ d₂ d' d'' : Draft} {core : Chunk} {s s' : Layout} {i j m k : Nat} {op : Opcode}
  {flag : BitVec 8} {f g : List Bytes → List Bytes} {holes holes' : List Nat} {lp : Option LoopAt}

/-- What was there before, with the holes of its own. -/
theorem Fills.holdsBut (h : d.Fills holes d') (hfits : d.Fits d') (hcore : core.HoldsBut d'.blk holes' i m)
    (hj : j ≤ d.kinst) (hm : j ≤ m) : core.HoldsBut d.blk (holes ++ holes') i j where
  inst := by
    intro n hin hnj hno
    obtain ⟨hfirst, hsecond⟩ := not_or.1 (mt List.mem_append.2 hno)
    rw [hcore.inst n hin (hnj.trans_le hm) hsecond, h.inst hfits n (hnj.trans_le hj) hfirst]
  kval := (h.kval hfits).trans hcore.kval

theorem in_addBreaks (h : d'.loop = addBreaks d.loop holes) : d'.In lp ↔ d.In lp := by
  unfold In
  rw [h]
  cases d.loop with
  | nil => rfl
  | cons info rest => rfl

theorem Compiled.written {s : CodeShape} (h : d.Compiled d' s) : d.Written d' id s.layout where
  more := h.more
  lz := h.level.lz
  code := by
    refine ⟨[], by rw [addBreaks_nil, h.level.loop], fun _ => rfl, fun hfits => ⟨by simp, fun core lp _ hcore _ => ?_⟩⟩
    exact h.code hfits core (hcore.holds (by simp))

theorem Completes.mono (h : Completes holes d d' f s)
    (himp : ∀ core lp i j, s core lp d.blk.lz i j → s' core lp d.blk.lz i j) : Completes holes d d' f s' := by
  obtain ⟨holes, hloop, hnone, hcode⟩ := h.code
  refine ⟨h.more, h.lz, holes, hloop, hnone, fun hfits => ?_⟩
  obtain ⟨hbounds, hlays⟩ := hcode hfits
  exact ⟨hbounds, fun core lp hin hcore hleaves => himp _ _ _ _ (hlays core lp hin hcore hleaves)⟩

theorem Written.empty (hs : ∀ core lp names i, s core lp names i i) (d : Draft) : d.Written d id s :=
  ⟨.refl d, rfl, [], (addBreaks_nil _).symm, fun _ => rfl, fun _ => ⟨by simp, fun core lp _ _ _ => hs core lp _ _⟩⟩

theorem Written.followed (h : d.Written d' f s) (h' : d'.Written d'' g s') :
    d.Written d'' (fun names => g (f names)) (s.then' f s') where
  more := h.more.trans h'.more
  lz := by rw [h'.lz, h.lz]
  code := by
    obtain ⟨holes, hloop, hnone, hcode⟩ := h.code
    obtain ⟨holes', hloop', hnone', hcode'⟩ := h'.code
    refine ⟨holes ++ holes', by rw [hloop', hloop, addBreaks_append], fun hempty => ?_, fun hfits => ?_⟩
    · rw [hnone hempty, hnone' (by rw [hloop, hempty]; rfl)]
      rfl
    have hleft := hfits.left h'.more
    have hright := hfits.right h.more h'.more
    obtain ⟨hbounds, hlays⟩ := hcode hleft
    obtain ⟨hbounds', hlays'⟩ := hcode' hright
    refine ⟨fun n hn => ?_, fun core lp hin hcore hleaves => ⟨d'.kinst, hlays core lp hin ?_ ?_, ?_⟩⟩
    · rcases List.mem_append.1 hn with hn | hn
      · exact ⟨(hbounds n hn).1, (hbounds n hn).2.trans_le h'.more.le⟩
      · exact ⟨h.more.le.trans (hbounds' n hn).1, (hbounds' n hn).2⟩
    · -- the holes of the second part are behind the first one
      have hfirst := h'.more.holdsBut hright hcore le_rfl h'.more.le
      refine ⟨fun n hin hnj hno => hfirst.inst n hin hnj fun hmem => ?_, hfirst.kval⟩
      rcases List.mem_append.1 (show n ∈ holes ++ holes' from hmem) with hn | hn
      · exact hno hn
      · exact Nat.not_lt.2 (hbounds' n hn).1 hnj
    · exact fun n hn => hleaves n (List.mem_append_left _ hn)
    · rw [← h.lz]
      refine hlays' core lp ((in_addBreaks hloop).2 hin) ⟨fun n hin hnj hno => ?_, hcore.kval⟩ ?_
      · refine hcore.inst n (h.more.le.trans hin) hnj fun hmem => ?_
        rcases List.mem_append.1 hmem with hn | hn
        · exact Nat.not_lt.2 hin (hbounds n hn).2
        · exact hno hn
      · exact fun n hn => hleaves n (List.mem_append_right _ hn)

/-! ## Filling in -/

/-- The loops over the positions that wait for a jump to what comes next. -/
def filled (op : Opcode) : List Nat → Draft → Draft
  | [], d => d
  | n :: holes, d => filled op holes (d.patch n (asmBuild op.code Flag.forward (BitVec.ofNat 16 (d.kinst - n))))

@[simp] theorem kinst_filled (op : Opcode) (holes : List Nat) (d : Draft) :
    (filled op holes d).kinst = d.kinst := by
  induction holes generalizing d with
  | nil => rfl
  | cons n holes ih => rw [filled, ih, kinst_patch]

theorem fills_filled (op : Opcode) (holes : List Nat) (d : Draft) : d.Fills holes (filled op holes d) := by
  induction holes generalizing d with
  | nil => exact .refl d
  | cons n holes ih => exact (fills_patch d n _).trans (ih _)

theorem level_filled (op : Opcode) (holes : List Nat) (d : Draft) : d.Level (filled op holes d) := by
  induction holes generalizing d with
  | nil => exact .refl d
  | cons n holes ih => exact (level_patch d n _).trans (ih _)

theorem filled_of_not_mem {n : Nat} (hn : n ∉ holes) :
    (filled op holes d).blk.inst[n]? = d.blk.inst[n]? := by
  induction holes generalizing d with
  | nil => rfl
  | cons n' holes ih =>
      obtain ⟨hne, hno⟩ := not_or.1 (mt List.mem_cons.2 hn)
      rw [filled, ih hno]
      exact List.getElem?_set_ne (Ne.symm hne)

theorem filled_of_mem {n : Nat} (hn : n ∈ holes) (hlt : n < d.kinst) :
    (filled op holes d).blk.inst[n]? =
      some (asmBuild op.code Flag.forward (BitVec.ofNat 16 (d.kinst - n))) := by
  induction holes generalizing d with
  | nil => cases hn
  | cons n' holes ih =>
      rw [filled]
      by_cases hmem : n ∈ holes
      · rw [ih hmem (by rwa [kinst_patch]), kinst_patch]
      · obtain rfl : n = n' := (List.mem_cons.1 hn).resolve_right hmem
        rw [filled_of_not_mem hmem]
        exact List.getElem?_set_self hlt

end

end Draft

/-! ## Statements -/

/-- The recursive calls leave code for their trees. -/
structure Rec.Writes {σ : Type} (r : Rec σ) : Prop where
  expr : r.Emits
  stmt : ∀ d, After r.stmt d fun t d' => t.plain = true → d.Written d' t.scope (.code t)

section

variable {σ : Type} {src : Source σ} {r : Rec σ}

theorem after_fillJout (holes : List Nat) (d : Draft) :
    After (fillJout holes : ParseM σ Unit) d fun _ d' => d' = Draft.filled .jmp holes d := by
  induction holes generalizing d with
  | nil => exact .pure rfl
  | cons n holes ih =>
      refine .bind (after_ymkHackJmp n .jmp d) fun _ d₁ hd₁ => ?_
      subst hd₁
      exact ih _

theorem after_fillBreaks (iCurr : Nat) (holes : List Nat) (d : Draft) :
    After (fillBreaks iCurr holes : ParseM σ Unit) d fun _ d' => d' = Draft.filled .jmp holes d := by
  induction holes generalizing d with
  | nil => exact .pure rfl
  | cons n holes ih =>
      refine .assert fun _ => .bind (after_ymkHackJmp n .jmp d) fun _ d₁ hd₁ => ?_
      subst hd₁
      exact ih _

/-- The counter of the local variables has 16 bits. -/
theorem Chunk.klz_addLz_lt {core : Chunk} {z : Bytes} {i : Nat} (h : (core.addLz z).2 = some i) :
    (core.addLz z).1.klz < 2 ^ 16 := by
  unfold Chunk.addLz at h ⊢
  split at h
  · cases h
  next hnew =>
    rw [if_neg hnew]
    change (Chunk.push16 core.lz z).length < 2 ^ 16
    unfold Chunk.push16
    split
    next hlt =>
      rw [List.length_append]
      exact hlt
    next => exact Nat.two_pow_pos 16

/-- A new name behind the ones of the scope. -/
theorem after_ymkNewLocvar (name : Bytes) (d : Draft) :
    After (ymkNewLocvar name : ParseM σ Nat) d fun i d' => i = d.blk.klz ∧ i + 1 < 2 ^ 16 ∧
      d' = ⟨{ d.blk with lz := d.blk.lz ++ [name] }, d.loop⟩ := by
  rintro p i p' rfl hrun
  rw [ymkNewLocvar_apply] at hrun
  cases hadd : (p.blk.addLz name).2 with
  | none =>
      rw [hadd] at hrun
      cases hrun
  | some k =>
      rw [hadd] at hrun
      cases hrun
      obtain ⟨hblk, rfl⟩ := Chunk.addLz_some hadd
      have hlt := Chunk.klz_addLz_lt hadd
      rw [hblk, Chunk.klz, List.length_append] at hlt
      refine ⟨rfl, hlt, ?_⟩
      rw [Parser.draft, hblk]
      rfl

/-! ## Assignments -/

theorem after_ymkLvalPartial (lv : Tree .lval) (d : Draft) :
    After (ymkLvalPartial lv : ParseM σ Unit) d fun _ d' => lv.plain = true → d.Compiled d' lv.reads := by
  cases lv with
  | lsym name => exact (after_ymkEmitPush name).mono fun _ _ h _ => h.compiled
  | lfield lv name => exact (after_kz name).mono fun _ _ h _ => h.compiled
  | lindex lv i => exact (after_ymkEmitOfP 1).mono fun _ _ h _ => h.compiled fun _ => by decide
  | lcall lv args => exact .pure nofun
  | lselfcall lv method args => exact .pure nofun

theorem after_ymkLvalFinish (lv : Tree .lval) (d : Draft) :
    After (ymkLvalFinish lv : ParseM σ Unit) d fun _ d' => d.Compiled d' lv.writes := by
  cases lv with
  | lsym name => exact (after_ymkEmitStore name).mono fun _ _ h => h.compiled
  | lfield lv name => exact (after_kz name).mono fun _ _ h => h.compiled
  | lindex lv i => exact (after_ymkEmitOfP 1).mono fun _ _ h => h.compiled fun _ => by decide
  | lcall lv args => exact .throw _
  | lselfcall lv method args => exact .throw _

theorem after_lvalSuffixes (hr : r.Emits) (fuel : Nat) (lv : Tree .lval) (d : Draft) :
    After (lvalSuffixes src r fuel lv) d fun t d' => d.Grown d' lv t := by
  induction fuel generalizing lv d with
  | zero => exact .throw _
  | succ fuel ih =>
      refine .idle idle_ymcPeek fun token => ?_
      split
      · refine .bind (after_ymkLvalPartial lv d) fun _ d₁ hread => .idle (idle_ymcNext src) fun _ => ?_
        refine .idle (idle_ymkSymbol src) fun name => (ih _ d₁).mono fun t d' hgrown hplain => ?_
        obtain ⟨hlv, hcompiled⟩ := hgrown hplain
        refine ⟨hlv, fun d₀ h => hcompiled d₀ ((h.followed (hread hlv)).mono ?_)⟩
        rintro core look i k ⟨j, hcode, hreads⟩
        exact .lfield hcode hreads
      · refine .bind (after_ymkLvalPartial lv d) fun _ d₁ hread => .idle (idle_ymcNext src) fun _ => ?_
        refine .bind (hr 0 d₁) fun x d₂ hx => .idle (idle_ymcMatch src _) fun _ => ?_
        refine (ih _ d₂).mono fun t d' hgrown hplain => ?_
        obtain ⟨hboth, hcompiled⟩ := hgrown hplain
        obtain ⟨hlv, hkey⟩ := (Bool.and_eq_true _ _).mp hboth
        refine ⟨hlv, fun d₀ h => hcompiled d₀ ((h.followed ((hread hlv).followed (hx hkey))).mono ?_)⟩
        rintro core look i n ⟨j, hcode, k, hreads, hkeycode⟩
        exact .lindex hcode hreads hkeycode
      · refine .bind .any fun _ d₁ _ => .idle (idle_ymcNext src) fun _ => .idle (idle_ymkSymbol src) fun name => ?_
        refine .bind .any fun args d₂ _ => (ih _ d₂).mono fun t d' hgrown hplain => ?_
        cases (hgrown hplain).1
      · refine .bind .any fun _ d₁ _ => .bind .any fun args d₂ _ => (ih _ d₂).mono fun t d' hgrown hplain => ?_
        cases (hgrown hplain).1
      · refine .bind .any fun _ d₁ _ => .bind .any fun args d₂ _ => (ih _ d₂).mono fun t d' hgrown hplain => ?_
        cases (hgrown hplain).1
      · exact .pure (.refl d lv)

theorem after_parseLval (hr : r.Emits) (d : Draft) :
    After (parseLval src r) d fun lv d' => lv.plain = true → d.Compiled d' (.code lv) := by
  refine .idle idle_ymcPeek fun token => ?_
  split
  · refine .idle (idle_ymkSymbol src) fun name => (after_lvalSuffixes hr _ _ d).mono ?_
    exact fun lv d' hgrown hplain => (hgrown hplain).2 d (.empty (fun _ _ _ => .lsym) d)
  · exact .throw _

theorem after_parseExprStat (hr : r.Emits) (d : Draft) :
    After (parseExprStat src r) d fun t d' => t.plain = true → d.Written d' t.scope (.code t) := by
  refine .bind (after_parseLval hr d) fun lv d₁ hlv => .idle idle_ymcPeek fun token => .ite (fun _ => ?_) fun _ => ?_
  · refine .idle (idle_ymcNext src) fun _ => .bind (hr 0 d₁) fun x d₂ hx => ?_
    refine .bind (after_ymkLvalFinish lv d₂) fun _ d₃ hwrite => .pure fun hplain => ?_
    obtain ⟨hlvplain, hxplain⟩ := (Bool.and_eq_true _ _).mp hplain
    refine ((hlv hlvplain).followed ((hx hxplain).followed hwrite)).written.mono ?_
    rintro core lp i n ⟨j, hcode, k, hvalue, hstore⟩
    exact .assign hcode hvalue hstore
  · exact .ite (fun _ => .pure nofun) fun _ => .throw _

theorem after_parseReturn (hr : r.Emits) (d : Draft) :
    After (parseReturn src r) d fun t d' => t.plain = true → d.Written d' t.scope (.code t) := by
  refine .idle (idle_ymcNext src) fun _ => .bind (hr 0 d) fun x d₁ hx => ?_
  refine .bind (after_ymkEmitOfP 1) fun _ d₂ hadds => .pure fun hplain => ?_
  refine ((hx hplain).followed (hadds.compiled fun _ => by decide)).written.mono ?_
  rintro core lp i _ ⟨j, hcode, hinst, rfl⟩
  exact .ret hcode hinst

/-! ## Declarations -/

/-- A new name comes without code. -/
theorem written_newLocvar {d : Draft} {name : Bytes} (hlt : d.blk.klz + 1 < 2 ^ 16) :
    d.Written ⟨{ d.blk with lz := d.blk.lz ++ [name] }, d.loop⟩ (fun names => names ++ [name])
      fun _ _ _ i j => j = i where
  more :=
    { le := le_rfl
      inst := fun _ _ _ _ => rfl
      kval := fun _ => List.prefix_rfl
      small := fun hfits => ⟨hfits.1.1, by
        change (d.blk.lz ++ [name]).length < _
        rw [List.length_append]
        exact hlt⟩ }
  lz := rfl
  code := ⟨[], (addBreaks_nil _).symm, fun _ => rfl, fun _ => ⟨by simp, fun _ _ _ _ _ => rfl⟩⟩

/-- A declaration makes a chain of declarations from the one behind it. -/
def Draft.Declares (d d' : Draft) (put : Tree .decls → Tree .decls) : Prop :=
  ∀ rest : Tree .decls, (put rest).plain = true → rest.plain = true ∧
    ∀ d'' : Draft, d'.Written d'' rest.scope (.code rest) → d.Written d'' (put rest).scope (.code (put rest))

theorem after_parseDecl (hr : r.Emits) (d : Draft) :
    After (parseDecl src r) d fun put d' => d.Declares d' put := by
  refine .idle (idle_ymkSymbol src) fun name => .bind (after_ymkNewLocvar name d) fun i d₁ h => ?_
  obtain ⟨rfl, hlt, rfl⟩ := h
  have hnew := @written_newLocvar d name hlt
  refine .idle idle_ymcPeek fun token => .ite (fun _ => .pure fun rest hplain => ?_) fun _ => ?_
  · refine ⟨hplain, fun d'' hrest => (hnew.followed hrest).mono ?_⟩
    rintro core lp i j ⟨_, rfl, hlays⟩
    exact .decl hlays
  · refine .idle (idle_ymcNext src) fun _ => .bind (hr 0 _) fun x d₂ hx => ?_
    refine .bind (after_ymkEmitOfP _) fun _ d₃ hadds => .pure fun rest hplain => ?_
    obtain ⟨hxplain, hrestplain⟩ := (Bool.and_eq_true _ _).mp hplain
    refine ⟨hrestplain, fun d'' hrest => ?_⟩
    have hstore := (hx hxplain).followed (hadds.compiled fun _ => (Nat.lt_succ_self _).trans hlt)
    refine (hnew.followed (hstore.written.followed hrest)).mono ?_
    rintro core lp i k ⟨_, rfl, _, ⟨j, hcode, hinst, rfl⟩, hlays⟩
    exact .init hcode hinst hlays

theorem after_parseDecls (hr : r.Emits) (fuel : Nat) (d : Draft) :
    After (parseDecls src r fuel) d fun t d' => t.plain = true → d.Written d' t.scope (.code t) := by
  induction fuel generalizing d with
  | zero => exact .throw _
  | succ fuel ih =>
      refine .bind (after_parseDecl hr d) fun put d₁ hput => .idle (idle_ymcTest src _) fun _ => ?_
      refine .ite (fun _ => ?_) fun _ => .pure fun hplain => ?_
      · refine .bind (ih d₁) fun rest d₂ hrest => .pure fun hplain => ?_
        obtain ⟨hrestplain, hwritten⟩ := hput rest hplain
        exact hwritten d₂ (hrest hrestplain)
      · exact (hput .noDecls hplain).2 d₁ (.empty (fun _ _ _ _ => .noDecls) d₁)

theorem after_parseFunc (isLocal : Bool) (d : Draft) :
    After (parseFunc src r isLocal) d fun t d' => t.plain = true → d.Written d' t.scope (.code t) := by
  refine .bind .any fun _ d₁ _ => .bind .any fun _ d₂ _ => .ite (fun _ => .throw_bind _) fun _ => ?_
  refine .bind .any fun _ d₃ _ => .bind .any fun _ d₄ _ => .bind .any fun _ d₅ _ => ?_
  exact .bind .any fun _ d₆ _ => .pure nofun

theorem after_parseLocal (hr : r.Emits) (d : Draft) :
    After (parseLocal src r) d fun t d' => t.plain = true → d.Written d' t.scope (.code t) := by
  refine .idle (idle_ymcNext src) fun _ => .idle idle_ymcPeek fun token => .ite (fun _ => ?_) fun _ => ?_
  · exact after_parseFunc true d
  · refine .bind (after_parseDecls hr _ d) fun decls d₁ hdecls => .pure fun hplain => ?_
    exact (hdecls hplain).mono fun core lp i j => .locals

/-! ## Blocks -/

theorem after_blockStmts (hr : r.Writes) (fuel : Nat) (d : Draft) :
    After (blockStmts r fuel) d fun t d' => t.plain = true → d.Written d' t.scope (.code t) := by
  induction fuel generalizing d with
  | zero => exact .throw _
  | succ fuel ih =>
      refine .idle idle_ymcPeek fun token => .ite (fun _ => .pure fun _ => ?_) fun _ => ?_
      · exact .empty (fun _ _ _ _ => .done) d
      · refine .bind (hr.stmt d) fun s d₁ hs => .bind (ih d₁) fun rest d₂ hrest => .pure fun hplain => ?_
        obtain ⟨hsplain, hrestplain⟩ := (Bool.and_eq_true _ _).mp hplain
        refine ((hs hsplain).followed (hrest hrestplain)).mono ?_
        rintro core lp i k ⟨j, hfirst, hsecond⟩
        exact .stmt hfirst hsecond

theorem after_parseBlock (hr : r.Writes) (d : Draft) :
    After (parseBlock src r) d fun t d' => t.plain = true → d.Written d' t.scope (.code t) := by
  refine .idle (idle_ymcMatch src _) fun _ => .bind (after_blockStmts hr _ d) fun body d₁ hbody => ?_
  exact .idle (idle_ymcNext src) fun _ => .pure hbody

/-! ## Loops -/

theorem after_theLoop (d : Draft) :
    After (theLoop : ParseM σ LoopInfo) d fun info d' => d' = d ∧ ∃ rest, d.loop = info :: rest := by
  refine .get fun p hp => ?_
  subst hp
  have hloop : p.draft.loop = p.loop := rfl
  rw [hloop]
  cases p.loop with
  | nil => exact .throw _
  | cons info rest => exact .pure ⟨rfl, rest, rfl⟩

theorem after_onLoop (f : LoopInfo → LoopInfo) (d : Draft) :
    After (onLoop f : ParseM σ Unit) d fun _ d' =>
      ∃ info rest, d.loop = info :: rest ∧ d' = ⟨d.blk, f info :: rest⟩ := by
  refine .bind (after_theLoop d) fun info d₁ ⟨hd₁, rest, hloop⟩ => ?_
  subst hd₁
  rintro p u p' rfl hrun
  cases hrun
  refine ⟨info, rest, hloop, ?_⟩
  change (⟨p.blk, f info :: p.loop.tail⟩ : Draft) = _
  rw [show p.loop = info :: rest from hloop]
  rfl

/-- Only the chunks count for what is kept. -/
theorem Draft.Fills.of_blk {d d' e e' : Draft} {holes : List Nat} (h : d.Fills holes d')
    (hblk : e.blk = d.blk) (hblk' : e'.blk = d'.blk) : e.Fills holes e' := by
  obtain ⟨blk, loop⟩ := e
  obtain ⟨blk', loop'⟩ := e'
  cases hblk
  cases hblk'
  exact ⟨h.le, h.inst, h.kval, h.small⟩

theorem Draft.Fits.of_blk {d d' e e' : Draft} (h : d.Fits d') (hblk : e.blk = d.blk)
    (hblk' : e'.blk = d'.blk) : e.Fits e' := by
  obtain ⟨blk, loop⟩ := e
  obtain ⟨blk', loop'⟩ := e'
  cases hblk
  cases hblk'
  exact h

/-- A jump out of the loop is a hole until the loop is left. -/
theorem after_parseBreak (d : Draft) :
    After (parseBreak src) d fun t d' => t.plain = true → d.Written d' t.scope (.code t) := by
  refine .bind (.bind (after_theLoop d) fun info d₁ h => ?_) fun _ d₂ hwritten =>
    .idle (idle_ymcNext src) fun _ => .pure fun _ => hwritten
  obtain ⟨rfl, rest, hloop⟩ := h
  refine .ite (fun _ => .throw_bind _) fun _ => .bind (after_ymkHold d₁) fun i d₂ ⟨hi, hadds⟩ => ?_
  refine (after_onLoop _ d₂).mono fun _ d₃ h => ?_
  obtain ⟨info', rest', hloop', rfl⟩ := h
  rw [hadds.level.loop, hloop] at hloop'
  cases hloop'
  have hmore : d₁.Extends ⟨d₂.blk, { info with jmt := info.jmt ++ [i] } :: rest⟩ := hadds.more.of_blk rfl rfl
  have hkinst : Draft.kinst ⟨d₂.blk, { info with jmt := info.jmt ++ [i] } :: rest⟩ = d₁.kinst + 1 := hadds.kinst
  refine ⟨hmore, hadds.level.lz, [i], ?_, fun hempty => ?_, fun hfits => ⟨?_, ?_⟩⟩
  · rw [hloop]
    rfl
  · rw [hempty] at hloop
    cases hloop
  · rw [Draft.kinst_mod hmore hfits] at hi
    rw [hkinst]
    rintro n hn
    rw [List.mem_singleton.1 hn, hi]
    exact ⟨le_rfl, Nat.lt_succ_self _⟩
  · rw [Draft.kinst_mod hmore hfits] at hi
    intro core lp _ _ hleaves
    obtain ⟨place, rfl, hle, hinst⟩ := hleaves i (List.mem_singleton_self i)
    rw [hi] at hle hinst
    rw [hkinst]
    exact .break' hle hinst

theorem after_ymkEmitJmp (target : Nat) (d : Draft) :
    After (ymkEmitJmp target : ParseM σ Unit) d fun _ d' =>
      target ≤ d.kinst ∧ d.Adds d' .jmp Flag.backward (d.kinst - target) := by
  refine .get fun p hp => ?_
  subst hp
  exact .assert fun hle => (after_ymkEmitOfP _).mono fun _ d' h => ⟨hle, h⟩

theorem after_parseContinue (d : Draft) :
    After (parseContinue src) d fun t d' => t.plain = true → d.Written d' t.scope (.code t) := by
  refine .bind (after_theLoop d) fun info d₁ h => ?_
  obtain ⟨rfl, rest, hloop⟩ := h
  refine .bind (after_ymkEmitJmp _ d₁) fun _ d₂ ⟨hle, hadds⟩ => .idle (idle_ymcNext src) fun _ => .pure fun _ => ?_
  refine ⟨hadds.more, hadds.level.lz, [], ?_, fun _ => rfl, fun hfits => ⟨by simp, fun core lp hin hcore _ => ?_⟩⟩
  · rw [addBreaks_nil, hadds.level.loop]
  · have hlt : d₁.kinst - info.iRetry < 2 ^ 16 := (Nat.sub_le _ _).trans_lt (hadds.more.le.trans_lt hfits.2)
    rw [Draft.In, hloop] at hin
    obtain ⟨place, rfl, hplace⟩ := Option.map_eq_some_iff.1 hin
    rw [hadds.kinst] at hcore ⊢
    have hinst := hadds.has hlt (hcore.holds (by simp)) le_rfl (Nat.lt_succ_self _)
    rw [← hplace] at hle hinst
    exact .continue' hle hinst

theorem after_ymkLoopLeave {d : Draft} {info : LoopInfo} {rest : List LoopInfo}
    (hloop : d.loop = info :: rest) (hdeath : info.death = true) :
    After (ymkLoopLeave : ParseM σ Unit) d fun _ d' => info.iRetry ≤ d.kinst ∧
      ∃ d₁ : Draft, d.Adds d₁ .jmp Flag.backward (d.kinst - info.iRetry) ∧
        d' = ⟨(Draft.filled .jmp info.jmt.reverse d₁).blk, rest⟩ := by
  refine .get fun p hp => ?_
  subst hp
  refine .bind (after_theLoop _) fun info' d₁ h => ?_
  obtain ⟨rfl, rest', hloop'⟩ := h
  rw [hloop] at hloop'
  cases hloop'
  refine .assert fun hle => .bind (after_ymkEmitJmp _ _) fun _ d₂ ⟨_, hadds⟩ => ?_
  refine .bind (after_fillBreaks _ _ d₂) fun _ d₃ hd₃ => ?_
  subst hd₃
  refine .ite (fun hno => absurd hdeath hno) fun _ => ?_
  rintro p' u p'' hp' hrun
  cases hrun
  refine ⟨hle, d₂, hadds, ?_⟩
  have hlevel := hadds.level.trans (Draft.level_filled .jmp info.jmt.reverse d₂)
  have hblk : p'.blk = (Draft.filled .jmp info.jmt.reverse d₂).blk := congrArg Draft.blk hp'
  have hloops : p'.loop = info :: rest := (congrArg Draft.loop hp').trans (hlevel.loop.trans hloop)
  change (⟨p'.blk, p'.loop.tail⟩ : Draft) = _
  rw [hblk, hloops]
  rfl

/-- When a loop is left, its body has become code for the loop. -/
theorem after_ymkLoopLeave_forever {d d₁ d₂ : Draft} {body : Tree .block} {n : Nat} (hblk : d₁.blk = d.blk)
    (hloop : d₁.loop = ⟨d.kinst % 2 ^ 16, n, [], true⟩ :: d.loop)
    (hbody : d₁.Written d₂ body.scope (.code body)) :
    After (ymkLoopLeave : ParseM σ Unit) d₂ fun _ d' =>
      d.Written d' (Tree.forever body).scope (.code (Tree.forever body)) := by
  obtain ⟨holes, hloop₂, -, hcode⟩ := hbody.code
  rw [hloop, addBreaks, List.nil_append] at hloop₂
  refine (after_ymkLoopLeave hloop₂ rfl).mono fun _ d' ⟨hle, d₃, hadds, hd'⟩ => ?_
  dsimp only at hle hadds hd'
  have hfilled := Draft.fills_filled .jmp holes.reverse d₃
  have hkinst₁ : d₁.kinst = d.kinst := congrArg Chunk.kinst hblk
  have hblk' : d'.blk = (Draft.filled .jmp holes.reverse d₃).blk := by rw [hd']
  have hkinst' : d'.kinst = d₂.kinst + 1 :=
    (congrArg Chunk.kinst hblk').trans ((Draft.kinst_filled .jmp holes.reverse d₃).trans hadds.kinst)
  have hmore₂ : d.Extends d₂ := hbody.more.of_blk hblk.symm rfl
  have hleft : d₂.Fills holes.reverse d' := (Draft.Fills.trans hadds.more hfilled).of_blk rfl hblk'
  have hmore : d.Fills holes.reverse d' := Draft.Fills.trans hmore₂ hleft
  have hbounds : d.Fits d' → ∀ n ∈ holes, d.kinst ≤ n ∧ n < d₂.kinst := by
    intro hfits
    rw [← hkinst₁]
    exact (hcode ((hfits.left hleft).of_blk hblk rfl)).1
  refine ⟨hmore.mono fun hfits n hn hlt => ?_, ?_, [], ?_, fun _ => rfl,
    fun hfits => ⟨by simp, fun core lp _ hcore _ => ?_⟩⟩
  · exact absurd hlt (Nat.not_lt.2 (hbounds hfits n (List.mem_reverse.1 hn)).1)
  · rw [hblk', (Draft.level_filled .jmp holes.reverse d₃).lz, hadds.level.lz, hbody.lz, hblk]
    rfl
  · rw [addBreaks_nil, hd']
  -- the code as it stands at last: the holes lead behind the loop, the last jump back to its beginning
  have hfits₂ := hfits.left hleft
  have hpos := Draft.kinst_mod hmore₂ hfits₂
  have hinst : ∀ n, d.kinst ≤ n → n < d₂.kinst + 1 →
      core.inst[n]? = (Draft.filled .jmp holes.reverse d₃).blk.inst[n]? := by
    intro n hle hlt
    rw [hcore.inst n hle (by rwa [hkinst']) List.not_mem_nil, hblk']
  rw [hpos] at hloop hadds hle
  rw [hkinst']
  refine .forever ?_ ⟨?_, (Nat.sub_le _ _).trans_lt hfits₂.2⟩
  · have hlays := (hcode (hfits₂.of_blk hblk rfl)).2 core (some ⟨d.kinst, d₂.kinst + 1⟩) ?_ ⟨?_, ?_⟩ ?_
    · rw [hblk, hkinst₁] at hlays
      exact hlays
    · rw [Draft.In, hloop]
      rfl
    · intro n hle hlt hno
      rw [hkinst₁] at hle
      rw [hinst n hle (hlt.trans (Nat.lt_succ_self _)), Draft.filled_of_not_mem (mt List.mem_reverse.1 hno),
        hadds.inst, List.getElem?_append_left hlt]
    · exact (hleft.kval (hfits.right hmore₂ hleft)).trans hcore.kval
    · intro n hn
      obtain ⟨hle, hlt⟩ := hbounds hfits n hn
      refine ⟨_, rfl, hlt.le.trans (Nat.le_succ _), ?_, (Nat.sub_le _ _).trans_lt (by rw [← hkinst']; exact hfits.2)⟩
      rw [hinst n hle (hlt.trans (Nat.lt_succ_self _)), Draft.filled_of_mem (List.mem_reverse.2 hn), hadds.kinst]
      rw [hadds.kinst]
      exact hlt.trans (Nat.lt_succ_self _)
  · have hno : d₂.kinst ∉ holes.reverse := fun hmem =>
      Nat.lt_irrefl _ (hbounds hfits _ (List.mem_reverse.1 hmem)).2
    rw [hinst _ hmore₂.le (Nat.lt_succ_self _), Draft.filled_of_not_mem hno, hadds.inst]
    exact List.getElem?_concat_length

theorem after_parseIn (tmp : Bytes) (d : Draft) :
    After (parseIn src r tmp) d fun t _ => t.plain = false := by
  refine .bind .any fun _ _ _ => .bind .any fun _ _ _ => .get fun p _ => .bind .any fun _ _ _ => ?_
  refine .bind .any fun _ _ _ => .bind .any fun _ _ _ => .bind .any fun _ _ _ => .bind .any fun _ _ _ => ?_
  refine .bind .any fun _ _ _ => .bind .any fun _ _ _ => .bind .any fun _ _ _ => .bind .any fun _ _ _ => ?_
  exact .bind .any fun _ _ _ => .bind .any fun _ _ _ => .bind .any fun _ _ _ => .pure rfl

theorem after_parseFor (hr : r.Writes) (d : Draft) :
    After (parseFor src r) d fun t d' => t.plain = true → d.Written d' t.scope (.code t) := by
  refine .idle (idle_ymcNext src) fun _ => ?_
  have henter : After (ymkLoopEnter : ParseM σ Unit) d fun _ d' => d' = ⟨d.blk, ⟨0, 0, [], false⟩ :: d.loop⟩ := by
    rintro p u p' rfl hrun
    cases hrun
    rfl
  refine .bind henter fun _ d₁ hd₁ => .idle idle_ymcPeek fun token => ?_
  subst hd₁
  split
  · have hipos : After (ymkIpos : ParseM σ Nat) ⟨d.blk, ⟨0, 0, [], false⟩ :: d.loop⟩ fun i d' =>
        i = d.kinst % 2 ^ 16 ∧ d' = ⟨d.blk, ⟨0, 0, [], false⟩ :: d.loop⟩ := by
      refine .get fun p hp => .pure ⟨?_, rfl⟩
      rw [show p.blk = d.blk from congrArg Draft.blk hp]
      rfl
    refine .bind hipos fun i d₁ ⟨hi, hd₁⟩ => ?_
    subst hd₁
    refine .bind (after_onLoop _ _) fun _ d₂ h => ?_
    obtain ⟨_, _, heq, rfl⟩ := h
    cases heq
    refine .bind (after_parseBlock hr _) fun body d₃ hbody => ?_
    by_cases hplain : body.plain = true
    · subst hi
      have hleave : After (ymkLoopLeave : ParseM σ Unit) d₃ fun _ d' =>
          d.Written d' (Tree.forever body).scope (.code (Tree.forever body)) := by
        refine after_ymkLoopLeave_forever (n := 0) ?_ ?_ (hbody hplain)
        · rfl
        · rfl
      exact .bind hleave fun _ d₄ hwritten => .pure fun _ => hwritten
    · exact .bind .any fun _ d₄ _ => .pure fun h => absurd h hplain
  · refine .bind .any fun _ d₁ _ => .bind .any fun _ d₂ _ => .bind .any fun _ d₃ _ => ?_
    exact (after_parseIn _ d₃).mono fun t d' hno hplain => absurd hplain (Bool.eq_false_iff.1 hno)
  · refine .bind .any fun _ d₁ _ => ?_
    exact (after_parseIn _ d₁).mono fun t d' hno hplain => absurd hplain (Bool.eq_false_iff.1 hno)
  · exact .throw _

/-! ## Conditions -/

/-- A condition with its body, and the chain behind it. -/
def Layout.branch (cond : Tree .expr) (body : Tree .block) (rest : Tree .elifs) : Layout :=
  fun core lp names i n => ∃ j m, Codes core (lookIn names) cond i j ∧
    core.Has j .jne Flag.forward (rest.entryOf m - j) ∧ Lays core lp body names (j + 1) m ∧
      Lays core lp rest (body.scope names) m n

/-- A chain of conditions more: the jump of the condition in front of it, and the jumps
out of the bodies in front of it, are filled in. -/
structure Draft.Tailed (d d' : Draft) (jnxt : Nat) (jout : List Nat) (t : Tree .elifs) : Prop where
  code : Draft.Completes (jnxt :: jout) d d' t.scope (.code t)
  next : d.Fits d' → d'.blk.inst[jnxt]? =
    some (asmBuild Opcode.jne.code Flag.forward (BitVec.ofNat 16 (t.entryOf d.kinst - jnxt)))
  outs : d.Fits d' → ∀ n ∈ jout, d'.blk.inst[n]? =
    some (asmBuild Opcode.jmp.code Flag.forward (BitVec.ofNat 16 (d'.kinst - n)))

/-- A condition is compiled, and its jump is filled in by the chain behind its body. -/
theorem Draft.Tailed.branch {d d₁ d₂ d₃ d₄ : Draft} {cond : Tree .expr} {body : Tree .block} {rest : Tree .elifs}
    {j : Nat} {jout : List Nat} (hcond : d.Compiled d₁ (.code cond)) (hhold : d₁.Adds d₂ .panic 0 0)
    (hj : j = d₁.kinst % 2 ^ 16) (hbody : d₂.Written d₃ body.scope (.code body))
    (htail : d₃.Tailed d₄ j jout rest) (hout : d.Fits d₄ → ∀ n ∈ jout, n < d.kinst) :
    Draft.Completes jout d d₄ (fun names => rest.scope (body.scope names)) (.branch cond body rest) := by
  have hmore₂ := hcond.more.trans hhold.more
  have hmore₃ := hmore₂.trans hbody.more
  have hmore := Draft.Fills.trans hmore₃ htail.code.more
  have hpos : d.Fits d₄ → j = d₁.kinst := by
    intro hfits
    have hfirst := hhold.more.trans hbody.more
    rw [hj, Draft.kinst_mod hfirst ((hfits.left htail.code.more).right hcond.more hfirst)]
  have hlz : d₂.blk.lz = d.blk.lz := hhold.level.lz.trans hcond.level.lz
  refine ⟨hmore.mono fun hfits n hn hlt => ?_, ?_, ?_⟩
  · rcases List.mem_cons.1 (show n ∈ j :: jout from hn) with rfl | hmem
    · rw [hpos hfits] at hlt
      exact absurd hlt (Nat.not_lt.2 hcond.more.le)
    · exact hmem
  · rw [htail.code.lz, hbody.lz, hlz]
  have hloops : d₂.loop = d.loop := hhold.level.loop.trans hcond.level.loop
  obtain ⟨holes, hloop, hnone, hcode⟩ := hbody.code
  obtain ⟨holes', hloop', hnone', hcode'⟩ := htail.code.code
  refine ⟨holes ++ holes', ?_, fun hempty => ?_, fun hfits => ?_⟩
  · rw [hloop', hloop, hloops, addBreaks_append]
  · rw [hnone (hloops.trans hempty), hnone' (by rw [hloop, hloops, hempty]; rfl)]
    rfl
  have hfits₃ := hfits.left htail.code.more
  have hfits₁ := hfits₃.left (hhold.more.trans hbody.more)
  have hfits₂ := hfits₃.right hmore₂ hbody.more
  have htop := hfits.right hmore₃ htail.code.more
  obtain ⟨hbounds, hlays⟩ := hcode hfits₂
  obtain ⟨hbounds', hlays'⟩ := hcode' htop
  rw [hpos hfits] at htail
  have hle₁ : d.kinst ≤ d₁.kinst := hcond.more.le
  have hkinst₂ : d₂.kinst = d₁.kinst + 1 := hhold.kinst
  have hle₃ : d₂.kinst ≤ d₃.kinst := hbody.more.le
  have hle₄ : d₃.kinst ≤ d₄.kinst := htail.code.more.le
  refine ⟨fun n hn => ?_, fun core lp hin hcore hleaves => ?_⟩
  · rcases List.mem_append.1 hn with hmem | hmem
    · have := hbounds n hmem
      omega
    · have := hbounds' n hmem
      omega
  have hloop₂ : d₂.loop = addBreaks d.loop [] := by rw [addBreaks_nil, hloops]
  have hin₂ : d₂.In lp := (Draft.in_addBreaks hloop₂).2 hin
  -- below the chain the jump and the breaks of the body are all that is not there yet
  have hbelow : core.HoldsBut d₃.blk (d₁.kinst :: jout ++ (holes ++ holes')) d.kinst d₃.kinst :=
    htail.code.more.holdsBut htop hcore le_rfl hle₄
  have hrest : Lays core lp rest (body.scope d.blk.lz) d₃.kinst d₄.kinst := by
    rw [← hlz, ← hbody.lz]
    refine hlays' core lp ((Draft.in_addBreaks hloop).2 hin₂) (hcore.sub (by omega) le_rfl fun n hn hge _ => ?_) ?_
    · rcases List.mem_append.1 hn with hmem | hmem
      · have := hbounds n hmem
        omega
      · exact hmem
    · exact fun n hn => hleaves n (List.mem_append_right _ hn)
  refine ⟨d₁.kinst, d₃.kinst, ?_, ⟨?_, ?_⟩, ?_, hrest⟩
  · have hfirst := Draft.Fills.holdsBut (hhold.more.trans hbody.more) (hfits₃.right hcond.more
      (hhold.more.trans hbody.more)) hbelow le_rfl (by omega : d₁.kinst ≤ d₃.kinst)
    refine hcond.code hfits₁ core (hfirst.holds fun n hn => ?_)
    rcases List.mem_append.1 (List.mem_append.1 hn |>.resolve_left List.not_mem_nil) with hn | hn
    · rcases List.mem_cons.1 hn with rfl | hmem
      · exact .inr le_rfl
      · exact .inl (hout hfits n hmem)
    · rcases List.mem_append.1 hn with hmem | hmem
      · have := hbounds n hmem
        omega
      · have := hbounds' n hmem
        omega
  · rw [hcore.inst d₁.kinst hle₁ (by omega) fun hmem => ?_, htail.next htop]
    rcases List.mem_append.1 hmem with hmem | hmem
    · have := hbounds _ hmem
      omega
    · have := hbounds' _ hmem
      omega
  · exact (Nat.sub_le _ _).trans_lt (hrest.entryOf_le.trans_lt hfits.2)
  · rw [← hlz, ← hkinst₂]
    refine hlays core lp hin₂ (hbelow.sub (by omega) le_rfl fun n hn hge hlt => ?_) fun n hn => ?_
    · rcases List.mem_append.1 hn with hn | hn
      · rcases List.mem_cons.1 hn with rfl | hmem
        · omega
        · have := hout hfits n hmem
          omega
      · rcases List.mem_append.1 hn with hmem | hmem
        · exact hmem
        · have := hbounds' n hmem
          omega
    · exact hleaves n (List.mem_append_left _ hn)

/-- The jump at the end of a body is reserved, and the one of the condition in front of
the body filled in. -/
structure Draft.Opens (d d' : Draft) (jnxt : Nat) : Prop where
  more : d.Fills [jnxt] d'
  level : d.Level d'
  kinst : d'.kinst = d.kinst + 1
  next : jnxt < d.kinst → d'.blk.inst[jnxt]? =
    some (asmBuild Opcode.jne.code Flag.forward (BitVec.ofNat 16 (d.kinst + 1 - jnxt)))

theorem after_holdJout (jout : List Nat) (d : Draft) :
    After (holdJout jout : ParseM σ (List Nat)) d fun jout' d' =>
      jout' = jout ++ [d.kinst % 2 ^ 16] ∧ d.Adds d' .panic 0 0 := by
  refine .ite (fun _ => .throw_bind _) fun _ => .bind (after_ymkHold d) fun i d' ⟨hi, hadds⟩ => .pure ?_
  rw [hi]
  exact ⟨rfl, hadds⟩

theorem Draft.Adds.opens {d d₁ : Draft} (hadds : d.Adds d₁ .panic 0 0) (jnxt : Nat) :
    d.Opens (d₁.patch jnxt (asmBuild Opcode.jne.code Flag.forward (BitVec.ofNat 16 (d₁.kinst - jnxt)))) jnxt where
  more := Draft.Fills.trans hadds.more (Draft.fills_patch d₁ jnxt _)
  level := hadds.level.trans (Draft.level_patch d₁ jnxt _)
  kinst := (Draft.kinst_patch d₁ jnxt _).trans hadds.kinst
  next := by
    intro hlt
    rw [← hadds.kinst]
    exact List.getElem?_set_self (hlt.trans_le hadds.more.le)

/-- What is open in front of a chain: jumps out of bodies, and behind them the jump of the
last condition. -/
def Draft.Waits (d : Draft) (jnxt : Nat) (jout : List Nat) : Prop := jnxt < d.kinst ∧ ∀ n ∈ jout, n < jnxt

/-- The end of a chain without branches: all that waits goes on behind it. -/
theorem Draft.tailed_noElse {d d' : Draft} {jnxt : Nat} {jout : List Nat}
    (hd' : d' = (Draft.filled .jmp jout.reverse d).patch jnxt
      (asmBuild Opcode.jne.code Flag.forward (BitVec.ofNat 16 ((Draft.filled .jmp jout.reverse d).kinst - jnxt))))
    (hwaits : d.kinst < 2 ^ 16 → d.Waits jnxt jout) : d.Tailed d' jnxt jout .noElse := by
  have hfilled := Draft.fills_filled .jmp jout.reverse d
  have hlevel := Draft.level_filled .jmp jout.reverse d
  have hkinst := Draft.kinst_filled .jmp jout.reverse d
  have hpatch := Draft.fills_patch (Draft.filled .jmp jout.reverse d) jnxt
    (asmBuild Opcode.jne.code Flag.forward (BitVec.ofNat 16 ((Draft.filled .jmp jout.reverse d).kinst - jnxt)))
  have hkinst' : d'.kinst = d.kinst := by rw [hd', Draft.kinst_patch, hkinst]
  replace hwaits : d.Fits d' → d.Waits jnxt jout := fun hfits => hwaits (hkinst'.ge.trans_lt hfits.2)
  refine ⟨⟨(hfilled.trans (hd' ▸ hpatch)).mono fun _ n hn _ => ?_, ?_, [], ?_, fun _ => rfl,
    fun _ => ⟨by simp, ?_⟩⟩, ?_, ?_⟩
  · rcases List.mem_append.1 hn with hmem | hmem
    · exact List.mem_cons_of_mem _ (List.mem_reverse.1 hmem)
    · rw [List.mem_singleton.1 hmem]
      exact List.mem_cons_self
  · rw [hd', (Draft.level_patch _ _ _).lz, hlevel.lz]
    rfl
  · rw [hd', (Draft.level_patch _ _ _).loop, hlevel.loop, addBreaks_nil]
  · intro core lp _ _ _
    rw [hkinst']
    exact .noElse
  · intro hfits
    rw [hd']
    refine (List.getElem?_set_self ?_).trans ?_
    · exact (hwaits hfits).1.trans_le hkinst.ge
    · rw [hkinst]
      rfl
  · intro hfits n hn
    have hlt := (hwaits hfits).2 n hn
    rw [hkinst', hd']
    refine (List.getElem?_set_ne (Nat.ne_of_gt hlt)).trans ?_
    exact Draft.filled_of_mem (List.mem_reverse.2 hn) (hlt.trans (hwaits hfits).1)

/-- The last branch: the jumps out of the bodies go on behind it. -/
theorem Draft.Opens.else' {d d₂ d₃ d' : Draft} {jnxt k : Nat} {jout : List Nat} {body : Tree .block}
    (hopens : d.Opens d₂ jnxt) (hk : k = d.kinst % 2 ^ 16) (hbody : d₂.Written d₃ body.scope (.code body))
    (hd' : d' = Draft.filled .jmp (jout ++ [k]).reverse d₃) (hwaits : d.kinst < 2 ^ 16 → d.Waits jnxt jout) :
    d.Tailed d' jnxt jout (.else' body) := by
  have hfilled : d₃.Fills (jout ++ [k]).reverse d' := hd' ▸ Draft.fills_filled .jmp _ d₃
  have hkinst : d'.kinst = d₃.kinst := by rw [hd', Draft.kinst_filled]
  have hlevel : d₃.Level d' := hd' ▸ Draft.level_filled .jmp _ d₃
  have hmore₃ := hopens.more.trans hbody.more
  have hkinst₂ : d₂.kinst = d.kinst + 1 := hopens.kinst
  have hle : d₂.kinst ≤ d₃.kinst := hbody.more.le
  replace hwaits : d.Fits d' → d.Waits jnxt jout := fun hfits =>
    hwaits ((hmore₃.le.trans hfilled.le).trans_lt hfits.2)
  have hmem : ∀ n, n ∈ (jout ++ [k]).reverse ↔ n ∈ jout ∨ n = k := by
    intro n
    rw [List.mem_reverse, List.mem_append, List.mem_singleton]
  have hpos : d.Fits d' → k = d.kinst := fun hfits => by
    have hlt := hfits.2
    omega
  -- the jumps that wait are in front of the body
  have hfront : d.Fits d' → ∀ n ∈ (jout ++ [k]).reverse, n < d₂.kinst := by
    intro hfits n hn
    obtain ⟨hlt, hbelow⟩ := hwaits hfits
    rcases (hmem n).1 hn with hn | rfl
    · exact (hbelow n hn).trans (hlt.trans (by omega))
    · have := hpos hfits
      omega
  have hout : d.Fits d' → ∀ n ∈ (jout ++ [k]).reverse, d'.blk.inst[n]? =
      some (asmBuild Opcode.jmp.code Flag.forward (BitVec.ofNat 16 (d'.kinst - n))) := by
    intro hfits n hn
    rw [hkinst, hd']
    exact Draft.filled_of_mem hn ((hfront hfits n hn).trans_le hle)
  have hkept : d.Fits d' → ∀ n, n ∉ (jout ++ [k]).reverse → d'.blk.inst[n]? = d₃.blk.inst[n]? := by
    intro _ n hn
    rw [hd']
    exact Draft.filled_of_not_mem hn
  obtain ⟨holes, hloop, hnone, hcode⟩ := hbody.code
  refine ⟨⟨(hmore₃.trans hfilled).mono fun hfits n hn hlt => ?_, ?_, holes, ?_, fun hempty => ?_,
    fun hfits => ?_⟩, ?_, ?_⟩
  · rcases List.mem_append.1 hn with hn | hn
    · rw [List.mem_singleton.1 (show n ∈ [jnxt] from by simpa using hn)]
      exact List.mem_cons_self
    · rcases (hmem n).1 hn with hn | rfl
      · exact List.mem_cons_of_mem _ hn
      · exact absurd hlt (hpos hfits ▸ Nat.lt_irrefl _)
  · rw [hlevel.lz, hbody.lz, hopens.level.lz]
    rfl
  · rw [hlevel.loop, hloop, hopens.level.loop]
  · exact hnone (hopens.level.loop.trans hempty)
  · have hfits₃ := (hfits.left hfilled).right hopens.more hbody.more
    obtain ⟨hbounds, hlays⟩ := hcode hfits₃
    refine ⟨fun n hn => ?_, fun core lp hin hcore hleaves => ?_⟩
    · have := hbounds n hn
      omega
    have hinst : core.Has d.kinst .jmp Flag.forward (d'.kinst - d.kinst) := by
      refine ⟨?_, (Nat.sub_le _ _).trans_lt hfits.2⟩
      rw [hcore.inst d.kinst le_rfl (by omega) fun hn => ?_]
      · exact hout hfits d.kinst ((hmem _).2 (.inr (hpos hfits).symm))
      · have := hbounds _ hn
        omega
    refine .else' hinst ?_
    have hinner := hlays core lp ?_ ⟨fun n hin' hlt hno => ?_, ?_⟩ hleaves
    · rwa [hopens.level.lz, hkinst₂, ← hkinst] at hinner
    · rwa [Draft.In, hopens.level.loop]
    · rw [hcore.inst n (by omega) (by omega) hno]
      exact hkept hfits n fun hn => Nat.not_lt.2 hin' (hfront hfits n hn)
    · exact (hfilled.kval (hfits.right hmore₃ hfilled)).trans hcore.kval
  · intro hfits
    obtain ⟨hlt, hbelow⟩ := hwaits hfits
    rw [hkept hfits jnxt fun hn => ?_]
    · rw [hbody.more.inst ((hfits.left hfilled).right hopens.more hbody.more) jnxt (by omega) List.not_mem_nil]
      exact hopens.next hlt
    · rcases (hmem jnxt).1 hn with hn | heq
      · exact Nat.lt_irrefl _ (hbelow jnxt hn)
      · have := hpos hfits
        omega
  · exact fun hfits n hn => hout hfits n ((hmem n).2 (.inl hn))

/-- A branch more: the jump at the end of the body in front of it goes on behind the chain. -/
theorem Draft.Opens.elif {d d₂ d₆ : Draft} {jnxt k : Nat} {jout : List Nat} {cond : Tree .expr}
    {body : Tree .block} {rest : Tree .elifs} (hopens : d.Opens d₂ jnxt) (hk : k = d.kinst % 2 ^ 16)
    (hbranch : Draft.Completes (jout ++ [k]) d₂ d₆ (fun names => rest.scope (body.scope names))
      (.branch cond body rest))
    (houts : d₂.Fits d₆ → ∀ n ∈ jout ++ [k], d₆.blk.inst[n]? =
      some (asmBuild Opcode.jmp.code Flag.forward (BitVec.ofNat 16 (d₆.kinst - n))))
    (hwaits : d.kinst < 2 ^ 16 → d.Waits jnxt jout) : d.Tailed d₆ jnxt jout (.elif cond body rest) := by
  have hkinst₂ : d₂.kinst = d.kinst + 1 := hopens.kinst
  have hle : d₂.kinst ≤ d₆.kinst := hbranch.more.le
  replace hwaits : d.Fits d₆ → d.Waits jnxt jout := fun hfits =>
    hwaits ((hopens.more.trans hbranch.more).le.trans_lt hfits.2)
  have hpos : d.Fits d₆ → k = d.kinst := fun hfits => by
    have hlt := hfits.2
    omega
  obtain ⟨holes, hloop, hnone, hcode⟩ := hbranch.code
  refine ⟨⟨(hopens.more.trans hbranch.more).mono fun hfits n hn hlt => ?_, ?_, holes, ?_, fun hempty => ?_,
    fun hfits => ?_⟩, ?_, ?_⟩
  · rcases List.mem_append.1 hn with hn | hn
    · rw [List.mem_singleton.1 hn]
      exact List.mem_cons_self
    · rcases List.mem_append.1 hn with hn | hn
      · exact List.mem_cons_of_mem _ hn
      · rw [List.mem_singleton.1 hn, hpos hfits] at hlt
        exact absurd hlt (Nat.lt_irrefl _)
  · rw [hbranch.lz, hopens.level.lz]
    rfl
  · rw [hloop, hopens.level.loop]
  · exact hnone (hopens.level.loop.trans hempty)
  · have hfits₂ := hfits.right hopens.more hbranch.more
    obtain ⟨hbounds, hlays⟩ := hcode hfits₂
    refine ⟨fun n hn => ?_, fun core lp hin hcore hleaves => ?_⟩
    · have := hbounds n hn
      omega
    obtain ⟨j, m, hcond, hinst, hbody, hrest⟩ := hlays core lp (by rwa [Draft.In, hopens.level.loop])
      (hcore.sub (by omega) le_rfl fun n hn _ _ => hn) hleaves
    rw [hkinst₂] at hcond
    rw [hopens.level.lz] at hcond hbody hrest
    refine .elif ⟨?_, (Nat.sub_le _ _).trans_lt hfits.2⟩ hcond hinst hbody hrest
    rw [hcore.inst d.kinst le_rfl (by omega) fun hn => ?_]
    · refine houts hfits₂ d.kinst (List.mem_append_right _ ?_)
      rw [hpos hfits]
      exact List.mem_singleton_self _
    · have := hbounds _ hn
      omega
  · intro hfits
    obtain ⟨hlt, hbelow⟩ := hwaits hfits
    rw [hbranch.more.inst (hfits.right hopens.more hbranch.more) jnxt (by omega) fun hn => ?_]
    · exact hopens.next hlt
    · rcases List.mem_append.1 hn with hn | hn
      · exact Nat.lt_irrefl _ (hbelow jnxt hn)
      · rw [List.mem_singleton.1 hn, hpos hfits] at hlt
        exact Nat.lt_irrefl _ hlt
  · exact fun hfits n hn => houts (hfits.right hopens.more hbranch.more) n (List.mem_append_left _ hn)

theorem after_elifs (hr : r.Writes) (fuel jnxt : Nat) (jout : List Nat) (nsub : Nat) (d : Draft) :
    After (elifs src r fuel jnxt jout nsub) d fun t d' => t.plain = true → t.hasElse = true ∨ nsub = 0 →
      (d.kinst < 2 ^ 16 → d.Waits jnxt jout) → d.Tailed d' jnxt jout t := by
  induction fuel generalizing jnxt jout nsub d with
  | zero => exact .throw _
  | succ fuel ih =>
      refine .idle idle_ymcPeek fun token => ?_
      split
      -- `elif`
      · refine .idle (idle_ymcNext src) fun _ => .bind (after_holdJout jout d) fun jout' d₁ ⟨hjout, hadds⟩ => ?_
        refine .bind (after_ymkHackJmp jnxt .jne d₁) fun _ d₂ hd₂ => .bind (hr.expr 0 d₂) fun x d₃ hcond => ?_
        refine .bind (after_ymkHold d₃) fun j d₄ ⟨hj, hhold⟩ => .bind (after_parseBlock hr d₄) fun body d₅ hbody => ?_
        refine .bind (ih j jout' (nsub + 1) d₅) fun rest d₆ htail => .pure fun hplain _ hwaits => ?_
        subst hd₂ hjout
        obtain ⟨hfirst, helse⟩ := (Bool.and_eq_true _ _).mp hplain
        obtain ⟨hfirst, hrestplain⟩ := (Bool.and_eq_true _ _).mp hfirst
        obtain ⟨hcondplain, hbodyplain⟩ := (Bool.and_eq_true _ _).mp hfirst
        have hopens := hadds.opens jnxt
        have hcompiled := hcond hcondplain
        have hwritten := hbody hbodyplain
        have hlt₂ : d.kinst + 1 ≤ d₃.kinst := hopens.kinst.ge.trans hcompiled.more.le
        have hlt₅ : d₃.kinst + 1 ≤ d₅.kinst := hhold.kinst.ge.trans hwritten.more.le
        have hj' : d₅.kinst < 2 ^ 16 → j = d₃.kinst := fun hlt => by omega
        have hjout : d.kinst < 2 ^ 16 → ∀ n ∈ jout ++ [d.kinst % 2 ^ 16], n < d.kinst + 1 := by
          intro hlt n hn
          obtain ⟨hjnxt, hbelow⟩ := hwaits hlt
          rcases List.mem_append.1 hn with hn | hn
          · exact Nat.lt_succ_of_lt ((hbelow n hn).trans hjnxt)
          · rw [List.mem_singleton.1 hn]
            exact Nat.lt_succ_of_le (Nat.mod_le _ _)
        have hchain := htail hrestplain (.inl helse) fun hlt =>
          ⟨by omega, fun n hn => (hjout (by omega) n hn).trans_le (by omega)⟩
        have hle := hchain.code.more.le
        refine hopens.elif rfl (hchain.branch hcompiled hhold hj hwritten fun hfits n hn => ?_) ?_ hwaits
        · rw [hopens.kinst]
          have := hfits.2
          exact hjout (by omega) n hn
        · have hmore := (hcompiled.more.trans hhold.more).trans hwritten.more
          exact fun hfits => hchain.outs (hfits.right hmore hchain.code.more)
      -- `else`
      · refine .idle (idle_ymcNext src) fun _ => .bind (after_holdJout jout d) fun jout' d₁ ⟨hjout, hadds⟩ => ?_
        refine .bind (after_ymkHackJmp jnxt .jne d₁) fun _ d₂ hd₂ => .bind (after_parseBlock hr d₂) fun body d₃ hbody => ?_
        refine .bind (after_fillJout jout'.reverse d₃) fun _ d₄ hd₄ => .pure fun hplain _ hwaits => ?_
        subst hd₂ hd₄ hjout
        exact (hadds.opens jnxt).else' rfl (hbody hplain) rfl hwaits
      -- neither: without branches the jump over the body is still to be filled in
      · refine .bind (after_fillJout jout.reverse d) fun _ d₁ hd₁ => .ite (fun hnone => ?_) fun hsome => ?_
        · refine .bind (after_ymkHackJmp jnxt .jne d₁) fun _ d₂ hd₂ => .pure fun _ _ hwaits => ?_
          subst hd₁ hd₂
          exact Draft.tailed_noElse rfl hwaits
        · refine .pure fun _ helse => ?_
          exact absurd helse (not_or.2 ⟨Bool.false_ne_true, hsome⟩)

theorem after_parseIf (hr : r.Writes) (d : Draft) :
    After (parseIf src r) d fun t d' => t.plain = true → d.Written d' t.scope (.code t) := by
  refine .idle (idle_ymcNext src) fun _ => .bind (hr.expr 0 d) fun x d₁ hcond => ?_
  refine .bind (after_ymkHold d₁) fun j d₂ ⟨hj, hhold⟩ => .bind (after_parseBlock hr d₂) fun body d₃ hbody => ?_
  refine .bind (after_elifs hr r.fuel j [] 0 d₃) fun rest d₄ htail => .pure fun hplain => ?_
  obtain ⟨hfirst, hrestplain⟩ := (Bool.and_eq_true _ _).mp hplain
  obtain ⟨hcondplain, hbodyplain⟩ := (Bool.and_eq_true _ _).mp hfirst
  have hwritten := hbody hbodyplain
  have hchain := htail hrestplain (.inr rfl) ?_
  · refine (Draft.Tailed.branch (hcond hcondplain) hhold hj hwritten hchain (by simp)).mono ?_
    rintro core lp i n ⟨k, m, hcode, hjump, hlays, hrest⟩
    exact .if' hcode hjump hlays hrest
  · intro hfits
    refine ⟨?_, by simp⟩
    have := hhold.kinst
    have := hwritten.more.le
    omega

theorem after_parseStmt (hr : r.Writes) (d : Draft) :
    After (parseStmt src r) d fun t d' => t.plain = true → d.Written d' t.scope (.code t) := by
  refine .idle idle_ymcPeek fun token => ?_
  split
  · exact .idle (idle_ymcNext src) fun _ => .pure fun _ => .empty (fun _ _ _ _ => .empty) d
  · exact after_parseIf hr d
  · exact .pure fun _ => .empty (fun _ _ _ _ => .empty) d
  · exact after_parseFor hr d
  · exact after_parseFunc false d
  · exact after_parseLocal hr.expr d
  · exact after_parseReturn hr.expr d
  · exact after_parseBreak d
  · exact after_parseContinue d
  · exact after_parseExprStat hr.expr d

/-- Parsing a statement leaves code for it. -/
theorem writes_parsing (depth : Nat) : (parser src depth).Writes := by
  induction depth with
  | zero => exact ⟨emits_parsing 0, fun _ => .throw _⟩
  | succ depth ih => exact ⟨emits_parsing (depth + 1), after_parseStmt ih⟩

/-- A script is read to its end. -/
theorem after_topStmts (hr : r.Writes) (fuel : Nat) (d : Draft) :
    After (topStmts r fuel) d fun t d' => t.plain = true → d.Written d' t.scope (.code t) := by
  induction fuel generalizing d with
  | zero => exact .throw _
  | succ fuel ih =>
      refine .idle idle_ymcPeek fun token => .ite (fun _ => .pure fun _ => ?_) fun _ => ?_
      · exact .empty (fun _ _ _ _ => .done) d
      · refine .bind (hr.stmt d) fun s d₁ hs => .bind (ih d₁) fun rest d₂ hrest => .pure fun hplain => ?_
        obtain ⟨hsplain, hrestplain⟩ := (Bool.and_eq_true _ _).mp hplain
        refine ((hs hsplain).followed (hrest hrestplain)).mono ?_
        rintro core lp i k ⟨j, hfirst, hsecond⟩
        exact .stmt hfirst hsecond

end

end Ymd
