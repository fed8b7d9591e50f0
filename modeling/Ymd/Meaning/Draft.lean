import Ymd.Code.Constants
import Ymd.Code.Locals
import Ymd.Compiler.Parse
import Ymd.Meaning.Code

/-! # Code under construction

The part of the parser that code goes to, and what stays of it while more code is
added. Positions have 16 bits and the tables start again when their counters wrap:
what is said about the contents is said below these bounds.
-/

namespace Ymd

open Foundation

/-- The top chunk, and the loops it is in. -/
structure Draft where
  blk : Chunk
  loop : List LoopInfo

/-- The chunk agrees with another one from `i` up to `j`, and has its constants. -/
structure Chunk.Holds (core blk : Chunk) (i j : Nat) : Prop where
  inst : ∀ n, i ≤ n → n < j → core.inst[n]? = blk.inst[n]?
  kval : blk.kval <+: core.kval

theorem Chunk.Holds.mono {core blk : Chunk} {i j i' j' : Nat} (h : core.Holds blk i j) (hi : i ≤ i')
    (hj : j' ≤ j) : core.Holds blk i' j' :=
  ⟨fun n hin hnj => h.inst n (hi.trans hin) (hnj.trans_le hj), h.kval⟩

namespace Draft

def kinst (d : Draft) : Nat := d.blk.kinst

/-- There are not more constants than instructions. -/
def Small (d : Draft) : Prop := d.blk.kkval ≤ d.kinst ∧ d.blk.klz < 2 ^ 16

/-- No counter wraps up to there. -/
def Fits (d d' : Draft) : Prop := d.Small ∧ d'.kinst < 2 ^ 16

/-- There is code behind the code that was there, in which these instructions may have
been filled in. -/
structure Fills (holes : List Nat) (d d' : Draft) : Prop where
  le : d.kinst ≤ d'.kinst
  inst : d.Fits d' → ∀ n < d.kinst, n ∉ holes → d'.blk.inst[n]? = d.blk.inst[n]?
  kval : d.Fits d' → d.blk.kval <+: d'.blk.kval
  small : d.Fits d' → d'.Small

/-- There is code behind the code that was there. -/
abbrev Extends (d d' : Draft) : Prop := Fills [] d d'

/-- The scope and the loops are the same. -/
structure Level (d d' : Draft) : Prop where
  lz : d'.blk.lz = d.blk.lz
  loop : d'.loop = d.loop

/-- There is one instruction more. -/
structure Adds (d d' : Draft) (op : Opcode) (flag : BitVec 8) (k : Nat) : Prop where
  more : d.Extends d'
  level : d.Level d'
  inst : d'.blk.inst = d.blk.inst ++ [asmBuild op.code flag (BitVec.ofNat 16 k)]

section

variable {d d' d'' : Draft} {core : Chunk} {i j m k : Nat} {op : Opcode}
  {flag : BitVec 8} {holes holes' : List Nat}

/-! ## Extensions -/

theorem Fits.left (hfits : d.Fits d'') (h : d'.Fills holes d'') : d.Fits d' :=
  ⟨hfits.1, h.le.trans_lt hfits.2⟩

theorem Fits.right (hfits : d.Fits d'') (h : d.Fills holes d') (h' : d'.Fills holes' d'') : d'.Fits d'' :=
  ⟨h.small (hfits.left h'), hfits.2⟩

theorem Fills.refl (d : Draft) : d.Fills holes d where
  le := le_rfl
  inst := fun _ _ _ _ => rfl
  kval := fun _ => List.prefix_rfl
  small := fun hfits => hfits.1

theorem Fills.trans (h : d.Fills holes d') (h' : d'.Fills holes' d'') : d.Fills (holes ++ holes') d'' where
  le := h.le.trans h'.le
  inst := by
    intro hfits n hn hno
    obtain ⟨hfirst, hsecond⟩ := not_or.1 (mt List.mem_append.2 hno)
    rw [h'.inst (hfits.right h h') n (hn.trans_le h.le) hsecond, h.inst (hfits.left h') n hn hfirst]
  kval := fun hfits => (h.kval (hfits.left h')).trans (h'.kval (hfits.right h h'))
  small := fun hfits => h'.small (hfits.right h h')

/-- Only instructions that were there before count. -/
theorem Fills.mono (h : d.Fills holes d')
    (hsub : d.Fits d' → ∀ n ∈ holes, n < d.kinst → n ∈ holes') : d.Fills holes' d' :=
  ⟨h.le, fun hfits n hn hno => h.inst hfits n hn fun hmem => hno (hsub hfits n hmem hn), h.kval, h.small⟩

theorem Extends.trans (h : d.Extends d') (h' : d'.Extends d'') : d.Extends d'' := Fills.trans h h'

theorem Level.refl (d : Draft) : d.Level d := ⟨rfl, rfl⟩

theorem Level.trans (h : d.Level d') (h' : d'.Level d'') : d.Level d'' :=
  ⟨h'.lz.trans h.lz, h'.loop.trans h.loop⟩

theorem Level.findLz (h : d.Level d') : d'.blk.findLz = d.blk.findLz := by
  funext name
  rw [Chunk.findLz, h.lz]
  rfl

/-- A chunk that has the code has what was there before. -/
theorem Extends.holds (h : d.Extends d') (hfits : d.Fits d') (hcore : core.Holds d'.blk i m)
    (hj : j ≤ d.kinst) (hm : j ≤ m) : core.Holds d.blk i j where
  inst := by
    intro n hin hnj
    rw [hcore.inst n hin (hnj.trans_le hm), h.inst hfits n (hnj.trans_le hj) List.not_mem_nil]
  kval := (h.kval hfits).trans hcore.kval

/-! ## One instruction -/

theorem Adds.kinst (h : d.Adds d' op flag k) : d'.kinst = d.kinst + 1 := by
  change d'.blk.inst.length = _
  rw [h.inst, List.length_append]
  rfl

/-- A chunk that has the code has the instruction. -/
theorem Adds.has (h : d.Adds d' op flag k) (hk : k < 2 ^ 16) (hcore : core.Holds d'.blk i j)
    (hi : i ≤ d.kinst) (hj : d.kinst < j) : core.Has d.kinst op flag k where
  inst := by
    rw [hcore.inst d.kinst hi hj, h.inst]
    exact List.getElem?_concat_length
  fits := hk

/-- An instruction, and what has to be there for the constant of its operand. -/
theorem adds_of_inst (hinst : d'.blk.inst = d.blk.inst ++ [asmBuild op.code flag (BitVec.ofNat 16 k)])
    (hlz : d'.blk.lz = d.blk.lz) (hloop : d'.loop = d.loop)
    (hkval : d.Fits d' → d.blk.kval <+: d'.blk.kval ∧ d'.blk.kkval ≤ d.blk.kkval + 1) :
    d.Adds d' op flag k := by
  refine ⟨?_, ⟨hlz, hloop⟩, hinst⟩
  have hlen : d'.kinst = d.kinst + 1 := by
    change d'.blk.inst.length = _
    rw [hinst, List.length_append]
    rfl
  refine ⟨?_, fun _ n hn _ => ?_, fun hfits => (hkval hfits).1, fun hfits => ⟨?_, ?_⟩⟩
  · rw [hlen]
    exact Nat.le_succ _
  · rw [hinst, List.getElem?_append_left hn]
  · rw [hlen]
    exact (hkval hfits).2.trans (Nat.succ_le_succ hfits.1.1)
  · rw [Chunk.klz, hlz]
    exact hfits.1.2

end

end Draft

/-! ## Computations of the parser -/

section

variable {σ α β : Type} {x : ParseM σ α} {f : α → ParseM σ β} {d d' : Draft} {post : β → Draft → Prop}
  {mid : α → Draft → Prop} {op : Opcode} {flag : BitVec 8}

def Parser.draft (p : Parser σ) : Draft := ⟨p.blk, p.loop⟩

/-- A computation that succeeds in front of this draft has the property. -/
def After (x : ParseM σ α) (d : Draft) (post : α → Draft → Prop) : Prop :=
  ∀ p a p', p.draft = d → x p = .ok a p' → post a p'.draft

/-- A computation that has nothing to do with the draft. -/
def Idle (x : ParseM σ α) : Prop := ∀ p a p', x p = .ok a p' → p'.draft = p.draft

namespace After

theorem pure {b : β} (h : post b d) : After (pure b : ParseM σ β) d post := by
  rintro p b' p' rfl hrun
  obtain ⟨rfl, rfl⟩ := pure_ok_iff.1 hrun
  exact h

theorem throw (e : Abort) : After (throw e : ParseM σ β) d post := fun _ _ _ _ hrun => nomatch hrun

theorem throw_bind (e : Abort) : After ((MonadExcept.throw e : ParseM σ α) >>= f) d post := by
  intro p b p' _ hrun
  obtain ⟨a, p₁, hthrow, -⟩ := bind_ok_iff.1 hrun
  cases hthrow

theorem bind (hx : After x d mid) (hf : ∀ a d', mid a d' → After (f a) d' post) :
    After (x >>= f) d post := by
  rintro p b p' rfl hrun
  obtain ⟨a, p₁, hfirst, hrest⟩ := bind_ok_iff.1 hrun
  exact hf a p₁.draft (hx p a p₁ rfl hfirst) p₁ b p' rfl hrest

theorem mono {post' : β → Draft → Prop} {y : ParseM σ β} (hy : After y d post)
    (himp : ∀ b d', post b d' → post' b d') : After y d post' :=
  fun p b p' hp hrun => himp b _ (hy p b p' hp hrun)

theorem any : After x d fun _ _ => True := fun _ _ _ _ _ => trivial

theorem ite {c : Prop} [Decidable c] {y z : ParseM σ β} (hy : c → After y d post)
    (hz : ¬ c → After z d post) : After (if c then y else z) d post := by
  by_cases hc : c
  · rw [if_pos hc]
    exact hy hc
  · rw [if_neg hc]
    exact hz hc

theorem get {f : Parser σ → ParseM σ β} (hf : ∀ p, p.draft = d → After (f p) d post) :
    After (MonadState.get >>= f) d post := by
  intro p b p' hp hrun
  rw [bind_of_ok (get_apply p)] at hrun
  exact hf p hp p b p' hp hrun

theorem assert {c : Prop} [Decidable c] {text : String} {f : Unit → ParseM σ β}
    (hf : c → After (f ()) d post) : After (Ymd.assert c text >>= f) d post := by
  unfold Ymd.assert
  by_cases hc : c
  · rw [if_pos hc, pure_bind]
    exact hf hc
  · rw [if_neg hc]
    exact .throw_bind _

theorem idle (hx : Idle x) (hf : ∀ a, After (f a) d post) : After (x >>= f) d post := by
  rintro p b p' rfl hrun
  obtain ⟨a, p₁, hfirst, hrest⟩ := bind_ok_iff.1 hrun
  exact hf a p₁ b p' (hx p a p₁ hfirst) hrest

end After

namespace Idle

theorem pure (a : α) : Idle (pure a : ParseM σ α) := by
  intro p a' p' hrun
  rw [(pure_ok_iff.1 hrun).2]

theorem throw (e : Abort) : Idle (throw e : ParseM σ α) := fun _ _ _ hrun => nomatch hrun

theorem bind (hx : Idle x) (hf : ∀ a, Idle (f a)) : Idle (x >>= f) := by
  intro p b p' hrun
  obtain ⟨a, p₁, hfirst, hrest⟩ := bind_ok_iff.1 hrun
  exact (hf a p₁ b p' hrest).trans (hx p a p₁ hfirst)

theorem get {f : Parser σ → ParseM σ β} (hf : ∀ p, Idle (f p)) : Idle (MonadState.get >>= f) := by
  intro p b p' hrun
  rw [bind_of_ok (get_apply p)] at hrun
  exact hf p p b p' hrun

theorem ite {c : Prop} [Decidable c] {y z : ParseM σ α} (hy : Idle y) (hz : Idle z) :
    Idle (if c then y else z) := by
  split
  · exact hy
  · exact hz

end Idle

variable (src : Source σ)

theorem idle_ymcNext : Idle (ymcNext src) := by
  intro p u p' hrun
  rw [ymcNext_apply] at hrun
  split at hrun
  · cases hrun
    rfl
  · cases hrun

theorem idle_ymcPeek : Idle (ymcPeek : ParseM σ Token) := .get fun _ => .pure _

theorem idle_ymcTest (token : Token) : Idle (ymcTest src token) :=
  .bind idle_ymcPeek fun _ => .ite (.bind (idle_ymcNext src) fun _ => .pure _) (.pure _)

theorem idle_ymcMatch (need : Token) : Idle (ymcMatch src need) :=
  .bind idle_ymcPeek fun _ => .ite (.bind (.throw _) fun _ => idle_ymcNext src) (idle_ymcNext src)

theorem idle_ymkSymbol : Idle (ymkSymbol src) :=
  .bind idle_ymcPeek fun _ => .ite (.bind (.throw _) fun _ => .get fun _ =>
    .bind (idle_ymcNext src) fun _ => .pure _) (.get fun _ => .bind (idle_ymcNext src) fun _ => .pure _)

/-! ## Emission of one instruction -/

theorem after_onBlk {g : Chunk → Chunk × α} {mid : α → Draft → Prop}
    (h : mid (g d.blk).2 ⟨(g d.blk).1, d.loop⟩) : After (onBlk g : ParseM σ α) d mid := by
  rintro p a p' rfl hrun
  cases hrun
  exact h

theorem after_ymkEmitOfP (k : Nat) :
    After (ymkEmitOfP op flag k : ParseM σ Unit) d fun _ d' => d.Adds d' op flag k := by
  refine after_onBlk (Draft.adds_of_inst rfl rfl rfl fun _ => ⟨List.prefix_rfl, Nat.le_succ _⟩)

/-- The constant is where the call says, behind the ones that were there. -/
theorem Chunk.ConstCall.run_entry {core : Chunk} {call : Chunk.ConstCall} (hvalid : call.Valid)
    (hroom : core.kkval + 1 < 2 ^ 16) :
    core.kval <+: (call.run core).1.kval ∧ (call.run core).1.kkval ≤ core.kkval + 1 ∧
      (call.run core).1.kval[(call.run core).2]? = some call.constant := by
  have hcases := Chunk.internK_cases hroom call.same call.constant
  rw [← Chunk.ConstCall.run_eq] at hcases
  unfold Chunk.kkval
  rcases hcases with ⟨hsame, w, hw, hfound⟩ | ⟨hadds, hlast, -⟩
  · rw [hsame, hw, Chunk.ConstCall.eq_of_same hvalid hfound]
    exact ⟨List.prefix_rfl, Nat.le_succ _, rfl⟩
  · rw [hadds, hlast, List.length_append]
    exact ⟨List.prefix_append _ _, le_rfl, List.getElem?_concat_length⟩

/-- An instruction whose operand is a constant. -/
def Draft.AddsConst (d d' : Draft) (op : Opcode) (flag : BitVec 8) (v : Variable) : Prop :=
  ∃ k, d.Adds d' op flag k ∧ (d.Fits d' → k < 2 ^ 16 ∧ d'.blk.kval[k]? = some v)

theorem after_constant {call : Chunk.ConstCall} (hvalid : call.Valid) :
    After (onBlk (fun core => call.run core) >>= fun k => (ymkEmitOfP op flag k : ParseM σ Unit)) d
      fun _ d' => d.AddsConst d' op flag call.constant := by
  rintro p u p' rfl hrun
  cases hrun
  have hinst : (call.run p.blk).1.inst = p.blk.inst := by
    rw [Chunk.ConstCall.run_eq, Chunk.inst_internK]
  have hlz : (call.run p.blk).1.lz = p.blk.lz := by
    rw [Chunk.ConstCall.run_eq, Chunk.lz_internK]
  have hkinst : ((call.run p.blk).1.emit (asmBuild op.code flag
      (BitVec.ofNat 16 (call.run p.blk).2))).kinst = p.blk.kinst + 1 := by
    rw [Chunk.kinst, Chunk.emit, hinst, List.length_append]
    rfl
  -- the constant comes with an instruction, so that there is room for it
  have hroom : ∀ d', d'.blk = (call.run p.blk).1.emit (asmBuild op.code flag
      (BitVec.ofNat 16 (call.run p.blk).2)) → p.draft.Fits d' → p.blk.kkval + 1 < 2 ^ 16 := by
    intro d' hd' hfits
    have hlt := hfits.2
    have hle : p.blk.kkval ≤ p.blk.kinst := hfits.1.1
    rw [Draft.kinst, hd', hkinst] at hlt
    omega
  refine ⟨(call.run p.blk).2, Draft.adds_of_inst ?_ hlz rfl fun hfits => ?_, fun hfits => ?_⟩
  · change (call.run p.blk).1.inst ++ _ = _
    rw [hinst]
    rfl
  · obtain ⟨hkept, hle, -⟩ := Chunk.ConstCall.run_entry hvalid (hroom _ rfl hfits)
    exact ⟨hkept, hle⟩
  · obtain ⟨-, hle, hentry⟩ := Chunk.ConstCall.run_entry hvalid (hroom _ rfl hfits)
    refine ⟨?_, hentry⟩
    have hlt := (List.getElem?_eq_some_iff.1 hentry).1
    have hle' : p.blk.kkval ≤ p.blk.kinst := hfits.1.1
    have hbound := hfits.2
    change (Chunk.emit _ _).kinst < _ at hbound
    rw [hkinst] at hbound
    exact (hlt.trans_le hle).trans_le (by omega)

theorem after_ymkEmitInt (imm : YmdInt) :
    After (ymkEmitInt imm : ParseM σ Unit) d fun _ d' => d.AddsConst d' .push Flag.kval (.int imm) :=
  @after_constant σ d .push Flag.kval (.ki imm) trivial

theorem after_kz (name : Bytes) :
    After (onBlk (fun core => core.kz name (-1)) >>= fun k => (ymkEmitOfP op flag k : ParseM σ Unit)) d
      fun _ d' => d.AddsConst d' op flag (.kstr (Chunk.kstrFetch name (-1))) :=
  @after_constant σ d op flag (.kz name (-1)) (.inl rfl)

theorem after_ymkEmitKz (raw : Bytes) :
    After (ymkEmitKz raw : ParseM σ Unit) d fun _ d' =>
      ∃ z, stresc raw = some z ∧ d.AddsConst d' .push Flag.kval (.kstr z) := by
  unfold ymkEmitKz
  cases hraw : stresc raw with
  | none => exact .throw _
  | some z =>
      have hfetch : Chunk.kstrFetch z z.length = z := by
        rw [Chunk.kstrFetch, if_neg (Int.not_lt.2 (Int.natCast_nonneg _)), Int.toNat_natCast,
          List.take_length]
      refine (@after_constant σ d .push Flag.kval (.kz z z.length)
        (.inr ⟨Int.natCast_nonneg _, le_rfl⟩)).mono fun _ d' h => ⟨z, rfl, ?_⟩
      rw [Chunk.ConstCall.constant, hfetch] at h
      exact h

/-- An instruction that names a variable. -/
def Draft.AddsVariable (d d' : Draft) (op : Opcode) (name : Bytes) : Prop :=
  (∃ k, d.blk.findLz name = some k ∧ d.Adds d' op Flag.loc k) ∨
    d.blk.findLz name = none ∧ d.AddsConst d' op Flag.off (.kstr (Chunk.kstrFetch name (-1)))

theorem after_ymkEmitPush (name : Bytes) :
    After (ymkEmitPush name : ParseM σ Unit) d fun _ d' => d.AddsVariable d' .push name := by
  refine .get fun p hp => ?_
  subst hp
  cases hfind : p.blk.findLz name with
  | none => exact (after_kz name).mono fun _ d' h => .inr ⟨hfind, h⟩
  | some k => exact (after_ymkEmitOfP k).mono fun _ d' h => .inl ⟨k, hfind, h⟩

theorem after_ymkEmitStore (name : Bytes) :
    After (ymkEmitStore name : ParseM σ Unit) d fun _ d' => d.AddsVariable d' .store name := by
  refine .get fun p hp => ?_
  subst hp
  cases hfind : p.blk.findLz name with
  | none => exact (after_kz name).mono fun _ d' h => .inr ⟨hfind, h⟩
  | some k => exact (after_ymkEmitOfP k).mono fun _ d' h => .inl ⟨k, hfind, h⟩

end

end Ymd
