import Ymd.Code.Locals
import Ymd.Compiler.Hooks

/-! # Relations between two parsers

A relation between computations that sequencing keeps, and that holds of what the
parser does to its state, holds of every production once it holds of the hooks.
-/

namespace Ymd

variable {σ τ : Type}

/-- What a production looks at. -/
structure SameView (src : Source σ) (src' : Source τ) (p : Parser σ) (q : Parser τ) : Prop where
  lah : p.lah = q.lah
  blk : p.blk = q.blk
  loop : p.loop = q.loop
  line : src.line p.lex = src'.line q.lex

/-- An operation on a chunk that takes no code away. -/
def Grows {α : Type} (f : Chunk → Chunk × α) : Prop := ∀ core, core.kinst ≤ (f core).1.kinst

/-- What a relation needs for the code that is added. -/
structure Coding (src : Source σ) (src' : Source τ)
    (R : ∀ {α : Type}, ParseM σ α → ParseM τ α → Prop) : Prop where
  pure {α : Type} (a : α) : R (pure a) (pure a)
  bind {α β : Type} {x : ParseM σ α} {y : ParseM τ α} {f : α → ParseM σ β} {g : α → ParseM τ β} :
    R x y → (∀ a, R (f a) (g a)) → R (x >>= f) (y >>= g)
  fail {α : Type} (msg : String) : R (throw (.fail msg) : ParseM σ α) (throw (.fail msg))
  get {α : Type} {f : Parser σ → ParseM σ α} {g : Parser τ → ParseM τ α} :
    (∀ p q, SameView src src' p q → R (f p) (g q)) → R (MonadState.get >>= f) (MonadState.get >>= g)
  onBlk {α : Type} (f : Chunk → Chunk × α) : Grows f → R (onBlk f) (onBlk f)

/-- And for the code that is changed. -/
structure Emitting (src : Source σ) (src' : Source τ)
    (R : ∀ {α : Type}, ParseM σ α → ParseM τ α → Prop) : Prop extends Coding src src' R where
  assertion {α : Type} (text : String) :
    R (throw (.fault (.assertion text)) : ParseM σ α) (throw (.fault (.assertion text)))

/-- What it needs for the productions without jumps and functions of their own. -/
structure Productions (src : Source σ) (src' : Source τ) (h : Hooks σ) (h' : Hooks τ)
    (R : ∀ {α : Type}, ParseM σ α → ParseM τ α → Prop) : Prop extends Coding src src' R where
  fuel {α : Type} : R (throw .fuel : ParseM σ α) (throw .fuel)
  next : R (ymcNext src) (ymcNext src')
  closing (t : Token) : R (h.closing t) (h'.closing t)
  name (z : Bytes) : R (h.name z) (h'.name z)

/-- What it needs for everything but the pieces of an `if` and of a loop. -/
structure Congruence (src : Source σ) (src' : Source τ) (h : Hooks σ) (h' : Hooks τ)
    (R : ∀ {α : Type}, ParseM σ α → ParseM τ α → Prop) : Prop extends Emitting src src' R,
    Productions src src' h h' R where
  holdBreak : R h.holdBreak h'.holdBreak
  retry : R h.retry h'.retry
  site (s : Site) : R (h.site s) (h'.site s)
  scope (name : Bytes) {b : ParseM σ (List Bytes × Chunk)} {b' : ParseM τ (List Bytes × Chunk)}
    (desc : List Bytes → FuncDeclDesc) {x : ParseM σ (List Bytes × Tree .block)}
    {x' : ParseM τ (List Bytes × Tree .block)} :
    R b b' → R x x' → R (h.funcScope name b desc x) (h'.funcScope name b' desc x')

/-- The pieces of an `if` and of a loop are related one by one. -/
structure Pieces (h : Hooks σ) (h' : Hooks τ) (R : ∀ {α : Type}, ParseM σ α → ParseM τ α → Prop) :
    Prop where
  branch (jout : List Nat) : R (h.branch jout) (h'.branch jout)
  mark (m : Mark) : R (h.mark m) (h'.mark m)
  onLoop (f : LoopInfo → LoopInfo) : R (onLoop f) (onLoop f)
  freshIter : R Hooks.freshIter Hooks.freshIter
  loopEnter : R ymkLoopEnter ymkLoopEnter
  loopLeave : R ymkLoopLeave ymkLoopLeave

theorem xtoll_error {raw : Bytes} {f : Fault} (h : xtoll raw = .error f) :
    ∃ text, f = .assertion text := by
  unfold xtoll at h
  split at h
  · split at h
    · exact ⟨_, (Except.error.inj h).symm⟩
    · split at h
      · exact ⟨_, (Except.error.inj h).symm⟩
      · cases h
  · exact ⟨_, (Except.error.inj h).symm⟩

/-- Two bounds on the rounds of a loop: the same one, or a larger one where nothing
is said about a computation that runs out of rounds. -/
def Fuels (R : ∀ {α : Type}, ParseM σ α → ParseM τ α → Prop) (n n' : Nat) : Prop :=
  n = n' ∨ n ≤ n' ∧ ∀ {α : Type} (y : ParseM τ α), R (throw .fuel) y

/-- The recursive calls are related. -/
structure Related (R : ∀ {α : Type}, ParseM σ α → ParseM τ α → Prop) (r : Rec σ) (r' : Rec τ) :
    Prop where
  expr : ∀ limit, R (r.expr limit) (r'.expr limit)
  block : ∀ {n n'}, Fuels R n n' → R (blockStmts r n) (blockStmts r' n')
  fuel : Fuels R r.fuel r'.fuel

/-- An induction over the rounds of two loops. -/
theorem Fuels.rounds {R : ∀ {α : Type}, ParseM σ α → ParseM τ α → Prop} {motive : Nat → Nat → Prop}
    {n n' : Nat} (hn : Fuels R n n') (zero : motive 0 0)
    (out : ∀ n', (∀ {α : Type} (y : ParseM τ α), R (throw .fuel) y) → motive 0 n')
    (succ : ∀ n n', Fuels R n n' → motive n n' → motive (n + 1) (n' + 1)) : motive n n' := by
  induction n generalizing n' with
  | zero =>
      rcases hn with rfl | ⟨-, hout⟩
      · exact zero
      · exact out n' hout
  | succ n ih =>
      rcases hn with rfl | ⟨hle, hout⟩
      · exact succ n n (.inl rfl) (ih (.inl rfl))
      · cases n' with
        | zero => exact absurd hle (Nat.not_succ_le_zero n)
        | succ n' =>
            have hn : Fuels R n n' := .inr ⟨Nat.le_of_succ_le_succ hle, hout⟩
            exact succ n n' hn (ih hn)

/-! ## The code -/

theorem grows_emit (inst : Inst) : Grows fun core => (core.emit inst, ()) := fun core => by
  simp [Chunk.kinst, Chunk.emit]

theorem grows_internK {same : Chunk → Variable → Bool} {v : Chunk → Variable} :
    Grows fun core => core.internK (same core) (v core) :=
  fun core => (congrArg List.length (core.inst_internK _ _)).ge

theorem grows_addLz (z : Bytes) : Grows fun core => core.addLz z := fun core => by
  dsimp only [Chunk.addLz]
  split <;> exact le_rfl

theorem grows_setInst (i : Nat) (inst : Inst) : Grows fun core => (core.setInst i inst, ()) :=
  fun _ => (List.length_set ..).ge


namespace Coding

section

variable {src : Source σ} {src' : Source τ} {R : ∀ {α : Type}, ParseM σ α → ParseM τ α → Prop}
  (hR : Coding src src' R)

theorem branch {α : Type} {c : Prop} [Decidable c] {x y : ParseM σ α} {x' y' : ParseM τ α}
    (hx : R x x') (hy : R y y') : R (if c then x else y) (if c then x' else y') := by
  by_cases hc : c
  · rw [if_pos hc, if_pos hc]
    exact hx
  · rw [if_neg hc, if_neg hc]
    exact hy

include hR

theorem peek : R (ymcPeek : ParseM σ Token) ymcPeek :=
  hR.get fun p q hpq => by
    rw [hpq.lah]
    exact hR.pure _

theorem emit (op : Opcode) (flag : BitVec 8) (param : Nat) :
    R (ymkEmitOfP op flag param) (ymkEmitOfP op flag param) :=
  hR.onBlk _ (grows_emit _)

theorem emitCall (op : Opcode) (aret argc method : Nat) :
    R (ymkEmitCall op aret argc method) (ymkEmitCall op aret argc method) :=
  hR.onBlk _ (grows_emit _)

theorem ipos : R (ymkIpos : ParseM σ Nat) ymkIpos :=
  hR.get fun p q hpq => by
    rw [hpq.blk]
    exact hR.pure _

theorem hold : R (ymkHold : ParseM σ Nat) ymkHold :=
  hR.bind hR.ipos fun _ => hR.bind (hR.emit _ _ _) fun _ => hR.pure _

theorem kf (fn : Addr) : R (Ymd.onBlk fun core => core.kf fn) (Ymd.onBlk fun core => core.kf fn) :=
  hR.onBlk _ grows_internK

theorem kargs (k : Nat) : R (Ymd.onBlk fun core => ({ core with kargs := k }, ()))
    (Ymd.onBlk fun core => ({ core with kargs := k }, ())) :=
  hR.onBlk _ fun _ => le_rfl

theorem reserved : R (ymkChunkReserved : ParseM σ Unit) ymkChunkReserved :=
  hR.onBlk _ fun core => grows_addLz _ core

theorem emitInt (imm : YmdInt) : R (ymkEmitInt imm) (ymkEmitInt imm) :=
  hR.bind (hR.onBlk _ grows_internK) fun _ => hR.emit _ _ _

theorem emitKz (raw : Bytes) : R (ymkEmitKz raw) (ymkEmitKz raw) := by
  unfold ymkEmitKz
  cases stresc raw with
  | none => exact hR.fail _
  | some priv => exact hR.bind (hR.onBlk _ grows_internK) fun _ => hR.emit _ _ _

theorem emitStore (symbol : Bytes) : R (ymkEmitStore symbol) (ymkEmitStore symbol) := by
  refine hR.get fun p q hpq => ?_
  rw [hpq.blk]
  cases q.blk.findLz symbol with
  | none => exact hR.bind (hR.onBlk _ grows_internK) fun _ => hR.emit _ _ _
  | some i => exact hR.emit _ _ _

theorem emitPush (symbol : Bytes) : R (ymkEmitPush symbol) (ymkEmitPush symbol) := by
  refine hR.get fun p q hpq => ?_
  rw [hpq.blk]
  cases q.blk.findLz symbol with
  | none => exact hR.bind (hR.onBlk _ grows_internK) fun _ => hR.emit _ _ _
  | some i => exact hR.emit _ _ _

theorem emitPushz (symbol : Bytes) : R (ymkEmitPushz symbol) (ymkEmitPushz symbol) :=
  hR.bind (hR.onBlk _ grows_internK) fun _ => hR.emit _ _ _

theorem newLocvar (symbol : Bytes) : R (ymkNewLocvar symbol) (ymkNewLocvar symbol) := by
  refine hR.bind (hR.onBlk _ (grows_addLz _)) fun i => ?_
  cases i with
  | none => exact hR.fail _
  | some i => exact hR.pure i

theorem emitEnd : R (ymkEmitEnd : ParseM σ Unit) ymkEmitEnd :=
  hR.get fun p q hpq => by
    rw [hpq.blk]
    exact branch (hR.emit _ _ _) (hR.pure _)

theorem emitBind (symbol : Bytes) (core : Chunk) :
    R (ymkEmitBind symbol core) (ymkEmitBind symbol core) := by
  unfold ymkEmitBind
  rcases core.addLz symbol with ⟨core', _ | i⟩
  · exact hR.fail _
  · exact hR.bind (hR.emitPush symbol) fun _ => hR.pure _

theorem emitSetf (symbol : Bytes) : R (ymkEmitSetf symbol) (ymkEmitSetf symbol) :=
  hR.bind (hR.onBlk _ grows_internK) fun _ => hR.emit _ _ _

theorem emitGetf (symbol : Bytes) : R (ymkEmitGetf symbol) (ymkEmitGetf symbol) :=
  hR.bind (hR.onBlk _ grows_internK) fun _ => hR.emit _ _ _

theorem emitSelfcall (adjust argc : Nat) (method : Bytes) :
    R (ymkEmitSelfcall adjust argc method) (ymkEmitSelfcall adjust argc method) :=
  hR.bind (hR.onBlk _ grows_internK) fun _ => hR.emitCall _ _ _ _

theorem unary (op : UnaryOp) : R (ymkUnary op : ParseM σ Unit) (ymkUnary op) := by
  cases op <;> exact hR.emit _ _ _

theorem holdLogc (op : BinaryOp) : R (ymkHoldLogc op : ParseM σ Nat) (ymkHoldLogc op) := by
  cases op <;> first
    | exact hR.hold
    | exact hR.pure _

theorem lvalPartial (lv : Tree .lval) :
    R (ymkLvalPartial lv : ParseM σ Unit) (ymkLvalPartial lv) := by
  cases lv with
  | lsym name => exact hR.emitPush name
  | lindex lv i => exact hR.emit _ _ _
  | lfield lv name => exact hR.emitGetf name
  | lcall lv args => exact hR.pure _
  | lselfcall lv method args => exact hR.pure _

theorem lvalFinish (lv : Tree .lval) : R (ymkLvalFinish lv : ParseM σ Unit) (ymkLvalFinish lv) := by
  cases lv with
  | lsym name => exact hR.emitStore name
  | lindex lv i => exact hR.emit _ _ _
  | lfield lv name => exact hR.emitSetf name
  | lcall lv args => exact hR.fail _
  | lselfcall lv method args => exact hR.fail _

end

end Coding

namespace Emitting

open Coding (branch)

section

variable {src : Source σ} {src' : Source τ} {R : ∀ {α : Type}, ParseM σ α → ParseM τ α → Prop}
  (hR : Emitting src src' R)

include hR

theorem assert (cond : Prop) [Decidable cond] (text : String) :
    R (Ymd.assert cond text : ParseM σ Unit) (Ymd.assert cond text) :=
  branch (hR.pure _) (hR.assertion _)

theorem emitJmp (target : Nat) : R (ymkEmitJmp target) (ymkEmitJmp target) :=
  hR.get fun p q hpq => by
    rw [hpq.blk]
    exact hR.bind (hR.assert _ _) fun _ => hR.emit _ _ _

theorem hack (i : Nat) (inst : Inst) : R (ymkHack i inst) (ymkHack i inst) :=
  hR.get fun p q hpq => by
    rw [hpq.blk]
    exact hR.bind (hR.assert _ _) fun _ => hR.onBlk _ (grows_setInst i inst)

theorem hackJmp (i : Nat) (op : Opcode) : R (ymkHackJmp i op) (ymkHackJmp i op) :=
  hR.get fun p q hpq => by
    rw [hpq.blk]
    exact hR.bind (hR.assert _ _) fun _ => hR.hack _ _

theorem fillJout (jout : List Nat) : R (Ymd.fillJout jout : ParseM σ Unit) (Ymd.fillJout jout) := by
  induction jout with
  | nil => exact hR.pure ()
  | cons i rest ih => exact hR.bind (hR.hackJmp i _) fun _ => ih

theorem fillBreaks (iCurr : Nat) (jmt : List Nat) :
    R (Ymd.fillBreaks iCurr jmt : ParseM σ Unit) (Ymd.fillBreaks iCurr jmt) := by
  induction jmt with
  | nil => exact hR.pure ()
  | cons iJpt rest ih =>
      exact hR.bind (hR.assert _ _) fun _ => hR.bind (hR.hackJmp _ _) fun _ => ih

theorem binary (op : BinaryOp) (i : Nat) : R (ymkBinary op i : ParseM σ Unit) (ymkBinary op i) := by
  cases op <;> first
    | exact hR.hackJmp _ _
    | exact hR.emit _ _ _

end

end Emitting

namespace Productions

open Coding (branch)

section

variable {src : Source σ} {src' : Source τ} {h : Hooks σ} {h' : Hooks τ}
  {R : ∀ {α : Type}, ParseM σ α → ParseM τ α → Prop} (hR : Productions src src' h h' R)

include hR

/-! ## Tokens -/

theorem test (token : Token) : R (ymcTest src token) (ymcTest src' token) :=
  hR.bind hR.peek fun _ => branch (hR.bind hR.next fun _ => hR.pure _) (hR.pure _)

theorem matching (need : Token) : R (ymcMatch src need) (ymcMatch src' need) :=
  hR.bind hR.peek fun _ => branch (hR.bind (hR.fail _) fun _ => hR.next) hR.next

theorem symbol : R (ymkSymbol src) (ymkSymbol src') := by
  have hrest : ∀ x y, SameView src src' x y → R (do
      let literal := x.lah.text
      ymcNext src
      return literal) (do
      let literal := y.lah.text
      ymcNext src'
      return literal) := fun p q hpq => by
    rw [hpq.lah]
    exact hR.bind hR.next fun _ => hR.pure _
  exact hR.bind hR.peek fun _ => branch (hR.bind (hR.fail _) fun _ => hR.get hrest) (hR.get hrest)

/-! ## Expressions -/

section

variable {r : Rec σ} {r' : Rec τ} (hr : Related R r r')

section

include hr

theorem arrayElems {n n' : Nat} (hn : Fuels R n n') :
    R (Ymd.arrayElems src r n) (Ymd.arrayElems src' r' n') := by
  refine hn.rounds (motive := fun n n' =>
    R (Ymd.arrayElems src r n) (Ymd.arrayElems src' r' n')) hR.fuel (fun n' hout => hout _)
    fun n n' _ ih => ?_
  refine hR.bind hR.peek fun _ => branch (hR.pure _) (hR.bind (hr.expr 0) fun e => ?_)
  exact hR.bind (hR.test _) fun _ => branch (hR.bind ih fun _ => hR.pure _) (hR.pure _)

theorem parseArray : R (Ymd.parseArray src r) (Ymd.parseArray src' r') := by
  refine hR.bind (hR.matching _) fun _ => hR.bind (hR.arrayElems hr hr.fuel) fun elems => ?_
  exact hR.bind (hR.emit _ _ _) fun _ => hR.pure _

theorem mapKey : R (Ymd.mapKey src r) (Ymd.mapKey src' r') := by
  refine hR.bind hR.peek fun token => ?_
  split
  · refine hR.bind hR.symbol fun name => hR.bind (hR.emitPushz name) fun _ => ?_
    exact hR.bind (hR.matching _) fun _ => hR.pure _
  · refine hR.get fun p q hpq => ?_
    rw [hpq.lah]
    refine hR.bind (hR.emitKz _) fun _ => hR.bind hR.next fun _ => ?_
    exact hR.bind (hR.matching _) fun _ => hR.pure _
  · refine hR.bind (hR.matching _) fun _ => hR.bind (hr.expr 0) fun k => ?_
    exact hR.bind (hR.matching _) fun _ => hR.bind (hR.matching _) fun _ => hR.pure _

theorem mapEntries {n n' : Nat} (hn : Fuels R n n') :
    R (Ymd.mapEntries src r n) (Ymd.mapEntries src' r' n') := by
  refine hn.rounds (motive := fun n n' =>
    R (Ymd.mapEntries src r n) (Ymd.mapEntries src' r' n')) hR.fuel (fun n' hout => hout _)
    fun n n' _ ih => ?_
  refine hR.bind hR.peek fun _ => branch (hR.pure _) (hR.bind (hR.mapKey hr) fun k => ?_)
  refine hR.bind (hr.expr 0) fun v => hR.bind (hR.test _) fun _ => ?_
  exact branch (hR.bind ih fun _ => hR.pure _) (hR.pure _)

theorem parseMap (ord : Bool) : R (Ymd.parseMap src r ord) (Ymd.parseMap src' r' ord) := by
  refine hR.bind (hR.matching _) fun _ => hR.bind (hR.mapEntries hr hr.fuel) fun elems => ?_
  exact hR.bind (hR.emit _ _ _) fun _ => hR.pure _

theorem parseArgs {n n' : Nat} (hn : Fuels R n n') :
    R (Ymd.parseArgs src r n) (Ymd.parseArgs src' r' n') := by
  refine hn.rounds (motive := fun n n' =>
    R (Ymd.parseArgs src r n) (Ymd.parseArgs src' r' n')) hR.fuel (fun n' hout => hout _)
    fun n n' _ ih => ?_
  refine hR.bind (hr.expr 0) fun e => hR.bind (hR.test _) fun _ => ?_
  exact branch (hR.bind ih fun _ => hR.pure _) (hR.pure _)

theorem callArgs : R (Ymd.callArgs src r) (Ymd.callArgs src' r') := by
  refine hR.bind hR.peek fun token => ?_
  split
  · refine hR.bind hR.next fun _ => hR.bind hR.peek fun _ => branch ?_ ?_
    · exact hR.bind hR.next fun _ => hR.pure _
    · refine hR.bind (hR.parseArgs hr hr.fuel) fun args => ?_
      exact hR.bind (hR.matching _) fun _ => hR.pure _
  · refine hR.get fun p q hpq => ?_
    rw [hpq.lah]
    exact hR.bind (hR.emitKz _) fun _ => hR.bind hR.next fun _ => hR.pure _
  · exact hR.fail _

theorem parseCallargs (adjust : Nat) (method : Option Bytes) :
    R (Ymd.parseCallargs src r adjust method) (Ymd.parseCallargs src' r' adjust method) := by
  refine hR.bind (hR.callArgs hr) fun args => ?_
  cases method with
  | none => exact hR.bind (hR.emitCall _ _ _ _) fun _ => hR.pure _
  | some method => exact hR.bind (hR.emitSelfcall _ _ _) fun _ => hR.pure _

theorem parsePrimary : R (Ymd.parsePrimary src r) (Ymd.parsePrimary src' r') := by
  refine hR.bind hR.peek fun token => ?_
  split
  · refine hR.bind hR.next fun _ => hR.bind (hr.expr 0) fun e => ?_
    exact hR.bind (hR.matching _) fun _ => hR.pure _
  · refine hR.bind hR.symbol fun name => ?_
    exact hR.bind (hR.emitPush name) fun _ => hR.pure _
  · exact hR.fail _

theorem suffixes {n n' : Nat} (hn : Fuels R n n') (e : Tree .expr) :
    R (Ymd.suffixes src r n e) (Ymd.suffixes src' r' n' e) := by
  refine hn.rounds (motive := fun n n' => ∀ e,
    R (Ymd.suffixes src r n e) (Ymd.suffixes src' r' n' e)) (fun _ => hR.fuel)
    (fun n' hout _ => hout _) (fun n n' _ ih e => ?_) e
  refine hR.bind hR.peek fun token => ?_
  split
  · refine hR.bind hR.next fun _ => hR.bind hR.symbol fun name => ?_
    exact hR.bind (hR.emitGetf name) fun _ => ih _
  · refine hR.bind hR.next fun _ => hR.bind (hr.expr 0) fun i => ?_
    exact hR.bind (hR.matching _) fun _ => hR.bind (hR.emit _ _ _) fun _ => ih _
  · refine hR.bind hR.next fun _ => hR.bind hR.symbol fun method => ?_
    exact hR.bind (hR.parseCallargs hr _ _) fun args => ih _
  · exact hR.bind (hR.parseCallargs hr _ _) fun args => ih _
  · exact hR.bind (hR.parseCallargs hr _ _) fun args => ih _
  · exact hR.pure _

theorem parseSuffixed : R (Ymd.parseSuffixed src r) (Ymd.parseSuffixed src' r') :=
  hR.bind (hR.parsePrimary hr) fun e => hR.suffixes hr hr.fuel e

end

/-! ## Functions -/

theorem bindNames {n n' : Nat} (hn : Fuels R n n') (core : Chunk) :
    R (Ymd.bindNames src n core) (Ymd.bindNames src' n' core) := by
  refine hn.rounds (motive := fun n n' => ∀ core,
    R (Ymd.bindNames src n core) (Ymd.bindNames src' n' core)) (fun _ => hR.fuel)
    (fun n' hout _ => hout _) (fun n n' _ ih core => ?_) core
  refine hR.bind hR.peek fun token => ?_
  split
  · exact hR.pure _
  · refine hR.bind hR.symbol fun name => hR.bind (hR.emitBind name core) fun core => ?_
    exact hR.bind (hR.test _) fun _ => branch (hR.bind (ih _) fun _ => hR.pure _) (hR.pure _)
  · exact hR.fail _

theorem paramNames {n n' : Nat} (hn : Fuels R n n') :
    R (Ymd.paramNames src n) (Ymd.paramNames src' n') := by
  refine hn.rounds (motive := fun n n' =>
    R (Ymd.paramNames src n) (Ymd.paramNames src' n')) hR.fuel (fun n' hout => hout _)
    fun n n' _ ih => ?_
  refine hR.bind hR.peek fun token => ?_
  split
  · exact hR.pure _
  · refine hR.bind hR.symbol fun name => hR.bind (hR.newLocvar name) fun _ => ?_
    exact hR.bind (hR.test _) fun _ => branch (hR.bind ih fun _ => hR.pure _) (hR.pure _)
  · exact hR.fail _

theorem declPath {n n' : Nat} (hn : Fuels R n n') (last : Option Bytes) (name : Bytes) :
    R (h.declPath src n last name) (h'.declPath src' n' last name) := by
  refine hn.rounds (motive := fun n n' => ∀ last name,
    R (h.declPath src n last name) (h'.declPath src' n' last name)) (fun _ _ => hR.fuel)
    (fun n' hout _ _ => hout _) (fun n n' _ ih last name => ?_) last name
  rcases last with _ | last
  case' some => refine hR.bind (hR.emitGetf last) fun _ => ?_
  all_goals
    refine hR.bind (hR.matching _) fun _ => hR.bind hR.symbol fun next => ?_
    refine hR.bind (hR.bind (hR.name _) fun _ => hR.pure _) fun name => ?_
    refine hR.bind hR.peek fun _ => branch (hR.pure _) ?_
    exact hR.bind (ih _ _) fun _ => hR.pure _

include hr

theorem parseBind (core : Chunk) : R (Ymd.parseBind src r core) (Ymd.parseBind src' r' core) := by
  refine hR.bind hR.next fun _ => hR.bind (hR.bindNames hr.fuel core) fun x => ?_
  refine hR.bind (hR.matching _) fun _ => branch (hR.bind (hR.fail _) fun _ => ?_) ?_
  · exact hR.bind (hR.emit _ _ _) fun _ => hR.pure _
  · exact hR.bind (hR.emit _ _ _) fun _ => hR.pure _

theorem parseParams (method : Bool) :
    R (Ymd.parseParams src r method) (Ymd.parseParams src' r' method) := by
  have hrest : ∀ params : List Bytes → List Bytes, R (do
      let names ← Ymd.paramNames src r.fuel
      ymcMatch src .rparen
      Ymd.onBlk fun core => ({ core with kargs := (params names).length % 2 ^ 16 }, ())
      return params names) (do
      let names ← Ymd.paramNames src' r'.fuel
      ymcMatch src' .rparen
      Ymd.onBlk fun core => ({ core with kargs := (params names).length % 2 ^ 16 }, ())
      return params names) := fun params => by
    refine hR.bind (hR.paramNames hr.fuel) fun names => hR.bind (hR.matching _) fun _ => ?_
    exact hR.bind (hR.kargs _) fun _ => hR.pure _
  refine hR.bind (hR.matching _) fun _ => ?_
  cases method with
  | false => exact hrest id
  | true => exact hR.bind (hR.newLocvar _) fun _ => hrest (lit "self" :: ·)

theorem parseBlock : R (Ymd.parseBlock src r) (Ymd.parseBlock src' r') := by
  refine hR.bind (hR.matching _) fun _ => hR.bind (hr.block hr.fuel) fun body => ?_
  exact hR.bind hR.next fun _ => hR.pure _

theorem funcInner (method : Bool) :
    R (Hooks.funcInner src r method) (Hooks.funcInner src' r' method) := by
  refine hR.bind (hR.parseParams hr method) fun params => hR.bind hR.reserved fun _ => ?_
  exact hR.bind (hR.parseBlock hr) fun body => hR.bind hR.emitEnd fun _ => hR.pure _

theorem parseFuncDecl (first : Bytes) (isLocal : Bool) :
    R (h.parseFuncDecl src r first isLocal) (h'.parseFuncDecl src' r' first isLocal) := by
  refine hR.bind (hR.name first) fun _ => hR.bind hR.peek fun _ => branch ?_ ?_
  · refine hR.bind (hR.emitPush first) fun _ => hR.bind (hR.declPath hr.fuel _ _) fun x => ?_
    exact hR.bind hR.hold fun loadP => hR.bind (hR.emitSetf _) fun _ => hR.pure _
  · refine hR.bind hR.hold fun loadP => branch ?_ ?_
    · refine hR.bind (hR.newLocvar first) fun _ => ?_
      exact hR.bind (hR.emitStore first) fun _ => hR.pure _
    · exact hR.bind (hR.emitStore first) fun _ => hR.pure _

theorem closureBinds : R (Hooks.closureBinds src r) (Hooks.closureBinds src' r') :=
  hR.bind hR.peek fun _ => branch (hR.parseBind hr .zero) (hR.pure _)

/-! ## Operands -/

theorem parseSimple (hdec : ∀ raw, R (h.decLiteral raw) (h'.decLiteral raw))
    (hhex : ∀ raw, R (h.hexLiteral raw) (h'.hexLiteral raw))
    (hclosure : R (h.parseClosure src r) (h'.parseClosure src' r')) :
    R (h.parseSimple src r) (h'.parseSimple src' r') := by
  refine hR.bind hR.peek fun token => ?_
  split
  · exact hR.bind (hR.emit _ _ _) fun _ => hR.bind hR.next fun _ => hR.pure _
  · exact hR.bind (hR.emit _ _ _) fun _ => hR.bind hR.next fun _ => hR.pure _
  · exact hR.bind (hR.emit _ _ _) fun _ => hR.bind hR.next fun _ => hR.pure _
  · refine hR.get fun p q hpq => ?_
    rw [hpq.lah]
    exact hR.bind (hdec _) fun _ => hR.bind hR.next fun _ => hR.pure _
  · refine hR.get fun p q hpq => ?_
    rw [hpq.lah]
    exact hR.bind (hhex _) fun _ => hR.bind hR.next fun _ => hR.pure _
  · refine hR.get fun p q hpq => ?_
    rw [hpq.lah]
    exact hR.bind (hR.emitKz _) fun _ => hR.bind hR.next fun _ => hR.pure _
  · exact hR.bind (hR.parseMap hr _) fun e => hR.bind (hR.closing _) fun _ => hR.pure _
  · exact hR.bind (hR.parseMap hr _) fun e => hR.bind (hR.closing _) fun _ => hR.pure _
  · exact hR.bind (hR.parseArray hr) fun e => hR.bind (hR.closing _) fun _ => hR.pure _
  · exact hclosure
  · exact hR.parseSuffixed hr

theorem parseOperand (hsimple : R (h.parseSimple src r) (h'.parseSimple src' r')) :
    R (h.parseOperand src r) (h'.parseOperand src' r') := by
  refine hR.bind hR.peek fun token => ?_
  cases ymcUnaryOp token with
  | none => exact hsimple
  | some op =>
      refine hR.bind hR.next fun _ => hR.bind (hr.expr _) fun x => ?_
      exact hR.bind (hR.unary op) fun _ => hR.pure _

/-! ## Statements -/

theorem lvalSuffixes {n n' : Nat} (hn : Fuels R n n') (lv : Tree .lval) :
    R (Ymd.lvalSuffixes src r n lv) (Ymd.lvalSuffixes src' r' n' lv) := by
  refine hn.rounds (motive := fun n n' => ∀ lv,
    R (Ymd.lvalSuffixes src r n lv) (Ymd.lvalSuffixes src' r' n' lv)) (fun _ => hR.fuel)
    (fun n' hout _ => hout _) (fun n n' _ ih lv => ?_) lv
  refine hR.bind hR.peek fun token => ?_
  split
  · refine hR.bind (hR.lvalPartial lv) fun _ => hR.bind hR.next fun _ => ?_
    exact hR.bind hR.symbol fun name => ih _
  · refine hR.bind (hR.lvalPartial lv) fun _ => hR.bind hR.next fun _ => ?_
    exact hR.bind (hr.expr 0) fun i => hR.bind (hR.matching _) fun _ => ih _
  · refine hR.bind (hR.lvalPartial lv) fun _ => hR.bind hR.next fun _ => ?_
    exact hR.bind hR.symbol fun method => hR.bind (hR.parseCallargs hr _ _) fun args => ih _
  · exact hR.bind (hR.lvalPartial lv) fun _ => hR.bind (hR.parseCallargs hr _ _) fun args => ih _
  · exact hR.bind (hR.lvalPartial lv) fun _ => hR.bind (hR.parseCallargs hr _ _) fun args => ih _
  · exact hR.pure _

theorem parseLval : R (Ymd.parseLval src r) (Ymd.parseLval src' r') := by
  refine hR.bind hR.peek fun token => ?_
  split
  · exact hR.bind hR.symbol fun name => hR.lvalSuffixes hr hr.fuel _
  · exact hR.fail _

theorem parseExprStat : R (Ymd.parseExprStat src r) (Ymd.parseExprStat src' r') := by
  refine hR.bind (hR.parseLval hr) fun lv => hR.bind hR.peek fun _ => branch ?_ ?_
  · refine hR.bind hR.next fun _ => hR.bind (hr.expr 0) fun x => ?_
    exact hR.bind (hR.lvalFinish lv) fun _ => hR.pure _
  · exact branch (hR.pure _) (hR.fail _)

theorem parseReturn : R (Ymd.parseReturn src r) (Ymd.parseReturn src' r') := by
  refine hR.bind hR.next fun _ => hR.bind (hr.expr 0) fun x => ?_
  exact hR.bind (hR.emit _ _ _) fun _ => hR.pure _

theorem parseDecl : R (Ymd.parseDecl src r) (Ymd.parseDecl src' r') := by
  refine hR.bind hR.symbol fun name => hR.bind (hR.newLocvar name) fun i => ?_
  refine hR.bind hR.peek fun _ => branch (hR.pure _) (hR.bind hR.next fun _ => ?_)
  exact hR.bind (hr.expr 0) fun x => hR.bind (hR.emit _ _ _) fun _ => hR.pure _

theorem parseDecls {n n' : Nat} (hn : Fuels R n n') :
    R (Ymd.parseDecls src r n) (Ymd.parseDecls src' r' n') := by
  refine hn.rounds (motive := fun n n' =>
    R (Ymd.parseDecls src r n) (Ymd.parseDecls src' r' n')) hR.fuel (fun n' hout => hout _)
    fun n n' _ ih => ?_
  refine hR.bind (hR.parseDecl hr) fun put => hR.bind (hR.test _) fun _ => ?_
  exact branch (hR.bind ih fun _ => hR.pure _) (hR.pure _)

theorem parseLocal (hfunc : R (h.parseFunc src r true) (h'.parseFunc src' r' true)) :
    R (h.parseLocal src r) (h'.parseLocal src' r') := by
  refine hR.bind hR.next fun _ => hR.bind hR.peek fun _ => branch hfunc ?_
  exact hR.bind (hR.parseDecls hr hr.fuel) fun _ => hR.pure _

/-- The productions that a statement may be are given. -/
theorem parseStmt (hif : R (h.parseIf src r) (h'.parseIf src' r'))
    (hfor : R (h.parseFor src r) (h'.parseFor src' r'))
    (hfunc : ∀ isLocal, R (h.parseFunc src r isLocal) (h'.parseFunc src' r' isLocal))
    (hbreak : R (h.parseBreak src) (h'.parseBreak src'))
    (hcontinue : R (h.parseContinue src) (h'.parseContinue src')) :
    R (h.parseStmt src r) (h'.parseStmt src' r') := by
  refine hR.bind hR.peek fun token => ?_
  split
  · exact hR.bind hR.next fun _ => hR.pure _
  · exact hif
  · exact hR.pure _
  · exact hfor
  · exact hfunc false
  · exact hR.parseLocal hr (hfunc true)
  · exact hR.parseReturn hr
  · exact hbreak
  · exact hcontinue
  · exact hR.parseExprStat hr

end

/-! ## The parser -/

theorem blockStmts {r : Rec σ} {r' : Rec τ} (hstmt : R r.stmt r'.stmt) {n n' : Nat}
    (hn : Fuels R n n') : R (Ymd.blockStmts r n) (Ymd.blockStmts r' n') := by
  refine hn.rounds (motive := fun n n' => R (Ymd.blockStmts r n) (Ymd.blockStmts r' n')) hR.fuel
    (fun n' hout => hout _) fun n n' _ ih => ?_
  refine hR.bind hR.peek fun _ => branch (hR.pure _) (hR.bind hstmt fun s => ?_)
  exact hR.bind ih fun _ => hR.pure _

theorem topStmts {r : Rec σ} {r' : Rec τ} (hstmt : R r.stmt r'.stmt) {n n' : Nat}
    (hn : Fuels R n n') : R (Ymd.topStmts r n) (Ymd.topStmts r' n') := by
  refine hn.rounds (motive := fun n n' => R (Ymd.topStmts r n) (Ymd.topStmts r' n')) hR.fuel
    (fun n' hout => hout _) fun n n' _ ih => ?_
  refine hR.bind hR.peek fun _ => branch (hR.pure _) (hR.bind hstmt fun s => ?_)
  exact hR.bind ih fun _ => hR.pure _

/-- Two parsers are related where their expressions and statements are. -/
theorem parser
    (hexpr : ∀ {r r'}, Related R r r' → ∀ limit, R (h.parseExpr src r limit) (h'.parseExpr src' r' limit))
    (hstmt : ∀ {r r'}, Related R r r' →
      R (h.stmt >>= fun _ => h.parseStmt src r) (h'.stmt >>= fun _ => h'.parseStmt src' r'))
    {depth depth' : Nat} (hdepth : Fuels R depth depth') :
    Related R (h.parser src depth) (h'.parser src' depth') ∧
      R (h.parser src depth).stmt (h'.parser src' depth').stmt := by
  refine hdepth.rounds (motive := fun n n' => Related R (h.parser src n) (h'.parser src' n') ∧
    R (h.parser src n).stmt (h'.parser src' n').stmt) ?_ (fun n' hout => ?_) fun n n' hn ih => ?_
  · exact ⟨⟨fun _ => hR.fuel, hR.blockStmts hR.fuel, .inl rfl⟩, hR.fuel⟩
  · exact ⟨⟨fun _ => hout _, hR.blockStmts (hout _), .inr ⟨Nat.zero_le _, hout⟩⟩, hout _⟩
  · exact ⟨⟨hexpr ih.1, hR.blockStmts (hstmt ih.1), hn⟩, hstmt ih.1⟩

end

end Productions

namespace Congruence

open Coding (branch)

section

variable {src : Source σ} {src' : Source τ} {h : Hooks σ} {h' : Hooks τ}
  {R : ∀ {α : Type}, ParseM σ α → ParseM τ α → Prop} (hR : Congruence src src' h h' R)

include hR

section

variable {r : Rec σ} {r' : Rec τ} (hr : Related R r r')

include hr

theorem parseFunc (isLocal : Bool) :
    R (h.parseFunc src r isLocal) (h'.parseFunc src' r' isLocal) := by
  refine hR.bind hR.next fun _ => hR.bind hR.peek fun _ => ?_
  refine branch (hR.bind (hR.fail _) fun _ => ?_) ?_
  all_goals
    refine hR.bind hR.symbol fun first => hR.bind (hR.parseFuncDecl hr first isLocal) fun x => ?_
    refine hR.bind (hR.scope _ _ (hR.pure _) (hR.funcInner hr _)) fun y => ?_
    exact hR.pure _

theorem parseClosure : R (h.parseClosure src r) (h'.parseClosure src' r') := by
  refine hR.bind hR.next fun _ => hR.bind hR.hold fun loadP => hR.get fun p q hpq => ?_
  rw [hpq.line]
  refine hR.bind (hR.scope _ _ (hR.closureBinds hr) (hR.funcInner hr _)) fun x => ?_
  exact hR.pure _

/-! ## Operators -/

omit hr in
theorem decLiteral (raw : Bytes) : R (h.decLiteral raw) (h'.decLiteral raw) := by
  refine hR.bind (hR.site _) fun _ => ?_
  cases dtoll raw with
  | none => exact hR.assertion _
  | some imm => exact hR.emitInt imm

omit hr in
theorem hexLiteral (raw : Bytes) : R (h.hexLiteral raw) (h'.hexLiteral raw) := by
  refine hR.bind (hR.site _) fun _ => ?_
  cases hraw : xtoll raw with
  | error f =>
      obtain ⟨text, rfl⟩ := xtoll_error hraw
      exact hR.assertion _
  | ok imm =>
      cases imm with
      | none => exact hR.assertion _
      | some imm => exact hR.emitInt imm

theorem parseSimple : R (h.parseSimple src r) (h'.parseSimple src' r') :=
  hR.toProductions.parseSimple hr hR.decLiteral hR.hexLiteral (hR.parseClosure hr)

theorem binaries (limit : Nat) {n n' : Nat} (hn : Fuels R n n') (e : Tree .expr)
    (op : Option BinaryOp) :
    R (Ymd.binaries src r limit n e op) (Ymd.binaries src' r' limit n' e op) := by
  refine hn.rounds (motive := fun n n' => ∀ e op,
    R (Ymd.binaries src r limit n e op) (Ymd.binaries src' r' limit n' e op)) (fun _ _ => hR.fuel)
    (fun n' hout _ _ => hout _) (fun n n' _ ih e op => ?_) e op
  cases op with
  | none => exact hR.pure _
  | some op =>
      refine branch ?_ (hR.pure _)
      refine hR.bind hR.next fun _ => hR.bind (hR.holdLogc op) fun i => ?_
      exact hR.bind (hr.expr _) fun x => hR.bind (hR.binary op i) fun _ => ih _ _

theorem parseExpr (limit : Nat) : R (h.parseExpr src r limit) (h'.parseExpr src' r' limit) :=
  hR.bind (hR.parseOperand hr (hR.parseSimple hr)) fun e => hR.bind hR.peek fun _ =>
    hR.binaries hr limit hr.fuel e _

/-! ## Statements -/

/-- The branches of an `if`, where the hooks are related one by one. -/
theorem elifs (hp : Pieces h h' R) {n n' : Nat}
    (hn : Fuels R n n') (jnxt : Nat) (jout : List Nat) (nsub : Nat) :
    R (h.elifs src r n jnxt jout nsub) (h'.elifs src' r' n' jnxt jout nsub) := by
  refine hn.rounds (motive := fun n n' => ∀ jnxt jout nsub,
    R (h.elifs src r n jnxt jout nsub) (h'.elifs src' r' n' jnxt jout nsub)) (fun _ _ _ => hR.fuel)
    (fun n' hout _ _ _ => hout _) (fun n n' _ ih jnxt jout nsub => ?_) jnxt jout nsub
  have hjout : R (h.holdJout jout) (h'.holdJout jout) :=
    hR.bind (hp.branch jout) fun _ => hR.bind hR.hold fun _ => hR.pure _
  refine hR.bind hR.peek fun token => ?_
  split
  · refine hR.bind hR.next fun _ => hR.bind hjout fun jout => hR.bind (hR.hackJmp _ _) fun _ => ?_
    refine hR.bind (hr.expr 0) fun cond => hR.bind hR.hold fun jnxt => ?_
    exact hR.bind (hR.parseBlock hr) fun body => hR.bind (ih _ _ _) fun _ => hR.pure _
  · refine hR.bind hR.next fun _ => hR.bind hjout fun jout => hR.bind (hR.hackJmp _ _) fun _ => ?_
    exact hR.bind (hR.parseBlock hr) fun body => hR.bind (hR.fillJout _) fun _ => hR.pure _
  · refine hR.bind (hR.fillJout _) fun _ => branch ?_ (hR.pure _)
    exact hR.bind (hR.hackJmp _ _) fun _ => hR.pure _

theorem parseIf (hp : Pieces h h' R) : R (h.parseIf src r) (h'.parseIf src' r') := by
  refine hR.bind hR.next fun _ => hR.bind (hp.mark _) fun _ => hR.bind (hr.expr 0) fun cond => ?_
  refine hR.bind hR.hold fun jnxt => hR.bind (hR.parseBlock hr) fun body => ?_
  refine hR.bind (hR.elifs hr hp hr.fuel _ _ _) fun rest => ?_
  exact hR.bind (hp.mark _) fun _ => hR.pure _

omit hr in
theorem loopEnter (hp : Pieces h h' R) : R h.loopEnter h'.loopEnter :=
  hR.bind hp.loopEnter fun _ => hp.mark _

omit hr in
theorem loopLeave (hp : Pieces h h' R) : R h.loopLeave h'.loopLeave :=
  hR.bind (hR.site _) fun _ => hR.bind hp.loopLeave fun _ => hp.mark _

theorem parseIn (hp : Pieces h h' R) (tmp : Bytes) : R (h.parseIn src r tmp) (h'.parseIn src' r' tmp) := by
  refine hR.bind (hR.matching _) fun _ => hR.bind (hr.expr 0) fun x => ?_
  refine hR.bind hp.freshIter fun iter => hR.bind (hR.newLocvar iter) fun i => ?_
  refine hR.bind (hR.emit _ _ _) fun _ => hR.bind (hR.site _) fun _ => hR.bind hR.ipos fun retry => ?_
  refine hR.bind (hp.onLoop _) fun _ => hR.bind (hR.emitPush _) fun _ => ?_
  refine hR.bind (hR.emitCall _ _ _ _) fun _ => hR.bind hR.hold fun jcond => ?_
  refine hR.bind (hp.onLoop _) fun _ => hR.bind (hR.emitStore tmp) fun _ => ?_
  exact hR.bind (hR.parseBlock hr) fun body => hR.bind (hR.loopLeave hp) fun _ => hR.pure _

theorem parseFor (hp : Pieces h h' R) : R (h.parseFor src r) (h'.parseFor src' r') := by
  refine hR.bind hR.next fun _ => hR.bind (hR.loopEnter hp) fun _ => hR.bind hR.peek fun token => ?_
  split
  · refine hR.bind (hR.site _) fun _ => hR.bind hR.ipos fun retry => hR.bind (hp.onLoop _) fun _ => ?_
    exact hR.bind (hR.parseBlock hr) fun body => hR.bind (hR.loopLeave hp) fun _ => hR.pure _
  · refine hR.bind hR.next fun _ => hR.bind hR.symbol fun tmp => ?_
    exact hR.bind (hR.newLocvar tmp) fun _ => hR.parseIn hr hp tmp
  · exact hR.bind hR.symbol fun tmp => hR.parseIn hr hp tmp
  · exact hR.fail _

omit hr in
theorem parseBreak : R (h.parseBreak src) (h'.parseBreak src') :=
  hR.bind hR.holdBreak fun _ => hR.bind hR.next fun _ => hR.pure _

omit hr in
theorem parseContinue : R (h.parseContinue src) (h'.parseContinue src') := by
  refine hR.bind hR.retry fun target => ?_
  exact hR.bind (hR.emitJmp _) fun _ => hR.bind hR.next fun _ => hR.pure _

theorem parseStmt (hif : R (h.parseIf src r) (h'.parseIf src' r'))
    (hfor : R (h.parseFor src r) (h'.parseFor src' r')) :
    R (h.parseStmt src r) (h'.parseStmt src' r') :=
  hR.toProductions.parseStmt hr hif hfor (hR.parseFunc hr) hR.parseBreak hR.parseContinue

end

/-- Two parsers are related where their hooks are. -/
theorem parser (hstmt : R h.stmt h'.stmt)
    (hif : ∀ {r r'}, Related R r r' → R (h.parseIf src r) (h'.parseIf src' r'))
    (hfor : ∀ {r r'}, Related R r r' → R (h.parseFor src r) (h'.parseFor src' r'))
    {depth depth' : Nat} (hdepth : Fuels R depth depth') :
    Related R (h.parser src depth) (h'.parser src' depth') ∧
      R (h.parser src depth).stmt (h'.parser src' depth').stmt :=
  hR.toProductions.parser (fun hr => hR.parseExpr hr)
    (fun hr => hR.bind hstmt fun _ => hR.parseStmt hr (hif hr) (hfor hr)) hdepth

end

end Congruence

end Ymd
