import Ymd.Code.Locals
import Ymd.Compiler.Emit
import Ymd.Foundation.Outcome

/-! # What the compiler does to the objects

However a compilation ends, the objects made before it stay as they are, and the
new ones are functions whose code names local variables they have.
-/

namespace Ymd

open Foundation

variable {σ : Type}

/-- The objects from `n` on are functions made by the compiler. -/
structure Heap.Compiled (n : Addr) (heap : Heap) : Prop where
  next : n ≤ heap.next
  made : ∀ o obj, n ≤ o → heap.obj o = some obj → ∃ fn, obj = .func fn ∧ fn.argv = none ∧
    ∀ core, fn.core = some core → core.LocalsOk

/-- The parser between two productions. -/
structure Parser.Ok (n : Addr) (p : Parser σ) : Prop where
  heap : p.heap.Compiled n
  blk : p.blk.LocalsOk
  outer : ∀ core ∈ p.outer, core.LocalsOk

/-- The objects in front of `n` are as they were. -/
def Heap.SameBelow (n : Addr) (heap heap' : Heap) : Prop := ∀ o < n, heap'.obj o = heap.obj o

theorem Heap.SameBelow.refl (n : Addr) (heap : Heap) : heap.SameBelow n heap := fun _ _ => rfl

theorem Heap.SameBelow.trans {n : Addr} {heap heap' heap'' : Heap} (h₁ : heap.SameBelow n heap')
    (h₂ : heap'.SameBelow n heap'') : heap.SameBelow n heap'' :=
  fun o ho => (h₂ o ho).trans (h₁ o ho)

/-- What holds behind a production that was started in `p`: the chunk is the
same one with perhaps more names, and `post` of the result. -/
structure Parser.Then {α : Type} (n : Addr) (p : Parser σ) (post : α → Parser σ → Prop) (a : α)
    (p' : Parser σ) : Prop where
  ok : p'.Ok n
  same : p.heap.SameBelow n p'.heap
  outer : p'.outer = p.outer
  klz : p.blk.klz ≤ p'.blk.klz
  post : post a p'

/-- What a computation of the parser does from `p` on. -/
def SoundAt {α : Type} (n : Addr) (x : ParseM σ α) (p : Parser σ)
    (post : α → Parser σ → Prop) : Prop :=
  match x p with
  | .ok a p' => p.Then n post a p'
  | .error _ p' => p'.heap.Compiled n ∧ p.heap.SameBelow n p'.heap

/-- No condition on the result. -/
def anything {α : Type} (_ : α) (_ : Parser σ) : Prop := True

/-- A computation of the parser that does only what is allowed. -/
def Sound {α : Type} (n : Addr) (x : ParseM σ α) : Prop :=
  ∀ p : Parser σ, p.Ok n → SoundAt n x p anything

section

variable {α β : Type} {n : Addr} {x : ParseM σ α} {f : α → ParseM σ β} {p : Parser σ}
  {post : α → Parser σ → Prop} {post' : β → Parser σ → Prop}

theorem SoundAt.pure (hp : p.Ok n) {a : α} (h : post a p) :
    SoundAt n (pure a : ParseM σ α) p post :=
  ⟨hp, .refl _ _, rfl, le_rfl, h⟩

theorem SoundAt.throw (hp : p.Ok n) (e : Abort) : SoundAt n (throw e : ParseM σ α) p post :=
  ⟨hp.heap, .refl _ _⟩

theorem SoundAt.throw_bind (hp : p.Ok n) (e : Abort) :
    SoundAt n ((MonadExcept.throw e : ParseM σ α) >>= f) p post' :=
  ⟨hp.heap, .refl _ _⟩

theorem SoundAt.bind (hx : SoundAt n x p post)
    (hf : ∀ a p', p.Then n post a p' → SoundAt n (f a) p' post') :
    SoundAt n (x >>= f) p post' := by
  unfold SoundAt at hx ⊢
  cases hxp : x p with
  | ok a p₁ =>
      rw [hxp] at hx
      rw [bind_of_ok hxp]
      have hrest := hf a p₁ hx
      unfold SoundAt at hrest
      cases hfp : f a p₁ with
      | ok b p₂ =>
          rw [hfp] at hrest
          exact ⟨hrest.ok, hx.same.trans hrest.same, hrest.outer.trans hx.outer,
            hx.klz.trans hrest.klz, hrest.post⟩
      | error e p₂ =>
          rw [hfp] at hrest
          exact ⟨hrest.1, hx.same.trans hrest.2⟩
  | error e p₁ =>
      rw [hxp] at hx
      rw [bind_of_error hxp]
      exact hx

theorem SoundAt.ite {c : Prop} [Decidable c] {y z : ParseM σ α} (hy : c → SoundAt n y p post)
    (hz : ¬ c → SoundAt n z p post) : SoundAt n (if c then y else z) p post := by
  by_cases hc : c
  · rw [if_pos hc]
    exact hy hc
  · rw [if_neg hc]
    exact hz hc

theorem SoundAt.get {f : Parser σ → ParseM σ α} (hf : SoundAt n (f p) p post) :
    SoundAt n (MonadState.get >>= f) p post := by
  unfold SoundAt
  rw [bind_of_ok (get_apply p)]
  exact hf

theorem SoundAt.mono (hx : SoundAt n x p post) {post₁ : α → Parser σ → Prop}
    (h : ∀ a p', post a p' → post₁ a p') : SoundAt n x p post₁ := by
  unfold SoundAt at hx ⊢
  cases hxp : x p with
  | ok a p' =>
      rw [hxp] at hx
      exact ⟨hx.ok, hx.same, hx.outer, hx.klz, h _ _ hx.post⟩
  | error e p' =>
      rw [hxp] at hx
      exact hx

theorem Sound.pure (a : α) : Sound n (pure a : ParseM σ α) :=
  fun _ hp => SoundAt.pure hp trivial

theorem Sound.throw (e : Abort) : Sound n (throw e : ParseM σ α) := fun _ hp => SoundAt.throw hp e

theorem Sound.throw_bind (e : Abort) : Sound n ((MonadExcept.throw e : ParseM σ α) >>= f) :=
  fun _ hp => SoundAt.throw_bind hp e

theorem Sound.get : Sound n (MonadState.get : ParseM σ (Parser σ)) :=
  fun _ hp => ⟨hp, .refl _ _, rfl, le_rfl, trivial⟩

theorem Sound.bind (hx : Sound n x) (hf : ∀ a, Sound n (f a)) : Sound n (x >>= f) :=
  fun p hp => SoundAt.bind (hx p hp) fun a p' h => hf a p' h.ok

theorem Sound.ite {c : Prop} [Decidable c] {y z : ParseM σ α} (hy : Sound n y) (hz : Sound n z) :
    Sound n (if c then y else z) :=
  fun p hp => SoundAt.ite (fun _ => hy p hp) fun _ => hz p hp

end

/-- A computation that writes no code. -/
def Quiet {α : Type} (n : Addr) (x : ParseM σ α) : Prop :=
  ∀ p : Parser σ, p.Ok n → SoundAt n x p fun _ p' => p'.blk.inst = p.blk.inst

section

variable {α β : Type} {n : Addr} {x : ParseM σ α} {f : α → ParseM σ β}

theorem Quiet.sound (hx : Quiet n x) : Sound n x := fun p hp => (hx p hp).mono fun _ _ _ => trivial

theorem Quiet.pure (a : α) : Quiet n (pure a : ParseM σ α) := fun _ hp => SoundAt.pure hp rfl

theorem Quiet.throw (e : Abort) : Quiet n (throw e : ParseM σ α) := fun _ hp => SoundAt.throw hp e

theorem Quiet.get : Quiet n (MonadState.get : ParseM σ (Parser σ)) :=
  fun _ hp => ⟨hp, .refl _ _, rfl, le_rfl, rfl⟩

theorem Quiet.bind (hx : Quiet n x) (hf : ∀ a, Quiet n (f a)) : Quiet n (x >>= f) :=
  fun p hp => SoundAt.bind (hx p hp) fun a p' h =>
    (hf a p' h.ok).mono fun _ _ hinst => hinst.trans h.post

theorem Quiet.ite {c : Prop} [Decidable c] {y z : ParseM σ α} (hy : Quiet n y) (hz : Quiet n z) :
    Quiet n (if c then y else z) :=
  fun p hp => SoundAt.ite (fun _ => hy p hp) fun _ => hz p hp

end

/-! ## Tokens -/

section

variable {n : Addr} (src : Source σ)

theorem quiet_ymcNext : Quiet n (ymcNext src) := by
  intro p hp
  apply SoundAt.get
  cases src.next p.lex with
  | ok next => exact ⟨⟨hp.heap, hp.blk, hp.outer⟩, .refl _ _, rfl, le_rfl, rfl⟩
  | error f => exact ⟨hp.heap, .refl _ _⟩

theorem quiet_ymcPeek : Quiet n (ymcPeek : ParseM σ Token) :=
  Quiet.bind Quiet.get fun _ => Quiet.pure _

theorem quiet_ymcTest (token : Token) : Quiet n (ymcTest src token) :=
  Quiet.bind quiet_ymcPeek fun _ =>
    Quiet.ite (Quiet.bind (quiet_ymcNext src) fun _ => Quiet.pure _) (Quiet.pure _)

theorem quiet_ymcMatch (need : Token) : Quiet n (ymcMatch src need) :=
  Quiet.bind quiet_ymcPeek fun _ =>
    Quiet.ite (Quiet.bind (Quiet.throw _) fun _ => quiet_ymcNext src) (quiet_ymcNext src)

theorem quiet_ymkSymbol : Quiet n (ymkSymbol src) :=
  Quiet.bind quiet_ymcPeek fun _ => Quiet.ite
    (Quiet.bind (Quiet.throw _) fun _ => Quiet.bind Quiet.get fun _ =>
      Quiet.bind (quiet_ymcNext src) fun _ => Quiet.pure _)
    (Quiet.bind Quiet.get fun _ => Quiet.bind (quiet_ymcNext src) fun _ => Quiet.pure _)

end

/-! ## Code generation -/

section

variable {n : Addr} (src : Source σ)

theorem sound_ymcNext : Sound n (ymcNext src) := (quiet_ymcNext src).sound

theorem sound_ymcPeek : Sound n (ymcPeek : ParseM σ Token) := quiet_ymcPeek.sound

theorem sound_ymcTest (token : Token) : Sound n (ymcTest src token) := (quiet_ymcTest src token).sound

theorem sound_ymcMatch (need : Token) : Sound n (ymcMatch src need) :=
  (quiet_ymcMatch src need).sound

theorem sound_ymkSymbol : Sound n (ymkSymbol src) := (quiet_ymkSymbol src).sound

theorem sound_assert (cond : Prop) [Decidable cond] (text : String) :
    Sound n (assert cond text : ParseM σ Unit) :=
  Sound.ite (Sound.pure _) (Sound.throw _)

theorem sound_onBlk {α : Type} {f : Chunk → Chunk × α}
    (hf : ∀ core, core.LocalsOk → (f core).1.LocalsOk ∧ core.klz ≤ (f core).1.klz) :
    Sound n (onBlk f : ParseM σ α) := by
  intro p hp
  obtain ⟨hok, hklz⟩ := hf p.blk hp.blk
  exact ⟨⟨hp.heap, hok, hp.outer⟩, .refl _ _, rfl, hklz, trivial⟩

theorem sound_internK {same : Chunk → Variable → Bool} {v : Chunk → Variable} :
    Sound n (onBlk fun core => core.internK (same core) (v core) : ParseM σ Nat) :=
  sound_onBlk fun core hcore =>
    ⟨hcore.mono (core.inst_internK _ _) (by simp [Chunk.klz]), by simp [Chunk.klz]⟩

theorem sound_kz (z : Bytes) (k : Int) : Sound n (onBlk fun core => core.kz z k : ParseM σ Nat) :=
  sound_internK

theorem sound_ki (i : YmdInt) : Sound n (onBlk fun core => core.ki i : ParseM σ Nat) :=
  sound_internK

theorem sound_kf (fn : Addr) : Sound n (onBlk fun core => core.kf fn : ParseM σ Nat) :=
  sound_internK

/-- An instruction that names no local variable. -/
theorem sound_ymkEmitOfP {op : Opcode} {flag : BitVec 8} (param : Nat)
    (h : flag ≠ Flag.loc ∨ op ≠ .push ∧ op ≠ .store) :
    Sound n (ymkEmitOfP op flag param : ParseM σ Unit) := by
  refine sound_onBlk fun core hcore => ⟨hcore.emit fun i hi => ?_, le_rfl⟩
  have hnone : localOperand (asmBuild op.code flag (BitVec.ofNat 16 param)) = none := by
    rcases h with hflag | ⟨hpush, hstore⟩
    · exact localOperand_of_flag _ hflag
    · exact localOperand_of_op flag _ hpush hstore
  rw [hnone] at hi
  cases hi

/-- An instruction that names a local variable of the chunk. -/
theorem soundAt_emit_loc {op : Opcode} {i : Nat} {p : Parser σ} (hp : p.Ok n)
    (hi : i < p.blk.klz) : SoundAt n (ymkEmitOfP op Flag.loc i : ParseM σ Unit) p anything :=
  ⟨⟨hp.heap, hp.blk.emit fun j hj => (localOperand_build_loc op i j hj).trans_lt hi, hp.outer⟩,
    .refl _ _, rfl, le_rfl, trivial⟩

theorem sound_ymkEmitCall {op : Opcode} (aret argc method : Nat) (hpush : op ≠ .push)
    (hstore : op ≠ .store) : Sound n (ymkEmitCall op aret argc method : ParseM σ Unit) := by
  refine sound_onBlk fun core hcore => ⟨hcore.emit fun i hi => ?_, le_rfl⟩
  rw [asmCall, localOperand_of_op _ _ hpush hstore] at hi
  cases hi

theorem sound_ymkIpos : Sound n (ymkIpos : ParseM σ Nat) :=
  Sound.bind Sound.get fun _ => Sound.pure _

theorem sound_ymkHold : Sound n (ymkHold : ParseM σ Nat) :=
  Sound.bind sound_ymkIpos fun _ =>
    Sound.bind (sound_ymkEmitOfP 0 (.inr ⟨nofun, nofun⟩)) fun _ => Sound.pure _

theorem sound_ymkEmitInt (imm : YmdInt) : Sound n (ymkEmitInt imm : ParseM σ Unit) :=
  Sound.bind (sound_ki imm) fun k => sound_ymkEmitOfP k (.inl (by decide))

theorem sound_ymkEmitKz (raw : Bytes) : Sound n (ymkEmitKz raw : ParseM σ Unit) := by
  unfold ymkEmitKz
  cases stresc raw with
  | none => exact Sound.throw _
  | some priv => exact Sound.bind (sound_kz _ _) fun k => sound_ymkEmitOfP k (.inl (by decide))

theorem sound_ymkEmitStore (symbol : Bytes) : Sound n (ymkEmitStore symbol : ParseM σ Unit) := by
  intro p hp
  apply SoundAt.get
  cases hfind : p.blk.findLz symbol with
  | none => exact Sound.bind (sound_kz _ _) (fun k => sound_ymkEmitOfP k (.inl (by decide))) p hp
  | some i => exact soundAt_emit_loc hp (Chunk.findLz_lt hfind)

theorem sound_ymkEmitPush (symbol : Bytes) : Sound n (ymkEmitPush symbol : ParseM σ Unit) := by
  intro p hp
  apply SoundAt.get
  cases hfind : p.blk.findLz symbol with
  | none => exact Sound.bind (sound_kz _ _) (fun k => sound_ymkEmitOfP k (.inl (by decide))) p hp
  | some i => exact soundAt_emit_loc hp (Chunk.findLz_lt hfind)

theorem sound_ymkEmitPushz (symbol : Bytes) : Sound n (ymkEmitPushz symbol : ParseM σ Unit) :=
  Sound.bind (sound_kz _ _) fun k => sound_ymkEmitOfP k (.inl (by decide))

theorem ymkNewLocvar_apply (symbol : Bytes) (p : Parser σ) : ymkNewLocvar symbol p =
    match (p.blk.addLz symbol).2 with
    | none => .error (.fail "Duplicate local varibale") { p with blk := (p.blk.addLz symbol).1 }
    | some i => .ok i { p with blk := (p.blk.addLz symbol).1 } := by
  have hadd : (onBlk fun core => core.addLz symbol : ParseM σ (Option Nat)) p =
      .ok (p.blk.addLz symbol).2 { p with blk := (p.blk.addLz symbol).1 } := rfl
  rw [ymkNewLocvar, bind_of_ok hadd]
  cases (p.blk.addLz symbol).2 <;> rfl

/-- A new local variable is one of the chunk's. -/
theorem soundAt_ymkNewLocvar (symbol : Bytes) {p : Parser σ} (hp : p.Ok n) :
    SoundAt n (ymkNewLocvar symbol) p
      fun i p' => i < p'.blk.klz ∧ p'.blk.inst = p.blk.inst := by
  unfold SoundAt
  rw [ymkNewLocvar_apply]
  cases hadd : (p.blk.addLz symbol).2 with
  | none => exact ⟨hp.heap, .refl _ _⟩
  | some i =>
      obtain ⟨hblk, rfl⟩ := Chunk.addLz_some hadd
      have hklz : (p.blk.addLz symbol).1.klz = p.blk.klz + 1 := by
        rw [hblk]
        simp [Chunk.klz]
      have hinst : (p.blk.addLz symbol).1.inst = p.blk.inst := by rw [hblk]
      have hgrow : p.blk.klz ≤ (p.blk.addLz symbol).1.klz := hklz ▸ Nat.le_succ _
      exact ⟨⟨hp.heap, hp.blk.mono hinst hgrow, hp.outer⟩, .refl _ _, rfl, hgrow,
        hklz ▸ Nat.lt_succ_self _, hinst⟩

theorem quiet_ymkNewLocvar (symbol : Bytes) : Quiet n (ymkNewLocvar symbol : ParseM σ Nat) :=
  fun _ hp => (soundAt_ymkNewLocvar symbol hp).mono fun _ _ h => h.2

theorem sound_ymkNewLocvar (symbol : Bytes) : Sound n (ymkNewLocvar symbol : ParseM σ Nat) :=
  (quiet_ymkNewLocvar symbol).sound

theorem sound_ymkEmitEnd : Sound n (ymkEmitEnd : ParseM σ Unit) :=
  Sound.bind Sound.get fun _ =>
    Sound.ite (sound_ymkEmitOfP 0 (.inr ⟨nofun, nofun⟩)) (Sound.pure _)

theorem sound_ymkEmitSetf (symbol : Bytes) : Sound n (ymkEmitSetf symbol : ParseM σ Unit) :=
  Sound.bind (sound_kz _ _) fun k => sound_ymkEmitOfP k (.inl (by decide))

theorem sound_ymkEmitGetf (symbol : Bytes) : Sound n (ymkEmitGetf symbol : ParseM σ Unit) :=
  Sound.bind (sound_kz _ _) fun k => sound_ymkEmitOfP k (.inl (by decide))

theorem sound_ymkEmitSelfcall (adjust argc : Nat) (method : Bytes) :
    Sound n (ymkEmitSelfcall adjust argc method : ParseM σ Unit) :=
  Sound.bind (sound_kz _ _) fun _ => sound_ymkEmitCall _ _ _ nofun nofun

theorem sound_ymkEmitJmp (target : Nat) : Sound n (ymkEmitJmp target : ParseM σ Unit) :=
  Sound.bind Sound.get fun _ => Sound.bind (sound_assert _ _) fun _ =>
    sound_ymkEmitOfP _ (.inr ⟨nofun, nofun⟩)

theorem sound_ymkHack (i : Nat) {inst : Inst} (hinst : localOperand inst = none) :
    Sound n (ymkHack i inst : ParseM σ Unit) :=
  Sound.bind Sound.get fun _ => Sound.bind (sound_assert _ _) fun _ =>
    sound_onBlk fun _ hcore => ⟨hcore.setInst i hinst, le_rfl⟩

theorem sound_ymkHackJmp (i : Nat) (op : Opcode) : Sound n (ymkHackJmp i op : ParseM σ Unit) :=
  Sound.bind Sound.get fun _ => Sound.bind (sound_assert _ _) fun _ =>
    sound_ymkHack i (localOperand_of_flag _ (by decide))

end

/-! ## Functions -/

theorem Chunk.localsOk_zero : Chunk.zero.LocalsOk := Chunk.localsOk_of_nil rfl

section

variable {n : Addr} {fn : Addr}

/-- A function is one of the new objects. -/
theorem soundAt_ymdFunc (name : Bytes) {p : Parser σ} (hp : p.Ok n) :
    SoundAt n (ymdFunc name) p fun o _ => n ≤ o := by
  apply SoundAt.get
  apply SoundAt.ite
  · intro _
    exact SoundAt.throw_bind hp _
  · intro _
    have hheap : ∀ fn, fn.argv = none → (∀ core, fn.core = some core → core.LocalsOk) →
        (p.heap.alloc (.func fn)).1.Compiled n := by
      intro fn hargv hcore
      refine ⟨hp.heap.next.trans (Nat.le_succ _), fun o obj ho hobj => ?_⟩
      by_cases hnew : o = p.heap.next
      · subst hnew
        rw [Heap.obj_alloc_self] at hobj
        cases hobj
        exact ⟨fn, rfl, hargv, hcore⟩
      · rw [Heap.obj_alloc_of_ne hnew] at hobj
        exact hp.heap.made o obj ho hobj
    refine ⟨⟨hheap _ rfl ?_, hp.blk, hp.outer⟩, ?_, rfl, le_rfl, hp.heap.next⟩
    · rintro core ⟨⟩
      exact Chunk.localsOk_zero
    · intro o ho
      exact Heap.obj_alloc_of_ne (Nat.ne_of_lt (ho.trans_le hp.heap.next))

/-- A new function changes. -/
theorem Heap.Compiled.set {heap : Heap} (h : heap.Compiled n) {f : Func}
    (hargv : f.argv = none) (hcore : ∀ core, f.core = some core → core.LocalsOk) :
    (heap.set fn (.func f)).Compiled n := by
  refine ⟨h.next, fun o obj ho hobj => ?_⟩
  unfold Heap.set at hobj
  dsimp only at hobj
  split at hobj
  next =>
    cases hobj
    exact ⟨f, rfl, hargv, hcore⟩
  next => exact h.made o obj ho hobj

theorem Heap.SameBelow.set {heap : Heap} (hfn : n ≤ fn) (obj : Obj) :
    heap.SameBelow n (heap.set fn obj) :=
  fun _ ho => Heap.obj_set_of_ne (Nat.ne_of_lt (ho.trans_le hfn))

/-- The parser in a function of its own. -/
def Parser.entered (p : Parser σ) (core : Chunk) : Parser σ :=
  { p with blk := core, outer := p.blk :: p.outer }

theorem Parser.Ok.entered {p : Parser σ} (hp : p.Ok n) {core : Chunk} (hcore : core.LocalsOk) :
    (p.entered core).Ok n := by
  refine ⟨hp.heap, hcore, fun outer houter => ?_⟩
  rcases List.mem_cons.1 houter with rfl | hmem
  · exact hp.blk
  · exact hp.outer outer hmem

/-- A function body: nothing is said about the number of names, which starts
again when it wraps. -/
def BodyAt {α : Type} (n : Addr) (x : ParseM σ α) (p : Parser σ) : Prop :=
  match x p with
  | .ok _ p' => p'.Ok n ∧ p.heap.SameBelow n p'.heap ∧ p'.outer = p.outer
  | .error _ p' => p'.heap.Compiled n ∧ p.heap.SameBelow n p'.heap

theorem SoundAt.body {α : Type} {x : ParseM σ α} {p : Parser σ} {post : α → Parser σ → Prop}
    (hx : SoundAt n x p post) : BodyAt n x p := by
  unfold SoundAt at hx
  unfold BodyAt
  cases hxp : x p with
  | ok a p' =>
      rw [hxp] at hx
      exact ⟨hx.ok, hx.same, hx.outer⟩
  | error e p' =>
      rw [hxp] at hx
      exact hx

theorem BodyAt.bind {α β : Type} {x : ParseM σ α} {f : α → ParseM σ β} {p : Parser σ}
    {post : α → Parser σ → Prop} (hx : SoundAt n x p post)
    (hf : ∀ a p', p.Then n post a p' → BodyAt n (f a) p') : BodyAt n (x >>= f) p := by
  unfold SoundAt at hx
  unfold BodyAt
  cases hxp : x p with
  | ok a p₁ =>
      rw [hxp] at hx
      rw [bind_of_ok hxp]
      have hrest := hf a p₁ hx
      unfold BodyAt at hrest
      cases hfp : f a p₁ with
      | ok b p₂ =>
          rw [hfp] at hrest
          exact ⟨hrest.1, hx.same.trans hrest.2.1, hrest.2.2.trans hx.outer⟩
      | error e p₂ =>
          rw [hfp] at hrest
          exact ⟨hrest.1, hx.same.trans hrest.2⟩
  | error e p₁ =>
      rw [hxp] at hx
      rw [bind_of_error hxp]
      exact hx

/-- The chunk may be replaced while it has no code. -/
theorem BodyAt.onBlk {α β : Type} {g : Chunk → Chunk × α} {f : α → ParseM σ β} {p : Parser σ}
    (hp : p.Ok n) (hinst : (g p.blk).1.inst = [])
    (hf : ∀ a p', p'.Ok n → BodyAt n (f a) p') : BodyAt n (Ymd.onBlk g >>= f) p :=
  hf (g p.blk).2 { p with blk := (g p.blk).1 } ⟨hp.heap, Chunk.localsOk_of_nil hinst, hp.outer⟩

/-- The function receives the chunk that is left, and the chunk around it goes on. -/
theorem SoundAt.scope {α β : Type} {inner : ParseM σ α} {rest : α → ParseM σ β} {p : Parser σ}
    {core : Chunk} (hfn : n ≤ fn) (hinner : BodyAt n inner (p.entered core))
    (hrest : ∀ a, Sound n (rest a)) (hp : p.Ok n) :
    SoundAt n (do
      ymkEnter core
      let a ← inner
      ymkLeave fn
      rest a) p anything := by
  unfold BodyAt at hinner
  unfold SoundAt
  have henter : ymkEnter core p = .ok () (p.entered core) := rfl
  rw [bind_of_ok henter]
  cases hrun : inner (p.entered core) with
  | error e p₁ =>
      rw [hrun] at hinner
      rw [bind_of_error hrun]
      exact hinner
  | ok a p₁ =>
      rw [hrun] at hinner
      obtain ⟨hok, hsame, houter⟩ := hinner
      rw [bind_of_ok hrun]
      cases hobj : p₁.heap.obj fn with
      | none =>
          have hleave : ymkLeave fn p₁ = .error (.fault Heap.badCast) p₁ := by
            rw [ymkLeave, bind_of_ok (get_apply p₁), hobj]
            rfl
          rw [bind_of_error hleave]
          exact ⟨hok.heap, hsame⟩
      | some obj =>
          obtain ⟨f, rfl, hargv, _⟩ := hok.heap.made fn obj hfn hobj
          have hleave : ymkLeave fn p₁ = .ok () { p₁ with
              blk := p₁.outer.headD .zero, outer := p₁.outer.tail
              heap := p₁.heap.set fn (.func { f with core := some p₁.blk }) } := by
            rw [ymkLeave, bind_of_ok (get_apply p₁), hobj]
            rfl
          rw [bind_of_ok hleave, houter]
          -- behind `ymk_leave` the chunk of the function around is the current one again
          have hback : ({ p₁ with
              blk := p.blk, outer := p.outer
              heap := p₁.heap.set fn (.func { f with core := some p₁.blk }) } :
              Parser σ).Ok n := by
            refine ⟨hok.heap.set hargv ?_, hp.blk, hp.outer⟩
            rintro core' ⟨⟩
            exact hok.blk
          have hkept := hsame.trans (.set hfn (.func { f with core := some p₁.blk }))
          have hlast := hrest a _ hback
          unfold SoundAt at hlast
          change match rest a { p₁ with
            blk := p.blk, outer := p.outer
            heap := p₁.heap.set fn (.func { f with core := some p₁.blk }) } with
            | .ok a p' => p.Then n anything a p'
            | .error _ p' => p'.heap.Compiled n ∧ p.heap.SameBelow n p'.heap
          cases hend : rest a { p₁ with
              blk := p.blk, outer := p.outer
              heap := p₁.heap.set fn (.func { f with core := some p₁.blk }) } with
          | ok b p₂ =>
              rw [hend] at hlast
              exact ⟨hlast.ok, hkept.trans hlast.same, hlast.outer, hlast.klz, trivial⟩
          | error e p₂ =>
              rw [hend] at hlast
              exact ⟨hlast.1, hkept.trans hlast.2⟩

theorem sound_ymkEmitFunc (desc : FuncDeclDesc) (hfn : n ≤ fn) :
    Sound n (ymkEmitFunc desc fn : ParseM σ Unit) := by
  intro p hp
  apply SoundAt.get
  cases hobj : p.heap.obj fn with
  | none =>
      exact SoundAt.throw_bind hp _
  | some obj =>
      obtain ⟨f, rfl, hargv, hcore⟩ := hp.heap.made fn obj hfn hobj
      refine SoundAt.bind (show SoundAt _ _ _ anything from ?_) fun _ p' h => ?_
      · exact ⟨⟨hp.heap.set hargv hcore, hp.blk, hp.outer⟩, .set hfn _, rfl, le_rfl, trivial⟩
      · refine Sound.bind (sound_kf fn) (fun k => Sound.bind ?_ fun _ => ?_) p' h.ok
        · exact sound_ymkHack _ (localOperand_of_flag _ (by decide))
        · exact fun q hq => ⟨⟨hq.heap, hq.blk, hq.outer⟩, .refl _ _, rfl, le_rfl, trivial⟩

end

/-! ## Loops -/

section

variable {n : Addr}

theorem sound_theLoop : Sound n (theLoop : ParseM σ LoopInfo) := by
  intro p hp
  apply SoundAt.get
  cases p.loop with
  | nil => exact SoundAt.throw hp _
  | cons info rest => exact SoundAt.pure hp trivial

/-- Only the loops differ. -/
theorem sound_modifyLoop (f : Parser σ → List LoopInfo) :
    Sound n (modify fun p => { p with loop := f p } : ParseM σ Unit) :=
  fun _ hp => ⟨⟨hp.heap, hp.blk, hp.outer⟩, .refl _ _, rfl, le_rfl, trivial⟩

theorem sound_ymkLoopEnter : Sound n (ymkLoopEnter : ParseM σ Unit) := sound_modifyLoop _

theorem sound_onLoop (f : LoopInfo → LoopInfo) : Sound n (onLoop f : ParseM σ Unit) :=
  Sound.bind sound_theLoop fun _ => sound_modifyLoop _

theorem sound_fillBreaks (iCurr : Nat) (jmt : List Nat) :
    Sound n (fillBreaks iCurr jmt : ParseM σ Unit) := by
  induction jmt with
  | nil => exact Sound.pure ()
  | cons iJpt rest ih =>
      exact Sound.bind (sound_assert _ _) fun _ => Sound.bind (sound_ymkHackJmp _ _) fun _ => ih

theorem sound_ymkLoopLeave : Sound n (ymkLoopLeave : ParseM σ Unit) :=
  Sound.bind Sound.get fun _ => Sound.bind sound_theLoop fun _ =>
    Sound.bind (sound_assert _ _) fun _ => Sound.bind (sound_ymkEmitJmp _) fun _ =>
      Sound.bind (sound_fillBreaks _ _) fun _ =>
        Sound.ite (Sound.bind (sound_ymkHackJmp _ _) fun _ => sound_modifyLoop _)
          (sound_modifyLoop _)

end

end Ymd
