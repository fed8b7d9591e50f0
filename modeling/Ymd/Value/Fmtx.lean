import Ymd.Code.Numerals

/-! # `struct fmtx` in memory

The buffer with its two blocks of memory, printed into by `tostring`. The text in
front of `last` is the one of the buffer that only grows; what `realloc` adds to a
block is not set before it is written.
-/

namespace Ymd

open Foundation

/-- The room behind `last` that is reserved for a write, and the bytes that it writes
there, among them the NUL of `snprintf`. -/
structure Write where
  last : Nat
  max : Nat
  room : Nat
  size : Nat

/-- The write stays within its room, which lies in the buffer. -/
def Write.Fits (w : Write) : Prop := w.size ≤ w.room ∧ w.last + w.room ≤ w.max

/-- `struct fmtx`, a byte being absent as long as it is not set. No function reads
the `writes` it has received. -/
structure Strbuf where
  kbuf : List (Option UInt8)
  dy : Option (List (Option UInt8))
  last : Nat
  max : Nat
  writes : List Write

namespace Strbuf

/-- `FMTX_INIT`, and the zeroed memory of `libx_strbuf` with its `max`. -/
def init : Strbuf where
  kbuf := List.replicate fmtxStaticMax (some 0)
  dy := none
  last := 0
  max := fmtxStaticMax
  writes := []

/-- `fmtx_final`. -/
def final (self : Strbuf) : Strbuf := { init with writes := self.writes }

/-- The bytes that `fmtx_buf` leads to. -/
def buf (self : Strbuf) : List (Option UInt8) := self.dy.getD self.kbuf

def setBuf (self : Strbuf) (cells : List (Option UInt8)) : Strbuf :=
  match self.dy with
  | none => { self with kbuf := cells }
  | some _ => { self with dy := some cells }

/-- `fmtx_remain`, as the `size_t` that `snprintf` takes. -/
def remain (self : Strbuf) : Nat := (BitVec.ofInt 64 ((self.max : Int) - self.last)).toNat

/-- `fmtx_need`: the text moves from the structure to the heap once. -/
def need (self : Strbuf) (n : Nat) : Except Fault Strbuf :=
  if 2 ^ 31 ≤ self.last + n then throw .overflow
  else if self.last + n ≤ fmtxStaticMax then pure self
  else if self.last + n ≤ self.max then pure self
  else if 2 ^ 31 ≤ (self.last + n) * 3 then throw .overflow
  else
    let max := (self.last + n) * 3 / 2 + fmtxStaticMax
    match self.dy with
    | none =>
        if self.last ≤ self.kbuf.length then
          pure { self with
            dy := some (self.kbuf.take self.last ++ List.replicate (max - self.last) (some 0))
            max := max }
        else throw (.bounds "kbuf")
    | some dy =>
        pure { self with
          dy := some (dy.take max ++ List.replicate (max - dy.length) none)
          max := max }

/-- Bytes are copied to `fmtx_last`. -/
def store (self : Strbuf) (src : Bytes) : Except Fault Strbuf :=
  if self.last + src.length ≤ self.buf.length then
    pure (self.setBuf (self.buf.take self.last ++ src.map some ++
      self.buf.drop (self.last + src.length)))
  else throw (.bounds "fmtx_last")

/-- `snprintf` with `fmtx_remain`; `src` is what the format stands for. -/
def snprintf (self : Strbuf) (src : Bytes) : Except Fault Strbuf :=
  if self.remain = 0 then pure self else self.store (src.take (self.remain - 1) ++ [0])

def strlen : List (Option UInt8) → Except Fault Nat
  | some c :: rest => if c = 0 then pure 0 else return (← strlen rest) + 1
  | none :: _ => throw (.bounds "strlen")
  | [] => throw (.bounds "strlen")

/-- `fmtx_add`. -/
def add (self : Strbuf) : Except Fault Strbuf := do
  let k ← strlen (self.buf.drop self.last)
  return { self with last := self.last + k }

def record (self : Strbuf) (room size : Nat) : Strbuf :=
  { self with writes := self.writes ++ [⟨self.last, self.max, room, size⟩] }

/-- `fmtx_append`. -/
def append (self : Strbuf) (src : Bytes) : Except Fault Strbuf := do
  let self ← self.need src.length
  let self ← (self.record src.length src.length).store src
  return { self with last := self.last + src.length }

/-- `fmtx_need`, `snprintf` and `fmtx_add`. -/
def print (self : Strbuf) (n : Nat) (src : Bytes) : Except Fault Strbuf := do
  let self ← self.need n
  let self ← (self.record n (src.length + 1)).snprintf src
  self.add

/-- The first `last` bytes. -/
def text (self : Strbuf) : Except Fault Bytes :=
  match (self.buf.take self.last).mapM id with
  | some z => if self.last ≤ self.buf.length then pure z else throw (.bounds "fmtx_buf")
  | none => throw (.bounds "fmtx_buf")

end Strbuf

instance : Buffer Strbuf := ⟨Strbuf.append, Strbuf.print⟩

/-! ## The text in front of `last` -/

namespace Strbuf

variable {sb sb' : Strbuf} {ctx ctx' : Fmtx} {n : Nat} {src : Bytes}

/-- The memory of the buffer holds the text, every byte of it is set, and all writes
were in their room. -/
structure Shows (sb : Strbuf) (ctx : Fmtx) : Prop where
  kbuf : sb.kbuf.length = fmtxStaticMax
  size : sb.buf.length = sb.max
  last : sb.last = ctx.last
  max : sb.max = ctx.max
  room : fmtxStaticMax ≤ sb.max
  int : sb.max < 2 ^ 31
  text : sb.buf.take sb.last = ctx.buf.map some
  fits : ∀ w ∈ sb.writes, w.Fits

namespace Shows

theorem last_le (h : Shows sb ctx) : sb.last ≤ sb.max := by
  have hlength := congrArg List.length h.text
  rw [List.length_take, List.length_map, h.size] at hlength
  have hlast : sb.last = ctx.buf.length := h.last
  omega

theorem remain_eq (h : Shows sb ctx) : sb.remain = sb.max - sb.last := by
  have hlast := h.last_le
  have hint := h.int
  rw [remain, BitVec.toNat_ofInt]
  omega

end Shows

theorem init_shows : Shows init Fmtx.init where
  kbuf := List.length_replicate
  size := List.length_replicate
  last := rfl
  max := rfl
  room := le_rfl
  int := by decide
  text := rfl
  fits w hw := by cases hw

theorem final_shows (h : Shows sb ctx) : Shows sb.final Fmtx.init :=
  { init_shows with fits := h.fits }

@[simp] theorem setBuf_buf (sb : Strbuf) (cells : List (Option UInt8)) :
    (sb.setBuf cells).buf = cells := by
  unfold setBuf buf
  cases sb.dy with
  | none => rfl
  | some dy => rfl

theorem setBuf_kbuf {cells : List (Option UInt8)} (hcells : cells.length = sb.buf.length) :
    (sb.setBuf cells).kbuf.length = sb.kbuf.length := by
  unfold setBuf
  unfold buf at hcells
  cases hdy : sb.dy with
  | none =>
      rw [hdy] at hcells
      exact hcells
  | some dy => rfl

@[simp] theorem setBuf_last (sb : Strbuf) (cells : List (Option UInt8)) :
    (sb.setBuf cells).last = sb.last := by
  unfold setBuf
  cases sb.dy <;> rfl

@[simp] theorem setBuf_max (sb : Strbuf) (cells : List (Option UInt8)) :
    (sb.setBuf cells).max = sb.max := by
  unfold setBuf
  cases sb.dy <;> rfl

@[simp] theorem setBuf_writes (sb : Strbuf) (cells : List (Option UInt8)) :
    (sb.setBuf cells).writes = sb.writes := by
  unfold setBuf
  cases sb.dy <;> rfl

/-- The text survives the move to the heap and every reallocation. -/
theorem need_shows (h : Shows sb ctx) (hneed : ctx.need n = .ok ctx') :
    ∃ sb', sb.need n = .ok sb' ∧ Shows sb' ctx' ∧ sb'.last + n ≤ sb'.max := by
  have hlast := h.last_le
  have hroom := h.room
  unfold Fmtx.need at hneed
  unfold need
  rw [← h.last, ← h.max] at hneed
  by_cases hend : 2 ^ 31 ≤ sb.last + n
  · rw [if_pos hend] at hneed
    cases hneed
  rw [if_neg hend] at hneed ⊢
  by_cases hstatic : sb.last + n ≤ fmtxStaticMax
  · rw [if_pos hstatic] at hneed ⊢
    cases hneed
    exact ⟨sb, rfl, h, hstatic.trans hroom⟩
  rw [if_neg hstatic] at hneed ⊢
  by_cases hmax : sb.last + n ≤ sb.max
  · rw [if_pos hmax] at hneed ⊢
    cases hneed
    exact ⟨sb, rfl, h, hmax⟩
  rw [if_neg hmax] at hneed ⊢
  by_cases hgrow : 2 ^ 31 ≤ (sb.last + n) * 3
  · rw [if_pos hgrow] at hneed
    cases hneed
  rw [if_neg hgrow] at hneed ⊢
  cases hneed
  have hnew : sb.last ≤ (sb.last + n) * 3 / 2 + fmtxStaticMax := by omega
  have hint : (sb.last + n) * 3 / 2 + fmtxStaticMax < 2 ^ 31 := by
    simp only [fmtxStaticMax]
    omega
  have hfit : sb.last + n ≤ (sb.last + n) * 3 / 2 + fmtxStaticMax := by omega
  -- the block grows, from the static buffer or from an older block
  cases hdy : sb.dy with
  | none =>
      have hbuf : sb.buf = sb.kbuf := by rw [buf, hdy, Option.getD_none]
      have hkbuf : sb.last ≤ sb.kbuf.length := by rw [← hbuf, h.size]; exact hlast
      have htake : (sb.kbuf.take sb.last).length = sb.last := by
        rw [List.length_take]
        exact Nat.min_eq_left hkbuf
      have htext := h.text
      rw [hbuf] at htext
      simp only [if_pos hkbuf]
      refine ⟨_, rfl, ⟨h.kbuf, ?_, h.last, rfl, Nat.le_add_left _ _, hint, ?_, h.fits⟩, hfit⟩
      · simp only [buf, Option.getD_some, List.length_append, htake, List.length_replicate]
        omega
      · simp only [buf, Option.getD_some]
        rw [List.take_append_of_le_length htake.ge, List.take_take, Nat.min_self, htext]
  | some dy =>
      have hbuf : sb.buf = dy := by rw [buf, hdy, Option.getD_some]
      have hdylen : dy.length = sb.max := by rw [← hbuf, h.size]
      have htext := h.text
      rw [hbuf] at htext
      simp only
      rw [List.take_of_length_le (by omega)]
      refine ⟨_, rfl, ⟨h.kbuf, ?_, h.last, rfl, Nat.le_add_left _ _, hint, ?_, h.fits⟩, hfit⟩
      · simp only [buf, Option.getD_some, List.length_append, List.length_replicate]
        omega
      · simp only [buf, Option.getD_some]
        rw [List.take_append_of_le_length (by omega), htext]

/-- Bytes have been put behind the text, and `last` has not moved. -/
structure Puts (sb : Strbuf) (ctx : Fmtx) (src : Bytes) (sb' : Strbuf) : Prop where
  kbuf : sb'.kbuf.length = fmtxStaticMax
  size : sb'.buf.length = sb.max
  last : sb'.last = sb.last
  max : sb'.max = sb.max
  writes : sb'.writes = sb.writes
  buf : ∃ rest, sb'.buf = ctx.buf.map some ++ (src.map some ++ rest)

theorem store_puts (h : Shows sb ctx) (hfits : sb.last + src.length ≤ sb.max) :
    ∃ sb', sb.store src = .ok sb' ∧ Puts sb ctx src sb' := by
  rw [store, if_pos (h.size ▸ hfits)]
  have hlength : (sb.buf.take sb.last ++ src.map some ++
      sb.buf.drop (sb.last + src.length)).length = sb.buf.length := by
    simp only [List.length_append, List.length_take, List.length_map, List.length_drop, h.size]
    omega
  refine ⟨_, rfl, ⟨?_, ?_, setBuf_last _ _, setBuf_max _ _, setBuf_writes _ _,
    sb.buf.drop (sb.last + src.length), ?_⟩⟩
  · rw [setBuf_kbuf hlength, h.kbuf]
  · rw [setBuf_buf, hlength, h.size]
  · rw [setBuf_buf, h.text, List.append_assoc]

/-- The bytes belong to the text when `last` moves behind them. -/
theorem Puts.shows (h : Shows sb ctx) (hputs : Puts sb ctx src sb') :
    Shows { sb' with last := sb'.last + src.length } ⟨ctx.buf ++ src, ctx.max⟩ := by
  have hlast : sb'.last + src.length = (ctx.buf ++ src).length := by
    rw [hputs.last, h.last, List.length_append]
    rfl
  refine ⟨hputs.kbuf, hputs.size.trans hputs.max.symm, hlast, hputs.max.trans h.max, ?_, ?_, ?_, ?_⟩
  · simpa only [hputs.max] using h.room
  · simpa only [hputs.max] using h.int
  · obtain ⟨rest, hbuf⟩ := hputs.buf
    have hend : sb'.last + src.length = (ctx.buf.map some ++ src.map some).length := by
      rw [hlast, ← List.map_append, List.length_map]
    change sb'.buf.take (sb'.last + src.length) = _
    rw [hbuf, ← List.append_assoc, hend, List.take_left, List.map_append]
  · simpa only [hputs.writes] using h.fits

/-- The write that is recorded stays in its room. -/
theorem record_shows {room size : Nat} (h : Shows sb ctx) (hsize : size ≤ room)
    (hroom : sb.last + room ≤ sb.max) : Shows (sb.record room size) ctx := by
  refine ⟨h.kbuf, h.size, h.last, h.max, h.room, h.int, h.text, ?_⟩
  intro w hw
  rcases List.mem_append.1 hw with hw | hw
  · exact h.fits w hw
  · obtain rfl := List.mem_singleton.1 hw
    exact ⟨hsize, hroom⟩

theorem append_shows (h : Shows sb ctx) (happend : ctx.append src = .ok ctx') :
    ∃ sb', sb.append src = .ok sb' ∧ Shows sb' ctx' := by
  obtain ⟨ctx₁, hneed, hctx⟩ := except_bind_ok_iff.1 happend
  obtain rfl := Except.ok.inj hctx
  obtain ⟨sb₁, hneed₁, h₁, hfits⟩ := need_shows h hneed
  have h₂ := record_shows h₁ le_rfl hfits
  obtain ⟨sb₂, hstore, hputs⟩ := store_puts h₂ hfits
  refine ⟨{ sb₂ with last := sb₂.last + src.length }, ?_, hputs.shows h₂⟩
  rw [append, except_bind_of_ok hneed₁, except_bind_of_ok hstore]
  rfl

/-- `strlen` finds the NUL that `snprintf` put behind the text. -/
theorem strlen_eq (hsrc : 0 ∉ src) (rest : List (Option UInt8)) :
    strlen (src.map some ++ some 0 :: rest) = .ok src.length := by
  induction src with
  | nil => rfl
  | cons c src ih =>
      rw [List.mem_cons, not_or] at hsrc
      simp only [List.map_cons, List.cons_append, strlen, if_neg (Ne.symm hsrc.1), ih hsrc.2]
      rfl

theorem print_shows (h : Shows sb ctx) (hsrc : 0 ∉ src) (hshort : src.length < n)
    (hprint : ctx.print n src = .ok ctx') :
    ∃ sb', sb.print n src = .ok sb' ∧ Shows sb' ctx' := by
  obtain ⟨ctx₁, hneed, hctx⟩ := except_bind_ok_iff.1 hprint
  obtain rfl := Except.ok.inj hctx
  obtain ⟨sb₁, hneed₁, h₁, hfits⟩ := need_shows h hneed
  -- nothing is cut off, neither here nor there
  have hwhole : src.take (ctx₁.max - ctx₁.last - 1) = src := by
    rw [← h₁.max, ← h₁.last]
    exact List.take_of_length_le (by omega)
  rw [hwhole]
  obtain ⟨sb₁', hrecord⟩ : ∃ sb₁', sb₁' = sb₁.record n (src.length + 1) := ⟨_, rfl⟩
  have h₂ : Shows sb₁' ctx₁ := hrecord ▸ record_shows h₁ hshort hfits
  have hfits₂ : sb₁'.last + n ≤ sb₁'.max := hrecord ▸ hfits
  have hnul : (src ++ [0]).length = src.length + 1 := List.length_append
  have hfits₃ : sb₁'.last + (src ++ [0]).length ≤ sb₁'.max := by omega
  obtain ⟨sb₂, hstore, hputs⟩ := store_puts h₂ hfits₃
  have hsnprintf : sb₁'.snprintf src = .ok sb₂ := by
    rw [snprintf, h₂.remain_eq, if_neg (by omega), List.take_of_length_le (by omega), hstore]
  obtain ⟨rest, hbuf⟩ := hputs.buf
  rw [List.map_append, List.append_assoc] at hbuf
  have hlast : sb₂.last = (ctx₁.buf.map some).length := by
    rw [hputs.last, h₂.last, List.length_map]
    rfl
  have hadd : sb₂.add = .ok { sb₂ with last := sb₂.last + src.length } := by
    have hstrlen : strlen (sb₂.buf.drop sb₂.last) = .ok src.length := by
      rw [hbuf, hlast, List.drop_left]
      exact strlen_eq hsrc rest
    rw [add, except_bind_of_ok hstrlen]
    rfl
  have hputs₂ : Puts sb₁' ctx₁ src sb₂ := { hputs with buf := ⟨_, hbuf⟩ }
  refine ⟨{ sb₂ with last := sb₂.last + src.length }, ?_, hputs₂.shows h₂⟩
  rw [print, except_bind_of_ok hneed₁, ← hrecord, except_bind_of_ok hsnprintf, hadd]

theorem mapM_some (z : Bytes) : (z.map some).mapM id = some z := by
  induction z with
  | nil => rfl
  | cons c z ih => simp [ih]

theorem text_shows (h : Shows sb ctx) : sb.text = .ok ctx.buf := by
  have hlast : sb.last ≤ sb.buf.length := h.size ▸ h.last_le
  simp only [text, h.text, mapM_some, if_pos hlast]
  rfl

end Strbuf

/-! ## Printing into memory -/

/-- What the computation prints into the buffer that only grows, the other one
prints into memory. -/
def Mirrors (x : PrintM Strbuf Unit) (y : PrintM Fmtx Unit) : Prop :=
  ∀ ⦃sb : Strbuf⦄ ⦃ctx ctx' : Fmtx⦄ ⦃m m' : Addr → Bool⦄, sb.Shows ctx →
    y ⟨ctx, m⟩ = .ok () ⟨ctx', m'⟩ → ∃ sb', x ⟨sb, m⟩ = .ok () ⟨sb', m'⟩ ∧ sb'.Shows ctx'

namespace Mirrors

variable {x x' : PrintM Strbuf Unit} {y y' : PrintM Fmtx Unit} {src : Bytes}
  {p : Variable → PrintM Strbuf Unit} {q : Variable → PrintM Fmtx Unit}

theorem pure : Mirrors (pure ()) (pure ()) := by
  intro sb ctx ctx' m m' hshows hrun
  cases hrun
  exact ⟨sb, rfl, hshows⟩

theorem bind (hx : Mirrors x y) (hx' : Mirrors x' y') :
    Mirrors (x >>= fun _ => x') (y >>= fun _ => y') := by
  intro sb ctx ctx' m m' hshows hrun
  obtain ⟨_, ⟨ctx₁, m₁⟩, hrun₁, hrun₂⟩ := bind_ok_iff.1 hrun
  obtain ⟨sb₁, hsb₁, hshows₁⟩ := hx hshows hrun₁
  obtain ⟨sb₂, hsb₂, hshows₂⟩ := hx' hshows₁ hrun₂
  exact ⟨sb₂, (bind_of_ok hsb₁).trans hsb₂, hshows₂⟩

theorem append (src : Bytes) : Mirrors (fmtxAppend src) (fmtxAppend src) := by
  intro sb ctx ctx' m m' hshows hrun
  cases happend : ctx.append src with
  | error e =>
      rw [fmtxAppend, bind_of_ok (get_apply _),
        show Buffer.append ctx src = .error e from happend] at hrun
      cases hrun
  | ok ctx₁ =>
      rw [fmtxAppend_of_ok happend] at hrun
      cases hrun
      obtain ⟨sb', hsb', hshows'⟩ := Strbuf.append_shows hshows happend
      exact ⟨sb', fmtxAppend_of_ok hsb' m, hshows'⟩

theorem print {n : Nat} (hsrc : 0 ∉ src) (hshort : src.length < n) :
    Mirrors (fmtxPrint n src) (fmtxPrint n src) := by
  intro sb ctx ctx' m m' hshows hrun
  cases hprint : ctx.print n src with
  | error e =>
      rw [fmtxPrint, bind_of_ok (get_apply _),
        show Buffer.print ctx n src = .error e from hprint] at hrun
      cases hrun
  | ok ctx₁ =>
      rw [fmtxPrint_of_ok hprint] at hrun
      cases hrun
      obtain ⟨sb', hsb', hshows'⟩ := Strbuf.print_shows hshows hsrc hshort hprint
      exact ⟨sb', fmtxPrint_of_ok hsb' m, hshows'⟩

theorem mark (o : Addr) (inside : Bool) : Mirrors (fgPrinting o inside) (fgPrinting o inside) := by
  intro sb ctx ctx' m m' hshows hrun
  cases hrun
  exact ⟨sb, rfl, hshows⟩

theorem check {α : Type} {z : Except Fault α} {f : α → PrintM Strbuf Unit}
    {g : α → PrintM Fmtx Unit} (hf : ∀ a, z = .ok a → Mirrors (f a) (g a)) :
    Mirrors (printCheck z >>= f) (printCheck z >>= g) := by
  intro sb ctx ctx' m m' hshows hrun
  cases z with
  | error e => cases hrun
  | ok a => exact hf a rfl hshows hrun

theorem elems {elem : List Variable} (f : Nat) (hall : ∀ v ∈ elem, Mirrors (p v) (q v)) :
    Mirrors (printElems p f elem) (printElems q f elem) := by
  induction elem generalizing f with
  | nil => exact pure
  | cons v rest ih =>
      rw [List.forall_mem_cons] at hall
      have hrest := hall.1.bind (ih (f + 1) hall.2)
      unfold printElems
      by_cases hf : 0 < f
      · simp only [if_pos hf]
        exact (append _).bind hrest
      · simp only [if_neg hf]
        exact pure.bind hrest

theorem pairs {ps : List (Variable × Variable)} (f : Nat)
    (hall : ∀ e ∈ ps, Mirrors (p e.1) (q e.1) ∧ Mirrors (p e.2) (q e.2)) :
    Mirrors (printPairs p f ps) (printPairs q f ps) := by
  induction ps generalizing f with
  | nil => exact pure
  | cons e rest ih =>
      rw [List.forall_mem_cons] at hall
      have hrest := hall.1.1.bind ((append (lit " : ")).bind (hall.1.2.bind (ih (f + 1) hall.2)))
      unfold printPairs
      by_cases hf : 0 < f
      · simp only [if_pos hf]
        exact (append _).bind hrest
      · simp only [if_neg hf]
        exact pure.bind hrest

theorem container {o : Addr} {self opening closing : Bytes} (hloop : Mirrors x y) :
    Mirrors (printContainer o self opening closing x)
      (printContainer o self opening closing y) := by
  intro sb ctx ctx' m m' hshows hrun
  have hfull := (append opening).bind ((mark o true).bind (hloop.bind ((mark o false).bind
    (append closing))))
  rw [printContainer, bind_of_ok (get_apply _)] at hrun ⊢
  cases hmark : m o with
  | true =>
      simp only [hmark, if_true] at hrun ⊢
      exact append self hshows hrun
  | false =>
      simp only [hmark, Bool.false_eq_true, if_false] at hrun ⊢
      exact hfull hshows hrun

end Mirrors

/-- What `%p` prints is a string of C. -/
def PrintEnv.Strings (env : PrintEnv) : Prop := ∀ p, 0 ∉ env.pointer p

theorem Decimal.string {z : Bytes} {n : Int} (h : Decimal z n) : 0 ∉ z := by
  have hzero : ¬ IsDec 0 := by unfold IsDec; decide
  cases h with
  | plain hds => exact fun h => hzero (hds 0 h)
  | minus _ hds =>
      rw [List.mem_cons, not_or]
      exact ⟨by decide, fun h => hzero (hds 0 h)⟩

section

variable {heap : Heap} {env : PrintEnv}

theorem mirrors_mand (hshort : env.Short) (hstrings : env.Strings) {o : Addr} {mand : Mand}
    (hlen : mand.land.length < 2 ^ 31) :
    Mirrors (printMand env o mand) (printMand env o mand) := by
  have hlast : (lit "[" ++ decimal mand.land.length ++ lit "@" ++ env.pointer (env.land o) ++
      lit "]").length < 10 + 24 + 2 := length_mandText_lt hshort hlen o
  have hstring : 0 ∉ lit "[" ++ decimal mand.land.length ++ lit "@" ++ env.pointer (env.land o) ++
      lit "]" := by
    simp only [List.mem_append, not_or]
    exact ⟨⟨⟨⟨by decide, (decimal_spells _).string⟩, by decide⟩, hstrings _⟩, by decide⟩
  exact (Mirrors.append _).bind ((Mirrors.append _).bind ((Mirrors.append _).bind
    (Mirrors.print hstring hlast)))

/-- `tostring` prints into memory what it prints into the buffer that only grows. -/
theorem mirrors_tostring (hshort : env.Short) (hstrings : env.Strings) (hgraph : PrintGraph heap)
    {v : Variable} (hv : Printable heap v) (depth : Nat) :
    Mirrors (tostring heap env depth v) (tostring heap env depth v) := by
  induction depth generalizing v with
  | zero =>
      intro sb ctx ctx' m m' _ hrun
      cases hrun
  | succ depth ih =>
      cases v with
      | nil => exact Mirrors.append _
      | int i =>
          exact Mirrors.print (decimal_spells _).string
            (Nat.lt_of_le_of_lt (length_decimal_int i) (by decide))
      | bool i => exact Mirrors.append _
      | ext p =>
          refine Mirrors.print ?_ (length_ext_lt hshort p)
          rw [List.mem_append, not_or]
          exact ⟨by decide, hstrings p⟩
      | kstr z => exact Mirrors.append _
      | func o => exact Mirrors.check fun fn _ => Mirrors.append _
      | mand o =>
          refine Mirrors.check fun mand hmand => mirrors_mand hshort hstrings ?_
          obtain ⟨mand', hmand', hlen⟩ := hv
          rwa [Except.ok.inj (hmand.symm.trans hmand')]
      | dyay o =>
          refine Mirrors.check fun elem helem => Mirrors.container ?_
          refine Mirrors.elems 0 fun w hw => ih ?_
          exact hgraph _ hv w (by simpa only [parts, helem] using hw)
      | hmap o =>
          refine Mirrors.check fun map hmap => Mirrors.container (Mirrors.pairs 0 fun e he => ?_)
          have hparts := printable_pairs hgraph hv (by simp only [parts, hmap]) e he
          exact ⟨ih hparts.1, ih hparts.2⟩
      | skls o =>
          refine Mirrors.check fun list hlist => Mirrors.container (Mirrors.check fun ps hps =>
            Mirrors.pairs 0 fun e he => ?_)
          have hpairs : heap.skls o >>= Skls.traverse = .ok ps :=
            except_bind_ok_iff.2 ⟨list, hlist, hps⟩
          have hparts := printable_pairs hgraph hv (by simp only [parts, hpairs]) e he
          exact ⟨ih hparts.1, ih hparts.2⟩

end

end Ymd
