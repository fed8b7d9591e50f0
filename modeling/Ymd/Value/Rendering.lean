import Mathlib.Data.Finset.Card
import Ymd.Value.ToString

/-! # What `tostring` prints

The text of a value is defined along the path of the containers around it: a
container on the path is a self-reference, every other one is printed in full.
`tostring` prints this text on every finite graph and leaves no mark behind, as
long as the text fits its buffer.
-/

namespace Ymd

open Foundation

/-! ## Texts -/

section

variable (heap : Heap) (env : PrintEnv) (r : Variable → Option Bytes)

def renderAll : List Variable → Option (List Bytes)
  | [] => some []
  | v :: rest => do return (← r v) :: (← renderAll rest)

def renderPairs : List (Variable × Variable) → Option (List Bytes)
  | [] => some []
  | (k, v) :: rest => do return ((← r k) ++ lit " : " ++ (← r v)) :: (← renderPairs rest)

/-- Texts behind a first one, each with its separator. -/
def behind (texts : List Bytes) : Bytes := texts.flatMap fun text => lit ", " ++ text

def joined : List Bytes → Bytes
  | [] => []
  | text :: rest => text ++ behind rest

/-- The text of a container, unless it is on the path. -/
def enclosed (path : List Addr) (o : Addr) (self opening closing : Bytes)
    (items : Option (List Bytes)) : Option Bytes :=
  if o ∈ path then some self else items.map fun texts => opening ++ joined texts ++ closing

def mandText (o : Addr) (m : Mand) : Bytes :=
  lit "(" ++ (env.tt o).getD (lit "*") ++ lit ")" ++
    (lit "[" ++ decimal m.land.length ++ lit "@" ++ env.pointer (env.land o) ++ lit "]")

/-- The text of a value inside the containers of `path`, with at most `depth`
values around each other. -/
def rendered : (depth : Nat) → (path : List Addr) → Variable → Option Bytes
  | 0, _, _ => none
  | depth + 1, path, v =>
      match v with
      | .nil => some (lit "nil")
      | .int i => some (decimal i.toInt)
      | .bool i => some (if i = 0 then lit "false" else lit "true")
      | .ext p => some (lit "@" ++ env.pointer p)
      | .kstr z => some z
      | .func o => (heap.func o).toOption.map Func.proto
      | .dyay o => do
          let elem ← (heap.dyay o).toOption
          enclosed path o (lit "..[self]..") (lit "[") (lit "]")
            (renderAll (rendered depth (o :: path)) elem)
      | .hmap o => do
          let map ← (heap.hmap o).toOption
          enclosed path o (lit "..\x7bself\x7d..") (lit "\x7b") (lit "\x7d")
            (renderPairs (rendered depth (o :: path)) map.slots)
      | .skls o => do
          let pairs ← (heap.skls o >>= Skls.traverse).toOption
          enclosed path o (lit "..@\x7bself\x7d..") (lit "@\x7b") (lit "\x7d")
            (renderPairs (rendered depth (o :: path)) pairs)
      | .mand o => (heap.mand o).toOption.map (mandText env o)

/-- The text of a value. -/
def Renders (v : Variable) (text : Bytes) : Prop := ∃ depth, rendered heap env depth [] v = some text

end

/-- The values inside a value. -/
def parts (heap : Heap) (v : Variable) : List Variable :=
  match v with
  | .dyay o =>
      match heap.dyay o with
      | .ok elem => elem
      | .error _ => []
  | .hmap o =>
      match heap.hmap o with
      | .ok map => map.slots.flatMap fun p => [p.1, p.2]
      | .error _ => []
  | .skls o =>
      match heap.skls o >>= Skls.traverse with
      | .ok pairs => pairs.flatMap fun p => [p.1, p.2]
      | .error _ => []
  | _ => []

/-- A reference leads to an object of its type, whose length is an `int`. -/
def Printable (heap : Heap) : Variable → Prop
  | .nil | .int _ | .bool _ | .ext _ | .kstr _ => True
  | .func o => ∃ fn, heap.func o = .ok fn
  | .dyay o => ∃ elem, heap.dyay o = .ok elem
  | .hmap o => ∃ map, heap.hmap o = .ok map
  | .skls o => ∃ pairs, heap.skls o >>= Skls.traverse = .ok pairs
  | .mand o => ∃ m, heap.mand o = .ok m ∧ m.land.length < 2 ^ 31

/-- A graph of such values. -/
def PrintGraph (heap : Heap) : Prop :=
  ∀ v, Printable heap v → ∀ w ∈ parts heap v, Printable heap w

/-- What `%p` prints is short enough for the room that is asked for. -/
def PrintEnv.Short (env : PrintEnv) : Prop := ∀ p, (env.pointer p).length ≤ 20

/-! ## The buffer -/

namespace Fmtx

variable {ctx ctx' : Fmtx} {n : Nat} {src : Bytes}

/-- The buffer has at least the bytes of the structure itself. -/
def Room (ctx : Fmtx) : Prop := fmtxStaticMax ≤ ctx.max

theorem need_ok (hroom : ctx.Room) (hfits : 3 * (ctx.last + n) < 2 ^ 31) :
    ∃ max, ctx.need n = .ok ⟨ctx.buf, max⟩ ∧ fmtxStaticMax ≤ max ∧ ctx.last + n ≤ max := by
  unfold need
  rw [if_neg (by omega)]
  by_cases hstatic : ctx.last + n ≤ fmtxStaticMax
  · rw [if_pos hstatic]
    exact ⟨ctx.max, rfl, hroom, hstatic.trans hroom⟩
  rw [if_neg hstatic]
  by_cases hmax : ctx.last + n ≤ ctx.max
  · rw [if_pos hmax]
    exact ⟨ctx.max, rfl, hroom, hmax⟩
  rw [if_neg hmax, if_neg (by omega)]
  exact ⟨_, rfl, Nat.le_add_left _ _, by omega⟩

theorem append_ok (hroom : ctx.Room) (hfits : 3 * (ctx.last + src.length) < 2 ^ 31) :
    ∃ ctx', ctx.append src = .ok ctx' ∧ ctx'.Room ∧ ctx'.buf = ctx.buf ++ src := by
  obtain ⟨max, hneed, hmax, -⟩ := need_ok hroom hfits
  exact ⟨⟨ctx.buf ++ src, max⟩, by rw [append, hneed]; rfl, hmax, rfl⟩

theorem print_ok (hroom : ctx.Room) (hfits : 3 * (ctx.last + n) < 2 ^ 31)
    (hshort : src.length < n) :
    ∃ ctx', ctx.print n src = .ok ctx' ∧ ctx'.Room ∧ ctx'.buf = ctx.buf ++ src := by
  obtain ⟨max, hneed, hmax, hlast⟩ := need_ok hroom hfits
  refine ⟨⟨ctx.buf ++ src.take (max - ctx.last - 1), max⟩, by rw [print, hneed]; rfl, hmax, ?_⟩
  rw [List.take_of_length_le (by omega)]

/-- Whatever is printed, its end is an `int`. -/
theorem need_lt (h : ctx.need n = .ok ctx') : ctx.last + n < 2 ^ 31 ∧ ctx'.buf = ctx.buf := by
  unfold need at h
  split at h
  · cases h
  next hlt =>
    refine ⟨Nat.not_le.1 hlt, ?_⟩
    split at h
    · cases h
      rfl
    · split at h
      · cases h
        rfl
      · split at h <;> cases h
        rfl

end Fmtx

/-! ## Printing -/

section

variable {B : Type} [Buffer B] {ctx ctx' : B} {n : Nat} {src : Bytes}

theorem fmtxAppend_of_ok (h : Buffer.append ctx src = .ok ctx') (m : Addr → Bool) :
    fmtxAppend src ⟨ctx, m⟩ = .ok () ⟨ctx', m⟩ := by
  simp only [fmtxAppend, bind_of_ok (get_apply _), h]
  rfl

theorem fmtxPrint_of_ok (h : Buffer.print ctx n src = .ok ctx') (m : Addr → Bool) :
    fmtxPrint n src ⟨ctx, m⟩ = .ok () ⟨ctx', m⟩ := by
  simp only [fmtxPrint, bind_of_ok (get_apply _), h]
  rfl

end

/-- The computation prints a text, if it fits, and changes the marks `m` to `m'`. -/
def Emits (x : PrintM Fmtx Unit) (m m' : Addr → Bool) (text : Bytes) : Prop :=
  ∀ ctx : Fmtx, ctx.Room → 3 * (ctx.last + text.length + 36) < 2 ^ 31 →
    ∃ ctx' : Fmtx, x ⟨ctx, m⟩ = .ok () ⟨ctx', m'⟩ ∧ ctx'.Room ∧ ctx'.buf = ctx.buf ++ text

namespace Emits

variable {x y : PrintM Fmtx Unit} {m m' m'' : Addr → Bool} {text text' : Bytes}

theorem pure (m : Addr → Bool) : Emits (pure () : PrintM Fmtx Unit) m m [] :=
  fun ctx hroom _ => ⟨ctx, rfl, hroom, (List.append_nil _).symm⟩

theorem bind (hx : Emits x m m' text) (hy : Emits y m' m'' text') :
    Emits (x >>= fun _ => y) m m'' (text ++ text') := by
  intro ctx hroom hfits
  rw [List.length_append] at hfits
  obtain ⟨ctx₁, hrun₁, hroom₁, hbuf₁⟩ := hx ctx hroom (by omega)
  have hlast : ctx₁.last = ctx.last + text.length := by
    rw [Fmtx.last, hbuf₁, List.length_append]
    rfl
  obtain ⟨ctx₂, hrun₂, hroom₂, hbuf₂⟩ := hy ctx₁ hroom₁ (by omega)
  refine ⟨ctx₂, (bind_of_ok hrun₁).trans hrun₂, hroom₂, ?_⟩
  rw [hbuf₂, hbuf₁, List.append_assoc]

theorem append (m : Addr → Bool) (src : Bytes) : Emits (fmtxAppend src) m m src := by
  intro ctx hroom hfits
  obtain ⟨ctx', happend, hroom', hbuf⟩ := @Fmtx.append_ok ctx src hroom (by omega)
  exact ⟨ctx', fmtxAppend_of_ok happend m, hroom', hbuf⟩

theorem print {n : Nat} {src : Bytes} (m : Addr → Bool) (hn : n ≤ 36) (hshort : src.length < n) :
    Emits (fmtxPrint n src) m m src := by
  intro ctx hroom hfits
  obtain ⟨ctx', hprint, hroom', hbuf⟩ := Fmtx.print_ok hroom (by omega) hshort
  exact ⟨ctx', fmtxPrint_of_ok hprint m, hroom', hbuf⟩

theorem mark (m : Addr → Bool) (o : Addr) (inside : Bool) :
    Emits (fgPrinting o inside) m (Function.update m o inside) [] :=
  fun ctx hroom _ => ⟨ctx, rfl, hroom, (List.append_nil _).symm⟩

theorem check {α : Type} {a : α} {z : Except Fault α} {f : α → PrintM Fmtx Unit} (hz : z = .ok a)
    (hf : Emits (f a) m m' text) : Emits (printCheck z >>= f) m m' text := by
  rw [hz]
  exact hf

variable {p : Variable → PrintM Fmtx Unit}

theorem elems {elem : List Variable} {texts : List Bytes} (f : Nat)
    (hall : List.Forall₂ (fun v text => Emits (p v) m m text) elem texts) :
    Emits (printElems p f elem) m m (if f = 0 then joined texts else behind texts) := by
  induction hall generalizing f with
  | nil =>
      simp only [joined, behind, List.flatMap_nil, ite_self]
      exact Emits.pure m
  | @cons v text rest texts hv _ ih =>
      have hrest := ih (f + 1)
      rw [if_neg (Nat.succ_ne_zero f)] at hrest
      unfold printElems
      by_cases hf : f = 0
      · rw [if_pos hf, if_neg (by omega)]
        exact hv.bind hrest
      · rw [if_neg hf, if_pos (by omega), behind, List.flatMap_cons, List.append_assoc]
        exact (Emits.append m _).bind (hv.bind hrest)

theorem pairs {ps : List (Variable × Variable)} {texts : List Bytes} (f : Nat)
    (hall : List.Forall₂ (fun e text => ∃ k v, Emits (p e.1) m m k ∧ Emits (p e.2) m m v ∧
      text = k ++ lit " : " ++ v) ps texts) :
    Emits (printPairs p f ps) m m (if f = 0 then joined texts else behind texts) := by
  induction hall generalizing f with
  | nil =>
      simp only [joined, behind, List.flatMap_nil, ite_self]
      exact Emits.pure m
  | @cons e text rest texts he _ ih =>
      obtain ⟨k, v, hk, hv, rfl⟩ := he
      have hrest := ih (f + 1)
      rw [if_neg (Nat.succ_ne_zero f)] at hrest
      have hentry := hk.bind ((Emits.append m (lit " : ")).bind (hv.bind hrest))
      unfold printPairs
      by_cases hf : f = 0
      · rw [if_pos hf, if_neg (by omega)]
        simpa only [joined, behind, List.append_assoc] using hentry
      · rw [if_neg hf, if_pos (by omega), behind, List.flatMap_cons]
        simpa only [behind, List.append_assoc] using (Emits.append m (lit ", ")).bind hentry

/-- The mark is there while the loop runs. -/
theorem container {o : Addr} {self opening closing : Bytes} {loop : PrintM Fmtx Unit}
    {path : List Addr} {items : Option (List Bytes)} (hm : ∀ a, m a = decide (a ∈ path))
    (hloop : ∀ texts, items = some texts →
      Emits loop (Function.update m o true) (Function.update m o true) (joined texts))
    (htext : enclosed path o self opening closing items = some text) :
    Emits (printContainer o self opening closing loop) m m text := by
  have hread : ∀ ctx, printContainer o self opening closing loop ⟨ctx, m⟩ =
      (if m o then fmtxAppend self else do
        fmtxAppend opening
        fgPrinting o true
        loop
        fgPrinting o false
        fmtxAppend closing) ⟨ctx, m⟩ := fun ctx => by
    rw [printContainer, bind_of_ok (get_apply _)]
  intro ctx
  rw [hread]
  unfold enclosed at htext
  by_cases ho : o ∈ path
  · rw [if_pos ho] at htext
    obtain rfl := Option.some.inj htext
    rw [if_pos ((hm o).trans (decide_eq_true ho))]
    exact Emits.append m self ctx
  · rw [if_neg ho] at htext
    obtain ⟨texts, hitems, rfl⟩ := Option.map_eq_some_iff.1 htext
    have hclear : m o = false := (hm o).trans (decide_eq_false ho)
    have hback : Function.update (Function.update m o true) o false = m := by
      rw [Function.update_idem, ← hclear, Function.update_eq_self]
    rw [hclear, if_neg Bool.false_ne_true]
    have hleave := mark (Function.update m o true) o false
    rw [hback] at hleave
    have hall := (Emits.append m opening).bind ((mark m o true).bind
      ((hloop texts hitems).bind (hleave.bind (Emits.append m closing))))
    simp only [List.nil_append, ← List.append_assoc] at hall
    exact hall ctx

end Emits

/-! ## The text of a value -/

theorem renderAll_forall₂ {r : Variable → Option Bytes} {P : Variable → Prop}
    {elem : List Variable} {texts : List Bytes} (hP : ∀ v ∈ elem, P v)
    (h : renderAll r elem = some texts) :
    List.Forall₂ (fun v text => P v ∧ r v = some text) elem texts := by
  induction elem generalizing texts with
  | nil =>
      obtain rfl := Option.some.inj h
      exact .nil
  | cons v rest ih =>
      obtain ⟨text, hv, htail⟩ := Option.bind_eq_some_iff.1 h
      obtain ⟨texts', hrest, heq⟩ := Option.bind_eq_some_iff.1 htail
      obtain rfl := Option.some.inj heq
      rw [List.forall_mem_cons] at hP
      exact .cons ⟨hP.1, hv⟩ (ih hP.2 hrest)

theorem renderPairs_forall₂ {r : Variable → Option Bytes} {P : Variable → Prop}
    {ps : List (Variable × Variable)} {texts : List Bytes} (hP : ∀ e ∈ ps, P e.1 ∧ P e.2)
    (h : renderPairs r ps = some texts) :
    List.Forall₂ (fun e text => ∃ k v, (P e.1 ∧ r e.1 = some k) ∧ (P e.2 ∧ r e.2 = some v) ∧
      text = k ++ lit " : " ++ v) ps texts := by
  induction ps generalizing texts with
  | nil =>
      obtain rfl := Option.some.inj h
      exact .nil
  | cons e rest ih =>
      obtain ⟨k, hk, htail⟩ := Option.bind_eq_some_iff.1 h
      obtain ⟨v, hv, hlast⟩ := Option.bind_eq_some_iff.1 htail
      obtain ⟨texts', hrest, heq⟩ := Option.bind_eq_some_iff.1 hlast
      obtain rfl := Option.some.inj heq
      rw [List.forall_mem_cons] at hP
      exact .cons ⟨k, v, ⟨hP.1.1, hk⟩, ⟨hP.1.2, hv⟩, rfl⟩ (ih hP.2 hrest)

theorem length_lit (s : String) : (lit s).length = s.length := by
  rw [lit, List.length_map, String.length_toList]

/-- A decimal number has its digits and perhaps a sign. -/
theorem length_decimal_le {n : Nat} {i : Int} (hi : i.natAbs < 10 ^ n) (hn : 0 < n) :
    (decimal i).length ≤ n + 1 := by
  rw [decimal, length_lit]
  cases i with
  | ofNat k =>
      have hdigits := (Nat.length_repr_le_iff hn).2 (show k < 10 ^ n from hi)
      exact Nat.le_succ_of_le hdigits
  | negSucc k =>
      have hdigits := (Nat.length_repr_le_iff hn).2 (show k + 1 < 10 ^ n from hi)
      change ("-" ++ (k + 1).repr).length ≤ n + 1
      rw [String.length_append]
      exact (Nat.add_comm _ _).le.trans (Nat.add_le_add_right hdigits 1)

section

variable {heap : Heap} {env : PrintEnv} {depth : Nat} {path : List Addr} {v : Variable}
  {text : Bytes} {m : Addr → Bool}

theorem update_path {o : Addr} (hm : ∀ a, m a = decide (a ∈ path)) (a : Addr) :
    Function.update m o true a = decide (a ∈ o :: path) := by
  rw [Function.update_apply, hm a]
  by_cases ha : a = o <;> simp [ha]

theorem toOption_eq_some {α : Type} {x : Except Fault α} {a : α} :
    x.toOption = some a ↔ x = .ok a := by
  cases x with
  | ok b => simp [Except.toOption]
  | error f => simp [Except.toOption]

/-- The text of a number fits the room that is asked for. -/
theorem length_decimal_int (i : YmdInt) : (decimal i.toInt).length ≤ 20 := by
  have hlt := i.toInt_lt
  have hle := i.le_toInt
  exact length_decimal_le (n := 19) (by omega) (by decide)

theorem length_ext_lt (hshort : env.Short) (p : BitVec 64) :
    (lit "@" ++ env.pointer p).length < 24 := by
  have hpointer := hshort p
  have hat : "@".length = 1 := rfl
  rw [List.length_append, length_lit]
  omega

theorem length_mandText_lt (hshort : env.Short) {mand : Mand} (hlen : mand.land.length < 2 ^ 31)
    (o : Addr) : (lit "[" ++ decimal mand.land.length ++ lit "@" ++ env.pointer (env.land o) ++
      lit "]").length < 10 + 24 + 2 := by
  have hdecimal : (decimal mand.land.length).length ≤ 11 :=
    length_decimal_le (n := 10) (by simp; omega) (by decide)
  have hpointer := hshort (env.land o)
  simp only [List.length_append, length_lit]
  have h1 : "[".length = 1 := rfl
  have h2 : "@".length = 1 := rfl
  have h3 : "]".length = 1 := rfl
  omega

theorem emits_mand (hshort : env.Short) {o : Addr} {mand : Mand}
    (hlen : mand.land.length < 2 ^ 31) (m : Addr → Bool) :
    Emits (printMand env o mand) m m (mandText env o mand) := by
  have hlast := length_mandText_lt hshort hlen o
  have hall := (Emits.append m (lit "(")).bind ((Emits.append m ((env.tt o).getD (lit "*"))).bind
    ((Emits.append m (lit ")")).bind (Emits.print m le_rfl hlast)))
  simp only [← List.append_assoc] at hall
  simp only [mandText, ← List.append_assoc]
  exact hall

theorem printable_pairs {ps : List (Variable × Variable)} (hgraph : PrintGraph heap)
    (hv : Printable heap v) (hparts : parts heap v = ps.flatMap fun p => [p.1, p.2]) :
    ∀ e ∈ ps, Printable heap e.1 ∧ Printable heap e.2 := by
  intro e he
  constructor
  · refine hgraph v hv e.1 ?_
    rw [hparts]
    exact List.mem_flatMap.2 ⟨e, he, List.mem_cons_self⟩
  · refine hgraph v hv e.2 ?_
    rw [hparts]
    exact List.mem_flatMap.2 ⟨e, he, List.mem_cons_of_mem _ List.mem_cons_self⟩

/-- `tostring` prints the text of a value when the objects that carry the mark are
those on the path. -/
theorem emits_tostring (hshort : env.Short) (hgraph : PrintGraph heap) (hv : Printable heap v)
    (hm : ∀ a, m a = decide (a ∈ path)) (htext : rendered heap env depth path v = some text) :
    Emits (tostring heap env depth v) m m text := by
  induction depth generalizing path v text m with
  | zero => cases htext
  | succ depth ih =>
      -- an entry of a map, with the mark of the map set
      have helem : ∀ {o : Addr} {m : Addr → Bool} {path : List Addr}
          (e : Variable × Variable) (t : Bytes), (∀ a, m a = decide (a ∈ path)) →
          (∃ k v, (Printable heap e.1 ∧ rendered heap env depth (o :: path) e.1 = some k) ∧
            (Printable heap e.2 ∧ rendered heap env depth (o :: path) e.2 = some v) ∧
            t = k ++ lit " : " ++ v) →
          ∃ k v, Emits (tostring heap env depth e.1) (Function.update m o true)
              (Function.update m o true) k ∧
            Emits (tostring heap env depth e.2) (Function.update m o true)
              (Function.update m o true) v ∧ t = k ++ lit " : " ++ v := by
        rintro o m path e t hm ⟨k, v, hk, hv, ht⟩
        exact ⟨k, v, ih hk.1 (update_path hm) hk.2, ih hv.1 (update_path hm) hv.2, ht⟩
      cases v with
      | nil =>
          cases htext
          exact Emits.append m _
      | int i =>
          cases htext
          exact Emits.print m (by decide) (Nat.lt_of_le_of_lt (length_decimal_int i) (by decide))
      | bool i =>
          cases htext
          exact Emits.append m _
      | ext p =>
          cases htext
          exact Emits.print m (by decide) (length_ext_lt hshort p)
      | kstr z =>
          cases htext
          exact Emits.append m _
      | func o =>
          obtain ⟨fn, hfn, rfl⟩ := Option.map_eq_some_iff.1 htext
          exact Emits.check (toOption_eq_some.1 hfn) (Emits.append m _)
      | mand o =>
          obtain ⟨mand, hmand, rfl⟩ := Option.map_eq_some_iff.1 htext
          have hmand := toOption_eq_some.1 hmand
          obtain ⟨mand', hmand', hlen⟩ := hv
          obtain rfl := Except.ok.inj (hmand.symm.trans hmand')
          exact Emits.check hmand (emits_mand hshort hlen m)
      | dyay o =>
          obtain ⟨elem, helem, htext⟩ := Option.bind_eq_some_iff.1 htext
          have helem := toOption_eq_some.1 helem
          have hparts : ∀ w ∈ elem, Printable heap w := fun w hw =>
            hgraph _ hv w (by simpa only [parts, helem] using hw)
          refine Emits.check helem (Emits.container hm (fun texts htexts => ?_) htext)
          apply Emits.elems 0
          apply (renderAll_forall₂ hparts htexts).imp
          intro w t ht
          exact ih ht.1 (update_path hm) ht.2
      | hmap o =>
          obtain ⟨map, hmap, htext⟩ := Option.bind_eq_some_iff.1 htext
          have hmap := toOption_eq_some.1 hmap
          have hparts : ∀ e ∈ map.slots, Printable heap e.1 ∧ Printable heap e.2 :=
            printable_pairs hgraph hv (by simp only [parts, hmap])
          exact Emits.check hmap (Emits.container hm (fun texts htexts =>
            Emits.pairs 0 ((renderPairs_forall₂ hparts htexts).imp fun e t => helem e t hm)) htext)
      | skls o =>
          obtain ⟨pairs, hpairs, htext⟩ := Option.bind_eq_some_iff.1 htext
          have hpairs := toOption_eq_some.1 hpairs
          obtain ⟨list, hlist, htraverse⟩ := except_bind_ok_iff.1 hpairs
          have hparts : ∀ e ∈ pairs, Printable heap e.1 ∧ Printable heap e.2 :=
            printable_pairs hgraph hv (by simp only [parts, hpairs])
          exact Emits.check hlist (Emits.container hm (fun texts htexts =>
            Emits.check htraverse (Emits.pairs 0
              ((renderPairs_forall₂ hparts htexts).imp fun e t => helem e t hm))) htext)

/-! ## More depth -/

theorem renderAll_isSome {r : Variable → Option Bytes} {elem : List Variable}
    (h : ∀ v ∈ elem, (r v).isSome = true) : (renderAll r elem).isSome = true := by
  induction elem with
  | nil => rfl
  | cons v rest ih =>
      rw [List.forall_mem_cons] at h
      obtain ⟨text, hv⟩ := Option.isSome_iff_exists.1 h.1
      obtain ⟨texts, hrest⟩ := Option.isSome_iff_exists.1 (ih h.2)
      simp [renderAll, hv, hrest]

theorem renderPairs_isSome {r : Variable → Option Bytes} {ps : List (Variable × Variable)}
    (h : ∀ e ∈ ps, (r e.1).isSome = true ∧ (r e.2).isSome = true) :
    (renderPairs r ps).isSome = true := by
  induction ps with
  | nil => rfl
  | cons e rest ih =>
      rw [List.forall_mem_cons] at h
      obtain ⟨k, hk⟩ := Option.isSome_iff_exists.1 h.1.1
      obtain ⟨v, hv⟩ := Option.isSome_iff_exists.1 h.1.2
      obtain ⟨texts, hrest⟩ := Option.isSome_iff_exists.1 (ih h.2)
      simp [renderPairs, hk, hv, hrest]

theorem renderAll_mono {r r' : Variable → Option Bytes}
    (hr : ∀ v text, r v = some text → r' v = some text) {elem : List Variable}
    {texts : List Bytes} (h : renderAll r elem = some texts) : renderAll r' elem = some texts := by
  induction elem generalizing texts with
  | nil => exact h
  | cons v rest ih =>
      obtain ⟨text, hv, htail⟩ := Option.bind_eq_some_iff.1 h
      obtain ⟨texts', hrest, heq⟩ := Option.bind_eq_some_iff.1 htail
      simp only [renderAll, hr v text hv, ih hrest, Option.bind_eq_bind, Option.bind_some]
      exact heq

theorem renderPairs_mono {r r' : Variable → Option Bytes}
    (hr : ∀ v text, r v = some text → r' v = some text) {ps : List (Variable × Variable)}
    {texts : List Bytes} (h : renderPairs r ps = some texts) : renderPairs r' ps = some texts := by
  induction ps generalizing texts with
  | nil => exact h
  | cons e rest ih =>
      obtain ⟨k, hk, htail⟩ := Option.bind_eq_some_iff.1 h
      obtain ⟨v, hv, hlast⟩ := Option.bind_eq_some_iff.1 htail
      obtain ⟨texts', hrest, heq⟩ := Option.bind_eq_some_iff.1 hlast
      simp only [renderPairs, hr _ _ hk, hr _ _ hv, ih hrest, Option.bind_eq_bind, Option.bind_some]
      exact heq

theorem enclosed_mono {o : Addr} {self opening closing : Bytes}
    {items items' : Option (List Bytes)}
    (hitems : ∀ texts, items = some texts → items' = some texts)
    (h : enclosed path o self opening closing items = some text) :
    enclosed path o self opening closing items' = some text := by
  unfold enclosed at h ⊢
  split
  next ho =>
    rw [if_pos ho] at h
    exact h
  next ho =>
    rw [if_neg ho] at h
    obtain ⟨texts, htexts, rfl⟩ := Option.map_eq_some_iff.1 h
    rw [hitems texts htexts]
    rfl

theorem rendered_succ (h : rendered heap env depth path v = some text) :
    rendered heap env (depth + 1) path v = some text := by
  induction depth generalizing path v text with
  | zero => cases h
  | succ depth ih =>
      have hr : ∀ (o : Addr) (w : Variable) (t : Bytes), rendered heap env depth (o :: path) w = some t →
          rendered heap env (depth + 1) (o :: path) w = some t := fun o w t ht => ih ht
      cases v with
      | dyay o =>
          obtain ⟨elem, helem, h⟩ := Option.bind_eq_some_iff.1 h
          refine Option.bind_eq_some_iff.2 ⟨elem, helem, enclosed_mono (fun texts => ?_) h⟩
          exact renderAll_mono (hr o)
      | hmap o =>
          obtain ⟨map, hmap, h⟩ := Option.bind_eq_some_iff.1 h
          refine Option.bind_eq_some_iff.2 ⟨map, hmap, enclosed_mono (fun texts => ?_) h⟩
          exact renderPairs_mono (hr o)
      | skls o =>
          obtain ⟨pairs, hpairs, h⟩ := Option.bind_eq_some_iff.1 h
          refine Option.bind_eq_some_iff.2 ⟨pairs, hpairs, enclosed_mono (fun texts => ?_) h⟩
          exact renderPairs_mono (hr o)
      | nil => exact h
      | int i => exact h
      | bool i => exact h
      | ext p => exact h
      | kstr z => exact h
      | func o => exact h
      | mand o => exact h

theorem rendered_le {depth' : Nat} (hle : depth ≤ depth')
    (h : rendered heap env depth path v = some text) :
    rendered heap env depth' path v = some text := by
  induction hle with
  | refl => exact h
  | step _ ih => exact rendered_succ ih

theorem Renders.unique {text' : Bytes} (h : Renders heap env v text) (h' : Renders heap env v text') :
    text = text' := by
  obtain ⟨depth, htext⟩ := h
  obtain ⟨depth', htext'⟩ := h'
  have hmax := rendered_le (Nat.le_max_left depth depth') htext
  have hmax' := rendered_le (Nat.le_max_right depth depth') htext'
  exact Option.some.inj (hmax.symm.trans hmax')

/-! ## Every graph has a text -/

/-- The objects that are not on the path. -/
def offPath (heap : Heap) (path : List Addr) : Nat :=
  (Finset.range heap.next \ path.toFinset).card

theorem offPath_cons_lt {o : Addr} (ho : o < heap.next) (hpath : o ∉ path) :
    offPath heap (o :: path) < offPath heap path := by
  apply Finset.card_lt_card
  rw [Finset.ssubset_iff_of_subset]
  · refine ⟨o, ?_, ?_⟩
    · simp [ho, hpath]
    · simp
  · intro a ha
    rw [List.toFinset_cons] at ha
    simp only [Finset.mem_sdiff, Finset.mem_insert, not_or] at ha ⊢
    exact ⟨ha.1, ha.2.2⟩

theorem enclosed_isSome {o : Addr} {self opening closing : Bytes} {items : Option (List Bytes)}
    (hitems : o ∉ path → items.isSome = true) :
    (enclosed path o self opening closing items).isSome = true := by
  unfold enclosed
  split
  next => rfl
  next ho => simpa using hitems ho

/-- Every container that is printed in full is one that was not on the path. -/
theorem rendered_isSome (hgraph : PrintGraph heap) (hv : Printable heap v)
    (hdepth : offPath heap path < depth) : (rendered heap env depth path v).isSome = true := by
  induction depth generalizing path v with
  | zero => exact absurd hdepth (Nat.not_lt_zero _)
  | succ depth ih =>
      have hinner : ∀ o < heap.next, o ∉ path → ∀ w, Printable heap w →
          (rendered heap env depth (o :: path) w).isSome = true := fun o ho hpath w hw =>
        ih hw ((offPath_cons_lt ho hpath).trans_le (Nat.le_of_lt_succ hdepth))
      cases v with
      | dyay o =>
          obtain ⟨elem, helem⟩ := hv
          have ho := Heap.lt_next (Heap.dyay_eq_ok.1 helem)
          simp only [rendered, helem, Except.toOption, Option.bind_eq_bind, Option.bind_some]
          refine enclosed_isSome fun hpath => renderAll_isSome fun w hw => hinner o ho hpath w ?_
          exact hgraph (.dyay o) ⟨elem, helem⟩ w (by simpa only [parts, helem] using hw)
      | hmap o =>
          obtain ⟨map, hmap⟩ := hv
          have ho := Heap.lt_next (Heap.hmap_eq_ok.1 hmap)
          have hparts := printable_pairs hgraph (v := .hmap o) ⟨map, hmap⟩
            (show parts heap (.hmap o) = map.slots.flatMap _ by simp only [parts, hmap])
          simp only [rendered, hmap, Except.toOption, Option.bind_eq_bind, Option.bind_some]
          refine enclosed_isSome fun hpath => renderPairs_isSome fun e he => ?_
          exact ⟨hinner o ho hpath _ (hparts e he).1, hinner o ho hpath _ (hparts e he).2⟩
      | skls o =>
          obtain ⟨pairs, hpairs⟩ := hv
          obtain ⟨list, hlist, -⟩ := except_bind_ok_iff.1 hpairs
          have ho := Heap.lt_next (Heap.skls_eq_ok.1 hlist)
          have hparts := printable_pairs hgraph (v := .skls o) ⟨pairs, hpairs⟩
            (show parts heap (.skls o) = pairs.flatMap _ by simp only [parts, hpairs])
          simp only [rendered, hpairs, Except.toOption, Option.bind_eq_bind, Option.bind_some]
          refine enclosed_isSome fun hpath => renderPairs_isSome fun e he => ?_
          exact ⟨hinner o ho hpath _ (hparts e he).1, hinner o ho hpath _ (hparts e he).2⟩
      | func o =>
          obtain ⟨fn, hfn⟩ := hv
          simp only [rendered, hfn]
          rfl
      | mand o =>
          obtain ⟨m, hm, -⟩ := hv
          simp only [rendered, hm]
          rfl
      | nil => rfl
      | int i => rfl
      | bool i => rfl
      | ext p => rfl
      | kstr z => rfl

/-- On every finite graph without a mark `tostring` ends, prints a container inside
itself as a self-reference and every other one in full, and leaves no mark, if the
text fits the buffer. -/
theorem tostring_renders (hshort : env.Short) (hgraph : PrintGraph heap) (hv : Printable heap v) :
    ∃ text, Renders heap env v text ∧
      ∀ ctx : Fmtx, ctx.Room → 3 * (ctx.last + text.length + 36) < 2 ^ 31 →
        ∃ depth₀, ∀ depth ≥ depth₀, ∃ ctx' : Fmtx, ctx'.buf = ctx.buf ++ text ∧ ctx'.Room ∧
          tostring heap env depth v ⟨ctx, fun _ => false⟩ = .ok () ⟨ctx', fun _ => false⟩ := by
  have hsome : (rendered heap env (offPath heap [] + 1) [] v).isSome = true :=
    rendered_isSome hgraph hv (Nat.lt_succ_self _)
  obtain ⟨text, htext⟩ := Option.isSome_iff_exists.1 hsome
  refine ⟨text, ⟨_, htext⟩, fun ctx hroom hfits =>
    ⟨offPath heap [] + 1, fun depth hdepth => ?_⟩⟩
  have hclear : ∀ a : Addr, (fun _ => false) a = decide (a ∈ ([] : List Addr)) := fun a => by simp
  obtain ⟨ctx', hrun, hroom', hbuf⟩ :=
    emits_tostring hshort hgraph hv hclear (rendered_le hdepth htext) ctx hroom hfits
  exact ⟨ctx', hbuf, hroom', hrun⟩

/-- An array that holds itself. -/
def ownArray : Heap := (Heap.empty.alloc (.dyay [.dyay 0, .int 7])).1

theorem ownArray_graph : PrintGraph ownArray := by
  intro v hv w hw
  cases v with
  | dyay o =>
      obtain ⟨elem, helem⟩ := hv
      have ho : o < 1 := Heap.lt_next (Heap.dyay_eq_ok.1 helem)
      obtain rfl : o = 0 := Nat.lt_one_iff.1 ho
      rcases List.mem_cons.1 hw with rfl | hw
      · exact ⟨_, rfl⟩
      · obtain rfl := List.mem_singleton.1 hw
        exact trivial
  | hmap o =>
      obtain ⟨map, hmap⟩ := hv
      obtain rfl : o = 0 := Nat.lt_one_iff.1 (Heap.lt_next (Heap.hmap_eq_ok.1 hmap))
      cases hmap
  | skls o =>
      obtain ⟨pairs, hpairs⟩ := hv
      obtain ⟨list, hlist, -⟩ := except_bind_ok_iff.1 hpairs
      obtain rfl : o = 0 := Nat.lt_one_iff.1 (Heap.lt_next (Heap.skls_eq_ok.1 hlist))
      cases hlist
  | func o => cases hw
  | mand o => cases hw
  | nil => cases hw
  | int i => cases hw
  | bool i => cases hw
  | ext p => cases hw
  | kstr z => cases hw

theorem tostring_renders_ownArray :
    ∃ depth ctx', ctx'.buf = lit "[..[self].., 7]" ∧
      tostring ownArray ⟨fun _ => none, fun _ => 0, fun _ => []⟩ depth (.dyay 0)
        ⟨Fmtx.init, fun _ => false⟩ = .ok () ⟨ctx', fun _ => false⟩ := by
  have hshort : PrintEnv.Short ⟨fun _ => none, fun _ => 0, fun _ => []⟩ := fun _ => Nat.zero_le _
  obtain ⟨text, htext, hprint⟩ := tostring_renders hshort ownArray_graph (v := .dyay 0) ⟨_, rfl⟩
  obtain rfl : text = lit "[..[self].., 7]" := htext.unique ⟨2, rfl⟩
  obtain ⟨depth, hdepth⟩ := hprint Fmtx.init le_rfl (by decide)
  obtain ⟨ctx', hbuf, -, hrun⟩ := hdepth depth le_rfl
  exact ⟨depth, ctx', hbuf, hrun⟩

/-! ## A text that does not fit -/

/-- Each array holds the one before it twice, so the texts double. -/
def pyramid : Heap where
  obj o :=
    match o with
    | 0 => some (.dyay [])
    | o + 1 => if o < 30 then some (.dyay [.dyay o, .dyay o]) else none
  next := 31
  fresh o ho := by
    cases o with
    | zero => cases ho
    | succ o => exact if_neg (Nat.not_lt.2 (Nat.le_of_succ_le_succ ho))

theorem pyramid_zero : pyramid.dyay 0 = .ok [] := rfl

theorem pyramid_succ {o : Addr} (ho : o < 30) : pyramid.dyay (o + 1) = .ok [.dyay o, .dyay o] := by
  have hobj : pyramid.obj (o + 1) = some (.dyay [.dyay o, .dyay o]) := if_pos ho
  rw [Heap.dyay, hobj]
  rfl

theorem fmtxAppend_ok {src : Bytes} {s s' : Printing Fmtx} (h : fmtxAppend src s = .ok () s') :
    s'.ctx.last = s.ctx.last + src.length ∧ s'.ctx.last < 2 ^ 31 ∧ s'.entered = s.entered := by
  obtain ⟨_, _, hget, h⟩ := bind_ok_iff.1 h
  cases hget
  obtain ⟨ctx, s₁, happend, h⟩ := bind_ok_iff.1 h
  cases h
  cases hctx : s.ctx.append src with
  | error e =>
      rw [show Buffer.append s.ctx src = .error e from hctx] at happend
      cases happend
  | ok ctx₁ =>
      rw [show Buffer.append s.ctx src = .ok ctx₁ from hctx] at happend
      cases happend
      obtain ⟨ctx₂, hneed, h⟩ := except_bind_ok_iff.1 hctx
      cases h
      obtain ⟨hlt, hbuf⟩ := Fmtx.need_lt hneed
      have hlast : (ctx₂.buf ++ src).length = s.ctx.last + src.length := by
        rw [hbuf, List.length_append]
        rfl
      exact ⟨hlast, hlast.trans_lt hlt, rfl⟩

theorem printContainer_ok {o : Addr} {self opening closing : Bytes} {loop : PrintM Fmtx Unit}
    {s s' : Printing Fmtx} (ho : s.entered o = false)
    (h : printContainer o self opening closing loop s = .ok () s') :
    ∃ s₁ s₂, fmtxAppend opening s = .ok () s₁ ∧
      loop { s₁ with entered := Function.update s₁.entered o true } = .ok () s₂ ∧
      fmtxAppend closing { s₂ with entered := Function.update s₂.entered o false } = .ok () s' := by
  rw [printContainer, bind_of_ok (get_apply _), ho, if_neg Bool.false_ne_true] at h
  obtain ⟨_, s₁, hopening, h⟩ := bind_ok_iff.1 h
  obtain ⟨_, _, henter, h⟩ := bind_ok_iff.1 h
  cases henter
  obtain ⟨_, s₂, hloop, h⟩ := bind_ok_iff.1 h
  obtain ⟨_, _, hleave, h⟩ := bind_ok_iff.1 h
  cases hleave
  exact ⟨s₁, s₂, hopening, hloop, h⟩

theorem printElems_pair_ok {print : Variable → PrintM Fmtx Unit} {v w : Variable} {s s' : Printing Fmtx}
    (h : printElems print 0 [v, w] s = .ok () s') :
    ∃ s₁ s₂, print v s = .ok () s₁ ∧ fmtxAppend (lit ", ") s₁ = .ok () s₂ ∧
      print w s₂ = .ok () s' := by
  obtain ⟨_, s₁, hv, h⟩ := bind_ok_iff.1 h
  obtain ⟨_, s₂, hcomma, h⟩ := bind_ok_iff.1 h
  obtain ⟨_, s₃, hw, h⟩ := bind_ok_iff.1 h
  cases h
  exact ⟨s₁, s₂, hv, hcomma, hw⟩

/-- Where the text of an array of the pyramid has been printed, there were bytes for
all of it. -/
theorem pyramid_last {env : PrintEnv} {o depth : Nat} {s s' : Printing Fmtx} (ho : o ≤ 30)
    (hclear : ∀ a ≤ o, s.entered a = false)
    (h : tostring pyramid env depth (.dyay o) s = .ok () s') :
    s.ctx.last + 2 ^ (o + 1) ≤ s'.ctx.last ∧ s'.ctx.last < 2 ^ 31 ∧ s'.entered = s.entered := by
  induction o generalizing depth s s' with
  | zero =>
      cases depth with
      | zero => cases h
      | succ depth =>
          obtain ⟨s₁, s₂, hopening, hloop, hclosing⟩ := printContainer_ok (hclear 0 le_rfl) h
          cases hloop
          obtain ⟨hlast₁, -, hentered₁⟩ := fmtxAppend_ok hopening
          obtain ⟨hlast, hlt, hentered⟩ := fmtxAppend_ok hclosing
          refine ⟨?_, hlt, ?_⟩
          · rw [hlast]
            exact (congrArg (· + 1) hlast₁).ge
          · rw [hentered, Function.update_idem, hentered₁, ← hclear 0 le_rfl,
              Function.update_eq_self]
  | succ o ih =>
      cases depth with
      | zero => cases h
      | succ depth =>
          simp only [tostring, pyramid_succ (Nat.lt_of_succ_le ho)] at h
          obtain ⟨s₁, s₂, hopening, hloop, hclosing⟩ := printContainer_ok (hclear (o + 1) le_rfl) h
          obtain ⟨s₃, s₄, hfirst, hcomma, hsecond⟩ := printElems_pair_ok hloop
          obtain ⟨hlast₁, -, hentered₁⟩ := fmtxAppend_ok hopening
          have hclear₁ : ∀ a ≤ o, Function.update s₁.entered (o + 1) true a = false := by
            intro a ha
            rw [Function.update_of_ne (Nat.ne_of_lt (Nat.lt_succ_of_le ha)), hentered₁]
            exact hclear a (Nat.le_succ_of_le ha)
          obtain ⟨hlast₃, -, hentered₃⟩ := ih (Nat.le_of_succ_le ho) hclear₁ hfirst
          obtain ⟨hlast₄, -, hentered₄⟩ := fmtxAppend_ok hcomma
          obtain ⟨hlast₂, -, hentered₂⟩ := ih (Nat.le_of_succ_le ho)
            (fun a ha => by rw [hentered₄, hentered₃]; exact hclear₁ a ha) hsecond
          obtain ⟨hlast, hlt, hentered⟩ := fmtxAppend_ok hclosing
          refine ⟨?_, hlt, ?_⟩
          · have hpow : 2 ^ (o + 1 + 1) = 2 ^ (o + 1) + 2 ^ (o + 1) := Nat.two_pow_succ _
            simp only at hlast hlast₁ hlast₂ hlast₃ hlast₄
            omega
          · rw [hentered, hentered₂, hentered₄, hentered₃, Function.update_idem, hentered₁,
              ← hclear (o + 1) le_rfl, Function.update_eq_self]

end

/-- Only the arrays of the pyramid are there to be printed. -/
theorem pyramid_graph : PrintGraph pyramid := by
  intro v hv w hw
  cases v with
  | dyay o =>
      cases o with
      | zero =>
          simp only [parts, pyramid_zero] at hw
          cases hw
      | succ o =>
          obtain ⟨elem, helem⟩ := hv
          have ho : o < 30 := Nat.lt_of_succ_lt_succ (Heap.lt_next (Heap.dyay_eq_ok.1 helem))
          simp only [parts, pyramid_succ ho, List.mem_cons, List.not_mem_nil, or_false, or_self] at hw
          subst hw
          cases o with
          | zero => exact ⟨[], pyramid_zero⟩
          | succ o => exact ⟨_, pyramid_succ (Nat.lt_of_succ_lt ho)⟩
  | hmap o =>
      obtain ⟨map, hmap⟩ := hv
      have hobj := Heap.hmap_eq_ok.1 hmap
      cases o with
      | zero => cases hobj
      | succ o =>
          change (if o < 30 then _ else none) = _ at hobj
          split at hobj <;> cases hobj
  | skls o =>
      obtain ⟨pairs, hpairs⟩ := hv
      obtain ⟨list, hlist, -⟩ := except_bind_ok_iff.1 hpairs
      have hobj := Heap.skls_eq_ok.1 hlist
      cases o with
      | zero => cases hobj
      | succ o =>
          change (if o < 30 then _ else none) = _ at hobj
          split at hobj <;> cases hobj
  | func o => cases hw
  | mand o => cases hw
  | nil => cases hw
  | int i => cases hw
  | bool i => cases hw
  | ext p => cases hw
  | kstr z => cases hw

/-- The text of the last array of the pyramid never fits the buffer. -/
theorem tostring_pyramid :
    ∃ env v, env.Short ∧ PrintGraph pyramid ∧ Printable pyramid v ∧
      ¬ ∃ depth s', tostring pyramid env depth v ⟨Fmtx.init, fun _ => false⟩ = .ok () s' := by
  refine ⟨⟨fun _ => none, fun _ => 0, fun _ => []⟩, .dyay 30, fun _ => Nat.zero_le _,
    pyramid_graph, ⟨_, pyramid_succ (by decide)⟩, ?_⟩
  rintro ⟨depth, s', h⟩
  obtain ⟨hlast, hlt, -⟩ := pyramid_last le_rfl (fun _ _ => rfl) h
  have hinit : Fmtx.init.last = 0 := rfl
  simp only [hinit] at hlast
  omega

end Ymd
