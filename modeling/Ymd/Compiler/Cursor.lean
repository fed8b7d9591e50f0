import Ymd.Compiler.Lexer
import Ymd.Foundation.Outcome
import Mathlib.Data.List.TakeWhile

/-! # The cursor of the lexer

The primitives of `lex.c` on a text that is cut in two where the lexer stands.
They never leave a text without NUL bytes, but that `lex_read` may step behind
the end once and has to be taken back.
-/

namespace Ymd

open Foundation

namespace Lex

/-- The lexer stands between `pre` and `post`. -/
def At (pre post : Bytes) (lex : Lex) : Prop := lex.buf = pre ++ post ∧ lex.off = pre.length

/-- The character the lexer stands on. -/
def ahead : Bytes → Int
  | [] => eos
  | c :: _ => asInt c

section

variable {pre post : Bytes} {c : UInt8} {lex : Lex}

theorem at_init (buf : Bytes) : At [] buf (init buf) := ⟨rfl, rfl⟩

theorem At.length_eq (hat : At pre post lex) : lex.buf.length = pre.length + post.length := by
  rw [hat.1, List.length_append]

theorem At.drop (hat : At pre post lex) : lex.buf.drop lex.off = post := by
  rw [hat.1, hat.2, List.drop_left]

theorem At.length_lt {ds rest : Bytes} (hat : At pre (ds ++ rest) lex) :
    ds.length < lex.buf.length + 1 := by
  have hlen := hat.length_eq
  rw [List.length_append] at hlen
  omega

theorem At.cons_iff : At (pre ++ [c]) post lex ↔ lex.buf = pre ++ c :: post ∧
    lex.off = pre.length + 1 := by
  simp [At]

theorem At.slice (hat : At pre post lex) {text rest : Bytes} (hpost : post = text ++ rest) :
    lex.slice lex.off text.length = text := by
  have hlen : ((lex.off : Int) + text.length).toNat - lex.off = text.length := by omega
  rw [Lex.slice, Int.toNat_natCast, hlen, hat.drop, hpost, List.take_left]

theorem asInt_headD (post : Bytes) : asInt (post.headD 0) = ahead post := by
  cases post <;> rfl

theorem charAt_off (hat : At pre post lex) : lex.charAt lex.off = .ok (post.headD 0) := by
  cases post with
  | nil =>
      have hlen : lex.off = lex.buf.length := by simp [hat.length_eq, hat.2]
      simp [charAt, hlen, pure, Except.pure]
  | cons c t =>
      have hlt : lex.off < lex.buf.length := by simp [hat.length_eq, hat.2]
      have hget : lex.buf.getD lex.off 0 = c := by simp [hat.1, hat.2]
      simp only [charAt, hlt, if_true, hget]
      rfl

theorem charAt_succ (hat : At pre (c :: post) lex) :
    lex.charAt (lex.off + 1) = .ok (post.headD 0) := by
  obtain ⟨hbuf, hoff⟩ := hat
  cases post with
  | nil =>
      have hlen : lex.off + 1 = lex.buf.length := by simp [hbuf, hoff]
      simp [charAt, hlen, pure, Except.pure]
  | cons d t =>
      have hlt : lex.off + 1 < lex.buf.length := by simp [hbuf, hoff]
      have hget : lex.buf.getD (lex.off + 1) 0 = d := by simp [hbuf, hoff]
      simp only [charAt, hlt, if_true, hget]
      rfl

theorem peek_at (hat : At pre post lex) : peek lex = .ok (ahead post, lex) := by
  unfold peek
  rw [stateT_bind_of_ok (a := lex) rfl, stateT_bind_of_ok (stateT_lift_of_ok (charAt_off hat) lex),
    asInt_headD]
  rfl

theorem peek_cons (hat : At pre (c :: post) lex) : peek lex = .ok (asInt c, lex) := peek_at hat

theorem read_at (hat : At pre post lex) : ∃ lex', read lex = .ok (ahead post, lex') ∧
    lex'.buf = lex.buf ∧ lex'.off = lex.off + 1 := by
  refine ⟨{ lex with off := lex.off + 1, iColumn := lex.iColumn + 1 }, ?_, rfl, rfl⟩
  unfold read
  rw [stateT_bind_of_ok (a := lex) rfl, stateT_bind_of_ok (stateT_lift_of_ok (charAt_off hat) lex),
    ← asInt_headD]
  rfl

theorem read_cons (hat : At pre (c :: post) lex) :
    ∃ lex', read lex = .ok (asInt c, lex') ∧ At (pre ++ [c]) post lex' := by
  obtain ⟨lex', hread, hbuf, hoff⟩ := read_at hat
  refine ⟨lex', hread, At.cons_iff.2 ⟨hbuf.trans hat.1, ?_⟩⟩
  rw [hoff, hat.2]

theorem back_of_off (hbuf : lex.buf = pre ++ post) (hoff : lex.off = pre.length + 1) :
    ∃ lex', back lex = .ok ((), lex') ∧ At pre post lex' :=
  ⟨{ lex with off := lex.off - 1, iColumn := lex.iColumn - 1 }, rfl, hbuf, by simp [hoff]⟩

/-- What `lex_read` reads can be taken back, the end of the text too. -/
theorem read_back (hat : At pre post lex) : ∃ lex' lex'', read lex = .ok (ahead post, lex') ∧
    back lex' = .ok ((), lex'') ∧ At pre post lex'' := by
  obtain ⟨lex', hread, hbuf, hoff⟩ := read_at hat
  obtain ⟨lex'', hback, hat'⟩ := back_of_off (hbuf.trans hat.1) (by rw [hoff, hat.2])
  exact ⟨lex', lex'', hread, hback, hat'⟩

theorem move_cons (hat : At pre (c :: post) lex) (hc : c ≠ 0) :
    ∃ lex', move lex = .ok (ahead post, lex') ∧ At (pre ++ [c]) post lex' := by
  refine ⟨{ lex with off := lex.off + 1, iColumn := lex.iColumn + 1 }, ?_,
    At.cons_iff.2 ⟨hat.1, by simp [hat.2]⟩⟩
  unfold move
  rw [stateT_bind_of_ok (a := lex) rfl, stateT_bind_of_ok (stateT_lift_of_ok (charAt_off hat) lex),
    List.headD_cons, if_neg hc, stateT_bind_of_ok (stateT_lift_of_ok (charAt_succ hat) lex),
    ← asInt_headD]
  rfl

theorem move_nil (hat : At pre [] lex) : move lex = .ok (eos, lex) := by
  unfold move
  rw [stateT_bind_of_ok (a := lex) rfl, stateT_bind_of_ok (stateT_lift_of_ok (charAt_off hat) lex)]
  rfl

theorem move_back (hat : At pre (c :: post) lex) (hc : c ≠ 0) : ∃ lex' lex'',
    move lex = .ok (ahead post, lex') ∧ At (pre ++ [c]) post lex' ∧
      back lex' = .ok ((), lex'') ∧ At pre (c :: post) lex'' := by
  obtain ⟨lex', hmove, hat'⟩ := move_cons hat hc
  obtain ⟨hbuf, hoff⟩ := At.cons_iff.1 hat'
  obtain ⟨lex'', hback, hat''⟩ := back_of_off hbuf hoff
  exact ⟨lex', lex'', hmove, hat', hback, hat''⟩

/-! ## Characters -/

/-- A fact about each of the 256 bytes. -/
theorem forall_byte {p : UInt8 → Prop} (hall : ∀ n < 256, p (UInt8.ofNat n)) (c : UInt8) : p c := by
  have hc := hall c.toNat c.toNat_lt
  rwa [UInt8.ofNat_toNat] at hc

theorem asInt_eq (c : UInt8) : asInt c = if c.toNat = 0 then -1
    else if c.toNat < 128 then (c.toNat : Int) else (c.toNat : Int) - 256 := by
  revert c
  exact forall_byte (by decide +kernel)

/-- Only NUL and the byte 255 read alike. -/
theorem asInt_inj {c d : UInt8} (hpos : 0 < asInt d) : asInt c = asInt d ↔ c = d := by
  refine ⟨fun heq => ?_, congrArg asInt⟩
  apply UInt8.toNat_inj.1
  have hlt := c.toNat_lt
  have hlt' := d.toNat_lt
  rw [asInt_eq c, asInt_eq d] at heq
  rw [asInt_eq d] at hpos
  split_ifs at heq hpos <;> omega

theorem asInt_eq_eos_iff (c : UInt8) : asInt c = eos ↔ c = 0 ∨ c = 255 := by
  revert c
  exact forall_byte (by decide +kernel)

theorem term_of_isdigit (c : UInt8) : isdigit (asInt c) = true → term (asInt c) = false := by
  revert c
  exact forall_byte (by decide +kernel)

theorem term_of_isxdigit (c : UInt8) : isxdigit (asInt c) = true → term (asInt c) = false := by
  revert c
  exact forall_byte (by decide +kernel)

/-- The text is cut where a class of characters ends. -/
theorem exists_span (p : UInt8 → Bool) (t : Bytes) : ∃ ds rest, t = ds ++ rest ∧
    (∀ d ∈ ds, p d = true) ∧ ∀ c rest', rest = c :: rest' → p c = false := by
  induction t with
  | nil => exact ⟨[], [], rfl, by simp, by simp⟩
  | cons c t ih =>
      cases hc : p c with
      | true =>
          obtain ⟨ds, rest, rfl, hds, hrest⟩ := ih
          exact ⟨c :: ds, rest, rfl, List.forall_mem_cons.2 ⟨hc, hds⟩, hrest⟩
      | false =>
          refine ⟨[], c :: t, rfl, by simp, fun c' t' heq => ?_⟩
          rw [← (List.cons.inj heq).1]
          exact hc

/-! ## The loops -/

variable {rest : Bytes} {fuel : Nat}

theorem readDigits_at {digit : Int → Bool}
    (hdigit : ∀ c, digit (asInt c) = true → term (asInt c) = false) {ds : Bytes}
    (hat : At pre (ds ++ rest) lex) (hds : ∀ d ∈ ds, digit (asInt d) = true)
    (hrest : ∀ c t, rest = c :: t → digit (asInt c) = false) (hfuel : ds.length < fuel) :
    ∃ lex', (∀ len, readDigits digit fuel len lex =
        .ok ((len + ds.length, term (ahead rest)), lex')) ∧
      (term (ahead rest) = true → At (pre ++ ds) rest lex') ∧
        (term (ahead rest) = false → ∃ c t, rest = c :: t ∧ At (pre ++ ds ++ [c]) t lex') := by
  induction ds generalizing pre lex fuel with
  | nil =>
      obtain ⟨fuel, rfl⟩ := Nat.exists_eq_add_of_lt hfuel
      simp only [List.length_nil, Nat.zero_add] at hfuel ⊢
      rw [List.nil_append] at hat
      cases hterm : term (ahead rest) with
      | true =>
          obtain ⟨lex', lex'', hread, hback, hat'⟩ := read_back hat
          refine ⟨lex'', fun len => ?_, fun _ => by simpa using hat', nofun⟩
          rw [readDigits, stateT_bind_of_ok hread, if_pos hterm, stateT_bind_of_ok hback]
          rfl
      | false =>
          cases rest with
          | nil => cases hterm
          | cons c t =>
              change term (asInt c) = false at hterm
              obtain ⟨lex', hread, hat'⟩ := read_cons hat
              refine ⟨lex', fun len => ?_, nofun, fun _ => ⟨c, t, rfl, by simpa using hat'⟩⟩
              rw [readDigits, stateT_bind_of_ok hread, if_neg (Bool.eq_false_iff.1 hterm),
                if_neg (by simpa using hrest c t rfl)]
              rfl
  | cons d ds ih =>
      obtain ⟨fuel, rfl⟩ : ∃ n, fuel = n + 1 := ⟨fuel - 1, by simp at hfuel; omega⟩
      obtain ⟨lex', hread, hat'⟩ := read_cons hat
      have hd := hds d List.mem_cons_self
      obtain ⟨lex'', hrun, hended, hfailed⟩ := ih hat'
        (fun d hd => hds d (List.mem_cons_of_mem _ hd)) (by simpa using hfuel)
      refine ⟨lex'', fun len => ?_, by simpa using hended, by simpa using hfailed⟩
      rw [readDigits, stateT_bind_of_ok hread, if_neg (by simpa using hdigit d hd), if_pos hd, hrun,
        List.length_cons]
      congr 3
      omega

/-- The characters of a symbol. -/
def isSymbolChar (ch : Int) : Bool := isalpha ch || isdigit ch || ch = 95

theorem readSymChars_at {ds : Bytes} (hat : At pre (ds ++ rest) lex)
    (hds : ∀ d ∈ ds, isSymbolChar (asInt d) = true)
    (hrest : ∀ c t, rest = c :: t → isSymbolChar (asInt c) = false) (hfuel : ds.length < fuel) :
    ∃ lex', (∀ len, readSymChars fuel len lex = .ok ((len + ds.length, term (ahead rest)), lex')) ∧
      At (pre ++ ds) rest lex' := by
  induction ds generalizing pre lex fuel with
  | nil =>
      obtain ⟨fuel, rfl⟩ := Nat.exists_eq_add_of_lt hfuel
      simp only [List.length_nil, Nat.zero_add] at hfuel ⊢
      rw [List.nil_append] at hat
      have hno : isSymbolChar (ahead rest) = false := by
        cases rest with
        | nil => rfl
        | cons c t => exact hrest c t rfl
      refine ⟨lex, fun len => ?_, by simpa using hat⟩
      have hif : ¬ (isalpha (ahead rest) || isdigit (ahead rest) ||
        decide (ahead rest = 95)) = true := Bool.eq_false_iff.1 hno
      rw [readSymChars, stateT_bind_of_ok (peek_at hat), if_neg hif]
      rfl
  | cons d ds ih =>
      obtain ⟨fuel, rfl⟩ : ∃ n, fuel = n + 1 := ⟨fuel - 1, by simp at hfuel; omega⟩
      have hd := hds d List.mem_cons_self
      have hne : d ≠ 0 := by
        rintro rfl
        cases hd
      obtain ⟨lex', hmove, hat'⟩ := move_cons hat hne
      obtain ⟨lex'', hrun, hat''⟩ := ih hat'
        (fun d hd => hds d (List.mem_cons_of_mem _ hd)) (by simpa using hfuel)
      refine ⟨lex'', fun len => ?_, by simpa using hat''⟩
      have hif : (isalpha (ahead (d :: ds ++ rest)) || isdigit (ahead (d :: ds ++ rest)) ||
        decide (ahead (d :: ds ++ rest) = 95)) = true := hd
      rw [readSymChars, stateT_bind_of_ok (peek_at hat), if_pos hif, stateT_bind_of_ok hmove, hrun,
        List.length_cons]
      congr 3
      omega

/-- What may stand between the quotes of a string. -/
inductive Quoted : Bytes → Prop
  | nil : Quoted []
  | plain {c : UInt8} {text : Bytes} (hquote : c ≠ 34) (hescape : c ≠ 92) (hline : c ≠ 10)
      (htext : Quoted text) : Quoted (c :: text)
  | escape {c : UInt8} {text : Bytes} (htext : Quoted text) : Quoted (92 :: c :: text)

/-- A string goes on to a quote, to a line break or to the end of the text. -/
theorem quoted_cases (t : Bytes) :
    (∃ text post, t = text ++ 34 :: post ∧ Quoted text) ∨
      (∃ text post, t = text ++ 10 :: post ∧ Quoted text) ∨
        Quoted t ∨ ∃ text, t = text ++ [92] ∧ Quoted text := by
  induction hn : t.length using Nat.strong_induction_on generalizing t with
  | _ n ih =>
    have hgrow : ∀ {u t' : Bytes}, (∀ text, Quoted text → Quoted (u ++ text)) →
        t = u ++ t' → t'.length < t.length → (∃ text post, t = text ++ 34 :: post ∧ Quoted text) ∨
          (∃ text post, t = text ++ 10 :: post ∧ Quoted text) ∨
            Quoted t ∨ ∃ text, t = text ++ [92] ∧ Quoted text := by
      rintro u t' hfront rfl hlt
      rcases ih _ (hn ▸ hlt) t' rfl with ⟨text, post, rfl, htext⟩ | ⟨text, post, rfl, htext⟩ |
        htext | ⟨text, rfl, htext⟩
      · exact .inl ⟨u ++ text, post, (List.append_assoc _ _ _).symm, hfront _ htext⟩
      · exact .inr (.inl ⟨u ++ text, post, (List.append_assoc _ _ _).symm, hfront _ htext⟩)
      · exact .inr (.inr (.inl (hfront _ htext)))
      · exact .inr (.inr (.inr ⟨u ++ text, (List.append_assoc _ _ _).symm, hfront _ htext⟩))
    cases t with
    | nil => exact .inr (.inr (.inl .nil))
    | cons c t =>
        by_cases hquote : c = 34
        · exact .inl ⟨[], t, by rw [hquote]; rfl, .nil⟩
        by_cases hline : c = 10
        · exact .inr (.inl ⟨[], t, by rw [hline]; rfl, .nil⟩)
        by_cases hescape : c = 92
        · subst hescape
          cases t with
          | nil => exact .inr (.inr (.inr ⟨[], rfl, .nil⟩))
          | cons d t =>
              exact hgrow (u := [92, d]) (fun _ htext => .escape htext) rfl
                (by simp only [List.length_cons]; omega)
        · exact hgrow (u := [c]) (fun _ htext => .plain hquote hescape hline htext) rfl (by simp)

theorem readRawChars_quoted {text : Bytes} (htext : Quoted text) (hzero : 0 ∉ text)
    (hat : At pre (text ++ rest) lex) (hfuel : text.length ≤ fuel) :
    ∃ fuel' lex', fuel ≤ fuel' + text.length ∧
      (∀ len, readRawChars fuel len lex = readRawChars fuel' (len + text.length) lex') ∧
        At (pre ++ text) rest lex' := by
  induction htext generalizing pre lex fuel with
  | nil => exact ⟨fuel, lex, le_rfl, fun _ => rfl, by simpa using hat⟩
  | @plain c text hquote hescape hline _ ih =>
      obtain ⟨hc, hzero⟩ := List.ne_and_not_mem_of_not_mem_cons hzero
      obtain ⟨fuel, rfl⟩ : ∃ n, fuel = n + 1 := ⟨fuel - 1, by simp at hfuel; omega⟩
      obtain ⟨lex', hmove, hat'⟩ := move_cons hat hc.symm
      obtain ⟨fuel', lex'', hle, hrun, hat''⟩ := ih hzero hat' (by simpa using hfuel)
      refine ⟨fuel', lex'', by simp; omega, fun len => ?_, by simpa using hat''⟩
      have hquote' : asInt c ≠ 34 := fun h => hquote ((asInt_inj (d := 34) (by decide)).1 h)
      have hescape' : asInt c ≠ 92 := fun h => hescape ((asInt_inj (d := 92) (by decide)).1 h)
      have hline' : asInt c ≠ 10 := fun h => hline ((asInt_inj (d := 10) (by decide)).1 h)
      rw [readRawChars, stateT_bind_of_ok (peek_cons hat), if_neg hquote', if_neg hescape',
        if_neg hline', stateT_bind_of_ok hmove, hrun, List.length_cons]
      congr 1
      omega
  | @escape c text _ ih =>
      obtain ⟨_, hzero⟩ := List.ne_and_not_mem_of_not_mem_cons hzero
      obtain ⟨hc, hzero⟩ := List.ne_and_not_mem_of_not_mem_cons hzero
      obtain ⟨fuel, rfl⟩ : ∃ n, fuel = n + 1 := ⟨fuel - 1, by simp at hfuel; omega⟩
      obtain ⟨lex', hmove, hat'⟩ := move_cons hat (by decide)
      obtain ⟨lex'', hmove', hat''⟩ := move_cons hat' hc.symm
      have hshort : text.length ≤ fuel := by
        simp only [List.length_cons] at hfuel
        omega
      obtain ⟨fuel', lex₃, hle, hrun, hat₃⟩ := ih hzero hat'' hshort
      refine ⟨fuel', lex₃, by simp; omega, fun len => ?_, by simpa using hat₃⟩
      rw [readRawChars, stateT_bind_of_ok (peek_cons hat), if_neg (by decide), if_pos (by decide),
        stateT_bind_of_ok hmove, stateT_bind_of_ok hmove', hrun, List.length_cons, List.length_cons]
      congr 1
      omega

/-- At the end of the text the loop moves on without moving. -/
theorem readRawChars_end (hat : At pre [] lex) (len : Nat) : readRawChars fuel len lex = .error .looping := by
  induction fuel generalizing len with
  | zero => rfl
  | succ fuel ih =>
      rw [readRawChars, stateT_bind_of_ok (peek_at hat), if_neg (by decide), if_neg (by decide),
        if_neg (by decide), stateT_bind_of_ok (move_nil hat), ih]

theorem skipLine_at {line : Bytes} (hline : 10 ∉ line) (hat : At pre (line ++ 10 :: rest) lex)
    (hfuel : line.length < fuel) :
    ∃ lex', skipLine fuel lex = .ok ((), lex') ∧ At (pre ++ line ++ [10]) rest lex' := by
  induction line generalizing pre lex fuel with
  | nil =>
      obtain ⟨fuel, rfl⟩ := Nat.exists_eq_add_of_lt hfuel
      obtain ⟨lex', hread, hat'⟩ := read_cons hat
      refine ⟨{ lex' with iLine := lex'.iLine + 1, iColumn := 0 }, ?_, by simpa [At] using hat'⟩
      rw [skipLine, stateT_bind_of_ok hread, if_neg (by decide)]
      rfl
  | cons c line ih =>
      obtain ⟨hc, hline⟩ := List.ne_and_not_mem_of_not_mem_cons hline
      obtain ⟨fuel, rfl⟩ : ∃ n, fuel = n + 1 := ⟨fuel - 1, by simp at hfuel; omega⟩
      obtain ⟨lex', hread, hat'⟩ := read_cons hat
      obtain ⟨lex'', hrun, hat''⟩ := ih hline hat' (by simpa using hfuel)
      refine ⟨lex'', ?_, by simpa using hat''⟩
      have hne : asInt c ≠ 10 := fun h => hc ((asInt_inj (d := 10) (by decide)).1 h).symm
      rw [skipLine, stateT_bind_of_ok hread, if_pos hne, hrun]

/-- A comment in the last line is read beyond the end of the text. -/
theorem skipLine_end {line : Bytes} (hline : 10 ∉ line) (hat : At pre line lex) (fuel : Nat) :
    ∃ e, skipLine fuel lex = .error e := by
  induction line generalizing pre lex fuel with
  | nil =>
      cases fuel with
      | zero => exact ⟨_, rfl⟩
      | succ fuel =>
          obtain ⟨lex', hread, hbuf, hoff⟩ := read_at hat
          rw [skipLine, stateT_bind_of_ok hread, if_pos (by decide)]
          cases fuel with
          | zero => exact ⟨_, rfl⟩
          | succ fuel =>
              have hbeyond : lex'.charAt lex'.off = .error (.bounds "lex->buf") := by
                have hlen := hat.length_eq
                rw [List.length_nil, ← hbuf] at hlen
                rw [charAt, if_neg (by rw [hoff, hat.2]; omega), if_neg (by rw [hoff, hat.2]; omega)]
                rfl
              refine ⟨.bounds "lex->buf", ?_⟩
              rw [skipLine]
              apply stateT_bind_of_error
              unfold read
              rw [stateT_bind_of_ok (a := lex') rfl, hbeyond]
              rfl
  | cons c line ih =>
      obtain ⟨hc, hline⟩ := List.ne_and_not_mem_of_not_mem_cons hline
      cases fuel with
      | zero => exact ⟨_, rfl⟩
      | succ fuel =>
          obtain ⟨lex', hread, hat'⟩ := read_cons hat
          have hne : asInt c ≠ 10 := fun h => hc ((asInt_inj (d := 10) (by decide)).1 h).symm
          rw [skipLine, stateT_bind_of_ok hread, if_pos hne]
          exact ih hline hat' fuel

end

/-! ## The faults of the lexer -/

/-- The only faults are a read behind the text and a loop without end. -/
def Faults {α : Type} (x : LexM α) : Prop :=
  ∀ lex f, x lex = .error f → f = .looping ∨ f = .bounds "lex->buf"

namespace Faults

variable {α β : Type} {x : LexM α} {f : α → LexM β}

theorem pure (a : α) : Faults (Pure.pure a) := fun _ _ h => by cases h

theorem looping : Faults (throw .looping : LexM α) := fun _ _ h => by
  cases h
  exact .inl rfl

theorem get : Faults (MonadState.get : LexM Lex) := fun _ _ h => by cases h

theorem set (lex : Lex) : Faults (MonadState.set lex : LexM PUnit) := fun _ _ h => by cases h

theorem bind (hx : Faults x) (hf : ∀ a, Faults (f a)) : Faults (x >>= f) := by
  intro lex e h
  cases hxl : x lex with
  | error e' =>
      rw [stateT_bind_of_error hxl] at h
      cases h
      exact hx lex _ hxl
  | ok r =>
      have hxr : x lex = .ok (r.1, r.2) := hxl
      rw [stateT_bind_of_ok hxr] at h
      exact hf r.1 r.2 e h

theorem ite {c : Prop} [Decidable c] {y z : LexM α} (hy : Faults y) (hz : Faults z) :
    Faults (if c then y else z) := by
  by_cases hc : c
  · rw [if_pos hc]
    exact hy
  · rw [if_neg hc]
    exact hz

theorem charAt (lex : Lex) (i : Nat) : Faults (liftM (lex.charAt i) : LexM UInt8) := by
  intro s f h
  unfold Lex.charAt at h
  split at h
  · cases h
  · split at h
    · cases h
    · cases h
      exact .inr rfl

end Faults

theorem faults_peek : Faults peek := by
  unfold peek
  refine Faults.get.bind fun lex => (Faults.charAt _ _).bind fun _ => Faults.pure _

theorem faults_read : Faults read := by
  refine Faults.get.bind fun lex => (Faults.charAt _ _).bind fun _ => ?_
  exact (Faults.set _).bind fun _ => Faults.pure _

theorem faults_move : Faults move := by
  refine Faults.get.bind fun lex => (Faults.charAt _ _).bind fun _ => Faults.ite (Faults.pure _) ?_
  exact (Faults.charAt _ _).bind fun _ => (Faults.set _).bind fun _ => Faults.pure _

theorem faults_modify (g : Lex → Lex) : Faults (modify g : LexM PUnit) := fun _ _ h => by cases h

theorem faults_back : Faults back := faults_modify _

theorem faults_tokenC : Faults tokenC := by
  refine Faults.get.bind fun lex => (Faults.charAt _ _).bind fun _ => ?_
  exact faults_read.bind fun _ => Faults.pure _

theorem faults_tokenL (m : Int) (tk : Token) : Faults (tokenL m tk) := by
  refine faults_move.bind fun _ => Faults.ite ?_ ?_
  · exact faults_back.bind fun _ => faults_tokenC
  · exact Faults.get.bind fun _ => faults_move.bind fun _ => Faults.pure _

theorem faults_tokenCmp (twice : UInt8) (withEq doubled : Token) :
    Faults (tokenCmp twice withEq doubled) := by
  refine Faults.get.bind fun lex => (Faults.charAt _ _).bind fun _ => ?_
  exact Faults.ite (faults_tokenL _ _) (Faults.ite (faults_tokenL _ _) faults_tokenC)

theorem faults_readDigits (digit : Int → Bool) (fuel len : Nat) :
    Faults (readDigits digit fuel len) := by
  induction fuel generalizing len with
  | zero => exact Faults.looping
  | succ fuel ih =>
      refine faults_read.bind fun _ => Faults.ite ?_ (Faults.ite (ih _) (Faults.pure _))
      exact faults_back.bind fun _ => Faults.pure _

theorem faults_readDec (neg : Nat) : Faults (readDec neg) := by
  refine Faults.get.bind fun lex => (faults_readDigits _ _ _).bind fun _ => ?_
  exact Faults.ite (Faults.pure _) (Faults.pure _)

theorem faults_readHex : Faults readHex := by
  refine faults_move.bind fun _ => Faults.get.bind fun lex => ?_
  exact (faults_readDigits _ _ _).bind fun _ => Faults.pure _

theorem faults_readSymChars (fuel len : Nat) : Faults (readSymChars fuel len) := by
  induction fuel generalizing len with
  | zero => exact Faults.looping
  | succ fuel ih =>
      refine faults_peek.bind fun _ => Faults.ite ?_ (Faults.pure _)
      exact faults_move.bind fun _ => ih _

theorem faults_readSym : Faults readSym :=
  Faults.get.bind fun _ => (faults_readSymChars _ _).bind fun _ => Faults.pure _

theorem faults_readRawChars (fuel len : Nat) : Faults (readRawChars fuel len) := by
  induction fuel generalizing len with
  | zero => exact Faults.looping
  | succ fuel ih =>
      refine faults_peek.bind fun _ => Faults.ite (Faults.pure _) (Faults.ite ?_ ?_)
      · exact faults_move.bind fun _ => faults_move.bind fun _ => ih _
      · exact Faults.ite (Faults.pure _) (faults_move.bind fun _ => ih _)

theorem faults_readRaw : Faults readRaw := by
  refine faults_move.bind fun _ => Faults.get.bind fun lex => ?_
  refine (faults_readRawChars _ _).bind fun _ => Faults.ite ?_ (Faults.pure _)
  exact faults_move.bind fun _ => Faults.pure _

theorem faults_skipLine (fuel : Nat) : Faults (skipLine fuel) := by
  induction fuel with
  | zero => exact Faults.looping
  | succ fuel ih => exact faults_read.bind fun _ => Faults.ite ih (faults_modify _)

theorem faults_nextLoop (fuel : Nat) : Faults (nextLoop fuel) := by
  induction fuel with
  | zero => exact Faults.looping
  | succ fuel ih =>
      refine Faults.get.bind fun lex => faults_peek.bind fun _ => Faults.ite faults_tokenC ?_
      refine Faults.ite (faults_tokenCmp _ _ _) (Faults.ite (faults_tokenCmp _ _ _) ?_)
      refine Faults.ite (faults_tokenL _ _) (Faults.ite (faults_tokenL _ _) ?_)
      refine Faults.ite (faults_tokenL _ _) (Faults.ite (faults_tokenL _ _) ?_)
      refine Faults.ite faults_readSym (Faults.ite faults_readRaw (Faults.ite ?_ ?_))
      · refine faults_move.bind fun _ => faults_peek.bind fun _ => Faults.ite (faults_readDec _) ?_
        refine faults_peek.bind fun _ => Faults.ite ?_ ?_
        · exact Faults.get.bind fun _ => faults_move.bind fun _ => Faults.pure _
        · exact faults_back.bind fun _ => faults_tokenC
      refine Faults.ite ?_ (Faults.ite ?_ (Faults.ite ?_ (Faults.ite ?_ (Faults.ite ?_ ?_))))
      · refine faults_move.bind fun _ => Faults.ite ?_ (faults_back.bind fun _ => faults_tokenC)
        exact (faults_skipLine _).bind fun _ => ih
      · exact (faults_skipLine _).bind fun _ => ih
      · exact faults_move.bind fun _ => Faults.ite (Faults.pure _)
          (faults_move.bind fun _ => Faults.pure _)
      · refine faults_move.bind fun _ => Faults.ite faults_readHex ?_
        exact faults_back.bind fun _ => faults_readDec _
      · exact faults_move.bind fun _ => (faults_modify _).bind fun _ => ih
      · refine Faults.ite (faults_read.bind fun _ => ih) (Faults.ite (faults_readDec _) ?_)
        exact Faults.ite faults_readSym (Faults.pure _)

theorem faults_next : Faults next := Faults.get.bind fun _ => faults_nextLoop _

end Lex

end Ymd
