import Ymd.Compiler.Cursor

/-! # What one call of the lexer returns

Every reader of `lex.c` either fails or cuts the characters of its token off the
text. Three tokens come out otherwise: the slice of `->` starts one byte too
early, the byte 255 reads as the end of the text, and `0x` is a number without
digits.
-/

namespace Ymd

open Foundation

namespace Lex

/-- The operators of two characters. -/
def operators : List (String × Token) :=
  [("<=", .LE), (">=", .GE), ("!=", .NE), ("~=", .MATCH), ("==", .EQ), ("@\x7b", .SKLS),
    ("<<", .LSHIFT), (">>", .RSHIFT_A), ("|>", .RSHIFT_L), ("->", .DICT)]

/-- The characters that make a token. -/
inductive Spells : Token → Bytes → Prop
  | char (c : UInt8) : Spells (.char c) [c]
  | word {name : String} {tk : Token} (hword : (name, tk) ∈ operators ++ keywords) :
      Spells tk (lit name)
  | symbol {c : UInt8} {cs : Bytes} (hfirst : isalpha (asInt c) = true ∨ c = 95)
      (hrest : ∀ d ∈ cs, isSymbolChar (asInt d) = true)
      (hfree : ∀ entry ∈ keywords, lit entry.1 ≠ c :: cs) : Spells .SYMBOL (c :: cs)
  | string {text : Bytes} (htext : Quoted text) : Spells .STRING text
  | dec {sign ds : Bytes} (hsign : sign = [] ∨ sign = [45]) (hsome : ds ≠ [])
      (hds : ∀ d ∈ ds, isdigit (asInt d) = true) : Spells .DEC_LITERAL (sign ++ ds)
  | hex {x : UInt8} {ds : Bytes} (hx : x = 120 ∨ x = 88) (hsome : ds ≠ [])
      (hds : ∀ d ∈ ds, isxdigit (asInt d) = true) : Spells .HEX_LITERAL (48 :: x :: ds)

/-- White space and comments, each of these with its line. -/
inductive Blanks : Bytes → Prop
  | nil : Blanks []
  | space {c : UInt8} {t : Bytes} (hspace : isspace (asInt c) = true) (hrest : Blanks t) :
      Blanks (c :: t)
  | hash {line t : Bytes} (hline : 10 ∉ line) (hrest : Blanks t) : Blanks (35 :: (line ++ 10 :: t))
  | slashes {line t : Bytes} (hline : 10 ∉ line) (hrest : Blanks t) :
      Blanks (47 :: 47 :: (line ++ 10 :: t))

/-- Neither white space nor a comment with its line comes first. -/
def Start (here : Bytes) : Prop := ∀ gap rest, here = gap ++ rest → Blanks gap → gap = []

/-- A string or a comment begins that the text ends in. -/
inductive Unclosed : Bytes → Prop
  | string {t : Bytes} (hopen : Quoted t ∨ ∃ text, t = text ++ [92] ∧ Quoted text) :
      Unclosed (34 :: t)
  | hash {line : Bytes} (hline : 10 ∉ line) : Unclosed (35 :: line)
  | slashes {line : Bytes} (hline : 10 ∉ line) : Unclosed (47 :: 47 :: line)

/-- What stands on both sides of a token and belongs to it. -/
def quotes (tk : Token) : Bytes := if tk = .STRING then [34] else []

/-- What comes of a call that finds the lexer in front of `here`, where no blank
and no comment is. -/
inductive Outcome (pre here : Bytes) (tok : Ytoken) (lex : Lex) : Prop
  | failed {pre' post' : Bytes} (htoken : tok.token = .ERROR)
      (hall : pre' ++ post' = pre ++ here) (hle : pre.length ≤ pre'.length) (hat : At pre' post' lex)
  | ended (hhere : here = []) (htoken : tok.token = .EOS) (hoff : tok.off = pre.length)
      (hbuf : lex.buf = pre) (hbehind : lex.off = pre.length + 1)
  | token {text post : Bytes}
      (hhere : here = quotes tok.token ++ text ++ quotes tok.token ++ post)
      (hspells : Spells tok.token text) (hoff : tok.off = pre.length + (quotes tok.token).length)
      (hlen : tok.len = text.length)
      (hat : At (pre ++ (quotes tok.token ++ text ++ quotes tok.token)) post lex)
  | dict {post : Bytes} (hhere : here = 45 :: 62 :: post) (htoken : tok.token = .DICT)
      (hoff : tok.off = pre.length - 1) (hat : At (pre ++ [45, 62]) post lex)
  | early {post : Bytes} (hhere : here = 255 :: post) (htoken : tok.token = .EOS)
      (hoff : tok.off = pre.length) (hat : At (pre ++ [255]) post lex)
  | bare {x : UInt8} {post : Bytes} (hhere : here = 48 :: x :: post) (hx : x = 120 ∨ x = 88)
      (hterm : term (ahead post) = true) (htoken : tok.token = .HEX_LITERAL) (hlen : tok.len = 2)
      (hat : At (pre ++ [48, x]) post lex)

section

variable {pre post : Bytes} {c : UInt8} {lex : Lex}

theorem Spells.operator (name : String) {tk : Token} {text : Bytes}
    (hmem : (name, tk) ∈ operators) (htext : lit name = text) : Spells tk text := by
  rw [← htext]
  exact .word (List.mem_append_left _ hmem)

/-- A token without quotes. -/
theorem Outcome.of_text (text : Bytes) {here : Bytes} {tok : Ytoken} (hhere : here = text ++ post)
    (hspells : Spells tok.token text) (hno : tok.token ≠ .STRING) (hoff : tok.off = pre.length)
    (hlen : tok.len = text.length) (hat : At (pre ++ text) post lex) : Outcome pre here tok lex := by
  have hquotes : quotes tok.token = [] := if_neg hno
  have hhere' : here = quotes tok.token ++ text ++ quotes tok.token ++ post := by
    simpa [hquotes] using hhere
  have hat' : At (pre ++ (quotes tok.token ++ text ++ quotes tok.token)) post lex := by
    simpa [hquotes] using hat
  exact .token hhere' hspells (by simpa [hquotes] using hoff) hlen hat'

theorem tokenC_cons (hat : At pre (c :: post) lex) : ∃ lex', tokenC lex =
    .ok (lex.ytoken (if asInt c = eos then .EOS else .char c) lex.off 1, lex') ∧
      At (pre ++ [c]) post lex' := by
  obtain ⟨lex', hread, hat'⟩ := read_cons hat
  refine ⟨lex', ?_, hat'⟩
  unfold tokenC
  rw [stateT_bind_of_ok (a := lex) rfl, stateT_bind_of_ok (stateT_lift_of_ok (charAt_off hat) lex),
    stateT_bind_of_ok hread]
  rfl

theorem tokenC_nil (hat : At pre [] lex) : ∃ lex', tokenC lex =
    .ok (lex.ytoken .EOS lex.off 1, lex') ∧ lex'.buf = pre ∧ lex'.off = pre.length + 1 := by
  obtain ⟨lex', hread, hbuf, hoff⟩ := read_at hat
  refine ⟨lex', ?_, by rw [hbuf, hat.1, List.append_nil], by rw [hoff, hat.2]⟩
  unfold tokenC
  rw [stateT_bind_of_ok (a := lex) rfl, stateT_bind_of_ok (stateT_lift_of_ok (charAt_off hat) lex),
    stateT_bind_of_ok hread]
  rfl

theorem tokenC_outcome (hat : At pre (c :: post) lex) (hc : asInt c ≠ eos) :
    ∃ tok lex', tokenC lex = .ok (tok, lex') ∧ Outcome pre (c :: post) tok lex' := by
  obtain ⟨lex', hrun, hat'⟩ := tokenC_cons hat
  rw [if_neg hc] at hrun
  exact ⟨_, lex', hrun, .of_text [c] rfl (.char c) nofun (congrArg Int.ofNat hat.2) rfl hat'⟩

theorem tokenL_outcome {m : Int} {tk : Token} (hat : At pre (c :: post) lex) (hc : asInt c ≠ eos)
    (hzero : 0 ∉ c :: post) (hm : m ≠ eos) (hno : tk ≠ .STRING)
    (hspells : ∀ d, asInt d = m → Spells tk [c, d]) :
    ∃ tok lex', tokenL m tk lex = .ok (tok, lex') ∧ Outcome pre (c :: post) tok lex' := by
  obtain ⟨hc', hzero⟩ := List.ne_and_not_mem_of_not_mem_cons hzero
  obtain ⟨lex', lex'', hmove, hat', hback, hat''⟩ := move_back hat hc'.symm
  unfold tokenL
  rw [stateT_bind_of_ok hmove]
  by_cases heq : ahead post = m
  · rw [if_neg (not_not.2 heq), stateT_bind_of_ok (a := lex') rfl]
    cases post with
    | nil => exact absurd heq.symm hm
    | cons d post =>
        obtain ⟨hd, _⟩ := List.ne_and_not_mem_of_not_mem_cons hzero
        obtain ⟨lex₃, hmove', hat₃⟩ := move_cons hat' hd.symm
        rw [stateT_bind_of_ok hmove']
        refine ⟨_, lex₃, rfl, .of_text [c, d] rfl (hspells d heq) hno ?_ rfl
          (by simpa using hat₃)⟩
        change (lex'.off : Int) - 1 = _
        rw [hat'.2, List.length_append]
        simp
  · rw [if_pos heq, stateT_bind_of_ok hback]
    exact tokenC_outcome hat'' hc

theorem tokenCmp_outcome {twice : UInt8} {withEq doubled : Token} (hat : At pre (c :: post) lex)
    (hc : asInt c ≠ eos) (hzero : 0 ∉ c :: post) (htwice : 0 < asInt twice)
    (hno : withEq ≠ .STRING ∧ doubled ≠ .STRING) (hwithEq : Spells withEq [c, 61])
    (hdoubled : Spells doubled [c, twice]) : ∃ tok lex',
      tokenCmp twice withEq doubled lex = .ok (tok, lex') ∧ Outcome pre (c :: post) tok lex' := by
  unfold tokenCmp
  rw [stateT_bind_of_ok (a := lex) rfl, stateT_bind_of_ok (stateT_lift_of_ok (charAt_succ hat) lex)]
  split
  next =>
    refine tokenL_outcome hat hc hzero (by decide) hno.1 fun d hd => ?_
    rw [(asInt_inj (d := 61) (by decide)).1 hd]
    exact hwithEq
  next =>
    split
    next =>
      have hne : asInt twice ≠ eos := by
        intro h
        rw [h] at htwice
        exact absurd htwice (by decide)
      refine tokenL_outcome hat hc hzero hne hno.2 fun d hd => ?_
      rw [(asInt_inj htwice).1 hd]
      exact hdoubled
    next => exact tokenC_outcome hat hc

theorem readDec_outcome {sign : Bytes} (hsign : sign = [] ∨ sign = [45])
    (hat : At (pre ++ sign) (c :: post) lex) (hc : isdigit (asInt c) = true) : ∃ tok lex',
      readDec sign.length lex = .ok (tok, lex') ∧ Outcome pre (sign ++ c :: post) tok lex' := by
  obtain ⟨ds, rest, hsplit, hds, hrest⟩ := exists_span (fun c => isdigit (asInt c)) (c :: post)
  have hsome : ds ≠ [] := by
    rintro rfl
    exact absurd hc (Bool.eq_false_iff.1 (hrest c post hsplit.symm))
  have hoff : ((lex.off : Int) - sign.length) = pre.length := by
    rw [hat.2, List.length_append]
    omega
  rw [hsplit] at hat ⊢
  obtain ⟨lex', hrun, hended, hfailed⟩ := readDigits_at term_of_isdigit hat hds hrest hat.length_lt
  unfold readDec
  rw [stateT_bind_of_ok (a := lex) rfl, stateT_bind_of_ok (hrun 0)]
  cases hterm : term (ahead rest) with
  | true =>
      have hlen : ¬ 0 + ds.length = 0 := by
        rw [Nat.zero_add]
        exact fun h => hsome (List.length_eq_zero_iff.1 h)
      refine ⟨_, lex', by simp only [if_true, if_neg hlen]; rfl, ?_⟩
      refine .of_text (sign ++ ds) (by rw [List.append_assoc]) (.dec hsign hsome hds) nofun hoff ?_
        (by simpa using hended hterm)
      simp [ytoken]
      omega
  | false =>
      obtain ⟨d, t, rfl, hat'⟩ := hfailed hterm
      exact ⟨_, lex', rfl, .failed rfl (by simp) (by simp) hat'⟩

theorem readHex_outcome {x : UInt8} (hat : At (pre ++ [48]) (x :: post) lex)
    (hx : x = 120 ∨ x = 88) : ∃ tok lex',
      readHex lex = .ok (tok, lex') ∧ Outcome pre (48 :: x :: post) tok lex' := by
  have hne : x ≠ 0 := by
    rintro rfl
    rcases hx with hx | hx <;> cases hx
  obtain ⟨ds, rest, rfl, hds, hrest⟩ := exists_span (fun c => isxdigit (asInt c)) post
  obtain ⟨lex', hmove, hat'⟩ := move_cons hat hne
  have hoff : (lex'.off : Int) - 2 = pre.length := by
    rw [hat'.2]
    simp
  obtain ⟨lex'', hrun, hended, hfailed⟩ :=
    readDigits_at term_of_isxdigit hat' hds hrest hat'.length_lt
  unfold readHex
  rw [stateT_bind_of_ok hmove, stateT_bind_of_ok (a := lex') rfl, stateT_bind_of_ok (hrun 2)]
  cases hterm : term (ahead rest) with
  | true =>
      have hat'' := hended hterm
      refine ⟨_, lex'', rfl, ?_⟩
      cases ds with
      | nil => exact .bare rfl hx hterm rfl rfl (by simpa using hat'')
      | cons d ds =>
          refine .of_text (48 :: x :: d :: ds) rfl (.hex hx nofun hds) nofun hoff ?_
            (by simpa using hat'')
          simp [ytoken]
          omega
  | false =>
      obtain ⟨d, t, rfl, hat''⟩ := hfailed hterm
      exact ⟨_, lex'', rfl, .failed rfl (by simp) (by simp) hat''⟩

/-- `lex_token` on the characters of a symbol. -/
theorem spells_token {cs : Bytes} (hfirst : isalpha (asInt c) = true ∨ c = 95)
    (hrest : ∀ d ∈ cs, isSymbolChar (asInt d) = true) :
    Spells (token (c :: cs)) (c :: cs) ∧ token (c :: cs) ≠ .STRING := by
  unfold token
  rw [if_neg nofun]
  cases hfind : keywords.find? fun entry => lit entry.1 = c :: cs with
  | none =>
      refine ⟨.symbol hfirst hrest fun entry hentry heq => ?_, nofun⟩
      have hno := List.find?_eq_none.1 hfind entry hentry
      exact hno (decide_eq_true heq)
  | some entry =>
      have hmem := List.mem_of_find?_eq_some hfind
      have hfound := List.find?_some hfind
      have hlit : lit entry.1 = c :: cs := of_decide_eq_true hfound
      have hno : ∀ entry ∈ keywords, entry.2 ≠ .STRING := by decide
      refine ⟨?_, hno entry hmem⟩
      rw [← hlit]
      exact .word (List.mem_append_right _ hmem)

theorem readSym_outcome (hat : At pre (c :: post) lex)
    (hfirst : isalpha (asInt c) = true ∨ c = 95) : ∃ tok lex',
      readSym lex = .ok (tok, lex') ∧ Outcome pre (c :: post) tok lex' := by
  have hc : isSymbolChar (asInt c) = true := by
    rcases hfirst with halpha | rfl
    · simp [isSymbolChar, halpha]
    · decide
  obtain ⟨cs, rest, rfl, hcs, hrest⟩ := exists_span (fun c => isSymbolChar (asInt c)) post
  have hall : ∀ d ∈ c :: cs, isSymbolChar (asInt d) = true := List.forall_mem_cons.2 ⟨hc, hcs⟩
  rw [← List.cons_append] at hat ⊢
  obtain ⟨lex', hrun, hat'⟩ := readSymChars_at hat hall hrest hat.length_lt
  have hslice : lex.slice lex.off (0 + (c :: cs).length) = c :: cs := by
    rw [Nat.zero_add]
    exact hat.slice rfl
  unfold readSym
  rw [stateT_bind_of_ok (a := lex) rfl, stateT_bind_of_ok (hrun 0)]
  simp only [hslice]
  cases hterm : term (ahead rest) with
  | true =>
      obtain ⟨hspells, hno⟩ := spells_token hfirst hcs
      exact ⟨_, lex', rfl, .of_text (c :: cs) rfl hspells hno (congrArg Int.ofNat hat.2)
        (Nat.zero_add _) hat'⟩
  | false => exact ⟨_, lex', rfl, .failed rfl (by simp) (by simp) hat'⟩

/-- A string that has a quote or a line break behind it. -/
theorem readRaw_outcome (hat : At pre (34 :: post) lex) (hzero : 0 ∉ post)
    (hclosed : ¬ (Quoted post ∨ ∃ text, post = text ++ [92] ∧ Quoted text)) : ∃ tok lex',
      readRaw lex = .ok (tok, lex') ∧ Outcome pre (34 :: post) tok lex' := by
  obtain ⟨lex', hmove, hat'⟩ := move_cons hat (by decide)
  unfold readRaw
  rw [stateT_bind_of_ok hmove, stateT_bind_of_ok (a := lex') rfl]
  rcases quoted_cases post with ⟨text, rest, rfl, htext⟩ | ⟨text, rest, rfl, htext⟩ | hopen
  · have hclean : 0 ∉ text := fun h => hzero (List.mem_append_left _ h)
    obtain ⟨fuel, lex'', hle, hrun, hat''⟩ :=
      readRawChars_quoted htext hclean hat' hat'.length_lt.le
    obtain ⟨fuel, rfl⟩ : ∃ n, fuel = n + 1 := ⟨fuel - 1, by have := hat'.length_lt; omega⟩
    obtain ⟨lex₃, hmove', hat₃⟩ := move_cons hat'' (by decide)
    have hquote : readRawChars (fuel + 1) (0 + text.length) lex'' =
        .ok ((0 + text.length, true), lex'') := by
      rw [readRawChars, stateT_bind_of_ok (peek_cons hat''), if_pos (by decide)]
      rfl
    rw [stateT_bind_of_ok ((hrun 0).trans hquote)]
    simp only [if_true]
    rw [stateT_bind_of_ok hmove']
    have hhere : 34 :: (text ++ 34 :: rest) =
        quotes .STRING ++ text ++ quotes .STRING ++ rest := by simp [quotes]
    have hoff : (lex'.off : Int) = pre.length + (quotes .STRING).length := by
      rw [hat'.2, List.length_append]
      rfl
    refine ⟨_, lex₃, rfl, .token hhere (.string htext) hoff (Nat.zero_add _) ?_⟩
    simpa [quotes, ytoken] using hat₃
  · have hclean : 0 ∉ text := fun h => hzero (List.mem_append_left _ h)
    obtain ⟨fuel, lex'', hle, hrun, hat''⟩ :=
      readRawChars_quoted htext hclean hat' hat'.length_lt.le
    obtain ⟨fuel, rfl⟩ : ∃ n, fuel = n + 1 := ⟨fuel - 1, by have := hat'.length_lt; omega⟩
    have hline : readRawChars (fuel + 1) (0 + text.length) lex'' =
        .ok ((0 + text.length, false), lex'') := by
      rw [readRawChars, stateT_bind_of_ok (peek_cons hat''), if_neg (by decide), if_neg (by decide),
        if_pos (by decide)]
      rfl
    rw [stateT_bind_of_ok ((hrun 0).trans hline)]
    exact ⟨_, lex'', rfl, .failed rfl (by simp) (by simp) hat''⟩
  · exact absurd hopen hclosed

/-- A string that the text ends in. -/
theorem readRaw_open (hat : At pre (34 :: post) lex) (hzero : 0 ∉ post)
    (hopen : Quoted post ∨ ∃ text, post = text ++ [92] ∧ Quoted text) :
    ∃ e, readRaw lex = .error e := by
  obtain ⟨lex', hmove, hat'⟩ := move_cons hat (by decide)
  have hloop : ∃ e, readRawChars (lex'.buf.length + 1) 0 lex' = .error e := by
    rcases hopen with htext | ⟨text, rfl, htext⟩
    · rw [← List.append_nil post] at hat'
      obtain ⟨fuel, lex'', _, hrun, hat''⟩ :=
        readRawChars_quoted htext hzero hat' hat'.length_lt.le
      exact ⟨_, (hrun 0).trans (readRawChars_end hat'' _)⟩
    · have hclean : 0 ∉ text := fun h => hzero (List.mem_append_left _ h)
      obtain ⟨fuel, lex'', _, hrun, hat''⟩ :=
        readRawChars_quoted htext hclean hat' hat'.length_lt.le
      rw [hrun 0]
      cases fuel with
      | zero => exact ⟨_, rfl⟩
      | succ fuel =>
          -- the escape takes one step to the end of the text and one that stays there
          obtain ⟨lex₃, hmove', hat₃⟩ := move_cons hat'' (by decide)
          rw [readRawChars, stateT_bind_of_ok (peek_cons hat''), if_neg (by decide),
            if_pos (by decide), stateT_bind_of_ok hmove', stateT_bind_of_ok (move_nil hat₃)]
          exact ⟨_, readRawChars_end hat₃ _⟩
  obtain ⟨e, he⟩ := hloop
  unfold readRaw
  rw [stateT_bind_of_ok hmove, stateT_bind_of_ok (a := lex') rfl]
  exact ⟨e, stateT_bind_of_error he⟩

/-! ## Blanks -/

theorem Blanks.append {gap gap' : Bytes} (hgap : Blanks gap) (hgap' : Blanks gap') :
    Blanks (gap ++ gap') := by
  induction hgap with
  | nil => exact hgap'
  | space hspace _ ih => exact .space hspace ih
  | hash hline _ ih =>
      rw [List.cons_append, List.append_assoc, List.cons_append]
      exact .hash hline ih
  | slashes hline _ ih =>
      rw [List.cons_append, List.cons_append, List.append_assoc, List.cons_append]
      exact .slashes hline ih

/-- Every text goes on from a place where no blank is. -/
theorem exists_start (t : Bytes) : ∃ gap here, t = gap ++ here ∧ Blanks gap ∧ Start here := by
  induction hn : t.length using Nat.strong_induction_on generalizing t with
  | _ n ih =>
    by_cases hstart : Start t
    · exact ⟨[], t, rfl, .nil, hstart⟩
    · unfold Start at hstart
      push Not at hstart
      obtain ⟨gap, rest, rfl, hgap, hsome⟩ := hstart
      have hpos : 0 < gap.length := List.length_pos_iff.2 hsome
      rw [List.length_append] at hn
      obtain ⟨gap', here, rfl, hgap', hhere⟩ := ih rest.length (by omega) rest rfl
      exact ⟨gap ++ gap', here, (List.append_assoc _ _ _).symm, hgap.append hgap', hhere⟩

theorem exists_line {t : Bytes} (hmem : 10 ∈ t) : ∃ line rest, t = line ++ 10 :: rest ∧ 10 ∉ line := by
  obtain ⟨line, rest, rfl, hline, hrest⟩ := exists_span (fun c => c ≠ 10) t
  have hclean : 10 ∉ line := fun h => by simpa using hline 10 h
  cases rest with
  | nil => exact absurd (by simpa using hmem) hclean
  | cons c rest =>
      have hc : c = 10 := by simpa using hrest c rest rfl
      exact ⟨line, rest, by rw [hc], hclean⟩

theorem Start.not_space (hstart : Start (c :: post)) : isspace (asInt c) = false := by
  apply Bool.eq_false_iff.2
  intro hspace
  have hnil := hstart [c] post rfl (.space hspace .nil)
  cases hnil

theorem Start.unclosed_hash (hstart : Start (35 :: post)) : Unclosed (35 :: post) := by
  refine .hash fun hmem => ?_
  obtain ⟨line, rest, rfl, hline⟩ := exists_line hmem
  have hnil := hstart (35 :: (line ++ [10])) rest (by simp) (.hash hline .nil)
  cases hnil

theorem Start.unclosed_slashes (hstart : Start (47 :: 47 :: post)) : Unclosed (47 :: 47 :: post) := by
  refine .slashes fun hmem => ?_
  obtain ⟨line, rest, rfl, hline⟩ := exists_line hmem
  have hnil := hstart (47 :: 47 :: (line ++ [10])) rest (by simp) (.slashes hline .nil)
  cases hnil

theorem space_cases (c : UInt8) (hspace : isspace (asInt c) = true) :
    c = 10 ∨ c = 9 ∨ c = 11 ∨ c = 12 ∨ c = 13 ∨ c = 32 := by
  revert c
  exact forall_byte (by decide +kernel)

theorem nextLoop_space {fuel : Nat} (hat : At pre (c :: post) lex)
    (hspace : isspace (asInt c) = true) :
    ∃ lex', nextLoop (fuel + 1) lex = nextLoop fuel lex' ∧ At (pre ++ [c]) post lex' := by
  rcases space_cases c hspace with rfl | hc
  · obtain ⟨lex', hmove, hat'⟩ := move_cons hat (by decide)
    refine ⟨{ lex' with iLine := lex'.iLine + 1, iColumn := 0 }, ?_, hat'⟩
    rw [nextLoop, stateT_bind_of_ok (a := lex) rfl, stateT_bind_of_ok (peek_cons hat)]
    simp +decide only [↓reduceIte]
    rw [stateT_bind_of_ok hmove]
    rfl
  · obtain ⟨lex', hread, hat'⟩ := read_cons hat
    refine ⟨lex', ?_, hat'⟩
    rw [nextLoop, stateT_bind_of_ok (a := lex) rfl, stateT_bind_of_ok (peek_cons hat)]
    rcases hc with rfl | rfl | rfl | rfl | rfl <;>
      · simp +decide only [↓reduceIte]
        rw [stateT_bind_of_ok hread]

/-- A comment is skipped with its line. -/
theorem nextLoop_hash {fuel : Nat} {line rest : Bytes} (hline : 10 ∉ line)
    (hat : At pre (35 :: (line ++ 10 :: rest)) lex) : ∃ lex',
      nextLoop (fuel + 1) lex = nextLoop fuel lex' ∧
        At (pre ++ (35 :: (line ++ [10]))) rest lex' := by
  have hat' : At pre ((35 :: line) ++ 10 :: rest) lex := hat
  have hclean : 10 ∉ 35 :: line := by simp [hline]
  obtain ⟨lex', hskip, hat''⟩ := skipLine_at hclean hat' hat'.length_lt
  refine ⟨lex', ?_, by simpa using hat''⟩
  rw [nextLoop, stateT_bind_of_ok (a := lex) rfl, stateT_bind_of_ok (peek_cons hat)]
  simp +decide only [↓reduceIte]
  rw [stateT_bind_of_ok hskip]

theorem nextLoop_slashes {fuel : Nat} {line rest : Bytes} (hline : 10 ∉ line)
    (hat : At pre (47 :: 47 :: (line ++ 10 :: rest)) lex) : ∃ lex',
      nextLoop (fuel + 1) lex = nextLoop fuel lex' ∧
        At (pre ++ (47 :: 47 :: (line ++ [10]))) rest lex' := by
  obtain ⟨lex', hmove, hat'⟩ := move_cons hat (by decide)
  have hat'' : At (pre ++ [47]) ((47 :: line) ++ 10 :: rest) lex' := hat'
  have hclean : 10 ∉ 47 :: line := by simp [hline]
  have hbuf : lex'.buf = lex.buf := by rw [hat'.1, hat.1, List.append_assoc]; rfl
  obtain ⟨lex'', hskip, hat₃⟩ := skipLine_at hclean hat'' hat''.length_lt
  refine ⟨lex'', ?_, by simpa using hat₃⟩
  rw [nextLoop, stateT_bind_of_ok (a := lex) rfl, stateT_bind_of_ok (peek_cons hat)]
  simp +decide only [↓reduceIte]
  rw [stateT_bind_of_ok hmove, if_pos (by rfl), ← hbuf, stateT_bind_of_ok hskip]

theorem nextLoop_blanks {gap here : Bytes} {fuel : Nat} (hgap : Blanks gap)
    (hat : At pre (gap ++ here) lex) (hfuel : gap.length < fuel) :
    ∃ fuel' lex', nextLoop fuel lex = nextLoop (fuel' + 1) lex' ∧ At (pre ++ gap) here lex' := by
  induction hgap generalizing pre lex fuel with
  | nil =>
      obtain ⟨fuel', rfl⟩ := Nat.exists_eq_add_of_lt hfuel
      refine ⟨fuel', lex, ?_, by simpa using hat⟩
      rw [List.length_nil, Nat.zero_add]
  | @space c t hspace _ ih =>
      obtain ⟨fuel, rfl⟩ : ∃ n, fuel = n + 1 := ⟨fuel - 1, by omega⟩
      obtain ⟨lex', hrun, hat'⟩ := nextLoop_space hat hspace
      obtain ⟨fuel', lex'', hrun', hat''⟩ := ih hat' (by simpa using hfuel)
      exact ⟨fuel', lex'', hrun.trans hrun', by simpa using hat''⟩
  | @hash line t hline _ ih =>
      obtain ⟨fuel, rfl⟩ : ∃ n, fuel = n + 1 := ⟨fuel - 1, by omega⟩
      rw [List.cons_append, List.append_assoc, List.cons_append] at hat
      obtain ⟨lex', hrun, hat'⟩ := nextLoop_hash hline hat
      have hshort : t.length < fuel := by
        simp at hfuel
        omega
      obtain ⟨fuel', lex'', hrun', hat''⟩ := ih hat' hshort
      exact ⟨fuel', lex'', hrun.trans hrun', by simpa using hat''⟩
  | @slashes line t hline _ ih =>
      obtain ⟨fuel, rfl⟩ : ∃ n, fuel = n + 1 := ⟨fuel - 1, by omega⟩
      rw [List.cons_append, List.cons_append, List.append_assoc, List.cons_append] at hat
      obtain ⟨lex', hrun, hat'⟩ := nextLoop_slashes hline hat
      have hshort : t.length < fuel := by
        simp at hfuel
        omega
      obtain ⟨fuel', lex'', hrun', hat''⟩ := ih hat' hshort
      exact ⟨fuel', lex'', hrun.trans hrun', by simpa using hat''⟩

/-- A string or a comment that the text ends in stops the lexer. -/
theorem nextLoop_unclosed {here : Bytes} (fuel : Nat) (hat : At pre here lex) (hzero : 0 ∉ here)
    (hunclosed : Unclosed here) : ∃ e, nextLoop (fuel + 1) lex = .error e := by
  cases hunclosed with
  | string hopen =>
      obtain ⟨e, he⟩ := readRaw_open hat (List.not_mem_of_not_mem_cons hzero) hopen
      refine ⟨e, ?_⟩
      rw [nextLoop, stateT_bind_of_ok (a := lex) rfl, stateT_bind_of_ok (peek_cons hat)]
      simp +decide only [↓reduceIte]
      exact he
  | @hash line hline =>
      have hclean : 10 ∉ 35 :: line := by simp [hline]
      obtain ⟨e, he⟩ := skipLine_end hclean hat (lex.buf.length + 1)
      refine ⟨e, ?_⟩
      rw [nextLoop, stateT_bind_of_ok (a := lex) rfl, stateT_bind_of_ok (peek_cons hat)]
      simp +decide only [↓reduceIte]
      exact stateT_bind_of_error he
  | @slashes line hline =>
      obtain ⟨lex', hmove, hat'⟩ := move_cons hat (by decide)
      have hclean : 10 ∉ 47 :: line := by simp [hline]
      obtain ⟨e, he⟩ := skipLine_end hclean hat' (lex.buf.length + 1)
      refine ⟨e, ?_⟩
      rw [nextLoop, stateT_bind_of_ok (a := lex) rfl, stateT_bind_of_ok (peek_cons hat)]
      simp +decide only [↓reduceIte]
      rw [stateT_bind_of_ok hmove, if_pos (by rfl)]
      exact stateT_bind_of_error he

/-! ## Tokens -/

/-- The minus sign, alone or in front of a number or of `>`. -/
theorem minus_outcome (hat : At pre (45 :: post) lex) : ∃ tok lex',
    (do
      let _ ← move
      if isdigit (← peek) then readDec 1
      else if (← peek) = 62 then
        let lex ← get
        let _ ← move
        return lex.ytoken .DICT (lex.off - 2) 2
      else
        back
        tokenC) lex = .ok (tok, lex') ∧ Outcome pre (45 :: post) tok lex' := by
  obtain ⟨lex', lex'', hmove, hat', hback, hat''⟩ := move_back hat (by decide)
  rw [stateT_bind_of_ok hmove, stateT_bind_of_ok (peek_at hat')]
  cases hdigit : isdigit (ahead post) with
  | true =>
      cases post with
      | nil => cases hdigit
      | cons d t => exact readDec_outcome (.inr rfl) hat' hdigit
  | false =>
      rw [if_neg nofun, stateT_bind_of_ok (peek_at hat')]
      by_cases hdict : ahead post = 62
      · rw [if_pos hdict, stateT_bind_of_ok (a := lex') rfl]
        cases post with
        | nil => cases hdict
        | cons d t =>
            obtain rfl : d = 62 := (asInt_inj (d := 62) (by decide)).1 hdict
            obtain ⟨lex₃, hmove', hat₃⟩ := move_cons hat' (by decide)
            rw [stateT_bind_of_ok hmove']
            refine ⟨_, lex₃, rfl, .dict rfl rfl ?_ (by simpa using hat₃)⟩
            change (lex'.off : Int) - 2 = _
            rw [hat'.2]
            simp
            omega
      · rw [if_neg hdict, stateT_bind_of_ok hback]
        exact tokenC_outcome hat'' (by decide)

/-- A zero, alone or in front of digits or of `x`. -/
theorem zero_outcome (hat : At pre (48 :: post) lex) : ∃ tok lex',
    (do
      let ch ← move
      if ch = 120 || ch = 88 then readHex
      else
        back
        readDec 0) lex = .ok (tok, lex') ∧ Outcome pre (48 :: post) tok lex' := by
  obtain ⟨lex', lex'', hmove, hat', hback, hat''⟩ := move_back hat (by decide)
  rw [stateT_bind_of_ok hmove]
  by_cases hx : ahead post = 120 ∨ ahead post = 88
  · rw [if_pos (by simpa using hx)]
    cases post with
    | nil => rcases hx with hx | hx <;> cases hx
    | cons x t =>
        refine readHex_outcome hat' (hx.imp (fun h => ?_) fun h => ?_)
        · exact (asInt_inj (d := 120) (by decide)).1 h
        · exact (asInt_inj (d := 88) (by decide)).1 h
  · rw [if_neg (by simpa using hx), stateT_bind_of_ok hback]
    exact readDec_outcome (.inl rfl) (by simpa using hat'') (by decide)

/-- A slash that begins no comment. -/
theorem slash_outcome (hat : At pre (47 :: post) lex) (hone : ∀ t, post ≠ 47 :: t) (skip : LexM Ytoken) :
    ∃ tok lex', (do
      if (← move) = 47 then skip
      else
        back
        tokenC) lex = .ok (tok, lex') ∧ Outcome pre (47 :: post) tok lex' := by
  obtain ⟨lex', lex'', hmove, hat', hback, hat''⟩ := move_back hat (by decide)
  have hne : ahead post ≠ 47 := by
    cases post with
    | nil => decide
    | cons d t =>
        intro h
        obtain rfl : d = 47 := (asInt_inj (d := 47) (by decide)).1 h
        exact hone t rfl
  rw [stateT_bind_of_ok hmove, if_neg hne, stateT_bind_of_ok hback]
  exact tokenC_outcome hat'' (by decide)

/-- The bracket of a skip list. -/
theorem at_outcome (hat : At pre (64 :: post) lex) : ∃ tok lex', (do
      if (← move) ≠ 123 then return lex.ytoken .ERROR lex.off 0
      else
        let _ ← move
        return lex.ytoken .SKLS lex.off 2 : LexM Ytoken) lex = .ok (tok, lex') ∧
          Outcome pre (64 :: post) tok lex' := by
  obtain ⟨lex', hmove, hat'⟩ := move_cons hat (by decide)
  rw [stateT_bind_of_ok hmove]
  by_cases hbrace : ahead post = 123
  · rw [if_neg (not_not.2 hbrace)]
    cases post with
    | nil => cases hbrace
    | cons d t =>
        obtain rfl : d = 123 := (asInt_inj (d := 123) (by decide)).1 hbrace
        obtain ⟨lex'', hmove', hat''⟩ := move_cons hat' (by decide)
        rw [stateT_bind_of_ok hmove']
        have hspells : Spells .SKLS [64, 123] := .operator "@\x7b" (by decide) (by decide)
        exact ⟨_, lex'', rfl, .of_text [64, 123] rfl hspells nofun (congrArg Int.ofNat hat.2) rfl
          (by simpa using hat'')⟩
  · rw [if_pos hbrace]
    exact ⟨_, lex', rfl, .failed rfl (by simp) (by simp) hat'⟩

/-- Where no string and no comment is left open, a call returns. -/
theorem nextLoop_outcome {here : Bytes} (fuel : Nat) (hat : At pre here lex) (hzero : 0 ∉ here)
    (hstart : Start here) (hclosed : ¬ Unclosed here) :
    ∃ tok lex', nextLoop (fuel + 1) lex = .ok (tok, lex') ∧ Outcome pre here tok lex' := by
  cases here with
  | nil =>
      rw [nextLoop, stateT_bind_of_ok (a := lex) rfl, stateT_bind_of_ok (peek_at hat)]
      obtain ⟨lex', hrun, hbuf, hoff⟩ := tokenC_nil hat
      exact ⟨_, lex', hrun, .ended rfl rfl (congrArg Int.ofNat hat.2) hbuf hoff⟩
  | cons c post =>
      rw [nextLoop, stateT_bind_of_ok (a := lex) rfl, stateT_bind_of_ok (peek_cons hat)]
      obtain ⟨hc, hzero'⟩ := List.ne_and_not_mem_of_not_mem_cons hzero
      have heq : ∀ d : UInt8, 0 < asInt d → asInt c = asInt d → c = d :=
        fun d hpos h => (asInt_inj hpos).1 h
      have hspells : ∀ {tk : Token} {c e : UInt8}, 0 < asInt e → Spells tk [c, e] →
          ∀ d, asInt d = asInt e → Spells tk [c, d] := by
        intro tk c e hpos hspells d hd
        rwa [(asInt_inj hpos).1 hd]
      by_cases hsingle : (decide (asInt c = eos) || termChar.contains (asInt c)) = true
      · rw [if_pos hsingle]
        by_cases heos : asInt c = eos
        · obtain rfl := ((asInt_eq_eos_iff c).1 heos).resolve_left hc.symm
          obtain ⟨lex', hrun, hat'⟩ := tokenC_cons hat
          exact ⟨_, lex', hrun, .early rfl rfl (congrArg Int.ofNat hat.2) hat'⟩
        · exact tokenC_outcome hat heos
      rw [if_neg hsingle]
      have hne : asInt c ≠ eos := by
        intro h
        apply hsingle
        rw [Bool.or_eq_true]
        exact .inl (decide_eq_true h)
      -- `<` and `>`, alone, doubled or with `=` behind
      by_cases h60 : asInt c = 60
      · rw [if_pos h60]
        obtain rfl := heq 60 (by decide) h60
        exact tokenCmp_outcome hat hne hzero (by decide) ⟨nofun, nofun⟩
          (.operator "<=" (by decide) (by decide)) (.operator "<<" (by decide) (by decide))
      rw [if_neg h60]
      by_cases h62 : asInt c = 62
      · rw [if_pos h62]
        obtain rfl := heq 62 (by decide) h62
        exact tokenCmp_outcome hat hne hzero (by decide) ⟨nofun, nofun⟩
          (.operator ">=" (by decide) (by decide)) (.operator ">>" (by decide) (by decide))
      rw [if_neg h62]
      -- `|`, `!`, `~` and `=`, alone or with one more character
      by_cases h124 : asInt c = 124
      · rw [if_pos h124]
        obtain rfl := heq 124 (by decide) h124
        exact tokenL_outcome hat hne hzero (by decide) nofun
          (hspells (e := 62) (by decide) (.operator "|>" (by decide) (by decide)))
      rw [if_neg h124]
      by_cases h33 : asInt c = 33
      · rw [if_pos h33]
        obtain rfl := heq 33 (by decide) h33
        exact tokenL_outcome hat hne hzero (by decide) nofun
          (hspells (e := 61) (by decide) (.operator "!=" (by decide) (by decide)))
      rw [if_neg h33]
      by_cases h126 : asInt c = 126
      · rw [if_pos h126]
        obtain rfl := heq 126 (by decide) h126
        exact tokenL_outcome hat hne hzero (by decide) nofun
          (hspells (e := 61) (by decide) (.operator "~=" (by decide) (by decide)))
      rw [if_neg h126]
      by_cases h61 : asInt c = 61
      · rw [if_pos h61]
        obtain rfl := heq 61 (by decide) h61
        exact tokenL_outcome hat hne hzero (by decide) nofun
          (hspells (e := 61) (by decide) (.operator "==" (by decide) (by decide)))
      rw [if_neg h61]
      -- a name, and a string, which is closed
      by_cases h95 : asInt c = 95
      · rw [if_pos h95]
        exact readSym_outcome hat (.inr (heq 95 (by decide) h95))
      rw [if_neg h95]
      by_cases h34 : asInt c = 34
      · rw [if_pos h34]
        obtain rfl := heq 34 (by decide) h34
        exact readRaw_outcome hat hzero' fun hopen => hclosed (.string hopen)
      rw [if_neg h34]
      by_cases h45 : asInt c = 45
      · rw [if_pos h45]
        obtain rfl := heq 45 (by decide) h45
        exact minus_outcome hat
      rw [if_neg h45]
      -- a comment is behind the blanks only if it is not closed
      by_cases h47 : asInt c = 47
      · rw [if_pos h47]
        obtain rfl := heq 47 (by decide) h47
        refine slash_outcome hat (fun t ht => ?_) _
        subst ht
        exact hclosed hstart.unclosed_slashes
      rw [if_neg h47]
      by_cases h35 : asInt c = 35
      · obtain rfl := heq 35 (by decide) h35
        exact absurd hstart.unclosed_hash hclosed
      rw [if_neg h35]
      by_cases h64 : asInt c = 64
      · rw [if_pos h64]
        obtain rfl := heq 64 (by decide) h64
        exact at_outcome hat
      rw [if_neg h64]
      by_cases h48 : asInt c = 48
      · rw [if_pos h48]
        obtain rfl := heq 48 (by decide) h48
        exact zero_outcome hat
      rw [if_neg h48]
      -- blanks are behind already
      by_cases h10 : asInt c = 10
      · obtain rfl := heq 10 (by decide) h10
        exact absurd hstart.not_space (by decide)
      rw [if_neg h10, if_neg (Bool.eq_false_iff.1 hstart.not_space)]
      by_cases hdigit : isdigit (asInt c) = true
      · rw [if_pos hdigit]
        exact readDec_outcome (.inl rfl) (by simpa using hat) hdigit
      rw [if_neg hdigit]
      by_cases halpha : isalpha (asInt c) = true
      · rw [if_pos halpha]
        exact readSym_outcome hat (.inl halpha)
      rw [if_neg halpha]
      exact ⟨_, lex, rfl, .failed rfl rfl le_rfl hat⟩

end

end Lex

end Ymd
