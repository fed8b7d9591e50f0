import Ymd.Value.Variable

/-! # Tokens and the lexer

The model of `lex.c`. The source text ends with a NUL; reading behind that NUL
is a fault, and so is a loop that reads the NUL without end. Characters are
signed, so the byte 255 reads like the end of the text.
-/

namespace Ymd

/-- `enum ymd_token`, with the characters that are their own token. -/
inductive Token
  | EOS | ERROR
  | char (c : UInt8)
  | NIL | TRUE | FALSE | STRING | HEX_LITERAL | DEC_LITERAL | LE | GE | NE | MATCH | EQ | SYMBOL
  | SKLS | LSHIFT | RSHIFT_A | RSHIFT_L | DICT | VAR | FUNC | AND | OR | NOT | IF | ELSE | ELIF
  | WITH | FOR | RETURN | BREAK | CONTINUE | TYPEOF | IN
  deriving DecidableEq, Repr

namespace Token

@[match_pattern] def lparen : Token := .char 40
@[match_pattern] def rparen : Token := .char 41
@[match_pattern] def lbrack : Token := .char 91
@[match_pattern] def rbrack : Token := .char 93
@[match_pattern] def lbrace : Token := .char 123
@[match_pattern] def rbrace : Token := .char 125
@[match_pattern] def comma : Token := .char 44
@[match_pattern] def colon : Token := .char 58
@[match_pattern] def semicolon : Token := .char 59
@[match_pattern] def dot : Token := .char 46
@[match_pattern] def assign : Token := .char 61
@[match_pattern] def plus : Token := .char 43
@[match_pattern] def minus : Token := .char 45
@[match_pattern] def star : Token := .char 42
@[match_pattern] def slash : Token := .char 47
@[match_pattern] def percent : Token := .char 37
@[match_pattern] def less : Token := .char 60
@[match_pattern] def greater : Token := .char 62
@[match_pattern] def bang : Token := .char 33

end Token

/-- `struct ytoken`: `off` counts from the start of the text, and `text` is what
lies in the text of the slice it points to. Where `lex_next` returns `ERROR` and
leaves the token zeroed it is `ERROR` here; the parser expects neither. -/
structure Ytoken where
  token : Token
  off : Int
  len : Nat
  text : Bytes
  deriving DecidableEq, Repr

/-- `struct ymd_lex`. -/
structure Lex where
  buf : Bytes
  off : Nat
  iLine : Nat
  iColumn : Int

namespace Lex

/-- `lex_init`. -/
def init (buf : Bytes) : Lex := ⟨buf, 0, 1, 0⟩

abbrev LexM := StateT Lex (Except Fault)

/-- `EOS`, as a character. -/
def eos : Int := -1

/-- A character as an `int`, with the test for NUL of the reading functions. -/
def asInt (c : UInt8) : Int := if c = 0 then eos else c.toBitVec.toInt

/-- `lex->buf[i]`. -/
def charAt (lex : Lex) (i : Nat) : Except Fault UInt8 :=
  if i < lex.buf.length then pure (lex.buf.getD i 0)
  else if i = lex.buf.length then pure 0
  else throw (.bounds "lex->buf")

/-- The slice of `len` bytes from `off` on, as far as it lies in the text. -/
def slice (lex : Lex) (off : Int) (len : Nat) : Bytes :=
  (lex.buf.drop off.toNat).take ((off + len).toNat - off.toNat)

/-- A token with its slice. -/
def ytoken (lex : Lex) (tk : Token) (off : Int) (len : Nat) : Ytoken :=
  ⟨tk, off, len, lex.slice off len⟩

/-- `lex_peek`. -/
def peek : LexM Int := do
  let lex ← get
  return asInt (← lex.charAt lex.off)

/-- `lex_read`. -/
def read : LexM Int := do
  let lex ← get
  let ch ← lex.charAt lex.off
  set { lex with off := lex.off + 1, iColumn := lex.iColumn + 1 }
  return asInt ch

/-- `lex_move`. -/
def move : LexM Int := do
  let lex ← get
  if (← lex.charAt lex.off) = 0 then return eos
  let ch ← lex.charAt (lex.off + 1)
  set { lex with off := lex.off + 1, iColumn := lex.iColumn + 1 }
  return asInt ch

/-- `lex_back`. -/
def back : LexM Unit :=
  modify fun lex => { lex with off := lex.off - 1, iColumn := lex.iColumn - 1 }

/-- `lex_token_c`. -/
def tokenC : LexM Ytoken := do
  let lex ← get
  let ch ← lex.charAt lex.off
  let _ ← read
  return lex.ytoken (if asInt ch = eos then .EOS else .char ch) lex.off 1

/-- `lex_token_l`. -/
def tokenL (m : Int) (tk : Token) : LexM Ytoken := do
  if (← move) ≠ m then
    back
    tokenC
  else
    let lex ← get
    let _ ← move
    return lex.ytoken tk (lex.off - 1) 2

/-- `lex_token_lt` and `lex_token_gt`: a second character, `=` or `twice`. -/
def tokenCmp (twice : UInt8) (withEq doubled : Token) : LexM Ytoken := do
  let lex ← get
  let next ← lex.charAt (lex.off + 1)
  if next = 61 then tokenL 61 withEq
  else if next = twice then tokenL (asInt twice) doubled
  else tokenC

def isspace (ch : Int) : Bool := ch = 32 ∨ (9 ≤ ch ∧ ch ≤ 13)

def isdigit (ch : Int) : Bool := 48 ≤ ch ∧ ch ≤ 57

def isalpha (ch : Int) : Bool := (65 ≤ ch ∧ ch ≤ 90) ∨ (97 ≤ ch ∧ ch ≤ 122)

def isxdigit (ch : Int) : Bool :=
  isdigit ch || ((65 ≤ ch ∧ ch ≤ 70) ∨ (97 ≤ ch ∧ ch ≤ 102) : Bool)

/-- `TERM_CHAR`: `+ * % ^ , ; ( ) [ ] { } : . &`. -/
def termChar : List Int := [43, 42, 37, 94, 44, 59, 40, 41, 91, 93, 123, 125, 58, 46, 38]

/-- `PREX_CHAR`: `- < > = ! ~ @ | /`, the quote and `#`. -/
def prexChar : List Int := [45, 60, 62, 61, 33, 126, 64, 124, 47, 34, 35]

/-- `lex_term`. -/
def term (ch : Int) : Bool :=
  ch = eos || termChar.contains ch || prexChar.contains ch || isspace ch

/-- The digits of a number, counted from `len` on, and whether a terminator ends
them. -/
def readDigits (digit : Int → Bool) : Nat → Nat → LexM (Nat × Bool)
  | 0, _ => throw .looping
  | fuel + 1, len => do
      let ch ← read
      if term ch then
        back
        return (len, true)
      else if digit ch then readDigits digit fuel (len + 1)
      else return (len, false)

/-- `lex_read_dec`. -/
def readDec (neg : Nat) : LexM Ytoken := do
  let lex ← get
  let (len, ended) ← readDigits isdigit (lex.buf.length + 1) 0
  if ended then
    return lex.ytoken (if len = 0 then .ERROR else .DEC_LITERAL) (lex.off - neg) (len + neg)
  else return lex.ytoken .ERROR (lex.off - neg) len

/-- `lex_read_hex`. -/
def readHex : LexM Ytoken := do
  let _ ← move
  let lex ← get
  let (len, ended) ← readDigits isxdigit (lex.buf.length + 1) 2
  return lex.ytoken (if ended then .HEX_LITERAL else .ERROR) (lex.off - 2) len

/-- The keywords of `DECL_TOKEN`. The other entries of the table are no symbols. -/
def keywords : List (String × Token) :=
  [("nil", .NIL), ("true", .TRUE), ("false", .FALSE), ("var", .VAR), ("func", .FUNC),
    ("and", .AND), ("or", .OR), ("not", .NOT), ("if", .IF), ("else", .ELSE), ("elif", .ELIF),
    ("with", .WITH), ("for", .FOR), ("return", .RETURN), ("break", .BREAK),
    ("continue", .CONTINUE), ("typeof", .TYPEOF), ("in", .IN)]

/-- `lex_token`. -/
def token (text : Bytes) : Token :=
  if text = [] then .ERROR
  else match keywords.find? fun entry => lit entry.1 = text with
    | some entry => entry.2
    | none => .SYMBOL

/-- The loop of `lex_read_sym`: the length, and whether the symbol ends in a
terminator. -/
def readSymChars : Nat → Nat → LexM (Nat × Bool)
  | 0, _ => throw .looping
  | fuel + 1, len => do
      let ch ← peek
      if isalpha ch || isdigit ch || ch = 95 then
        let _ ← move
        readSymChars fuel (len + 1)
      else return (len, term ch)

/-- `lex_read_sym`. -/
def readSym : LexM Ytoken := do
  let lex ← get
  let (len, ended) ← readSymChars (lex.buf.length + 1) 0
  return lex.ytoken (if ended then token (lex.slice lex.off len) else .ERROR) lex.off len

/-- The loop of `lex_read_raw`: the length, and whether the closing quote comes
before the line break. -/
def readRawChars : Nat → Nat → LexM (Nat × Bool)
  | 0, _ => throw .looping
  | fuel + 1, len => do
      let ch ← peek
      if ch = 34 then return (len, true)
      else if ch = 92 then
        let _ ← move
        let _ ← move
        readRawChars fuel (len + 2)
      else if ch = 10 then return (len, false)
      else
        let _ ← move
        readRawChars fuel (len + 1)

/-- `lex_read_raw`. -/
def readRaw : LexM Ytoken := do
  let _ ← move
  let lex ← get
  let (len, closed) ← readRawChars (lex.buf.length + 1) 0
  if closed then
    let _ ← move
    return lex.ytoken .STRING lex.off len
  else return lex.ytoken .ERROR lex.off len

/-- `lex_skip_line`. -/
def skipLine : Nat → LexM Unit
  | 0 => throw .looping
  | fuel + 1 => do
      if (← read) ≠ 10 then skipLine fuel
      else modify fun lex => { lex with iLine := lex.iLine + 1, iColumn := 0 }

/-- The loop of `lex_next`, with a bound on its rounds. -/
def nextLoop : Nat → LexM Ytoken
  | 0 => throw .looping
  | fuel + 1 => do
      let lex ← get
      let skip := lex.buf.length + 1
      let ch ← peek
      if ch = eos || termChar.contains ch then tokenC
      -- `<`, `>`, `|`, `!`, `~` and `=`
      else if ch = 60 then tokenCmp 60 .LE .LSHIFT
      else if ch = 62 then tokenCmp 62 .GE .RSHIFT_A
      else if ch = 124 then tokenL 62 .RSHIFT_L
      else if ch = 33 then tokenL 61 .NE
      else if ch = 126 then tokenL 61 .MATCH
      else if ch = 61 then tokenL 61 .EQ
      -- `_`, and the quote that begins a string
      else if ch = 95 then readSym
      else if ch = 34 then readRaw
      -- `-`: a number, an arrow or the operator
      else if ch = 45 then
        let _ ← move
        if isdigit (← peek) then readDec 1
        else if (← peek) = 62 then
          let lex ← get
          let _ ← move
          return lex.ytoken .DICT (lex.off - 2) 2
        else
          back
          tokenC
      -- `/`: two of them begin a comment
      else if ch = 47 then
        if (← move) = 47 then
          skipLine skip
          nextLoop fuel
        else
          back
          tokenC
      -- `#`
      else if ch = 35 then
        skipLine skip
        nextLoop fuel
      -- `@`: with a brace behind it, a skip list
      else if ch = 64 then
        if (← move) ≠ 123 then return lex.ytoken .ERROR lex.off 0
        else
          let _ ← move
          return lex.ytoken .SKLS lex.off 2
      -- `0`: with `x` behind it, a hexadecimal number
      else if ch = 48 then
        let ch ← move
        if ch = 120 || ch = 88 then readHex
        else
          back
          readDec 0
      -- the end of a line
      else if ch = 10 then
        let _ ← move
        modify fun lex => { lex with iLine := lex.iLine + 1, iColumn := 0 }
        nextLoop fuel
      else if isspace ch then
        let _ ← read
        nextLoop fuel
      else if isdigit ch then readDec 0
      else if isalpha ch then readSym
      else return lex.ytoken .ERROR 0 0

/-- `lex_next`. -/
def next : LexM Ytoken := do
  nextLoop ((← get).buf.length + 1)

end Lex

end Ymd
