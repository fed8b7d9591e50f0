import Ymd.Value.Variable

/-! # Literals

The conversions of `encoding.c` from the spelling of a literal to its value.
A spelling has no NUL in it. `char` is signed, and shifts of a 64-bit integer
use the low six bits of the count.
-/

namespace Ymd

/-- `dtol`; `none` where the source clears `ok`. -/
def dtol (x : UInt8) : Option YmdInt :=
  if 48 ≤ x ∧ x ≤ 57 then some ((x - 48).toBitVec.setWidth 64) else none

/-- `xtol`. -/
def xtol (x : UInt8) : Option YmdInt :=
  if 48 ≤ x ∧ x ≤ 57 then some ((x - 48).toBitVec.setWidth 64)
  else if 97 ≤ x ∧ x ≤ 102 then some ((10 + x - 97).toBitVec.setWidth 64)
  else if 65 ≤ x ∧ x ≤ 70 then some ((10 + x - 65).toBitVec.setWidth 64)
  else none

/-- The loop of `dtoll` over the digits, the last one first. -/
def dtollLoop : List UInt8 → YmdInt → YmdInt → Option YmdInt
  | [], rv, _ => some rv
  | x :: rest, rv, pow =>
      match dtol x with
      | some d => dtollLoop rest (rv + d * pow) (pow * 10)
      | none => none

/-- `dtoll`; `none` where it clears `ok`. -/
def dtoll (raw : Bytes) : Option YmdInt :=
  if 1 < raw.length ∧ raw.head? = some 45 then
    (dtollLoop raw.tail.reverse 0 1).map fun rv => -rv
  else dtollLoop raw.reverse 0 1

/-- The loop of `xtoll` over the digits, the last one first; `n` is the number
of digits behind it. -/
def xtollLoop : List UInt8 → Nat → YmdInt → Option YmdInt
  | [], _, rv => some rv
  | x :: rest, n, rv =>
      match xtol x with
      | some d => xtollLoop rest (n + 1) (rv ||| d <<< (n * 4 % 64))
      | none => none

/-- `xtoll`. -/
def xtoll (raw : Bytes) : Except Fault (Option YmdInt) :=
  match raw with
  | x0 :: x1 :: x2 :: rest =>
      if x0 ≠ 48 then throw (.assertion "raw[0] == '0'")
      else if x1 ≠ 120 then throw (.assertion "raw[1] == 'x'")
      else pure (xtollLoop (x2 :: rest).reverse 0 0)
  | _ => throw (.assertion "k > 2")

/-- `ESC_BYTE`; the rest of the spelling behind it. -/
def escByte : Bytes → Option (UInt8 × Bytes)
  | hi :: lo :: rest =>
      match xtol hi, xtol lo with
      | some h, some l => some (UInt8.ofNat (h.toNat * 16 + l.toNat), rest)
      | _, _ => none
  | _ => none

/-- The escapes of one character. -/
def escChar (c : UInt8) : Option UInt8 :=
  match c.toNat with
  | 97 => some 7
  | 98 => some 8
  | 102 => some 12
  | 110 => some 10
  | 114 => some 13
  | 116 => some 9
  | 118 => some 11
  | 48 => some 0
  | 92 => some 92
  | 34 => some 34
  | _ => none

/-- The loop of `stresc`, with a bound on its rounds. -/
def strescLoop : Nat → Bytes → Option Bytes
  | _, [] => some []
  | 0, _ :: _ => none
  | fuel + 1, c :: rest =>
      if c = 92 then
        match rest with
        | [] => none
        | e :: rest =>
            if e = 120 then do
              let (b, rest) ← escByte rest
              return b :: (← strescLoop fuel rest)
            else if e = 117 then do
              let (b1, rest) ← escByte rest
              let (b2, rest) ← escByte rest
              return b1 :: b2 :: (← strescLoop fuel rest)
            else do
              let b ← escChar e
              return b :: (← strescLoop fuel rest)
      else do return c :: (← strescLoop fuel rest)

/-- `stresc`; `none` where it returns -1. -/
def stresc (raw : Bytes) : Option Bytes := strescLoop raw.length raw

end Ymd
