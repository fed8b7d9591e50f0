import Ymd.Compiler.Returns
import Ymd.Compiler.Tiling

/-! # The operand stack behind a compilation

Every nested function keeps its object on the operand stack until its body is read.
A compilation that fails pops one object, so it leaves the stack as it was exactly
when no nested function is open at the error.
-/

namespace Ymd

open Foundation

/-! ## What is left of a text -/

namespace Lex

/-- The bytes behind the lexer and the NUL behind them. -/
def bytesLeft : Measure Lex where
  size lex := lex.buf.length + 1 - lex.off
  good lex := 0 ∉ lex.buf ∧ lex.off ≤ lex.buf.length + 1

variable {pre here : Bytes} {lex : Lex} {tok : Ytoken}

theorem Outcome.buf_eq (houtcome : Outcome pre here tok lex) : lex.buf = pre ++ here := by
  cases houtcome with
  | failed _ hall _ hat => exact hat.1.trans hall
  | ended hhere _ _ hbuf => rw [hbuf, hhere, List.append_nil]
  | token hhere _ _ _ hat => rw [hat.1, hhere, List.append_assoc]
  | dict hhere _ _ hat => rw [hat.1, hhere, List.append_assoc]; rfl
  | early hhere _ _ hat => rw [hat.1, hhere, List.append_assoc]; rfl
  | bare hhere _ _ _ _ hat => rw [hat.1, hhere, List.append_assoc]; rfl

theorem Outcome.off_le (houtcome : Outcome pre here tok lex) : lex.off ≤ lex.buf.length + 1 := by
  rcases houtcome.at_or_behind with ⟨-, hoff⟩ | ⟨pre', post', hat, -⟩
  · exact hoff.le
  · rw [hat.1, hat.2, List.length_append]
    omega

/-- A token is at least one byte long, but an error may be found without reading. -/
theorem Outcome.weight_le (houtcome : Outcome pre here tok lex) :
    pre.length + tok.token.weight ≤ lex.off := by
  have hweight : tok.token.weight ≤ 1 := by
    unfold Token.weight
    split <;> omega
  by_cases herror : tok.token = .ERROR
  · have hzero : tok.token.weight = 0 := if_pos (.inr herror)
    rw [hzero, Nat.add_zero]
    cases houtcome with
    | failed _ _ hle hat => exact hat.2 ▸ hle
    | ended _ _ _ _ hbehind => omega
    | token _ _ _ _ hat =>
        rw [hat.2, List.length_append]
        omega
    | dict _ _ _ hat =>
        rw [hat.2, List.length_append]
        omega
    | early _ _ _ hat =>
        rw [hat.2, List.length_append]
        omega
    | bare _ _ _ _ _ hat =>
        rw [hat.2, List.length_append]
        omega
  · have hlt := houtcome.advances.resolve_left herror
    omega

theorem source_shrinks : source.Shrinks bytesLeft := by
  rintro lex tok lex' ⟨hbuf, hoff⟩ hnext
  by_cases hbehind : lex.off = lex.buf.length + 1
  · obtain ⟨e, he⟩ := next_behind hbehind
    cases he.symm.trans hnext
  · have hat : At (lex.buf.take lex.off) (lex.buf.drop lex.off) lex :=
      ⟨(List.take_append_drop _ _).symm, (List.length_take_of_le (by omega)).symm⟩
    have hzero : 0 ∉ lex.buf.drop lex.off := fun h => hbuf (List.mem_of_mem_drop h)
    obtain ⟨gap, here, hpost, -, houtcome⟩ := outcome_of_next hat hzero hnext
    have hsame : lex'.buf = lex.buf := by
      rw [houtcome.buf_eq, List.append_assoc, ← hpost, List.take_append_drop]
    have hweight := houtcome.weight_le
    rw [List.length_append, ← hat.2] at hweight
    have hle := houtcome.off_le
    refine ⟨⟨hsame ▸ hbuf, hle⟩, ?_⟩
    change lex'.buf.length + 1 - lex'.off + tok.token.weight ≤ lex.buf.length + 1 - lex.off
    rw [hsame] at hle ⊢
    omega

end Lex

/-! ## What is returned -/

/-- What `ymd_compile` returns, and the operand stack behind it. `ymc_final` pops
nothing: each chunk it finds has been grabbed by its function object. -/
def returned {σ α : Type} : EStateM.Result Abort (Parser σ) α → Option (Int × List Variable)
  | .ok _ p => some (0, p.stk)
  | .error (.fail _) p => some (-1, p.stk.tail)
  | .error _ _ => none

/-- 0 with one function more, or -1 with the same stack. -/
def KeepsStack (stk : List Variable) (result : Option (Int × List Variable)) : Prop :=
  (∃ fn, result = some (0, .func fn :: stk)) ∨ result = some (-1, stk)

theorem KeepsStack.answers {σ α : Type} {stk : List Variable}
    {result : EStateM.Result Abort (Parser σ) α} (h : KeepsStack stk (returned result)) :
    Answers result := by
  rcases result with ⟨a, p⟩ | ⟨⟨msg⟩ | _ | _ | _, p⟩
  · exact trivial
  · exact trivial
  all_goals
    rcases h with ⟨fn, h⟩ | h <;> cases h

end Ymd
