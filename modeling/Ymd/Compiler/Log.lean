import Ymd.Compiler.Emit
import Ymd.Foundation.Outcome

/-! # A log of the parser

Notes of what is read, kept beside the source of tokens. They are only added.
-/

namespace Ymd

open Foundation

variable {σ ε α β : Type}

abbrev Logged (σ ε : Type) := σ × List ε

def note (e : ε) : ParseM (Logged σ ε) Unit :=
  modify fun p => { p with lex := (p.lex.1, p.lex.2 ++ [e]) }

/-- A parser with a log. -/
def Parser.logged (p : Parser σ) (log : List ε) : Parser (Logged σ ε) where
  lex := (p.lex, log)
  lah := p.lah
  blk := p.blk
  outer := p.outer
  loop := p.loop
  forId := p.forId
  heap := p.heap
  stk := p.stk

/-- Notes are only added. -/
def Appends (y : ParseM (Logged σ ε) α) : Prop :=
  Keeps (fun q q' => ∃ more, q'.lex.2 = q.lex.2 ++ more) y

theorem appends_refl (q : Parser (Logged σ ε)) : ∃ more, q.lex.2 = q.lex.2 ++ more :=
  ⟨[], (List.append_nil _).symm⟩

theorem appends_trans (q q' q'' : Parser (Logged σ ε)) (h : ∃ more, q'.lex.2 = q.lex.2 ++ more)
    (h' : ∃ more, q''.lex.2 = q'.lex.2 ++ more) : ∃ more, q''.lex.2 = q.lex.2 ++ more := by
  obtain ⟨more, h⟩ := h
  obtain ⟨more', h'⟩ := h'
  exact ⟨more ++ more', by rw [h', h, List.append_assoc]⟩

theorem Appends.bind {y : ParseM (Logged σ ε) α} {g : α → ParseM (Logged σ ε) β} (hy : Appends y)
    (hg : ∀ a, Appends (g a)) : Appends (y >>= g) :=
  Keeps.bind appends_trans hy hg

theorem appends_note (e : ε) : Appends (note e : ParseM (Logged σ ε) Unit) :=
  fun _ => ⟨[e], rfl⟩

/-! ## Computations that do the same -/

/-- A result, with a log. -/
def withLog (log : List ε) :
    EStateM.Result Abort (Parser σ) α → EStateM.Result Abort (Parser (Logged σ ε)) α
  | .ok a p => .ok a (p.logged log)
  | .error e p => .error e (p.logged log)

/-- The second computation does what the first one does, and notes nothing. -/
def Alike (x : ParseM σ α) (y : ParseM (Logged σ ε) α) : Prop :=
  ∀ p log, y (p.logged log) = withLog log (x p)

theorem Alike.appends {x : ParseM σ α} {y : ParseM (Logged σ ε) α} (h : Alike x y) : Appends y := by
  intro q
  have hq : q = Parser.logged { q with lex := q.lex.1 } q.lex.2 := rfl
  rw [hq, h]
  cases x { q with lex := q.lex.1 } <;> exact appends_refl _

theorem alike_onBlk (f : Chunk → Chunk × α) : Alike (onBlk f) (onBlk f : ParseM (Logged σ ε) α) :=
  fun _ _ => rfl

theorem alike_ymdFunc (name : Bytes) : Alike (ymdFunc name) (ymdFunc name : ParseM (Logged σ ε) Addr) := by
  intro p log
  rw [ymdFunc_apply, ymdFunc_apply]
  change (if maxStack ≤ p.stk.length then _ else _) = _
  split <;> rfl

theorem alike_ymkEnter (core : Chunk) :
    Alike (ymkEnter core) (ymkEnter core : ParseM (Logged σ ε) Unit) :=
  fun _ _ => rfl

theorem alike_ymkLeave (fn : Addr) : Alike (ymkLeave fn) (ymkLeave fn : ParseM (Logged σ ε) Unit) := by
  rintro ⟨lex, lah, blk, outer, loop, forId, heap, stk⟩ log
  rw [ymkLeave_apply, ymkLeave_apply]
  dsimp only [Parser.logged]
  rcases heap.obj fn with _ | _ | _ | _ | _ | _ <;> rfl

theorem alike_setBindCount (n : Nat) (fn : Addr) :
    Alike (setBindCount n fn) (setBindCount n fn : ParseM (Logged σ ε) Unit) := by
  rintro ⟨lex, lah, blk, outer, loop, forId, heap, stk⟩ log
  rw [setBindCount_apply, setBindCount_apply]
  dsimp only [Parser.logged]
  rcases heap.obj fn with _ | _ | _ | _ | _ | _ <;> rfl

theorem alike_theLoop : Alike theLoop (theLoop : ParseM (Logged σ ε) LoopInfo) := by
  rintro ⟨lex, lah, blk, outer, _ | ⟨info, loop⟩, forId, heap, stk⟩ log <;> rfl

end Ymd
