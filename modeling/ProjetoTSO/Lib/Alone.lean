import ProjetoTSO.Lib.LockedPrograms

/-!
# Programs that run alone

When nobody else acts between the steps of a program, its locks do not matter: what it
returns and what it leaves of the shared state depend on the state it began in and on the
answers it got (`Prog.Alone`).  In a run whose threads go one after the other, each of them
runs alone (`Serial.alone`).
-/

namespace LockedPrograms

open Transition FifoRwlock

variable {T σ Λ L R : Type}

/-- The program, run alone, may return `result` and leave `s'`. -/
def Prog.Alone : Prog σ Λ L R → σ → R → σ → Prop
  | .ret value, s, result, s' => value = result ∧ s = s'
  | .acquire _ _ next, s, result, s' => next.Alone s result s'
  | .release _ _ _ next, s, result, s' => next.Alone s result s'
  | .act run _ next, s, result, s' => (next (run s).1).Alone (run s).2 result s'
  | @ask _ _ _ _ ε _ next, s, result, s' => ∃ answer : ε, (next answer).Alone s result s'

section Cases

variable {s s' : σ} {result : R} {next : Prog σ Λ L R}

@[simp] theorem alone_ret {value : R} :
    (Prog.ret value : Prog σ Λ L R).Alone s result s' ↔ value = result ∧ s = s' := Iff.rfl

@[simp] theorem alone_acquire {lock : L} {mode : Mode} :
    (Prog.acquire lock mode next).Alone s result s' ↔ next.Alone s result s' := Iff.rfl

@[simp] theorem alone_release {lock : L} {mode : Mode} {frame : Λ} :
    (Prog.release lock mode frame next).Alone s result s' ↔ next.Alone s result s' := Iff.rfl

@[simp] theorem alone_act {α : Type} {run : σ → α × σ} {frame : α → Λ} {next : α → Prog σ Λ L R} :
    (Prog.act run frame next).Alone s result s' ↔ (next (run s).1).Alone (run s).2 result s' :=
  Iff.rfl

@[simp] theorem alone_ask {ε : Type} [Inhabited ε] {next : ε → Prog σ Λ L R} :
    (Prog.ask next).Alone s result s' ↔ ∃ answer, (next answer).Alone s result s' := Iff.rfl

end Cases

section Steps

variable [DecidableEq T] [DecidableEq L] {fifo : L → Prop} {m after : Machine T σ Λ L R}
variable {event : Event T L} {result : R} {s' : σ}

/-- A step of a thread is one of its program. -/
theorem Machine.Step.alone (step : m.Step fifo event after)
    (goes : (after.prog event.thread).Alone after.shared result s') :
    (m.prog event.thread).Alone m.shared result s' := by
  cases step with
  | arrive => exact goes
  | @grant t lock mode next _ here =>
      have goes : (Function.update m.prog t next t).Alone m.shared result s' := goes
      rw [Function.update_self] at goes
      show (m.prog t).Alone m.shared result s'
      rw [here]
      exact goes
  | @seize t lock mode next here =>
      have goes : (Function.update m.prog t next t).Alone m.shared result s' := goes
      rw [Function.update_self] at goes
      show (m.prog t).Alone m.shared result s'
      rw [here]
      exact goes
  | @release t lock mode frame next _ here =>
      have goes : (Function.update m.prog t next t).Alone m.shared result s' := goes
      rw [Function.update_self] at goes
      show (m.prog t).Alone m.shared result s'
      rw [here]
      exact goes
  | @act t α run frame next here =>
      have goes : (Function.update m.prog t (next (run m.shared).1) t).Alone (run m.shared).2
        result s' := goes
      rw [Function.update_self] at goes
      show (m.prog t).Alone m.shared result s'
      rw [here]
      exact goes
  | @ask t ε _ next here answer =>
      have goes : (Function.update m.prog t (next answer) t).Alone m.shared result s' := goes
      rw [Function.update_self] at goes
      show (m.prog t).Alone m.shared result s'
      rw [here]
      exact ⟨answer, goes⟩

/-- Steps of one thread. -/
def Machine.StepOf (fifo : L → Prop) (t : T) (m : Machine T σ Λ L R) (event : Event T L)
    (after : Machine T σ Λ L R) : Prop := m.Step fifo event after ∧ event.thread = t

/-- **A thread that takes every step** runs alone. -/
theorem alone_of_run {t : T} {trace : List (Event T L)}
    (run : Runs (Machine.StepOf fifo t) m trace after)
    (goes : (after.prog t).Alone after.shared result s') :
    (m.prog t).Alone m.shared result s' := by
  induction run with
  | nil => exact goes
  | @snoc trace mid after event earlier move ih =>
      obtain ⟨step, rfl⟩ := move
      exact ih (step.alone goes)

/-- It leaves the other programs where they are. -/
theorem others_of_run {t u : T} {trace : List (Event T L)}
    (run : Runs (Machine.StepOf fifo t) m trace after) (differ : u ≠ t) :
    after.prog u = m.prog u := by
  induction run with
  | nil => rfl
  | @snoc trace mid after event earlier move ih =>
      obtain ⟨step, rfl⟩ := move
      exact (step.others.2 u differ).1.trans ih

/-! ## One thread after the other -/

/-- The threads of `history` have run one after the other, each from a state it may begin in
until it returned. -/
inductive Serial (fifo : L → Prop) (begins : T → σ → Prop) (init : Machine T σ Λ L R) :
    List (T × R) → Machine T σ Λ L R → Prop
  | nil : Serial fifo begins init [] init
  | call {history : List (T × R)} {m after : Machine T σ Λ L R} {t : T}
      {trace : List (Event T L)} {result : R} (earlier : Serial fifo begins init history m)
      (fresh : t ∉ history.map Prod.fst) (ready : begins t m.shared)
      (run : Runs (Machine.StepOf fifo t) m trace after) (returned : after.prog t = .ret result) :
      Serial fifo begins init (history ++ [(t, result)]) after

variable {begins : T → σ → Prop} {init : Machine T σ Λ L R} {history : List (T × R)}

/-- Threads not in the history have not begun. -/
theorem Serial.unbegun (serial : Serial fifo begins init history m) {t : T}
    (fresh : t ∉ history.map Prod.fst) : m.prog t = init.prog t := by
  induction serial with
  | nil => rfl
  | @call history m after u trace result earlier _ ready run returned ih =>
      rw [List.map_append, List.mem_append, not_or] at fresh
      have differ : t ≠ u := fun same => fresh.2 (List.mem_singleton.mpr same)
      rw [others_of_run run differ, ih fresh.1]

/-- **Each thread of a serial run** runs alone, from where the one before it ended. -/
theorem Serial.alone (serial : Serial fifo begins init history m) :
    Runs (fun s entry s' => begins entry.1 s ∧ (init.prog entry.1).Alone s entry.2 s') init.shared
      history m.shared := by
  induction serial with
  | nil => exact .nil
  | @call history m after t trace result earlier fresh ready run returned ih =>
      refine ih.snoc ⟨ready, ?_⟩
      have ends : (after.prog t).Alone after.shared result after.shared := by
        rw [returned]
        exact ⟨rfl, rfl⟩
      have goes := alone_of_run run ends
      rwa [earlier.unbegun fresh] at goes

/-- A serial run is a run. -/
theorem Serial.runs (serial : Serial fifo begins init history m) :
    ∃ trace, Runs (Machine.Step fifo) init trace m := by
  induction serial with
  | nil => exact ⟨[], .nil⟩
  | @call history m after t trace result earlier fresh ready run returned ih =>
      obtain ⟨before, led⟩ := ih
      exact ⟨before ++ trace, led.trans (run.mono fun _ _ _ move => move.1)⟩

end Steps

end LockedPrograms
