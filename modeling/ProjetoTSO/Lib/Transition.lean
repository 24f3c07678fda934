import Mathlib.Logic.Basic
import Mathlib.Data.List.Basic
import Mathlib.Data.List.Induction
import Mathlib.Data.Option.Basic

/-!
# Runs of a labelled transition system

A step relation `step : σ → ε → σ → Prop` says what one labelled step can do.
`Runs step init history state` says that the labels `history`, taken in order,
lead from `init` to `state`.  The history is part of the judgement because the
properties of interest speak about what happened, not only about where it
ended.

* `Runs.invariant` — the induction rule: a history-indexed property that holds
  initially and survives every step holds along every run.
* `Runs.trans`, `Runs.mono` — composition, and weakening of the step relation.
* `Runs.simulated` — the simulation rule, for a step matched by a run.
* `Runs.of_foldlM` — an executable step function yields runs by evaluation.
-/

universe u v w x

namespace Transition

variable {σ : Type u} {ε : Type v}

/-- `Runs step init history state`: the labels of `history`, in order, lead from
`init` to `state`. -/
inductive Runs (step : σ → ε → σ → Prop) (init : σ) : List ε → σ → Prop
  | nil : Runs step init [] init
  | snoc {history : List ε} {state next : σ} {label : ε} :
      Runs step init history state → step state label next →
        Runs step init (history ++ [label]) next

namespace Runs

variable {step step' : σ → ε → σ → Prop} {init middle state : σ}
variable {history later : List ε}

/-- **The invariant rule.**  What holds before anything happened, and is
preserved by every step of a run, holds after the run. -/
theorem invariant (holds : List ε → σ → Prop) (start : holds [] init)
    (preserved : ∀ {history state label next}, Runs step init history state →
      holds history state → step state label next → holds (history ++ [label]) next)
    (run : Runs step init history state) : holds history state := by
  induction run with
  | nil => exact start
  | snoc earlier move ih => exact preserved earlier ih move

/-- The invariant rule for a property that does not read the history. -/
theorem state_invariant (holds : σ → Prop) (start : holds init)
    (preserved : ∀ {state label next}, holds state → step state label next → holds next)
    (run : Runs step init history state) : holds state :=
  run.invariant (fun _ state => holds state) start fun _ before move => preserved before move

theorem mono (weaker : ∀ state label next, step state label next → step' state label next)
    (run : Runs step init history state) : Runs step' init history state := by
  induction run with
  | nil => exact .nil
  | snoc _ move ih => exact .snoc ih (weaker _ _ _ move)

theorem trans (first : Runs step init history middle)
    (second : Runs step middle later state) : Runs step init (history ++ later) state := by
  induction second with
  | nil => simpa using first
  | snoc _ move ih =>
      rw [← List.append_assoc]
      exact .snoc ih move

/-- The last step of a run that took one. -/
theorem of_snoc {label : ε} (run : Runs step init (history ++ [label]) state) :
    ∃ before, Runs step init history before ∧ step before label state := by
  generalize whole : history ++ [label] = labels at run
  cases run with
  | nil => simp at whole
  | snoc earlier move =>
      obtain ⟨rfl, last⟩ := List.append_inj' whole rfl
      cases last
      exact ⟨_, earlier, move⟩

/-- A run with no step stayed where it was. -/
theorem of_nil (run : Runs step init [] state) : state = init := by
  generalize whole : ([] : List ε) = labels at run
  cases run with
  | nil => rfl
  | snoc _ _ => simp at whole

end Runs

/-- `HighWater step measure init history state peak`: along the run, `peak` is the
largest value the measure took. -/
inductive HighWater (step : σ → ε → σ → Prop) (measure : List ε → σ → ℕ) (init : σ) :
    List ε → σ → ℕ → Prop
  | nil : HighWater step measure init [] init (measure [] init)
  | snoc {history : List ε} {state next : σ} {label : ε} {peak : ℕ} :
      HighWater step measure init history state peak → step state label next →
        HighWater step measure init (history ++ [label]) next
          (max peak (measure (history ++ [label]) next))

namespace HighWater

variable {step : σ → ε → σ → Prop} {measure measure' : List ε → σ → ℕ} {init state : σ}
variable {history : List ε} {peak : ℕ}

theorem run (reached : HighWater step measure init history state peak) :
    Runs step init history state := by
  induction reached with
  | nil => exact .nil
  | snoc _ move ih => exact ih.snoc move

theorem mono {step' : σ → ε → σ → Prop}
    (weaker : ∀ state label next, step state label next → step' state label next)
    (reached : HighWater step measure init history state peak) :
    HighWater step' measure init history state peak := by
  induction reached with
  | nil => exact .nil
  | snoc _ move ih => exact ih.snoc (weaker _ _ _ move)

/-- A high-water mark counts for every measure that agrees along the run. -/
theorem congr (agree : ∀ {history state}, Runs step init history state →
      measure history state = measure' history state)
    (reached : HighWater step measure init history state peak) :
    HighWater step measure' init history state peak := by
  induction reached with
  | nil =>
      rw [agree .nil]
      exact .nil
  | snoc earlier move ih =>
      rw [agree (earlier.run.snoc move)]
      exact ih.snoc move

end HighWater

/-- **The simulation rule.**  When every step is matched by a run of another system
that keeps the two states related, every run is. -/
theorem Runs.simulated {τ : Type w} {ε' : Type x} {step : σ → ε → σ → Prop}
    {step' : τ → ε' → τ → Prop} {init state : σ} {init' : τ} {history : List ε}
    (observe : ε → List ε') (related : σ → τ → Prop) (start : related init init')
    (matched : ∀ {before label after abstract}, related before abstract → step before label after →
      ∃ next, Runs step' abstract (observe label) next ∧ related after next)
    (run : Runs step init history state) :
    ∃ abstract, Runs step' init' (history.flatMap observe) abstract ∧ related state abstract := by
  induction run with
  | nil => exact ⟨init', .nil, start⟩
  | snoc _ move ih =>
      obtain ⟨abstract, earlier, before⟩ := ih
      obtain ⟨next, later, after⟩ := matched before move
      refine ⟨next, ?_, after⟩
      rw [List.flatMap_append, List.flatMap_singleton]
      exact earlier.trans later

/-- Evaluating an executable step function along a list of labels is a run of
the relation it computes. -/
theorem runs_of_foldlM {exec : σ → ε → Option σ} {init state : σ} {labels : List ε}
    (evaluated : labels.foldlM exec init = some state) :
    Runs (fun before label after => exec before label = some after) init labels state := by
  induction labels using List.reverseRecOn generalizing state with
  | nil =>
      cases evaluated
      exact .nil
  | append_singleton labels label ih =>
      rw [List.foldlM_append, Option.bind_eq_bind, Option.bind_eq_some_iff] at evaluated
      obtain ⟨before, earlier, last⟩ := evaluated
      have move : exec before label = some state := by simpa using last
      exact .snoc (ih earlier) move

end Transition
