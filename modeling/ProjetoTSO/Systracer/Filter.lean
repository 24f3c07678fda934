import ProjetoTSO.Syscounter.Filter
import ProjetoTSO.Systracer.Losses

/-!
# Whose events the tracer shows

The tracer behind its filter, which is that of the counter: the events of the processes that are
arguments and of their descendants are those that are printed, counted as lost, forgotten, or
underway (`events_of_family`).
-/

namespace ProjetoTSO.Systracer

open CInt Transition
open Syscounter (Filtered configure MAX_PIDS firstSeven led_firstSeven single_firstSeven forked_child
  unreused_child)
open Syscounter.Filtered

/-- The `pid` of an event that passes. -/
def Act.entry : Act → Option ℤ
  | .pass p => some p.event.pid
  | _ => none

/-- The event that passes. -/
def Act.passage : Act → Option Passage
  | .pass p => some p
  | _ => none

section Tracer

variable {argv : List (List UInt8)} {first : UInt32 → Option UInt32}
variable {history : List (Filtered.Act Act)} {s : Filtered State}

theorem passed_eq (history : List Act) : passed history = history.filterMap Act.passage := by
  rw [passed]
  congr 1

/-- **The trace is of the family**: of the processes that are arguments and of their
descendants, in every run of tasks that fork, make threads, end and call, of the probes and of
`main`, in which no id is given twice.  If the arguments are processes of one thread and
`my_config` has not become full, each event of the family is printed, counted as lost, was
counted before the counter was reset, or is underway. -/
theorem events_of_family (led : Led first)
    (run : Runs (Filtered.Step Step Act.entry) (Filtered.attached argv first .attached) history s)
    (unreused : Unreused (configure argv) first history) :
    (∀ p ∈ s.behind.printed, ∃ process ∈ family (named (configure argv) first) history,
      p.event.pid = int32 process.toNat) ∧
    (SingleThreaded (configure argv) first → s.my_config.entries.length < MAX_PIDS →
      (calls Act.passage (family (named (configure argv) first) history) history : Multiset Passage) =
          s.behind.printed + (losses (inner history)).counted +
            ((losses (inner history)).wiped + s.behind.underway) ∧
        s.behind.lost_events = UInt64.ofNat (losses (inner history)).counted.card) := by
  obtain ⟨-, sound, complete⟩ := follows led run unreused
  obtain ⟨conserved, counter⟩ := Runs.ledger (inner_run run)
  constructor
  · intro p member
    have made : p ∈ passed (inner history) := by
      rw [conserved]
      exact Multiset.mem_add.mpr (Or.inl (Multiset.mem_add.mpr (Or.inl member)))
    rw [passed_eq, Multiset.mem_coe, List.mem_filterMap] at made
    obtain ⟨act, there, passes⟩ := made
    cases act with
    | pass =>
        cases passes
        exact entry_of_family run sound there rfl
    | _ => cases passes
  · intro single room
    have begins : ∀ act : Act, act.entry = none → act.passage = none := by
      intro act none_
      cases act with
      | pass => cases none_
      | _ => rfl
    rw [calls_eq Act.passage begins run sound (complete single room), ← passed_eq]
    exact ⟨conserved, counter⟩

/-- A `read` of process 8. -/
def readOfChild : Passage := ⟨{ readEvent with pid := 8 }, false⟩

/-- The child of process 7 reads, and there is no room in the ring buffer. -/
theorem events_of_family_child : ∃ (history : List (Filtered.Act Act)) (s : Filtered State),
    Runs (Filtered.Step Step Act.entry) (Filtered.attached [[55]] firstSeven .attached) history s ∧
      s.behind.lost_events = 1 := by
  obtain ⟨⟨tgid, my_config, adding, behind⟩, forked, lives, runs, collect, room, rfl⟩ :=
    forked_child Step Act.entry .attached
  have passing : Step .attached (.pass readOfChild)
      { State.attached with probes := {(readOfChild, .reserving)} } := .pass readOfChild.event
  have refusing : Step { State.attached with probes := {(readOfChild, .reserving)} }
      (.refuse readOfChild) { State.attached with probes := {(readOfChild, .refused)} } :=
    .refuse (Multiset.mem_singleton_self _)
  have counting : Step { State.attached with probes := {(readOfChild, .refused)} }
      (.count readOfChild) { State.attached with probes := 0, lost_events := 1 } :=
    .count (Multiset.mem_singleton_self _)
  have pid : int32 (8 : UInt32).toNat = 8 := int32_eq (by decide) (by decide)
  have entry : Act.entry (.pass readOfChild) = some (int32 (8 : UInt32).toNat) :=
    congrArg some pid.symm
  have called := forked.snoc (.pass lives runs entry collect passing)
  have run := called.snoc (.behind rfl refusing) |>.snoc (.behind rfl counting)
  exact ⟨_, _, run,
    ((events_of_family led_firstSeven run (unreused_child rfl)).2 single_firstSeven room).2⟩

end Tracer

end ProjetoTSO.Systracer
