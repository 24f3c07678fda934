import Mathlib.Data.Fintype.Card
import Mathlib.Data.List.Nodup
import ProjetoTSO.Lib.Transition

/-!
# First-in first-out readers-writer locks

The behaviour expected of a fair readers-writer lock.  Threads queue up in the order
they arrive; only the one at the head is let in, a reader when no writer is inside, a
writer when nobody is.

* `Rwlock.Step` — the three moves: a thread arrives, is granted the lock, releases it.
* `Sound` — a writer inside is alone, and no thread has two places
  (`sound_of_runs`).
* `arrivals_eq` — along every run the grants are the arrivals in the same order; who
  is left is waiting.
-/

universe u

namespace FifoRwlock

open Transition

inductive Mode
  | read
  | write
deriving DecidableEq

/-- What happens to a lock. -/
inductive Mark (T : Type u)
  | arrive (t : T) (mode : Mode)
  | grant (t : T) (mode : Mode)
  | release (t : T) (mode : Mode)

/-- The threads inside, and those waiting, the longest waiting first. -/
structure Rwlock (T : Type u) where
  inside : List (T × Mode)
  waiting : List (T × Mode)

namespace Rwlock

variable {T : Type u}

def free : Rwlock T := ⟨[], []⟩

/-- Those inside do not keep a thread out. -/
def Admits (lock : Rwlock T) : Mode → Prop
  | .read => ∀ entry ∈ lock.inside, entry.2 = .read
  | .write => lock.inside = []

def threads (lock : Rwlock T) : List T := (lock.inside ++ lock.waiting).map Prod.fst

inductive Step [DecidableEq T] (lock : Rwlock T) : Mark T → Rwlock T → Prop
  | arrive {t : T} (mode : Mode) (fresh : t ∉ lock.threads) :
      Step lock (.arrive t mode) ⟨lock.inside, lock.waiting ++ [(t, mode)]⟩
  | grant {t : T} {mode : Mode} {rest : List (T × Mode)} (head : lock.waiting = (t, mode) :: rest)
      (admits : lock.Admits mode) : Step lock (.grant t mode) ⟨(t, mode) :: lock.inside, rest⟩
  | release {t : T} {mode : Mode} (holds : (t, mode) ∈ lock.inside) :
      Step lock (.release t mode) ⟨lock.inside.erase (t, mode), lock.waiting⟩

/-- No thread has two places, and a writer inside is alone. -/
structure Sound (lock : Rwlock T) : Prop where
  distinct : lock.threads.Nodup
  exclusive : ∀ t, (t, Mode.write) ∈ lock.inside → lock.inside = [(t, .write)]

theorem Sound.free : Sound (free : Rwlock T) where
  distinct := List.nodup_nil
  exclusive _ inside := absurd inside List.not_mem_nil

theorem Step.threads_release [DecidableEq T] (lock : Rwlock T) (entry : T × Mode) :
    (threads ⟨lock.inside.erase entry, lock.waiting⟩).Sublist lock.threads :=
  ((List.erase_sublist).append (List.Sublist.refl _)).map _

/-- **One step keeps a lock sound.** -/
theorem Step.sound [DecidableEq T] {lock next : Rwlock T} {mark : Mark T}
    (step : Step lock mark next) (sound : Sound lock) : Sound next := by
  cases step with
  | @arrive t mode fresh =>
      refine ⟨?_, sound.exclusive⟩
      have moved : threads ⟨lock.inside, lock.waiting ++ [(t, mode)]⟩ = lock.threads ++ [t] := by
        simp [threads]
      rw [moved]
      exact List.nodup_append.mpr ⟨sound.distinct, List.nodup_singleton t, fun a old b new same =>
        fresh (List.mem_singleton.mp new ▸ same ▸ old)⟩
  | @grant t mode rest head admits =>
      constructor
      · -- the head of the queue changes sides
        refine (List.Perm.nodup_iff ?_).mp sound.distinct
        refine List.Perm.map _ ?_
        rw [head]
        exact List.perm_middle
      · intro u writer
        cases mode with
        | write =>
            rw [show lock.inside = [] from admits] at writer ⊢
            rw [List.mem_singleton.mp writer]
        | read =>
            rcases List.mem_cons.mp writer with first | earlier
            · cases first
            · exact absurd (admits _ earlier) (by simp)
  | @release t mode holds =>
      refine ⟨sound.distinct.sublist (Step.threads_release lock _), fun u writer => ?_⟩
      have alone := sound.exclusive u (List.mem_of_mem_erase writer)
      rw [alone] at holds writer
      rw [List.mem_singleton.mp holds, List.erase_cons_head] at writer
      exact absurd writer List.not_mem_nil

theorem sound_of_runs [DecidableEq T] {trace : List (Mark T)} {lock : Rwlock T}
    (run : Runs Step free trace lock) : Sound lock :=
  run.state_invariant Sound Sound.free fun before move => move.sound before

/-- The number of threads inside in a mode. -/
def count (lock : Rwlock T) (mode : Mode) : ℕ := lock.inside.countP fun entry => entry.2 = mode

theorem count_le (lock : Rwlock T) (mode : Mode) : lock.count mode ≤ lock.inside.length :=
  List.countP_le_length

theorem count_eq_zero {lock : Rwlock T} {mode : Mode} :
    lock.count mode = 0 ↔ ∀ t, (t, mode) ∉ lock.inside := by
  rw [count, List.countP_eq_zero]
  constructor
  · exact fun none_ t member => none_ _ member (by simp)
  · rintro none_ ⟨t, other⟩ member same
    obtain rfl : other = mode := by simpa using same
    exact none_ t member

theorem count_enter (lock : Rwlock T) (t : T) (mode : Mode) (rest : List (T × Mode)) :
    count ⟨(t, mode) :: lock.inside, rest⟩ mode = lock.count mode + 1 := by
  rw [count, count, List.countP_cons_of_pos (by simp)]

theorem count_enter_ne (lock : Rwlock T) (t : T) {mode m : Mode} (differ : mode ≠ m)
    (rest : List (T × Mode)) : count ⟨(t, mode) :: lock.inside, rest⟩ m = lock.count m := by
  rw [count, count, List.countP_cons_of_neg (by simpa using differ)]

theorem count_release [DecidableEq T] {lock : Rwlock T} {t : T} {mode : Mode}
    (holds : (t, mode) ∈ lock.inside) :
    count ⟨lock.inside.erase (t, mode), lock.waiting⟩ mode + 1 = lock.count mode := by
  have perm := List.perm_cons_erase holds
  rw [count, count, perm.countP_eq, List.countP_cons_of_pos (by simp)]

theorem count_release_ne [DecidableEq T] {lock : Rwlock T} {t : T} {mode m : Mode}
    (holds : (t, mode) ∈ lock.inside) (differ : mode ≠ m) :
    count ⟨lock.inside.erase (t, mode), lock.waiting⟩ m = lock.count m := by
  have perm := List.perm_cons_erase holds
  rw [count, count, perm.countP_eq, List.countP_cons_of_neg (by simpa using differ)]

/-- With nobody inside, anyone is admitted. -/
theorem inside_eq_nil {lock : Rwlock T} (readers : lock.count .read = 0)
    (writers : lock.count .write = 0) : lock.inside = [] := by
  rw [List.eq_nil_iff_forall_not_mem]
  rintro ⟨t, mode⟩ member
  cases mode with
  | read => exact count_eq_zero.mp readers t member
  | write => exact count_eq_zero.mp writers t member

theorem Sound.length_le [Fintype T] {lock : Rwlock T} (sound : Sound lock) :
    lock.inside.length + lock.waiting.length ≤ Fintype.card T := by
  have places := sound.distinct.length_le_card
  rwa [threads, List.length_map, List.length_append] at places

/-- Two threads inside are two readers. -/
theorem Sound.together {lock : Rwlock T} (sound : Sound lock) {t u : T} {mode : Mode}
    (writer : (t, Mode.write) ∈ lock.inside) (other : (u, mode) ∈ lock.inside) :
    u = t ∧ mode = .write := by
  rw [sound.exclusive t writer, List.mem_singleton] at other
  cases other
  exact ⟨rfl, rfl⟩

end Rwlock

/-! ## The order of grants -/

section Order

variable {T : Type u}

/-- The threads that arrived, in the order they did. -/
def arrivals (trace : List (Mark T)) : List (T × Mode) :=
  trace.filterMap fun
    | .arrive t mode => some (t, mode)
    | _ => none

/-- The threads that were granted the lock, in the order they were. -/
def grants (trace : List (Mark T)) : List (T × Mode) :=
  trace.filterMap fun
    | .grant t mode => some (t, mode)
    | _ => none

/-- **First in, first out.**  The grants are the arrivals, in the same order, but for
those still waiting. -/
theorem arrivals_eq [DecidableEq T] {trace : List (Mark T)} {lock : Rwlock T}
    (run : Runs Rwlock.Step .free trace lock) :
    arrivals trace = grants trace ++ lock.waiting := by
  induction run with
  | nil => rfl
  | snoc _ move ih =>
      rw [arrivals, grants, List.filterMap_append, List.filterMap_append]
      rw [arrivals, grants] at ih
      cases move with
      | arrive mode fresh => simp [ih]
      | grant head admits => simp [ih, head]
      | release holds => simp [ih]

end Order

end FifoRwlock
