import Mathlib.Algebra.Group.Nat.Defs
import ProjetoTSO.Lib.FifoRwlock

/-!
# The ticket lock

`ticket_rwlock.c`: a thread takes a ticket and waits until it is served.  A reader
moves `now_serving` on when it enters, a writer when it leaves; a writer waits until
the readers before it have left as well.

A step is what a thread does between taking and releasing `lock->mutex`: a call up to
its return or to `pthread_cond_wait`, or what follows a `pthread_cond_wait`.  A thread
asleep has been notified or not; `Step spurious` lets one that has not been wake up
anyway if `spurious` holds.

The labels of a step say what it means for the lock: which thread took a ticket, was
let in, or left.
-/

namespace ProjetoTSO.Codededup

open Transition FifoRwlock

/-! ## The lock -/

/-- `ticket_rwlock_t`, without the mutex and the condition variables. -/
structure TicketRwlock where
  next_ticket : UInt64
  now_serving : UInt64
  readers_active : UInt32
deriving DecidableEq

def ticket_rwlock_init : TicketRwlock := ⟨0, 0, 0⟩

/-- Where a thread is: outside the lock, in `pthread_cond_wait` on the condition
variable of its mode, or inside. -/
inductive Phase
  | idle
  | asleep (mode : Mode) (my_ticket : UInt64) (notified : Bool)
  | inside (mode : Mode)
deriving DecidableEq

/-- What `pthread_cond_broadcast` on the condition variable of a mode does to a
thread. -/
def Phase.notify (mode : Mode) : Phase → Phase
  | .asleep m my_ticket notified => .asleep m my_ticket (notified || m = mode)
  | phase => phase

/-- The mode a thread waits in, with its ticket. -/
def Phase.ticket : Phase → Option (Mode × UInt64)
  | .asleep mode my_ticket _ => some (mode, my_ticket)
  | _ => none

@[simp] theorem Phase.ticket_notify (mode : Mode) (phase : Phase) :
    (phase.notify mode).ticket = phase.ticket := by
  cases phase <;> rfl

theorem Phase.notify_eq_inside {mode m : Mode} {phase : Phase} :
    phase.notify mode = .inside m ↔ phase = .inside m := by
  cases phase <;> simp [notify]

/-- Who is asleep and not notified after a broadcast was so before, in the other
mode. -/
theorem Phase.notify_eq_asleep {mode m : Mode} {k : UInt64} {phase : Phase} :
    phase.notify mode = .asleep m k false ↔ phase = .asleep m k false ∧ m ≠ mode := by
  cases phase with
  | asleep m' k' notified =>
      simp only [notify, Phase.asleep.injEq, Bool.or_eq_false_iff, decide_eq_false_iff_not]
      constructor
      · rintro ⟨rfl, rfl, rfl, differ⟩
        exact ⟨⟨rfl, rfl, rfl⟩, differ⟩
      · rintro ⟨⟨rfl, rfl, rfl⟩, differ⟩
        exact ⟨rfl, rfl, rfl, differ⟩
  | idle | inside => simp [notify]

/-- A lock and the threads that use it. -/
structure Users (T : Type) where
  lock : TicketRwlock
  phase : T → Phase

namespace Users

section Functions

variable {T : Type}

def start : Users T := ⟨ticket_rwlock_init, fun _ => .idle⟩

/-- `pthread_cond_broadcast` on `cond_readers` or `cond_writers`. -/
def broadcast (mode : Mode) (s : Users T) : Users T :=
  { s with phase := fun t => (s.phase t).notify mode }

/-- `my_ticket = lock->next_ticket++`. -/
def takeTicket (s : Users T) : Users T :=
  { s with lock := { s.lock with next_ticket := s.lock.next_ticket + 1 } }

variable [DecidableEq T]

def setPhase (s : Users T) (t : T) (phase : Phase) : Users T :=
  { s with phase := Function.update s.phase t phase }

@[simp] theorem setPhase_self (s : Users T) (t : T) (phase : Phase) :
    (s.setPhase t phase).phase t = phase := by simp [setPhase]

theorem setPhase_ne (s : Users T) {t u : T} (phase : Phase) (differ : u ≠ t) :
    (s.setPhase t phase).phase u = s.phase u := by simp [setPhase, differ]

@[simp] theorem setPhase_lock (s : Users T) (t : T) (phase : Phase) :
    (s.setPhase t phase).lock = s.lock := rfl

@[simp] theorem setPhase_setPhase (s : Users T) (t : T) (first phase : Phase) :
    (s.setPhase t first).setPhase t phase = s.setPhase t phase := by simp [setPhase]

theorem broadcast_setPhase (s : Users T) (t : T) (phase : Phase) (mode : Mode) :
    (s.setPhase t phase).broadcast mode = (s.broadcast mode).setPhase t (phase.notify mode) := by
  simp only [Users.broadcast, setPhase, Users.mk.injEq, true_and]
  funext u
  by_cases own : u = t
  · simp [own]
  · simp [own]

/-- The loop of `ticket_rwlock_read_lock` and what follows it, up to the next
`pthread_cond_wait`. -/
def readLoop (t : T) (my_ticket : UInt64) (s : Users T) : List (Mark T) × Users T :=
  if my_ticket ≠ s.lock.now_serving then ([], s.setPhase t (.asleep .read my_ticket false))
  else
    let s := { s with
      lock := { s.lock with
        readers_active := s.lock.readers_active + 1
        now_serving := s.lock.now_serving + 1 } }
    ([.grant t .read], (s.broadcast .read).setPhase t (.inside .read))

def ticket_rwlock_read_lock (t : T) (s : Users T) : List (Mark T) × Users T :=
  let (marks, next) := readLoop t s.lock.next_ticket s.takeTicket
  (.arrive t .read :: marks, next)

def ticket_rwlock_read_unlock (t : T) (s : Users T) : List (Mark T) × Users T :=
  let s := { s with lock := { s.lock with readers_active := s.lock.readers_active - 1 } }
  let s := if s.lock.readers_active = 0 then s.broadcast .write else s
  ([.release t .read], s.setPhase t .idle)

/-- The loop of `ticket_rwlock_write_lock` and what follows it, up to the next
`pthread_cond_wait`. -/
def writeLoop (t : T) (my_ticket : UInt64) (s : Users T) : List (Mark T) × Users T :=
  if my_ticket ≠ s.lock.now_serving ∨ 0 < s.lock.readers_active then
    ([], s.setPhase t (.asleep .write my_ticket false))
  else ([.grant t .write], s.setPhase t (.inside .write))

def ticket_rwlock_write_lock (t : T) (s : Users T) : List (Mark T) × Users T :=
  let (marks, next) := writeLoop t s.lock.next_ticket s.takeTicket
  (.arrive t .write :: marks, next)

def ticket_rwlock_write_unlock (t : T) (s : Users T) : List (Mark T) × Users T :=
  let s := { s with lock := { s.lock with now_serving := s.lock.now_serving + 1 } }
  let s := (s.broadcast .read).broadcast .write
  ([.release t .write], s.setPhase t .idle)

/-- The loop of either mode. -/
def waitLoop (mode : Mode) (t : T) (my_ticket : UInt64) (s : Users T) : List (Mark T) × Users T :=
  match mode with
  | .read => readLoop t my_ticket s
  | .write => writeLoop t my_ticket s

section Loops

variable {t : T} {k : UInt64} {s : Users T}

theorem readLoop_blocked (blocked : k ≠ s.lock.now_serving) :
    readLoop t k s = ([], s.setPhase t (.asleep .read k false)) := if_pos blocked

theorem readLoop_served (serving : k = s.lock.now_serving) :
    readLoop t k s = ([.grant t .read],
      (broadcast .read { s with
        lock := { s.lock with
          readers_active := s.lock.readers_active + 1
          now_serving := s.lock.now_serving + 1 } }).setPhase t (.inside .read)) :=
  if_neg (not_not.mpr serving)

theorem writeLoop_blocked (blocked : k ≠ s.lock.now_serving ∨ 0 < s.lock.readers_active) :
    writeLoop t k s = ([], s.setPhase t (.asleep .write k false)) := if_pos blocked

theorem writeLoop_served (serving : ¬ (k ≠ s.lock.now_serving ∨ 0 < s.lock.readers_active)) :
    writeLoop t k s = ([.grant t .write], s.setPhase t (.inside .write)) := if_neg serving

end Loops

/-- The loop does not read where its own thread was. -/
theorem waitLoop_setPhase (mode : Mode) (t : T) (k : UInt64) (s : Users T) (phase : Phase) :
    waitLoop mode t k (s.setPhase t phase) = waitLoop mode t k s := by
  cases mode with
  | read =>
      simp only [waitLoop, readLoop, setPhase_lock, setPhase_setPhase]
      by_cases blocked : k ≠ s.lock.now_serving
      · rw [if_pos blocked, if_pos blocked]
      · rw [if_neg blocked, if_neg blocked]
        exact congrArg (Prod.mk _) (by
          show (Users.broadcast _ (setPhase { s with lock := _ } t phase)).setPhase t _ = _
          rw [broadcast_setPhase, setPhase_setPhase])
  | write => simp only [waitLoop, writeLoop, setPhase_lock, setPhase_setPhase]

/-- One section under the mutex, by a thread that uses the lock in matched pairs. -/
inductive Step (spurious : Prop) (s : Users T) : List (Mark T) → Users T → Prop
  | read_lock {t : T} (idle : s.phase t = .idle) :
      Step spurious s (ticket_rwlock_read_lock t s).1 (ticket_rwlock_read_lock t s).2
  | read_unlock {t : T} (inside : s.phase t = .inside .read) :
      Step spurious s (ticket_rwlock_read_unlock t s).1 (ticket_rwlock_read_unlock t s).2
  | write_lock {t : T} (idle : s.phase t = .idle) :
      Step spurious s (ticket_rwlock_write_lock t s).1 (ticket_rwlock_write_lock t s).2
  | write_unlock {t : T} (inside : s.phase t = .inside .write) :
      Step spurious s (ticket_rwlock_write_unlock t s).1 (ticket_rwlock_write_unlock t s).2
  /-- A thread that was notified returns from `pthread_cond_wait`. -/
  | wake {t : T} {mode : Mode} {my_ticket : UInt64}
      (notified : s.phase t = .asleep mode my_ticket true) :
      Step spurious s (waitLoop mode t my_ticket s).1 (waitLoop mode t my_ticket s).2
  /-- A thread that was not notified does, too. -/
  | spurious_wake {t : T} {mode : Mode} {my_ticket : UInt64} (allowed : spurious)
      (asleep : s.phase t = .asleep mode my_ticket false) :
      Step spurious s (waitLoop mode t my_ticket s).1 (waitLoop mode t my_ticket s).2

end Functions

/-! ## Two threads -/

/-- A reader is inside and a writer waits for it. -/
def readerThenWriter : Users (Fin 2) :=
  (ticket_rwlock_write_lock ⟨1, Nat.one_lt_two⟩ (ticket_rwlock_read_lock ⟨0, Nat.two_pos⟩ start).2).2

theorem runs_readerThenWriter (spurious : Prop) :
    Runs (Step spurious) start
      [[.arrive 0 .read, .grant 0 .read], [.arrive 1 .write]] readerThenWriter :=
  .snoc (.snoc .nil (.read_lock (t := 0) rfl)) (.write_lock (t := 1) rfl)

end Users

end ProjetoTSO.Codededup
