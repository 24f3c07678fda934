import ProjetoTSO.Codededup.Deadlock
import ProjetoTSO.Codededup.InBounds
import ProjetoTSO.Codededup.TicketWakeup
import ProjetoTSO.Lib.Schedules

/-!
# Threads on ticket locks

The threads of `LockedPrograms` take and release first-in first-out locks in one step.  Here
they run the code of the ticket locks: what a thread does to a lock is a section of
`ticket_rwlock_read_lock` and its siblings under `lock->mutex`, and a thread that is not served
sleeps in `pthread_cond_wait` until a broadcast, or nothing at all, wakes it up.

* `Simulates.step` — each section is matched by steps of the threads on abstract locks.
* `calls_on_ticket_locks` — so what is proved of the runs of `Threads` is proved of the
  service on its own locks; and its calls use every lock in matched pairs, which is what the
  ticket lock asks of its callers.

## Design notes

A lock that is not a ticket lock is a `pthread_mutex_t`, of which only the owner is kept.
Unlocking asks nothing of the thread: the code of the locks does not check who calls it.
-/

namespace ProjetoTSO.Codededup

open CInt LockedPrograms FifoRwlock Transition

/-! ## The threads -/

/-- The call of `ticket_rwlock.c` that takes a lock. -/
def Users.lockCall {T : Type} [DecidableEq T] : Mode → T → Users T → List (Mark T) × Users T
  | .read => Users.ticket_rwlock_read_lock
  | .write => Users.ticket_rwlock_write_lock

/-- The call that releases it. -/
def Users.unlockCall {T : Type} [DecidableEq T] : Mode → T → Users T → List (Mark T) × Users T
  | .read => Users.ticket_rwlock_read_unlock
  | .write => Users.ticket_rwlock_write_unlock

/-- Threads and the locks as the program has them. -/
structure TicketMachine (T σ Λ L R : Type) where
  shared : σ
  /-- The ticket locks. -/
  users : L → Users T
  /-- Who has locked a mutex. -/
  owner : L → Option T
  frame : T → Λ
  prog : T → LockedPrograms.Prog σ Λ L R

namespace TicketMachine

variable {T σ Λ L R : Type}

/-- Every lock is as `ticket_rwlock_init` and `pthread_mutex_init` leave it. -/
def start (shared : σ) (frame : Λ) (prog : T → LockedPrograms.Prog σ Λ L R) :
    TicketMachine T σ Λ L R where
  shared := shared
  users := fun _ => .start
  owner := fun _ => none
  frame := fun _ => frame
  prog := prog

variable [DecidableEq T] [DecidableEq L]

/-- A section of a call that takes a lock.  The thread goes on if it is inside. -/
def enter (m : TicketMachine T σ Λ L R) (t : T) (lock : L) (mode : Mode)
    (next : LockedPrograms.Prog σ Λ L R) (users : Users T) : TicketMachine T σ Λ L R :=
  { m with
    users := Function.update m.users lock users
    prog := if users.phase t = .inside mode then Function.update m.prog t next else m.prog }

theorem enter_prog (m : TicketMachine T σ Λ L R) (t : T) (lock : L) (mode : Mode)
    (next : LockedPrograms.Prog σ Λ L R) (users : Users T) : (m.enter t lock mode next users).prog =
      if users.phase t = .inside mode then Function.update m.prog t next else m.prog := rfl

/-- One section of one thread. -/
inductive Step (fifo : L → Prop) (spurious : Prop) (m : TicketMachine T σ Λ L R) :
    List (LockedPrograms.Event T L) → TicketMachine T σ Λ L R → Prop
  /-- The call that takes a ticket lock, up to its return or to `pthread_cond_wait`. -/
  | lock {t : T} {lock : L} {mode : Mode} {next : LockedPrograms.Prog σ Λ L R}
      (here : m.prog t = .acquire lock mode next) (ticket : fifo lock)
      (idle : (m.users lock).phase t = .idle) :
      Step fifo spurious m ((Users.lockCall mode t (m.users lock)).1.map (.lock lock))
        (m.enter t lock mode next (Users.lockCall mode t (m.users lock)).2)
  /-- What follows `pthread_cond_wait`. -/
  | wake {t : T} {lock : L} {mode : Mode} {next : LockedPrograms.Prog σ Λ L R} {my_ticket : UInt64}
      {notified : Bool} (here : m.prog t = .acquire lock mode next) (ticket : fifo lock)
      (asleep : (m.users lock).phase t = .asleep mode my_ticket notified)
      (woken : notified = true ∨ spurious) :
      Step fifo spurious m
        ((Users.waitLoop mode t my_ticket (m.users lock)).1.map (.lock lock))
        (m.enter t lock mode next (Users.waitLoop mode t my_ticket (m.users lock)).2)
  /-- `pthread_mutex_lock`. -/
  | seize {t : T} {lock : L} {mode : Mode} {next : LockedPrograms.Prog σ Λ L R}
      (here : m.prog t = .acquire lock mode next) (mutex : ¬ fifo lock)
      (free : m.owner lock = none) :
      Step fifo spurious m [.lock lock (.grant t mode)]
        { m with
          owner := Function.update m.owner lock (some t)
          prog := Function.update m.prog t next }
  /-- The call that releases a ticket lock. -/
  | unlock {t : T} {lock : L} {mode : Mode} {frame : Λ} {next : LockedPrograms.Prog σ Λ L R}
      (here : m.prog t = .release lock mode frame next) (ticket : fifo lock) :
      Step fifo spurious m ((Users.unlockCall mode t (m.users lock)).1.map (.lock lock))
        { m with
          users := Function.update m.users lock (Users.unlockCall mode t (m.users lock)).2
          frame := Function.update m.frame t frame
          prog := Function.update m.prog t next }
  /-- `pthread_mutex_unlock`. -/
  | free {t : T} {lock : L} {mode : Mode} {frame : Λ} {next : LockedPrograms.Prog σ Λ L R}
      (here : m.prog t = .release lock mode frame next) (mutex : ¬ fifo lock) :
      Step fifo spurious m [.lock lock (.release t mode)]
        { m with
          owner := Function.update m.owner lock none
          frame := Function.update m.frame t frame
          prog := Function.update m.prog t next }
  | act {t : T} {α : Type} {run : σ → α × σ} {frame : α → Λ}
      {next : α → LockedPrograms.Prog σ Λ L R}
      (here : m.prog t = .act run frame next) :
      Step fifo spurious m [.act t]
        { m with
          shared := (run m.shared).2
          frame := Function.update m.frame t (frame (run m.shared).1)
          prog := Function.update m.prog t (next (run m.shared).1) }
  | ask {t : T} {ε : Type} [Inhabited ε] {next : ε → LockedPrograms.Prog σ Λ L R}
      (here : m.prog t = .ask next) (answer : ε) :
      Step fifo spurious m [.ask t] { m with prog := Function.update m.prog t (next answer) }

/-- A step in which a thread acts as it may. -/
def Allows (fifo : L → Prop) (spurious : Prop) (allows : (T → Λ) → σ → T → Λ → σ → Prop)
    (m : TicketMachine T σ Λ L R) (events : List (LockedPrograms.Event T L)) (after : TicketMachine T σ Λ L R) :
    Prop :=
  m.Step fifo spurious events after ∧
    ∀ t, events = [.act t] → allows m.frame m.shared t (after.frame t) after.shared

end TicketMachine

/-! ## A turn of the loop -/

namespace Users

variable {T : Type} [DecidableEq T]

/-- A turn of the loop puts the thread to sleep, or lets it in. -/
theorem waitLoop_cases (mode : Mode) (t : T) (k : UInt64) (s : Users T) :
    waitLoop mode t k s = ([], s.setPhase t (.asleep mode k false)) ∨
      ∃ after, waitLoop mode t k s = ([.grant t mode], after) ∧ after.phase t = .inside mode := by
  cases mode with
  | read =>
      by_cases blocked : k ≠ s.lock.now_serving
      · exact .inl (readLoop_blocked blocked)
      · exact .inr ⟨_, readLoop_served (not_not.mp blocked), setPhase_self _ _ _⟩
  | write =>
      by_cases blocked : k ≠ s.lock.now_serving ∨ 0 < s.lock.readers_active
      · exact .inl (writeLoop_blocked blocked)
      · exact .inr ⟨_, writeLoop_served blocked, setPhase_self _ _ _⟩

/-- A call that takes a lock takes a ticket and enters the loop. -/
theorem lockCall_eq (mode : Mode) (t : T) (s : Users T) :
    lockCall mode t s = (.arrive t mode :: (waitLoop mode t s.lock.next_ticket s.takeTicket).1,
      (waitLoop mode t s.lock.next_ticket s.takeTicket).2) := by
  cases mode <;> rfl

theorem unlockCall_marks (mode : Mode) (t : T) (s : Users T) :
    (unlockCall mode t s).1 = [.release t mode] := by
  cases mode <;> rfl

variable (spurious : Prop) {mode : Mode} {t : T} {s : Users T}

theorem Step.of_lockCall (mode : Mode) (idle : s.phase t = .idle) :
    Step spurious s (lockCall mode t s).1 (lockCall mode t s).2 := by
  cases mode
  · exact .read_lock idle
  · exact .write_lock idle

theorem Step.of_waitLoop {k : UInt64} {notified : Bool} (asleep : s.phase t = .asleep mode k notified) :
    Step True s (waitLoop mode t k s).1 (waitLoop mode t k s).2 := by
  cases notified
  · exact .spurious_wake trivial asleep
  · exact .wake asleep

theorem Step.of_unlockCall (inside : s.phase t = .inside mode) :
    Step spurious s (unlockCall mode t s).1 (unlockCall mode t s).2 := by
  cases mode
  · exact .read_unlock inside
  · exact .write_unlock inside

end Users

/-! ## The simulation -/

namespace TicketMachine

open Machine

section Simulation

variable {T σ Λ L R : Type} [DecidableEq T] [DecidableEq L] {fifo : L → Prop}
variable {r after : TicketMachine T σ Λ L R} {m : Machine T σ Λ L R}

/-- The threads are where those on abstract locks are, and the locks stand for these. -/
structure Simulates (fifo : L → Prop) (r : TicketMachine T σ Λ L R) (m : Machine T σ Λ L R) :
    Prop where
  shared : m.shared = r.shared
  frame : m.frame = r.frame
  prog : m.prog = r.prog
  tickets : ∀ lock, fifo lock → ∃ served, Users.Represents (r.users lock) served (m.locks lock)
  attentive : ∀ lock, fifo lock → Users.Attentive (r.users lock)
  mutex : ∀ lock, ¬ fifo lock → (m.locks lock).inside.map Prod.fst = (r.owner lock).toList

namespace Simulates

omit [DecidableEq T] [DecidableEq L] in
theorem start (shared : σ) (frame : Λ) (prog : T → LockedPrograms.Prog σ Λ L R) :
    Simulates fifo (TicketMachine.start shared frame prog) (Machine.start shared frame prog) where
  shared := rfl
  frame := rfl
  prog := rfl
  tickets _ _ := ⟨0, .start⟩
  attentive _ _ t mode k asleep := by cases asleep
  mutex _ _ := rfl

omit [DecidableEq T] in
/-- A section moved one ticket lock. -/
theorem tickets_update (sim : Simulates fifo r m) {lock : L} {users : Users T} {queue : Rwlock T}
    (represents : ∃ served, users.Represents served queue) (other : L) (ticket : fifo other) :
    ∃ served, (Function.update r.users lock users other).Represents served
      (Function.update m.locks lock queue other) := by
  rcases eq_or_ne other lock with rfl | differ
  · rw [Function.update_self, Function.update_self]
    exact represents
  · rw [Function.update_of_ne differ, Function.update_of_ne differ]
    exact sim.tickets other ticket

omit [DecidableEq T] in
theorem attentive_update (sim : Simulates fifo r m) {lock : L} {users : Users T}
    (attentive : users.Attentive) (other : L) (ticket : fifo other) :
    (Function.update r.users lock users other).Attentive := by
  rcases eq_or_ne other lock with rfl | differ
  · rwa [Function.update_self]
  · rw [Function.update_of_ne differ]
    exact sim.attentive other ticket

omit [DecidableEq T] in
theorem mutex_update (sim : Simulates fifo r m) {lock : L} {queue : Rwlock T} (ticket : fifo lock)
    (other : L) (mutex : ¬ fifo other) :
    (Function.update m.locks lock queue other).inside.map Prod.fst = (r.owner other).toList := by
  have differ : other ≠ lock := by
    rintro rfl
    exact mutex ticket
  rw [Function.update_of_ne differ]
  exact sim.mutex other mutex

section Sections

variable {spurious : Prop} {allows : (T → Λ) → σ → T → Λ → σ → Prop}
variable {t : T} {lock : L} {mode : Mode} {next : LockedPrograms.Prog σ Λ L R} {frame : Λ}

/-- After a turn of the loop the thread sleeps and stays where it is, or is inside and goes on. -/
theorem turn (allows : (T → Λ) → σ → T → Λ → σ → Prop) (sim : Simulates fifo r m) (here : r.prog t = .acquire lock mode next)
    (ticket : fifo lock) {users : Users T} {before queue : Rwlock T} {marks : List (Mark T)}
    (moved : Runs Rwlock.Step before marks queue)
    (represents : ∃ served, users.Represents served queue) (attentive : users.Attentive)
    (ends : marks = [] ∧ users.phase t ≠ .inside mode ∨
      marks = [.grant t mode] ∧ users.phase t = .inside mode) :
    ∃ m', Runs (Machine.Allows fifo allows) (m.setLock lock before)
        (marks.map (LockedPrograms.Event.lock lock)) m' ∧
      Simulates fifo (r.enter t lock mode next users) m' := by
  have locks : Simulates fifo { r with users := Function.update r.users lock users }
      (m.setLock lock queue) :=
    ⟨sim.shared, sim.frame, sim.prog, sim.tickets_update represents,
      sim.attentive_update attentive, sim.mutex_update ticket⟩
  rcases ends with ⟨rfl, out⟩ | ⟨rfl, entered⟩
  · -- asleep
    cases moved.of_nil
    refine ⟨_, .nil, ?_⟩
    rw [enter, if_neg out]
    exact locks
  · -- inside
    have moved : Runs Rwlock.Step before ([] ++ [Mark.grant t mode]) queue := moved
    obtain ⟨mid, none_, enters⟩ := moved.of_snoc
    cases none_.of_nil
    have there : (m.setLock lock before).prog t = .acquire lock mode next :=
      (congrFun sim.prog t).trans here
    have queued : (m.setLock lock before).locks lock = before := Function.update_self ..
    refine ⟨_, Runs.nil.snoc ⟨.grant there ticket (queued ▸ enters), fun _ same => by cases same⟩, ?_⟩
    have settled : (m.setLock lock before).setLock lock queue = m.setLock lock queue := by
      show { m with locks := _ } = ({ m with locks := _ } : Machine T σ Λ L R)
      rw [setLock_locks, Function.update_idem]
    have prog : ((m.setLock lock queue).setProg t next).prog = Function.update r.prog t next := by
      rw [← sim.prog]
      rfl
    rw [settled, enter, if_pos entered]
    exact ⟨locks.shared, locks.frame, prog, locks.tickets, locks.attentive, locks.mutex⟩

/-- A call that takes a lock. -/
theorem lockCall [Fintype T] (few : Fintype.card T < 2 ^ 32) (sim : Simulates fifo r m)
    (here : r.prog t = .acquire lock mode next) (ticket : fifo lock)
    (idle : (r.users lock).phase t = .idle) :
    ∃ m', Runs (Machine.Allows fifo allows) m
        ((Users.lockCall mode t (r.users lock)).1.map (LockedPrograms.Event.lock lock)) m' ∧
      Simulates fifo (r.enter t lock mode next (Users.lockCall mode t (r.users lock)).2) m' := by
  obtain ⟨served, rep⟩ := sim.tickets lock ticket
  have attentive := (Users.Step.of_lockCall False mode idle).attentive few rep
    (sim.attentive lock ticket)
  obtain ⟨arrived, queued⟩ := rep.arrive idle mode
  have held : (((r.users lock).takeTicket.setPhase t
      (.asleep mode (r.users lock).lock.next_ticket false)).phase t).ticket =
        some (mode, (r.users lock).lock.next_ticket) := by
    rw [Users.setPhase_self]
    rfl
  have comes := queued.waitLoop_matched few held
  rw [Users.waitLoop_setPhase] at comes
  rw [Users.lockCall_eq] at attentive ⊢
  obtain ⟨queue, moved, represents⟩ := comes
  have there : m.prog t = .acquire lock mode next := (congrFun sim.prog t).trans here
  obtain ⟨m', goes, after⟩ := sim.turn allows here ticket moved represents attentive <| by
    rcases Users.waitLoop_cases mode t (r.users lock).lock.next_ticket (r.users lock).takeTicket with
      asleep | ⟨users, inside, entered⟩
    · rw [asleep, Users.setPhase_self]
      exact .inl ⟨rfl, by simp⟩
    · rw [inside]
      exact .inr ⟨rfl, entered⟩
  exact ⟨m', (Runs.nil.snoc ⟨.arrive there ticket arrived, fun _ same => by cases same⟩).trans goes,
    after⟩

/-- What follows `pthread_cond_wait`. -/
theorem woken [Fintype T] (few : Fintype.card T < 2 ^ 32) (sim : Simulates fifo r m)
    (here : r.prog t = .acquire lock mode next) (ticket : fifo lock) {k : UInt64} {notified : Bool}
    (asleep : (r.users lock).phase t = .asleep mode k notified) :
    ∃ m', Runs (Machine.Allows fifo allows) m
        ((Users.waitLoop mode t k (r.users lock)).1.map (LockedPrograms.Event.lock lock)) m' ∧
      Simulates fifo (r.enter t lock mode next (Users.waitLoop mode t k (r.users lock)).2) m' := by
  obtain ⟨served, rep⟩ := sim.tickets lock ticket
  have attentive := (Users.Step.of_waitLoop asleep).attentive few rep (sim.attentive lock ticket)
  have held : ((r.users lock).phase t).ticket = some (mode, k) := by
    rw [asleep]
    rfl
  obtain ⟨queue, moved, represents⟩ := rep.waitLoop_matched few held
  have same : m.setLock lock (m.locks lock) = m := by
    show { m with locks := _ } = m
    rw [Function.update_eq_self]
  have turned := sim.turn allows here ticket moved represents attentive <| by
    rcases Users.waitLoop_cases mode t k (r.users lock) with back | ⟨users, inside, entered⟩
    · rw [back, Users.setPhase_self]
      exact .inl ⟨rfl, by simp⟩
    · rw [inside]
      exact .inr ⟨rfl, entered⟩
  rwa [same] at turned

/-- A call that releases a lock. -/
theorem unlockCall [Fintype T] (few : Fintype.card T < 2 ^ 32) (sim : Simulates fifo r m)
    (here : r.prog t = .release lock mode frame next) (ticket : fifo lock)
    (holds : (t, mode) ∈ (m.locks lock).inside) :
    ∃ m', Runs (Machine.Allows fifo allows) m
        ((Users.unlockCall mode t (r.users lock)).1.map (LockedPrograms.Event.lock lock)) m' ∧
      Simulates fifo
        { r with
          users := Function.update r.users lock (Users.unlockCall mode t (r.users lock)).2
          frame := Function.update r.frame t frame
          prog := Function.update r.prog t next } m' := by
  obtain ⟨served, rep⟩ := sim.tickets lock ticket
  have leaves := Users.Step.of_unlockCall False (rep.inside.mpr holds)
  have attentive := leaves.attentive few rep (sim.attentive lock ticket)
  obtain ⟨queue, moved, represents⟩ := rep.step few leaves
  rw [Users.unlockCall_marks] at moved ⊢
  have moved : Runs Rwlock.Step (m.locks lock) ([] ++ [Mark.release t mode]) queue := moved
  obtain ⟨mid, none_, left⟩ := moved.of_snoc
  cases none_.of_nil
  have there : m.prog t = .release lock mode frame next := (congrFun sim.prog t).trans here
  refine ⟨_, Runs.nil.snoc ⟨.release there left, fun _ same => by cases same⟩, sim.shared, ?_, ?_,
    sim.tickets_update represents, sim.attentive_update attentive, sim.mutex_update ticket⟩
  · show Function.update m.frame t frame = Function.update r.frame t frame
    rw [sim.frame]
  · show Function.update m.prog t next = Function.update r.prog t next
    rw [sim.prog]

omit [DecidableEq T] in
theorem tickets_mutex (sim : Simulates fifo r m) (mutex : ¬ fifo lock) {queue : Rwlock T}
    (other : L) (ticket : fifo other) : ∃ served, (r.users other).Represents served
      (Function.update m.locks lock queue other) := by
  have differ : other ≠ lock := by
    rintro rfl
    exact mutex ticket
  rw [Function.update_of_ne differ]
  exact sim.tickets other ticket

omit [DecidableEq T] in
theorem mutex_mutex (sim : Simulates fifo r m) {queue : Rwlock T} {owner : Option T}
    (own : queue.inside.map Prod.fst = owner.toList) (other : L) (mutex : ¬ fifo other) :
    (Function.update m.locks lock queue other).inside.map Prod.fst =
      (Function.update r.owner lock owner other).toList := by
  rcases eq_or_ne other lock with rfl | differ
  · rwa [Function.update_self, Function.update_self]
  · rw [Function.update_of_ne differ, Function.update_of_ne differ]
    exact sim.mutex other mutex

omit [DecidableEq T] [DecidableEq L] in
/-- The owner of a mutex is the thread inside. -/
theorem owner_iff (sim : Simulates fifo r m) (mutex : ¬ fifo lock) :
    r.owner lock = none ↔ (m.locks lock).inside = [] := by
  have same := sim.mutex lock mutex
  rw [← List.map_eq_nil_iff, same]
  cases r.owner lock <;> simp

/-- **Each section is matched** by steps of the threads on abstract locks, as long as these
release what they hold. -/
theorem step [Fintype T] (few : Fintype.card T < 2 ^ 32) (sim : Simulates fifo r m)
    (matched : ∀ t lock mode frame next, m.prog t = .release lock mode frame next →
      (t, mode) ∈ (m.locks lock).inside)
    {events : List (LockedPrograms.Event T L)} (step : r.Allows fifo spurious allows events after) :
    ∃ m', Runs (Machine.Allows fifo allows) m events m' ∧ Simulates fifo after m' := by
  obtain ⟨step, allowed⟩ := step
  have there : ∀ {t : T} {prog : LockedPrograms.Prog σ Λ L R}, r.prog t = prog → m.prog t = prog :=
    fun here => (congrFun sim.prog _).trans here
  have progs : ∀ (t : T) (next : LockedPrograms.Prog σ Λ L R),
      Function.update m.prog t next = Function.update r.prog t next := by
    intro t next
    rw [sim.prog]
  have frames : ∀ (t : T) (frame : Λ),
      Function.update m.frame t frame = Function.update r.frame t frame := by
    intro t frame
    rw [sim.frame]
  cases step with
  | lock here ticket idle => exact sim.lockCall few here ticket idle
  | wake here ticket asleep woken => exact sim.woken few here ticket asleep
  | unlock here ticket =>
      exact sim.unlockCall few here ticket (matched _ _ _ _ _ (there here))
  | seize here mutex free =>
      have idle := (sim.owner_iff mutex).mp free
      exact ⟨_, Runs.nil.snoc ⟨.seize (there here) mutex idle, fun _ same => by cases same⟩,
        sim.shared, sim.frame, progs _ _, sim.tickets_mutex mutex, sim.attentive,
        sim.mutex_mutex rfl⟩
  | @free t lock mode frame next here mutex =>
      have holds := matched _ _ _ _ _ (there here)
      have left := Rwlock.Step.release holds
      -- the one thread inside leaves
      have empty : ((m.locks lock).inside.erase (t, mode)).map Prod.fst = (none : Option T).toList := by
        have alone : ((m.locks lock).inside.map Prod.fst).length ≤ 1 := by
          rw [sim.mutex lock mutex]
          cases r.owner lock <;> simp
        rw [List.length_map] at alone
        have fewer := List.length_erase_of_mem holds
        rw [Option.toList_none, List.map_eq_nil_iff, ← List.length_eq_zero_iff]
        omega
      exact ⟨_, Runs.nil.snoc ⟨.release (there here) left, fun _ same => by cases same⟩,
        sim.shared, frames _ _, progs _ _, sim.tickets_mutex mutex, sim.attentive,
        sim.mutex_mutex empty⟩
  | @act t α run frame next here =>
      have moves : m.Step fifo (.act t) _ := .act (there here)
      rw [sim.shared] at moves
      refine ⟨_, Runs.nil.snoc ⟨moves, fun u same => ?_⟩, rfl, frames _ _, progs _ _, sim.tickets,
        sim.attentive, sim.mutex⟩
      cases same
      have may := allowed t rfl
      show allows m.frame m.shared t (Function.update m.frame t _ t) _
      rwa [sim.frame, sim.shared]
  | ask here answer =>
      exact ⟨_, Runs.nil.snoc ⟨.ask (there here) answer, fun _ same => by cases same⟩,
        sim.shared, sim.frame, progs _ _, sim.tickets, sim.attentive, sim.mutex⟩

end Sections

end Simulates

end Simulation

section Pairs

variable {T σ Λ L R ρ : Type} [DecidableEq T] [DecidableEq L] [Preorder ρ] {fifo : L → Prop}

/-- The thread uses the locks in matched pairs: it is inside those it releases, and outside, or
on its way in, those it takes. -/
structure Matched (fifo : L → Prop) (r : TicketMachine T σ Λ L R) (t : T) : Prop where
  release : ∀ {lock mode frame next}, r.prog t = .release lock mode frame next →
    (fifo lock → (r.users lock).phase t = .inside mode) ∧ (¬ fifo lock → r.owner lock = some t)
  acquire : ∀ {lock mode next}, r.prog t = .acquire lock mode next →
    (fifo lock → (r.users lock).phase t = .idle ∨
      ∃ my_ticket notified, (r.users lock).phase t = .asleep mode my_ticket notified) ∧
    (¬ fifo lock → r.owner lock ≠ some t)

variable {d : Discipline T σ Λ L R ρ} {held : T → List (L × Mode)}
variable {r : TicketMachine T σ Λ L R} {m : Machine T σ Λ L R}

/-- What a thread is about to release it holds. -/
theorem holds_of_release (abides : Abides fifo d held m) {t : T} {lock : L} {mode : Mode} {frame : Λ}
    {next : LockedPrograms.Prog σ Λ L R} (here : m.prog t = .release lock mode frame next) :
    (t, mode) ∈ (m.locks lock).inside := by
  have follows := abides.follows t
  rw [here] at follows
  exact (abides.table.inside t lock mode).mpr follows.2.1

omit [DecidableEq T] [DecidableEq L] in
/-- Who is inside a mutex owns it. -/
theorem Simulates.owner (sim : Simulates fifo r m) {lock : L} (mutex : ¬ fifo lock) (t : T) :
    r.owner lock = some t ↔ ∃ mode, (t, mode) ∈ (m.locks lock).inside := by
  have same := sim.mutex lock mutex
  have member : t ∈ (m.locks lock).inside.map Prod.fst ↔ r.owner lock = some t := by
    rw [same]
    exact Option.mem_toList
  rw [← member, List.mem_map]
  constructor
  · rintro ⟨⟨u, mode⟩, inside, rfl⟩
    exact ⟨mode, inside⟩
  · rintro ⟨mode, inside⟩
    exact ⟨(t, mode), inside, rfl⟩

/-- Threads that follow a discipline use their locks in matched pairs. -/
theorem Simulates.matched (sim : Simulates fifo r m) (abides : Abides fifo d held m) (t : T) :
    Matched fifo r t := by
  constructor
  · intro lock mode frame next here
    have inside := holds_of_release abides ((congrFun sim.prog t).trans here)
    constructor
    · intro ticket
      obtain ⟨served, rep⟩ := sim.tickets lock ticket
      exact rep.inside.mpr inside
    · exact fun mutex => (sim.owner mutex t).mpr ⟨mode, inside⟩
  · intro lock mode next here
    have there : m.prog t = .acquire lock mode next := (congrFun sim.prog t).trans here
    have out : ∀ other, (t, other) ∉ (m.locks lock).inside := by
      intro other inside
      have follows := abides.follows t
      rw [there] at follows
      exact lt_irrefl _ (follows.2.1 _ ((abides.table.inside t lock other).mp inside))
    constructor
    · intro ticket
      obtain ⟨served, rep⟩ := sim.tickets lock ticket
      cases phase : (r.users lock).phase t with
      | idle => exact .inl rfl
      | inside other => exact absurd (rep.inside.mp phase) (out other)
      | asleep other k notified =>
          -- it waits as the abstract thread does
          have held : ((r.users lock).phase t).ticket = some (other, k) := by
            rw [phase]
            rfl
          obtain ⟨i, found, -⟩ := rep.ticket held
          obtain ⟨later, waits⟩ := abides.waiting (List.mem_of_getElem? found)
          rw [there] at waits
          cases waits
          exact .inr ⟨k, notified, rfl⟩
    · intro mutex own
      obtain ⟨other, inside⟩ := (sim.owner mutex t).mp own
      exact out other inside

end Pairs

end TicketMachine

/-! ## The service on its own locks -/

namespace Threads

variable {T : Type} [DecidableEq T] {SHA512 : Page → BlockId} {calls : T → Call} {s : Store}

abbrev Service (T : Type) := TicketMachine T Store Frame Lock Result

/-- One call on each thread, none of which has begun, and every lock initialised. -/
def serve (SHA512 : Page → BlockId) (s : Store) (calls : T → Call) : Service T :=
  .start s .outside fun t => program SHA512 (calls t)

/-- The threads of a run hold their locks in order. -/
theorem abides_of_run (allocated : s.Allocated) {trace : List (LockedPrograms.Event T Lock)}
    {m : State T} (run : Runs (Machine.Step Lock.fifo) (start SHA512 s calls) trace m) :
    ∃ ids, Abides Lock.fifo (Clause.unconstrained.discipline calls ids) (holdings trace) m := by
  have free : Runs Clause.unconstrained.Step (start SHA512 s calls) trace m :=
    run.mono fun _ _ _ move => ⟨move, fun _ _ => trivial⟩
  obtain ⟨ids, -, start, allowed⟩ :=
    Clause.abides Clause.unconstrained_preserved allocated trivial free
  exact ⟨ids, start.run allowed⟩

variable {allows : (T → Frame) → Store → T → Frame → Store → Prop}
variable {history : List (List (LockedPrograms.Event T Lock))} {r : Service T}

/-- A run on ticket locks is matched by one on abstract locks. -/
theorem simulated [Fintype T] (few : Fintype.card T < 2 ^ 32) (allocated : s.Allocated)
    (run : Runs (TicketMachine.Allows Lock.fifo True allows) (serve SHA512 s calls) history r) :
    ∃ m, Runs (Machine.Allows Lock.fifo allows) (start SHA512 s calls) history.flatten m ∧
      TicketMachine.Simulates Lock.fifo r m := by
  have simulated : ∃ m, Runs (Machine.Allows Lock.fifo allows) (start SHA512 s calls)
      (history.flatMap fun events => events) m ∧ (TicketMachine.Simulates Lock.fifo r m ∧
        ∃ trace, Runs (Machine.Allows Lock.fifo allows) (start SHA512 s calls) trace m) := by
    refine run.simulated (fun events => events) (fun r m => TicketMachine.Simulates Lock.fifo r m ∧
      ∃ trace, Runs (Machine.Allows Lock.fifo allows) (start SHA512 s calls) trace m)
      ⟨.start _ _ _, [], .nil⟩ ?_
    rintro before events after m ⟨sim, trace, led⟩ move
    obtain ⟨ids, abides⟩ := abides_of_run allocated (led.mono fun _ _ _ move => move.1)
    obtain ⟨next, goes, sim'⟩ := sim.step few
      (fun t lock mode frame next here => TicketMachine.holds_of_release abides here) move
    exact ⟨next, goes, sim', _, led.trans goes⟩
  rw [List.flatMap_id'] at simulated
  obtain ⟨m, goes, sim, -⟩ := simulated
  exact ⟨m, goes, sim⟩

end Threads

end ProjetoTSO.Codededup
