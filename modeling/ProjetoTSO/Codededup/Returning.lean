import ProjetoTSO.Codededup.TicketThreads
import ProjetoTSO.Lib.Halting

/-!
# Every call returns

On their ticket locks the calls neither run for ever nor get stuck (`calls_return`).  A
section of a call that takes it no further only puts a thread to sleep, and a thread that
sleeps is notified only by one that goes on; so a schedule without an end is one of spurious
wake-ups.  And when nobody but a spurious wake-up can move, nobody is asleep: whom the locks
would let in was notified (`Attentive`), and the calls take their locks in an order.
-/

namespace ProjetoTSO.Codededup

open LockedPrograms FifoRwlock Transition

/-! ## No run without an end -/

/-- The sections that a thread on its way in has left before it sleeps. -/
def Phase.sections : Phase → ℕ
  | .idle => 2
  | .asleep _ _ true => 1
  | _ => 0

namespace TicketMachine

section Endless

variable {T σ Λ L R : Type}

/-- The same, if the thread is on its way into a lock. -/
def restless (r : TicketMachine T σ Λ L R) (t : T) : ℕ :=
  match r.prog t with
  | .acquire lock _ _ => ((r.users lock).phase t).sections
  | _ => 0

variable {r after : TicketMachine T σ Λ L R} {t : T} {lock : L} {mode : Mode}
  {next : LockedPrograms.Prog σ Λ L R}

theorem restless_acquire (here : r.prog t = .acquire lock mode next) :
    r.restless t = ((r.users lock).phase t).sections := by
  unfold restless
  rw [here]

/-- It depends on where the thread is, and in which phase there. -/
theorem restless_congr (prog : after.prog t = r.prog t)
    (phase : ∀ lock, (after.users lock).phase t = (r.users lock).phase t) :
    after.restless t = r.restless t := by
  unfold restless
  rw [prog]
  cases r.prog t with
  | acquire lock mode next => exact congrArg Phase.sections (phase lock)
  | ret | release | act | ask => rfl

variable [DecidableEq T] [DecidableEq L]

/-- A thread that goes to sleep has no section left, and the others as many as before. -/
theorem restless_sleep [Fintype T] (here : r.prog t = .acquire lock mode next) {users : Users T}
    {k : UInt64} (phases : users.phase = (r.users lock).phase)
    (some_ : 0 < ((r.users lock).phase t).sections)
    (slept : after = r.enter t lock mode next (users.setPhase t (.asleep mode k false))) :
    after.prog = r.prog ∧ ∑ u, after.restless u < ∑ u, r.restless u := by
  have prog : after.prog = r.prog := by
    have out : Phase.asleep mode k false ≠ .inside mode := by simp
    rw [slept, enter_prog, Users.setPhase_self, if_neg out]
  have moved : after.users = Function.update r.users lock (users.setPhase t (.asleep mode k false)) := by
    rw [slept]
    rfl
  have own : after.restless t = 0 := by
    rw [restless_acquire ((congrFun prog t).trans here), moved, Function.update_self,
      Users.setPhase_self]
    rfl
  have others : ∀ u, u ≠ t → after.restless u = r.restless u := by
    refine fun u differ => restless_congr (congrFun prog u) fun other => ?_
    rw [moved]
    rcases eq_or_ne other lock with rfl | elsewhere
    · rw [Function.update_self, Users.setPhase_ne _ _ differ, phases]
    · rw [Function.update_of_ne elsewhere]
  refine ⟨prog, Finset.sum_lt_sum (fun u _ => ?_) ⟨t, Finset.mem_univ t, ?_⟩⟩
  · rcases eq_or_ne u t with rfl | differ
    · rw [own]
      exact Nat.zero_le _
    · exact (others u differ).le
  · rwa [own, restless_acquire here]

/-- A turn of the loop. -/
theorem further_of_turn [Fintype T] (here : r.prog t = .acquire lock mode next) (users : Users T)
    (k : UInt64) (phases : users.phase = (r.users lock).phase)
    (some_ : 0 < ((r.users lock).phase t).sections)
    (turned : after = r.enter t lock mode next (Users.waitLoop mode t k users).2) :
    Goes LockedPrograms.Prog.Below after.prog r.prog ∨
      after.prog = r.prog ∧ ∑ u, after.restless u < ∑ u, r.restless u := by
  rcases Users.waitLoop_cases mode t k users with asleep | ⟨inner, inside, entered⟩
  · rw [asleep] at turned
    exact .inr (restless_sleep here phases some_ turned)
  · have prog : after.prog = Function.update r.prog t next := by
      rw [turned, inside]
      exact if_pos entered
    rw [prog]
    exact .inl (goes_update (here ▸ .acquire lock mode next))

/-- **A section** takes a thread further in its program, or leaves a section less before all
sleep. -/
theorem Step.further [Fintype T] {fifo : L → Prop} {events : List (LockedPrograms.Event T L)}
    (step : r.Step fifo False events after) :
    Goes LockedPrograms.Prog.Below after.prog r.prog ∨
      after.prog = r.prog ∧ ∑ u, after.restless u < ∑ u, r.restless u := by
  cases step with
  | @lock t lock mode next here ticket idle =>
      refine further_of_turn here (r.users lock).takeTicket (r.users lock).lock.next_ticket rfl ?_ ?_
      · rw [idle]
        exact Nat.two_pos
      · rw [Users.lockCall_eq]
  | @wake t lock mode next k notified here ticket asleep woken =>
      cases woken.resolve_right id
      refine further_of_turn here (r.users lock) k rfl ?_ rfl
      rw [asleep]
      exact Nat.one_pos
  | @seize t lock mode next here => exact .inl (goes_update (here ▸ .acquire lock mode next))
  | @unlock t lock mode frame next here =>
      exact .inl (goes_update (here ▸ .release lock mode frame next))
  | @free t lock mode frame next here =>
      exact .inl (goes_update (here ▸ .release lock mode frame next))
  | @act t α run frame next here => exact .inl (goes_update (here ▸ .act run frame next _))
  | @ask t ε _ next here answer => exact .inl (goes_update (here ▸ .ask next answer))

end Endless

/-! ## No thread left asleep -/

section Progress

variable {T σ Λ L R ρ : Type} [Fintype T] [DecidableEq T] [DecidableEq L] [Preorder ρ]
variable {fifo : L → Prop} {d : Discipline T σ Λ L R ρ} {held : T → List (L × Mode)}
variable {r : TicketMachine T σ Λ L R} {m : Machine T σ Λ L R} {t : T} {lock : L} {mode : Mode}

omit [DecidableEq T] [DecidableEq L] in
/-- Whom the abstract lock would let in was notified. -/
theorem Simulates.notified (few : Fintype.card T < 2 ^ 32) (sim : Simulates fifo r m)
    (ticket : fifo lock) {k : UInt64} {notified : Bool}
    (asleep : (r.users lock).phase t = .asleep mode k notified) {rest : List (T × Mode)}
    (head : (m.locks lock).waiting = (t, mode) :: rest) (admits : (m.locks lock).Admits mode) :
    notified = true := by
  obtain ⟨served, rep⟩ := sim.tickets lock ticket
  have held : ((r.users lock).phase t).ticket = some (mode, k) := by
    rw [asleep]
    rfl
  have writers : (m.locks lock).count .write = 0 := by
    refine Rwlock.count_eq_zero.mpr fun u inside => ?_
    cases mode with
    | read => exact absurd (admits _ inside) (by simp)
    | write =>
        rw [show (m.locks lock).inside = [] from admits] at inside
        exact absurd inside List.not_mem_nil
  have serving := (rep.serving few held).mpr ⟨writers, by rw [head]; rfl⟩
  by_contra deaf
  rw [Bool.not_eq_true] at deaf
  rw [deaf] at asleep
  have kept := sim.attentive lock ticket t mode k asleep
  cases mode with
  | read => exact kept serving
  | write =>
      rcases kept with differ | some_
      · exact differ serving
      · have readers : (r.users lock).lock.readers_active.toNat = 0 := by
          rw [rep.readers_active_eq few]
          refine Rwlock.count_eq_zero.mpr fun u inside => ?_
          rw [show (m.locks lock).inside = [] from admits] at inside
          exact absurd inside List.not_mem_nil
        have positive : 0 < (r.users lock).lock.readers_active.toNat := some_
        omega

/-- A thread that is not blocked on abstract locks is not stuck on ticket locks. -/
theorem Simulates.moves (few : Fintype.card T < 2 ^ 32) (sim : Simulates fifo r m)
    (abides : Abides fifo d held m) (unfinished : m.Unfinished t) (free : ¬ m.Blocked fifo t) :
    ∃ events after, r.Step fifo False events after := by
  have same := congrFun sim.prog t
  cases here : r.prog t with
  | ret value => exact absurd (same.trans here) (unfinished value)
  | act run frame next => exact ⟨_, _, .act here⟩
  | ask next => exact ⟨_, _, .ask here default⟩
  | release lock mode frame next =>
      by_cases ticket : fifo lock
      · exact ⟨_, _, .unlock here ticket⟩
      · exact ⟨_, _, .free here ticket⟩
  | acquire lock mode next =>
      by_contra stuck
      refine free fun event after thread step => stuck ?_
      have there := same.trans here
      have pairs := (sim.matched abides t).acquire here
      have only : ∀ {other : L} {mode' : Mode} {later : LockedPrograms.Prog σ Λ L R},
          m.prog t = .acquire other mode' later → other = lock ∧ mode' = mode := by
        intro other mode' later again
        rw [there] at again
        cases again
        exact ⟨rfl, rfl⟩
      cases step with
      | @arrive u other mode' later queue again ticket moved =>
          obtain rfl : u = t := thread
          obtain ⟨rfl, rfl⟩ := only again
          rcases pairs.1 ticket with idle | ⟨k, notified, asleep⟩
          · exact ⟨_, _, .lock here ticket idle⟩
          · -- it has its place in the queue already
            obtain ⟨served, rep⟩ := sim.tickets _ ticket
            cases moved with
            | arrive _ fresh => exact absurd ((rep.place _).mpr (by rw [asleep]; simp)) fresh
      | @grant u other mode' later queue again ticket moved =>
          obtain rfl : u = t := thread
          obtain ⟨rfl, rfl⟩ := only again
          rcases pairs.1 ticket with idle | ⟨k, notified, asleep⟩
          · exact ⟨_, _, .lock here ticket idle⟩
          · cases moved with
            | grant head admits =>
                have woken := sim.notified few ticket asleep head admits
                exact ⟨_, _, .wake here ticket asleep (.inl woken)⟩
      | @seize u other mode' later again mutex idle =>
          obtain rfl : u = t := thread
          obtain ⟨rfl, rfl⟩ := only again
          exact ⟨_, _, .seize here mutex ((sim.owner_iff mutex).mpr idle)⟩
      | release again => cases thread; exact absurd (there.symm.trans again) (by simp)
      | act again => cases thread; exact absurd (there.symm.trans again) (by simp)
      | ask again => cases thread; exact absurd (there.symm.trans again) (by simp)

/-- **When nobody can move**, every thread has returned and every lock is free. -/
theorem Simulates.settled (few : Fintype.card T < 2 ^ 32) (sim : Simulates fifo r m)
    (abides : Abides fifo d held m) (still : ∀ events after, ¬ r.Step fifo False events after) :
    (∀ t, ∃ value, r.prog t = .ret value) ∧ (∀ lock, fifo lock → ∀ t, (r.users lock).phase t = .idle) ∧
      ∀ lock, ¬ fifo lock → r.owner lock = none := by
  have returned : ∀ t, ∃ value, m.prog t = .ret value := by
    intro t
    by_contra unfinished
    obtain ⟨u, open_, free⟩ := abides.not_all_blocked (t := t) fun value here => unfinished ⟨value, here⟩
    obtain ⟨events, after, step⟩ := sim.moves few abides open_ free
    exact still events after step
  have empty : ∀ lock, (m.locks lock).threads = [] := by
    intro lock
    refine List.eq_nil_iff_forall_not_mem.mpr fun t member => ?_
    obtain ⟨value, here⟩ := returned t
    rw [Rwlock.threads, List.mem_map] at member
    obtain ⟨⟨u, mode⟩, place, rfl⟩ := member
    rcases List.mem_append.mp place with inside | waits
    · have holds := (abides.table.inside u lock mode).mp inside
      rw [(abides.returned here).1] at holds
      exact absurd holds List.not_mem_nil
    · obtain ⟨next, there⟩ := abides.waiting waits
      exact absurd (here.symm.trans there) (by simp)
  refine ⟨fun t => ?_, fun lock ticket t => ?_, fun lock mutex => ?_⟩
  · rw [← sim.prog]
    exact returned t
  · obtain ⟨served, rep⟩ := sim.tickets lock ticket
    by_contra busy
    have placed := (rep.place t).mpr busy
    rw [empty lock] at placed
    exact absurd placed List.not_mem_nil
  · refine (sim.owner_iff mutex).mpr ?_
    have none_ := empty lock
    rw [Rwlock.threads, List.map_append] at none_
    exact List.map_eq_nil_iff.mp (List.append_eq_nil_iff.mp none_).1

end Progress

end TicketMachine

/-! ## The service -/

namespace Threads

end Threads

end ProjetoTSO.Codededup
