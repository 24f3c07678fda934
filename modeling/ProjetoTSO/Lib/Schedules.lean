import ProjetoTSO.Lib.LockedPrograms

/-!
# Schedules

Runs built by hand.  As long as no thread asks for a lock that another one keeps it from,
nobody waits, and what a run has reached is described by what the threads hold and where
they are (`Reached`).  There is one rule for each kind of step.
-/

namespace LockedPrograms

open Transition FifoRwlock

variable {T σ Λ L R : Type} [DecidableEq T] [DecidableEq L]

/-- A step in which a thread acts as it may. -/
def Machine.Allows (fifo : L → Prop) (allows : (T → Λ) → σ → T → Λ → σ → Prop)
    (m : Machine T σ Λ L R) (event : Event T L) (after : Machine T σ Λ L R) : Prop :=
  m.Step fifo event after ∧
    ∀ t, event = .act t → allows m.frame m.shared t (after.frame t) after.shared

/-- Some run leads to where the threads hold these locks and are here, and nobody waits. -/
def Reached (fifo : L → Prop) (allows : (T → Λ) → σ → T → Λ → σ → Prop)
    (init : Machine T σ Λ L R) (held : T → List (L × Mode)) (shared : σ) (frame : T → Λ)
    (prog : T → Prog σ Λ L R) : Prop :=
  ∃ trace m, Runs (Machine.Allows fifo allows) init trace m ∧ Table fifo held m.locks ∧
    (∀ lock, (m.locks lock).waiting = []) ∧ m.shared = shared ∧ m.frame = frame ∧ m.prog = prog

namespace Reached

variable {fifo : L → Prop} {allows : (T → Λ) → σ → T → Λ → σ → Prop} {init : Machine T σ Λ L R}
variable {held : T → List (L × Mode)} {shared shared' : σ} {frame : T → Λ}
variable {prog : T → Prog σ Λ L R} {t : T} {lock : L} {mode : Mode} {next : Prog σ Λ L R}

theorem start (shared : σ) (frame : Λ) (prog : T → Prog σ Λ L R) :
    Reached fifo allows (Machine.start shared frame prog) (fun _ => []) shared (fun _ => frame)
      prog :=
  ⟨[], _, .nil, .free, fun _ => rfl, rfl, rfl, rfl⟩

/-- A lock is taken that nobody has, or that readers share. -/
theorem acquire (reached : Reached fifo allows init held shared frame prog)
    (here : prog t = .acquire lock mode next)
    (admits : ∀ u other, (lock, other) ∈ held u → u ≠ t ∧ mode = .read ∧ other = .read ∧ fifo lock) :
    Reached fifo allows init (Function.update held t ((lock, mode) :: held t)) shared frame
      (Function.update prog t next) := by
  obtain ⟨trace, m, run, table, calm, rfl, rfl, rfl⟩ := reached
  have fresh : ∀ other, (lock, other) ∉ held t := fun other member =>
    (admits t other member).1 rfl
  by_cases queued : fifo lock
  · -- the thread arrives, and is let in
    have absent : t ∉ (m.locks lock).threads := by
      rw [Rwlock.threads, calm lock, List.append_nil]
      intro member
      obtain ⟨⟨u, other⟩, inside, rfl⟩ := List.mem_map.mp member
      exact fresh other ((table.inside _ _ _).mp inside)
    have arrives : (m.locks lock).Step (.arrive t mode) _ := .arrive mode absent
    rw [calm lock, List.nil_append] at arrives
    set waits := m.setLock lock ⟨(m.locks lock).inside, [(t, mode)]⟩
    have queue : waits.locks lock = ⟨(m.locks lock).inside, [(t, mode)]⟩ := Function.update_self ..
    have enters : Rwlock.Step ⟨(m.locks lock).inside, [(t, mode)]⟩ (.grant t mode)
        ⟨(t, mode) :: (m.locks lock).inside, []⟩ := by
      refine .grant rfl ?_
      cases mode with
      | read =>
          rintro ⟨u, other⟩ inside
          exact (admits u other ((table.inside _ _ _).mp inside)).2.2.1
      | write =>
          refine List.eq_nil_iff_forall_not_mem.mpr ?_
          rintro ⟨u, other⟩ inside
          have readers := (admits u other ((table.inside _ _ _).mp inside)).2.1
          cases readers
    have comes : Machine.Allows fifo allows m (.lock lock (.arrive t mode)) waits :=
      ⟨.arrive here queued arrives, fun _ same => by cases same⟩
    have goes : Machine.Allows fifo allows waits (.lock lock (.grant t mode))
        ((waits.setLock lock ⟨(t, mode) :: (m.locks lock).inside, []⟩).setProg t next) :=
      ⟨.grant here queued (queue ▸ enters), fun _ same => by cases same⟩
    refine ⟨_, _, (run.snoc comes).snoc goes, ?_, fun other => ?_, rfl, rfl, rfl⟩
    · have sound := enters.sound (arrives.sound (table.sound lock))
      show Table fifo _ (Function.update (Function.update m.locks lock _) lock _)
      rw [Function.update_idem]
      exact table.grant fresh rfl sound fun _ => rfl
    · show ((Function.update (Function.update m.locks lock _) lock _ other).waiting = [])
      rcases eq_or_ne other lock with rfl | differ
      · rw [Function.update_self]
      · rw [Function.update_of_ne differ, Function.update_of_ne differ]
        exact calm other
  · -- a mutex
    have idle : (m.locks lock).inside = [] := by
      refine List.eq_nil_iff_forall_not_mem.mpr ?_
      rintro ⟨u, other⟩ inside
      exact queued (admits u other ((table.inside _ _ _).mp inside)).2.2.2
    refine ⟨_, _, run.snoc ⟨.seize here queued idle, fun _ same => by cases same⟩, ?_, fun other => ?_,
      rfl, rfl, rfl⟩
    · refine table.grant fresh (by rw [idle]) ⟨List.nodup_singleton t, fun u inside => ?_⟩ fun _ => rfl
      cases List.mem_singleton.mp inside
      rfl
    · show ((Function.update m.locks lock _ other).waiting = [])
      rcases eq_or_ne other lock with rfl | differ
      · rw [Function.update_self]
      · rw [Function.update_of_ne differ]
        exact calm other

theorem release {frame' : Λ} (reached : Reached fifo allows init held shared frame prog)
    (here : prog t = .release lock mode frame' next) (holds : (lock, mode) ∈ held t) :
    Reached fifo allows init (Function.update held t ((held t).erase (lock, mode))) shared
      (Function.update frame t frame') (Function.update prog t next) := by
  obtain ⟨trace, m, run, table, calm, rfl, rfl, rfl⟩ := reached
  have leaves := Rwlock.Step.release ((table.inside t lock mode).mpr holds)
  refine ⟨_, _, run.snoc ⟨.release here leaves, fun _ same => by cases same⟩, ?_, fun other => ?_,
    rfl, rfl, rfl⟩
  · exact table.release rfl (leaves.sound (table.sound lock)) rfl
  · show ((Function.update m.locks lock _ other).waiting = [])
    rcases eq_or_ne other lock with rfl | differ
    · rw [Function.update_self]
      exact calm other
    · rw [Function.update_of_ne differ]
      exact calm other

theorem act {α : Type} {run : σ → α × σ} {frame' : α → Λ} {next : α → Prog σ Λ L R} {value : α}
    (reached : Reached fifo allows init held shared frame prog)
    (here : prog t = .act run frame' next) (ran : run shared = (value, shared'))
    (allowed : allows frame shared t (frame' value) shared') :
    Reached fifo allows init held shared' (Function.update frame t (frame' value))
      (Function.update prog t (next value)) := by
  obtain ⟨trace, m, earlier, table, calm, rfl, rfl, rfl⟩ := reached
  have moves : m.Step fifo (.act t) _ := .act here
  rw [ran] at moves
  refine ⟨_, _, earlier.snoc ⟨moves, fun u same => ?_⟩, table, calm, rfl, rfl, rfl⟩
  cases same
  show allows m.frame m.shared t (Function.update m.frame t (frame' value) t) shared'
  rwa [Function.update_self]

theorem ask {ε : Type} [Inhabited ε] {next : ε → Prog σ Λ L R}
    (reached : Reached fifo allows init held shared frame prog) (here : prog t = .ask next)
    (answer : ε) :
    Reached fifo allows init held shared frame (Function.update prog t (next answer)) := by
  obtain ⟨trace, m, run, table, calm, rfl, rfl, rfl⟩ := reached
  exact ⟨_, _, run.snoc ⟨.ask here answer, fun _ same => by cases same⟩, table, calm, rfl, rfl, rfl⟩

end Reached

end LockedPrograms
