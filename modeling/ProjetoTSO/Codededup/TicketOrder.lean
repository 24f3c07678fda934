import ProjetoTSO.Codededup.TicketRwlock

/-!
# The ticket lock is a first-in first-out lock

The counters of a ticket lock stand for a queue: the tickets from `now_serving` on
belong to the writer inside, if any, and to the threads that wait, in the order they
took them.  `Represents` states the correspondence with the locks of `FifoRwlock`;
every section under the mutex keeps it (`Represents.step`), and exclusion and order
follow from the queue (`exclusive_in_order`), whatever the number of acquisitions:
tickets repeat after `2 ^ 64` of them, but those that are out at one time differ.
-/

namespace ProjetoTSO.Codededup

open Transition FifoRwlock

namespace Users

/-! ## The lock as a first-in first-out lock -/

section Refinement

variable {T : Type} {s : Users T} {lock : Rwlock T} {served : ℕ} {t : T} {mode : Mode} {k : UInt64}

/-- The counters of the lock are those of the queue: the tickets from `served` on
are held by the writer inside, if any, and by those waiting, in order. -/
structure Represents (s : Users T) (served : ℕ) (lock : Rwlock T) : Prop where
  sound : lock.Sound
  now_serving : s.lock.now_serving = UInt64.ofNat served
  next_ticket : s.lock.next_ticket =
    UInt64.ofNat (served + lock.count .write + lock.waiting.length)
  readers_active : s.lock.readers_active = UInt32.ofNat (lock.count .read)
  inside : ∀ {t mode}, s.phase t = .inside mode ↔ (t, mode) ∈ lock.inside
  waiting : ∀ {t mode}, (t, mode) ∈ lock.waiting → ∃ k, (s.phase t).ticket = some (mode, k)
  ticket : ∀ {t mode k}, (s.phase t).ticket = some (mode, k) →
    ∃ i, lock.waiting[i]? = some (t, mode) ∧ k = UInt64.ofNat (served + lock.count .write + i)

namespace Represents

/-- Before the first call. -/
theorem start : Represents (start : Users T) 0 .free where
  sound := .free
  now_serving := rfl
  next_ticket := rfl
  readers_active := rfl
  inside := by simp [Users.start, Rwlock.free]
  waiting member := by simp [Rwlock.free] at member
  ticket held := by simp [Users.start, Phase.ticket] at held

/-- A broadcast moves nobody. -/
theorem broadcast (rep : Represents s served lock) (mode : Mode) :
    Represents (s.broadcast mode) served lock where
  sound := rep.sound
  now_serving := rep.now_serving
  next_ticket := rep.next_ticket
  readers_active := rep.readers_active
  inside := Phase.notify_eq_inside.trans rep.inside
  waiting member := by
    obtain ⟨k, held⟩ := rep.waiting member
    exact ⟨k, (Phase.ticket_notify _ _).trans held⟩
  ticket held := rep.ticket ((Phase.ticket_notify _ _).symm.trans held)

/-- Where a thread of the queue is. -/
theorem place (rep : Represents s served lock) (t : T) :
    t ∈ lock.threads ↔ s.phase t ≠ .idle := by
  rw [Rwlock.threads, List.mem_map]
  constructor
  · rintro ⟨⟨u, mode⟩, member, rfl⟩ idle
    rcases List.mem_append.mp member with inside | waiting
    · rw [← rep.inside, idle] at inside
      cases inside
    · obtain ⟨k, held⟩ := rep.waiting waiting
      rw [idle] at held
      cases held
  · intro busy
    cases phase : s.phase t with
    | idle => exact absurd phase busy
    | inside mode => exact ⟨(t, mode), List.mem_append_left _ (rep.inside.mp phase), rfl⟩
    | asleep mode k notified =>
        have held : (s.phase t).ticket = some (mode, k) := by
          rw [phase]
          rfl
        obtain ⟨i, found, -⟩ := rep.ticket held
        exact ⟨(t, mode), List.mem_append_right _ (List.mem_of_getElem? found), rfl⟩

section Moves

variable [DecidableEq T]

/-- A thread that takes a ticket is last in the queue. -/
theorem arrive (rep : Represents s served lock) (idle : s.phase t = .idle) (mode : Mode) :
    Rwlock.Step lock (.arrive t mode) ⟨lock.inside, lock.waiting ++ [(t, mode)]⟩ ∧
      Represents (s.takeTicket.setPhase t (.asleep mode s.lock.next_ticket false)) served
        ⟨lock.inside, lock.waiting ++ [(t, mode)]⟩ := by
  have fresh : t ∉ lock.threads := fun member => (rep.place t).mp member idle
  have step := Rwlock.Step.arrive mode fresh
  refine ⟨step, step.sound rep.sound, rep.now_serving, ?_, rep.readers_active, ?_, ?_, ?_⟩
  · show s.lock.next_ticket + 1 = _
    rw [rep.next_ticket, List.length_append, List.length_singleton, ← Nat.add_assoc]
    exact (UInt64.ofNat_add _ 1).symm
  · intro u m
    by_cases own : u = t
    · rw [own, setPhase_self]
      constructor
      · intro same
        cases same
      · intro member
        exact absurd (List.mem_map_of_mem (List.mem_append_left _ member)) fresh
    · rw [setPhase_ne _ _ own]
      exact rep.inside
  · intro u m member
    rcases List.mem_append.mp member with earlier | last
    · obtain ⟨k, held⟩ := rep.waiting earlier
      have own : u ≠ t := by
        rintro rfl
        rw [idle] at held
        cases held
      rw [setPhase_ne _ _ own]
      exact ⟨k, held⟩
    · cases List.mem_singleton.mp last
      exact ⟨_, by rw [setPhase_self]; rfl⟩
  · intro u m k held
    by_cases own : u = t
    · rw [own, setPhase_self] at held
      cases held
      refine ⟨lock.waiting.length, ?_, rep.next_ticket⟩
      rw [List.getElem?_concat_length, own]
    · rw [setPhase_ne _ _ own] at held
      obtain ⟨i, found, ticket⟩ := rep.ticket held
      refine ⟨i, ?_, ticket⟩
      rw [List.getElem?_append_left (List.getElem?_eq_some_iff.mp found).1]
      exact found

/-- A thread that goes back to sleep keeps its place. -/
theorem sleep (rep : Represents s served lock) (held : (s.phase t).ticket = some (mode, k)) :
    Represents (s.setPhase t (.asleep mode k false)) served lock where
  sound := rep.sound
  now_serving := rep.now_serving
  next_ticket := rep.next_ticket
  readers_active := rep.readers_active
  inside := by
    intro u m
    rw [← rep.inside]
    by_cases own : u = t
    · rw [own, setPhase_self]
      constructor
      · intro same
        cases same
      · intro same
        rw [same] at held
        cases held
    · rw [setPhase_ne _ _ own]
  waiting := by
    intro u m member
    obtain ⟨k', held'⟩ := rep.waiting member
    by_cases own : u = t
    · rw [own, held] at held'
      cases held'
      exact ⟨k, by rw [own, setPhase_self]; rfl⟩
    · exact ⟨k', by rw [setPhase_ne _ _ own, held']⟩
  ticket := by
    intro u m k' held'
    by_cases own : u = t
    · rw [own, setPhase_self] at held'
      cases held'
      rw [own]
      exact rep.ticket held
    · rw [setPhase_ne _ _ own] at held'
      exact rep.ticket held'

/-- The thread at the head of the queue goes in.  A reader moves `served` on. -/
theorem grant (rep : Represents s served lock) {rest : List (T × Mode)}
    (head : lock.waiting = (t, mode) :: rest) (writers : lock.count .write = 0)
    (admits : lock.Admits mode) {next : TicketRwlock} {served' : ℕ}
    (now_serving : next.now_serving = UInt64.ofNat served')
    (next_ticket : next.next_ticket = s.lock.next_ticket)
    (readers_active : next.readers_active =
      UInt32.ofNat (Rwlock.count ⟨(t, mode) :: lock.inside, rest⟩ .read))
    (moved : served' + Rwlock.count ⟨(t, mode) :: lock.inside, rest⟩ .write = served + 1) :
    Represents (setPhase { s with lock := next } t (.inside mode)) served'
      ⟨(t, mode) :: lock.inside, rest⟩ := by
  have step := Rwlock.Step.grant head admits
  have sound := step.sound rep.sound
  have distinct : t ∉ rest.map Prod.fst := by
    have places := sound.distinct
    rw [Rwlock.threads, List.cons_append, List.map_cons, List.nodup_cons, List.map_append] at places
    exact fun member => places.1 (List.mem_append_right _ member)
  refine ⟨sound, now_serving, ?_, readers_active, ?_, ?_, ?_⟩
  · show next.next_ticket = _
    rw [next_ticket, rep.next_ticket, writers, head, moved, List.length_cons]
    show _ = UInt64.ofNat (served + 1 + rest.length)
    congr 1
    omega
  · intro u m
    rw [List.mem_cons, ← rep.inside]
    by_cases own : u = t
    · have waited : ∃ k, (s.phase t).ticket = some (mode, k) :=
        rep.waiting (by rw [head]; exact List.mem_cons_self)
      obtain ⟨k, held⟩ := waited
      rw [own, setPhase_self]
      constructor
      · intro same
        cases same
        exact Or.inl rfl
      · rintro (same | same)
        · cases same
          rfl
        · rw [same] at held
          cases held
    · rw [setPhase_ne _ _ own]
      exact ⟨Or.inr, fun either => either.resolve_left fun same => own (congrArg Prod.fst same)⟩
  · intro u m member
    obtain ⟨k, held⟩ := rep.waiting (head ▸ List.mem_cons_of_mem _ member)
    have own : u ≠ t := fun same => distinct (same ▸ List.mem_map_of_mem member)
    exact ⟨k, by rw [setPhase_ne _ _ own]; exact held⟩
  · intro u m k held
    have own : u ≠ t := by
      rintro rfl
      rw [setPhase_self] at held
      cases held
    rw [setPhase_ne _ _ own] at held
    obtain ⟨i, found, ticket⟩ := rep.ticket held
    rw [head] at found
    cases i with
    | zero => exact absurd (congrArg Prod.fst (Option.some.inj found)).symm own
    | succ i =>
        refine ⟨i, found, ?_⟩
        rw [ticket, writers, moved]
        congr 1
        omega

/-- A thread leaves.  A writer moves `served` on. -/
theorem release (rep : Represents s served lock) (holds : s.phase t = .inside mode)
    (next : TicketRwlock) (served' : ℕ) (now_serving : next.now_serving = UInt64.ofNat served')
    (next_ticket : next.next_ticket = s.lock.next_ticket)
    (readers_active : next.readers_active =
      UInt32.ofNat (Rwlock.count ⟨lock.inside.erase (t, mode), lock.waiting⟩ .read))
    (moved : served' + Rwlock.count ⟨lock.inside.erase (t, mode), lock.waiting⟩ .write =
      served + lock.count .write) :
    Rwlock.Step lock (.release t mode) ⟨lock.inside.erase (t, mode), lock.waiting⟩ ∧
      Represents (setPhase { s with lock := next } t .idle) served'
        ⟨lock.inside.erase (t, mode), lock.waiting⟩ := by
  have member := rep.inside.mp holds
  have step := Rwlock.Step.release member
  have once : lock.inside.Nodup := by
    have places := rep.sound.distinct
    rw [Rwlock.threads, List.map_append] at places
    exact (List.nodup_append.mp places).1.of_map
  have only : ∀ {m}, (t, m) ∈ lock.inside → m = mode := by
    intro m other
    rw [← rep.inside, holds] at other
    cases other
    rfl
  have away : ∀ {u m k}, (s.phase u).ticket = some (m, k) → u ≠ t := by
    rintro u m k held rfl
    rw [holds] at held
    cases held
  refine ⟨step, step.sound rep.sound, now_serving, ?_, readers_active, ?_, ?_, ?_⟩
  · show next.next_ticket = UInt64.ofNat (_ + lock.waiting.length)
    rw [next_ticket, rep.next_ticket, moved]
  · intro u m
    by_cases own : u = t
    · rw [own, setPhase_self]
      constructor
      · intro same
        cases same
      · intro still
        obtain rfl := only (List.mem_of_mem_erase still)
        exact absurd still once.not_mem_erase
    · rw [setPhase_ne _ _ own, List.mem_erase_of_ne fun same => own (congrArg Prod.fst same)]
      exact rep.inside
  · intro u m waiting
    obtain ⟨k, held⟩ := rep.waiting waiting
    exact ⟨k, by rw [setPhase_ne _ _ (away held)]; exact held⟩
  · intro u m k held
    have own : u ≠ t := by
      rintro rfl
      rw [setPhase_self] at held
      cases held
    rw [setPhase_ne _ _ own] at held
    obtain ⟨i, found, ticket⟩ := rep.ticket held
    exact ⟨i, found, by rw [ticket, moved]⟩

end Moves

variable [Fintype T]

/-- With fewer than `2 ^ 32` threads the counter of readers is exact. -/
theorem readers_active_eq (few : Fintype.card T < 2 ^ 32) (rep : Represents s served lock) :
    s.lock.readers_active.toNat = lock.count .read := by
  have := rep.sound.length_le
  have := lock.count_le .read
  rw [rep.readers_active, UInt32.toNat_ofNat', Nat.mod_eq_of_lt (by omega)]

/-- A ticket is being served exactly when its holder is first in the queue and no
writer is inside. -/
theorem serving (few : Fintype.card T < 2 ^ 32) (rep : Represents s served lock)
    (held : (s.phase t).ticket = some (mode, k)) :
    k = s.lock.now_serving ↔ lock.count .write = 0 ∧ lock.waiting[0]? = some (t, mode) := by
  obtain ⟨i, found, rfl⟩ := rep.ticket held
  have below : i < lock.waiting.length := (List.getElem?_eq_some_iff.mp found).1
  have := rep.sound.length_le
  have := lock.count_le .write
  rw [rep.now_serving]
  constructor
  · intro same
    have residues := congrArg UInt64.toNat same
    rw [UInt64.toNat_ofNat', UInt64.toNat_ofNat'] at residues
    have none_ : lock.count .write + i = 0 := by omega
    obtain ⟨writers, rfl⟩ := Nat.add_eq_zero_iff.mp none_
    exact ⟨writers, found⟩
  · rintro ⟨writers, first⟩
    -- a thread has one place in the queue
    have position : i = 0 := by
      have distinct := rep.sound.distinct
      rw [Rwlock.threads, List.map_append, List.nodup_append] at distinct
      have waiting := distinct.2.1
      refine (List.getElem?_inj (by simpa using below) waiting).mp ?_
      rw [List.getElem?_map, List.getElem?_map, found, first]
    rw [writers, position, Nat.add_zero]

variable [DecidableEq T]

/-- **A turn of the loop** leaves the thread waiting, or grants it the lock as the
head of the queue. -/
theorem waitLoop_matched (few : Fintype.card T < 2 ^ 32) (rep : Represents s served lock)
    (held : (s.phase t).ticket = some (mode, k)) :
    ∃ next, Runs Rwlock.Step lock (waitLoop mode t k s).1 next ∧
      ∃ served', Represents (waitLoop mode t k s).2 served' next := by
  have serving := rep.serving few held
  have alone : ∀ {m : Mode}, lock.waiting[0]? = some (t, m) →
      lock.waiting = (t, m) :: lock.waiting.tail := by
    intro m first
    cases queue : lock.waiting with
    | nil => rw [queue] at first; cases first
    | cons entry rest => rw [queue] at first; cases first; rfl
  cases mode with
  | read =>
      rw [waitLoop]
      by_cases blocked : k ≠ s.lock.now_serving
      · rw [readLoop_blocked blocked]
        exact ⟨lock, .nil, served, rep.sleep held⟩
      · rw [readLoop_served (not_not.mp blocked)]
        obtain ⟨writers, first⟩ := serving.mp (not_not.mp blocked)
        have admits : lock.Admits .read := by
          rintro ⟨u, m⟩ member
          cases m with
          | read => rfl
          | write => exact absurd member (Rwlock.count_eq_zero.mp writers u)
        refine ⟨_, .snoc .nil (.grant (alone first) admits), served + 1, ?_⟩
        refine (rep.broadcast .read).grant (alone first) writers admits ?_ rfl ?_ ?_
        · show s.lock.now_serving + 1 = _
          rw [rep.now_serving]
          exact (UInt64.ofNat_add _ 1).symm
        · show s.lock.readers_active + 1 = _
          rw [rep.readers_active, Rwlock.count_enter]
          exact (UInt32.ofNat_add _ 1).symm
        · rw [Rwlock.count_enter_ne lock t (by decide), writers]
  | write =>
      rw [waitLoop]
      by_cases blocked : k ≠ s.lock.now_serving ∨ 0 < s.lock.readers_active
      · rw [writeLoop_blocked blocked]
        exact ⟨lock, .nil, served, rep.sleep held⟩
      · rw [writeLoop_served blocked]
        rw [not_or, not_not] at blocked
        obtain ⟨writers, first⟩ := serving.mp blocked.1
        have readers : lock.count .read = 0 := by
          have exact_ := rep.readers_active_eq few
          have none_ : ¬ 0 < s.lock.readers_active.toNat := blocked.2
          omega
        have empty := Rwlock.inside_eq_nil readers writers
        refine ⟨_, .snoc .nil (.grant (alone first) empty), served, ?_⟩
        refine rep.grant (alone first) writers empty rep.now_serving rfl ?_ ?_
        · rw [rep.readers_active, Rwlock.count_enter_ne lock t (by decide)]
        · rw [Rwlock.count_enter, writers]

/-- **Each section is matched** by steps of the first-in first-out lock. -/
theorem step (few : Fintype.card T < 2 ^ 32) {spurious : Prop} {marks : List (Mark T)}
    {after : Users T} (rep : Represents s served lock) (step : Step spurious s marks after) :
    ∃ next, Runs Rwlock.Step lock marks next ∧ ∃ served', Represents after served' next := by
  have call : ∀ (mode : Mode) {t : T}, s.phase t = .idle →
      ∃ next, Runs Rwlock.Step lock
        (.arrive t mode :: (waitLoop mode t s.lock.next_ticket s.takeTicket).1) next ∧
        ∃ served', Represents (waitLoop mode t s.lock.next_ticket s.takeTicket).2 served' next := by
    intro mode t idle
    obtain ⟨arrived, queued⟩ := rep.arrive idle mode
    have held : ((s.takeTicket.setPhase t (.asleep mode s.lock.next_ticket false)).phase t).ticket =
        some (mode, s.lock.next_ticket) := by
      rw [setPhase_self]
      rfl
    have turn := queued.waitLoop_matched few held
    rw [waitLoop_setPhase] at turn
    obtain ⟨next, run, matched⟩ := turn
    exact ⟨next, (Runs.snoc .nil arrived).trans run, matched⟩
  cases step with
  | read_lock idle => exact call .read idle
  | write_lock idle => exact call .write idle
  | wake notified => exact rep.waitLoop_matched few (by rw [notified]; rfl)
  | spurious_wake allowed asleep => exact rep.waitLoop_matched few (by rw [asleep]; rfl)
  | @read_unlock t holds =>
      have member := rep.inside.mp holds
      have readers := Rwlock.count_release member
      have writers := Rwlock.count_release_ne member (m := .write) (by decide)
      have exact_ : s.lock.readers_active - 1 =
          UInt32.ofNat (Rwlock.count ⟨lock.inside.erase (t, .read), lock.waiting⟩ .read) := by
        rw [rep.readers_active, ← readers, UInt32.ofNat_add]
        exact UInt32.add_sub_cancel _ _
      rw [ticket_rwlock_read_unlock]
      split
      · have before : (s.broadcast .write).phase t = .inside .read := Phase.notify_eq_inside.mpr holds
        obtain ⟨moved, after⟩ := (rep.broadcast .write).release before
          { s.lock with readers_active := s.lock.readers_active - 1 } served
          rep.now_serving rfl exact_ (by rw [writers])
        exact ⟨_, .snoc .nil moved, _, after⟩
      · obtain ⟨moved, after⟩ := rep.release holds
          { s.lock with readers_active := s.lock.readers_active - 1 } served
          rep.now_serving rfl exact_ (by rw [writers])
        exact ⟨_, .snoc .nil moved, _, after⟩
  | @write_unlock t holds =>
      have member := rep.inside.mp holds
      have writers := Rwlock.count_release member
      have readers := Rwlock.count_release_ne member (m := .read) (by decide)
      have alone : lock.count .write = 1 := by
        rw [Rwlock.count, rep.sound.exclusive t member]
        rfl
      have before : ((s.broadcast .read).broadcast .write).phase t = .inside .write :=
        Phase.notify_eq_inside.mpr (Phase.notify_eq_inside.mpr holds)
      obtain ⟨moved, after⟩ := ((rep.broadcast .read).broadcast .write).release before
        { s.lock with now_serving := s.lock.now_serving + 1 } (served + 1)
        (by rw [rep.now_serving]; exact (UInt64.ofNat_add _ 1).symm) rfl
        (by rw [readers]; exact rep.readers_active) (by omega)
      exact ⟨_, .snoc .nil moved, _, after⟩

end Represents

end Refinement

/-! ## Exclusion and order -/

section Results

variable {T : Type} [Fintype T] [DecidableEq T] {spurious : Prop} {history : List (List (Mark T))}
variable {s : Users T}

theorem represented (few : Fintype.card T < 2 ^ 32) (run : Runs (Step spurious) start history s) :
    ∃ lock, Runs Rwlock.Step .free history.flatten lock ∧ ∃ served, Represents s served lock := by
  have simulated : ∃ lock, Runs Rwlock.Step .free (history.flatMap fun marks => marks) lock ∧
      ∃ served, Represents s served lock := by
    refine run.simulated (fun marks => marks) (fun s lock => ∃ served, Represents s served lock)
      ⟨0, Represents.start⟩ ?_
    rintro before marks after lock ⟨served, rep⟩ move
    exact rep.step few move
  rwa [List.flatMap_id'] at simulated

/-- The threads inside are as many as their entries. -/
theorem Represents.count_eq {served : ℕ} {lock : Rwlock T} (rep : Represents s served lock)
    (mode : Mode) : lock.count mode = Fintype.card {t // s.phase t = .inside mode} := by
  have places := rep.sound.distinct
  rw [Rwlock.threads, List.map_append] at places
  have distinct := (List.nodup_append.mp places).1
  have members : (Finset.univ.filter fun t => s.phase t = .inside mode) =
      ((lock.inside.filter fun entry => entry.2 = mode).map Prod.fst).toFinset := by
    ext t
    simp only [Finset.mem_filter, Finset.mem_univ, true_and, List.mem_toFinset, List.mem_map,
      List.mem_filter, decide_eq_true_eq]
    rw [rep.inside]
    constructor
    · exact fun member => ⟨(t, mode), ⟨member, rfl⟩, rfl⟩
    · rintro ⟨⟨u, m⟩, ⟨member, rfl⟩, rfl⟩
      exact member
  rw [Fintype.card_subtype, members, List.toFinset_card_of_nodup, List.length_map, Rwlock.count,
    List.countP_eq_length_filter]
  exact distinct.sublist (List.filter_sublist.map _)

/-- **Exclusion and order.**  At most one writer is inside, and no reader with it;
`readers_active` is the number of readers inside; the lock is granted in the order the
tickets were taken, and those who took one and were not granted the lock yet are
waiting. -/
theorem exclusive_in_order (few : Fintype.card T < 2 ^ 32)
    (run : Runs (Step True) start history s) :
    (∀ t u, s.phase t = .inside .write → s.phase u = .inside .write → t = u) ∧
      (∀ t u, s.phase t = .inside .write → s.phase u ≠ .inside .read) ∧
      s.lock.readers_active.toNat = Fintype.card {t // s.phase t = .inside .read} ∧
      ∃ waiting, arrivals history.flatten = grants history.flatten ++ waiting ∧
        (waiting.map Prod.fst).Nodup ∧
        ∀ t mode, (t, mode) ∈ waiting ↔ ∃ k notified, s.phase t = .asleep mode k notified := by
  obtain ⟨lock, matched, served, rep⟩ := represented few run
  refine ⟨?_, ?_, ?_, lock.waiting, arrivals_eq matched, ?_, ?_⟩
  · intro t u writer other
    exact (rep.sound.together (rep.inside.mp writer) (rep.inside.mp other)).1.symm
  · intro t u writer reader
    have same := (rep.sound.together (rep.inside.mp writer) (rep.inside.mp reader)).2
    cases same
  · rw [rep.readers_active_eq few, rep.count_eq]
  · have places := rep.sound.distinct
    rw [Rwlock.threads, List.map_append] at places
    exact (List.nodup_append.mp places).2.1
  · intro t mode
    constructor
    · intro member
      obtain ⟨k, held⟩ := rep.waiting member
      cases phase : s.phase t with
      | idle | inside => rw [phase] at held; cases held
      | asleep m k' notified =>
          rw [phase] at held
          cases held
          exact ⟨_, _, rfl⟩
    · rintro ⟨k, notified, asleep⟩
      have held : (s.phase t).ticket = some (mode, k) := by
        rw [asleep]
        rfl
      obtain ⟨i, found, -⟩ := rep.ticket held
      exact List.mem_of_getElem? found

theorem exclusive_in_order_two :
    ∃ waiting, [((0 : Fin 2), Mode.read), (1, .write)] = [(0, .read)] ++ waiting ∧
      (waiting.map Prod.fst).Nodup ∧
      ∀ t mode, (t, mode) ∈ waiting ↔
        ∃ k notified, readerThenWriter.phase t = .asleep mode k notified :=
  (exclusive_in_order (by decide) (runs_readerThenWriter True)).2.2.2

end Results

end Users

end ProjetoTSO.Codededup
