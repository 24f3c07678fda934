import ProjetoTSO.Codededup.TicketOrder

/-!
# No lost wake-up

Each section of the ticket lock broadcasts on some of its condition variables only.
What it leaves out it need not wake: a thread that is asleep and was not notified is
kept out by the counters (`no_lost_wakeup`).  For writers this rests on
`readers_active` counting the readers inside, which `2 ^ 32` of them defeat
(`wakeup_lost`).
-/

namespace ProjetoTSO.Codededup

open Transition FifoRwlock

namespace Users

/-! ## Who is kept out -/

section Attentive

variable {T : Type} {s : Users T} {t : T} {k : UInt64}

/-- The test of the loop: the counters keep the holder of a ticket out. -/
def Keeps (lock : TicketRwlock) (mode : Mode) (my_ticket : UInt64) : Prop :=
  match mode with
  | .read => my_ticket ≠ lock.now_serving
  | .write => my_ticket ≠ lock.now_serving ∨ 0 < lock.readers_active

/-- A thread that is asleep and was not notified is kept out by the counters. -/
def Attentive (s : Users T) : Prop :=
  ∀ t mode k, s.phase t = .asleep mode k false → Keeps s.lock mode k

variable [DecidableEq T]

/-- A turn of the loop keeps the threads attentive. -/
theorem waitLoop_attentive (mode : Mode)
    (attentive : ∀ u, u ≠ t → ∀ m k, s.phase u = .asleep m k false → Keeps s.lock m k)
    (counted : 0 < s.lock.readers_active + 1) : Attentive (waitLoop mode t k s).2 := by
  intro u m k' asleep
  cases mode with
  | read =>
      rw [waitLoop] at asleep ⊢
      by_cases blocked : k ≠ s.lock.now_serving
      · rw [readLoop_blocked blocked] at asleep ⊢
        by_cases own : u = t
        · rw [own, setPhase_self] at asleep
          cases asleep
          exact blocked
        · rw [setPhase_ne _ _ own] at asleep
          exact attentive u own m k' asleep
      · rw [readLoop_served (not_not.mp blocked)] at asleep ⊢
        have own : u ≠ t := by
          rintro rfl
          rw [setPhase_self] at asleep
          cases asleep
        rw [setPhase_ne _ _ own] at asleep
        -- the readers were notified, and a writer has to wait for this one
        obtain ⟨-, differ⟩ := Phase.notify_eq_asleep.mp asleep
        cases m with
        | read => exact absurd rfl differ
        | write => exact Or.inr counted
  | write =>
      rw [waitLoop] at asleep ⊢
      by_cases blocked : k ≠ s.lock.now_serving ∨ 0 < s.lock.readers_active
      · rw [writeLoop_blocked blocked] at asleep ⊢
        by_cases own : u = t
        · rw [own, setPhase_self] at asleep
          cases asleep
          exact blocked
        · rw [setPhase_ne _ _ own] at asleep
          exact attentive u own m k' asleep
      · rw [writeLoop_served blocked] at asleep ⊢
        have own : u ≠ t := by
          rintro rfl
          rw [setPhase_self] at asleep
          cases asleep
        rw [setPhase_ne _ _ own] at asleep
        exact attentive u own m k' asleep

end Attentive

/-! ## Wake-ups -/

section Results

variable {T : Type} [Fintype T] [DecidableEq T] {spurious : Prop} {history : List (List (Mark T))}
variable {s : Users T}

/-- With fewer than `2 ^ 32` threads a reader that enters is counted. -/
theorem Represents.counted {served : ℕ} {lock : Rwlock T} (few : Fintype.card T < 2 ^ 32)
    (rep : Represents s served lock) {t : T} (out : s.phase t ≠ .inside .read) :
    0 < s.lock.readers_active + 1 := by
  have below : Fintype.card {t // s.phase t = .inside .read} < Fintype.card T :=
    Fintype.card_subtype_lt out
  have exact_ := rep.readers_active_eq few
  rw [rep.count_eq] at exact_
  have next : (s.lock.readers_active + 1).toNat = s.lock.readers_active.toNat + 1 := by
    rw [UInt32.toNat_add]
    exact Nat.mod_eq_of_lt (by rw [UInt32.toNat_one]; omega)
  rw [UInt32.lt_iff_toNat_lt, next]
  exact Nat.succ_pos _

/-- **Each section keeps the threads attentive**: what a thread does that could let
another in comes with a broadcast to it. -/
theorem Step.attentive (few : Fintype.card T < 2 ^ 32) {served : ℕ} {lock : Rwlock T}
    {marks : List (Mark T)} {after : Users T} (rep : Represents s served lock)
    (attentive : Attentive s) (step : Step spurious s marks after) : Attentive after := by
  cases step with
  | @read_lock t idle =>
      have counted := rep.counted few (t := t) (by rw [idle]; simp)
      exact waitLoop_attentive .read (s := s.takeTicket) (fun u _ => attentive u) counted
  | @write_lock t idle =>
      have counted := rep.counted few (t := t) (by rw [idle]; simp)
      exact waitLoop_attentive .write (s := s.takeTicket) (fun u _ => attentive u) counted
  | wake notified =>
      exact waitLoop_attentive _ (fun u _ => attentive u) (rep.counted few (by rw [notified]; simp))
  | spurious_wake allowed asleep =>
      exact waitLoop_attentive _ (fun u _ => attentive u) (rep.counted few (by rw [asleep]; simp))
  | @read_unlock t holds =>
      intro u m k asleep
      have own : u ≠ t := by
        rintro rfl
        rw [ticket_rwlock_read_unlock, setPhase_self] at asleep
        cases asleep
      rw [ticket_rwlock_read_unlock, setPhase_ne _ _ own] at asleep
      rw [ticket_rwlock_read_unlock, setPhase_lock]
      by_cases last : s.lock.readers_active - 1 = 0
      · rw [if_pos last] at asleep ⊢
        obtain ⟨before, differ⟩ := Phase.notify_eq_asleep.mp asleep
        cases m with
        | read => exact attentive u .read k before
        | write => exact absurd rfl differ
      · rw [if_neg last] at asleep ⊢
        cases m with
        | read => exact attentive u .read k asleep
        | write => exact Or.inr (UInt32.pos_iff_ne_zero.mpr last)
  | @write_unlock t holds =>
      intro u m k asleep
      have own : u ≠ t := by
        rintro rfl
        rw [ticket_rwlock_write_unlock, setPhase_self] at asleep
        cases asleep
      rw [ticket_rwlock_write_unlock, setPhase_ne _ _ own] at asleep
      obtain ⟨first, writers⟩ := Phase.notify_eq_asleep.mp asleep
      obtain ⟨-, readers⟩ := Phase.notify_eq_asleep.mp first
      cases m with
      | read => exact absurd rfl readers
      | write => exact absurd rfl writers

/-- **No lost wake-up.**  A thread that is asleep and was not notified is kept out by
the counters; so when nobody is inside and somebody waits, a thread was notified. -/
theorem no_lost_wakeup (few : Fintype.card T < 2 ^ 32)
    (run : Runs (Step False) start history s) :
    (∀ t k, s.phase t = .asleep .read k false → k ≠ s.lock.now_serving) ∧
      (∀ t k, s.phase t = .asleep .write k false →
        k ≠ s.lock.now_serving ∨ 0 < s.lock.readers_active) ∧
      ¬ ((∀ t mode, s.phase t ≠ .inside mode) ∧ (∃ t, s.phase t ≠ .idle) ∧
        ∀ t, s.phase t ≠ .idle → ∃ mode k, s.phase t = .asleep mode k false) := by
  have attentive : Attentive s := by
    refine run.invariant (fun _ s => Attentive s) (fun t mode k asleep => by cases asleep) ?_
    intro history s marks after earlier before move
    obtain ⟨lock, -, served, rep⟩ := represented few earlier
    exact Step.attentive few rep before move
  refine ⟨fun t k => attentive t .read k, fun t k => attentive t .write k, ?_⟩
  rintro ⟨nobody, ⟨t, waits⟩, unnotified⟩
  obtain ⟨lock, -, served, rep⟩ := represented few run
  have empty : ∀ mode, lock.count mode = 0 := fun mode =>
    Rwlock.count_eq_zero.mpr fun u member => nobody u mode (rep.inside.mpr member)
  -- the head of the queue is being served
  cases queue : lock.waiting with
  | nil =>
      have placed := (rep.place t).mpr waits
      rw [Rwlock.threads, Rwlock.inside_eq_nil (empty .read) (empty .write), queue] at placed
      cases placed
  | cons entry rest =>
      have first : (entry.1, entry.2) ∈ lock.waiting := by
        rw [queue]
        exact List.mem_cons_self
      obtain ⟨k, held⟩ := rep.waiting first
      have busy : s.phase entry.1 ≠ .idle := by
        intro idle
        rw [idle] at held
        cases held
      obtain ⟨mode, k', asleep⟩ := unnotified entry.1 busy
      have turn : k = s.lock.now_serving :=
        (rep.serving few held).mpr ⟨empty .write, by rw [queue]; rfl⟩
      rw [asleep] at held
      cases held
      have readers := rep.readers_active_eq few
      have kept := attentive entry.1 entry.2 k asleep
      cases mode : entry.2 with
      | read =>
          rw [mode] at kept
          exact kept turn
      | write =>
          rw [mode] at kept
          rcases kept with differ | some_
          · exact differ turn
          · have positive : 0 < s.lock.readers_active.toNat := some_
            rw [readers, empty] at positive
            exact absurd positive (lt_irrefl _)

theorem no_lost_wakeup_two :
    readerThenWriter.phase 1 = .asleep .write 1 false ∧
      (1 ≠ readerThenWriter.lock.now_serving ∨ 0 < readerThenWriter.lock.readers_active) :=
  ⟨rfl, (no_lost_wakeup (by decide) (runs_readerThenWriter False)).2.1 1 1 rfl⟩

end Results

/-! ## More readers than the counter can count -/

section Crowd

variable {n : ℕ}

/-- The threads are numbered from 0. -/
def crowd (lock : TicketRwlock) (phase : ℕ → Phase) : Users (Fin n) := ⟨lock, fun t => phase t⟩

/-- The first thread is inside as a writer; `k` readers have queued up. -/
def queueing (k i : ℕ) : Phase :=
  if i = 0 then .inside .write
  else if i ≤ k then .asleep .read (.ofNat i) false
  else .idle

/-- The first thread has left; `k` of the readers are inside, and the last thread is
asleep as a writer. -/
def entering (n k i : ℕ) : Phase :=
  if i = 0 then .idle
  else if i ≤ k then .inside .read
  else if i < n + 1 then .asleep .read (.ofNat i) true
  else .asleep .write (.ofNat i) false

theorem crowd_setPhase (lock : TicketRwlock) (phase : ℕ → Phase) (t : Fin n) (p : Phase) :
    (crowd lock phase : Users (Fin n)).setPhase t p =
      crowd lock (Function.update phase t p) := by
  simp only [crowd, setPhase, Users.mk.injEq, true_and]
  funext u
  by_cases own : u = t
  · simp [own]
  · have apart : (u : ℕ) ≠ t := fun same => own (Fin.ext same)
    simp [own, apart]

theorem ofNat_inj {i j : ℕ} (left : i < 2 ^ 64) (right : j < 2 ^ 64)
    (same : UInt64.ofNat i = UInt64.ofNat j) : i = j := by
  have residues := congrArg UInt64.toNat same
  rwa [UInt64.toNat_ofNat', UInt64.toNat_ofNat', Nat.mod_eq_of_lt left,
    Nat.mod_eq_of_lt right] at residues

/-- Some run without spurious wake-ups leads there. -/
def Reached (s : Users (Fin n)) : Prop := ∃ history, Runs (Step False) start history s

theorem Reached.step {s t : Users (Fin n)} {marks : List (Mark (Fin n))} (reached : Reached s)
    (step : Step False s marks t) : Reached t := by
  obtain ⟨history, run⟩ := reached
  exact ⟨_, run.snoc step⟩

/-- All the readers queue up behind the writer. -/
theorem reached_queueing (bound : n + 2 < 2 ^ 64) (k : ℕ) (enough : k ≤ n) :
    Reached (crowd ⟨.ofNat (1 + k), 0, 0⟩ (queueing k) : Users (Fin (n + 2))) := by
  induction k with
  | zero =>
      have step := Reached.step ⟨[], .nil⟩ (.write_lock (s := start) (t := (0 : Fin (n + 2))) rfl)
      have entered : (ticket_rwlock_write_lock (0 : Fin (n + 2)) start).2 =
          crowd ⟨.ofNat (1 + 0), 0, 0⟩ (queueing 0) := by
        show (setPhase (crowd ⟨1, 0, 0⟩ fun _ => .idle) 0 _ : Users (Fin (n + 2))) = _
        rw [crowd_setPhase]
        refine congrArg _ (funext fun i => ?_)
        by_cases first : i = 0
        · simp [queueing, first]
        · have later : ¬ i ≤ 0 := by omega
          simp [queueing, first]
      rwa [entered] at step
  | succ k ih =>
      have behind : queueing k (k + 1) = .idle := by simp [queueing]
      have step := (ih (by omega)).step
        (.read_lock (t := (⟨k + 1, by omega⟩ : Fin (n + 2))) behind)
      have blocked : UInt64.ofNat (1 + k) ≠ 0 := fun same => by
        have := ofNat_inj (i := 1 + k) (j := 0) (by omega) (by decide) same
        omega
      have queued : (ticket_rwlock_read_lock (⟨k + 1, by omega⟩ : Fin (n + 2))
          (crowd ⟨.ofNat (1 + k), 0, 0⟩ (queueing k))).2 =
            crowd ⟨.ofNat (1 + (k + 1)), 0, 0⟩ (queueing (k + 1)) := by
        rw [ticket_rwlock_read_lock, readLoop_blocked blocked]
        show (setPhase (crowd ⟨.ofNat (1 + k) + 1, 0, 0⟩ (queueing k)) _ _ : Users (Fin (n + 2))) = _
        rw [crowd_setPhase, show UInt64.ofNat (1 + k) + 1 = .ofNat (1 + (k + 1)) from
          (UInt64.ofNat_add (1 + k) 1).symm]
        refine congrArg _ (funext fun i => ?_)
        by_cases own : i = k + 1
        · simp [queueing, own, crowd, Nat.add_comm]
        · have same : i ≤ k + 1 ↔ i ≤ k := by omega
          simp [queueing, own, same]
      rwa [queued] at step

/-- Another writer queues up behind the readers. -/
theorem reached_queued (bound : n + 2 < 2 ^ 64) :
    Reached (crowd ⟨.ofNat (n + 2), 0, 0⟩
      (Function.update (queueing n) (n + 1) (.asleep .write (.ofNat (n + 1)) false)) :
        Users (Fin (n + 2))) := by
  have outside : queueing n (n + 1) = .idle := by simp [queueing]
  have step := (reached_queueing bound n le_rfl).step
    (.write_lock (t := Fin.last (n + 1)) outside)
  have blocked : UInt64.ofNat (1 + n) ≠ 0 ∨ 0 < (0 : UInt32) := Or.inl fun same => by
    have := ofNat_inj (i := 1 + n) (j := 0) (by omega) (by decide) same
    omega
  have queued : (ticket_rwlock_write_lock (Fin.last (n + 1))
      (crowd ⟨.ofNat (1 + n), 0, 0⟩ (queueing n))).2 = crowd ⟨.ofNat (n + 2), 0, 0⟩
        (Function.update (queueing n) (n + 1) (.asleep .write (.ofNat (n + 1)) false)) := by
    rw [ticket_rwlock_write_lock, writeLoop_blocked blocked]
    show (setPhase (crowd ⟨.ofNat (1 + n) + 1, 0, 0⟩ (queueing n)) _
      (.asleep .write (.ofNat (1 + n)) false) : Users (Fin (n + 2))) = _
    rw [crowd_setPhase, Fin.val_last, Nat.add_comm 1 n, show UInt64.ofNat (n + 1) + 1 = .ofNat (n + 2) from
      (UInt64.ofNat_add (n + 1) 1).symm]
  rwa [queued] at step

/-- The writer inside leaves; the other one wakes up, and goes back to sleep. -/
theorem reached_entering (bound : n + 2 < 2 ^ 64) (some_ : 0 < n) :
    Reached (crowd ⟨.ofNat (n + 2), 1, 0⟩ (entering n 0) : Users (Fin (n + 2))) := by
  have inside : Function.update (queueing n) (n + 1) (.asleep .write (.ofNat (n + 1)) false) 0 =
      .inside .write := by simp [queueing]
  have left := (reached_queued bound).step (.write_unlock (t := (0 : Fin (n + 2))) inside)
  have woken : (ticket_rwlock_write_unlock (0 : Fin (n + 2)) (crowd ⟨.ofNat (n + 2), 0, 0⟩
      (Function.update (queueing n) (n + 1) (.asleep .write (.ofNat (n + 1)) false)))).2 =
        crowd ⟨.ofNat (n + 2), 1, 0⟩
          (Function.update (entering n 0) (n + 1) (.asleep .write (.ofNat (n + 1)) true)) := by
    show (setPhase (crowd ⟨.ofNat (n + 2), 1, 0⟩ fun i => ((Function.update (queueing n) (n + 1)
      (.asleep .write (.ofNat (n + 1)) false) i).notify .read).notify .write) 0 .idle :
        Users (Fin (n + 2))) = _
    rw [crowd_setPhase, crowd, crowd, Users.mk.injEq]
    refine ⟨rfl, funext fun t => ?_⟩
    have below := t.isLt
    by_cases last : (t : ℕ) = n + 1
    · simp [last, Phase.notify]
    · by_cases first : (t : ℕ) = 0
      · simp [first, entering]
      · have reader : (t : ℕ) ≤ n ∧ (t : ℕ) < n + 1 := by omega
        simp [last, first, queueing, entering, reader, Phase.notify]
  rw [woken] at left
  have sleeping : Function.update (entering n 0) (n + 1)
      (.asleep .write (.ofNat (n + 1)) true) (n + 1) = .asleep .write (.ofNat (n + 1)) true :=
    Function.update_self _ _ _
  have step := left.step (.wake (t := Fin.last (n + 1)) sleeping)
  have blocked : UInt64.ofNat (n + 1) ≠ 1 ∨ 0 < (0 : UInt32) := Or.inl fun same => by
    have := ofNat_inj (i := n + 1) (j := 1) (by omega) (by decide) same
    omega
  have asleep : (waitLoop .write (Fin.last (n + 1)) (.ofNat (n + 1))
      (crowd ⟨.ofNat (n + 2), 1, 0⟩
        (Function.update (entering n 0) (n + 1) (.asleep .write (.ofNat (n + 1)) true)))).2 =
        crowd ⟨.ofNat (n + 2), 1, 0⟩ (entering n 0) := by
    rw [waitLoop, writeLoop_blocked blocked]
    show (setPhase (crowd ⟨.ofNat (n + 2), 1, 0⟩ _) _ _ : Users (Fin (n + 2))) = _
    rw [crowd_setPhase, Fin.val_last, Function.update_idem]
    refine congrArg _ (Function.update_eq_self_iff.mpr ?_)
    simp [entering]
  rwa [asleep] at step

/-- The readers go in one by one. -/
theorem reached_entered (bound : n + 2 < 2 ^ 64) (some_ : 0 < n) (k : ℕ) (enough : k ≤ n) :
    Reached (crowd ⟨.ofNat (n + 2), .ofNat (1 + k), .ofNat k⟩ (entering n k) :
      Users (Fin (n + 2))) := by
  induction k with
  | zero => exact reached_entering bound some_
  | succ k ih =>
      have next : entering n k (k + 1) = .asleep .read (.ofNat (k + 1)) true := by
        have small : k + 1 < n + 1 := by omega
        simp [entering, small]
      have step := (ih (by omega)).step
        (.wake (t := (⟨k + 1, by omega⟩ : Fin (n + 2))) next)
      have entered : (waitLoop .read (⟨k + 1, by omega⟩ : Fin (n + 2)) (.ofNat (k + 1))
          (crowd ⟨.ofNat (n + 2), .ofNat (1 + k), .ofNat k⟩ (entering n k))).2 =
            crowd ⟨.ofNat (n + 2), .ofNat (1 + (k + 1)), .ofNat (k + 1)⟩ (entering n (k + 1)) := by
        have serving : UInt64.ofNat (k + 1) = .ofNat (1 + k) := by rw [Nat.add_comm k 1]
        rw [waitLoop, readLoop_served serving]
        show (setPhase (crowd ⟨.ofNat (n + 2), .ofNat (1 + k) + 1, .ofNat k + 1⟩
          fun i => (entering n k i).notify .read) _ _ : Users (Fin (n + 2))) = _
        rw [crowd_setPhase, ← show UInt64.ofNat (1 + (k + 1)) = .ofNat (1 + k) + 1 from
          UInt64.ofNat_add (1 + k) 1, ← show UInt32.ofNat (k + 1) = .ofNat k + 1 from
          UInt32.ofNat_add k 1]
        refine congrArg _ (funext fun i => ?_)
        by_cases own : i = k + 1
        · simp [entering, own]
        · have same : i ≤ k + 1 ↔ i ≤ k := by omega
          rw [Function.update_of_ne own]
          simp only [entering, same]
          split_ifs <;> rfl
      rwa [entered] at step

/-- When all the readers are inside and their number is 0 as an `unsigned int`, the
writer whose turn it is sleeps, and was not notified. -/
theorem reached_lost (bound : n + 2 < 2 ^ 64) (some_ : 0 < n) (wraps : UInt32.ofNat n = 0) :
    ∃ s : Users (Fin (n + 2)), Reached s ∧ ∃ t k, s.phase t = .asleep .write k false ∧
      k = s.lock.now_serving ∧ s.lock.readers_active = 0 := by
  refine ⟨_, reached_entered bound some_ n le_rfl, Fin.last (n + 1), .ofNat (n + 1), ?_, ?_, wraps⟩
  · show entering n n (n + 1) = _
    simp [entering]
  · show UInt64.ofNat (n + 1) = .ofNat (1 + n)
    rw [Nat.add_comm]

/-- With `2 ^ 32` readers inside, `readers_active` is 0 again. -/
theorem wakeup_lost :
    ¬ ∀ (T : Type) [Fintype T] [DecidableEq T] (history : List (List (Mark T))) (s : Users T),
      Runs (Step False) start history s → ∀ t k, s.phase t = .asleep .write k false →
        k ≠ s.lock.now_serving ∨ 0 < s.lock.readers_active := by
  intro claim
  obtain ⟨s, ⟨history, run⟩, t, k, asleep, turn, none_⟩ :=
    reached_lost (n := 2 ^ 32) (by decide) (by decide) (by decide)
  rcases claim _ history s run t k asleep with differ | some_
  · exact differ turn
  · rw [none_] at some_
    exact absurd some_ (by decide)

end Crowd

end Users

end ProjetoTSO.Codededup
