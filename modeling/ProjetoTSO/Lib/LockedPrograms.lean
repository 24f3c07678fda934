import Mathlib.Data.List.Count
import Mathlib.Data.Fintype.Card
import Mathlib.Order.WellFounded
import ProjetoTSO.Lib.FifoRwlock

/-!
# Threads that share a state and locks

A thread runs a program: it takes and releases locks, acts on a state it shares with the
other threads, and asks the system for something whose outcome it does not determine.
Between two steps of a thread any other thread may take any number of steps.

Locks are first-in first-out readers-writer locks, or mutexes that may serve anyone who
waits.

* `Machine.Step` — one step of one thread.
* `Discipline` — a rank for every lock, and an invariant of the shared state that refers
  to the threads by their frames only.  `Follows` says of a program, step by step, that it
  takes locks in the order of their ranks and keeps the invariant whatever the others do
  within the discipline.
* `Abides.step` — threads that follow a discipline abide by it along every run.
* `Abides.not_all_blocked` — they do not run into a deadlock.
* `grants_eq` — what a thread was granted and has not released, it holds.

## Design notes

**Frames.**  What other threads' arguments may refer to is not a thread's program but its
frame, which acts and releases set.  The invariant of a discipline speaks of frames, and `fits`
says which locks a frame stands for.
-/

namespace LockedPrograms

open Transition FifoRwlock

/-- A program of one thread. -/
inductive Prog (σ Λ L R : Type) : Type 1
  | ret (value : R)
  | acquire (lock : L) (mode : Mode) (next : Prog σ Λ L R)
  /-- The thread's frame becomes `frame`. -/
  | release (lock : L) (mode : Mode) (frame : Λ) (next : Prog σ Λ L R)
  /-- One atomic step on the shared state; the thread's frame becomes `frame` of its
  result. -/
  | act {α : Type} (run : σ → α × σ) (frame : α → Λ) (next : α → Prog σ Λ L R)
  /-- The system answers as it likes. -/
  | ask {ε : Type} [Inhabited ε] (next : ε → Prog σ Λ L R)

deriving instance DecidableEq for Mark

/-- What happens: to a lock, or inside a thread. -/
inductive Event (T L : Type)
  | lock (lock : L) (mark : Mark T)
  | act (t : T)
  | ask (t : T)
deriving DecidableEq

structure Machine (T σ Λ L R : Type) where
  shared : σ
  locks : L → Rwlock T
  frame : T → Λ
  prog : T → Prog σ Λ L R

variable {T σ Λ L R ρ : Type}

/-- The thread that takes the step. -/
def Event.thread : Event T L → T
  | .lock _ (.arrive t _) => t
  | .lock _ (.grant t _) => t
  | .lock _ (.release t _) => t
  | .act t => t
  | .ask t => t

namespace Machine

/-- Every lock is free, and every thread at the start of its program. -/
def start (shared : σ) (frame : Λ) (prog : T → Prog σ Λ L R) : Machine T σ Λ L R where
  shared := shared
  locks := fun _ => .free
  frame := fun _ => frame
  prog := prog

def Unfinished (m : Machine T σ Λ L R) (t : T) : Prop := ∀ value, m.prog t ≠ .ret value

/-- The thread is about to take the lock, or waits for it. -/
def Wants (m : Machine T σ Λ L R) (t : T) (lock : L) : Prop :=
  ∃ mode next, m.prog t = .acquire lock mode next

theorem Wants.unique {m : Machine T σ Λ L R} {t : T} {lock other : L} (wants : m.Wants t lock)
    (again : m.Wants t other) : other = lock := by
  obtain ⟨_, _, here⟩ := wants
  obtain ⟨_, _, there⟩ := again
  rw [here] at there
  cases there
  rfl

theorem Wants.unfinished {m : Machine T σ Λ L R} {t : T} {lock : L} (wants : m.Wants t lock) :
    m.Unfinished t := by
  obtain ⟨_, _, here⟩ := wants
  intro value finished
  rw [here] at finished
  cases finished

def setLock [DecidableEq L] (m : Machine T σ Λ L R) (lock : L) (after : Rwlock T) :
    Machine T σ Λ L R :=
  { m with locks := Function.update m.locks lock after }

def setProg [DecidableEq T] (m : Machine T σ Λ L R) (t : T) (next : Prog σ Λ L R) :
    Machine T σ Λ L R :=
  { m with prog := Function.update m.prog t next }

/-- The thread acts: the shared state and its frame change. -/
def setShared [DecidableEq T] (m : Machine T σ Λ L R) (t : T) (shared : σ) (frame : Λ) :
    Machine T σ Λ L R :=
  { m with
    shared := shared
    frame := Function.update m.frame t frame }

theorem setLock_locks [DecidableEq L] (m : Machine T σ Λ L R) (lock : L) (after : Rwlock T) :
    (m.setLock lock after).locks = Function.update m.locks lock after := rfl

theorem setShared_locks [DecidableEq T] (m : Machine T σ Λ L R) (t : T) (shared : σ)
    (frame : Λ) : (m.setShared t shared frame).locks = m.locks := rfl

theorem setProg_locks [DecidableEq T] (m : Machine T σ Λ L R) (t : T) (next : Prog σ Λ L R) :
    (m.setProg t next).locks = m.locks := rfl

end Machine

/-- Every act of the program, whatever it is done on, is one of `acts`. -/
def Prog.Acts (acts : σ → σ → Prop) : Prog σ Λ L R → Prop
  | .ret _ => True
  | .acquire _ _ next => next.Acts acts
  | .release _ _ _ next => next.Acts acts
  | .act run _ next => ∀ s, acts s (run s).2 ∧ (next (run s).1).Acts acts
  | @Prog.ask _ _ _ _ ε _ next => ∀ answer : ε, (next answer).Acts acts

namespace Prog

variable {acts : σ → σ → Prop} {lock : L} {mode : Mode} {next : Prog σ Λ L R}

theorem acts_acquire : (Prog.acquire lock mode next).Acts acts ↔ next.Acts acts := Iff.rfl

theorem acts_ask {ε : Type} [Inhabited ε] {next : ε → Prog σ Λ L R} :
    (Prog.ask next).Acts acts ↔ ∀ answer, (next answer).Acts acts := Iff.rfl

end Prog

namespace Machine

variable [DecidableEq T] [DecidableEq L]

/-- One step of one thread.  A lock that is not `fifo` is a mutex. -/
inductive Step (fifo : L → Prop) (m : Machine T σ Λ L R) : Event T L → Machine T σ Λ L R → Prop
  | arrive {t : T} {lock : L} {mode : Mode} {next : Prog σ Λ L R} {after : Rwlock T}
      (here : m.prog t = .acquire lock mode next) (queued : fifo lock)
      (moved : (m.locks lock).Step (.arrive t mode) after) :
      Step fifo m (.lock lock (.arrive t mode)) (m.setLock lock after)
  | grant {t : T} {lock : L} {mode : Mode} {next : Prog σ Λ L R} {after : Rwlock T}
      (here : m.prog t = .acquire lock mode next) (queued : fifo lock)
      (moved : (m.locks lock).Step (.grant t mode) after) :
      Step fifo m (.lock lock (.grant t mode)) ((m.setLock lock after).setProg t next)
  | seize {t : T} {lock : L} {mode : Mode} {next : Prog σ Λ L R}
      (here : m.prog t = .acquire lock mode next) (mutex : ¬ fifo lock)
      (idle : (m.locks lock).inside = []) :
      Step fifo m (.lock lock (.grant t mode)) ((m.setLock lock ⟨[(t, mode)], []⟩).setProg t next)
  | release {t : T} {lock : L} {mode : Mode} {frame : Λ} {next : Prog σ Λ L R} {after : Rwlock T}
      (here : m.prog t = .release lock mode frame next)
      (moved : (m.locks lock).Step (.release t mode) after) :
      Step fifo m (.lock lock (.release t mode))
        (((m.setLock lock after).setShared t m.shared frame).setProg t next)
  | act {t : T} {α : Type} {run : σ → α × σ} {frame : α → Λ} {next : α → Prog σ Λ L R}
      (here : m.prog t = .act run frame next) :
      Step fifo m (.act t)
        ((m.setShared t (run m.shared).2 (frame (run m.shared).1)).setProg t
          (next (run m.shared).1))
  | ask {t : T} {ε : Type} [Inhabited ε] {next : ε → Prog σ Λ L R}
      (here : m.prog t = .ask next) (answer : ε) :
      Step fifo m (.ask t) (m.setProg t (next answer))

/-- A step of threads whose programs consist of `acts` is one of them, or none. -/
theorem Step.acts {fifo : L → Prop} {m after : Machine T σ Λ L R} {event : Event T L}
    {acts : σ → σ → Prop} (step : m.Step fifo event after) (same : ∀ s, acts s s)
    (programs : ∀ t, (m.prog t).Acts acts) :
    acts m.shared after.shared ∧ ∀ t, (after.prog t).Acts acts := by
  have update : ∀ {t : T} {next : Prog σ Λ L R}, next.Acts acts →
      ∀ u, (Function.update m.prog t next u).Acts acts := by
    intro t next follows u
    rcases eq_or_ne u t with rfl | differ
    · rwa [Function.update_self]
    · rw [Function.update_of_ne differ]
      exact programs u
  cases step with
  | arrive => exact ⟨same _, programs⟩
  | @grant t lock mode next _ here =>
      have own := programs t
      rw [here] at own
      exact ⟨same _, update own⟩
  | @seize t lock mode next here =>
      have own := programs t
      rw [here] at own
      exact ⟨same _, update own⟩
  | @release t lock mode frame next _ here =>
      have own := programs t
      rw [here] at own
      exact ⟨same _, update own⟩
  | @act t α run frame next here =>
      have own := programs t
      rw [here] at own
      exact ⟨(own m.shared).1, update (own m.shared).2⟩
  | @ask t ε _ next here answer =>
      have own := programs t
      rw [here] at own
      exact ⟨same _, update (own answer)⟩

/-- A step is taken by a thread that is not finished, and leaves the others where they are. -/
theorem Step.others {fifo : L → Prop} {m after : Machine T σ Λ L R} {event : Event T L}
    (step : m.Step fifo event after) : m.Unfinished event.thread ∧
      ∀ t, t ≠ event.thread → after.prog t = m.prog t ∧ after.frame t = m.frame t := by
  have unfinished : ∀ {t : T} {prog : Prog σ Λ L R}, m.prog t = prog →
      (∀ value, prog ≠ .ret value) → m.Unfinished t := by
    intro t prog here goes value finished
    exact goes value (here.symm.trans finished)
  cases step with
  | arrive here => exact ⟨unfinished here fun _ => by simp, fun t _ => ⟨rfl, rfl⟩⟩
  | grant here =>
      exact ⟨unfinished here fun _ => by simp, fun t differ => ⟨Function.update_of_ne differ _ _, rfl⟩⟩
  | seize here =>
      exact ⟨unfinished here fun _ => by simp, fun t differ => ⟨Function.update_of_ne differ _ _, rfl⟩⟩
  | release here =>
      exact ⟨unfinished here fun _ => by simp, fun t differ =>
        ⟨Function.update_of_ne differ _ _, Function.update_of_ne differ _ _⟩⟩
  | act here =>
      exact ⟨unfinished here fun _ => by simp, fun t differ =>
        ⟨Function.update_of_ne differ _ _, Function.update_of_ne differ _ _⟩⟩
  | ask here =>
      exact ⟨unfinished here fun _ => by simp, fun t differ => ⟨Function.update_of_ne differ _ _, rfl⟩⟩

/-- Who has returned stays where it is. -/
theorem Step.finished {fifo : L → Prop} {m after : Machine T σ Λ L R} {event : Event T L} {t : T}
    {value : R} (step : m.Step fifo event after) (done : m.prog t = .ret value) :
    t ≠ event.thread ∧ after.prog t = .ret value ∧ after.frame t = m.frame t := by
  obtain ⟨unfinished, others⟩ := step.others
  have differ : t ≠ event.thread := by
    rintro rfl
    exact unfinished value done
  exact ⟨differ, (others t differ).1.trans done, (others t differ).2⟩

/-- The thread cannot take a step. -/
def Blocked (fifo : L → Prop) (m : Machine T σ Λ L R) (t : T) : Prop :=
  ∀ event after, event.thread = t → ¬ Step fifo m event after

end Machine

/-! ## Disciplines -/

structure Discipline (T σ Λ L R ρ : Type) where
  rank : L → ρ
  /-- What the locks a thread holds have to do with its frame. -/
  fits : List (L × Mode) → Λ → Prop
  fits_perm : ∀ {held held' frame}, held.Perm held' → fits held frame → fits held' frame
  /-- The invariant. -/
  keeps : (T → Λ) → σ → Prop
  /-- The acts that are considered. -/
  allowed : (T → Λ) → σ → T → Λ → σ → Prop
  /-- What a thread returns has to do with its frame. -/
  returns : T → Λ → R → Prop

namespace Discipline

/-- Who holds a lock to write holds it alone. -/
def Exclusive (held : T → List (L × Mode)) : Prop :=
  ∀ {t u lock mode}, (lock, Mode.write) ∈ held t → (lock, mode) ∈ held u → u = t

/-- What a thread may rely on. -/
structure Scene (d : Discipline T σ Λ L R ρ) (held : T → List (L × Mode)) (frames : T → Λ)
    (s : σ) : Prop where
  keeps : d.keeps frames s
  fits : ∀ t, d.fits (held t) (frames t)
  exclusive : Exclusive held

/-- The order in which a thread took its locks does not matter to the others. -/
theorem Scene.perm [DecidableEq T] {d : Discipline T σ Λ L R ρ} {others : T → List (L × Mode)} {frames : T → Λ}
    {s : σ} (scene : d.Scene others frames s) {t : T} {held : List (L × Mode)}
    (perm : (others t).Perm held) : d.Scene (Function.update others t held) frames s where
  keeps := scene.keeps
  fits u := by
    rcases eq_or_ne u t with rfl | differ
    · rw [Function.update_self]
      exact d.fits_perm perm (scene.fits u)
    · rw [Function.update_of_ne differ]
      exact scene.fits u
  exclusive {u v lock mode} writer other := by
    have same : ∀ {w mode}, (lock, mode) ∈ Function.update others t held w →
        (lock, mode) ∈ others w := by
      intro w mode member
      rcases eq_or_ne w t with rfl | differ
      · rw [Function.update_self] at member
        exact perm.mem_iff.mpr member
      · rwa [Function.update_of_ne differ] at member
    exact scene.exclusive (same writer) (same other)

variable [DecidableEq T] [DecidableEq L] [Preorder ρ]

/-- From here on the program of `t`, which holds `held` and has this frame, follows the
discipline. -/
def Follows (d : Discipline T σ Λ L R ρ) (t : T) : Prog σ Λ L R → List (L × Mode) → Λ → Prop
  | .ret value, held, frame => d.fits held frame ∧ held = [] ∧ d.returns t frame value
  | .acquire lock mode next, held, frame =>
      d.fits held frame ∧ (∀ entry ∈ held, d.rank entry.1 < d.rank lock) ∧
        d.Follows t next ((lock, mode) :: held) frame
  | .release lock mode frame' next, held, frame =>
      d.fits held frame ∧ (lock, mode) ∈ held ∧
        (∀ others frames s, d.Scene others frames s → others t = held → frames t = frame →
          d.keeps (Function.update frames t frame') s) ∧
        d.Follows t next (held.erase (lock, mode)) frame'
  | .act run frame' next, held, frame =>
      d.fits held frame ∧ ∀ others frames s, d.Scene others frames s → others t = held →
        frames t = frame → d.allowed frames s t (frame' (run s).1) (run s).2 →
          d.keeps (Function.update frames t (frame' (run s).1)) (run s).2 ∧
            d.Follows t (next (run s).1) held (frame' (run s).1)
  | @Prog.ask _ _ _ _ ε _ next, held, frame =>
      d.fits held frame ∧ ∀ answer : ε, d.Follows t (next answer) held frame

theorem Follows.fits {d : Discipline T σ Λ L R ρ} {t : T} {prog : Prog σ Λ L R}
    {held : List (L × Mode)} {frame : Λ} (follows : d.Follows t prog held frame) :
    d.fits held frame := by
  cases prog with
  | ret => exact follows.1
  | acquire => exact follows.1
  | release => exact follows.1
  | act => exact follows.1
  | ask => exact follows.1

namespace Follows

variable {d : Discipline T σ Λ L R ρ} {t : T} {held held' rest : List (L × Mode)} {frame : Λ}
variable {prog next : Prog σ Λ L R} {lock : L} {mode : Mode}

theorem perm (follows : d.Follows t prog held frame) (perm : held.Perm held') :
    d.Follows t prog held' frame := by
  have scene_perm : ∀ {others : T → List (L × Mode)} {frames : T → Λ} {s : σ}
      {held held' : List (L × Mode)}, held.Perm held' → d.Scene others frames s →
        others t = held' → ∃ others', d.Scene others' frames s ∧ others' t = held := by
    intro others frames s held held' perm scene own
    exact ⟨_, scene.perm (t := t) (own ▸ perm.symm), Function.update_self ..⟩
  induction prog generalizing held held' frame with
  | ret value =>
      obtain ⟨fits, none_, returns⟩ := follows
      exact ⟨d.fits_perm perm fits, (none_ ▸ perm).nil_eq.symm, returns⟩
  | acquire lock mode next ih =>
      obtain ⟨fits, above, follows⟩ := follows
      exact ⟨d.fits_perm perm fits, fun entry member => above entry (perm.mem_iff.mpr member),
        ih follows (perm.cons _)⟩
  | release lock mode frame' next ih =>
      obtain ⟨fits, member, keeps, follows⟩ := follows
      refine ⟨d.fits_perm perm fits, perm.mem_iff.mp member, ?_, ih follows (perm.erase _)⟩
      intro others frames s scene own here
      obtain ⟨others', scene', own'⟩ := scene_perm perm scene own
      exact keeps others' frames s scene' own' here
  | act run frame' next ih =>
      obtain ⟨fits, follows⟩ := follows
      refine ⟨d.fits_perm perm fits, fun others frames s scene own here allowed => ?_⟩
      obtain ⟨others', scene', own'⟩ := scene_perm perm scene own
      obtain ⟨keeps, follows⟩ := follows others' frames s scene' own' here allowed
      exact ⟨keeps, ih _ follows perm⟩
  | ask next ih =>
      obtain ⟨fits, follows⟩ := follows
      exact ⟨d.fits_perm perm fits, fun answer => ih answer (follows answer) perm⟩

/-- A release, with what is held after it. -/
theorem release {frame' : Λ} (perm : held.Perm ((lock, mode) :: rest)) (fits : d.fits held frame)
    (keeps : ∀ others frames s, d.Scene others frames s → others t = held → frames t = frame →
      d.keeps (Function.update frames t frame') s)
    (follows : d.Follows t next rest frame') :
    d.Follows t (.release lock mode frame' next) held frame := by
  refine ⟨fits, perm.mem_iff.mpr List.mem_cons_self, keeps, follows.perm ?_⟩
  have erased := perm.erase (lock, mode)
  rw [List.erase_cons_head] at erased
  exact erased.symm

/-- A release that leaves the frame alone. -/
theorem release_same (perm : held.Perm ((lock, mode) :: rest)) (fits : d.fits held frame)
    (follows : d.Follows t next rest frame) :
    d.Follows t (.release lock mode frame next) held frame := by
  refine release perm fits (fun others frames s scene own here => ?_) follows
  rw [← here, Function.update_eq_self]
  exact scene.keeps

end Follows

end Discipline

/-! ## Who holds what -/

/-- The threads inside the locks are those that hold them. -/
structure Table (fifo : L → Prop) (held : T → List (L × Mode)) (locks : L → Rwlock T) :
    Prop where
  inside : ∀ t lock mode, (t, mode) ∈ (locks lock).inside ↔ (lock, mode) ∈ held t
  nodup : ∀ t, (held t).Nodup
  sound : ∀ lock, (locks lock).Sound
  mutex : ∀ lock, ¬ fifo lock → (locks lock).waiting = []

namespace Table

variable {fifo : L → Prop} {held : T → List (L × Mode)} {locks : L → Rwlock T}
variable {t : T} {lock : L} {mode : Mode} {after : Rwlock T}

theorem exclusive (table : Table fifo held locks) : Discipline.Exclusive held := by
  intro t u lock mode writer other
  have first := (table.inside t lock .write).mpr writer
  have second := (table.inside u lock mode).mpr other
  exact ((table.sound lock).together first second).1

theorem free : Table fifo (fun _ : T => []) fun _ => Rwlock.free where
  inside _ _ _ := ⟨fun member => absurd member List.not_mem_nil,
    fun member => absurd member List.not_mem_nil⟩
  nodup _ := List.nodup_nil
  sound _ := Rwlock.Sound.free
  mutex _ _ := rfl

variable [DecidableEq L]

theorem arrive (table : Table fifo held locks) (queued : fifo lock)
    (inside : after.inside = (locks lock).inside) (sound : after.Sound) :
    Table fifo held (Function.update locks lock after) := by
  constructor
  · intro u other mode
    rcases eq_or_ne other lock with rfl | differ
    · rw [Function.update_self, inside]
      exact table.inside u other mode
    · rw [Function.update_of_ne differ]
      exact table.inside u other mode
  · exact table.nodup
  · intro other
    rcases eq_or_ne other lock with rfl | differ
    · rw [Function.update_self]
      exact sound
    · rw [Function.update_of_ne differ]
      exact table.sound other
  · intro other mutex
    rcases eq_or_ne other lock with rfl | differ
    · exact absurd queued mutex
    · rw [Function.update_of_ne differ]
      exact table.mutex other mutex

variable [DecidableEq T]

theorem grant (table : Table fifo held locks) (fresh : ∀ mode, (lock, mode) ∉ held t)
    (inside : after.inside = (t, mode) :: (locks lock).inside) (sound : after.Sound)
    (mutex : ¬ fifo lock → after.waiting = []) :
    Table fifo (Function.update held t ((lock, mode) :: held t))
      (Function.update locks lock after) := by
  constructor
  · intro u other mode'
    rcases eq_or_ne other lock with rfl | differ
    · rw [Function.update_self, inside, List.mem_cons, table.inside u other mode']
      rcases eq_or_ne u t with rfl | apart
      · rw [Function.update_self, List.mem_cons, Prod.mk.injEq, Prod.mk.injEq]
        simp only [true_and]
      · rw [Function.update_of_ne apart, Prod.mk.injEq]
        simp only [apart, false_and, false_or]
    · rw [Function.update_of_ne differ, table.inside u other mode']
      rcases eq_or_ne u t with rfl | apart
      · rw [Function.update_self, List.mem_cons, Prod.mk.injEq]
        simp only [differ, false_and, false_or]
      · rw [Function.update_of_ne apart]
  · intro u
    rcases eq_or_ne u t with rfl | apart
    · rw [Function.update_self]
      exact List.nodup_cons.mpr ⟨fresh mode, table.nodup u⟩
    · rw [Function.update_of_ne apart]
      exact table.nodup u
  · intro other
    rcases eq_or_ne other lock with rfl | differ
    · rw [Function.update_self]
      exact sound
    · rw [Function.update_of_ne differ]
      exact table.sound other
  · intro other
    rcases eq_or_ne other lock with rfl | differ
    · rw [Function.update_self]
      exact mutex
    · rw [Function.update_of_ne differ]
      exact table.mutex other

theorem release (table : Table fifo held locks)
    (inside : after.inside = (locks lock).inside.erase (t, mode)) (sound : after.Sound)
    (waiting : after.waiting = (locks lock).waiting) :
    Table fifo (Function.update held t ((held t).erase (lock, mode)))
      (Function.update locks lock after) := by
  have once : (locks lock).inside.Nodup :=
    (List.nodup_append.mp (List.Nodup.of_map _ (table.sound lock).distinct)).1
  constructor
  · intro u other mode'
    rcases eq_or_ne other lock with rfl | differ
    · rw [Function.update_self, inside, once.mem_erase_iff, table.inside u other mode']
      rcases eq_or_ne u t with rfl | apart
      · rw [Function.update_self, (table.nodup u).mem_erase_iff]
        simp only [ne_eq, Prod.mk.injEq, true_and]
      · rw [Function.update_of_ne apart]
        simp only [ne_eq, Prod.mk.injEq, apart, false_and, not_false_eq_true, true_and]
    · rw [Function.update_of_ne differ, table.inside u other mode']
      rcases eq_or_ne u t with rfl | apart
      · rw [Function.update_self, (table.nodup u).mem_erase_iff]
        simp only [ne_eq, Prod.mk.injEq, differ, false_and, not_false_eq_true, true_and]
      · rw [Function.update_of_ne apart]
  · intro u
    rcases eq_or_ne u t with rfl | apart
    · rw [Function.update_self]
      exact (table.nodup u).erase _
    · rw [Function.update_of_ne apart]
      exact table.nodup u
  · intro other
    rcases eq_or_ne other lock with rfl | differ
    · rw [Function.update_self]
      exact sound
    · rw [Function.update_of_ne differ]
      exact table.sound other
  · intro other mutex
    rcases eq_or_ne other lock with rfl | differ
    · rw [Function.update_self, waiting]
      exact table.mutex other mutex
    · rw [Function.update_of_ne differ]
      exact table.mutex other mutex

end Table

/-- The locks held after an event. -/
def heldAfter [DecidableEq T] [DecidableEq L] (held : T → List (L × Mode)) :
    Event T L → T → List (L × Mode)
  | .lock lock (.grant t mode) => Function.update held t ((lock, mode) :: held t)
  | .lock lock (.release t mode) => Function.update held t ((held t).erase (lock, mode))
  | _ => held

/-- The locks each thread holds after a trace. -/
def holdings [DecidableEq T] [DecidableEq L] (trace : List (Event T L)) :
    T → List (L × Mode) :=
  trace.foldl heldAfter fun _ => []

/-! ## Abiding by a discipline -/

/-- The threads hold the locks `held` and follow the discipline. -/
structure Abides [DecidableEq T] [DecidableEq L] [Preorder ρ] (fifo : L → Prop)
    (d : Discipline T σ Λ L R ρ) (held : T → List (L × Mode)) (m : Machine T σ Λ L R) : Prop where
  table : Table fifo held m.locks
  waiting : ∀ {t lock mode}, (t, mode) ∈ (m.locks lock).waiting →
    ∃ next, m.prog t = .acquire lock mode next
  follows : ∀ t, d.Follows t (m.prog t) (held t) (m.frame t)
  keeps : d.keeps m.frame m.shared

/-- An event the discipline allows. -/
def Allowed (d : Discipline T σ Λ L R ρ) (m : Machine T σ Λ L R) (event : Event T L)
    (after : Machine T σ Λ L R) : Prop :=
  ∀ t, event = .act t → d.allowed m.frame m.shared t (after.frame t) after.shared

namespace Abides

variable [DecidableEq T] [DecidableEq L] [Preorder ρ] {fifo : L → Prop}
variable {d : Discipline T σ Λ L R ρ} {held : T → List (L × Mode)} {m after : Machine T σ Λ L R}
variable {t : T} {lock : L} {mode : Mode} {next : Prog σ Λ L R}

theorem scene (abides : Abides fifo d held m) : d.Scene held m.frame m.shared where
  keeps := abides.keeps
  fits t := (abides.follows t).fits
  exclusive := abides.table.exclusive

theorem start {shared : σ} {frame : Λ} {prog : T → Prog σ Λ L R}
    (follows : ∀ t, d.Follows t (prog t) [] frame) (keeps : d.keeps (fun _ => frame) shared) :
    Abides fifo d (fun _ => []) (Machine.start shared frame prog) where
  table := Table.free
  waiting member := absurd member List.not_mem_nil
  follows := follows
  keeps := keeps

/-- Only a thread about to take a lock waits. -/
theorem not_waiting (abides : Abides fifo d held m)
    (elsewhere : ∀ mode next, m.prog t ≠ .acquire lock mode next) :
    (t, mode) ∉ (m.locks lock).waiting := by
  intro member
  obtain ⟨next, here⟩ := abides.waiting member
  exact elsewhere mode next here

/-- A thread goes on with its program, and those that wait are waiting as before. -/
theorem waiting_setProg (abides : Abides fifo d held m) {locks : L → Rwlock T}
    (before : ∀ {u lock mode}, (u, mode) ∈ (locks lock).waiting →
      u ≠ t ∧ (u, mode) ∈ (m.locks lock).waiting)
    {u : T} (member : (u, mode) ∈ (locks lock).waiting) :
    ∃ later, Function.update m.prog t next u = .acquire lock mode later := by
  obtain ⟨differ, waits⟩ := before member
  rw [Function.update_of_ne differ]
  exact abides.waiting waits

/-- The other threads follow the discipline still. -/
theorem follows_update (abides : Abides fifo d held m) {own : List (L × Mode)} {frame : Λ}
    (follows : d.Follows t next own frame) (u : T) :
    d.Follows u (Function.update m.prog t next u) (Function.update held t own u)
      (Function.update m.frame t frame u) := by
  rcases eq_or_ne u t with rfl | differ
  · rw [Function.update_self, Function.update_self, Function.update_self]
    exact follows
  · rw [Function.update_of_ne differ, Function.update_of_ne differ, Function.update_of_ne differ]
    exact abides.follows u

/-! ### One step -/

/-- A thread takes its ticket. -/
theorem arrive {queue : Rwlock T} (abides : Abides fifo d held m)
    (here : m.prog t = .acquire lock mode next) (queued : fifo lock)
    (moved : (m.locks lock).Step (.arrive t mode) queue) :
    Abides fifo d held (m.setLock lock queue) := by
  have sound := moved.sound (abides.table.sound lock)
  cases moved with
  | arrive _ fresh =>
      refine ⟨abides.table.arrive queued rfl sound, ?_, abides.follows, abides.keeps⟩
      intro u other mode' member
      rcases eq_or_ne other lock with rfl | differ
      · rw [Machine.setLock_locks, Function.update_self] at member
        rcases List.mem_append.mp member with before | new
        · exact abides.waiting before
        · cases List.mem_singleton.mp new
          exact ⟨next, here⟩
      · rw [Machine.setLock_locks, Function.update_of_ne differ] at member
        exact abides.waiting member

/-- A thread is let in. -/
theorem grant {inner : Rwlock T} (abides : Abides fifo d held m)
    (here : m.prog t = .acquire lock mode next)
    (inside : inner.inside = (t, mode) :: (m.locks lock).inside) (sound : inner.Sound)
    (fewer : inner.waiting ⊆ (m.locks lock).waiting) :
    Abides fifo d (Function.update held t ((lock, mode) :: held t))
      ((m.setLock lock inner).setProg t next) := by
  have follows := abides.follows t
  rw [here] at follows
  obtain ⟨-, above, follows⟩ := follows
  have fresh : ∀ mode, (lock, mode) ∉ held t := fun mode member =>
    lt_irrefl _ (above _ member)
  constructor
  · refine abides.table.grant fresh inside sound fun mutex => ?_
    exact List.subset_nil.mp (abides.table.mutex lock mutex ▸ fewer)
  · refine fun {u other mode'} => abides.waiting_setProg fun {u other mode'} member => ?_
    rcases eq_or_ne other lock with rfl | differ
    · rw [Machine.setProg_locks, Machine.setLock_locks, Function.update_self] at member
      refine ⟨?_, fewer member⟩
      rintro rfl
      -- it would have two places
      have twice := sound.distinct
      rw [Rwlock.threads, List.map_append] at twice
      refine (List.nodup_append.mp twice).2.2 u ?_ u (List.mem_map_of_mem member) rfl
      rw [inside]
      exact List.mem_map_of_mem (List.mem_cons_self)
    · rw [Machine.setProg_locks, Machine.setLock_locks, Function.update_of_ne differ] at member
      refine ⟨?_, member⟩
      rintro rfl
      obtain ⟨later, there⟩ := abides.waiting member
      rw [here] at there
      cases there
      exact differ rfl
  · intro u
    have others := abides.follows_update follows u
    rwa [Function.update_eq_self] at others
  · exact abides.keeps

/-- A thread leaves. -/
theorem release {frame : Λ} {outer : Rwlock T} (abides : Abides fifo d held m)
    (here : m.prog t = .release lock mode frame next)
    (moved : (m.locks lock).Step (.release t mode) outer) :
    Abides fifo d (Function.update held t ((held t).erase (lock, mode)))
      (((m.setLock lock outer).setShared t m.shared frame).setProg t next) := by
  have sound := moved.sound (abides.table.sound lock)
  have follows := abides.follows t
  rw [here] at follows
  obtain ⟨-, -, keeps, follows⟩ := follows
  have elsewhere : ∀ mode next, m.prog t ≠ .acquire lock mode next := fun mode next there => by
    rw [here] at there
    cases there
  have waiting : outer.waiting = (m.locks lock).waiting := by
    cases moved
    rfl
  constructor
  · refine abides.table.release ?_ sound waiting
    cases moved
    rfl
  · refine fun {u other mode'} => abides.waiting_setProg fun {u other mode'} member => ?_
    have before : (u, mode') ∈ (m.locks other).waiting := by
      rcases eq_or_ne other lock with rfl | differ
      · rwa [Machine.setProg_locks, Machine.setShared_locks, Machine.setLock_locks,
          Function.update_self, waiting] at member
      · rwa [Machine.setProg_locks, Machine.setShared_locks, Machine.setLock_locks,
          Function.update_of_ne differ] at member
    refine ⟨?_, before⟩
    rintro rfl
    obtain ⟨later, there⟩ := abides.waiting before
    rw [here] at there
    cases there
  · exact abides.follows_update follows
  · exact keeps held m.frame m.shared abides.scene rfl rfl

/-- A thread acts. -/
theorem act {α : Type} {run : σ → α × σ} {frame : α → Λ} {next : α → Prog σ Λ L R}
    (abides : Abides fifo d held m) (here : m.prog t = .act run frame next)
    (allowed : d.allowed m.frame m.shared t (frame (run m.shared).1) (run m.shared).2) :
    Abides fifo d held ((m.setShared t (run m.shared).2 (frame (run m.shared).1)).setProg t
      (next (run m.shared).1)) := by
  have follows := abides.follows t
  rw [here] at follows
  obtain ⟨keeps, follows⟩ := follows.2 held m.frame m.shared abides.scene rfl rfl allowed
  refine ⟨abides.table, ?_, fun u => ?_, keeps⟩
  · refine abides.waiting_setProg fun {u lock mode} member => ⟨?_, member⟩
    rintro rfl
    obtain ⟨later, there⟩ := abides.waiting member
    rw [here] at there
    cases there
  · have others := abides.follows_update follows u
    rwa [Function.update_eq_self] at others

/-- The system answers a thread. -/
theorem ask {ε : Type} [Inhabited ε] {next : ε → Prog σ Λ L R} (abides : Abides fifo d held m)
    (here : m.prog t = .ask next) (answer : ε) :
    Abides fifo d held (m.setProg t (next answer)) := by
  have follows := abides.follows t
  rw [here] at follows
  refine ⟨abides.table, ?_, fun u => ?_, abides.keeps⟩
  · refine abides.waiting_setProg fun {u lock mode} member => ⟨?_, member⟩
    rintro rfl
    obtain ⟨later, there⟩ := abides.waiting member
    rw [here] at there
    cases there
  · have others := abides.follows_update (follows.2 answer) u
    rwa [Function.update_eq_self, Function.update_eq_self] at others

/-- **One step** of threads that abide by a discipline. -/
theorem step {event : Event T L} (abides : Abides fifo d held m)
    (move : m.Step fifo event after) (allowed : Allowed d m event after) :
    Abides fifo d (heldAfter held event) after := by
  cases move with
  | arrive here queued moved => exact abides.arrive here queued moved
  | grant here queued moved =>
      have sound := moved.sound (abides.table.sound _)
      cases moved with
      | grant head admits =>
          refine abides.grant here rfl sound fun entry member => ?_
          rw [head]
          exact List.mem_cons_of_mem _ member
  | @seize t lock mode next here mutex idle =>
      have alone : ((⟨[(t, mode)], []⟩ : Rwlock T)).Sound := by
        refine ⟨List.nodup_singleton t, fun u writer => ?_⟩
        cases List.mem_singleton.mp writer
        rfl
      refine abides.grant here ?_ alone (List.nil_subset _)
      rw [idle]
  | release here moved => exact abides.release here moved
  | @act t α run frame next here =>
      have own := allowed t rfl
      rw [show ((m.setShared t (run m.shared).2 (frame (run m.shared).1)).setProg t
          (next (run m.shared).1)).frame t = frame (run m.shared).1 from Function.update_self ..]
        at own
      exact abides.act here own
  | ask here answer => exact abides.ask here answer

/-- **A run** of threads that abide by a discipline. -/
theorem run {init : Machine T σ Λ L R} {trace : List (Event T L)}
    (start : Abides fifo d (fun _ => []) init)
    (run : Runs (fun m event after => m.Step fifo event after ∧ Allowed d m event after)
      init trace m) : Abides fifo d (holdings trace) m := by
  induction run with
  | nil => exact start
  | snoc _ move ih =>
      rw [holdings, List.foldl_append]
      exact ih.step move.1 move.2

/-- Who has returned holds nothing, and what it returned fits its frame. -/
theorem returned {value : R} (abides : Abides fifo d held m) (finished : m.prog t = .ret value) :
    held t = [] ∧ d.returns t (m.frame t) value := by
  have follows := abides.follows t
  rw [finished] at follows
  exact follows.2

/-! ### No deadlock -/

/-- Who holds a lock is not finished. -/
theorem unfinished_of_held (abides : Abides fifo d held m) (holds : (lock, mode) ∈ held t) :
    m.Unfinished t := by
  intro value finished
  rw [(abides.returned finished).1] at holds
  exact absurd holds List.not_mem_nil

/-- Who holds a lock wants none but those behind it. -/
theorem rank_lt (abides : Abides fifo d held m) (holds : (lock, mode) ∈ held t) {other : L}
    (wants : m.Wants t other) : d.rank lock < d.rank other := by
  obtain ⟨_, _, here⟩ := wants
  have follows := abides.follows t
  rw [here] at follows
  exact follows.2.1 _ holds

/-- If nobody can go on, a thread that is not finished wants a lock that is held. -/
theorem wants_held (abides : Abides fifo d held m)
    (stuck : ∀ u, m.Unfinished u → m.Blocked fifo u) (unfinished : m.Unfinished t) :
    ∃ lock, m.Wants t lock ∧ ∃ u mode, (lock, mode) ∈ held u := by
  have blocked := stuck t unfinished
  cases here : m.prog t with
  | ret value => exact absurd here (unfinished value)
  | release lock mode frame next =>
      have follows := abides.follows t
      rw [here] at follows
      have inside := (abides.table.inside t lock mode).mpr follows.2.1
      exact absurd (.release here (.release inside)) (blocked _ _ rfl)
  | act run frame next => exact absurd (.act here) (blocked _ _ rfl)
  | ask next => exact absurd (.ask here default) (blocked _ _ rfl)
  | acquire lock mode next =>
      refine ⟨lock, ⟨mode, next, here⟩, ?_⟩
      by_contra nobody
      have idle : (m.locks lock).inside = [] := by
        rw [List.eq_nil_iff_forall_not_mem]
        rintro ⟨u, mode'⟩ member
        exact nobody ⟨u, mode', (abides.table.inside u lock mode').mp member⟩
      by_cases queued : fifo lock
      · cases queue : (m.locks lock).waiting with
        | nil =>
            have fresh : t ∉ (m.locks lock).threads := by
              rw [Rwlock.threads, idle, queue]
              exact List.not_mem_nil
            exact blocked _ _ rfl (.arrive here queued (.arrive mode fresh))
        | cons head rest =>
            -- the head of the queue could be let in
            obtain ⟨first, mode'⟩ := head
            obtain ⟨later, there⟩ := abides.waiting (queue ▸ List.mem_cons_self)
            have admits : (m.locks lock).Admits mode' := by
              cases mode' with
              | read =>
                  intro entry member
                  rw [idle] at member
                  exact absurd member List.not_mem_nil
              | write => exact idle
            exact stuck first (Machine.Wants.unfinished ⟨mode', later, there⟩) _ _ rfl
              (.grant there queued (.grant queue admits))
      · exact blocked _ _ rfl (.seize here queued idle)

/-- A thread is ahead of another if it wants a lock of higher rank. -/
def Ahead (d : Discipline T σ Λ L R ρ) (m : Machine T σ Λ L R) (u t : T) : Prop :=
  ∃ lock other, m.Wants t lock ∧ m.Wants u other ∧ d.rank lock < d.rank other

instance : IsTrans T (Ahead d m) where
  trans v u t := by
    rintro ⟨lock', other, wants', third, later⟩ ⟨lock, lock'', wants, second, earlier⟩
    cases wants'.unique second
    exact ⟨lock, other, wants, third, earlier.trans later⟩

instance : Std.Irrefl (Ahead d m) where
  irrefl t := by
    rintro ⟨lock, other, wants, again, less⟩
    cases wants.unique again
    exact lt_irrefl _ less

/-- **No deadlock**: while a thread is unfinished, an unfinished thread can go on. -/
theorem not_all_blocked [Finite T] (abides : Abides fifo d held m)
    (unfinished : m.Unfinished t) : ∃ u, m.Unfinished u ∧ ¬ m.Blocked fifo u := by
  by_contra none_
  have stuck : ∀ u, m.Unfinished u → m.Blocked fifo u := fun u open_ =>
    not_not.mp fun free => none_ ⟨u, open_, free⟩
  obtain ⟨first, open_, foremost⟩ :=
    (Finite.wellFounded_of_trans_of_irrefl (Ahead d m)).has_min {u | m.Unfinished u} ⟨t, unfinished⟩
  obtain ⟨lock, wants, holder, mode, holds⟩ := abides.wants_held stuck open_
  obtain ⟨other, wants', -⟩ := abides.wants_held stuck (abides.unfinished_of_held holds)
  exact foremost holder (abides.unfinished_of_held holds)
    ⟨lock, other, wants, wants', abides.rank_lt holds wants'⟩

end Abides

/-! ## Every lock is released -/

section Balance

variable [DecidableEq T] [DecidableEq L]

/-- How often a thread was granted a lock. -/
def grants (t : T) (lock : L) (mode : Mode) (trace : List (Event T L)) : ℕ :=
  trace.count (.lock lock (.grant t mode))

/-- How often a thread released a lock. -/
def releases (t : T) (lock : L) (mode : Mode) (trace : List (Event T L)) : ℕ :=
  trace.count (.lock lock (.release t mode))

/-- What an event adds to the locks held. -/
theorem count_heldAfter {held : T → List (L × Mode)} {event : Event T L}
    (holds : ∀ t lock mode, event = .lock lock (.release t mode) → (lock, mode) ∈ held t)
    (t : T) (lock : L) (mode : Mode) :
    (heldAfter held event t).count (lock, mode) + [event].count (.lock lock (.release t mode)) =
      (held t).count (lock, mode) + [event].count (.lock lock (.grant t mode)) := by
  cases event with
  | act u => simp [heldAfter]
  | ask u => simp [heldAfter]
  | lock other mark =>
      cases mark with
      | arrive u mode' => simp [heldAfter]
      | grant u mode' =>
          rcases eq_or_ne t u with rfl | differ
          · simp [heldAfter, List.count_cons]
          · simp [heldAfter, differ, differ.symm]
      | release u mode' =>
          have member := holds u other mode' rfl
          rcases eq_or_ne t u with rfl | differ
          · by_cases same : (other, mode') = (lock, mode)
            · cases same
              have some := List.count_pos_iff.mpr member
              simp only [heldAfter, Function.update_self, List.count_erase_self,
                List.count_singleton]
              simp
              omega
            · have apart : ¬ (other = lock ∧ mode' = mode) := fun both =>
                same (Prod.ext both.1 both.2)
              simp only [heldAfter, Function.update_self,
                List.count_erase_of_ne (Ne.symm same), List.count_singleton]
              simp [apart]
          · simp [heldAfter, differ, differ.symm]

variable [Preorder ρ] {fifo : L → Prop} {d : Discipline T σ Λ L R ρ}
variable {init m : Machine T σ Λ L R} {trace : List (Event T L)}

/-- **What was granted and not released is held.** -/
theorem grants_eq (start : Abides fifo d (fun _ => []) init)
    (run : Runs (fun m event after => m.Step fifo event after ∧ Allowed d m event after)
      init trace m) (t : T) (lock : L) (mode : Mode) :
    grants t lock mode trace =
      releases t lock mode trace + (holdings trace t).count (lock, mode) := by
  induction run with
  | nil => rfl
  | @snoc trace m after event earlier move ih =>
      have abides := start.run earlier
      have holds : ∀ t lock mode, event = .lock lock (.release t mode) →
          (lock, mode) ∈ holdings trace t := by
        rintro t lock mode rfl
        cases move.1 with
        | release here moved =>
            cases moved with
            | release inside => exact (abides.table.inside t lock mode).mp inside
      have change := count_heldAfter holds t lock mode
      rw [grants, releases, List.count_append, List.count_append, holdings, List.foldl_append]
      rw [grants, releases] at ih
      show _ = _ + (heldAfter (holdings trace) event t).count _
      omega

end Balance

end LockedPrograms
