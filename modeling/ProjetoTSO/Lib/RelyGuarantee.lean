import ProjetoTSO.Lib.LockedPrograms

/-!
# Rely and guarantee

What a thread learnt about the shared state may be out of date when it uses it, unless the
other threads promise to keep it true.  A `Guarantee` is such a promise: how the state may
change (`rely`), what is true of it in between (`inv`), and what every thread that touches a
lock must be sure of by then (`good`).

* `Prog.Upholds` — the program keeps the promise, given that the others do.
* `Upheld.step` — programs that all uphold a promise keep it in every step, and touch good
  locks only.
-/

namespace LockedPrograms

open Transition FifoRwlock

/-- A promise of threads to each other. -/
structure Guarantee (σ Λ L : Type) where
  inv : σ → Prop
  rely : σ → σ → Prop
  good : σ → L → Prop
  /-- The acts that are considered, by frame and state before the act. -/
  allowed : Λ → σ → Prop
  refl : ∀ s, rely s s
  trans : ∀ {s s' s''}, rely s s' → rely s' s'' → rely s s''
  lasting : ∀ {s s' lock}, rely s s' → good s lock → good s' lock

variable {T σ Λ L R : Type}

/-- The program of a thread with this frame keeps the promise.  What it knows was true in
the state `s`; the state may have changed since. -/
def Prog.Upholds (g : Guarantee σ Λ L) : Prog σ Λ L R → Λ → σ → Prop
  | .ret _, _, _ => True
  | .acquire lock _ next, frame, s => g.good s lock ∧ next.Upholds g frame s
  | .release lock _ frame next, _, s => g.good s lock ∧ next.Upholds g frame s
  | .act run frame' next, frame, s => ∀ s', g.rely s s' → g.inv s' → g.allowed frame s' →
      g.rely s' (run s').2 ∧ g.inv (run s').2 ∧
        (next (run s').1).Upholds g (frame' (run s').1) (run s').2
  | @Prog.ask _ _ _ _ ε _ next, frame, s => ∀ answer : ε, (next answer).Upholds g frame s

theorem Prog.upholds_acquire {g : Guarantee σ Λ L} {lock : L} {mode : Mode}
    {next : Prog σ Λ L R} {frame : Λ} {s : σ} :
    (Prog.acquire lock mode next).Upholds g frame s ↔ g.good s lock ∧ next.Upholds g frame s :=
  Iff.rfl

theorem Prog.upholds_ask {g : Guarantee σ Λ L} {ε : Type} [Inhabited ε] {next : ε → Prog σ Λ L R}
    {frame : Λ} {s : σ} :
    (Prog.ask next).Upholds g frame s ↔ ∀ answer, (next answer).Upholds g frame s := Iff.rfl

namespace Prog.Upholds

variable {g : Guarantee σ Λ L} {prog : Prog σ Λ L R} {frame : Λ} {s s' : σ}

/-- What a thread knew it still knows. -/
theorem later (upholds : prog.Upholds g frame s) (rely : g.rely s s') :
    prog.Upholds g frame s' := by
  induction prog generalizing frame with
  | ret value => exact trivial
  | acquire lock mode next ih => exact ⟨g.lasting rely upholds.1, ih upholds.2⟩
  | release lock mode frame' next ih => exact ⟨g.lasting rely upholds.1, ih upholds.2⟩
  | act run frame' next ih =>
      exact fun s'' later inv allowed => upholds s'' (g.trans rely later) inv allowed
  | ask next ih => exact fun answer => ih answer (upholds answer)

/-- An act that changes nothing. -/
theorem look {α : Type} {look : σ → α} {frame' : α → Λ} {next : α → Prog σ Λ L R}
    (follows : ∀ s', g.rely s s' → g.inv s' → g.allowed frame s' →
      (next (look s')).Upholds g (frame' (look s')) s') :
    (Prog.act (fun s => (look s, s)) frame' next).Upholds g frame s :=
  fun s' rely inv allowed => ⟨g.refl s', inv, follows s' rely inv allowed⟩

end Prog.Upholds

/-- Every thread keeps the promise. -/
structure Upheld (g : Guarantee σ Λ L) (m : Machine T σ Λ L R) : Prop where
  inv : g.inv m.shared
  programs : ∀ t, (m.prog t).Upholds g (m.frame t) m.shared

namespace Upheld

variable {g : Guarantee σ Λ L} {m after : Machine T σ Λ L R}

theorem start {shared : σ} {frame : Λ} {prog : T → Prog σ Λ L R} (inv : g.inv shared)
    (programs : ∀ t, (prog t).Upholds g frame shared) :
    Upheld g (Machine.start shared frame prog) := ⟨inv, programs⟩

/-- The promise a thread's program begins with. -/
theorem head (upheld : Upheld g m) {t : T} {prog : Prog σ Λ L R} (here : m.prog t = prog) :
    prog.Upholds g (m.frame t) m.shared := here ▸ upheld.programs t

variable [DecidableEq T]

/-- A thread goes on while the others keep what they knew. -/
theorem update (upheld : Upheld g m) {t : T} {next : Prog σ Λ L R} {frame : Λ} {s' : σ}
    (rely : g.rely m.shared s') (follows : next.Upholds g frame s') (u : T) :
    (Function.update m.prog t next u).Upholds g (Function.update m.frame t frame u) s' := by
  rcases eq_or_ne u t with rfl | differ
  · rw [Function.update_self, Function.update_self]
    exact follows
  · rw [Function.update_of_ne differ, Function.update_of_ne differ]
    exact (upheld.programs u).later rely

variable [DecidableEq L] {fifo : L → Prop} {event : Event T L}

/-- **One step** keeps the promise. -/
theorem step (upheld : Upheld g m) (move : m.Step fifo event after)
    (allowed : ∀ t, event = .act t → g.allowed (m.frame t) m.shared) :
    g.rely m.shared after.shared ∧ Upheld g after ∧
      ∀ lock mark, event = .lock lock mark → g.good m.shared lock := by
  have own : ∀ {t : T} {next : Prog σ Λ L R}, next.Upholds g (m.frame t) m.shared →
      ∀ u, (Function.update m.prog t next u).Upholds g (m.frame u) m.shared := by
    intro t next follows u
    have others := upheld.update (t := t) (g.refl _) follows u
    rwa [Function.update_eq_self] at others
  cases move with
  | arrive here =>
      have before := upheld.head here
      exact ⟨g.refl _, ⟨upheld.inv, upheld.programs⟩, by rintro _ _ ⟨⟩; exact before.1⟩
  | grant here =>
      have before := upheld.head here
      exact ⟨g.refl _, ⟨upheld.inv, own before.2⟩, by rintro _ _ ⟨⟩; exact before.1⟩
  | seize here =>
      have before := upheld.head here
      exact ⟨g.refl _, ⟨upheld.inv, own before.2⟩, by rintro _ _ ⟨⟩; exact before.1⟩
  | release here =>
      have before := upheld.head here
      exact ⟨g.refl _, ⟨upheld.inv, upheld.update (g.refl _) before.2⟩,
        by rintro _ _ ⟨⟩; exact before.1⟩
  | @act t α run frame next here =>
      obtain ⟨rely, inv, follows⟩ :=
        upheld.head here m.shared (g.refl _) upheld.inv (allowed t rfl)
      exact ⟨rely, ⟨inv, upheld.update rely follows⟩, fun _ _ event => by cases event⟩
  | ask here answer =>
      have before := upheld.head here answer
      exact ⟨g.refl _, ⟨upheld.inv, own before⟩, fun _ _ event => by cases event⟩

end Upheld

end LockedPrograms
