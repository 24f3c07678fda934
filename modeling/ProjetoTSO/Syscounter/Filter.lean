import ProjetoTSO.Syscounter.CountedCalls

/-!
# The filter of the probes

`syscounter.bpf.c` and `systracer.bpf.c` follow the processes that `main` got as arguments:
a probe drops the calls of a process that is not in `my_config` (`to_discard`), and the probe of
`sched_process_fork` adds the tasks that a task of `my_config` creates.

`family` are the processes the arguments name and their descendants.  What passes the filter
comes from the family; if the named processes had no other threads when the probes were
attached, and `my_config` has not become full, all calls of the family pass (`Follows`).

## Design notes

* A task has an id and the id of its process, that of the first thread.  The first thread is
  there until all others have ended.
* The kernel lets a new task run when the probe of its creation has returned.
* What the probes hand over what passed to is a parameter, `step`; `entry` is the `pid` of the
  call a step begins, if it begins one.
-/

namespace ProjetoTSO.Syscounter

open CInt Transition

/-! ## The map -/

/-- The keys are `u32`, and so are the values, all of them 1. -/
abbrev MyConfig := AList fun _ : UInt32 => UInt32

namespace MyConfig

/-- `bpf_map_update_elem` with `BPF_ANY`: only a new key in a full map makes it fail. -/
def update_elem (my_config : MyConfig) (key value : UInt32) : MyConfig :=
  if (my_config.lookup key).isSome ∨ my_config.entries.length < MAX_PIDS then
    my_config.insert key value
  else my_config

/-- 1 - discard, 0 - collect -/
def to_discard (my_config : MyConfig) (pid : UInt32) : Bool := (my_config.lookup pid).isNone

/-- The key `trace_sched_process_fork` is about to add when it has looked at the parent. -/
def trace_sched_process_fork (my_config : MyConfig) (parent_pid child_pid : UInt32) :
    Option UInt32 :=
  if my_config.to_discard parent_pid then none else some child_pid

end MyConfig

/-- `isspace` in the C locale. -/
def isspace (c : UInt8) : Bool := c = 32 ∨ 9 ≤ c ∧ c ≤ 13

/-- The digits at the front of a string, as a number. -/
def digits : List UInt8 → ℕ → ℕ
  | c :: rest, value => if 48 ≤ c ∧ c ≤ 57 then digits rest (10 * value + (c.toNat - 48)) else value
  | [], value => value

/-- `strtol(nptr, NULL, 10)` -/
def strtol (nptr : List UInt8) : ℤ :=
  match nptr.dropWhile isspace with
  | 45 :: rest => max (-(digits rest 0 : ℤ)) (-2 ^ 63)
  | 43 :: rest => min (digits rest 0 : ℤ) (2 ^ 63 - 1)
  | rest => min (digits rest 0 : ℤ) (2 ^ 63 - 1)

/-- glibc's `atoi` -/
def atoi (nptr : List UInt8) : ℤ := int32 (strtol nptr)

/-- The loop of `main` over its arguments. -/
def configure (argv : List (List UInt8)) : MyConfig :=
  argv.foldl (fun my_config arg => my_config.update_elem (UInt32.ofInt (atoi arg)) 1) ∅

/-! ## Tasks -/

/-- The tasks, the filter, and what is behind it. -/
structure Filtered (S : Type) where
  /-- The process of each task. -/
  tgid : UInt32 → Option UInt32
  my_config : MyConfig
  /-- New tasks that a probe is about to add. -/
  adding : Multiset UInt32
  behind : S

namespace Filtered

variable {S L : Type}

/-- The probes have been attached. -/
def attached (argv : List (List UInt8)) (first : UInt32 → Option UInt32) (behind : S) :
    Filtered S where
  tgid := first
  my_config := configure argv
  adding := 0
  behind := behind

inductive Act (L : Type) where
  | fork (process parent child : UInt32)
  | thread (process parent child : UInt32)
  | add (child : UInt32)
  | exit (task : UInt32)
  | pass (process : UInt32) (label : L)
  | discard (process : UInt32) (label : L)
  | behind (label : L)

/-- A task is created, and the probe of its creation looks at the parent. -/
def create (s : Filtered S) (process parent child : UInt32) : Filtered S :=
  { s with
    tgid := Function.update s.tgid child (some process)
    adding := (s.my_config.trace_sched_process_fork parent child).toList + s.adding }

/-- One step of a task, of the probe of its creation, or of what is behind the filter. -/
inductive Step (step : S → L → S → Prop) (entry : L → Option ℤ) (s : Filtered S) :
    Act L → Filtered S → Prop
  | fork {process parent child : UInt32} (lives : s.tgid parent = some process)
      (runs : parent ∉ s.adding) (new : s.tgid child = none) :
      Step step entry s (.fork process parent child) (s.create child parent child)
  | thread {process parent child : UInt32} (lives : s.tgid parent = some process)
      (runs : parent ∉ s.adding) (new : s.tgid child = none) :
      Step step entry s (.thread process parent child) (s.create process parent child)
  -- `trace_sched_process_fork` goes on
  | add {child : UInt32} (created : child ∈ s.adding) :
      Step step entry s (.add child)
        { s with my_config := s.my_config.update_elem child 1, adding := s.adding.erase child }
  | exit {task process : UInt32} (lives : s.tgid task = some process) (runs : task ∉ s.adding)
      (last : process = task → ∀ other, s.tgid other = some task → other = task) :
      Step step entry s (.exit task) { s with tgid := Function.update s.tgid task none }
  -- a call that a probe hands over if its process is followed
  | pass {task process : UInt32} {label : L} {behind : S} (lives : s.tgid task = some process)
      (runs : task ∉ s.adding) (call : entry label = some (int32 process.toNat))
      (collect : s.my_config.to_discard process = false) (moves : step s.behind label behind) :
      Step step entry s (.pass process label) { s with behind := behind }
  | discard {task process : UInt32} {label : L} (lives : s.tgid task = some process)
      (runs : task ∉ s.adding) (call : entry label = some (int32 process.toNat))
      (drop : s.my_config.to_discard process = true) :
      Step step entry s (.discard process label) s
  | behind {label : L} {behind : S} (inner : entry label = none)
      (moves : step s.behind label behind) :
      Step step entry s (.behind label) { s with behind := behind }

end Filtered

/-! ## The family of the arguments -/

namespace Filtered

variable {S L : Type}

/-- The tasks an act creates. -/
def Act.created : Act L → List UInt32
  | .fork _ _ child | .thread _ _ child => [child]
  | _ => []

/-- The child of a process of the family is one. -/
def Act.joins (family : List UInt32) : Act L → List UInt32
  | .fork process _ child => if process ∈ family then child :: family else family
  | _ => family

/-- What an act does behind the filter. -/
def Act.inner : Act L → Option L
  | .pass _ label | .behind label => some label
  | _ => none

def created (history : List (Act L)) : List UInt32 := history.flatMap Act.created

def inner (history : List (Act L)) : List L := history.filterMap Act.inner

/-- The processes of the tasks that have these keys. -/
def named (my_config : MyConfig) (first : UInt32 → Option UInt32) : List UInt32 :=
  my_config.keys.filterMap first

/-- They and their descendants. -/
def family (named : List UInt32) (history : List (Act L)) : List UInt32 :=
  history.foldl Act.joins named

/-- What the kernel sees to at the start: every process has its first thread. -/
def Led (first : UInt32 → Option UInt32) : Prop :=
  ∀ task process, first task = some process → first process = some process

/-- No id is given twice, and none that is an argument. -/
structure Unreused (my_config : MyConfig) (first : UInt32 → Option UInt32)
    (history : List (Act L)) : Prop where
  distinct : (created history).Nodup
  fresh : ∀ child ∈ created history, first child = none ∧ child ∉ my_config

/-- The named processes had no other threads. -/
def SingleThreaded (my_config : MyConfig) (first : UInt32 → Option UInt32) : Prop :=
  ∀ task process, first task = some process → process ∈ named my_config first → task ∈ my_config

/-- An id that was given. -/
def Known (first : UInt32 → Option UInt32) (history : List (Act L)) (task : UInt32) : Prop :=
  first task ≠ none ∨ task ∈ created history

end Filtered

/-! ## What the filter keeps -/

section Map

variable {my_config : MyConfig} {key task : UInt32}

theorem mem_update_elem (member : task ∈ my_config.update_elem key 1) :
    task = key ∨ task ∈ my_config := by
  unfold MyConfig.update_elem at member
  split at member
  · exact AList.mem_insert _ |>.mp member
  · exact Or.inr member

theorem update_elem_keeps (member : task ∈ my_config) : task ∈ my_config.update_elem key 1 := by
  unfold MyConfig.update_elem
  split
  · exact (AList.mem_insert _).mpr (Or.inr member)
  · exact member

theorem update_elem_adds (room : my_config.entries.length < MAX_PIDS) :
    key ∈ my_config.update_elem key 1 := by
  rw [MyConfig.update_elem, if_pos (Or.inr room)]
  exact (AList.mem_insert _).mpr (Or.inl rfl)

theorem update_elem_length (my_config : MyConfig) (key : UInt32) :
    my_config.entries.length ≤ (my_config.update_elem key 1).entries.length := by
  have lengths : ∀ c : MyConfig, c.keys.length = c.entries.length := fun c => List.length_map _
  rw [← lengths, ← lengths]
  refine (my_config.keys_nodup.subperm fun task member => ?_).length_le
  exact AList.mem_keys.mp (update_elem_keeps (AList.mem_keys.mpr member))

theorem to_discard_eq_false : my_config.to_discard task = false ↔ task ∈ my_config := by
  rw [MyConfig.to_discard, Option.isNone_eq_false_iff, AList.lookup_isSome]

end Map

namespace Filtered

variable {S L : Type} {goes : S → L → S → Prop} {entry : L → Option ℤ}
variable {keys : MyConfig} {first : UInt32 → Option UInt32} {history : List (Act L)}
variable {s t : Filtered S} {act : Act L} {process parent child : UInt32}

theorem created_snoc : created (history ++ [act]) = created history ++ act.created := by
  simp [created]

theorem family_snoc (named : List UInt32) :
    family named (history ++ [act]) = act.joins (family named history) := by
  rw [family, List.foldl_append]
  rfl

theorem mem_joins {family : List UInt32} (member : process ∈ family) :
    process ∈ act.joins family := by
  cases act with
  | fork =>
      simp only [Act.joins]
      split
      · exact List.mem_cons_of_mem _ member
      · exact member
  | _ => exact member

theorem Known.snoc {task : UInt32} (known : Known first history task) :
    Known first (history ++ [act]) task :=
  known.imp_right fun member => by
    rw [created_snoc]
    exact List.mem_append_left _ member

/-- A new task has an id nobody knows. -/
theorem Unreused.new (unreused : Unreused keys first (history ++ [act]))
    (child_ : child ∈ act.created) : ¬ Known first history child ∧ child ∉ keys := by
  obtain ⟨distinct, fresh⟩ := unreused
  rw [created_snoc] at distinct fresh
  obtain ⟨none_, other⟩ := fresh child (List.mem_append_right _ child_)
  refine ⟨?_, other⟩
  rintro (given | member)
  · exact given none_
  · exact List.disjoint_of_nodup_append distinct member child_

theorem Unreused.earlier (unreused : Unreused keys first (history ++ [act])) :
    Unreused keys first history := by
  obtain ⟨distinct, fresh⟩ := unreused
  rw [created_snoc] at distinct fresh
  exact ⟨distinct.of_append_left, fun child member => fresh child (List.mem_append_left _ member)⟩

/-- The ids in use, and those of the filter, have been given. -/
structure Given (keys : MyConfig) (first : UInt32 → Option UInt32) (history : List (Act L))
    (s : Filtered S) : Prop where
  leader : ∀ {task process}, s.tgid task = some process → s.tgid process = some process
  alone : ∀ {task process}, s.tgid task = some process → process ∈ s.adding → task = process
  lives : ∀ {task process}, s.tgid task = some process → Known first history task
  follows : ∀ {task}, task ∈ s.my_config ∨ task ∈ s.adding →
    task ∈ keys ∨ Known first history task
  member : ∀ process ∈ family (named keys first) history, Known first history process

/-- What passes is of the family. -/
structure Sound (keys : MyConfig) (first : UInt32 → Option UInt32) (history : List (Act L))
    (s : Filtered S) : Prop where
  tasks : ∀ {task process}, s.tgid task = some process → task ∈ s.my_config ∨ task ∈ s.adding →
    process ∈ family (named keys first) history
  passed : ∀ {process label}, .pass process label ∈ history →
    process ∈ family (named keys first) history

/-- What is of the family passes. -/
structure Complete (keys : MyConfig) (first : UInt32 → Option UInt32) (history : List (Act L))
    (s : Filtered S) : Prop where
  tasks : ∀ {task process}, s.tgid task = some process →
    process ∈ family (named keys first) history → task ∈ s.my_config ∨ task ∈ s.adding
  dropped : ∀ {process label}, .discard process label ∈ history →
    process ∉ family (named keys first) history ∧ Known first history process

theorem mem_create {task : UInt32} (s : Filtered S) (process parent child : UInt32) :
    task ∈ (s.create process parent child).adding ↔
      (task = child ∧ parent ∈ s.my_config) ∨ task ∈ s.adding := by
  show task ∈ (s.my_config.trace_sched_process_fork parent child).toList + s.adding ↔ _
  rw [Multiset.mem_add, Multiset.mem_coe, Option.mem_toList, MyConfig.trace_sched_process_fork,
    ← to_discard_eq_false]
  cases s.my_config.to_discard parent <;> simp [eq_comm]

/-- A new task of a group: its first, or one more. -/
def Creates (process parent child group : UInt32) (act : Act L) : Prop :=
  act = .fork process parent child ∧ group = child ∨
    act = .thread process parent child ∧ group = process

theorem Creates.created {group : UInt32} (creates : Creates process parent child group act) :
    act.created = [child] := by
  rcases creates with ⟨rfl, -⟩ | ⟨rfl, -⟩ <;> rfl

theorem Creates.joins {group : UInt32} {family : List UInt32}
    (creates : Creates process parent child group act) {other : UInt32}
    (member : other ∈ act.joins family) :
    other = child ∧ group = child ∧ process ∈ family ∨ other ∈ family := by
  rcases creates with ⟨rfl, rfl⟩ | ⟨rfl, -⟩
  · simp only [Act.joins] at member
    split at member
    next mine => exact (List.mem_cons.mp member).imp_left fun same => ⟨same, rfl, mine⟩
    next => exact Or.inr member
  · exact Or.inr member

/-- The family has the group of a new task if it has the process of its parent. -/
theorem Creates.group {group : UInt32} {family : List UInt32}
    (creates : Creates process parent child group act) (mine : process ∈ family) :
    group ∈ act.joins family := by
  rcases creates with ⟨rfl, rfl⟩ | ⟨rfl, rfl⟩
  · rw [Act.joins, if_pos mine]
    exact List.mem_cons_self
  · exact mine

section Create

variable {group : UInt32} (given : Given keys first history s)
  (creates : Creates process parent child group act)
  (lives : s.tgid parent = some process) (runs : parent ∉ s.adding) (new : s.tgid child = none)
  (unknown : ¬ Known first history child) (other : child ∉ keys)

include given new in
/-- The tasks after one has been created. -/
theorem Given.tgid_create {task process' : UInt32}
    (found : (s.create group parent child).tgid task = some process') :
    task = child ∧ process' = group ∨ task ≠ child ∧ process' ≠ child ∧ s.tgid task = some process' := by
  by_cases same : task = child
  · subst same
    left
    have here : Function.update s.tgid task (some group) task = some process' := found
    rw [Function.update_self] at here
    exact ⟨rfl, (Option.some.inj here).symm⟩
  · right
    have earlier : s.tgid task = some process' := (Function.update_of_ne same _ _).symm.trans found
    refine ⟨same, ?_, earlier⟩
    rintro rfl
    exact absurd (given.leader earlier) (by rw [new]; simp)

include given creates lives runs new in
theorem Given.create : Given keys first (history ++ [act]) (s.create group parent child) where
  leader := by
    intro task process' found
    rcases given.tgid_create new found with ⟨rfl, rfl⟩ | ⟨-, differ, earlier⟩
    · rcases creates with ⟨-, rfl⟩ | ⟨-, rfl⟩
      · exact found
      · have first_ := given.leader lives
        refine (Function.update_of_ne ?_ _ _).trans first_
        rintro rfl
        rw [new] at first_
        cases first_
    · exact (Function.update_of_ne differ _ _).trans (given.leader earlier)
  alone := by
    intro task process' found member
    rcases given.tgid_create new found with ⟨rfl, rfl⟩ | ⟨-, differ, earlier⟩
    · rcases creates with ⟨-, rfl⟩ | ⟨-, rfl⟩
      · rfl
      · rcases (mem_create _ _ _ _).mp member with ⟨same, -⟩ | waiting
        · exact same.symm
        · have same := given.alone lives waiting
          rw [same] at runs
          exact absurd waiting runs
    · rcases (mem_create _ _ _ _).mp member with ⟨same, -⟩ | waiting
      · exact absurd same differ
      · exact given.alone earlier waiting
  lives := by
    intro task process' found
    rcases given.tgid_create new found with ⟨rfl, -⟩ | ⟨-, -, earlier⟩
    · refine Or.inr ?_
      rw [created_snoc, creates.created]
      exact List.mem_append_right _ (List.mem_singleton_self _)
    · exact (given.lives earlier).snoc
  follows := by
    intro task member
    rcases member with member | member
    · exact (given.follows (Or.inl member)).imp_right Known.snoc
    · rcases (mem_create _ _ _ _).mp member with ⟨rfl, -⟩ | waiting
      · refine Or.inr (Or.inr ?_)
        rw [created_snoc, creates.created]
        exact List.mem_append_right _ (List.mem_singleton_self _)
      · exact (given.follows (Or.inr waiting)).imp_right Known.snoc
  member := by
    intro process' member
    rw [family_snoc] at member
    rcases creates.joins member with ⟨rfl, -⟩ | earlier
    · refine Or.inr ?_
      rw [created_snoc, creates.created]
      exact List.mem_append_right _ (List.mem_singleton_self _)
    · exact (given.member _ earlier).snoc

include given creates lives new unknown other in
theorem Sound.create (sound : Sound keys first history s) :
    Sound keys first (history ++ [act]) (s.create group parent child) where
  tasks := by
    intro task process' found member
    rw [family_snoc]
    have unseen : ¬ (child ∈ s.my_config ∨ child ∈ s.adding) := fun seen =>
      (given.follows seen).elim other unknown
    rcases given.tgid_create new found with ⟨rfl, rfl⟩ | ⟨differ, -, earlier⟩
    · rcases member with member | member
      · exact absurd (Or.inl member) unseen
      · rcases (mem_create _ _ _ _).mp member with ⟨-, followed⟩ | waiting
        · exact creates.group (sound.tasks lives (Or.inl followed))
        · exact absurd (Or.inr waiting) unseen
    · refine mem_joins (sound.tasks earlier (member.imp_right fun member => ?_))
      exact ((mem_create _ _ _ _).mp member).resolve_left fun same => differ same.1
  passed := by
    intro process' label member
    rw [family_snoc]
    rcases List.mem_append.mp member with earlier | now
    · exact mem_joins (sound.passed earlier)
    · rcases creates with ⟨rfl, -⟩ | ⟨rfl, -⟩ <;> simp at now

include given creates lives runs new unknown in
theorem Complete.create (complete : Complete keys first history s) :
    Complete keys first (history ++ [act]) (s.create group parent child) where
  tasks := by
    intro task process' found member
    rw [family_snoc] at member
    -- a parent of the family is in the filter, as it runs
    have followed : process ∈ family (named keys first) history → parent ∈ s.my_config := fun mine =>
      (complete.tasks lives mine).resolve_right runs
    rcases given.tgid_create new found with ⟨rfl, rfl⟩ | ⟨-, differ, earlier⟩
    · refine Or.inr ((mem_create _ _ _ _).mpr (Or.inl ⟨rfl, followed ?_⟩))
      rcases creates.joins member with ⟨-, -, mine⟩ | already
      · exact mine
      · rcases creates with ⟨-, rfl⟩ | ⟨-, rfl⟩
        · exact absurd (given.member _ already) unknown
        · exact already
    · have already := (creates.joins member).resolve_left fun same => differ same.1
      exact (complete.tasks earlier already).imp_right fun waiting =>
        (mem_create _ _ _ _).mpr (Or.inr waiting)
  dropped := by
    intro process' label member
    rcases List.mem_append.mp member with earlier | now
    · obtain ⟨outside, known⟩ := complete.dropped earlier
      refine ⟨fun member => ?_, known.snoc⟩
      rw [family_snoc] at member
      rcases creates.joins member with ⟨rfl, -⟩ | already
      · exact unknown known
      · exact outside already
    · rcases creates with ⟨rfl, -⟩ | ⟨rfl, -⟩ <;> simp at now

end Create

/-- An act that creates no task. -/
theorem Known.same {task : UInt32} (none_ : act.created = []) :
    Known first (history ++ [act]) task ↔ Known first history task := by
  rw [Known, Known, created_snoc, none_, List.append_nil]

theorem Act.joins_same {family : List UInt32} (none_ : act.created = []) : act.joins family = family := by
  cases act <;> first | rfl | cases none_

theorem Given.step (given : Given keys first history s) (move : Step goes entry s act t) :
    Given keys first (history ++ [act]) t := by
  -- the family and the ids given stay as they are unless a task is created
  have same : act.created = [] →
      family (named keys first) (history ++ [act]) = family (named keys first) history := fun none_ => by
    rw [family_snoc, Act.joins_same none_]
  cases move with
  | fork lives runs new => exact given.create (Or.inl ⟨rfl, rfl⟩) lives runs new
  | thread lives runs new => exact given.create (Or.inr ⟨rfl, rfl⟩) lives runs new
  | add created =>
      refine ⟨given.leader, fun found member => given.alone found (Multiset.mem_of_mem_erase member),
        fun found => (given.lives found).snoc, fun {task} member => ?_, fun process member => ?_⟩
      · have before : task ∈ s.my_config ∨ task ∈ s.adding := by
          rcases member with member | member
          · rcases mem_update_elem member with rfl | earlier
            · exact Or.inr created
            · exact Or.inl earlier
          · exact Or.inr (Multiset.mem_of_mem_erase member)
        exact (given.follows before).imp_right Known.snoc
      · rw [same rfl] at member
        exact (given.member _ member).snoc
  | @exit task process lives runs last =>
      have stays : ∀ {other process'}, Function.update s.tgid task none other = some process' →
          other ≠ task ∧ s.tgid other = some process' := by
        intro other process' found
        by_cases here : other = task
        · subst here
          rw [Function.update_self] at found
          cases found
        · exact ⟨here, (Function.update_of_ne here _ _).symm.trans found⟩
      refine ⟨fun {other process'} found => ?_, fun found member => given.alone (stays found).2 member,
        fun found => (given.lives (stays found).2).snoc,
        fun member => (given.follows member).imp_right Known.snoc, fun process member => ?_⟩
      · obtain ⟨differ, earlier⟩ := stays found
        have first_ := given.leader earlier
        refine (Function.update_of_ne ?_ _ _).trans first_
        -- the first task of a process ends last
        rintro rfl
        have mine : process = process' := Option.some.inj (lives.symm.trans first_)
        exact differ (last mine _ earlier)
      · rw [same rfl] at member
        exact (given.member _ member).snoc
  | pass | discard | behind =>
      exact ⟨given.leader, given.alone, fun found => (given.lives found).snoc,
        fun member => (given.follows member).imp_right Known.snoc,
        fun process member => (given.member _ (by rwa [same rfl] at member)).snoc⟩

theorem Sound.step (given : Given keys first history s) (sound : Sound keys first history s)
    (unreused : Unreused keys first (history ++ [act])) (move : Step goes entry s act t) :
    Sound keys first (history ++ [act]) t := by
  have kept : ∀ {process'}, process' ∈ family (named keys first) history →
      process' ∈ family (named keys first) (history ++ [act]) := fun member => by
    rw [family_snoc]
    exact mem_joins member
  have earlier : ∀ {process' label}, .pass process' label ∈ history ++ [act] →
      .pass process' label ≠ act → process' ∈ family (named keys first) (history ++ [act]) := by
    intro process' label member differ
    refine kept (sound.passed ((List.mem_append.mp member).resolve_right fun now => differ ?_))
    exact List.mem_singleton.mp now
  cases move with
  | fork lives runs new =>
      obtain ⟨unknown, other⟩ := unreused.new (List.mem_singleton_self _)
      exact sound.create given (Or.inl ⟨rfl, rfl⟩) lives new unknown other
  | thread lives runs new =>
      obtain ⟨unknown, other⟩ := unreused.new (List.mem_singleton_self _)
      exact sound.create given (Or.inr ⟨rfl, rfl⟩) lives new unknown other
  | add created =>
      refine ⟨fun found member => kept (sound.tasks found ?_), fun member => earlier member (by simp)⟩
      rcases member with member | member
      · rcases mem_update_elem member with rfl | before
        · exact Or.inr created
        · exact Or.inl before
      · exact Or.inr (Multiset.mem_of_mem_erase member)
  | @exit task process lives runs last =>
      refine ⟨fun {other process'} found member => kept (sound.tasks ?_ member),
        fun member => earlier member (by simp)⟩
      by_cases here : other = task
      · subst here
        have gone := (Function.update_self other none s.tgid).symm.trans found
        cases gone
      · exact (Function.update_of_ne here _ _).symm.trans found
  | @pass task process label behind lives runs call collect moves =>
      refine ⟨fun found member => kept (sound.tasks found member), fun {process' label'} member => ?_⟩
      by_cases here : (.pass process' label' : Act L) = .pass process label
      · cases here
        exact kept (sound.tasks (given.leader lives) (Or.inl (to_discard_eq_false.mp collect)))
      · exact earlier member here
  | discard | behind =>
      exact ⟨fun found member => kept (sound.tasks found member), fun member => earlier member (by simp)⟩

theorem Complete.step (given : Given keys first history s) (complete : Complete keys first history s)
    (unreused : Unreused keys first (history ++ [act])) (move : Step goes entry s act t)
    (room : t.my_config.entries.length < MAX_PIDS) : Complete keys first (history ++ [act]) t := by
  have earlier : act.created = [] → ∀ {process' label}, .discard process' label ∈ history ++ [act] →
      .discard process' label ≠ act → process' ∉ family (named keys first) (history ++ [act]) ∧
        Known first (history ++ [act]) process' := by
    intro none_ process' label member differ
    rw [family_snoc, Act.joins_same none_, Known.same none_]
    refine complete.dropped ((List.mem_append.mp member).resolve_right fun now => differ ?_)
    exact List.mem_singleton.mp now
  have same : act.created = [] →
      family (named keys first) (history ++ [act]) = family (named keys first) history := fun none_ => by
    rw [family_snoc, Act.joins_same none_]
  cases move with
  | fork lives runs new =>
      have unknown := (unreused.new (List.mem_singleton_self _)).1
      exact complete.create given (Or.inl ⟨rfl, rfl⟩) lives runs new unknown
  | thread lives runs new =>
      have unknown := (unreused.new (List.mem_singleton_self _)).1
      exact complete.create given (Or.inr ⟨rfl, rfl⟩) lives runs new unknown
  | @add child created =>
      refine ⟨fun {task process'} found member => ?_, fun member => earlier rfl member (by simp)⟩
      rw [same rfl] at member
      rcases complete.tasks found member with here | waiting
      · exact Or.inl (update_elem_keeps here)
      · by_cases it : task = child
        · subst it
          exact Or.inl (update_elem_adds ((update_elem_length _ _).trans_lt room))
        · exact Or.inr ((Multiset.mem_erase_of_ne it).mpr waiting)
  | @exit task process lives runs last =>
      refine ⟨fun {other process'} found member => ?_, fun member => earlier rfl member (by simp)⟩
      rw [same rfl] at member
      by_cases here : other = task
      · subst here
        have gone := (Function.update_self other none s.tgid).symm.trans found
        cases gone
      · exact complete.tasks ((Function.update_of_ne here _ _).symm.trans found) member
  | @discard task process label lives runs call drop =>
      refine ⟨fun found member => complete.tasks found (by rwa [same rfl] at member),
        fun {process' label'} member => ?_⟩
      by_cases here : (.discard process' label' : Act L) = .discard process label
      · cases here
        refine ⟨fun mine => ?_, (given.lives (given.leader lives)).snoc⟩
        rw [same rfl] at mine
        rcases complete.tasks (given.leader lives) mine with followed | waiting
        · rw [to_discard_eq_false.mpr followed] at drop
          cases drop
        -- only the first task of a process that is being added could make the call
        · have first_ := given.alone lives waiting
          rw [first_] at runs
          exact runs waiting
      · exact earlier rfl member here
  | pass | behind =>
      exact ⟨fun found member => complete.tasks found (by rwa [same rfl] at member),
        fun member => earlier rfl member (by simp)⟩

/-! ## Runs -/

section Runs

variable {argv : List (List UInt8)} {start : S}

theorem Step.length_le (move : Step goes entry s act t) :
    s.my_config.entries.length ≤ t.my_config.entries.length := by
  cases move with
  | add => exact update_elem_length _ _
  | _ => exact le_rfl

/-- What passes is of the family, and all that is of it passes as long as there is room. -/
theorem follows (led : Led first) (run : Runs (Step goes entry) (attached argv first start) history s)
    (unreused : Unreused (configure argv) first history) :
    Given (configure argv) first history s ∧ Sound (configure argv) first history s ∧
      (SingleThreaded (configure argv) first → s.my_config.entries.length < MAX_PIDS →
        Complete (configure argv) first history s) := by
  have seed : ∀ {task process}, first task = some process → task ∈ configure argv →
      process ∈ named (configure argv) first := fun found member =>
    List.mem_filterMap.mpr ⟨_, AList.mem_keys.mp member, found⟩
  induction run with
  | nil =>
      refine ⟨⟨led _ _, fun _ member => ?_, fun found => Or.inl ?_, fun member => Or.inl ?_, ?_⟩,
        ⟨fun found member => ?_, fun member => ?_⟩,
        fun single _ => ⟨fun found member => Or.inl (single _ _ found member), fun member => ?_⟩⟩
      · exact absurd member (Multiset.notMem_zero _)
      · exact fun none_ => by cases none_.symm.trans found
      · exact member.resolve_right (Multiset.notMem_zero _)
      · intro process member
        obtain ⟨task, -, found⟩ := List.mem_filterMap.mp member
        exact Or.inl fun none_ => by cases none_.symm.trans (led _ _ found)
      · exact seed found (member.resolve_right (Multiset.notMem_zero _))
      · cases member
      · cases member
  | snoc earlier move ih =>
      obtain ⟨given, sound, complete⟩ := ih unreused.earlier
      exact ⟨given.step move, sound.step given unreused move, fun single room =>
        (complete single (move.length_le.trans_lt room)).step given unreused move room⟩

/-- Behind the filter there is a run of its own. -/
theorem inner_run (run : Runs (Step goes entry) s history t) : Runs goes s.behind (inner history) t.behind := by
  induction run with
  | nil => exact .nil
  | @snoc history s t act earlier move ih =>
      rw [inner, List.filterMap_append]
      cases move with
      | pass lives runs call collect moves => exact ih.snoc moves
      | behind call moves => exact ih.snoc moves
      | _ => exact (List.append_nil (inner history)).symm ▸ ih

/-- The call a label hands over, if a process of some family makes it. -/
def Act.call {α : Type} (f : L → Option α) (family : List UInt32) : Act L → Option α
  | .pass process label | .discard process label => if process ∈ family then f label else none
  | _ => none

/-- The calls of a family. -/
def calls {α : Type} (f : L → Option α) (family : List UInt32) (history : List (Act L)) : List α :=
  history.filterMap (Act.call f family)

/-- A call comes with the process that makes it. -/
def Act.Labelled (entry : L → Option ℤ) : Act L → Prop
  | .pass process label | .discard process label => entry label = some (int32 process.toNat)
  | .behind label => entry label = none
  | _ => True

theorem labelled (run : Runs (Step goes entry) s history t) : ∀ act ∈ history, act.Labelled entry := by
  induction run with
  | nil => exact fun act member => by cases member
  | snoc earlier move ih =>
      intro act member
      rcases List.mem_append.mp member with before | now
      · exact ih act before
      · obtain rfl := List.mem_singleton.mp now
        cases move <;> first | assumption | trivial

/-- A call that begins behind the filter is one of a process of the family. -/
theorem entry_of_family (run : Runs (Step goes entry) t history s) (sound : Sound keys first history s)
    {label : L} {pid : ℤ} (member : label ∈ inner history) (call : entry label = some pid) :
    ∃ process ∈ family (named keys first) history, pid = int32 process.toNat := by
  obtain ⟨act, here, acts⟩ := List.mem_filterMap.mp member
  have labelled_ := labelled run act here
  cases act with
  | pass process =>
      cases acts
      exact ⟨process, sound.passed here, Option.some.inj (call.symm.trans labelled_)⟩
  | behind =>
      cases acts
      cases call.symm.trans labelled_
  | _ => cases acts

/-- What passes are the calls of the family. -/
theorem calls_eq {α : Type} (f : L → Option α) (begins : ∀ label, entry label = none → f label = none)
    (run : Runs (Step goes entry) t history s) (sound : Sound keys first history s)
    (complete : Complete keys first history s) :
    calls f (family (named keys first) history) history = (inner history).filterMap f := by
  rw [calls, inner, List.filterMap_filterMap]
  refine List.filterMap_congr fun act member => ?_
  have label := labelled run act member
  cases act with
  | pass process label => exact if_pos (sound.passed member)
  | discard process label => exact if_neg (complete.dropped member).1
  | behind inner_ => exact (begins _ label).symm
  | _ => rfl

end Runs

end Filtered

/-! ## The counter behind its filter -/

/-- The `pid` of the call that begins. -/
def Event.entry : Event → Option ℤ
  | .enter call => some (int32 call.pid.toNat)
  | .advance _ _ => none

/-- The call that begins. -/
def Event.call : Event → Option UpdateCall
  | .enter call => some call
  | .advance _ _ => none

section Counter

open Filtered

variable {argv : List (List UInt8)} {first : UInt32 → Option UInt32}
variable {history : List (Filtered.Act Event)} {s : Filtered State}

/-- The system when the tracer starts: process 7. -/
def firstSeven (task : UInt32) : Option UInt32 := if task = 7 then some 7 else none

theorem firstSeven_eq {task process : UInt32} (found : firstSeven task = some process) :
    task = 7 ∧ process = 7 := by
  unfold firstSeven at found
  split at found
  next here => exact ⟨here, (Option.some.inj found).symm⟩
  next => cases found

theorem led_firstSeven : Led firstSeven := by
  intro task process found
  obtain ⟨rfl, rfl⟩ := firstSeven_eq found
  exact found

theorem single_firstSeven : SingleThreaded (configure [[55]]) firstSeven := by
  intro task process found _
  obtain ⟨rfl, -⟩ := firstSeven_eq found
  decide

/-- Process 7 is the argument, and has a child. -/
theorem forked_child {S L : Type} (goes : S → L → S → Prop) (entry : L → Option ℤ) (start : S) :
    ∃ s : Filtered S, Runs (Filtered.Step goes entry) (attached [[55]] firstSeven start)
        [.fork 7 7 8, .add 8] s ∧
      s.tgid 8 = some 8 ∧ 8 ∉ s.adding ∧ s.my_config.to_discard 8 = false ∧
      s.my_config.entries.length < MAX_PIDS ∧ s.behind = start := by
  have fork : Filtered.Step goes entry (attached [[55]] firstSeven start) (.fork 7 7 8)
      ((attached [[55]] firstSeven start).create 8 7 8) :=
    .fork rfl (Multiset.notMem_zero _) rfl
  have named : 7 ∈ configure [[55]] := by decide
  have looks : (configure [[55]]).trace_sched_process_fork 7 8 = some 8 := by decide
  have collect : ((configure [[55]]).update_elem 8 1).to_discard 8 = false := by decide
  have room : ((configure [[55]]).update_elem 8 1).entries.length < MAX_PIDS := by decide
  have waits : 8 ∈ ((attached [[55]] firstSeven start).create 8 7 8).adding :=
    (mem_create _ _ _ _).mpr (Or.inl ⟨rfl, named⟩)
  refine ⟨_, Runs.nil.snoc fork |>.snoc (.add waits), rfl, ?_, collect, room, rfl⟩
  show 8 ∉ (((configure [[55]]).trace_sched_process_fork 7 8).toList + 0 : Multiset UInt32).erase 8
  rw [looks]
  decide

/-- The id of the child is new. -/
theorem unreused_child {L : Type} {history : List (Filtered.Act L)}
    (once : created history = [8]) : Unreused (configure [[55]]) firstSeven history := by
  constructor
  · rw [once]
    exact List.nodup_singleton 8
  · intro child member
    rw [once, List.mem_singleton] at member
    subst member
    exact ⟨by decide, by decide⟩

end Counter

end ProjetoTSO.Syscounter
