import ProjetoTSO.Codededup.Entries

/-!
# Where writes land

A call that has an entry in hand has the one its path names, or one that an unlink of the
path has taken out of the index and waits for (`Landing`).  Two things would break this: an
unlink that gets the lock of an entry before the write that created it does, and an unlink
that fails and puts its entry back over one that is in use (`Careful`).
-/

namespace ProjetoTSO.Codededup.Threads

open CInt LockedPrograms FifoRwlock Transition

/-! ## The part a call plays -/

/-- What a call has to do with an entry. -/
inductive Part
  | none
  /-- Looked up, and `file_index_lock` not released since. -/
  | finding (f : FileRef)
  | working (f : FileRef)
  | wrote (f : FileRef) (offset : ℤ) (newBlocksInfo : List BlockRef)
  /-- An unlink that waits for the lock of its entry. -/
  | waiting (f : FileRef)
  /-- An unlink that got the lock. -/
  | taking (f : FileRef)
  | removed (f : FileRef)

def Frame.part : Frame → Part
  | .outside => .none
  | .found f => .finding f
  | .window f => .working f
  | .entered f _ => .working f
  | .reading f _ => .working f
  | .writing f _ _ => .working f
  | .wrote f offset newBlocksInfo => .wrote f offset newBlocksInfo
  | .stolen f => .waiting f
  | .failed f => .taking f
  | .restored _ => .none
  | .removing f => .taking f
  | .releasing f _ _ => .taking f
  | .released f => .taking f
  | .removed f => .removed f

/-- The unlink has taken the entry out of the index and not put it back. -/
inductive Part.Takes (f : FileRef) : Part → Prop
  | waiting : Takes f (.waiting f)
  | taking : Takes f (.taking f)
  | removed : Takes f (.removed f)

theorem Part.Takes.of_waiting {part : Part} {f : FileRef} (waits : part = .waiting f) :
    part.Takes f := waits ▸ .waiting

theorem Part.Takes.of_taking {part : Part} {f : FileRef} (takes : part = .taking f) :
    part.Takes f := takes ▸ .taking

theorem Frame.eq_stolen {frame : Frame} {f : FileRef} (waits : frame.part = .waiting f) :
    frame = .stolen f := by
  cases frame <;> cases waits
  rfl

variable {T : Type} [DecidableEq T]

/-- The entry is the one of the path, or an unlink of the path waits for it. -/
def Live (calls : T → Call) (parts : T → Part) (s : Store) (path : Path) (f : FileRef) : Prop :=
  s.fileIndex.lookup path = some f ∨ ∃ u, calls u = .unlink path ∧ parts u = .waiting f

/-- Which entries calls have, and which the written ones are. -/
structure Landing (calls : T → Call) (parts : T → Part) (s : Store) : Prop where
  finding : ∀ {t f}, parts t = .finding f → s.fileIndex.lookup (calls t).path = some f
  working : ∀ {t f}, parts t = .working f → Live calls parts s (calls t).path f
  taking : ∀ {t f}, (parts t).Takes f → calls t = .unlink (calls t).path
  removed : ∀ {t f}, parts t = .removed f → (s.files f).freed = true ∧ f < s.nextFile
  wrote : ∀ {t f offset newBlocksInfo}, parts t = .wrote f offset newBlocksInfo →
    f < s.nextFile ∧ (s.fileIndex.lookup (calls t).path = some f ∨
      ∃ u, calls u = .unlink (calls t).path ∧ (parts u).Takes f)

namespace Landing

variable {calls : T → Call} {parts : T → Part} {s s' : Store} {t : T} {part : Part} {f : FileRef}

/-- What a part is after one changed. -/
theorem part_update {u : T} {mine : Part} (has : Function.update parts t part u = mine) :
    u = t ∧ part = mine ∨ u ≠ t ∧ parts u = mine := by
  rcases eq_or_ne u t with rfl | differ
  · rw [Function.update_self] at has
    exact Or.inl ⟨rfl, has⟩
  · rw [Function.update_of_ne differ] at has
    exact Or.inr ⟨differ, has⟩

omit [DecidableEq T] in
theorem start (calls : T → Call) (s : Store) : Landing calls (fun _ => .none) s where
  finding has := by cases has
  working has := by cases has
  taking has := by cases has
  removed has := by cases has
  wrote has := by cases has

omit [DecidableEq T] in
/-- A step that changes no part, and neither the index nor what is freed. -/
theorem quiet (landing : Landing calls parts s) (fileIndex : s'.fileIndex = s.fileIndex)
    (nextFile : s'.nextFile = s.nextFile) (freed : ∀ g, (s'.files g).freed = (s.files g).freed) :
    Landing calls parts s' := by
  constructor
  · intro t f has
    rw [fileIndex]
    exact landing.finding has
  · intro t f has
    rw [Live, fileIndex]
    exact landing.working has
  · exact landing.taking
  · intro t f has
    rw [freed, nextFile]
    exact landing.removed has
  · intro t f offset newBlocksInfo has
    rw [fileIndex, nextFile]
    exact landing.wrote has

/-- A call that is no unlink takes up an entry or lets go of one, and the index only grows. -/
theorem become (landing : Landing calls parts s) (was : ∀ g, ¬ (parts t).Takes g)
    (takes : ∀ g, ¬ part.Takes g)
    (finding : ∀ g, part = .finding g → s'.fileIndex.lookup (calls t).path = some g)
    (working : ∀ g, part = .working g → Live calls parts s' (calls t).path g)
    (wrote : ∀ g offset newBlocksInfo, part = .wrote g offset newBlocksInfo →
      g < s.nextFile ∧ Live calls parts s' (calls t).path g)
    (index : ∀ {path g}, s.fileIndex.lookup path = some g → s'.fileIndex.lookup path = some g)
    (nextFile : s.nextFile ≤ s'.nextFile)
    (freed : ∀ g < s.nextFile, (s.files g).freed = true → (s'.files g).freed = true) :
    Landing calls (Function.update parts t part) s' := by
  have others : ∀ {u g}, (parts u).Takes g → Function.update parts t part u = parts u := by
    intro u g taken
    refine Function.update_of_ne (fun same => ?_) _ _
    exact was g (same ▸ taken)
  have live : ∀ {path g}, Live calls parts s' path g →
      Live calls (Function.update parts t part) s' path g := by
    rintro path g (found | ⟨u, unlinks, waits⟩)
    · exact Or.inl found
    · refine Or.inr ⟨u, unlinks, ?_⟩
      rw [others (.of_waiting waits), waits]
  constructor
  · intro u g has
    rcases part_update has with ⟨rfl, mine⟩ | ⟨-, theirs⟩
    · exact finding g mine
    · exact index (landing.finding theirs)
  · intro u g has
    rcases part_update has with ⟨rfl, mine⟩ | ⟨-, theirs⟩
    · exact live (working g mine)
    · exact live ((landing.working theirs).imp_left index)
  · intro u g has
    rcases eq_or_ne u t with rfl | differ
    · rw [Function.update_self] at has
      exact absurd has (takes g)
    · rw [Function.update_of_ne differ] at has
      exact landing.taking has
  · intro u g has
    rcases part_update has with ⟨rfl, mine⟩ | ⟨-, theirs⟩
    · exact absurd (mine ▸ .removed) (takes g)
    · obtain ⟨gone, below⟩ := landing.removed theirs
      exact ⟨freed g below gone, below.trans_le nextFile⟩
  · intro u g offset newBlocksInfo has
    rcases part_update has with ⟨rfl, mine⟩ | ⟨-, theirs⟩
    · obtain ⟨below, entry⟩ := wrote g offset newBlocksInfo mine
      refine ⟨below.trans_le nextFile, (live entry).imp_right ?_⟩
      rintro ⟨v, unlinks, waits⟩
      exact ⟨v, unlinks, .of_waiting waits⟩
    · obtain ⟨below, entry⟩ := landing.wrote theirs
      refine ⟨below.trans_le nextFile, entry.imp index ?_⟩
      rintro ⟨v, unlinks, taken⟩
      refine ⟨v, unlinks, ?_⟩
      rwa [others taken]

/-- An unlink takes the entry of its path; no call has just looked one up. -/
theorem take {path : Path} (landing : Landing calls parts s) (call : calls t = .unlink path)
    (was : parts t = .none) (found : s.fileIndex.lookup path = some f)
    (alone : ∀ u g, parts u ≠ .finding g) :
    Landing calls (Function.update parts t (.waiting f)) (stealFile path s) := by
  have here : Function.update parts t (.waiting f) t = .waiting f := Function.update_self ..
  have others : ∀ {u g}, (parts u).Takes g →
      Function.update parts t (.waiting f) u = parts u := by
    intro u g taken
    refine Function.update_of_ne (fun same => ?_) _ _
    rw [same, was] at taken
    cases taken
  have entry : ∀ {other g}, s.fileIndex.lookup other = some g →
      (stealFile path s).fileIndex.lookup other = some g ∨ other = path ∧ g = f := by
    intro other g old
    by_cases same : other = path
    · rw [same, found] at old
      exact Or.inr ⟨same, (Option.some.inj old).symm⟩
    · exact Or.inl (stealFile_lookup.mpr ⟨same, old⟩)
  constructor
  · intro u g has
    rcases part_update has with ⟨-, mine⟩ | ⟨-, theirs⟩
    · cases mine
    · exact absurd theirs (alone u g)
  · intro u g has
    rcases part_update has with ⟨-, mine⟩ | ⟨-, theirs⟩
    · cases mine
    · rcases landing.working theirs with old | ⟨v, unlinks, waits⟩
      · rcases entry old with still | ⟨same, rfl⟩
        · exact Or.inl still
        · exact Or.inr ⟨t, by rw [call, same], here⟩
      · refine Or.inr ⟨v, unlinks, ?_⟩
        rw [others (.of_waiting waits), waits]
  · intro u g has
    rcases eq_or_ne u t with rfl | differ
    · rw [call]
      rfl
    · rw [Function.update_of_ne differ] at has
      exact landing.taking has
  · intro u g has
    rcases part_update has with ⟨-, mine⟩ | ⟨-, theirs⟩
    · cases mine
    · exact landing.removed theirs
  · intro u g offset newBlocksInfo has
    rcases part_update has with ⟨-, mine⟩ | ⟨-, theirs⟩
    · cases mine
    · obtain ⟨below, old⟩ := landing.wrote theirs
      refine ⟨below, ?_⟩
      rcases old with old | ⟨v, unlinks, taken⟩
      · rcases entry old with still | ⟨same, rfl⟩
        · exact Or.inl still
        · exact Or.inr ⟨t, by rw [call, same], .of_waiting here⟩
      · refine Or.inr ⟨v, unlinks, ?_⟩
        rwa [others taken]

/-- An unlink gets the lock of its entry; no call works on it. -/
theorem seize (landing : Landing calls parts s) (was : parts t = .waiting f)
    (unused : ∀ u, parts u ≠ .working f) :
    Landing calls (Function.update parts t (.taking f)) s := by
  have taken : ∀ {u g}, (parts u).Takes g → (Function.update parts t (.taking f) u).Takes g := by
    intro u g taken
    rcases eq_or_ne u t with rfl | differ
    · rw [was] at taken
      cases taken
      rw [Function.update_self]
      exact .taking
    · rwa [Function.update_of_ne differ]
  constructor
  · intro u g has
    rcases part_update has with ⟨-, mine⟩ | ⟨-, theirs⟩
    · cases mine
    · exact landing.finding theirs
  · intro u g has
    rcases part_update has with ⟨-, mine⟩ | ⟨-, theirs⟩
    · cases mine
    · refine (landing.working theirs).imp_right ?_
      rintro ⟨v, unlinks, waits⟩
      refine ⟨v, unlinks, ?_⟩
      rwa [Function.update_of_ne]
      rintro rfl
      rw [was] at waits
      cases waits
      exact unused u theirs
  · intro u g has
    rcases eq_or_ne u t with rfl | differ
    · exact landing.taking (.of_waiting was)
    · rw [Function.update_of_ne differ] at has
      exact landing.taking has
  · intro u g has
    rcases part_update has with ⟨-, mine⟩ | ⟨-, theirs⟩
    · cases mine
    · exact landing.removed theirs
  · intro u g offset newBlocksInfo has
    rcases part_update has with ⟨-, mine⟩ | ⟨-, theirs⟩
    · cases mine
    · obtain ⟨below, entry⟩ := landing.wrote theirs
      refine ⟨below, entry.imp_right ?_⟩
      rintro ⟨v, unlinks, has⟩
      exact ⟨v, unlinks, taken has⟩

/-- An unlink puts its entry back; no call uses the one that is in its place. -/
theorem restore {path : Path} (landing : Landing calls parts s) (call : calls t = .unlink path)
    (was : parts t = .taking f)
    (lookup : ∀ other, s'.fileIndex.lookup other =
      if other = path then some f else s.fileIndex.lookup other)
    (nextFile : s'.nextFile = s.nextFile)
    (freed : ∀ g, (s.files g).freed = true → (s'.files g).freed = true)
    (alone : ∀ u g, parts u ≠ .finding g)
    (unused : ∀ u g, s.fileIndex.lookup path = some g → parts u ≠ .working g ∧
      ∀ offset newBlocksInfo, parts u ≠ .wrote g offset newBlocksInfo) :
    Landing calls (Function.update parts t .none) s' := by
  have kept : ∀ {other g}, s.fileIndex.lookup other = some g →
      s'.fileIndex.lookup other = some g ∨ s.fileIndex.lookup path = some g := by
    intro other g old
    by_cases same : other = path
    · exact Or.inr (same ▸ old)
    · left
      rw [lookup, if_neg same, old]
  have waits : ∀ {v g}, parts v = .waiting g → Function.update parts t .none v = .waiting g := by
    intro v g waits
    rwa [Function.update_of_ne]
    rintro rfl
    rw [was] at waits
    cases waits
  constructor
  · intro u g has
    rcases part_update has with ⟨-, mine⟩ | ⟨-, theirs⟩
    · cases mine
    · exact absurd theirs (alone u g)
  · intro u g has
    rcases part_update has with ⟨-, mine⟩ | ⟨-, theirs⟩
    · cases mine
    · rcases landing.working theirs with old | ⟨v, unlinks, waiting⟩
      · rcases kept old with still | there
        · exact Or.inl still
        · exact absurd theirs (unused u g there).1
      · exact Or.inr ⟨v, unlinks, waits waiting⟩
  · intro u g has
    rcases eq_or_ne u t with rfl | differ
    · rw [Function.update_self] at has
      cases has
    · rw [Function.update_of_ne differ] at has
      exact landing.taking has
  · intro u g has
    rcases part_update has with ⟨-, mine⟩ | ⟨-, theirs⟩
    · cases mine
    · obtain ⟨gone, old⟩ := landing.removed theirs
      exact ⟨freed g gone, nextFile ▸ old⟩
  · intro u g offset newBlocksInfo has
    rcases part_update has with ⟨-, mine⟩ | ⟨-, theirs⟩
    · cases mine
    · obtain ⟨old, entry⟩ := landing.wrote theirs
      refine ⟨nextFile ▸ old, ?_⟩
      rcases entry with found | ⟨v, unlinks, taken⟩
      · rcases kept found with still | there
        · exact Or.inl still
        · exact absurd theirs ((unused u g there).2 offset newBlocksInfo)
      · by_cases own : v = t
        · -- the entry that is put back is the written one
          subst own
          rw [was] at taken
          cases taken
          rw [call] at unlinks
          left
          rw [lookup, if_pos (Call.unlink.inj unlinks).symm]
        · refine Or.inr ⟨v, unlinks, ?_⟩
          rwa [Function.update_of_ne own]

/-- An unlink frees its entry. -/
theorem close (landing : Landing calls parts s) (was : parts t = .taking f) (below : f < s.nextFile) :
    Landing calls (Function.update parts t (.removed f)) (freeFilemeta f s) := by
  have freed : ∀ g, (s.files g).freed = true → ((freeFilemeta f s).files g).freed = true := by
    intro g gone
    rcases eq_or_ne g f with rfl | differ
    · rw [freeFilemeta, Store.setFile_files_self]
    · rwa [freeFilemeta, Store.setFile_files_ne s _ differ]
  have taken : ∀ {u g}, (parts u).Takes g → (Function.update parts t (.removed f) u).Takes g := by
    intro u g taken
    rcases eq_or_ne u t with rfl | differ
    · rw [was] at taken
      cases taken
      rw [Function.update_self]
      exact .removed
    · rwa [Function.update_of_ne differ]
  constructor
  · intro u g has
    rcases part_update has with ⟨-, mine⟩ | ⟨-, theirs⟩
    · cases mine
    · exact landing.finding theirs
  · intro u g has
    rcases part_update has with ⟨-, mine⟩ | ⟨-, theirs⟩
    · cases mine
    · refine (landing.working theirs).imp_right ?_
      rintro ⟨v, unlinks, waits⟩
      refine ⟨v, unlinks, ?_⟩
      rwa [Function.update_of_ne]
      rintro rfl
      rw [was] at waits
      cases waits
  · intro u g has
    rcases eq_or_ne u t with rfl | differ
    · exact landing.taking (.of_taking was)
    · rw [Function.update_of_ne differ] at has
      exact landing.taking has
  · intro u g has
    rcases part_update has with ⟨-, mine⟩ | ⟨-, theirs⟩
    · cases mine
      refine ⟨?_, below⟩
      rw [freeFilemeta, Store.setFile_files_self]
    · obtain ⟨gone, old⟩ := landing.removed theirs
      exact ⟨freed g gone, old⟩
  · intro u g offset newBlocksInfo has
    rcases part_update has with ⟨-, mine⟩ | ⟨-, theirs⟩
    · cases mine
    · obtain ⟨old, entry⟩ := landing.wrote theirs
      refine ⟨old, entry.imp_right ?_⟩
      rintro ⟨v, unlinks, has⟩
      exact ⟨v, unlinks, taken has⟩

end Landing

/-! ## The moves -/

theorem findFile_lookup (path : Path) (s : Store) :
    (findFile path s).2.fileIndex.lookup path = some (findFile path s).1 := by
  unfold findFile
  cases found : s.fileIndex.lookup path with
  | some f => exact found
  | none => exact AList.lookup_insert _

theorem findFile_keeps {s : Store} {path other : Path} {g : FileRef}
    (old : s.fileIndex.lookup other = some g) :
    (findFile path s).2.fileIndex.lookup other = some g := by
  unfold findFile
  cases absent : s.fileIndex.lookup path with
  | some f => exact old
  | none =>
      have differ : other ≠ path := by
        rintro rfl
        rw [absent] at old
        cases old
      exact (AList.lookup_insert_ne differ).trans old

def parts (frames : T → Frame) (t : T) : Part := (frames t).part

theorem parts_update (frames : T → Frame) (t : T) (frame : Frame) :
    parts (Function.update frames t frame) = Function.update (parts frames) t frame.part := by
  funext u
  rcases eq_or_ne u t with rfl | differ
  · rw [parts, Function.update_self, Function.update_self]
  · rw [parts, Function.update_of_ne differ, Function.update_of_ne differ]
    rfl

/-- An unlink that gets the lock of its entry finds no write before the lock, and one that
puts its entry back finds none in its place that is in use or was written. -/
structure Careful (calls : T → Call) (frames : T → Frame) (s : Store) (t : T) (frame' : Frame) :
    Prop where
  seize : ∀ {f}, frame' = .failed f ∨ frame' = .removing f → ∀ u, frames u ≠ .window f
  restore : ∀ {f g}, frame' = .restored f → s.fileIndex.lookup (calls t).path = some g →
    ∀ u, (frames u).hand ≠ some g ∧ ∀ offset newBlocksInfo, frames u ≠ .wrote g offset newBlocksInfo

theorem Frame.hand_of_working {frame : Frame} {f : FileRef} (works : frame.part = .working f) :
    frame.hand = some f := by
  cases frame <;> cases works <;> rfl

/-- A call that works on an entry has its lock, or is a write before the lock. -/
theorem Frame.locked_of_working {frame : Frame} {f : FileRef} (works : frame.part = .working f) :
    frame = .window f ∨ frame.locked = some f := by
  cases frame <;> cases works <;> first | exact Or.inl rfl | exact Or.inr rfl

section Moves

variable {SHA512 : Page → BlockId} {calls : T → Call} {ids : BlockRef → BlockId}
variable {clause : Clause T} {held : T → List (Lock × Mode)} {frames : T → Frame} {s s' : Store}
variable {t : T} {frame frame' : Frame}

omit [DecidableEq T] in
/-- Who has `file_index_lock` to write is the only one between a lookup and its release. -/
theorem Turn.alone (turn : Turn clause ids held frames s t frame) (index :
    (Lock.file_index_lock, Mode.write) ∈ held t) (other : ∀ g, frame ≠ .found g) (u : T)
    (g : FileRef) : parts frames u ≠ .finding g := by
  intro finds
  have found : frames u = .found g := by
    rw [parts] at finds
    cases here : frames u with
    | found h =>
        rw [here] at finds
        cases finds
        rfl
    | _ =>
        rw [here] at finds
        cases finds
  obtain rfl := turn.exclusive index ((turn.fits u).found found)
  exact other g (turn.here.symm.trans found)

omit [DecidableEq T] in
/-- Who has the lock of an entry to write is the only one with it. -/
theorem Turn.unused {f : FileRef} (turn : Turn clause ids held frames s t frame)
    (lock : (Lock.file f, Mode.write) ∈ held t) (other : frame.part ≠ .working f)
    (window : ∀ u, frames u ≠ .window f) (u : T) : parts frames u ≠ .working f := by
  intro works
  rcases Frame.locked_of_working works with before | inside
  · exact window u before
  · obtain ⟨mode, has⟩ := (turn.fits u).locked inside
    obtain rfl := turn.exclusive lock has
    exact other (turn.here ▸ works)

namespace Landing

/-- **Every careful move keeps to the entries of the paths.** -/
theorem move (landing : Landing calls (parts frames) s)
    (careful : ∀ {frame' s'}, clause.allowed frames s t frame' s' → Careful calls frames s t frame')
    (move : Move SHA512 calls ids clause held frames s t frame' s') :
    Landing calls (parts (Function.update frames t frame')) s' := by
  have quiet : ∀ {frame' : Frame} {s' : Store}, frame'.part = (frames t).part →
      s'.fileIndex = s.fileIndex → s'.nextFile = s.nextFile →
      (∀ g, (s'.files g).freed = (s.files g).freed) →
      Landing calls (parts (Function.update frames t frame')) s' := by
    intro frame' s' part fileIndex nextFile freed
    have same : Function.update (parts frames) t frame'.part = parts frames := by
      rw [part]
      exact Function.update_eq_self t (parts frames)
    rw [parts_update, same]
    exact landing.quiet fileIndex nextFile freed
  have plain : ∀ {frame : Frame}, frames t = frame → (∀ g, ¬ frame.part.Takes g) →
      ∀ g, ¬ (parts frames t).Takes g := by
    intro frame here none_ g
    rw [parts, here]
    exact none_ g
  -- the index and the entries stay as they are
  have become : ∀ {frame' : Frame}, (∀ g, ¬ (parts frames t).Takes g) →
      (∀ g, ¬ frame'.part.Takes g) →
      (∀ g, frame'.part = .finding g → s.fileIndex.lookup (calls t).path = some g) →
      (∀ g, frame'.part = .working g → Live calls (parts frames) s (calls t).path g) →
      (∀ g offset newBlocksInfo, frame'.part = .wrote g offset newBlocksInfo →
        g < s.nextFile ∧ Live calls (parts frames) s (calls t).path g) →
      Landing calls (parts (Function.update frames t frame')) s := by
    intro frame' was takes finding working wrote
    rw [parts_update]
    exact landing.become was takes finding working wrote (fun found => found) le_rfl
      fun _ _ gone => gone
  cases move with
  | find turn =>
      refine become (plain turn.here fun g => by rintro ⟨⟩) ?_ ?_ ?_ ?_ <;>
        cases found : s.fileIndex.lookup (calls t).path <;> rintro g
      · rintro ⟨⟩
      · rintro ⟨⟩
      · rintro ⟨⟩
      · rintro ⟨⟩
        rfl
      · rintro ⟨⟩
      · rintro ⟨⟩
      · rintro _ _ ⟨⟩
      · rintro _ _ ⟨⟩
  | @create path buf offset call turn =>
      have where_ : (calls t).path = path := by rw [call]; rfl
      rw [parts_update]
      refine landing.become (plain turn.here fun g => by rintro ⟨⟩) (fun g => by rintro ⟨⟩)
        (fun g => by rintro ⟨⟩) ?_ (fun g _ _ => by rintro ⟨⟩) ?_ ?_ ?_
      · rintro g ⟨⟩
        rw [where_]
        exact Or.inl (findFile_lookup path s)
      · intro other g old
        exact findFile_keeps old
      · unfold findFile
        cases s.fileIndex.lookup path with
        | some f => exact le_rfl
        | none => exact Nat.le_succ _
      · intro g below gone
        unfold findFile
        cases s.fileIndex.lookup path with
        | some f => exact gone
        | none =>
            show (Function.update s.files s.nextFile _ g).freed = true
            rwa [Function.update_of_ne below.ne]
  | @enter f mode frame turn inHand lock =>
      rcases inHand with rfl | rfl
      · refine become (plain turn.here fun g => by rintro ⟨⟩) (fun g => by rintro ⟨⟩)
          (fun g => by rintro ⟨⟩) ?_ fun g _ _ => by rintro ⟨⟩
        rintro g ⟨⟩
        exact Or.inl (landing.finding (congrArg Frame.part turn.here))
      · exact quiet (by rw [turn.here]; rfl) rfl rfl fun _ => rfl
  | @begin_ path buf offset f frame call turn inHand lock =>
      rcases inHand with rfl | rfl
      · refine become (plain turn.here fun g => by rintro ⟨⟩) (fun g => by rintro ⟨⟩)
          (fun g => by rintro ⟨⟩) ?_ fun g _ _ => by rintro ⟨⟩
        rintro g ⟨⟩
        exact Or.inl (landing.finding (congrArg Frame.part turn.here))
      · exact quiet (by rw [turn.here]; rfl) rfl rfl fun _ => rfl
  | @leave f mode frame turn leaves =>
      refine become (plain turn.here fun g => ?_) (fun g => by rintro ⟨⟩) (fun g => by rintro ⟨⟩)
        (fun g => by rintro ⟨⟩) fun g _ _ => by rintro ⟨⟩
      cases leaves <;> rintro ⟨⟩
  | window call inside turn => exact quiet (by rw [turn.here]; rfl) rfl rfl fun _ => rfl
  | count call hashes noted turn => exact quiet (by rw [turn.here]; rfl) rfl rfl fun _ => rfl
  | @lookup path buf offset f tables seen hash rest call hashes noted turn =>
      obtain ⟨only, -⟩ := lookupBlock_blocksOnly tables s hash
      exact quiet (by rw [turn.here]; rfl) only.fileIndex only.nextFile fun g => by rw [only.files]
  | @place path buf offset f tables blocks_to_lock call noted perm turn =>
      have only := assignOffsets_offsetsOnly blocks_to_lock tables.my_created_blocks s
      exact quiet (by rw [turn.here]; rfl) only.fileIndex only.nextFile fun g => by rw [only.files]
  | @store path buf offset f tables i b page created out call noted block data left turn =>
      have appended := writeBlock_appended f out (b, page) created s
      exact quiet (by rw [turn.here]; rfl) appended.fileIndex appended.nextFile
        fun g => (writeBlock_marks _ _ _ _ s g).2
  | @grow path buf offset f tables i err call noted outcome turn =>
      obtain ⟨logicalSize, same⟩ := growFile_eq f err offset buf.length s
      exact quiet (by rw [turn.here]; rfl) (growFile_fileIndex _ _ _ _ s) (by rw [same]; rfl)
        (growFile_freed _ _ _ _ s)
  | @finish path buf offset f tables call noted turn =>
      refine become (plain turn.here fun g => by rintro ⟨⟩) (fun g => by rintro ⟨⟩)
        (fun g => by rintro ⟨⟩) (fun g => by rintro ⟨⟩) ?_
      rintro g _ _ ⟨⟩
      have works : parts frames t = .working f := congrArg Frame.part turn.here
      exact ⟨turn.pointers.files (Or.inr ⟨t, Frame.hand_of_working works⟩), landing.working works⟩
  | @take path call turn index =>
      unfold takeFile
      cases found : s.fileIndex.lookup path with
      | none => exact quiet (by rw [turn.here]; rfl) rfl rfl fun _ => rfl
      | some f =>
          show Landing calls (parts (Function.update frames t (.stolen f))) (stealFile path s)
          rw [parts_update]
          exact landing.take call (congrArg Frame.part turn.here) found
            (turn.alone index fun g => by rintro ⟨⟩)
  | @fail path f call turn lock allowed =>
      rw [parts_update]
      exact landing.seize (congrArg Frame.part turn.here) (turn.unused lock (by rintro ⟨⟩)
        ((careful allowed).seize (Or.inl rfl)))
  | @restore path f call turn index allowed =>
      rw [parts_update]
      refine landing.restore call (congrArg Frame.part turn.here) (reinsertFile_lookup path f s) ?_ ?_
        (turn.alone index fun g => by rintro ⟨⟩) ?_
      · unfold reinsertFile
        cases s.fileIndex.lookup path <;> rfl
      · intro g gone
        unfold reinsertFile
        cases s.fileIndex.lookup path with
        | none => exact gone
        | some old =>
            show ((freeFilemeta old s).files g).freed = true
            rcases eq_or_ne g old with rfl | differ
            · rw [freeFilemeta, Store.setFile_files_self]
            · rwa [freeFilemeta, Store.setFile_files_ne s _ differ]
      · intro u g there
        have here : (calls t).path = path := by rw [call]; rfl
        obtain ⟨hand, wrote⟩ := (careful allowed).restore rfl (here ▸ there) u
        refine ⟨fun works => hand (Frame.hand_of_working works), fun offset newBlocksInfo has => ?_⟩
        refine wrote offset newBlocksInfo ?_
        rw [parts] at has
        cases same : frames u with
        | wrote =>
            rw [same] at has
            cases has
            rfl
        | _ =>
            rw [same] at has
            cases has
  | @remove path f call turn lock allowed =>
      rw [parts_update]
      exact landing.seize (congrArg Frame.part turn.here) (turn.unused lock (by rintro ⟨⟩)
        ((careful allowed).seize (Or.inr rfl)))
  | counts call turn => exact quiet (by rw [turn.here]; rfl) rfl rfl fun _ => rfl
  | @lower path f b ocorrencias rest call turn =>
      have released := lowerCounter_released b ocorrencias s
      exact quiet (by rw [turn.here]; rfl) released.fileIndex released.nextFile
        fun g => by rw [released.files]
  | push call turn => exact quiet (by rw [turn.here]; rfl) rfl rfl fun _ => rfl
  | free call turn => exact quiet (by rw [turn.here]) rfl rfl fun _ => rfl
  | released call turn => exact quiet (by rw [turn.here]; rfl) rfl rfl fun _ => rfl
  | @close path f call turn =>
      rw [parts_update]
      refine landing.close (congrArg Frame.part turn.here) (turn.unlinked_lt (u := t) ?_)
      rw [turn.here]
      rfl

end Landing

end Moves

end ProjetoTSO.Codededup.Threads
