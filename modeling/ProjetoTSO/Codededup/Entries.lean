import ProjetoTSO.Codededup.Moves
import ProjetoTSO.Codededup.Sizes

/-!
# Who has an entry

An unlink takes an entry out of the index and has it for itself: nobody else takes it, puts
it back or frees it (`Entries`).  This holds in every run, whatever else the calls do with
the entry.
-/

namespace ProjetoTSO.Codededup.Threads

open CInt LockedPrograms FifoRwlock Transition

variable {T : Type} [DecidableEq T]

/-- The entry an unlink has taken out of the index and not freed or put back. -/
def Frame.unlinked : Frame → Option FileRef
  | .stolen f => some f
  | .failed f => some f
  | .removing f => some f
  | .releasing f _ _ => some f
  | .released f => some f
  | _ => none

theorem Frame.hand_of_unlinked {frame : Frame} {f : FileRef} (unlinked : frame.unlinked = some f) :
    frame.hand = some f := by
  cases frame <;> first | exact unlinked | cases unlinked

/-- An entry is in the index once, or in the hands of one unlink, and is not freed. -/
structure Entries (frames : T → Frame) (s : Store) : Prop where
  once : ∀ {path path' f}, s.fileIndex.lookup path = some f → s.fileIndex.lookup path' = some f →
    path' = path
  alive : ∀ {path f}, s.fileIndex.lookup path = some f → (s.files f).freed = false
  out : ∀ {t f}, (frames t).unlinked = some f → ∀ path, s.fileIndex.lookup path ≠ some f
  kept : ∀ {t f}, (frames t).unlinked = some f → (s.files f).freed = false
  alone : ∀ {t u f}, (frames t).unlinked = some f → (frames u).unlinked = some f → u = t

namespace Entries

variable {frames : T → Frame} {frame : Frame} {s s' : Store} {t : T} {path : Path} {f : FileRef}

omit [DecidableEq T] in
/-- Before any call has begun. -/
theorem start (once : ∀ {path path' f}, s.fileIndex.lookup path = some f →
      s.fileIndex.lookup path' = some f → path' = path)
    (alive : ∀ {path f}, s.fileIndex.lookup path = some f → (s.files f).freed = false) :
    Entries (fun _ : T => .outside) s where
  once := once
  alive := alive
  out unlinked := by cases unlinked
  kept unlinked := by cases unlinked
  alone unlinked := by cases unlinked

/-- What an unlink has after one frame changed. -/
theorem unlinked_update {u : T} {g : FileRef}
    (has : (Function.update frames t frame u).unlinked = some g) :
    u = t ∧ frame.unlinked = some g ∨ u ≠ t ∧ (frames u).unlinked = some g := by
  rcases eq_or_ne u t with rfl | differ
  · rw [Function.update_self] at has
    exact Or.inl ⟨rfl, has⟩
  · rw [Function.update_of_ne differ] at has
    exact Or.inr ⟨differ, has⟩

/-- A step that leaves the index alone and frees nothing. -/
theorem quiet (entries : Entries frames s) (unlinked : frame.unlinked = (frames t).unlinked)
    (fileIndex : s'.fileIndex = s.fileIndex) (freed : ∀ g, (s'.files g).freed = (s.files g).freed) :
    Entries (Function.update frames t frame) s' := by
  have before : ∀ {u g}, (Function.update frames t frame u).unlinked = some g →
      (frames u).unlinked = some g := by
    intro u g has
    rcases unlinked_update has with ⟨rfl, mine⟩ | ⟨-, other⟩
    · rwa [← unlinked]
    · exact other
  constructor
  · rw [fileIndex]
    exact entries.once
  · intro path f found
    rw [freed]
    exact entries.alive (fileIndex ▸ found)
  · intro u f has path
    rw [fileIndex]
    exact entries.out (before has) path
  · intro u f has
    rw [freed]
    exact entries.kept (before has)
  · exact fun has has' => entries.alone (before has) (before has')

/-- Only the frame changes. -/
theorem turn (entries : Entries frames s) (unlinked : frame.unlinked = (frames t).unlinked) :
    Entries (Function.update frames t frame) s :=
  entries.quiet unlinked rfl fun _ => rfl

/-- A new entry. -/
theorem create (entries : Entries frames s) (outside : (frames t).unlinked = none)
    (unlinked : frame.unlinked = none)
    (indexed : ∀ {path f}, s.fileIndex.lookup path = some f → f < s.nextFile)
    (inHand : ∀ {u f}, (frames u).unlinked = some f → f < s.nextFile) :
    Entries (Function.update frames t frame) (findFile path s).2 := by
  unfold findFile
  cases absent : s.fileIndex.lookup path with
  | some f => exact entries.turn (unlinked.trans outside.symm)
  | none =>
      have looked : ∀ {other g}, (s.fileIndex.insert path s.nextFile).lookup other = some g →
          other = path ∧ g = s.nextFile ∨ other ≠ path ∧ s.fileIndex.lookup other = some g := by
        intro other g found
        rcases eq_or_ne other path with rfl | differ
        · rw [AList.lookup_insert] at found
          exact Or.inl ⟨rfl, (Option.some.inj found).symm⟩
        · rw [AList.lookup_insert_ne differ] at found
          exact Or.inr ⟨differ, found⟩
      have before : ∀ {u g}, (Function.update frames t frame u).unlinked = some g →
          (frames u).unlinked = some g := by
        intro u g has
        rcases unlinked_update has with ⟨-, mine⟩ | ⟨-, other⟩
        · rw [unlinked] at mine
          cases mine
        · exact other
      constructor
      · intro path₁ path₂ g found found'
        rcases looked found with ⟨rfl, rfl⟩ | ⟨-, old⟩ <;>
          rcases looked found' with ⟨rfl, new⟩ | ⟨-, old'⟩
        · rfl
        · exact absurd (indexed old') (lt_irrefl _)
        · exact absurd (new ▸ indexed old) (lt_irrefl _)
        · exact entries.once old old'
      · intro other g found
        show (Function.update s.files s.nextFile _ g).freed = false
        rcases looked found with ⟨-, rfl⟩ | ⟨-, old⟩
        · rw [Function.update_self]
          rfl
        · rw [Function.update_of_ne (indexed old).ne]
          exact entries.alive old
      · intro u g has other found
        rcases looked found with ⟨-, rfl⟩ | ⟨-, old⟩
        · exact lt_irrefl _ (inHand (before has))
        · exact entries.out (before has) other old
      · intro u g has
        show (Function.update s.files s.nextFile _ g).freed = false
        rw [Function.update_of_ne (inHand (before has)).ne]
        exact entries.kept (before has)
      · exact fun has has' => entries.alone (before has) (before has')

/-- An entry is taken out of the index. -/
theorem take (entries : Entries frames s) (found : s.fileIndex.lookup path = some f) :
    Entries (Function.update frames t (.stolen f)) (stealFile path s) where
  once found found' := entries.once (stealFile_lookup.mp found).2 (stealFile_lookup.mp found').2
  alive found := entries.alive (stealFile_lookup.mp found).2
  out {u g} has other inside := by
    obtain ⟨differ, old⟩ := stealFile_lookup.mp inside
    rcases unlinked_update has with ⟨-, mine⟩ | ⟨-, theirs⟩
    · cases mine
      exact differ (entries.once found old)
    · exact entries.out theirs other old
  kept {u g} has := by
    rcases unlinked_update has with ⟨-, mine⟩ | ⟨-, theirs⟩
    · cases mine
      exact entries.alive found
    · exact entries.kept theirs
  alone {u v g} has has' := by
    rcases unlinked_update has with ⟨rfl, mine⟩ | ⟨-, theirs⟩ <;>
      rcases unlinked_update has' with ⟨rfl, mine'⟩ | ⟨-, theirs'⟩
    · rfl
    · cases mine
      exact absurd found (entries.out theirs' path)
    · cases mine'
      exact absurd found (entries.out theirs path)
    · exact entries.alone theirs theirs'

/-- An entry is put back; the one that is in its place is freed. -/
theorem restore (entries : Entries frames s) (here : frames t = .failed f) :
    Entries (Function.update frames t (.restored f)) (reinsertFile path f s) := by
  have mine : (frames t).unlinked = some f := by rw [here]; rfl
  have looked : ∀ {other g}, (reinsertFile path f s).fileIndex.lookup other = some g →
      other = path ∧ g = f ∨ other ≠ path ∧ s.fileIndex.lookup other = some g := by
    intro other g found
    rw [reinsertFile_lookup] at found
    split_ifs at found with same
    · exact Or.inl ⟨same, (Option.some.inj found).symm⟩
    · exact Or.inr ⟨same, found⟩
  have kept : ∀ {g}, s.fileIndex.lookup path ≠ some g → (s.files g).freed = false →
      ((reinsertFile path f s).files g).freed = false := by
    intro g apart alive
    obtain ⟨freed, same, how⟩ := reinsertFile_files path f s g
    rw [same]
    exact (how.resolve_right apart).trans alive
  have before : ∀ {u g}, (Function.update frames t (.restored f) u).unlinked = some g →
      u ≠ t ∧ (frames u).unlinked = some g := by
    intro u g has
    rcases unlinked_update has with ⟨-, none_⟩ | other
    · cases none_
    · exact other
  constructor
  · intro path₁ path₂ g found found'
    rcases looked found with ⟨rfl, rfl⟩ | ⟨-, old⟩ <;>
      rcases looked found' with ⟨rfl, new⟩ | ⟨-, old'⟩
    · rfl
    · exact absurd old' (entries.out mine _)
    · exact absurd (new ▸ old) (entries.out mine _)
    · exact entries.once old old'
  · intro other g found
    rcases looked found with ⟨-, rfl⟩ | ⟨differ, old⟩
    · exact kept (entries.out mine _) (entries.kept mine)
    · exact kept (fun there => differ (entries.once there old)) (entries.alive old)
  · intro u g has other found
    obtain ⟨differ, theirs⟩ := before has
    rcases looked found with ⟨-, rfl⟩ | ⟨-, old⟩
    · exact differ (entries.alone mine theirs)
    · exact entries.out theirs other old
  · intro u g has
    exact kept (entries.out (before has).2 _) (entries.kept (before has).2)
  · exact fun has has' => entries.alone (before has).2 (before has').2

/-- An entry is freed. -/
theorem close (entries : Entries frames s) (here : frames t = .released f) :
    Entries (Function.update frames t (.removed f)) (freeFilemeta f s) := by
  have mine : (frames t).unlinked = some f := by rw [here]; rfl
  have others : ∀ {g}, g ≠ f → ((freeFilemeta f s).files g).freed = (s.files g).freed :=
    fun {g} differ => by rw [freeFilemeta, Store.setFile_files_ne s _ differ]
  have before : ∀ {u g}, (Function.update frames t (.removed f) u).unlinked = some g →
      u ≠ t ∧ (frames u).unlinked = some g := by
    intro u g has
    rcases unlinked_update has with ⟨-, none_⟩ | other
    · cases none_
    · exact other
  constructor
  · exact entries.once
  · intro path g found
    have differ : g ≠ f := fun same => entries.out mine path (same ▸ found)
    rw [others differ]
    exact entries.alive found
  · exact fun has path => entries.out (before has).2 path
  · intro u g has
    obtain ⟨differ, theirs⟩ := before has
    have apart : g ≠ f := fun same => differ (entries.alone mine (same ▸ theirs))
    rw [others apart]
    exact entries.kept theirs
  · exact fun has has' => entries.alone (before has).2 (before has').2

end Entries

/-! ## The acts that free no entry -/

theorem writeBlock_marks (f : FileRef) (out : PwriteOut) (entry : BlockRef × Page)
    (created : List BlockRef) (s : Store) (g : FileRef) :
    ((writeBlock f out entry created s).2.2.files g).lockReady = (s.files g).lockReady ∧
      ((writeBlock f out entry created s).2.2.files g).freed = (s.files g).freed := by
  have same : ∀ (s' : Store) (file : Filemeta), s'.files = s.files →
      file.lockReady = (s.files f).lockReady → file.freed = (s.files f).freed →
      ((s'.setFile f file).files g).lockReady = (s.files g).lockReady ∧
        ((s'.setFile f file).files g).freed = (s.files g).freed := by
    intro s' file files ready freed
    rcases eq_or_ne g f with rfl | differ
    · rw [Store.setFile_files_self]
      exact ⟨ready, freed⟩
    · rw [Store.setFile_files_ne s' file differ, files]
      exact ⟨rfl, rfl⟩
  unfold writeBlock
  simp only
  split_ifs
  · exact same s _ rfl rfl rfl
  · cases out with
    | fail errno left => exact same _ _ rfl rfl rfl
    | done n => exact same _ _ rfl rfl rfl
  · exact same s _ rfl rfl rfl

theorem growFile_freed (f : FileRef) (err offset : ℤ) (size : ℕ) (s : Store) (g : FileRef) :
    ((growFile f err offset size s).files g).freed = (s.files g).freed := by
  obtain ⟨logicalSize, same⟩ := growFile_eq f err offset size s
  rw [same]
  rcases eq_or_ne g f with rfl | differ
  · rw [Store.setFile_files_self]
  · rw [Store.setFile_files_ne s _ differ]

theorem growFile_fileIndex (f : FileRef) (err offset : ℤ) (size : ℕ) (s : Store) :
    (growFile f err offset size s).fileIndex = s.fileIndex := by
  obtain ⟨logicalSize, same⟩ := growFile_eq f err offset size s
  rw [same, Store.setFile_fileIndex]

variable {SHA512 : Page → BlockId} {calls : T → Call} {ids : BlockRef → BlockId}
variable {clause : Clause T} {held : T → List (Lock × Mode)} {frames : T → Frame} {s s' : Store}
variable {t : T} {frame' : Frame}

omit [DecidableEq T] in
/-- What an unlink has in hand was created. -/
theorem Turn.unlinked_lt {frame : Frame} (turn : Turn clause ids held frames s t frame) {u : T}
    {f : FileRef} (has : (frames u).unlinked = some f) : f < s.nextFile :=
  turn.pointers.files (Or.inr ⟨u, Frame.hand_of_unlinked has⟩)

/-- **No move breaks the rules of the entries.** -/
theorem Entries.move (entries : Entries frames s)
    (move : Move SHA512 calls ids clause held frames s t frame' s') :
    Entries (Function.update frames t frame') s' := by
  cases move with
  | find turn =>
      refine entries.turn ?_
      rw [turn.here]
      cases s.fileIndex.lookup (calls t).path <;> rfl
  | create call turn =>
      exact entries.create (by rw [turn.here]; rfl) rfl
        (fun found => turn.pointers.files (Or.inl ⟨_, found⟩)) turn.unlinked_lt
  | enter turn inHand =>
      refine entries.turn ?_
      rw [turn.here]
      rcases inHand with rfl | rfl <;> rfl
  | begin_ call turn inHand =>
      refine entries.turn ?_
      rw [turn.here]
      rcases inHand with rfl | rfl <;> rfl
  | leave turn leaves =>
      refine entries.turn ?_
      rw [turn.here]
      cases leaves <;> rfl
  | window call inside turn => exact entries.turn (by rw [turn.here]; rfl)
  | count call hashes noted turn =>
      exact entries.quiet (by rw [turn.here]; rfl) rfl fun _ => rfl
  | @lookup path buf offset f tables seen hash rest call hashes noted turn =>
      obtain ⟨only, -⟩ := lookupBlock_blocksOnly tables s hash
      exact entries.quiet (by rw [turn.here]; rfl) only.fileIndex fun g => by rw [only.files]
  | @place path buf offset f tables blocks_to_lock call noted perm turn =>
      have only := assignOffsets_offsetsOnly blocks_to_lock tables.my_created_blocks s
      exact entries.quiet (by rw [turn.here]; rfl) only.fileIndex fun g => by rw [only.files]
  | store call noted block data left turn =>
      exact entries.quiet (by rw [turn.here]; rfl) (writeBlock_appended _ _ _ _ s).fileIndex
        fun g => (writeBlock_marks _ _ _ _ s g).2
  | grow call noted outcome turn =>
      exact entries.quiet (by rw [turn.here]; rfl) (growFile_fileIndex _ _ _ _ s)
        (growFile_freed _ _ _ _ s)
  | finish call noted turn => exact entries.turn (by rw [turn.here]; rfl)
  | @take path call turn =>
      unfold takeFile
      cases found : s.fileIndex.lookup path with
      | none => exact entries.turn (by rw [turn.here]; rfl)
      | some f => exact entries.take found
  | fail call turn => exact entries.turn (by rw [turn.here]; rfl)
  | restore call turn => exact entries.restore turn.here
  | remove call turn => exact entries.turn (by rw [turn.here]; rfl)
  | counts call turn => exact entries.turn (by rw [turn.here]; rfl)
  | @lower path f b ocorrencias rest call turn =>
      have released := lowerCounter_released b ocorrencias s
      exact entries.quiet (by rw [turn.here]; rfl) released.fileIndex
        fun g => by rw [released.files]
  | push call turn => exact entries.quiet (by rw [turn.here]; rfl) rfl fun _ => rfl
  | free call turn => exact entries.quiet (by rw [turn.here]) rfl fun _ => rfl
  | released call turn => exact entries.turn (by rw [turn.here]; rfl)
  | close call turn => exact entries.close turn.here

/-! ## Where entries come from -/

/-- **An entry in the index or in some hand** was there before, or has just been created. -/
theorem Move.reachable (move : Move SHA512 calls ids clause held frames s t frame' s') {f : FileRef}
    (reach : Reachable (Function.update frames t frame') s' f) :
    Reachable frames s f ∨ f = s.nextFile ∧ (s'.files f).logicalSize = 0 ∧
      (s'.files f).blockList = [] := by
  have index : ∀ {frame' : Frame} {s' : Store}, s'.fileIndex = s.fileIndex →
      (∀ g, frame'.hand = some g → Reachable frames s g) →
      Reachable (Function.update frames t frame') s' f → Reachable frames s f :=
    fun fileIndex hand reach => Pointers.reachable_update
      (fun found => Or.inl ⟨_, fileIndex ▸ found⟩) (hand _) reach
  have kept : ∀ {frame frame' : Frame} {s' : Store}, Reachable (Function.update frames t frame') s' f →
      frames t = frame → s'.fileIndex = s.fileIndex → frame'.hand = frame.hand →
      Reachable frames s f :=
    fun reach here fileIndex same => index fileIndex
      (fun g has => Or.inr ⟨t, by rw [here, ← same, has]⟩) reach
  have none_ : ∀ {frame' : Frame}, frame'.hand = none →
      ∀ g, frame'.hand = some g → Reachable frames s g := by
    intro frame' empty g has
    rw [empty] at has
    cases has
  cases move with
  | find turn =>
      refine Or.inl (index rfl (fun g has => ?_) reach)
      cases found : s.fileIndex.lookup (calls t).path with
      | none =>
          rw [found] at has
          cases has
      | some f =>
          rw [found] at has
          cases has
          exact Or.inl ⟨_, found⟩
  | @create path buf offset call turn =>
      cases entry : s.fileIndex.lookup path with
      | some g =>
          have result : findFile path s = (g, s) := by
            unfold findFile
            simp only [entry]
          rw [result] at reach ⊢
          refine Or.inl (index rfl (fun h has => ?_) reach)
          cases has
          exact Or.inl ⟨path, entry⟩
      | none =>
          have result : findFile path s = (s.nextFile, createFile path s) := by
            unfold findFile
            simp only [entry]
          rw [result] at reach ⊢
          rcases eq_or_ne f s.nextFile with rfl | differ
          · refine Or.inr ⟨rfl, ?_⟩
            show (Function.update s.files s.nextFile _ s.nextFile).logicalSize = 0 ∧
              (Function.update s.files s.nextFile _ s.nextFile).blockList = []
            rw [Function.update_self]
            exact ⟨rfl, rfl⟩
          · refine Or.inl ?_
            rcases reach with ⟨other, found⟩ | ⟨u, has⟩
            · have found : (s.fileIndex.insert path s.nextFile).lookup other = some f := found
              by_cases same : other = path
              · rw [same, AList.lookup_insert] at found
                exact absurd (Option.some.inj found).symm differ
              · rw [AList.lookup_insert_ne same] at found
                exact Or.inl ⟨other, found⟩
            · rcases eq_or_ne u t with rfl | apart
              · rw [Function.update_self] at has
                exact absurd (Option.some.inj has).symm differ
              · rw [Function.update_of_ne apart] at has
                exact Or.inr ⟨u, has⟩
  | enter turn inHand =>
      refine Or.inl (kept reach turn.here rfl ?_)
      rcases inHand with rfl | rfl <;> rfl
  | begin_ call turn inHand =>
      refine Or.inl (kept reach turn.here rfl ?_)
      rcases inHand with rfl | rfl <;> rfl
  | leave turn leaves => exact Or.inl (index rfl (none_ rfl) reach)
  | window call inside turn => exact Or.inl (kept reach turn.here rfl rfl)
  | count call hashes noted turn => exact Or.inl (kept reach turn.here rfl rfl)
  | @lookup path buf offset f tables seen hash rest call hashes noted turn =>
      have only := (lookupBlock_blocksOnly tables s hash).1
      exact Or.inl (kept reach turn.here only.fileIndex rfl)
  | @place path buf offset f tables blocks_to_lock call noted perm turn =>
      have only := assignOffsets_offsetsOnly blocks_to_lock tables.my_created_blocks s
      exact Or.inl (kept reach turn.here only.fileIndex rfl)
  | store call noted block data left turn =>
      exact Or.inl (kept reach turn.here (writeBlock_appended _ _ _ _ s).fileIndex rfl)
  | grow call noted outcome turn =>
      exact Or.inl (kept reach turn.here (growFile_fileIndex _ _ _ _ s) rfl)
  | finish call noted turn => exact Or.inl (index rfl (none_ rfl) reach)
  | @take path call turn =>
      unfold takeFile at reach ⊢
      cases found : s.fileIndex.lookup path with
      | none =>
          rw [found] at reach
          exact Or.inl (index rfl (none_ rfl) reach)
      | some g =>
          rw [found] at reach
          refine Or.inl (Pointers.reachable_update (fun {other h} inside => ?_) (fun {h} has => ?_) reach)
          · exact Or.inl ⟨other, (stealFile_lookup.mp inside).2⟩
          · cases has
            exact Or.inl ⟨path, found⟩
  | fail call turn => exact Or.inl (kept reach turn.here rfl rfl)
  | @restore path g call turn =>
      refine Or.inl (Pointers.reachable_update (fun {other h} found => ?_) (fun has => by cases has)
        reach)
      rw [reinsertFile_lookup] at found
      split_ifs at found with here
      · cases found
        exact Or.inr ⟨t, by rw [turn.here]; rfl⟩
      · exact Or.inl ⟨other, found⟩
  | remove call turn => exact Or.inl (kept reach turn.here rfl rfl)
  | counts call turn => exact Or.inl (kept reach turn.here rfl rfl)
  | @lower path f b ocorrencias rest call turn =>
      exact Or.inl (kept reach turn.here (lowerCounter_released b ocorrencias s).fileIndex rfl)
  | push call turn => exact Or.inl (kept reach turn.here rfl rfl)
  | free call turn => exact Or.inl (kept reach turn.here rfl rfl)
  | released call turn => exact Or.inl (kept reach turn.here rfl rfl)
  | close call turn => exact Or.inl (index rfl (none_ rfl) reach)

end ProjetoTSO.Codededup.Threads
