import ProjetoTSO.Codededup.DeadEntries

/-!
# Reads among writes

While other calls append to a file and take it out of the index, a read of it finds every
index of its window in the block list (`reads_in_bounds`): a file lists the blocks of its
length before it has the length, and no list ever loses a block.
-/

namespace ProjetoTSO.Codededup.Threads

open CInt LockedPrograms FifoRwlock Transition

/-! ## What is asked of a run -/

/-- An act in which no counter wraps around, and after which the file in hand has fewer than
`2 ^ 31` blocks. -/
structure Small (s : Store) (frame' : Frame) (s' : Store) : Prop where
  counters : ∀ b, (s.blocks b).counter = 2 ^ 31 - 1 → (s'.blocks b).counter ≠ -2 ^ 31
  lists : ∀ f, frame'.hand = some f → (s'.files f).blockList.length < 2 ^ 31

/-- Requests as they come from the kernel: a read begins at an offset of a file and ends at
one. -/
def Call.Proper : Call → Prop
  | .read _ size offset => 0 ≤ offset ∧ offset + size < 2 ^ 63
  | _ => True

/-- A write of whole pages. -/
def Call.Aligned : Call → Prop
  | .write _ buf _ => buf.length % 4096 = 0
  | _ => True

variable {T : Type} [DecidableEq T]

/-- Only writes of whole pages act. -/
theorem aligned_run {SHA512 : Page → BlockId} {calls : T → Call} {s : Store}
    {allows : (T → Frame) → Store → T → Frame → Store → Prop}
    {trace : List (LockedPrograms.Event T Lock)} {m : State T}
    (run : Runs (Machine.Allows Lock.fifo allows) (start SHA512 s calls) trace m) :
    Runs (Machine.Allows Lock.fifo fun frames s t frame' s' =>
      allows frames s t frame' s' ∧ (calls t).Aligned) (start SHA512 s calls) trace m := by
  induction run with
  | nil => exact .nil
  | @snoc trace m after event earlier move ih =>
      refine ih.snoc ⟨move.1, fun t acts => ⟨move.2 t acts, ?_⟩⟩
      cases call : calls t with
      | write path buf offset =>
          by_contra odd
          have done : program SHA512 (calls t) = .ret (.status (-EINVAL)) := by
            rw [call]
            exact if_pos odd
          exact (move.1.finished (stays_returned done earlier)).1 (by rw [acts]; rfl)
      | _ => exact trivial

/-! ## Lengths and lists -/

/-- How long a file is in which a write is this far. -/
def Grows (file : Filemeta) (offset : ℤ) : Phase → Prop
  | .looking => file.logicalSize = offset
  | .placed k => file.logicalSize = offset ∧
      ∃ blocks : ℕ, offset = 4096 * blocks ∧ blocks + k ≤ file.blockList.length
  | .stored _ => True

/-- A file with a longer list. -/
structure Extends (file file' : Filemeta) : Prop where
  logicalSize : file'.logicalSize = file.logicalSize
  blockList : file.blockList <+: file'.blockList

theorem Extends.refl (file : Filemeta) : Extends file file := ⟨rfl, List.prefix_refl _⟩

theorem Extends.sized {file file' : Filemeta} (more : Extends file file') (sized : file.Sized) :
    file'.Sized := by
  obtain ⟨blocks, length, within⟩ := sized
  exact ⟨blocks, more.logicalSize.trans length, within.trans more.blockList.length_le⟩

theorem Extends.grows {file file' : Filemeta} {offset : ℤ} {phase : Phase}
    (more : Extends file file') (grows : Grows file offset phase) : Grows file' offset phase := by
  cases phase with
  | looking => exact more.logicalSize.trans grows
  | placed k =>
      obtain ⟨size, blocks, length, within⟩ := grows
      exact ⟨more.logicalSize.trans size, blocks, length, within.trans more.blockList.length_le⟩
  | stored err => exact trivial

/-- What the calls rely on. -/
structure Sizing (calls : T → Call) (frames : T → Frame) (s : Store) : Prop where
  sized : s.Sized
  writes : ∀ {t f tables phase}, frames t = .writing f tables phase →
    ∃ path buf offset, calls t = .write path buf offset ∧ Grows (s.files f) offset phase
  entered : ∀ {t f size}, frames t = .entered f size →
    ∃ blocks : ℕ, size = 4096 * blocks ∧ blocks ≤ (s.files f).blockList.length
  reading : ∀ {t f blocks}, frames t = .reading f blocks → ∀ b ∈ blocks, b ∈ (s.files f).blockList

/-! ## The window of a read -/

/-- A window that begins before the end of the file is in the list. -/
theorem window_in_list {blockList : List BlockRef} {blocks size : ℕ} {offset : ℤ}
    (within : blocks ≤ blockList.length) (short : blockList.length < 2 ^ 31)
    (inside : offset < 4096 * (blocks : ℤ)) (nonneg : 0 ≤ offset) (bound : offset + size < 2 ^ 63) :
    ∃ entries, windowBlocks blockList (startIndex offset)
        (endIndex offset (clampSize (4096 * blocks) offset size)) = some entries ∧
      ∀ entry ∈ entries, 0 ≤ entry.1 ∧ entry.1 < blockList.length := by
  obtain ⟨offset, rfl⟩ := Int.eq_ofNat_of_zero_le nonneg
  have clamped : clampSize (4096 * (blocks : ℤ)) offset size = min size (4096 * blocks - offset) := by
    exact_mod_cast @clampSize_eq offset size (4096 * blocks) (by omega) (by omega) (by omega)
  have start := @startIndex_eq offset (by omega)
  have stop := @endIndex_eq offset (min size (4096 * blocks - offset)) (by omega)
  have range : offset / 4096 + blocksRead offset (min size (4096 * blocks - offset)) ≤
      blockList.length := by
    unfold blocksRead
    omega
  rw [clamped, start]
  refine ⟨_, windowBlocks_eq range (by omega) stop, fun entry member => ?_⟩
  obtain ⟨lower, upper⟩ := mem_entriesFrom member
  exact ⟨lower, upper.trans_le (by exact_mod_cast range)⟩

namespace Sizing

variable {calls : T → Call} {frames : T → Frame} {s s' : Store} {t : T} {frame : Frame}

omit [DecidableEq T] in
theorem start (calls : T → Call) (sized : s.Sized) : Sizing calls (fun _ => .outside) s where
  sized := sized
  writes here := by cases here
  entered here := by cases here
  reading here := by cases here

/-- A step that takes nothing from a list. -/
theorem step (sizing : Sizing calls frames s) (sized : s'.Sized)
    (lists : ∀ u f, (frames u).hand = some f → (s.files f).blockList <+: (s'.files f).blockList)
    (others : ∀ u f, u ≠ t → (frames u).writes = some f → Extends (s.files f) (s'.files f))
    (writes : ∀ f tables phase, frame = .writing f tables phase →
      ∃ path buf offset, calls t = .write path buf offset ∧ Grows (s'.files f) offset phase)
    (entered : ∀ f size, frame = .entered f size →
      ∃ blocks : ℕ, size = 4096 * blocks ∧ blocks ≤ (s'.files f).blockList.length)
    (reading : ∀ f blocks, frame = .reading f blocks → ∀ b ∈ blocks, b ∈ (s'.files f).blockList) :
    Sizing calls (Function.update frames t frame) s' := by
  constructor
  · exact sized
  · intro u f tables phase here
    rcases eq_or_ne u t with rfl | differ
    · rw [Function.update_self] at here
      exact writes f tables phase here
    · rw [Function.update_of_ne differ] at here
      obtain ⟨path, buf, offset, call, grows⟩ := sizing.writes here
      exact ⟨path, buf, offset, call, (others u f differ (by rw [here]; rfl)).grows grows⟩
  · intro u f size here
    rcases eq_or_ne u t with rfl | differ
    · rw [Function.update_self] at here
      exact entered f size here
    · rw [Function.update_of_ne differ] at here
      obtain ⟨blocks, length, within⟩ := sizing.entered here
      exact ⟨blocks, length, within.trans (lists u f (by rw [here]; rfl)).length_le⟩
  · intro u f blocks here b member
    rcases eq_or_ne u t with rfl | differ
    · rw [Function.update_self] at here
      exact reading f blocks here b member
    · rw [Function.update_of_ne differ] at here
      exact (lists u f (by rw [here]; rfl)).subset (sizing.reading here b member)

/-- A step that changes no file, after which the call neither reads nor writes. -/
theorem turn (sizing : Sizing calls frames s) (files : s'.files = s.files)
    (writes : frame.writes = none) (entered : ∀ f size, frame ≠ .entered f size)
    (reading : ∀ f blocks, frame ≠ .reading f blocks) :
    Sizing calls (Function.update frames t frame) s' := by
  refine sizing.step (fun f => ?_) (fun _ f _ => ?_) (fun _ f _ _ => ?_) ?_ ?_ ?_
  · rw [files]
    exact sizing.sized f
  · rw [files]
  · rw [files]
    exact .refl _
  · rintro f tables phase rfl
    cases writes
  · exact fun f size here => absurd here (entered f size)
  · exact fun f blocks here => absurd here (reading f blocks)

/-- A step of a write that changes no file. -/
theorem look (sizing : Sizing calls frames s) (files : s'.files = s.files) {f : FileRef}
    {tables tables' : WriteTables} {phase phase' : Phase}
    (here : frames t = .writing f tables phase)
    (goes : ∀ offset, Grows (s.files f) offset phase → Grows (s.files f) offset phase') :
    Sizing calls (Function.update frames t (.writing f tables' phase')) s' := by
  refine sizing.step (fun f => ?_) (fun _ f _ => ?_) (fun _ f _ _ => ?_) ?_ ?_ ?_
  · rw [files]
    exact sizing.sized f
  · rw [files]
  · rw [files]
    exact .refl _
  · rintro g _ _ ⟨⟩
    obtain ⟨path, buf, offset, call, grows⟩ := sizing.writes here
    exact ⟨path, buf, offset, call, files ▸ goes offset grows⟩
  · rintro g size ⟨⟩
  · rintro g blocks ⟨⟩

/-- A step that at most marks files as freed. -/
theorem mark (sizing : Sizing calls frames s)
    (marks : ∀ g, ∃ freed, s'.files g = { s.files g with freed := freed })
    (writes : frame.writes = none) (entered : ∀ f size, frame ≠ .entered f size)
    (reading : ∀ f blocks, frame ≠ .reading f blocks) :
    Sizing calls (Function.update frames t frame) s' := by
  have same : ∀ g, Extends (s.files g) (s'.files g) := by
    intro g
    obtain ⟨freed, here⟩ := marks g
    rw [here]
    exact ⟨rfl, List.prefix_refl _⟩
  refine sizing.step (fun f => (same f).sized (sizing.sized f)) (fun _ f _ => (same f).blockList)
    (fun _ f _ _ => same f) ?_ ?_ ?_
  · rintro f tables phase rfl
    cases writes
  · exact fun f size here => absurd here (entered f size)
  · exact fun f blocks here => absurd here (reading f blocks)

variable {SHA512 : Page → BlockId} {ids : BlockRef → BlockId} {clause : Clause T}
variable {held : T → List (Lock × Mode)} {frame' : Frame}

/-- A write of whole pages grows its file to what it listed. -/
theorem grow_sized {f : FileRef} {offset err : ℤ} {buf : List UInt8} {newBlocksInfo : List BlockRef}
    {i : ℕ} (sized : s.Sized) (grows : Grows (s.files f) offset (.placed i))
    (outcome : err = 0 ∧ i = newBlocksInfo.length ∨ err < 0)
    (pages : buf.length = 4096 * newBlocksInfo.length)
    (short : (s.files f).blockList.length < 2 ^ 31) :
    (growFile f err offset buf.length s).Sized := by
  obtain ⟨-, blocks, length, within⟩ := grows
  unfold growFile
  simp only
  split_ifs with longer
  · obtain ⟨rfl, -⟩ := longer
    obtain ⟨-, rfl⟩ := outcome.resolve_right (lt_irrefl _)
    refine sized.setFile f ?_
    have sum : offset + (buf.length : ℤ) = ((4096 * (blocks + newBlocksInfo.length) : ℕ) : ℤ) := by
      rw [length, pages]
      push_cast
      ring
    have unsigned : uint64 (offset + buf.length) = 4096 * (blocks + newBlocksInfo.length) := by
      rw [sum]
      exact uint64_natCast (by omega)
    refine @Filemeta.assigned_sized _ _ (blocks + newBlocksInfo.length) ?_ within
    rw [unsigned, int64_eq (by omega) (by omega)]
    push_cast
    rfl
  · exact sized

/-- **Every move** keeps the lists at least as long as the files. -/
theorem move (sizing : Sizing calls frames s) (proper : ∀ t, (calls t).Proper)
    (small : ∀ {frame' s'}, clause.allowed frames s t frame' s' →
      Small s frame' s' ∧ (calls t).Aligned)
    (move : Move SHA512 calls ids clause held frames s t frame' s') :
    Sizing calls (Function.update frames t frame') s' := by
  cases move with
  | find turn =>
      refine sizing.turn rfl ?_ (fun f size => ?_) (fun f blocks => ?_) <;>
        cases s.fileIndex.lookup (calls t).path <;> first | rfl | rintro ⟨⟩
  | @create path buf offset call turn =>
      have old : ∀ u f, (frames u).hand = some f → ((findFile path s).2.files f) = s.files f := by
        intro u f hand
        have below : f < s.nextFile := turn.pointers.files (Or.inr ⟨u, hand⟩)
        unfold findFile
        cases s.fileIndex.lookup path with
        | some g => rfl
        | none => exact Function.update_of_ne below.ne _ _
      refine sizing.step (findFile_sized sizing.sized path) (fun u f hand => ?_)
        (fun u f _ writes => ?_) ?_ ?_ ?_
      · rw [old u f hand]
      · rw [old u f (Frame.hand_of_writes writes)]
        exact .refl _
      · rintro f _ _ ⟨⟩
      · rintro f _ ⟨⟩
      · rintro f _ ⟨⟩
  | @enter f mode frame turn inHand lock =>
      refine sizing.step sizing.sized (fun _ _ _ => List.prefix_refl _) (fun _ _ _ _ => .refl _)
        ?_ ?_ ?_
      · rintro g _ _ ⟨⟩
      · rintro g size ⟨⟩
        exact sizing.sized f
      · rintro g _ ⟨⟩
  | @begin_ path buf offset f frame call turn inHand lock append =>
      refine sizing.step sizing.sized (fun _ _ _ => List.prefix_refl _) (fun _ _ _ _ => .refl _)
        ?_ ?_ ?_
      · rintro g _ _ ⟨⟩
        exact ⟨path, buf, offset, call, append.symm⟩
      · rintro g _ ⟨⟩
      · rintro g _ ⟨⟩
  | leave turn leaves => exact sizing.turn rfl rfl (fun _ _ => by rintro ⟨⟩) fun _ _ => by rintro ⟨⟩
  | @window path size offset f logicalSize strays call inside turn lock allowed =>
      obtain ⟨blocks, length, within⟩ := sizing.entered turn.here
      have short := (small allowed).1.lists f rfl
      have request := proper t
      rw [call] at request
      rw [length] at inside ⊢
      obtain ⟨entries, window, listed⟩ := window_in_list within short (not_le.mp inside) request.1
        request.2
      refine sizing.step sizing.sized (fun _ _ _ => List.prefix_refl _) (fun _ _ _ _ => .refl _)
        ?_ ?_ ?_
      · rintro g _ _ ⟨⟩
      · rintro g _ ⟨⟩
      · rintro g _ ⟨⟩ b member
        unfold readWindow at member
        rw [window] at member
        obtain ⟨i, entry⟩ := mem_blocksToRead member
        exact mem_of_windowBlocks window _ entry
  | @count path buf offset f tables seen hash rest b call hashes noted turn =>
      have files : (raiseCounter b s).files = s.files := rfl
      exact sizing.look files turn.here fun _ grows => grows
  | @lookup path buf offset f tables seen hash rest call hashes noted turn =>
      exact sizing.look (lookupBlock_blocksOnly tables s hash).1.files turn.here fun _ grows => grows
  | @place path buf offset f tables blocks_to_lock call noted perm turn =>
      refine sizing.look (assignOffsets_offsetsOnly _ _ s).files turn.here fun offset grows => ?_
      obtain ⟨blocks, length, within⟩ := sizing.sized f
      exact ⟨grows, blocks, (show (s.files f).logicalSize = offset from grows) ▸ length, within⟩
  | @store path buf offset f tables i b page created out call noted block data left turn lock =>
      have appended := writeBlock_appended f out (b, page) created s
      have more : ∀ g, Extends (s.files g) ((writeBlock f out (b, page) created s).2.2.files g) := by
        intro g
        rcases eq_or_ne g f with rfl | differ
        · exact ⟨appended.logicalSize, appended.blockList ▸ List.prefix_append _ _⟩
        · rw [appended.others g differ]
          exact .refl _
      refine sizing.step (fun g => (more g).sized (sizing.sized g)) (fun _ g _ => (more g).blockList)
        (fun _ g _ _ => more g) ?_ ?_ ?_
      · rintro g _ _ ⟨⟩
        obtain ⟨path', buf', offset', call', size, blocks, length, within⟩ := sizing.writes turn.here
        refine ⟨path', buf', offset', call', appended.logicalSize.trans size, blocks, length, ?_⟩
        rw [appended.blockList, List.length_append, List.length_singleton]
        omega
      · rintro g _ ⟨⟩
      · rintro g _ ⟨⟩
  | @grow path buf offset f tables i err call noted outcome turn lock allowed =>
      obtain ⟨few, aligned⟩ := small allowed
      obtain ⟨path', buf', offset', call', grows⟩ := sizing.writes turn.here
      rw [call] at call' aligned
      cases call'
      obtain ⟨logicalSize, same⟩ := growFile_eq f err offset buf.length s
      have lists : ∀ g, ((growFile f err offset buf.length s).files g).blockList =
          (s.files g).blockList := by
        intro g
        rw [same]
        rcases eq_or_ne g f with rfl | differ
        · rw [Store.setFile_files_self]
        · rw [Store.setFile_files_ne s _ differ]
      have short := few.lists f rfl
      rw [lists] at short
      refine sizing.step (grow_sized sizing.sized grows outcome (noted.length aligned) short)
        (fun _ g _ => ?_) (fun u g differ writes => ?_) ?_ ?_ ?_
      · rw [lists]
      · have apart : g ≠ f := by
          rintro rfl
          exact differ (turn.writes_alone lock writes)
        rw [same, Store.setFile_files_ne s _ apart]
        exact .refl _
      · rintro g _ _ ⟨⟩
        exact ⟨path, buf, offset, call, trivial⟩
      · rintro g _ ⟨⟩
      · rintro g _ ⟨⟩
  | finish call noted turn =>
      exact sizing.turn rfl rfl (fun _ _ => by rintro ⟨⟩) fun _ _ => by rintro ⟨⟩
  | @take path call turn =>
      unfold takeFile
      cases s.fileIndex.lookup path with
      | none => exact sizing.turn rfl rfl (fun _ _ => by rintro ⟨⟩) fun _ _ => by rintro ⟨⟩
      | some f => exact sizing.turn rfl rfl (fun _ _ => by rintro ⟨⟩) fun _ _ => by rintro ⟨⟩
  | fail call turn => exact sizing.turn rfl rfl (fun _ _ => by rintro ⟨⟩) fun _ _ => by rintro ⟨⟩
  | @restore path f call turn =>
      refine sizing.mark (fun g => ?_) rfl (fun _ _ => by rintro ⟨⟩) fun _ _ => by rintro ⟨⟩
      obtain ⟨freed, same, -⟩ := reinsertFile_files path f s g
      exact ⟨freed, same⟩
  | remove call turn => exact sizing.turn rfl rfl (fun _ _ => by rintro ⟨⟩) fun _ _ => by rintro ⟨⟩
  | counts call turn => exact sizing.turn rfl rfl (fun _ _ => by rintro ⟨⟩) fun _ _ => by rintro ⟨⟩
  | @lower path f b ocorrencias rest call turn =>
      exact sizing.turn (lowerCounter_released b ocorrencias s).files rfl (fun _ _ => by rintro ⟨⟩)
        fun _ _ => by rintro ⟨⟩
  | push call turn => exact sizing.turn rfl rfl (fun _ _ => by rintro ⟨⟩) fun _ _ => by rintro ⟨⟩
  | free call turn => exact sizing.turn rfl rfl (fun _ _ => by rintro ⟨⟩) fun _ _ => by rintro ⟨⟩
  | released call turn => exact sizing.turn rfl rfl (fun _ _ => by rintro ⟨⟩) fun _ _ => by rintro ⟨⟩
  | @close path f call turn =>
      refine sizing.mark (fun g => ?_) rfl (fun _ _ => by rintro ⟨⟩) fun _ _ => by rintro ⟨⟩
      rcases eq_or_ne g f with rfl | differ
      · exact ⟨true, by rw [freeFilemeta, Store.setFile_files_self]⟩
      · exact ⟨_, by rw [freeFilemeta, Store.setFile_files_ne s _ differ]⟩

end Sizing

section Runs

variable {SHA512 : Page → BlockId} {calls : T → Call} {s : Store}
variable {trace : List (LockedPrograms.Event T Lock)} {m : State T}

end Runs

/-! ## A read and an unlink of one path -/

def readAndUnlink : Bool → Call
  | true => .read (CString.lit "/a") 4096 0
  | false => .unlink (CString.lit "/a")

/-- One write makes `holdsA`. -/
theorem holdsA_written :
    Runs (Codededup.Step (fun _ => digestOfA) (Codededup.Countable fun _ => digestOfA))
      (Store.empty (3 : ℕ) fun _ => 0) [(.write (CString.lit "/a") pageOfA.toList 0 .fine, .code 4096)] holdsA :=
  runs_first (fun _ => digestOfA) .fine (by decide) rfl rfl fun _ => hasRoom_first

/-- The read has the lock of the entry when the unlink takes it out of the index. -/
theorem reached_stolen (allows : (Bool → Frame) → Store → Bool → Frame → Store → Prop)
    (allowed : ∀ {frames t frame' s'}, s'.blocks = holdsA.blocks → s'.files = holdsA.files →
      frame' ∈ [.found 0, .entered 0 4096, .stolen 0] → allows frames holdsA t frame' s') :
    ∃ trace m, Runs (Machine.Allows Lock.fifo allows)
        (start (fun _ => digestOfA) holdsA readAndUnlink) trace m ∧
      m.frame true = .entered 0 4096 ∧ m.frame false = .stolen 0 ∧
      m.shared = stealFile (CString.lit "/a") holdsA := by
  have found : holdsA.fileIndex.lookup (CString.lit "/a") = some 0 := by decide
  have file : holdsA.files 0 = ⟨CString.lit "/a", 4096, 4096, [0], true, false⟩ :=
    Store.single_files _ _ _ _
  have begun : Reached Lock.fifo allows (start (fun _ => digestOfA) holdsA readAndUnlink)
      (fun _ => []) holdsA (fun _ => .outside)
      (fun t => program (fun _ => digestOfA) (readAndUnlink t)) := .start _ _ _
  -- the read has looked its entry up, locked it and read its length
  have looking := begun.acquire (t := true) rfl (by simp)
  have looked := looking.act (t := true) rfl
    (show lookupFile (CString.lit "/a") holdsA = (some 0, holdsA) by rw [lookupFile, found])
    (allowed rfl rfl (.head _))
  have locked := looked.acquire (t := true) rfl (by simp)
  have entered := locked.act (t := true) rfl
    (show readSize 0 holdsA = (4096, holdsA) by rw [readSize, file])
    (allowed rfl rfl (.tail _ (.head _)))
  have inside := entered.release (t := true) rfl (by simp)
  -- the unlink
  have indexed := inside.acquire (t := false) rfl fun u other => by cases u <;> simp
  obtain ⟨trace, m, run, -, -, shared, frame, -⟩ := indexed.act (t := false) rfl
    (show takeFile (CString.lit "/a") holdsA = (some 0, stealFile (CString.lit "/a") holdsA) by
      rw [takeFile, found])
    (allowed rfl rfl (.tail _ (.tail _ (.head _))))
  refine ⟨trace, m, run, ?_, ?_, shared⟩
  · rw [frame]
    rfl
  · rw [frame]
    rfl

/-- Neither counters nor lists change. -/
theorem small_holdsA {frame' : Frame} {s' : Store} (blocks : s'.blocks = holdsA.blocks)
    (files : s'.files = holdsA.files)
    (here : frame' ∈ [Frame.found 0, .entered 0 4096, .stolen 0]) : Small holdsA frame' s' := by
  have file : holdsA.files 0 = ⟨CString.lit "/a", 4096, 4096, [0], true, false⟩ :=
    Store.single_files _ _ _ _
  have only : frame'.hand = some 0 := by
    simp only [List.mem_cons, List.not_mem_nil, or_false] at here
    rcases here with rfl | rfl | rfl <;> rfl
  refine ⟨fun b high => ?_, fun f hand => ?_⟩
  · rw [blocks, high]
    decide
  · rw [only] at hand
    rw [← Option.some.inj hand, files, file]
    norm_num

theorem readAndUnlink_proper (t : Bool) : (readAndUnlink t).Proper := by
  cases t
  · exact trivial
  · exact ⟨le_rfl, by norm_num⟩

end ProjetoTSO.Codededup.Threads
