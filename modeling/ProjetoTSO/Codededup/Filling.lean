import ProjetoTSO.Codededup.Landing

/-!
# What writes leave in a file

The blocks of a write are listed one after the other, from the place its offset stands for;
nothing that happens to the file later moves them (`Filling`).  This needs that a file lists
as many blocks as it is long, so a write that fails must not have listed any.
-/

namespace ProjetoTSO.Codededup.Threads

open CInt LockedPrograms FifoRwlock Transition

/-! ## Files and their lists -/

/-- As many blocks as the length asks for. -/
def Filemeta.Even (file : Filemeta) : Prop :=
  file.logicalSize = 4096 * (file.blockList.length : ℤ)

/-- The list ends with these blocks, and they begin at the offset. -/
def Ends (file : Filemeta) (offset : ℤ) (blocks : List BlockRef) : Prop :=
  ∃ before, file.blockList = before ++ blocks ∧ offset = 4096 * (before.length : ℤ)

/-- The blocks are in the file from the offset on. -/
def Holds (file : Filemeta) (offset : ℤ) (blocks : List BlockRef) : Prop :=
  ∃ before after, file.blockList = before ++ blocks ++ after ∧
    offset = 4096 * (before.length : ℤ) ∧ offset + 4096 * (blocks.length : ℤ) ≤ file.logicalSize

/-- A file in which a write is this far. -/
def Lands (file : Filemeta) (offset : ℤ) (newBlocksInfo : List BlockRef) : Phase → Prop
  | .looking => file.logicalSize = offset ∧ Ends file offset []
  | .placed k => file.logicalSize = offset ∧ Ends file offset (newBlocksInfo.take k)
  | .stored err =>
      (err = 0 → file.logicalSize = offset + 4096 * (newBlocksInfo.length : ℤ) ∧
        Ends file offset newBlocksInfo) ∧
      (err ≠ 0 → Filemeta.Even file)

/-- Length and list are the same. -/
structure Alike (file file' : Filemeta) : Prop where
  logicalSize : file'.logicalSize = file.logicalSize
  blockList : file'.blockList = file.blockList

theorem Alike.refl (file : Filemeta) : Alike file file := ⟨rfl, rfl⟩

/-- The file only grew. -/
structure Grown (file file' : Filemeta) : Prop where
  logicalSize : file.logicalSize ≤ file'.logicalSize
  blockList : file.blockList <+: file'.blockList

section Files

variable {file file' : Filemeta} {offset : ℤ} {blocks newBlocksInfo : List BlockRef} {phase : Phase}

theorem Alike.grown (alike : Alike file file') : Grown file file' :=
  ⟨alike.logicalSize.ge, alike.blockList ▸ List.prefix_refl _⟩

theorem Alike.even (alike : Alike file file') (even : Filemeta.Even file) : Filemeta.Even file' := by
  rw [Filemeta.Even, alike.logicalSize, alike.blockList]
  exact even

theorem Alike.ends (alike : Alike file file') (ends : Ends file offset blocks) :
    Ends file' offset blocks := by
  rw [Ends, alike.blockList]
  exact ends

theorem Alike.lands (alike : Alike file file') (lands : Lands file offset newBlocksInfo phase) :
    Lands file' offset newBlocksInfo phase := by
  cases phase with
  | looking => exact ⟨alike.logicalSize.trans lands.1, alike.ends lands.2⟩
  | placed k => exact ⟨alike.logicalSize.trans lands.1, alike.ends lands.2⟩
  | stored err =>
      refine ⟨fun success => ?_, fun failed => alike.even (lands.2 failed)⟩
      obtain ⟨size, ends⟩ := lands.1 success
      exact ⟨alike.logicalSize.trans size, alike.ends ends⟩

theorem Grown.holds (grown : Grown file file') (holds : Holds file offset blocks) :
    Holds file' offset blocks := by
  obtain ⟨before, after, list, at_, within⟩ := holds
  obtain ⟨more, same⟩ := grown.blockList
  refine ⟨before, after ++ more, ?_, at_, within.trans grown.logicalSize⟩
  rw [← same, list, List.append_assoc]

/-- Where a write may begin. -/
theorem Filemeta.Even.lands (even : Filemeta.Even file) :
    Lands file file.logicalSize newBlocksInfo .looking :=
  ⟨rfl, file.blockList, (List.append_nil _).symm, even⟩

/-- A finished write leaves a file whose list is as long as it. -/
theorem Lands.even {err : ℤ} (lands : Lands file offset newBlocksInfo (.stored err)) :
    Filemeta.Even file := by
  by_cases success : err = 0
  · obtain ⟨size, before, list, at_⟩ := lands.1 success
    rw [Filemeta.Even, size, list, at_, List.length_append]
    push_cast
    ring
  · exact lands.2 success

theorem Lands.holds (lands : Lands file offset newBlocksInfo (.stored 0)) :
    Holds file offset newBlocksInfo := by
  obtain ⟨size, before, list, at_⟩ := lands.1 rfl
  exact ⟨before, [], by rw [list, List.append_nil], at_, size.ge⟩

/-- A write that listed nothing. -/
theorem Lands.even_of_none (lands : Lands file offset newBlocksInfo (.placed 0)) :
    Filemeta.Even file := by
  obtain ⟨size, before, list, at_⟩ := lands
  rw [List.take_zero, List.append_nil] at list
  rw [Filemeta.Even, size, list, at_]

end Files

/-! ## The writing of one file -/

/-- One more block. -/
theorem Lands.store {f : FileRef} {s s' : Store} {b : BlockRef} {offset : ℤ}
    {newBlocksInfo : List BlockRef} {i : ℕ}
    (lands : Lands (s.files f) offset newBlocksInfo (.placed i)) (block : newBlocksInfo[i]? = some b)
    (appended : AppendedTo f [b] s s') :
    Lands (s'.files f) offset newBlocksInfo (.placed (i + 1)) := by
  obtain ⟨size, before, list, at_⟩ := lands
  refine ⟨appended.logicalSize.trans size, before, ?_, at_⟩
  rw [appended.blockList, list, List.append_assoc, List.take_add_one, block]
  rfl

/-- The end of a write: it grows the file by what it listed, or it has listed nothing. -/
theorem Lands.grow {f : FileRef} {s : Store} {offset err : ℤ} {newBlocksInfo : List BlockRef}
    {i size : ℕ} (lands : Lands (s.files f) offset newBlocksInfo (.placed i))
    (outcome : err = 0 ∧ i = newBlocksInfo.length ∨ err < 0)
    (none_ : err ≠ 0 → i = 0) (length : size = 4096 * newBlocksInfo.length)
    (bounded : offset + size < 2 ^ 63) :
    Lands ((growFile f err offset size s).files f) offset newBlocksInfo (.stored err) ∧
      Grown (s.files f) ((growFile f err offset size s).files f) := by
  unfold growFile
  rcases outcome with ⟨rfl, rfl⟩ | failed
  · obtain ⟨here, before, list, at_⟩ := lands
    rw [List.take_length] at list
    have nonneg : 0 ≤ offset := by rw [at_]; positivity
    have sum : offset + size = ((offset + size).toNat : ℤ) := (Int.toNat_of_nonneg (by omega)).symm
    have small : (offset + size).toNat < 2 ^ 63 := by omega
    have exact_ : (uint64 (offset + size) : ℤ) = offset + size :=
      uint64_eq (by omega) (by omega)
    have exact' : (uint64 offset : ℤ) = offset := uint64_eq nonneg (by omega)
    simp only [true_and]
    split_ifs with grows
    · rw [Store.setFile_files_self, exact_, int64_eq (by omega) bounded]
      refine ⟨⟨fun _ => ⟨?_, before, list, at_⟩, fun failed => absurd rfl failed⟩, ?_,
        List.prefix_refl _⟩
      · show offset + (size : ℤ) = _
        rw [length]
        push_cast
        rfl
      show (s.files f).logicalSize ≤ offset + size
      omega
    · rw [here] at grows
      have zero : size = 0 := by omega
      have empty : newBlocksInfo.length = 0 := by omega
      refine ⟨⟨fun _ => ⟨?_, before, list, at_⟩, fun failed => absurd rfl failed⟩, le_rfl,
        List.prefix_refl _⟩
      rw [here, empty]
      norm_num
  · have differ : err ≠ 0 := failed.ne
    obtain rfl := none_ differ
    simp only [differ, false_and, if_false]
    exact ⟨⟨fun success => absurd success differ, fun _ => lands.even_of_none⟩, le_rfl,
      List.prefix_refl _⟩

/-! ## The moves -/

variable {T : Type} [DecidableEq T]

/-- The entry a write writes to. -/
def Frame.writes : Frame → Option FileRef
  | .writing f _ _ => some f
  | _ => none

theorem Frame.hand_of_writes {frame : Frame} {f : FileRef} (writes : frame.writes = some f) :
    frame.hand = some f := by
  cases frame <;> cases writes
  rfl

theorem Frame.locked_of_writes {frame : Frame} {f : FileRef} (writes : frame.writes = some f) :
    frame.locked = some f := by
  cases frame <;> cases writes
  rfl

/-- How far the write of `t` is with the file. -/
def Writes (calls : T → Call) (t : T) (frame : Frame) (s : Store) : Prop :=
  ∀ f tables phase, frame = .writing f tables phase →
    ∃ path buf offset, calls t = .write path buf offset ∧
      Lands (s.files f) offset tables.newBlocksInfo phase

/-- What a write left. -/
def Wrote (SHA512 : Page → BlockId) (calls : T → Call) (ids : BlockRef → BlockId) (t : T)
    (frame : Frame) (s : Store) : Prop :=
  ∀ f offset newBlocksInfo, frame = .wrote f offset newBlocksInfo →
    f < s.nextFile ∧ Holds (s.files f) offset newBlocksInfo ∧
      ∃ path buf, calls t = .write path buf offset ∧
        newBlocksInfo.map ids = blockHashes SHA512 buf

/-- What the lists of the entries hold. -/
structure Filling (SHA512 : Page → BlockId) (calls : T → Call) (ids : BlockRef → BlockId)
    (frames : T → Frame) (s : Store) : Prop where
  even : ∀ {f}, Reachable frames s f → (∀ t, (frames t).writes ≠ some f) →
    Filemeta.Even (s.files f)
  writes : ∀ t, Writes calls t (frames t) s
  wrote : ∀ t, Wrote SHA512 calls ids t (frames t) s

namespace Filling

variable {SHA512 : Page → BlockId} {calls : T → Call} {ids : BlockRef → BlockId}
variable {frames : T → Frame} {s s' : Store} {t : T} {frame : Frame} {f : FileRef}

omit [DecidableEq T] in
theorem start (SHA512 : Page → BlockId) (calls : T → Call) (ids : BlockRef → BlockId)
    (even : ∀ path f, s.fileIndex.lookup path = some f → Filemeta.Even (s.files f)) :
    Filling SHA512 calls ids (fun _ => .outside) s where
  even reach _ := by
    rcases reach with ⟨path, found⟩ | ⟨t, has⟩
    · exact even path _ found
    · cases has
  writes t f tables phase here := by cases here
  wrote t f offset newBlocksInfo here := by cases here

/-- A step that changes no list and no length of an entry there is. -/
theorem quiet (filling : Filling SHA512 calls ids frames s) (pointers : Pointers ids frames s)
    (reach : ∀ {f}, Reachable (Function.update frames t frame) s' f →
      Reachable frames s f ∨ Filemeta.Even (s'.files f))
    (alike : ∀ g < s.nextFile, Alike (s.files g) (s'.files g)) (nextFile : s.nextFile ≤ s'.nextFile)
    (stops : ∀ f, (frames t).writes = some f → frame.writes ≠ some f → Filemeta.Even (s'.files f))
    (writes : Writes calls t frame s') (wrote : Wrote SHA512 calls ids t frame s') :
    Filling SHA512 calls ids (Function.update frames t frame) s' := by
  constructor
  · intro f here idle
    rcases reach here with before | new
    · have below := pointers.files before
      by_cases busy : ∃ u, (frames u).writes = some f
      · obtain ⟨u, inside⟩ := busy
        obtain rfl : u = t := by
          by_contra differ
          have still := idle u
          rw [Function.update_of_ne differ] at still
          exact still inside
        refine stops f inside ?_
        have still := idle u
        rwa [Function.update_self] at still
      · exact (alike f below).even (filling.even before fun u inside => busy ⟨u, inside⟩)
    · exact new
  · intro u
    rcases eq_or_ne u t with rfl | differ
    · rwa [Function.update_self]
    · rw [Function.update_of_ne differ]
      intro f tables phase here
      obtain ⟨path, buf, offset, call, lands⟩ := filling.writes u f tables phase here
      have below : f < s.nextFile := pointers.files (Or.inr ⟨u, by rw [here]; rfl⟩)
      exact ⟨path, buf, offset, call, (alike f below).lands lands⟩
  · intro u
    rcases eq_or_ne u t with rfl | differ
    · rwa [Function.update_self]
    · rw [Function.update_of_ne differ]
      intro f offset newBlocksInfo here
      obtain ⟨below, holds, rest⟩ := filling.wrote u f offset newBlocksInfo here
      exact ⟨below.trans_le nextFile, (alike f below).grown.holds holds, rest⟩

/-- A step of the only write inside a file. -/
theorem inside (filling : Filling SHA512 calls ids frames s)
    (mine : (frames t).writes = some f) (still : frame.writes = some f)
    (alone : ∀ u, (frames u).writes = some f → u = t) (fileIndex : s'.fileIndex = s.fileIndex)
    (nextFile : s'.nextFile = s.nextFile) (others : ∀ g, g ≠ f → s'.files g = s.files g)
    (grown : Grown (s.files f) (s'.files f)) (writes : Writes calls t frame s') :
    Filling SHA512 calls ids (Function.update frames t frame) s' := by
  constructor
  · intro g here idle
    have differ : g ≠ f := by
      rintro rfl
      have busy := idle t
      rw [Function.update_self] at busy
      exact busy still
    rw [others g differ]
    refine filling.even ?_ fun u busy => ?_
    · refine Pointers.reachable_update (fun found => Or.inl ⟨_, fileIndex ▸ found⟩) (fun has => ?_) here
      refine Or.inr ⟨t, ?_⟩
      rw [Frame.hand_of_writes mine, ← Frame.hand_of_writes still, has]
    · have idle := idle u
      rw [Function.update_of_ne] at idle
      · exact idle busy
      · rintro rfl
        rw [mine] at busy
        exact differ (Option.some.inj busy).symm
  · intro u
    rcases eq_or_ne u t with rfl | differ
    · rwa [Function.update_self]
    · rw [Function.update_of_ne differ]
      intro g tables phase here
      have apart : g ≠ f := by
        rintro rfl
        exact differ (alone u (by rw [here]; rfl))
      rw [others g apart]
      exact filling.writes u g tables phase here
  · intro u
    rcases eq_or_ne u t with rfl | differ
    · rw [Function.update_self]
      rintro g offset newBlocksInfo rfl
      cases still
    · rw [Function.update_of_ne differ]
      intro g offset newBlocksInfo here
      obtain ⟨below, holds, rest⟩ := filling.wrote u g offset newBlocksInfo here
      rw [nextFile]
      refine ⟨below, ?_, rest⟩
      by_cases same : g = f
      · subst same
        exact grown.holds holds
      · rwa [others g same]

end Filling

/-- A write that fails has listed no block. -/
def Whole (frames : T → Frame) (t : T) (frame' : Frame) : Prop :=
  ∀ f tables err, frame' = .writing f tables (.stored err) → err ≠ 0 →
    frames t = .writing f tables (.placed 0)

/-- A write of whole pages that ends before `2 ^ 63`. -/
def Call.Fitting : Call → Prop
  | .write _ buf offset => buf.length % 4096 = 0 ∧ offset + buf.length < 2 ^ 63
  | _ => True

section Moves

variable {SHA512 : Page → BlockId} {calls : T → Call} {ids : BlockRef → BlockId}
variable {clause : Clause T} {held : T → List (Lock × Mode)} {frames : T → Frame} {s s' : Store}
variable {t : T} {frame frame' : Frame}

omit [DecidableEq T] in
/-- Who has the lock of an entry to write is the only one that writes to it. -/
theorem Turn.writes_alone {f : FileRef} (turn : Turn clause ids held frames s t frame)
    (lock : (Lock.file f, Mode.write) ∈ held t) {u : T} (writes : (frames u).writes = some f) :
    u = t := by
  obtain ⟨mode, has⟩ := (turn.fits u).locked (Frame.locked_of_writes writes)
  exact turn.exclusive lock has

omit [DecidableEq T] in
/-- The pages of a write have their blocks. -/
theorem Noted.length {buf : List UInt8} {tables : WriteTables}
    (noted : Noted ids (blockHashes SHA512 buf) tables) (aligned : buf.length % 4096 = 0) :
    buf.length = 4096 * tables.newBlocksInfo.length := by
  have same := congrArg List.length noted.info
  rw [List.length_map, blockHashes, List.length_map, length_bufferPages] at same
  omega

namespace Filling

/-- **The lists hold what was written** after every move of writes that fail before they
list anything. -/
theorem move (filling : Filling SHA512 calls ids frames s)
    (whole : ∀ {frame' s'}, clause.allowed frames s t frame' s' →
      Whole frames t frame' ∧ (calls t).Fitting)
    (move : Move SHA512 calls ids clause held frames s t frame' s') :
    Filling SHA512 calls ids (Function.update frames t frame') s' := by
  have even : ∀ {f}, Reachable (Function.update frames t frame') s' f →
      Reachable frames s f ∨ Filemeta.Even (s'.files f) := by
    intro f reach
    refine (move.reachable reach).imp_right ?_
    rintro ⟨-, size, list⟩
    rw [Filemeta.Even, size, list]
    rfl
  -- the acts of calls that do not write
  have aside : ∀ {frame frame' : Frame} {s' : Store}, Turn clause ids held frames s t frame →
      (∀ {f}, Reachable (Function.update frames t frame') s' f →
        Reachable frames s f ∨ Filemeta.Even (s'.files f)) →
      (∀ g < s.nextFile, Alike (s.files g) (s'.files g)) → s.nextFile ≤ s'.nextFile →
      frame.writes = none → frame'.writes = none → (∀ f o n, frame' ≠ .wrote f o n) →
      Filling SHA512 calls ids (Function.update frames t frame') s' := by
    intro frame frame' s' turn even alike nextFile was is_ unwritten
    refine filling.quiet turn.pointers even alike nextFile (fun f busy => ?_) ?_ ?_
    · rw [turn.here, was] at busy
      cases busy
    · rintro f tables phase rfl
      cases is_
    · intro f offset newBlocksInfo here
      exact absurd here (unwritten f offset newBlocksInfo)
  -- the acts of a write that leave the files as they are
  have looks : ∀ {f : FileRef} {tables tables' : WriteTables} {phase phase' : Phase} {s' : Store},
      Turn clause ids held frames s t (.writing f tables phase) →
      (∀ {g}, Reachable (Function.update frames t (.writing f tables' phase')) s' g →
        Reachable frames s g ∨ Filemeta.Even (s'.files g)) →
      s'.files = s.files → s'.nextFile = s.nextFile →
      (∀ offset, Lands (s.files f) offset tables.newBlocksInfo phase →
        Lands (s.files f) offset tables'.newBlocksInfo phase') →
      Filling SHA512 calls ids (Function.update frames t (.writing f tables' phase')) s' := by
    intro f tables tables' phase phase' s' turn even files nextFile goes
    refine filling.quiet turn.pointers even (fun g _ => files ▸ .refl _) nextFile.ge ?_ ?_ ?_
    · intro g busy still
      rw [turn.here] at busy
      exact absurd busy still
    · rintro g _ _ ⟨⟩
      obtain ⟨path, buf, offset, call, lands⟩ := filling.writes t f tables phase turn.here
      exact ⟨path, buf, offset, call, files ▸ goes offset lands⟩
    · rintro g offset newBlocksInfo ⟨⟩
  cases move with
  | find turn =>
      cases found : s.fileIndex.lookup (calls t).path with
      | none =>
          exact aside turn (found ▸ even) (fun g _ => .refl _) le_rfl rfl rfl fun _ _ _ => by rintro ⟨⟩
      | some f =>
          exact aside turn (found ▸ even) (fun g _ => .refl _) le_rfl rfl rfl fun _ _ _ => by rintro ⟨⟩
  | @create path buf offset call turn =>
      refine aside turn even (fun g below => ?_) ?_ rfl rfl fun _ _ _ => by rintro ⟨⟩
      · unfold findFile
        cases s.fileIndex.lookup path with
        | some f => exact .refl _
        | none =>
            show Alike (s.files g) (Function.update s.files s.nextFile _ g)
            rw [Function.update_of_ne below.ne]
            exact .refl _
      · unfold findFile
        cases s.fileIndex.lookup path with
        | some f => exact le_rfl
        | none => exact Nat.le_succ _
  | @enter f mode frame turn inHand lock =>
      refine aside turn even (fun g _ => .refl _) le_rfl ?_ rfl fun _ _ _ => by rintro ⟨⟩
      rcases inHand with rfl | rfl <;> rfl
  | @begin_ path buf offset f frame call turn inHand lock append =>
      have idle : ∀ u, (frames u).writes ≠ some f := by
        intro u busy
        obtain rfl := turn.writes_alone lock busy
        rw [turn.here] at busy
        rcases inHand with rfl | rfl <;> cases busy
      have reach : Reachable frames s f :=
        Or.inr ⟨t, by rw [turn.here]; rcases inHand with rfl | rfl <;> rfl⟩
      refine filling.quiet turn.pointers even (fun g _ => .refl _) le_rfl ?_ ?_ ?_
      · intro g busy
        rw [turn.here] at busy
        rcases inHand with rfl | rfl <;> cases busy
      · rintro g _ _ ⟨⟩
        exact ⟨path, buf, offset, call, append ▸ (filling.even reach idle).lands⟩
      · rintro g _ _ ⟨⟩
  | @leave f mode frame turn leaves =>
      refine filling.quiet turn.pointers even (fun g _ => .refl _) le_rfl ?_ ?_ ?_
      · intro g busy _
        rw [turn.here] at busy
        cases leaves with
        | entered => cases busy
        | reading => cases busy
        | @writing tables err failed =>
            cases busy
            obtain ⟨_, _, _, _, lands⟩ := filling.writes t f tables _ turn.here
            exact lands.even
      · rintro g _ _ ⟨⟩
      · rintro g _ _ ⟨⟩
  | window call inside turn =>
      exact aside turn even (fun g _ => .refl _) le_rfl rfl rfl fun _ _ _ => by rintro ⟨⟩
  | count call hashes noted turn => exact looks turn even rfl rfl fun offset lands => lands
  | @lookup path buf offset f tables seen hash rest call hashes noted turn =>
      have only := (lookupBlock_blocksOnly tables s hash).1
      exact looks turn even only.files only.nextFile fun offset lands => lands
  | @place path buf offset f tables blocks_to_lock call noted perm turn =>
      have only := assignOffsets_offsetsOnly blocks_to_lock tables.my_created_blocks s
      exact looks turn even only.files only.nextFile fun offset lands => lands
  | @store path buf offset f tables i b page created out call noted block data left turn lock =>
      have appended := writeBlock_appended f out (b, page) created s
      refine filling.inside (by rw [turn.here]; rfl) rfl (fun u => turn.writes_alone lock)
        appended.fileIndex appended.nextFile appended.others
        ⟨appended.logicalSize.ge, appended.blockList ▸ List.prefix_append _ _⟩ ?_
      rintro g _ _ ⟨⟩
      obtain ⟨path', buf', offset', call', lands⟩ := filling.writes t f tables _ turn.here
      exact ⟨path', buf', offset', call', lands.store block appended⟩
  | @grow path buf offset f tables i err call noted outcome turn lock allowed =>
      obtain ⟨whole, fitting⟩ := whole allowed
      rw [call] at fitting
      obtain ⟨aligned, bounded⟩ := fitting
      obtain ⟨path', buf', offset', call', lands⟩ := filling.writes t f tables _ turn.here
      rw [call] at call'
      cases call'
      have none_ : err ≠ 0 → i = 0 := by
        intro failed
        have here := whole f tables err rfl failed
        rw [turn.here] at here
        cases here
        rfl
      obtain ⟨lands, grown⟩ := lands.grow outcome none_ (noted.length aligned) bounded
      obtain ⟨logicalSize, same⟩ := growFile_eq f err offset buf.length s
      refine filling.inside (by rw [turn.here]; rfl) rfl (fun u => turn.writes_alone lock)
        (growFile_fileIndex _ _ _ _ s) (by rw [same]; rfl) (fun g differ => ?_) grown ?_
      · rw [same, Store.setFile_files_ne s _ differ]
      · rintro g _ _ ⟨⟩
        exact ⟨path, buf, offset, call, lands⟩
  | @finish path buf offset f tables call noted turn =>
      obtain ⟨path', buf', offset', call', lands⟩ := filling.writes t f tables _ turn.here
      rw [call] at call'
      cases call'
      refine filling.quiet turn.pointers even (fun g _ => .refl _) le_rfl ?_ ?_ ?_
      · intro g busy _
        rw [turn.here] at busy
        cases busy
        exact lands.even
      · rintro g _ _ ⟨⟩
      · rintro g _ _ ⟨⟩
        exact ⟨turn.pointers.files (Or.inr ⟨t, by rw [turn.here]; rfl⟩), lands.holds, path, buf, call,
          noted.info⟩
  | @take path call turn =>
      unfold takeFile at even ⊢
      cases found : s.fileIndex.lookup path with
      | none =>
          rw [found] at even
          exact aside turn even (fun g _ => .refl _) le_rfl rfl rfl fun _ _ _ => by rintro ⟨⟩
      | some f =>
          rw [found] at even
          exact aside turn even (fun g _ => .refl _) le_rfl rfl rfl fun _ _ _ => by rintro ⟨⟩
  | fail call turn =>
      exact aside turn even (fun g _ => .refl _) le_rfl rfl rfl fun _ _ _ => by rintro ⟨⟩
  | @restore path f call turn =>
      refine aside turn even (fun g _ => ?_) ?_ rfl rfl fun _ _ _ => by rintro ⟨⟩
      · obtain ⟨freed, same, -⟩ := reinsertFile_files path f s g
        rw [same]
        exact ⟨rfl, rfl⟩
      · unfold reinsertFile
        cases s.fileIndex.lookup path <;> exact le_rfl
  | remove call turn =>
      exact aside turn even (fun g _ => .refl _) le_rfl rfl rfl fun _ _ _ => by rintro ⟨⟩
  | counts call turn =>
      exact aside turn even (fun g _ => .refl _) le_rfl rfl rfl fun _ _ _ => by rintro ⟨⟩
  | @lower path f b ocorrencias rest call turn =>
      have released := lowerCounter_released b ocorrencias s
      exact aside turn even (fun g _ => by rw [released.files]; exact .refl _) released.nextFile.ge rfl
        rfl fun _ _ _ => by rintro ⟨⟩
  | push call turn =>
      exact aside turn even (fun g _ => .refl _) le_rfl rfl rfl fun _ _ _ => by rintro ⟨⟩
  | free call turn =>
      exact aside turn even (fun g _ => .refl _) le_rfl rfl rfl fun _ _ _ => by rintro ⟨⟩
  | released call turn =>
      exact aside turn even (fun g _ => .refl _) le_rfl rfl rfl fun _ _ _ => by rintro ⟨⟩
  | @close path f call turn =>
      refine aside turn even (fun g _ => ?_) le_rfl rfl rfl fun _ _ _ => by rintro ⟨⟩
      rcases eq_or_ne g f with rfl | differ
      · rw [freeFilemeta, Store.setFile_files_self]
        exact ⟨rfl, rfl⟩
      · rw [freeFilemeta, Store.setFile_files_ne s _ differ]
        exact .refl _

end Filling

end Moves

end ProjetoTSO.Codededup.Threads
