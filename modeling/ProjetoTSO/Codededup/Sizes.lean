import ProjetoTSO.Codededup.Accounting
import ProjetoTSO.Codededup.Loader

/-!
# What holds of any session

Whatever the calls of a session meet, a file is a whole number of blocks long and lists at
least these (`Runs.sized`): a write that fails appends blocks without growing the file.  And
pointers lead to allocated objects (`Runs.allocated`).  Unlike the accounts of the blocks,
this needs no bound on the counters, and it survives a remount from a metadata file that was
cut short.
-/

namespace ProjetoTSO.Codededup

open CInt ByteStream Transition

/-- A length in whole blocks, all of which are listed. -/
def Filemeta.Sized (file : Filemeta) : Prop :=
  ∃ blocks : ℕ, file.logicalSize = 4096 * blocks ∧ blocks ≤ file.blockList.length

def Store.Sized (s : Store) : Prop := ∀ f, (s.files f).Sized

theorem Store.Sized.setFile {s : Store} (sized : s.Sized) (f : FileRef) {file : Filemeta}
    (own : file.Sized) : (s.setFile f file).Sized := by
  intro g
  rcases eq_or_ne g f with rfl | differ
  · rwa [Store.setFile_files_self]
  · rw [Store.setFile_files_ne s file differ]
    exact sized g

/-- The length of a file is whatever was assigned to it. -/
theorem Filemeta.assigned_sized {file : Filemeta} {size : ℤ} {blocks : ℕ}
    (length : size = 4096 * blocks) (within : blocks ≤ file.blockList.length) :
    ({ file with logicalSize := size } : Filemeta).Sized := ⟨blocks, length, within⟩

theorem Filemeta.zero_sized : Filemeta.zero.Sized := ⟨0, rfl, Nat.zero_le _⟩

/-! ## Writes -/

/-- The lookup and allocation of a write change no file. -/
structure BlocksOnly (s t : Store) : Prop where
  fileIndex : t.fileIndex = s.fileIndex
  files : t.files = s.files
  nextFile : t.nextFile = s.nextFile
  backend_fd : t.backend_fd = s.backend_fd
  sysdata : t.sysdata = s.sysdata

theorem BlocksOnly.trans {s t u : Store} (first : BlocksOnly s t) (second : BlocksOnly t u) :
    BlocksOnly s u :=
  ⟨second.fileIndex.trans first.fileIndex, second.files.trans first.files,
    second.nextFile.trans first.nextFile, second.backend_fd.trans first.backend_fd,
    second.sysdata.trans first.sysdata⟩

theorem lookupBlock_blocksOnly (tables : WriteTables) (s : Store) (hash : BlockId) :
    BlocksOnly s (lookupBlock (tables, s) hash).2 ∧
      (lookupBlock (tables, s) hash).1.newBlocksInfo.length = tables.newBlocksInfo.length + 1 := by
  unfold lookupBlock
  simp only
  cases s.blockIndex.lookup hash with
  | some b => exact ⟨⟨rfl, rfl, rfl, rfl, rfl⟩, by simp [WriteTables.note]⟩
  | none => exact ⟨⟨rfl, rfl, rfl, rfl, rfl⟩, by simp [WriteTables.note]⟩

theorem foldl_lookupBlock_blocksOnly (hashes : List BlockId) (state : WriteTables × Store) :
    BlocksOnly state.2 (hashes.foldl lookupBlock state).2 ∧
      (hashes.foldl lookupBlock state).1.newBlocksInfo.length =
        state.1.newBlocksInfo.length + hashes.length := by
  induction hashes generalizing state with
  | nil => exact ⟨⟨rfl, rfl, rfl, rfl, rfl⟩, rfl⟩
  | cons hash hashes ih =>
      obtain ⟨first, one⟩ := lookupBlock_blocksOnly state.1 state.2 hash
      obtain ⟨rest, more⟩ := ih (lookupBlock state hash)
      refine ⟨first.trans rest, ?_⟩
      have one : (lookupBlock state hash).1.newBlocksInfo.length = _ := one
      rw [List.foldl_cons, more, one, List.length_cons]
      omega

/-- The blocks of a write, one for each hash, with no file changed. -/
theorem placeBlocks_blocksOnly (hashes : List BlockId) (s : Store) :
    BlocksOnly s (placeBlocks hashes s).2 ∧
      (placeBlocks hashes s).1.newBlocksInfo.length = hashes.length := by
  obtain ⟨looked, length⟩ := foldl_lookupBlock_blocksOnly hashes (WriteTables.empty, s)
  have only := assignOffsets_offsetsOnly
    (blocksToLock (hashes.foldl lookupBlock (WriteTables.empty, s)).1
      (hashes.foldl lookupBlock (WriteTables.empty, s)).2)
    (hashes.foldl lookupBlock (WriteTables.empty, s)).1.my_created_blocks
    (hashes.foldl lookupBlock (WriteTables.empty, s)).2
  refine ⟨looked.trans ⟨only.fileIndex, only.files, only.nextFile, only.backend_fd, only.sysdata⟩, ?_⟩
  exact length.trans (Nat.zero_add _)

theorem findFile_sized {s : Store} (sized : s.Sized) (path : Path) :
    (findFile path s).2.Sized := by
  unfold findFile
  cases s.fileIndex.lookup path with
  | some f => exact sized
  | none =>
      intro g
      show (Function.update s.files s.nextFile _ g).Sized
      rcases eq_or_ne g s.nextFile with rfl | differ
      · rw [Function.update_self]
        exact ⟨0, rfl, Nat.zero_le _⟩
      · rw [Function.update_of_ne differ]
        exact sized g

theorem length_bufferPages (buf : Bytes) : (bufferPages buf).length = buf.length / 4096 := by
  rw [bufferPages, List.length_map, List.length_range]

/-- A file grows by the blocks it was given. -/
theorem growFile_sized {f : FileRef} {err offset : ℤ} {buf : Bytes} {s t : Store}
    {added : List BlockRef} (sized : s.Sized) (appended : AppendedTo f added s t)
    (here : offset = (s.files f).logicalSize) (short : (s.files f).blockList.length < 2 ^ 32)
    (aligned : buf.length % 4096 = 0) (bound : buf.length ≤ 2 ^ 31)
    (all : err = 0 → added.length = buf.length / 4096) :
    (growFile f err offset buf.length t).Sized := by
  have before : t.Sized := by
    intro g
    rcases eq_or_ne g f with rfl | differ
    · obtain ⟨blocks, size, within⟩ := sized g
      refine ⟨blocks, appended.logicalSize.trans size, ?_⟩
      rw [appended.blockList, List.length_append]
      omega
    · rw [appended.others g differ]
      exact sized g
  unfold growFile
  simp only
  split_ifs with grows
  · refine before.setFile f ?_
    obtain ⟨blocks, size, within⟩ := sized f
    have sum : offset + (buf.length : ℤ) = ((4096 * blocks + buf.length : ℕ) : ℤ) := by
      rw [here, size]
      push_cast
      rfl
    have unsigned : uint64 (offset + buf.length) = 4096 * blocks + buf.length := by
      rw [sum]
      exact uint64_natCast (by omega)
    have signed : int64 (uint64 (offset + buf.length)) = 4096 * blocks + buf.length := by
      rw [unsigned, int64_eq (by omega) (by omega)]
      push_cast
      rfl
    refine @Filemeta.assigned_sized _ _ (blocks + buf.length / 4096) (signed.trans ?_) ?_
    · omega
    · rw [appended.blockList, List.length_append, all grows.1]
      omega
  · exact before

theorem xmp_write_sized {SHA512 : Page → BlockId} {s t : Store} (sized : s.Sized) (fits : s.Fits)
    {path : Path} {buf : Bytes} {offset : ℤ} {env : WriteEnv} {ret : ℤ}
    (runs : xmp_write SHA512 path buf offset env s = some (ret, t)) : t.Sized := by
  unfold xmp_write at runs
  split_ifs at runs with odd long
  · cases runs
    exact sized
  have found := findFile_sized sized path
  have short : ((findFile path s).2.files (findFile path s).1).blockList.length < 2 ^ 32 := by
    unfold findFile
    cases entry : s.fileIndex.lookup path with
    | some f => exact (fits.file entry).blockList
    | none =>
        have empty : (Function.update s.files s.nextFile { Filemeta.zero with
            id := path, lockReady := true } s.nextFile).blockList = [] := by
          rw [Function.update_self]
          rfl
        refine lt_of_eq_of_lt (congrArg List.length empty) ?_
        rw [List.length_nil]
        exact Nat.two_pow_pos 32
  generalize findFile path s = pair at runs found short
  obtain ⟨f, s'⟩ := pair
  simp only at runs found short
  split_ifs at runs with differ
  · cases runs
    exact found
  rw [appendBlocks_eq] at runs
  cases runs
  obtain ⟨only, length⟩ := placeBlocks_blocksOnly (blockHashes SHA512 buf) s'
  rw [length_blockHashes] at length
  have placed : (placeBlocks (blockHashes SHA512 buf) s').2.Sized := fun g => by
    rw [only.files]
    exact found g
  obtain ⟨added, -, appended, all⟩ := @writeOut_lists f buf env _ _ length
  refine growFile_sized placed appended ?_ ?_ (not_not.mp odd) (not_lt.mp long) fun success => ?_
  · rw [only.files]
    exact not_not.mp differ
  · rw [only.files]
    exact short
  · rw [all success, length, length_bufferPages]

/-! ## Removals -/

theorem Store.Sized.freeFilemeta {s : Store} (sized : s.Sized) (f : FileRef) :
    (freeFilemeta f s).Sized := sized.setFile f (sized f)

theorem xmp_unlink_sized {s t : Store} (sized : s.Sized) {path : Path} {unlink : UnlinkOut}
    {order : IterOrder (BlockRef × ℤ)} {ret : ℤ}
    (runs : xmp_unlink path unlink order s = some (ret, t)) : t.Sized := by
  rcases xmp_unlink_cases runs with ⟨-, -, rfl⟩ | ⟨-, -, -, rfl⟩ | ⟨f, errno, -, -, -, -, rfl⟩ |
    ⟨f, -, -, -, -, -, rfl⟩
  · exact sized
  · exact sized
  · obtain ⟨table, rest⟩ := reinsertFile_stealFile_rest s path f
    rw [rest]
    exact sized
  · refine Store.Sized.freeFilemeta (fun g => ?_) f
    rw [(foldl_releaseBlock_released _ (stealFile path s)).files]
    exact sized g

/-! ## Remounts -/

/-- A file record that is accepted has the length and the number of blocks it was saved
with. -/
theorem recovers_file_record {s : Store} {f : FileRef} (blockIndex : GHashTable BlockId BlockRef)
    (fits : (s.files f).Fits) :
    Recovers (read_file_record blockIndex) (fileBytes s f) fun record =>
      record.logicalSize = (s.files f).logicalSize ∧
        record.blockList.length = (s.files f).blockList.length := by
  have list : ∀ blocks : List BlockRef, Recovers (read_block_list blockIndex blocks.length)
      (blocks.flatMap fun b => (s.blocks b).id.toList) fun read => read.length = blocks.length := by
    intro blocks
    induction blocks with
    | nil => exact Recovers.pure rfl
    | cons b blocks ih =>
        rw [List.flatMap_cons, List.length_cons]
        refine (Recovers.of_reads (reads_hash (s.blocks b).id)).bind fun hash same => ?_
        cases blockIndex.lookup hash with
        | none => exact Recovers.reject
        | some c =>
            have rest : Recovers (read_block_list blockIndex blocks.length >>= fun rest =>
                pure (c :: rest)) ((blocks.flatMap fun b => (s.blocks b).id.toList) ++ [])
                fun read => read.length = blocks.length + 1 :=
              ih.bind fun read length => Recovers.pure (congrArg Nat.succ length)
            rwa [List.append_nil] at rest
  have count : (s.files f).blockList.length < 2 ^ 64 := fits.blockList.trans (by norm_num)
  refine (Recovers.of_reads (reads_string fits.id)).bind fun id _ => ?_
  refine (Recovers.of_reads (reads_int64 fits.realSize)).bind fun realSize _ => ?_
  refine (Recovers.of_reads (reads_int64 fits.logicalSize)).bind fun logicalSize size => ?_
  refine (Recovers.of_reads (reads_uint64 count)).bind fun blocks same => ?_
  rw [same, ← List.append_nil ((s.files f).blockList.flatMap _)]
  exact (list _).bind fun blockList length => Recovers.pure ⟨size, length⟩

theorem Store.Sized.insertLoadedFile {s : Store} {r : FileRecord} (sized : s.Sized)
    (own : ∃ blocks : ℕ, r.logicalSize = 4096 * (blocks : ℤ) ∧ blocks ≤ r.blockList.length) :
    (insertLoadedFile s r).Sized := by
  have placed : ∀ t : Store, t.Sized → ∀ g, (Function.update t.files t.nextFile
      ⟨r.id, r.realSize, r.logicalSize, r.blockList, true, false⟩ g).Sized := by
    intro t before g
    rcases eq_or_ne g t.nextFile with rfl | differ
    · rwa [Function.update_self]
    · rw [Function.update_of_ne differ]
      exact before g
  unfold Codededup.insertLoadedFile
  cases s.fileIndex.lookup r.id with
  | some old => exact placed _ (sized.freeFilemeta old)
  | none => exact placed _ sized

/-- Every file that is loaded has been saved, whatever became of the blocks. -/
theorem xmp_init_sized {s : Store} (sized : s.Sized) (fits : s.Fits)
    (blockOrder : IterOrder BlockRef) (fileOrder : IterOrder FileRef) (room : ℕ) (out : OpenOut)
    (sysdata : ByteDisk.Disk) :
    (xmp_init out (some (xmp_destroy blockOrder fileOrder room s).2) sysdata).Sized := by
  have isPrefix : (xmp_destroy blockOrder fileOrder room s).2 <+:
      metadataBytes s (tableValues blockOrder s.blockIndex) (tableValues fileOrder s.fileIndex) :=
    (emits_save_metadata blockOrder fileOrder s).interrupted room
  have fresh : (initContext sysdata out).Sized := by
    cases out with
    | fail garbage => exact fun _ => Filemeta.zero_sized
    | ok fd st_size => exact fun _ => Filemeta.zero_sized
  have blockCount : (tableValues blockOrder s.blockIndex).length < 2 ^ 64 := by
    rw [length_tableValues]
    exact fits.blockIndex.trans (by norm_num)
  have fileCount : (tableValues fileOrder s.fileIndex).length < 2 ^ 64 := by
    rw [length_tableValues]
    exact fits.fileIndex.trans (by norm_num)
  generalize (xmp_destroy blockOrder fileOrder room s).2 = stream at isPrefix ⊢
  show (load_metadata (some stream) _).Sized
  generalize initContext sysdata out = t at fresh ⊢
  unfold load_metadata
  rcases ends_inside_or_past isPrefix with ⟨inside, differs⟩ | ⟨body, rfl, bodyPrefix⟩
  · simp only [(reads_int64 fits.next_free_offset).cut _ inside differs]
    exact fresh
  simp only [(reads_int64 fits.next_free_offset).full]
  refine readSection_recovers Store.Sized (fun _ => True) (reads_uint64 blockCount)
    (fun b member => ?_) (fun {u r} _ before => ?_) (fun {rest u} restPrefix before => ?_)
    bodyPrefix fresh
  · obtain ⟨hash, found⟩ := (mem_tableValues blockOrder).mp member
    exact (Recovers.of_reads (reads_block_record (fits.block found))).mono fun _ _ => trivial
  · intro g
    rw [(insertLoadedBlock_outside u r).files]
    exact before g
  refine readSection_recovers Store.Sized (fun record : FileRecord => ∃ blocks : ℕ,
      record.logicalSize = 4096 * (blocks : ℤ) ∧ blocks ≤ record.blockList.length)
    (reads_uint64 fileCount) (fun f member => ?_) (fun {u r} saved before => ?_)
    (fun {rest u} _ before => ?_) restPrefix before
  · obtain ⟨path, found⟩ := (mem_tableValues fileOrder).mp member
    refine (recovers_file_record u.blockIndex (fits.file found)).mono ?_
    rintro record ⟨size, length⟩
    rw [size, length]
    exact sized f
  · exact before.insertLoadedFile saved
  · exact readSection_invariant Store.Sized (fun _ held => held) (fun _ _ held => held) before

/-! ## Sessions -/

/-- **Every file of a session lists the blocks of its length**, whatever failed. -/
theorem Runs.sized {SHA512 : Page → BlockId} {admitted : Store → Call → Prop} {fd : ℤ}
    {sysdata : ByteDisk.Disk} {history : List Event} {s : Store}
    (run : Runs (Step SHA512 admitted) (Store.empty fd sysdata) history s) : s.Sized := by
  refine run.invariant (fun _ s => s.Sized) (fun _ => Filemeta.zero_sized) ?_
  rintro history s ⟨call, reply⟩ t earlier sized ⟨runs, -, -⟩
  have fits := Runs.fits earlier
  cases call with
  | write path buf offset env =>
      obtain ⟨⟨ret, u⟩, outcome, same⟩ := Option.map_eq_some_iff.mp runs
      cases same
      exact xmp_write_sized sized fits outcome
  | read path size offset env =>
      obtain ⟨⟨ret, buf⟩, -, same⟩ := Option.map_eq_some_iff.mp runs
      cases same
      exact sized
  | getattr path lstat =>
      cases runs
      exact sized
  | unlink path unlink order =>
      obtain ⟨⟨ret, u⟩, outcome, same⟩ := Option.map_eq_some_iff.mp runs
      cases same
      exact xmp_unlink_sized sized outcome
  | remount blockOrder fileOrder room out =>
      cases runs
      exact xmp_init_sized sized fits blockOrder fileOrder room out s.sysdata

/-! ## Pointers -/

theorem findFile_pointers {s : Store} (allocated : s.Allocated) (path : Path) :
    (findFile path s).2.Allocated := by
  unfold findFile
  cases entry : s.fileIndex.lookup path with
  | some f => exact allocated
  | none =>
      have looked : ∀ {p g}, (createFile path s).fileIndex.lookup p = some g →
          g = s.nextFile ∨ s.fileIndex.lookup p = some g := by
        intro p g found
        have found : (s.fileIndex.insert path s.nextFile).lookup p = some g := found
        rcases eq_or_ne p path with rfl | differ
        · rw [AList.lookup_insert] at found
          exact Or.inl (Option.some.inj found).symm
        · rw [AList.lookup_insert_ne differ] at found
          exact Or.inr found
      refine ⟨fun found => ?_, fun {p g} found b member => ?_, allocated.indexed⟩
      · rcases looked found with rfl | before
        · exact Nat.lt_succ_self _
        · exact (allocated.files before).trans (Nat.lt_succ_self _)
      · have member : b ∈ (Function.update s.files s.nextFile _ g).blockList := member
        rcases looked found with rfl | before
        · rw [Function.update_self] at member
          exact absurd member List.not_mem_nil
        · rw [Function.update_of_ne (allocated.files before).ne] at member
          exact allocated.listed before b member

/-- Blocks the index holds may be appended. -/
theorem AppendedTo.allocated {f : FileRef} {added : List BlockRef} {s t : Store}
    (appended : AppendedTo f added s t) (allocated : s.Allocated)
    (below : ∀ b ∈ added, b < s.nextBlock) : t.Allocated where
  files found := by
    rw [appended.fileIndex] at found
    rw [appended.nextFile]
    exact allocated.files found
  listed {path g} found b member := by
    rw [appended.fileIndex] at found
    rw [appended.nextBlock]
    rcases eq_or_ne g f with rfl | differ
    · rw [appended.blockList, List.mem_append] at member
      exact member.elim (allocated.listed found b) (below b)
    · rw [appended.others g differ] at member
      exact allocated.listed found b member
  indexed found := by
    rw [appended.blockIndex] at found
    rw [appended.nextBlock, appended.blocks]
    exact allocated.indexed found

theorem placeBlocks_pointers {s : Store} (allocated : s.Allocated) (hashes : List BlockId) :
    (placeBlocks hashes s).2.Allocated ∧
      ∀ b ∈ (placeBlocks hashes s).1.newBlocksInfo, b < (placeBlocks hashes s).2.nextBlock := by
  obtain ⟨mid, resolved, offsets⟩ := placeBlocks_resolved allocated hashes
  have outside := resolved.outside
  refine ⟨⟨fun found => ?_, fun found b member => ?_, fun found => ?_⟩, fun b noted => ?_⟩
  · rw [offsets.fileIndex, outside.fileIndex] at found
    rw [offsets.nextFile, outside.nextFile]
    exact allocated.files found
  · rw [offsets.fileIndex, outside.fileIndex] at found
    rw [offsets.files, outside.files] at member
    rw [offsets.nextBlock]
    exact (allocated.listed found b member).trans_le resolved.heap
  · rw [offsets.blockIndex] at found
    rw [offsets.nextBlock, offsets.id]
    exact resolved.indexed found
  · rw [offsets.nextBlock]
    exact (resolved.indexed (resolved.found b noted)).1

theorem Store.Allocated.setFile {s : Store} (allocated : s.Allocated) (f : FileRef)
    {file : Filemeta} (list : file.blockList = (s.files f).blockList) :
    (s.setFile f file).Allocated := by
  refine ⟨allocated.files, fun {path g} found b member => ?_, allocated.indexed⟩
  rcases eq_or_ne g f with rfl | differ
  · rw [Store.setFile_files_self, list] at member
    exact allocated.listed found b member
  · rw [Store.setFile_files_ne s file differ] at member
    exact allocated.listed found b member

theorem xmp_write_pointers {SHA512 : Page → BlockId} {s t : Store} (allocated : s.Allocated)
    {path : Path} {buf : Bytes} {offset : ℤ} {env : WriteEnv} {ret : ℤ}
    (runs : xmp_write SHA512 path buf offset env s = some (ret, t)) : t.Allocated := by
  unfold xmp_write at runs
  split_ifs at runs
  · cases runs
    exact allocated
  have found := findFile_pointers allocated path
  generalize findFile path s = pair at runs found
  obtain ⟨f, s'⟩ := pair
  simp only at runs found
  split_ifs at runs
  · cases runs
    exact found
  rw [appendBlocks_eq] at runs
  cases runs
  obtain ⟨placed, below⟩ := placeBlocks_pointers found (blockHashes SHA512 buf)
  obtain ⟨-, length⟩ := placeBlocks_blocksOnly (blockHashes SHA512 buf) s'
  rw [length_blockHashes] at length
  obtain ⟨added, isPrefix, appended, -⟩ := @writeOut_lists f buf env _ _ length
  obtain ⟨logicalSize, grown⟩ := growFile_eq f (writeOut f buf env _ _).1 offset buf.length
    (writeOut f buf env (placeBlocks (blockHashes SHA512 buf) s').1
      (placeBlocks (blockHashes SHA512 buf) s').2).2
  show (growFile _ _ _ _ _).Allocated
  rw [grown]
  exact (appended.allocated placed fun b member => below b (isPrefix.subset member)).setFile f rfl

theorem xmp_unlink_pointers {s t : Store} (allocated : s.Allocated) {path : Path}
    {unlink : UnlinkOut} {order : IterOrder (BlockRef × ℤ)} {ret : ℤ}
    (runs : xmp_unlink path unlink order s = some (ret, t)) : t.Allocated := by
  rcases xmp_unlink_cases runs with ⟨-, -, rfl⟩ | ⟨-, -, -, rfl⟩ | ⟨f, errno, -, found, -, -, rfl⟩ |
    ⟨f, -, -, -, -, -, rfl⟩
  · exact allocated
  · exact allocated
  · have lookups := reinsertFile_stealFile_lookup found
    obtain ⟨table, rest⟩ := reinsertFile_stealFile_rest s path f
    rw [rest] at lookups ⊢
    refine ⟨fun {p g} inside => ?_, fun {p g} inside => ?_, allocated.indexed⟩
    · exact allocated.files ((lookups p).symm.trans inside)
    · exact allocated.listed ((lookups p).symm.trans inside)
  · have released := foldl_releaseBlock_released (releaseOrder order (s.files f).blockList)
      (stealFile path s)
    refine Store.Allocated.setFile ⟨fun found => ?_, fun found b member => ?_, fun found => ?_⟩ f rfl
    · rw [released.fileIndex] at found
      rw [released.nextFile]
      exact allocated.files (stealFile_lookup.mp found).2
    · rw [released.fileIndex] at found
      rw [released.files] at member
      rw [released.nextBlock]
      exact allocated.listed (stealFile_lookup.mp found).2 b member
    · rw [released.nextBlock, released.id]
      exact allocated.indexed (released.lookup found)

theorem Store.empty_allocated (fd : ℤ) (sysdata : ByteDisk.Disk) :
    (Store.empty fd sysdata).Allocated where
  files found := by cases found
  listed found := by cases found
  indexed found := by cases found

/-- **The pointers of a session lead to allocated objects**, whatever failed. -/
theorem Runs.allocated {SHA512 : Page → BlockId} {admitted : Store → Call → Prop} {fd : ℤ}
    {sysdata : ByteDisk.Disk} {history : List Event} {s : Store}
    (run : Runs (Step SHA512 admitted) (Store.empty fd sysdata) history s) : s.Allocated := by
  refine run.invariant (fun _ s => s.Allocated) (Store.empty_allocated fd sysdata) ?_
  rintro history s ⟨call, reply⟩ t _ allocated ⟨runs, -, -⟩
  cases call with
  | write path buf offset env =>
      obtain ⟨⟨ret, u⟩, outcome, same⟩ := Option.map_eq_some_iff.mp runs
      cases same
      exact xmp_write_pointers allocated outcome
  | read path size offset env =>
      obtain ⟨⟨ret, buf⟩, -, same⟩ := Option.map_eq_some_iff.mp runs
      cases same
      exact allocated
  | getattr path lstat =>
      cases runs
      exact allocated
  | unlink path unlink order =>
      obtain ⟨⟨ret, u⟩, outcome, same⟩ := Option.map_eq_some_iff.mp runs
      cases same
      exact xmp_unlink_pointers allocated outcome
  | remount blockOrder fileOrder room out =>
      cases runs
      exact (load_metadata_loadedFrom (initContext_tables s.sysdata out) _).allocated

end ProjetoTSO.Codededup
