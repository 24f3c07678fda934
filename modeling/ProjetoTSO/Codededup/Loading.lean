import ProjetoTSO.Codededup.MetadataFormat
import ProjetoTSO.Codededup.References

/-!
# What loading a metadata file yields

`load_metadata` is run over the bytes `save_metadata` writes, or over a prefix of
them.  `Loaded s blocks files free t` says that `t` holds copies of exactly the
listed objects of `s`; a complete file loads everything (`load_metadataBytes`), a
prefix loads a prefix of each section, and nothing of a later section before the
earlier one is complete (`load_of_prefix`).
-/

namespace ProjetoTSO.Codededup

open CInt ByteStream

/-! ## Blocks -/

/-- The block index of `t` holds copies of the listed blocks of `s` and nothing
else. -/
structure BlocksLoaded (s : Store) (blocks : List BlockRef) (t : Store) : Prop where
  forth : ∀ b ∈ blocks, ∃ b', t.blockIndex.lookup (s.blocks b).id = some b' ∧
    b' < t.nextBlock ∧ (s.blocks b).Same (t.blocks b')
  back : ∀ {hash b'}, t.blockIndex.lookup hash = some b' → ∃ b ∈ blocks, (s.blocks b).id = hash

theorem BlocksLoaded.empty {s t : Store} (noBlocks : t.blockIndex = ∅) : BlocksLoaded s [] t where
  forth b member := absurd member List.not_mem_nil
  back {hash b'} found := by simp [noBlocks] at found

theorem BlocksLoaded.lookup_none {s t : Store} {blocks : List BlockRef}
    (loaded : BlocksLoaded s blocks t) {hash : BlockId}
    (fresh : hash ∉ blocks.map fun b => (s.blocks b).id) : t.blockIndex.lookup hash = none := by
  by_contra present
  obtain ⟨b', found⟩ := Option.ne_none_iff_exists'.mp present
  obtain ⟨b, member, rfl⟩ := loaded.back found
  exact fresh (List.mem_map_of_mem member)

/-- Loading a record under a hash the index does not hold. -/
theorem insertLoadedBlock_fresh {t : Store} {r : BlockRecord}
    (absent : t.blockIndex.lookup r.id = none) :
    insertLoadedBlock t r = { t with
      blocks := Function.update t.blocks t.nextBlock
        { Blockmeta.zero with
          id := r.id, size := r.bsize, block_offset := r.boffset, counter := int32 r.bcounter }
      nextBlock := t.nextBlock + 1
      blockIndex := t.blockIndex.insert r.id t.nextBlock } := by
  unfold insertLoadedBlock
  rw [absent]

theorem BlocksLoaded.insert {s t : Store} {blocks : List BlockRef} {b : BlockRef}
    (loaded : BlocksLoaded s blocks t) (fits : (s.blocks b).Fits)
    (fresh : (s.blocks b).id ∉ blocks.map fun b => (s.blocks b).id) :
    BlocksLoaded s (blocks ++ [b]) (insertLoadedBlock t (blockRecord s b)) := by
  have absent : t.blockIndex.lookup (blockRecord s b).id = none := loaded.lookup_none fresh
  have counter : int32 ((uint64 (s.blocks b).counter : ℕ) : ℤ) = (s.blocks b).counter :=
    int32_uint64 fits.counter.1 fits.counter.2
  rw [insertLoadedBlock_fresh absent]
  constructor
  · intro c member
    rcases List.mem_append.mp member with earlier | last
    · obtain ⟨c', found, below, same⟩ := loaded.forth c earlier
      have differ : (s.blocks c).id ≠ (s.blocks b).id := fun equal =>
        fresh (equal ▸ List.mem_map_of_mem earlier)
      have kept : c' ≠ t.nextBlock := below.ne
      refine ⟨c', ?_, Nat.lt_succ_of_lt below, ?_⟩
      · show AList.lookup _ (t.blockIndex.insert (s.blocks b).id t.nextBlock) = some c'
        rwa [AList.lookup_insert_ne differ]
      · simp only [Function.update_of_ne kept]
        exact same
    · obtain rfl := List.mem_singleton.mp last
      refine ⟨t.nextBlock, AList.lookup_insert _, Nat.lt_succ_self _, ?_⟩
      simp only [blockRecord, Function.update_self, counter]
      exact ⟨rfl, rfl, rfl, rfl⟩
  · intro hash b' found
    by_cases own : hash = (blockRecord s b).id
    · exact ⟨b, by simp, own.symm⟩
    · rw [AList.lookup_insert_ne own] at found
      obtain ⟨c, member, name⟩ := loaded.back found
      exact ⟨c, by simp [member], name⟩

theorem insertLoadedBlock_outside (t : Store) (r : BlockRecord) :
    OutsideBlocks t (insertLoadedBlock t r) := by
  unfold insertLoadedBlock
  cases t.blockIndex.lookup r.id with
  | none => exact ⟨rfl, rfl, rfl, rfl, rfl, rfl, rfl⟩
  | some old => exact ⟨rfl, rfl, rfl, rfl, rfl, rfl, rfl⟩

theorem foldl_insertLoadedBlock_outside (records : List BlockRecord) (t : Store) :
    OutsideBlocks t (records.foldl insertLoadedBlock t) := by
  induction records generalizing t with
  | nil => exact .refl t
  | cons r records ih => exact (insertLoadedBlock_outside t r).trans (ih _)

theorem blocksLoaded_foldl {s t : Store} {blocks : List BlockRef} (noBlocks : t.blockIndex = ∅)
    (fits : ∀ b ∈ blocks, (s.blocks b).Fits)
    (distinct : (blocks.map fun b => (s.blocks b).id).Nodup) :
    BlocksLoaded s blocks ((blocks.map (blockRecord s)).foldl insertLoadedBlock t) := by
  induction blocks using List.reverseRecOn with
  | nil => exact BlocksLoaded.empty noBlocks
  | append_singleton blocks b ih =>
      rw [List.map_append, List.nodup_append] at distinct
      obtain ⟨distinctInit, -, apart⟩ := distinct
      have fresh : (s.blocks b).id ∉ blocks.map fun b => (s.blocks b).id := fun member =>
        apart _ member _ (by simp) rfl
      have init := ih (fun c member => fits c (by simp [member])) distinctInit
      rw [List.map_append, List.foldl_append]
      exact init.insert (fits b (by simp)) fresh

/-! ## Files -/

/-- The file index of `t` holds copies of the listed files of `s` and nothing
else. -/
structure FilesLoaded (s : Store) (moved : BlockRef → BlockRef) (files : List FileRef)
    (t : Store) : Prop where
  forth : ∀ f ∈ files, ∃ f', t.fileIndex.lookup (s.files f).id = some f' ∧
    f' < t.nextFile ∧ (s.files f).Same moved (t.files f')
  back : ∀ {path f'}, t.fileIndex.lookup path = some f' → ∃ f ∈ files, (s.files f).id = path

theorem FilesLoaded.empty {s t : Store} {moved : BlockRef → BlockRef} (noFiles : t.fileIndex = ∅) :
    FilesLoaded s moved [] t where
  forth f member := absurd member List.not_mem_nil
  back {path f'} found := by simp [noFiles] at found

theorem FilesLoaded.lookup_none {s t : Store} {moved : BlockRef → BlockRef} {files : List FileRef}
    (loaded : FilesLoaded s moved files t) {path : Path}
    (fresh : path ∉ files.map fun f => (s.files f).id) : t.fileIndex.lookup path = none := by
  by_contra present
  obtain ⟨f', found⟩ := Option.ne_none_iff_exists'.mp present
  obtain ⟨f, member, rfl⟩ := loaded.back found
  exact fresh (List.mem_map_of_mem member)

/-- Loading a record under a path the index does not hold. -/
theorem insertLoadedFile_fresh {t : Store} {r : FileRecord}
    (absent : t.fileIndex.lookup r.id = none) :
    insertLoadedFile t r = { t with
      files := Function.update t.files t.nextFile
        ⟨r.id, r.realSize, r.logicalSize, r.blockList, true, false⟩
      nextFile := t.nextFile + 1
      fileIndex := t.fileIndex.insert r.id t.nextFile } := by
  unfold insertLoadedFile
  rw [absent]

theorem FilesLoaded.insert {s t : Store} {moved : BlockRef → BlockRef} {files : List FileRef}
    {f : FileRef} (loaded : FilesLoaded s moved files t)
    (fresh : (s.files f).id ∉ files.map fun f => (s.files f).id) :
    FilesLoaded s moved (files ++ [f]) (insertLoadedFile t (fileRecord s moved f)) := by
  have absent : t.fileIndex.lookup (fileRecord s moved f).id = none := loaded.lookup_none fresh
  rw [insertLoadedFile_fresh absent]
  constructor
  · intro g member
    rcases List.mem_append.mp member with earlier | last
    · obtain ⟨g', found, below, same⟩ := loaded.forth g earlier
      have differ : (s.files g).id ≠ (s.files f).id := fun equal =>
        fresh (equal ▸ List.mem_map_of_mem earlier)
      have kept : g' ≠ t.nextFile := below.ne
      refine ⟨g', ?_, Nat.lt_succ_of_lt below, ?_⟩
      · show AList.lookup _ (t.fileIndex.insert (s.files f).id t.nextFile) = some g'
        rwa [AList.lookup_insert_ne differ]
      · simp only [Function.update_of_ne kept]
        exact same
    · obtain rfl := List.mem_singleton.mp last
      refine ⟨t.nextFile, AList.lookup_insert _, Nat.lt_succ_self _, ?_⟩
      simp only [fileRecord, Function.update_self]
      exact ⟨rfl, rfl, rfl, rfl⟩
  · intro path f' found
    by_cases own : path = (fileRecord s moved f).id
    · exact ⟨f, by simp, own.symm⟩
    · rw [AList.lookup_insert_ne own] at found
      obtain ⟨g, member, name⟩ := loaded.back found
      exact ⟨g, by simp [member], name⟩

theorem insertLoadedFile_outside (t : Store) (r : FileRecord) :
    OutsideFiles t (insertLoadedFile t r) := by
  unfold insertLoadedFile
  cases t.fileIndex.lookup r.id with
  | none => exact ⟨rfl, rfl, rfl, rfl, rfl, rfl, rfl⟩
  | some old => exact ⟨rfl, rfl, rfl, rfl, rfl, rfl, rfl⟩

theorem foldl_insertLoadedFile_outside (records : List FileRecord) (t : Store) :
    OutsideFiles t (records.foldl insertLoadedFile t) := by
  induction records generalizing t with
  | nil => exact .refl t
  | cons r records ih => exact (insertLoadedFile_outside t r).trans (ih _)

theorem filesLoaded_foldl {s t : Store} (moved : BlockRef → BlockRef) {files : List FileRef}
    (noFiles : t.fileIndex = ∅) (distinct : (files.map fun f => (s.files f).id).Nodup) :
    FilesLoaded s moved files
      ((files.map (fileRecord s moved)).foldl insertLoadedFile t) := by
  induction files using List.reverseRecOn with
  | nil => exact FilesLoaded.empty noFiles
  | append_singleton files f ih =>
      rw [List.map_append, List.nodup_append] at distinct
      obtain ⟨distinctInit, -, apart⟩ := distinct
      have fresh : (s.files f).id ∉ files.map fun f => (s.files f).id := fun member =>
        apart _ member _ (by simp) rfl
      rw [List.map_append, List.foldl_append]
      exact (ih distinctInit).insert fresh

theorem foldl_insertLoadedFree (free : List ℤ) (t : Store) :
    free.foldl insertLoadedFree t = { t with freeList := t.freeList ++ free } := by
  induction free generalizing t with
  | nil => simp
  | cons off free ih =>
      rw [List.foldl_cons, ih]
      simp [insertLoadedFree]

/-! ## The whole file -/

/-- `t` holds copies of exactly the listed objects of `s`, its blocks where
`movedTo` says. -/
structure Loaded (s : Store) (blocks : List BlockRef) (files : List FileRef) (free : List ℤ)
    (t : Store) : Prop where
  blocks : BlocksLoaded s blocks t
  files : FilesLoaded s (movedTo s t) files t
  freeList : t.freeList = free
  next_free_offset : t.next_free_offset = s.next_free_offset

/-- What the two lists handed to the writer have to satisfy. -/
structure Enumerates (s : Store) (blocks : List BlockRef) (files : List FileRef) : Prop where
  blockFits : ∀ b ∈ blocks, (s.blocks b).Fits
  fileFits : ∀ f ∈ files, (s.files f).Fits
  blockIds : (blocks.map fun b => (s.blocks b).id).Nodup
  fileIds : (files.map fun f => (s.files f).id).Nodup
  listed : ∀ f ∈ files, ∀ b ∈ (s.files f).blockList, b ∈ blocks
  blockCount : blocks.length < 2 ^ 64
  fileCount : files.length < 2 ^ 64
  freeCount : s.freeList.length < 2 ^ 64
  free : ∀ off ∈ s.freeList, FitsOff off
  next_free_offset : FitsOff s.next_free_offset

/-- The tables a store is loaded into. -/
structure EmptyTables (t : Store) : Prop where
  blockIndex : t.blockIndex = ∅
  fileIndex : t.fileIndex = ∅
  freeList : t.freeList = []

section Sections

variable {s t : Store} {blocks : List BlockRef} {files : List FileRef}

theorem movedTo_of_loaded (loaded : BlocksLoaded s blocks t) {b : BlockRef} (member : b ∈ blocks) :
    t.blockIndex.lookup (s.blocks b).id = some (movedTo s t b) := by
  obtain ⟨b', found, -, -⟩ := loaded.forth b member
  simp [movedTo, found]

/-- With every block loaded, each file record is read back. -/
theorem reads_files (listing : Enumerates s blocks files) (loaded : BlocksLoaded s blocks t) :
    ∀ f ∈ files, Reads (read_file_record t.blockIndex) (fileBytes s f)
      (fileRecord s (movedTo s t) f) := fun f member =>
  reads_file_record (listing.fileFits f member) fun b listed =>
    movedTo_of_loaded loaded (listing.listed f member b listed)

/-- The store after the blocks section. -/
def afterBlocks (s : Store) (blocks : List BlockRef) (t : Store) : Store :=
  (blocks.map (blockRecord s)).foldl insertLoadedBlock
    { t with next_free_offset := s.next_free_offset }

/-- The store after the files section. -/
def afterFiles (s : Store) (blocks : List BlockRef) (files : List FileRef) (t : Store) : Store :=
  (files.map (fileRecord s (movedTo s (afterBlocks s blocks t)))).foldl insertLoadedFile
    (afterBlocks s blocks t)

theorem afterBlocks_loaded (tables : EmptyTables t)
    (fits : ∀ b ∈ blocks, (s.blocks b).Fits)
    (distinct : (blocks.map fun b => (s.blocks b).id).Nodup) :
    BlocksLoaded s blocks (afterBlocks s blocks t) :=
  blocksLoaded_foldl tables.blockIndex fits distinct

/-- The files section keeps the blocks, and adds the listed files. -/
theorem afterFiles_loaded (tables : EmptyTables t)
    (blockFits : ∀ b ∈ blocks, (s.blocks b).Fits)
    (blockIds : (blocks.map fun b => (s.blocks b).id).Nodup)
    (fileIds : (files.map fun f => (s.files f).id).Nodup) (free : List ℤ) :
    Loaded s blocks files free
      { afterFiles s blocks files t with freeList := (afterFiles s blocks files t).freeList ++ free } := by
  have blocksDone := afterBlocks_loaded (s := s) tables blockFits blockIds
  have outsideBlocks := foldl_insertLoadedBlock_outside (blocks.map (blockRecord s))
    { t with next_free_offset := s.next_free_offset }
  have outsideFiles := foldl_insertLoadedFile_outside
    (files.map (fileRecord s (movedTo s (afterBlocks s blocks t)))) (afterBlocks s blocks t)
  have noFiles : (afterBlocks s blocks t).fileIndex = ∅ :=
    outsideBlocks.fileIndex.trans tables.fileIndex
  have filesDone := filesLoaded_foldl (s := s) (movedTo s (afterBlocks s blocks t))
    noFiles fileIds
  have sameIndex : (afterFiles s blocks files t).blockIndex =
      (afterBlocks s blocks t).blockIndex := outsideFiles.blockIndex
  have sameMoved : movedTo s { afterFiles s blocks files t with
      freeList := (afterFiles s blocks files t).freeList ++ free } =
      movedTo s (afterBlocks s blocks t) := by
    funext b
    simp only [movedTo, sameIndex]
  refine ⟨⟨?_, ?_⟩, ?_, ?_, ?_⟩
  · intro b member
    obtain ⟨b', found, below, same⟩ := blocksDone.forth b member
    refine ⟨b', ?_, ?_, ?_⟩
    · simp only [sameIndex]
      exact found
    · show b' < (afterFiles s blocks files t).nextBlock
      rw [show (afterFiles s blocks files t).nextBlock = _ from outsideFiles.nextBlock]
      exact below
    · show (s.blocks b).Same ((afterFiles s blocks files t).blocks b')
      rw [show (afterFiles s blocks files t).blocks = _ from outsideFiles.blocks]
      exact same
  · intro hash b' found
    simp only [sameIndex] at found
    exact blocksDone.back found
  · rw [sameMoved]
    exact ⟨filesDone.forth, filesDone.back⟩
  · show (afterFiles s blocks files t).freeList ++ free = free
    rw [show (afterFiles s blocks files t).freeList = _ from outsideFiles.freeList,
      show (afterBlocks s blocks t).freeList = _ from outsideBlocks.freeList, tables.freeList]
    rfl
  · exact outsideFiles.next_free_offset.trans outsideBlocks.next_free_offset

/-- Loading a complete metadata file goes through its three sections. -/
theorem load_metadataBytes_eq (listing : Enumerates s blocks files) (tables : EmptyTables t) :
    load_metadata (some (metadataBytes s blocks files)) t =
      { afterFiles s blocks files t with
        freeList := (afterFiles s blocks files t).freeList ++ s.freeList } := by
  have blocksDone := afterBlocks_loaded (s := s) tables listing.blockFits listing.blockIds
  have blockCount : Reads read_uint64 (leBytes 8 blocks.length) blocks.length :=
    reads_uint64 listing.blockCount
  have fileCount : Reads read_uint64 (leBytes 8 files.length) files.length :=
    reads_uint64 listing.fileCount
  have freeCount : Reads read_uint64 (leBytes 8 s.freeList.length) s.freeList.length :=
    reads_uint64 listing.freeCount
  rw [load_metadata, metadataBytes]
  simp only [(reads_int64 listing.next_free_offset).full]
  rw [load_blocks, readSection_full (fun _ => read_block_record) insertLoadedBlock load_files _
    blockCount (fun b member => reads_block_record (listing.blockFits b member))]
  show load_files _ (afterBlocks s blocks t) = _
  rw [load_files, readSection_full (fun s => read_file_record s.blockIndex) insertLoadedFile
    load_free (afterBlocks s blocks t) fileCount (reads_files listing blocksDone)]
  show load_free _ (afterFiles s blocks files t) = _
  rw [load_free, ← List.append_nil (s.freeList.flatMap offBytes),
    readSection_full (fun _ => read_int64) insertLoadedFree (fun _ s => s)
      (afterFiles s blocks files t) freeCount
      (fun off member => reads_int64 (listing.free off member)),
    List.map_id', foldl_insertLoadedFree]

/-- **A complete metadata file loads everything.** -/
theorem load_metadataBytes (listing : Enumerates s blocks files) (tables : EmptyTables t) :
    Loaded s blocks files s.freeList
      (load_metadata (some (metadataBytes s blocks files)) t) := by
  rw [load_metadataBytes_eq listing tables]
  exact afterFiles_loaded tables listing.blockFits listing.blockIds listing.fileIds s.freeList

/-- **A truncated metadata file loads a prefix of each section**, and nothing of a
section before the ones written ahead of it are complete. -/
theorem load_of_prefix (listing : Enumerates s blocks files) (tables : EmptyTables t)
    {stream : Bytes} (isPrefix : stream <+: metadataBytes s blocks files) :
    load_metadata (some stream) t = t ∨
      ∃ kb kf kn, (kb < blocks.length → kf = 0 ∧ kn = 0) ∧ (kf < files.length → kn = 0) ∧
        Loaded s (blocks.take kb) (files.take kf) (s.freeList.take kn)
          (load_metadata (some stream) t) := by
  have blockCount : Reads read_uint64 (leBytes 8 blocks.length) blocks.length :=
    reads_uint64 listing.blockCount
  have fileCount : Reads read_uint64 (leBytes 8 files.length) files.length :=
    reads_uint64 listing.fileCount
  have freeCount : Reads read_uint64 (leBytes 8 s.freeList.length) s.freeList.length :=
    reads_uint64 listing.freeCount
  -- a section that was not reached contributes an empty list of records
  have stopped : ∀ kb kf kn : ℕ, Loaded s (blocks.take kb) (files.take kf) (s.freeList.take kn)
      { afterFiles s (blocks.take kb) (files.take kf) t with
        freeList := (afterFiles s (blocks.take kb) (files.take kf) t).freeList ++
          s.freeList.take kn } := by
    intro kb kf kn
    refine afterFiles_loaded tables
      (fun b member => listing.blockFits b (List.mem_of_mem_take member)) ?_ ?_ _
    · rw [List.map_take]
      exact listing.blockIds.sublist (List.take_sublist _ _)
    · rw [List.map_take]
      exact listing.fileIds.sublist (List.take_sublist _ _)
  rcases ends_inside_or_past isPrefix with ⟨inside, differs⟩ | ⟨body, rfl, bodyPrefix⟩
  · refine Or.inl ?_
    simp only [load_metadata, (reads_int64 listing.next_free_offset).cut _ inside differs]
  refine Or.inr ?_
  simp only [load_metadata, (reads_int64 listing.next_free_offset).full, load_blocks]
  -- the cut is in the blocks section, or the section is complete
  rcases readSection_of_prefix (fun _ => read_block_record) insertLoadedBlock load_files
      { t with next_free_offset := s.next_free_offset } blockCount
      (fun b member => reads_block_record (listing.blockFits b member)) bodyPrefix with
    ⟨k, -, cut⟩ | ⟨body, bodyPrefix, complete⟩
  · refine ⟨k, 0, 0, fun _ => ⟨rfl, rfl⟩, fun _ => rfl, ?_⟩
    rw [cut]
    have loaded := stopped k 0 0
    simpa [afterFiles, afterBlocks] using loaded
  rw [complete, load_files]
  have blocksDone := afterBlocks_loaded (s := s) tables listing.blockFits listing.blockIds
  rcases readSection_of_prefix (fun s => read_file_record s.blockIndex) insertLoadedFile
      load_free (afterBlocks s blocks t) fileCount
      (reads_files listing blocksDone) bodyPrefix with ⟨k, -, cut⟩ | ⟨body, bodyPrefix, complete⟩
  · refine ⟨blocks.length, k, 0, fun short => absurd short (lt_irrefl _), fun _ => rfl, ?_⟩
    have loaded := stopped blocks.length k 0
    rw [List.take_length, List.take_zero, List.append_nil] at loaded
    rw [List.take_length, List.take_zero]
    exact cut ▸ loaded
  have freeRecords : body <+: leBytes 8 s.freeList.length ++
      (s.freeList.flatMap offBytes ++ []) := by simpa using bodyPrefix
  rcases readSection_of_prefix (fun _ => read_int64) insertLoadedFree (fun _ s => s)
      (afterFiles s blocks files t) freeCount
      (fun off member => reads_int64 (listing.free off member)) freeRecords with
    ⟨k, -, cut⟩ | ⟨rest, -, all⟩
  · refine ⟨blocks.length, files.length, k, fun short => absurd short (lt_irrefl _),
      fun short => absurd short (lt_irrefl _), ?_⟩
    have loaded := stopped blocks.length files.length k
    rw [List.take_length, List.take_length] at loaded ⊢
    rw [List.map_id', foldl_insertLoadedFree] at cut
    exact (complete.trans cut) ▸ loaded
  · refine ⟨blocks.length, files.length, s.freeList.length, fun short => absurd short (lt_irrefl _),
      fun short => absurd short (lt_irrefl _), ?_⟩
    have loaded := stopped blocks.length files.length s.freeList.length
    rw [List.take_length, List.take_length, List.take_length] at loaded ⊢
    rw [List.map_id', foldl_insertLoadedFree] at all
    exact (complete.trans all) ▸ loaded

end Sections

end ProjetoTSO.Codededup
