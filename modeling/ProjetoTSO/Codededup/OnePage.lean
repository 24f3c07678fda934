import ProjetoTSO.Codededup.Write

/-!
# Writes of a single page

A write of one page runs every phase of `xmp_write` once, so that its effect can
be written down: the block is created and placed, or it is found and its counter
raised.  Stores with one file and one block are where the examples of the later
modules start.
-/

namespace ProjetoTSO.Codededup

open CInt Transition

theorem bufferPages_page (page : Page) : bufferPages page.toList = [page] := by
  have length : page.toList.length = 4096 := page.toList_length
  have only : bufferPage page.toList 0 = page := by
    ext j
    rw [bufferPage, List.Vector.get_ofFn, Nat.mul_zero, Nat.zero_add,
      List.getD_eq_getElem _ _ (by rw [length]; exact j.isLt), List.Vector.get_eq_get_toList]
    rfl
  have one : List.range (4096 / 4096) = [0] := by decide
  rw [bufferPages, length, one, List.map_singleton, only]

theorem blockHashes_page (SHA512 : Page → BlockId) (page : Page) :
    blockHashes SHA512 page.toList = [SHA512 page] := by
  rw [blockHashes, bufferPages_page, List.map_singleton]

/-! ## Placing one block -/

section Place

variable {s : Store} {hash : BlockId} {b : BlockRef}

/-- The index does not hold it: it is created, and gets an offset. -/
theorem placeBlocks_absent (absent : s.blockIndex.lookup hash = none) :
    placeBlocks [hash] s =
      (⟨[s.nextBlock], AList.singleton hash s.nextBlock, [s.nextBlock]⟩,
        assignOffset (createBlock hash s) s.nextBlock) := by
  have id : ((createBlock hash s).blocks s.nextBlock).id = hash := by
    rw [Ledger.createBlock_blocks_self]
  have created : [hash].foldl lookupBlock (WriteTables.empty, s) =
      (⟨[s.nextBlock], AList.singleton hash s.nextBlock, [s.nextBlock]⟩, createBlock hash s) := by
    simp only [List.foldl_cons, List.foldl_nil, lookupBlock, absent, WriteTables.note, id]
    rfl
  rw [placeBlocks, created]
  simp [assignOffsets, blocksToLock]

/-- The index holds it: it gets a reference more. -/
theorem placeBlocks_found (found : s.blockIndex.lookup hash = some b) :
    placeBlocks [hash] s =
      (⟨[b], AList.singleton (s.blocks b).id b, []⟩, raiseCounter b s) := by
  have id : ((raiseCounter b s).blocks b).id = (s.blocks b).id := by
    rw [raiseCounter, Store.setBlock_blocks_self]
  have noted : [hash].foldl lookupBlock (WriteTables.empty, s) =
      (⟨[b], AList.singleton (s.blocks b).id b, []⟩, raiseCounter b s) := by
    simp only [List.foldl_cons, List.foldl_nil, lookupBlock, found, WriteTables.note, id]
    rfl
  rw [placeBlocks, noted]
  simp [assignOffsets, blocksToLock]

end Place

/-! ## A page the index holds -/

section Known

variable {SHA512 : Page → BlockId} {s : Store} {path : Path} {f : FileRef} {b : BlockRef}
variable {page : Page} {env : WriteEnv}

theorem xmp_write_accepted (found : s.fileIndex.lookup path = some f) (page : Page) :
    xmp_write SHA512 path page.toList (s.files f).logicalSize env s =
      some (appendBlocks SHA512 f page.toList (s.files f).logicalSize env s) := by
  have length : page.toList.length = 4096 := page.toList_length
  unfold xmp_write findFile
  rw [length, if_neg (by decide), if_neg (by decide), found]
  exact if_neg fun differ => differ rfl

/-- Without memory, only the counter was raised. -/
theorem xmp_write_known_refused (env : WriteEnv) (found : s.fileIndex.lookup path = some f)
    (known : s.blockIndex.lookup (SHA512 page) = some b) (refused : env.memalign = false) :
    xmp_write SHA512 path page.toList (s.files f).logicalSize env s =
      some (-ENOMEM, raiseCounter b s) := by
  have nonzero : (-ENOMEM : ℤ) ≠ 0 := by decide
  rw [xmp_write_accepted found, appendBlocks_eq, blockHashes_page, placeBlocks_found known]
  simp [writeOut, refused, growFile, nonzero]

/-- With memory, the block is appended to the file; nothing is written. -/
theorem xmp_write_known (env : WriteEnv) (found : s.fileIndex.lookup path = some f)
    (known : s.blockIndex.lookup (SHA512 page) = some b) (granted : env.memalign = true) :
    xmp_write SHA512 path page.toList (s.files f).logicalSize env s =
      some (4096, growFile f 0 (s.files f).logicalSize 4096
        ((raiseCounter b s).setFile f
          { s.files f with blockList := (s.files f).blockList ++ [b] })) := by
  have length : page.toList.length = 4096 := page.toList_length
  have value : int32 4096 = 4096 := by decide
  rw [xmp_write_accepted found, appendBlocks_eq, blockHashes_page, placeBlocks_found known]
  simp [writeOut, granted, bufferPages_page, writeBlocks, writeBlock, length, value, raiseCounter]

end Known

/-! ## One file and one block -/

/-- A file system with one file and one block, the only one in the backing file. -/
def Store.single (backend_fd : ℤ) (sysdata : ByteDisk.Disk) (file : Filemeta) (block : Blockmeta) :
    Store where
  fileIndex := AList.singleton file.id 0
  blockIndex := AList.singleton block.id 0
  freeList := []
  backend_fd := backend_fd
  next_free_offset := 4096
  files := Function.update (fun _ => Filemeta.zero) 0 file
  blocks := Function.update (fun _ => Blockmeta.zero) 0 block
  nextFile := 1
  nextBlock := 1
  sysdata := sysdata

namespace Store

section Single

variable (backend_fd : ℤ) (sysdata : ByteDisk.Disk) (file : Filemeta) (block : Blockmeta)

@[simp] theorem single_files : (single backend_fd sysdata file block).files 0 = file := by
  simp [single]

@[simp] theorem single_blocks : (single backend_fd sysdata file block).blocks 0 = block := by
  simp [single]

@[simp] theorem single_fileIndex :
    (single backend_fd sysdata file block).fileIndex.lookup file.id = some 0 :=
  GHashTable.lookup_singleton _ _

@[simp] theorem single_blockIndex :
    (single backend_fd sysdata file block).blockIndex.lookup block.id = some 0 :=
  GHashTable.lookup_singleton _ _

theorem single_listAt : (single backend_fd sysdata file block).listAt file.id = file.blockList := by
  rw [listAt_of_lookup (single_fileIndex _ _ _ _), single_files]

theorem single_counterOf :
    (single backend_fd sysdata file block).counterOf block.id = block.counter := by
  rw [counterOf_of_lookup (single_blockIndex _ _ _ _), single_blocks]

variable {file block}

theorem single_fits (fileFits : file.Fits) (blockFits : block.Fits) :
    (single backend_fd sysdata file block).Fits where
  fileIndex := by simp [single]
  blockIndex := by simp [single]
  freeList := by simp [single]
  next_free_offset := by simp [single, FitsOff]
  free off member := by simp [single] at member
  block {h b} found := by
    have member := AList.mem_lookup_iff.mp (Option.mem_def.mpr found)
    simp only [single, AList.singleton_entries, List.mem_singleton] at member
    cases member
    rwa [single_blocks]
  file {p f} found := by
    have member := AList.mem_lookup_iff.mp (Option.mem_def.mpr found)
    simp only [single, AList.singleton_entries, List.mem_singleton] at member
    cases member
    rwa [single_files]

end Single

end Store

/-- A block of one page at the start of the backing file. -/
def Blockmeta.atStart (hash : BlockId) (counter : ℤ) : Blockmeta := ⟨0, hash, 4096, counter, true, false⟩

theorem Blockmeta.atStart_fits (hash : BlockId) {counter : ℤ} (lower : -2 ^ 31 ≤ counter)
    (upper : counter < 2 ^ 31) : (Blockmeta.atStart hash counter).Fits :=
  ⟨by simp [atStart], by simp [atStart, FitsOff], lower, upper⟩

/-- Raising the counter of the one block. -/
theorem raiseCounter_atStart (backend_fd : ℤ) (sysdata : ByteDisk.Disk) (file : Filemeta)
    (hash : BlockId) (counter : ℤ) :
    raiseCounter 0 (Store.single backend_fd sysdata file (.atStart hash counter)) =
      Store.single backend_fd sysdata file (.atStart hash (int32 (counter + 1))) := by
  simp only [raiseCounter, Store.single_blocks, Blockmeta.atStart, Store.setBlock]
  simp [Store.single]

theorem raiseCounter_single (backend_fd : ℤ) (sysdata : ByteDisk.Disk) (file : Filemeta)
    (hash : BlockId) {counter : ℤ} (lower : 0 ≤ counter) (room : counter + 1 < 2 ^ 31) :
    raiseCounter 0 (Store.single backend_fd sysdata file (.atStart hash counter)) =
      Store.single backend_fd sysdata file (.atStart hash (counter + 1)) := by
  rw [raiseCounter_atStart, int32_eq (by omega) room]

/-- A file system whose only file is one page. -/
def Store.onePage (backend_fd : ℤ) (sysdata : ByteDisk.Disk) (path : Path) (hash : BlockId)
    (page : Page) : Store :=
  Store.single backend_fd (ByteDisk.write sysdata 0 page.toList)
    ⟨path, 4096, 4096, [0], true, false⟩ (.atStart hash 1)

/-! ## The first write -/

section First

variable {SHA512 : Page → BlockId} {admitted : Store → Call → Prop} {fd : ℕ}
variable {sysdata : ByteDisk.Disk} {path : Path} {hash : BlockId} {page : Page} {env : WriteEnv}

/-- The store after a first write of one page to a path, of a page it did not hold. -/
def Store.addPage (s : Store) (path : Path) (hash : BlockId) (page : Page) : Store where
  fileIndex := s.fileIndex.insert path s.nextFile
  blockIndex := s.blockIndex.insert hash s.nextBlock
  freeList := s.freeList.dropLast
  backend_fd := s.backend_fd
  next_free_offset := if s.freeList = [] then s.next_free_offset + 4096 else s.next_free_offset
  files := Function.update s.files s.nextFile ⟨path, 4096, 4096, [s.nextBlock], true, false⟩
  blocks := Function.update s.blocks s.nextBlock ⟨Ledger.nextOffset s, hash, 4096, 1, true, false⟩
  nextFile := s.nextFile + 1
  nextBlock := s.nextBlock + 1
  sysdata := ByteDisk.write s.sysdata (Ledger.nextOffset s) page.toList

theorem xmp_write_absent {s : Store} (noFile : s.fileIndex.lookup path = none)
    (noBlock : s.blockIndex.lookup (SHA512 page) = none) (online : s.backend_fd ≠ -1)
    (granted : env.memalign = true) (full : env.pwrite 0 = .done (Fin.last 4096)) :
    xmp_write SHA512 path page.toList 0 env s =
      some (4096, s.addPage path (SHA512 page) page) := by
  have length : page.toList.length = 4096 := page.toList_length
  have all : page.toList.take (Fin.last 4096 : Fin 4097) = page.toList :=
    List.take_of_length_le length.le
  have sizes : int64 4096 = 4096 ∧ int32 4096 = 4096 ∧ uint64 4096 = 4096 ∧ uint64 0 = 0 := by
    decide
  have created : findFile path s = (s.nextFile, createFile path s) := by
    rw [findFile, noFile]
  have absent : (createFile path s).blockIndex.lookup (SHA512 page) = none := noBlock
  unfold xmp_write
  rw [length, if_neg (by decide), if_neg (by decide), created]
  simp only
  rw [if_neg (by simp [createFile, Filemeta.zero])]
  rw [appendBlocks_eq, blockHashes_page, placeBlocks_absent absent]
  -- the offset is the last of the free list, or the tail of the backing file
  rcases List.eq_nil_or_concat s.freeList with empty | ⟨rest, off, free⟩
  · simp only [writeOut, granted, bufferPages_page, writeBlocks, writeBlock, full, pwriteBlock, all,
      List.zip_cons_cons, List.zip_nil_left]
    simp [createFile, createBlock, assignOffset, growFile, Store.setFile, Store.setBlock,
      Store.addPage, Ledger.nextOffset, empty, online, length, Filemeta.zero, Blockmeta.zero, sizes]
  · simp only [writeOut, granted, bufferPages_page, writeBlocks, writeBlock, full, pwriteBlock, all,
      List.zip_cons_cons, List.zip_nil_left]
    simp [createFile, createBlock, assignOffset, growFile, Store.setFile, Store.setBlock,
      Store.addPage, Ledger.nextOffset, free, online, length, Filemeta.zero, Blockmeta.zero, sizes]

theorem xmp_write_first (granted : env.memalign = true)
    (full : env.pwrite 0 = .done (Fin.last 4096)) :
    xmp_write SHA512 path page.toList 0 env (Store.empty fd sysdata) =
      some (4096, Store.onePage fd sysdata path (SHA512 page) page) := by
  have online : (Store.empty fd sysdata).backend_fd ≠ -1 := by
    show (fd : ℤ) ≠ -1
    omega
  rw [xmp_write_absent rfl rfl online granted full]
  simp [Store.addPage, Store.empty, Ledger.nextOffset, Store.onePage, Store.single, Blockmeta.atStart]

/-- The first write, refused its memory: the block is in the index and owns an
offset, at which nothing was written. -/
theorem xmp_write_first_refused (refused : env.memalign = false) :
    xmp_write SHA512 path page.toList 0 env (Store.empty fd sysdata) =
      some (-ENOMEM, Store.single fd sysdata ⟨path, 0, 0, [], true, false⟩
        (.atStart (SHA512 page) 1)) := by
  have length : page.toList.length = 4096 := page.toList_length
  have nonzero : (-ENOMEM : ℤ) ≠ 0 := by decide
  have created : findFile path (Store.empty fd sysdata) =
      (0, createFile path (Store.empty fd sysdata)) := rfl
  have absent : (createFile path (Store.empty fd sysdata)).blockIndex.lookup (SHA512 page) = none :=
    rfl
  have placed := placeBlocks_absent absent
  unfold xmp_write
  rw [length, if_neg (by decide), if_neg (by decide), created]
  simp only
  rw [if_neg (by simp [createFile, Store.empty, Filemeta.zero])]
  rw [appendBlocks_eq, blockHashes_page, placed]
  simp only [writeOut, refused, if_true, growFile, nonzero, false_and, if_false]
  simp [createFile, Store.empty, createBlock, assignOffset, Store.setBlock, Store.single,
    Blockmeta.atStart, Filemeta.zero, Blockmeta.zero, nonzero]

theorem Store.onePage_fits {backend_fd : ℤ} (short : path.bytes.length < 2 ^ 64) :
    (Store.onePage backend_fd sysdata path hash page).Fits :=
  Store.single_fits _ _ ⟨short, by simp [FitsOff], by simp [FitsOff], by simp⟩
    (Blockmeta.atStart_fits hash (by norm_num) (by norm_num))

/-- A session of one write. -/
theorem runs_first (SHA512 : Page → BlockId) (env : WriteEnv)
    (short : path.bytes.length < 2 ^ 64) (granted : env.memalign = true)
    (full : env.pwrite 0 = .done (Fin.last 4096))
    (allowed : admitted (Store.empty fd sysdata) (.write path page.toList 0 env)) :
    Runs (Step SHA512 admitted) (Store.empty fd sysdata)
      [(.write path page.toList 0 env, .code 4096)]
      (Store.onePage fd sysdata path (SHA512 page) page) := by
  refine .snoc .nil ⟨?_, Store.onePage_fits short, allowed⟩
  show (xmp_write SHA512 path page.toList 0 env (Store.empty fd sysdata)).map _ = _
  rw [xmp_write_first granted full]
  rfl

/-- Any counter has room for the first reference. -/
theorem hasRoom_first : (Store.empty fd sysdata).HasRoom (blockHashes SHA512 page.toList) := by
  intro hash member
  have none_ : (Store.empty fd sysdata).counterOf hash = 0 := Store.counterOf_of_none rfl
  rw [blockHashes_page, List.mem_singleton] at member
  rw [none_, blockHashes_page, member, List.count_singleton_self]
  norm_num

/-- The one block has room for a reference more. -/
theorem hasRoom_single {file : Filemeta} {counter : ℤ} (room : counter + 1 < 2 ^ 31) :
    (Store.single fd sysdata file (.atStart (SHA512 page) counter)).HasRoom
      (blockHashes SHA512 page.toList) := by
  intro hash member
  have own : (Store.single fd sysdata file (.atStart (SHA512 page) counter)).counterOf
      (SHA512 page) = counter := Store.single_counterOf _ _ _ (.atStart (SHA512 page) counter)
  rw [blockHashes_page, List.mem_singleton] at member
  rw [member, own, blockHashes_page, List.count_singleton_self]
  exact room

end First

/-! ## A page with its digest -/

/-- A page of letters. -/
def pageOfA : Page := List.Vector.replicate 4096 0x41

theorem pageOfA_first : pageOfA.toList[0]? = some 0x41 := by
  have letters : pageOfA.toList = List.replicate 4096 0x41 := rfl
  rw [letters, List.getElem?_replicate, if_pos (by norm_num)]

/-- The SHA-512 digest of `pageOfA`. -/
def digestOfA : BlockId :=
  ⟨[0x0b, 0x0f, 0x6d, 0x19, 0x74, 0xa8, 0x6b, 0xb9, 0xf1, 0xd5, 0x0d, 0x40, 0x4a, 0x78, 0x0d, 0x00,
    0x8d, 0xd7, 0xd0, 0x58, 0x83, 0x28, 0x6b, 0xa4, 0x56, 0x32, 0x5e, 0x91, 0xa3, 0x81, 0xd4, 0x4b,
    0x5e, 0x8e, 0x27, 0xe0, 0xfb, 0x01, 0xf4, 0x3c, 0xfd, 0xa1, 0x13, 0x2d, 0x66, 0xc3, 0x63, 0xb9,
    0x13, 0x1c, 0x21, 0x32, 0xe8, 0xee, 0x00, 0x59, 0x49, 0xb7, 0x23, 0x7f, 0x6a, 0xfc, 0x9c, 0xdc],
    rfl⟩

/-- The SHA-512 digest of `pageOfB`. -/
def digestOfB : BlockId :=
  ⟨[0x21, 0xfd, 0x7f, 0xe5, 0xdc, 0xf3, 0xf5, 0x80, 0x51, 0x9d, 0x18, 0x29, 0xda, 0x2b, 0x27, 0x9f,
    0x6c, 0xbf, 0x57, 0xec, 0xdd, 0xb1, 0xbb, 0x0d, 0x78, 0x25, 0x79, 0x52, 0xbf, 0x77, 0x7e, 0x03,
    0x7a, 0x19, 0xe4, 0xa5, 0x0b, 0xff, 0x71, 0x3c, 0x9e, 0x82, 0x11, 0xa3, 0x6a, 0x97, 0x31, 0xee,
    0xa0, 0xad, 0xf9, 0x75, 0xf7, 0x3a, 0x40, 0xaa, 0x27, 0x03, 0xc8, 0x11, 0x95, 0xfd, 0x16, 0xce],
    rfl⟩

/-- What SHA-512 does on the two pages. -/
def letterDigest (page : Page) : BlockId :=
  if page.toList[0]? = some 0x41 then digestOfA else digestOfB

theorem letterDigest_pageOfA : letterDigest pageOfA = digestOfA := if_pos pageOfA_first

/-- No system call fails. -/
def WriteEnv.fine : WriteEnv := ⟨true, fun _ => .done (Fin.last 4096)⟩

/-- A file system with `pageOfA` under `/a`. -/
def holdsA : Store := Store.onePage (3 : ℕ) (fun _ => 0) (CString.lit "/a") digestOfA pageOfA

end ProjetoTSO.Codededup
