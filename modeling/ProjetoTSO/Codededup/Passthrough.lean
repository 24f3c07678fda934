import Mathlib.Data.PNat.Basic
import ProjetoTSO.Codededup.MetaInfo

/-!
# The deduplicating handlers (`passthrough.c`)

`xmp_getattr`, `xmp_unlink`, `xmp_read` and `xmp_write`, each run alone.  A
handler is cut into the pieces between which the source takes or drops locks;
the pieces are definitions of their own, named after what they do.

## Design notes

**Environment.**  What a call obtains from the system (the outcome of
`posix_memalign`, `pread`, `pwrite`, `lstat`, `unlink`, and the order in which
GLib iterates over a table of pointers) is an argument.

**Undefined behaviour.**  A handler returns `none` where the C code has no
defined result: an index outside an array, a `memcpy` outside its buffer, an
overflow of a signed loop variable.

**SHA-512** is a parameter: OpenSSL is not part of this program.
-/

namespace ProjetoTSO.Codededup

open CInt

/-! ## The environment -/

/-- A value of `errno` after a failed call. -/
abbrev Errno := ℕ+

def EPERM : ℤ := 1
def ENOENT : ℤ := 2
def Errno.ENOENT : Errno := ⟨2, Nat.two_pos⟩
def EBADF : ℤ := 9
def ENOMEM : ℤ := 12
def EINVAL : ℤ := 22
def ENOTSUP : ℤ := 95

/-- What one `pwrite` of 4096 bytes did. -/
inductive PwriteOut
  /-- It returned -1, leaving `left` in the place it was asked to write. -/
  | fail (errno : Errno) (left : Page)
  /-- It stored the first `n` bytes and returned `n`. -/
  | done (n : Fin 4097)

/-- What one `pread` of 4096 bytes did. -/
inductive PreadOut
  | fail (errno : Errno)
  /-- It delivered the first `n` bytes into a buffer that held `before`. -/
  | done (n : Fin 4097) (before : Page)

/-- What `unlink` on the placeholder did. -/
inductive UnlinkOut
  | ok
  | enoent
  /-- It failed with an `errno` other than `ENOENT`. -/
  | fail (errno : Errno)

/-- What `lstat` on the placeholder did. -/
inductive LstatOut
  | fail (errno : Errno)
  | ok (st_size st_blocks : ℤ)

/-- The order in which GLib iterates over the entries of a table. -/
structure IterOrder (α : Type) where
  arrange : List α → List α
  perm : ∀ l, (arrange l).Perm l

/-- Insertion order. -/
def IterOrder.id (α : Type) : IterOrder α := ⟨fun l => l, fun l => List.Perm.refl l⟩

/-- The store's own files, as `xmp_getattr` and `xmp_unlink` recognise them. -/
def reserved (path : Path) : Prop :=
  path = CString.lit "/backend/.metadata" ∨ path = CString.lit "/backend/.sysdata"

instance (path : Path) : Decidable (reserved path) := inferInstanceAs (Decidable (_ ∨ _))

/-! ## `xmp_getattr` -/

/-- What `xmp_getattr` returns, with the two fields of `stbuf` it may set. -/
structure Stat where
  ret : ℤ
  st_size : ℤ
  st_blocks : ℤ
deriving DecidableEq

/-- The branch on the file index, after a successful `lstat`. -/
def overrideStat (s : Store) (path : Path) (st_size st_blocks : ℤ) : Stat :=
  match s.fileIndex.lookup path with
  | some f => ⟨0, (s.files f).logicalSize, ((s.files f).logicalSize + 511).tdiv 512⟩
  | none => ⟨0, st_size, st_blocks⟩

def xmp_getattr (path : Path) (lstat : LstatOut) (s : Store) : Stat :=
  if reserved path then ⟨-ENOENT, 0, 0⟩
  else
    match lstat with
    | .fail errno => ⟨-(errno : ℤ), 0, 0⟩
    | .ok st_size st_blocks => overrideStat s path st_size st_blocks

/-! ## `xmp_unlink` -/

/-- `g_hash_table_steal(ctx->fileIndex, path)`. -/
def stealFile (path : Path) (s : Store) : Store :=
  { s with fileIndex := s.fileIndex.erase path }

/-- `g_hash_table_insert(ctx->fileIndex, g_strdup(path), file)`: an entry already
under the key is destroyed by the table's value destroy function. -/
def reinsertFile (path : Path) (f : FileRef) (s : Store) : Store :=
  let s := match s.fileIndex.lookup path with
    | some old => freeFilemeta old s
    | none => s
  { s with fileIndex := s.fileIndex.insert path f }

/-- The table `blockCounts`: each distinct block of the list with its number of
occurrences. -/
def blockCounts (blockList : List BlockRef) : GHashTable BlockRef ℤ :=
  blockList.foldl (fun counts block => counts.insert block ((counts.lookup block).getD 0 + 1)) ∅

/-- `block->counter -= ocorrencias_neste_ficheiro`, and the removal from the index
of a block whose counter reaches zero. -/
def lowerCounter (b : BlockRef) (ocorrencias : ℤ) (s : Store) : Store :=
  let counter := int32 ((s.blocks b).counter - ocorrencias)
  let s := s.setBlock b { s.blocks b with counter := counter }
  if counter = 0 then { s with blockIndex := s.blockIndex.erase (s.blocks b).id } else s

/-- `g_array_append_val(ctx->freeList, block->block_offset)`. -/
def pushFree (b : BlockRef) (s : Store) : Store :=
  { s with freeList := s.freeList ++ [(s.blocks b).block_offset] }

/-- One iteration of the release loop. -/
def releaseBlock (s : Store) (entry : BlockRef × ℤ) : Store :=
  let s := lowerCounter entry.1 entry.2 s
  if (s.blocks entry.1).counter = 0 then freeBlockMeta entry.1 (pushFree entry.1 s) else s

/-- The entries of `blockCounts` in the order the loop meets them. -/
def releaseOrder (order : IterOrder (BlockRef × ℤ)) (blockList : List BlockRef) :
    List (BlockRef × ℤ) :=
  order.arrange ((blockCounts blockList).entries.map fun entry => (entry.1, entry.2))

def xmp_unlink (path : Path) (unlink : UnlinkOut) (order : IterOrder (BlockRef × ℤ))
    (s : Store) : Option (ℤ × Store) :=
  if reserved path then some (-EPERM, s)
  else
    match s.fileIndex.lookup path with
    | none => some (-ENOENT, s)
    | some f =>
        let s := stealFile path s
        match unlink with
        | .fail errno => some (-(errno : ℤ), reinsertFile path f s)
        | _ =>
            -- the `int` loop variable runs up to the length of the list
            if 2 ^ 31 ≤ (s.files f).blockList.length then none
            else
              let s := (releaseOrder order (s.files f).blockList).foldl releaseBlock s
              some (0, freeFilemeta f s)

/-! ## `xmp_read` -/

/-- `if (offset + size > file->logicalSize) size = file->logicalSize - offset`, in
unsigned 64-bit arithmetic. -/
def clampSize (logicalSize offset : ℤ) (size : ℕ) : ℕ :=
  if uint64 logicalSize < uint64 (offset + size) then uint64 (logicalSize - offset) else size

def startIndex (offset : ℤ) : ℤ := int32 (offset.tdiv 4096)

def endIndex (offset : ℤ) (size : ℕ) : ℤ := int32 ((uint64 (offset + size - 1) / 4096 : ℕ) : ℤ)

/-- `g_ptr_array_index(file->blockList, i)`: not checked, so defined only inside
the array. -/
def listIndex (blockList : List BlockRef) (i : ℤ) : Option (ℤ × BlockRef) :=
  if 0 ≤ i then blockList[i.toNat]?.map fun b => (i, b) else none

/-- The indices `i` of the two loops with the blocks found there. -/
def windowBlocks (blockList : List BlockRef) (start_index end_index : ℤ) :
    Option (List (ℤ × BlockRef)) :=
  if end_index = 2 ^ 31 - 1 then none
  else
    ((List.range (end_index + 1 - start_index).toNat).map fun k : ℕ => start_index + k).mapM
      (listIndex blockList)

/-- What a short `pread` leaves in the aligned buffer. -/
def deliver (page before : Page) (n : Fin 4097) : List UInt8 :=
  page.toList.take n ++ before.toList.drop n

/-- One iteration of the copy loop: the error it ends the loop with (0 for none)
and the bytes copied so far.  `capacity` is the length of the caller's buffer. -/
def copyBlock (s : Store) (memalign : Bool) (pread : PreadOut) (offset : ℤ)
    (capacity size : ℕ) (entry : ℤ × BlockRef) (buf : List UInt8) : Option (ℤ × List UInt8) :=
  let block_start_logical := entry.1 * 4096
  let read_start_in_block :=
    if block_start_logical < offset then offset - block_start_logical else 0
  let bytes_to_read := uint64 (4096 - read_start_in_block)
  let bytes_to_read :=
    if size < uint64 (buf.length + bytes_to_read) then uint64 ((size : ℤ) - buf.length)
    else bytes_to_read
  if s.backend_fd = -1 then some (-EBADF, buf)
  else if memalign = false then some (-ENOMEM, buf)
  else
    match pread with
    | .fail errno => some (-(errno : ℤ), buf)
    | .done n before =>
        if read_start_in_block + bytes_to_read ≤ 4096 ∧ buf.length + bytes_to_read ≤ capacity then
          let aligned_buffer := deliver (s.pageOf entry.2) before n
          some (0, buf ++ (aligned_buffer.drop read_start_in_block.toNat).take bytes_to_read)
        else none

/-- The outcomes a read meets, by iteration of its copy loop. -/
structure ReadEnv where
  memalign : ℕ → Bool
  pread : ℕ → PreadOut

def copyBlocks (s : Store) (env : ReadEnv) (offset : ℤ) (capacity size : ℕ) :
    ℕ → List (ℤ × BlockRef) → List UInt8 → Option (ℤ × List UInt8)
  | _, [], buf => some (0, buf)
  | k, entry :: rest, buf => do
      let (err, buf) ← copyBlock s (env.memalign k) (env.pread k) offset capacity size entry buf
      if err ≠ 0 then some (err, buf)
      else copyBlocks s env offset capacity size (k + 1) rest buf

/-- The value returned and the bytes put into the caller's buffer. -/
def xmp_read (path : Path) (size : ℕ) (offset : ℤ) (env : ReadEnv) (s : Store) :
    Option (ℤ × List UInt8) :=
  if size % 4096 ≠ 0 then some (-EINVAL, [])
  else
    match s.fileIndex.lookup path with
    | none => some (-ENOENT, [])
    | some f =>
        let file := s.files f
        if file.logicalSize ≤ offset then some (0, [])
        else do
          let clamped := clampSize file.logicalSize offset size
          let blocks ← windowBlocks file.blockList (startIndex offset) (endIndex offset clamped)
          let (err, buf) ← copyBlocks s env offset size clamped 0 blocks []
          some (if err ≠ 0 then err else int32 buf.length, buf)

/-! ## `xmp_write` -/

/-- The 4096 bytes at `buf + i * 4096`. -/
def bufferPage (buf : List UInt8) (i : ℕ) : Page :=
  List.Vector.ofFn fun j => buf.getD (4096 * i + j) 0

/-- The buffer, cut into blocks. -/
def bufferPages (buf : List UInt8) : List Page :=
  (List.range (buf.length / 4096)).map (bufferPage buf)

/-- The entry created for a path that has none. -/
def createFile (path : Path) (s : Store) : Store :=
  { s with
    files := Function.update s.files s.nextFile
      { Filemeta.zero with id := path, lockReady := true }
    nextFile := s.nextFile + 1
    fileIndex := s.fileIndex.insert path s.nextFile }

/-- The file entry a write works on. -/
def findFile (path : Path) (s : Store) : FileRef × Store :=
  match s.fileIndex.lookup path with
  | some f => (f, s)
  | none => (s.nextFile, createFile path s)

/-- `__sync_fetch_and_add(&block->counter, 1)`. -/
def raiseCounter (b : BlockRef) (s : Store) : Store :=
  s.setBlock b { s.blocks b with counter := int32 ((s.blocks b).counter + 1) }

/-- The block created for a hash the index does not hold: published with counter
1, its `block_offset` still zero. -/
def createBlock (hash : BlockId) (s : Store) : Store :=
  { s with
    blocks := Function.update s.blocks s.nextBlock
      { Blockmeta.zero with id := hash, size := 4096, counter := 1, lockReady := true }
    nextBlock := s.nextBlock + 1
    blockIndex := s.blockIndex.insert hash s.nextBlock }

/-- The tables a write fills while it looks its blocks up. -/
structure WriteTables where
  newBlocksInfo : List BlockRef
  lockedBlocks : GHashTable BlockId BlockRef
  my_created_blocks : List BlockRef

def WriteTables.empty : WriteTables := ⟨[], ∅, []⟩

/-- The end of an iteration of the lookup loop: `block` goes into `lockedBlocks`,
once, and into `newBlocksInfo`. -/
def WriteTables.note (tables : WriteTables) (s : Store) (block : BlockRef) : WriteTables :=
  { tables with
    lockedBlocks :=
      match tables.lockedBlocks.lookup (s.blocks block).id with
      | some _ => tables.lockedBlocks
      | none => tables.lockedBlocks.insert (s.blocks block).id block
    newBlocksInfo := tables.newBlocksInfo ++ [block] }

/-- One iteration of the lookup loop. -/
def lookupBlock (state : WriteTables × Store) (hash : BlockId) : WriteTables × Store :=
  let (tables, s) := state
  match s.blockIndex.lookup hash with
  | some block =>
      let s := raiseCounter block s
      (tables.note s block, s)
  | none =>
      let block := s.nextBlock
      let s := createBlock hash s
      ({ tables with my_created_blocks := block :: tables.my_created_blocks }.note s block, s)

/-- `memcmp`, byte by byte. -/
def memcmp : List UInt8 → List UInt8 → ℤ
  | a :: as, b :: bs => if a = b then memcmp as bs else (a.toNat : ℤ) - b.toNat
  | _, _ => 0

def compare_blocks (s : Store) (a b : BlockRef) : ℤ :=
  memcmp (s.blocks a).id.toList (s.blocks b).id.toList

/-- `blocks_to_lock`: the distinct blocks of the request, sorted by hash. -/
def blocksToLock (tables : WriteTables) (s : Store) : List BlockRef :=
  (tables.lockedBlocks.entries.map fun entry => entry.2).insertionSort
    fun a b => compare_blocks s a b ≤ 0

/-- The offset a created block gets: the last of the free list, else the tail of
the backing file. -/
def assignOffset (s : Store) (b : BlockRef) : Store :=
  match s.freeList.getLast? with
  | some off =>
      { s.setBlock b { s.blocks b with block_offset := off } with
        freeList := s.freeList.dropLast }
  | none =>
      { s.setBlock b { s.blocks b with block_offset := s.next_free_offset } with
        next_free_offset := s.next_free_offset + (s.blocks b).size }

/-- The allocation loop. -/
def assignOffsets (blocks_to_lock my_created_blocks : List BlockRef) (s : Store) : Store :=
  (blocks_to_lock.filter (· ∈ my_created_blocks)).foldl assignOffset s

/-- `pwrite(ctx->backend_fd, aligned_block, 4096, block->block_offset)`, with the
`err` it sets. -/
def pwriteBlock (out : PwriteOut) (b : BlockRef) (page : Page) (s : Store) : ℤ × Store :=
  match out with
  | .fail errno left =>
      (-(errno : ℤ),
        { s with sysdata := ByteDisk.write s.sysdata (s.blocks b).block_offset left.toList })
  | .done n =>
      (0, { s with
        sysdata := ByteDisk.write s.sysdata (s.blocks b).block_offset (page.toList.take n) })

/-- One iteration of the I/O loop on file `f`: the new `err`, the blocks still in
`my_created_blocks`, and the store. -/
def writeBlock (f : FileRef) (out : PwriteOut) (entry : BlockRef × Page)
    (my_created_blocks : List BlockRef) (s : Store) : ℤ × List BlockRef × Store :=
  let b := entry.1
  if b ∈ my_created_blocks then
    let (err, s) := if s.backend_fd = -1 then (0, s) else pwriteBlock out b entry.2 s
    let file := s.files f
    (err, my_created_blocks.erase b,
      s.setFile f { file with
        realSize := int64 (file.realSize + (s.blocks b).size)
        blockList := file.blockList ++ [b] })
  else
    let file := s.files f
    (0, my_created_blocks, s.setFile f { file with blockList := file.blockList ++ [b] })

/-- The outcomes a write meets; `pwrite i` is the outcome at iteration `i` of the
I/O loop. -/
structure WriteEnv where
  memalign : Bool
  pwrite : ℕ → PwriteOut

def writeBlocks (f : FileRef) (env : WriteEnv) :
    ℕ → List (BlockRef × Page) → List BlockRef → Store → ℤ × Store
  | _, [], _, s => (0, s)
  | i, entry :: rest, my_created_blocks, s =>
      let (err, my_created_blocks, s) := writeBlock f (env.pwrite i) entry my_created_blocks s
      if err ≠ 0 then (err, s) else writeBlocks f env (i + 1) rest my_created_blocks s

/-- `if (!err && offset + size > file->logicalSize) file->logicalSize = offset + size`. -/
def growFile (f : FileRef) (err offset : ℤ) (size : ℕ) (s : Store) : Store :=
  let file := s.files f
  if err = 0 ∧ uint64 file.logicalSize < uint64 (offset + size) then
    s.setFile f { file with logicalSize := int64 (uint64 (offset + size)) }
  else s

section

variable (SHA512 : Page → BlockId)

def blockHashes (buf : List UInt8) : List BlockId := (bufferPages buf).map SHA512

/-- The part of `xmp_write` that works on a file whose `logicalSize` equals the
offset. -/
def appendBlocks (f : FileRef) (buf : List UInt8) (offset : ℤ) (env : WriteEnv) (s : Store) :
    ℤ × Store :=
  let (tables, s) := (blockHashes SHA512 buf).foldl lookupBlock (WriteTables.empty, s)
  let s := assignOffsets (blocksToLock tables s) tables.my_created_blocks s
  let (err, s) :=
    if env.memalign = false then (-ENOMEM, s)
    else
      writeBlocks f env 0 (tables.newBlocksInfo.zip (bufferPages buf)) tables.my_created_blocks s
  let s := growFile f err offset buf.length s
  (if err ≠ 0 then err else int32 buf.length, s)

def xmp_write (path : Path) (buf : List UInt8) (offset : ℤ) (env : WriteEnv) (s : Store) :
    Option (ℤ × Store) :=
  if buf.length % 4096 ≠ 0 then some (-EINVAL, s)
  -- `buf + i * 4096` is computed in `int`
  else if 2 ^ 31 < buf.length then none
  else
    let (f, s) := findFile path s
    if offset ≠ (s.files f).logicalSize then some (-ENOTSUP, s)
    else some (appendBlocks SHA512 f buf offset env s)

end

end ProjetoTSO.Codededup
