import ProjetoTSO.Codededup.Passthrough
import ProjetoTSO.Lib.LockedPrograms

/-!
# The handlers as threads

`xmp_getattr`, `xmp_read`, `xmp_write` and `xmp_unlink` as libfuse runs them: each call on
a thread of its own, all on one `Context`.  A program is the handler with its lock
operations; what it does between two of them are the pieces of `Passthrough`, one act for
each piece and for each iteration of a loop.

## Design notes

**Locks.**  `file_index_lock`, `block_index_lock` and the locks of files and blocks are
ticket locks, which let threads in in the order they came; the other two are mutexes.  The
lock of an object is named after the object, and keeps its state when the object is freed.

**Frames.**  A `Frame` holds the local variables of a call that the state of other calls
depends on: the entry it has in hand and how it came by it, and the blocks it works on.

**Undefined behaviour.**  Where the C code has no defined result, the system answers: an
index outside `blockList` may find any block there is, a `memcpy` outside its buffer may
leave any result, and an `int` that overflows may count anything.
-/

namespace ProjetoTSO.Codededup

open CInt LockedPrograms FifoRwlock

instance : Inhabited UnlinkOut := ⟨.ok⟩
instance : Inhabited LstatOut := ⟨.ok 0 0⟩
instance : Inhabited PwriteOut := ⟨.done (Fin.last 4096)⟩
instance : Inhabited PreadOut := ⟨.fail 1⟩
instance (α : Type) : Inhabited (IterOrder α) := ⟨IterOrder.id α⟩

namespace Threads

/-! ## Locks and frames -/

inductive Lock
  | file_index_lock
  | file (f : FileRef)
  | block_index_lock
  | block (b : BlockRef)
  | freeList_lock
  | offset_lock
deriving DecidableEq

/-- The ticket locks. -/
def Lock.fifo : Lock → Prop
  | .freeList_lock => False
  | .offset_lock => False
  | _ => True

/-- How far a write is: it looks its blocks up, its created blocks own their offsets and
`appended` blocks are in the file, or all is done but the unlocking. -/
inductive Phase
  | looking
  | placed (appended : ℕ)
  | stored (err : ℤ)

/-- What a call has in hand. -/
inductive Frame
  | outside
  /-- An entry looked up, and `file_index_lock` not released since. -/
  | found (f : FileRef)
  /-- `xmp_write`: the entry of the branch for paths without one, its lock not taken. -/
  | window (f : FileRef)
  /-- An entry whose lock is taken, and its size. -/
  | entered (f : FileRef) (logicalSize : ℤ)
  /-- `xmp_read`, with the blocks of its window. -/
  | reading (f : FileRef) (blocks : List BlockRef)
  /-- `xmp_write`, the offset checked. -/
  | writing (f : FileRef) (tables : WriteTables) (phase : Phase)
  /-- `xmp_write` returned success. -/
  | wrote (f : FileRef) (offset : ℤ) (newBlocksInfo : List BlockRef)
  /-- `xmp_unlink`: the entry is out of the index, the placeholder not yet removed. -/
  | stolen (f : FileRef)
  /-- The placeholder could not be removed. -/
  | failed (f : FileRef)
  /-- The entry is back in the index. -/
  | restored (f : FileRef)
  /-- The placeholder is gone, no reference of the entry released. -/
  | removing (f : FileRef)
  /-- The release loop, with the block that has left the index and whose offset is not yet
  free, and the entries of `blockCounts` to come. -/
  | releasing (f : FileRef) (gone : Option BlockRef) (rest : List (BlockRef × ℤ))
  /-- Every reference released, `freeFilemeta` not yet called. -/
  | released (f : FileRef)
  | removed (f : FileRef)

/-- What a handler returns, with what it puts into the caller's buffer. -/
inductive Result
  | stat (stat : Stat)
  | bytes (ret : ℤ) (buf : List UInt8)
  | status (ret : ℤ)

abbrev Program := LockedPrograms.Prog Store Frame Lock Result

/-! ## Common pieces -/

/-- `g_hash_table_lookup(ctx->fileIndex, path)`. -/
def lookupFile (path : Path) (s : Store) : Option FileRef × Store :=
  (s.fileIndex.lookup path, s)

/-- The frame after a lookup. -/
def Frame.ofLookup : Option FileRef → Frame
  | some f => .found f
  | none => .outside

/-- `file->logicalSize`. -/
def readSize (f : FileRef) (s : Store) : ℤ × Store := ((s.files f).logicalSize, s)

def lockBlocks (mode : Mode) (blocks : List BlockRef) (next : Program) : Program :=
  blocks.foldr (fun b next => .acquire (.block b) mode next) next

def unlockBlocks (mode : Mode) (frame : Frame) (blocks : List BlockRef) (next : Program) :
    Program :=
  blocks.foldr (fun b next => .release (.block b) mode frame next) next

/-! ## `xmp_getattr` -/

def xmp_getattr (path : Path) : Program :=
  if reserved path then .ret (.stat ⟨-ENOENT, 0, 0⟩)
  else
    .ask fun lstat : LstatOut =>
    match lstat with
    | .fail errno => .ret (.stat ⟨-(errno : ℤ), 0, 0⟩)
    | .ok st_size st_blocks =>
        .acquire .file_index_lock .read <|
        .act (lookupFile path) Frame.ofLookup fun
        | none =>
            .release .file_index_lock .read .outside <|
            .ret (.stat ⟨0, st_size, st_blocks⟩)
        | some f =>
            .acquire (.file f) .read <|
            .act (readSize f) (.entered f) fun logicalSize =>
            .release (.file f) .read .outside <|
            .release .file_index_lock .read .outside <|
            .ret (.stat ⟨0, logicalSize, (logicalSize + 511).tdiv 512⟩)

/-! ## `xmp_read` -/

/-- The table `uniqueBlocks`. -/
def uniqueBlocks (s : Store) (entries : List (ℤ × BlockRef)) : GHashTable BlockId BlockRef :=
  entries.foldl (fun table entry => table.insert (s.blocks entry.2).id entry.2) ∅

/-- The distinct blocks of the window, sorted by hash. -/
def blocksToRead (s : Store) (entries : List (ℤ × BlockRef)) : List BlockRef :=
  ((uniqueBlocks s entries).entries.map fun entry => entry.2).insertionSort
    fun a b => compare_blocks s a b ≤ 0

/-- The blocks met by the loops of a read, with those to lock.  Outside `blockList` they
are among `strays`, which are blocks of this store. -/
def readWindow (f : FileRef) (start_index end_index : ℤ) (strays : List (ℤ × BlockRef))
    (s : Store) : (List (ℤ × BlockRef) × List BlockRef) × Store :=
  let entries := (windowBlocks (s.files f).blockList start_index end_index).getD
    (strays.filter fun entry => entry.2 < s.nextBlock)
  ((entries, blocksToRead s entries), s)

/-- The copy loop. -/
def copyLoop (f : FileRef) (blocks : List BlockRef) (offset : ℤ) (capacity size : ℕ) :
    List (ℤ × BlockRef) → List UInt8 → (ℤ × List UInt8 → Program) → Program
  | [], buf, next => next (0, buf)
  | entry :: rest, buf, next =>
      .ask fun memalign : Bool =>
      .ask fun pread : PreadOut =>
      .act (fun s => (copyBlock s memalign pread offset capacity size entry buf, s))
        (fun _ => .reading f blocks) fun
      | some (err, buf) =>
          if err ≠ 0 then next (err, buf)
          else copyLoop f blocks offset capacity size rest buf next
      | none =>
          .ask fun out : ℤ × List UInt8 =>
          if out.1 ≠ 0 then next out
          else copyLoop f blocks offset capacity size rest out.2 next

def xmp_read (path : Path) (size : ℕ) (offset : ℤ) : Program :=
  if size % 4096 ≠ 0 then .ret (.bytes (-EINVAL) [])
  else
    .acquire .file_index_lock .read <|
    .act (lookupFile path) Frame.ofLookup fun
    | none =>
        .release .file_index_lock .read .outside <|
        .ret (.bytes (-ENOENT) [])
    | some f =>
        .acquire (.file f) .read <|
        .act (readSize f) (.entered f) fun logicalSize =>
        .release .file_index_lock .read (.entered f logicalSize) <|
        if logicalSize ≤ offset then
          .release (.file f) .read .outside <|
          .ret (.bytes 0 [])
        else
          let clamped := clampSize logicalSize offset size
          .acquire .block_index_lock .read <|
          .ask fun strays : List (ℤ × BlockRef) =>
          .act (readWindow f (startIndex offset) (endIndex offset clamped) strays)
            (fun window => .reading f window.2) fun (entries, blocks_to_lock) =>
          lockBlocks .read blocks_to_lock <|
          .release .block_index_lock .read (.reading f blocks_to_lock) <|
          copyLoop f blocks_to_lock offset size clamped entries [] fun (err, buf) =>
          .ask fun order : IterOrder BlockRef =>
          unlockBlocks .read (.reading f blocks_to_lock) (order.arrange blocks_to_lock) <|
          .release (.file f) .read .outside <|
          .ret (.bytes (if err ≠ 0 then err else int32 buf.length) buf)

/-! ## `xmp_write` -/

/-- An iteration of the lookup loop on a block that is indexed. -/
def countBlock (tables : WriteTables) (hash : BlockId) (s : Store) :
    Option WriteTables × Store :=
  match s.blockIndex.lookup hash with
  | some block =>
      let s := raiseCounter block s
      (some (tables.note s block), s)
  | none => (none, s)

/-- The lookup loop. -/
def lookupLoop (f : FileRef) :
    List BlockId → WriteTables → (WriteTables → Program) → Program
  | [], tables, next => next tables
  | hash :: rest, tables, next =>
      .act (countBlock tables hash)
        (fun counted => .writing f (counted.getD tables) .looking) fun
      | some tables => lookupLoop f rest tables next
      | none =>
          .release .block_index_lock .read (.writing f tables .looking) <|
          .acquire .block_index_lock .write <|
          .act (fun s => lookupBlock (tables, s) hash)
            (fun tables => .writing f tables .looking) fun tables =>
          .release .block_index_lock .write (.writing f tables .looking) <|
          .acquire .block_index_lock .read <|
          lookupLoop f rest tables next

/-- The I/O loop from iteration `i` on. -/
def storeLoop (f : FileRef) (tables : WriteTables) :
    ℕ → List (BlockRef × Page) → List BlockRef → (ℤ → Program) → Program
  | _, [], _, next => next 0
  | i, entry :: rest, my_created_blocks, next =>
      .ask fun pwrite : PwriteOut =>
      .act (fun s =>
          let (err, my_created_blocks, s) := writeBlock f pwrite entry my_created_blocks s
          ((err, my_created_blocks), s))
        (fun _ => .writing f tables (.placed (i + 1))) fun (err, my_created_blocks) =>
      if err ≠ 0 then next err else storeLoop f tables (i + 1) rest my_created_blocks next

/-- From the label `write_cleanup` on. -/
def writeCleanup (f : FileRef) (offset : ℤ) (size : ℕ) (tables : WriteTables)
    (blocks_to_lock : List BlockRef) (err : ℤ) : Program :=
  .act (fun s => ((), growFile f err offset size s))
    (fun _ => .writing f tables (.stored err)) fun _ =>
  unlockBlocks .write (.writing f tables (.stored err)) blocks_to_lock <|
  .release (.file f) .write
    (if err ≠ 0 then .outside else .wrote f offset tables.newBlocksInfo) <|
  .ret (.status (if err ≠ 0 then err else int32 size))

/-- From the sorting of the blocks on. -/
def placeAndStore (f : FileRef) (buf : List UInt8) (offset : ℤ) (tables : WriteTables) :
    Program :=
  .act (fun s => (blocksToLock tables s, s)) (fun _ => .writing f tables .looking)
    fun blocks_to_lock =>
  lockBlocks .write blocks_to_lock <|
  .acquire .freeList_lock .write <|
  .acquire .offset_lock .write <|
  .act (fun s => ((), assignOffsets blocks_to_lock tables.my_created_blocks s))
    (fun _ => .writing f tables (.placed 0)) fun _ =>
  .release .offset_lock .write (.writing f tables (.placed 0)) <|
  .release .freeList_lock .write (.writing f tables (.placed 0)) <|
  .release .block_index_lock .read (.writing f tables (.placed 0)) <|
  .release .file_index_lock .read (.writing f tables (.placed 0)) <|
  .ask fun memalign : Bool =>
  if memalign = false then
    writeCleanup f offset buf.length tables blocks_to_lock (-ENOMEM)
  else
    storeLoop f tables 0 (tables.newBlocksInfo.zip (bufferPages buf)) tables.my_created_blocks <|
    writeCleanup f offset buf.length tables blocks_to_lock

section

variable (SHA512 : Page → BlockId)

/-- From `ticket_rwlock_write_lock(&file->lock)` on. -/
def writeFile (f : FileRef) (buf : List UInt8) (offset : ℤ) : Program :=
  .acquire (.file f) .write <|
  .act (readSize f)
    (fun logicalSize =>
      if offset ≠ logicalSize then .entered f logicalSize else .writing f .empty .looking)
    fun logicalSize =>
  if offset ≠ logicalSize then
    .release (.file f) .write .outside <|
    .release .file_index_lock .read .outside <|
    .ret (.status (-ENOTSUP))
  else
    .acquire .block_index_lock .read <|
    lookupLoop f (blockHashes SHA512 buf) .empty <|
    placeAndStore f buf offset

def xmp_write (path : Path) (buf : List UInt8) (offset : ℤ) : Program :=
  if buf.length % 4096 ≠ 0 then .ret (.status (-EINVAL))
  else
    .acquire .file_index_lock .read <|
    .act (lookupFile path) Frame.ofLookup fun
    | some f => writeFile SHA512 f buf offset
    | none =>
        .release .file_index_lock .read .outside <|
        .acquire .file_index_lock .write <|
        .act (findFile path) .window fun f =>
        .release .file_index_lock .write (.window f) <|
        .acquire .file_index_lock .read <|
        writeFile SHA512 f buf offset

end

/-! ## `xmp_unlink` -/

/-- The lookup of the entry and `g_hash_table_steal`. -/
def takeFile (path : Path) (s : Store) : Option FileRef × Store :=
  match s.fileIndex.lookup path with
  | some f => (some f, stealFile path s)
  | none => (none, s)

/-- The table `blockCounts`, in the order of the loop over it.  The `int` that counts it up
does not reach the end of a longer list. -/
def countReferences (f : FileRef) (order : IterOrder (BlockRef × ℤ))
    (strays : List (BlockRef × ℤ)) (s : Store) : List (BlockRef × ℤ) × Store :=
  (if 2 ^ 31 ≤ (s.files f).blockList.length then strays
    else releaseOrder order (s.files f).blockList, s)

/-- The loop over `blockCounts`. -/
def releaseLoop (f : FileRef) : List (BlockRef × ℤ) → Program → Program
  | [], next => next
  | (block, ocorrencias) :: rest, next =>
      .acquire (.block block) .write <|
      .act (fun s =>
          let s := lowerCounter block ocorrencias s
          (decide ((s.blocks block).counter = 0), s))
        (fun zero => .releasing f (if zero then some block else none) rest) fun
      | true =>
          .acquire .freeList_lock .write <|
          .act (fun s => ((), pushFree block s)) (fun _ => .releasing f none rest) fun _ =>
          .release .freeList_lock .write (.releasing f none rest) <|
          .release (.block block) .write (.releasing f none rest) <|
          .act (fun s => ((), freeBlockMeta block s)) (fun _ => .releasing f none rest) fun _ =>
          releaseLoop f rest next
      | false =>
          .release (.block block) .write (.releasing f none rest) <|
          releaseLoop f rest next

def xmp_unlink (path : Path) : Program :=
  if reserved path then .ret (.status (-EPERM))
  else
    .acquire .file_index_lock .write <|
    .act (takeFile path) (fun taken => (taken.map Frame.stolen).getD .outside) fun
    | none =>
        .release .file_index_lock .write .outside <|
        .ret (.status (-ENOENT))
    | some f =>
        .release .file_index_lock .write (.stolen f) <|
        .acquire (.file f) .write <|
        .ask fun unlink : UnlinkOut =>
        match unlink with
        | .fail errno =>
            .act (fun s => ((), s)) (fun _ => .failed f) fun _ =>
            .release (.file f) .write (.failed f) <|
            .acquire .file_index_lock .write <|
            .act (fun s => ((), reinsertFile path f s)) (fun _ => .restored f) fun _ =>
            .release .file_index_lock .write (.restored f) <|
            .ret (.status (-(errno : ℤ)))
        | _ =>
            .act (fun s => ((), s)) (fun _ => .removing f) fun _ =>
            .acquire .block_index_lock .write <|
            .ask fun order : IterOrder (BlockRef × ℤ) =>
            .ask fun strays : List (BlockRef × ℤ) =>
            .act (countReferences f order strays) (fun counts => .releasing f none counts)
              fun counts =>
            releaseLoop f counts <|
            .release .block_index_lock .write (.releasing f none []) <|
            .release (.file f) .write (.released f) <|
            .act (fun s => ((), freeFilemeta f s)) (fun _ => .removed f) fun _ =>
            .ret (.status 0)

/-! ## Calls -/

inductive Call
  | getattr (path : Path)
  | read (path : Path) (size : ℕ) (offset : ℤ)
  | write (path : Path) (buf : List UInt8) (offset : ℤ)
  | unlink (path : Path)

def program (SHA512 : Page → BlockId) : Call → Program
  | .getattr path => xmp_getattr path
  | .read path size offset => xmp_read path size offset
  | .write path buf offset => xmp_write SHA512 path buf offset
  | .unlink path => xmp_unlink path

abbrev State (T : Type) := Machine T Store Frame Lock Result

/-- One call on each thread, none of which has begun. -/
def start {T : Type} (SHA512 : Page → BlockId) (s : Store) (calls : T → Call) : State T :=
  Machine.start s .outside fun t => program SHA512 (calls t)

end Threads

end ProjetoTSO.Codededup
