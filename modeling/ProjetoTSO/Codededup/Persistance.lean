import ProjetoTSO.Codededup.Passthrough
import ProjetoTSO.Lib.ByteStream

/-!
# Saving and loading the metadata (`persistance.c`, `xmp_init`, `xmp_destroy`)

The metadata file is written at unmount and read at mount: the tail of the
backing file, the blocks, the files with the hashes of their blocks, and the free
list, each section preceded by its count.  Loading stores every record as soon as
it has been read and stops at the first read that fails.

The iteration order of the two hash tables is an argument of `save_metadata`.
-/

namespace ProjetoTSO.Codededup

open CInt ByteStream

/-! ## Writing -/

def write_uint64 (v : ℕ) : Writer := put (leBytes 8 v)

def write_int64 (v : ℤ) : Writer := put (leBytes 8 (uint64 v))

def write_bytes (buf : Bytes) : Writer := put buf

def write_string (s : CString) : Writer :=
  andThen (write_uint64 s.bytes.length) (write_bytes s.bytes)

def write_hash (h : BlockId) : Writer := write_bytes h.toList

def save_block_entry (s : Store) (b : BlockRef) : Writer :=
  let bm := s.blocks b
  andThen (write_hash bm.id) <|
  andThen (write_uint64 bm.size) <|
  andThen (write_int64 bm.block_offset) <|
  write_uint64 (uint64 bm.counter)

def save_file_entry (s : Store) (f : FileRef) : Writer :=
  let fm := s.files f
  andThen (write_string fm.id) <|
  andThen (write_int64 fm.realSize) <|
  andThen (write_int64 fm.logicalSize) <|
  andThen (write_uint64 fm.blockList.length) <|
  putEach (fun b => write_hash (s.blocks b).id) fm.blockList

/-- The values of a table in the order `g_hash_table_foreach` meets them. -/
def tableValues {K V : Type} (order : IterOrder V) (table : GHashTable K V) : List V :=
  order.arrange (table.entries.map fun entry => entry.2)

def save_metadata (blockOrder : IterOrder BlockRef) (fileOrder : IterOrder FileRef) (s : Store) :
    Writer :=
  andThen (write_int64 s.next_free_offset) <|
  andThen (write_uint64 s.blockIndex.entries.length) <|
  andThen (putEach (save_block_entry s) (tableValues blockOrder s.blockIndex)) <|
  andThen (write_uint64 s.fileIndex.entries.length) <|
  andThen (putEach (save_file_entry s) (tableValues fileOrder s.fileIndex)) <|
  andThen (write_uint64 s.freeList.length) <|
  putEach write_int64 s.freeList

/-! ## Reading -/

def read_uint64 : Reader ℕ := leValue <$> take 8

def read_int64 : Reader ℤ := (fun bytes => int64 (leValue bytes)) <$> take 8

/-- The buffer of `len + 1` zeroed bytes the string is read into holds a C string. -/
def read_string : Reader CString := do
  let len ← read_uint64
  let bytes ← take len
  pure (CString.ofBytes bytes)

def read_hash : Reader BlockId := fun stream =>
  if enough : 64 ≤ stream.length then
    some (⟨stream.take 64, by rw [List.length_take, Nat.min_eq_left enough]⟩, stream.drop 64)
  else none

/-- The fields of a block record. -/
structure BlockRecord where
  id : BlockId
  bsize : ℕ
  boffset : ℤ
  bcounter : ℕ

def read_block_record : Reader BlockRecord := do
  let id ← read_hash
  let bsize ← read_uint64
  let boffset ← read_int64
  let bcounter ← read_uint64
  pure ⟨id, bsize, boffset, bcounter⟩

/-- The fields of a file record, its hashes resolved. -/
structure FileRecord where
  id : Path
  realSize : ℤ
  logicalSize : ℤ
  blockList : List BlockRef

/-- The inner loop of a file record: each hash must name a loaded block. -/
def read_block_list (blockIndex : GHashTable BlockId BlockRef) : ℕ → Reader (List BlockRef)
  | 0 => pure []
  | n + 1 => do
      let block_id ← read_hash
      match blockIndex.lookup block_id with
      | none => fun _ => none
      | some bm => do
          let rest ← read_block_list blockIndex n
          pure (bm :: rest)

def read_file_record (blockIndex : GHashTable BlockId BlockRef) : Reader FileRecord := do
  let id ← read_string
  let realSize ← read_int64
  let logicalSize ← read_int64
  let nfile_blocks ← read_uint64
  let blockList ← read_block_list blockIndex nfile_blocks
  pure ⟨id, realSize, logicalSize, blockList⟩

/-- A complete block record becomes a block of the index; a block already there
under its hash is destroyed. -/
def insertLoadedBlock (s : Store) (r : BlockRecord) : Store :=
  let s := match s.blockIndex.lookup r.id with
    | some old => freeBlockMeta old s
    | none => s
  { s with
    blocks := Function.update s.blocks s.nextBlock
      { Blockmeta.zero with
        id := r.id, size := r.bsize, block_offset := r.boffset, counter := int32 r.bcounter }
    nextBlock := s.nextBlock + 1
    blockIndex := s.blockIndex.insert r.id s.nextBlock }

/-- A complete file record becomes a file of the index; a file already there under
its path is destroyed. -/
def insertLoadedFile (s : Store) (r : FileRecord) : Store :=
  let s := match s.fileIndex.lookup r.id with
    | some old => freeFilemeta old s
    | none => s
  { s with
    files := Function.update s.files s.nextFile
      ⟨r.id, r.realSize, r.logicalSize, r.blockList, true, false⟩
    nextFile := s.nextFile + 1
    fileIndex := s.fileIndex.insert r.id s.nextFile }

def insertLoadedFree (s : Store) (off : ℤ) : Store := { s with freeList := s.freeList ++ [off] }

/-- The free list section. -/
def load_free (stream : Bytes) (s : Store) : Store :=
  readSection read_uint64 (fun _ => read_int64) insertLoadedFree (fun _ s => s) stream s

/-- The files section and what follows it. -/
def load_files (stream : Bytes) (s : Store) : Store :=
  readSection read_uint64 (fun s => read_file_record s.blockIndex) insertLoadedFile load_free
    stream s

/-- The blocks section and what follows it. -/
def load_blocks (stream : Bytes) (s : Store) : Store :=
  readSection read_uint64 (fun _ => read_block_record) insertLoadedBlock load_files stream s

/-- `file` is `none` when the metadata file cannot be opened. -/
def load_metadata (file : Option Bytes) (s : Store) : Store :=
  match file with
  | none => s
  | some stream =>
      match read_int64 stream with
      | none => s
      | some (saved_offset, stream) => load_blocks stream { s with next_free_offset := saved_offset }

/-! ## Mounting and unmounting -/

/-- What `open` and `fstat` on `/backend/.sysdata` did.  When `open` fails,
`next_free_offset` keeps what `malloc` left there. -/
inductive OpenOut
  | fail (garbage : ℤ)
  | ok (fd : ℕ) (st_size : Option ℤ)

/-- The context before the metadata is loaded. -/
def initContext (sysdata : ByteDisk.Disk) : OpenOut → Store
  | .fail garbage => { Store.empty (-1) sysdata with next_free_offset := garbage }
  | .ok fd st_size => { Store.empty fd sysdata with next_free_offset := st_size.getD 0 }

/-- `metadata` is the contents of `/backend/.metadata`, if it can be opened. -/
def xmp_init (out : OpenOut) (metadata : Option Bytes) (sysdata : ByteDisk.Disk) : Store :=
  load_metadata metadata (initContext sysdata out)

/-- The metadata file an unmount leaves, and whether all of it was written. -/
def xmp_destroy (blockOrder : IterOrder BlockRef) (fileOrder : IterOrder FileRef) (room : ℕ)
    (s : Store) : Bool × Bytes :=
  let (complete, sink) := save_metadata blockOrder fileOrder s ⟨[], room⟩
  (complete, sink.written)

end ProjetoTSO.Codededup
