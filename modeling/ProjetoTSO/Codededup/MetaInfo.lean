import Mathlib.Data.Vector.Basic
import Mathlib.Data.List.AList
import Mathlib.Data.List.Sort
import Mathlib.Data.List.TakeWhile
import Mathlib.Logic.Function.Basic
import ProjetoTSO.Lib.CInt
import ProjetoTSO.Lib.ByteDisk

/-!
# File and block metadata (`metaInfo.h`, `Context`)

A deduplicated file is a list of pointers to blocks; a block is found under the
SHA-512 of its contents.  Pointers are modelled as such: `FileRef` and `BlockRef`
are addresses into the two heaps of a `Store`, so that two lists can share a
block, and the block a list points to may or may not be the one the index holds
under the same hash.  Addresses are handed out in increasing order and never
reused.

## Design notes

* `GHashTable` is Mathlib's `AList`: a list of key/value pairs without repeated
  keys.  The order of its entries stands for nothing; code that iterates over a
  table takes the iteration order as an argument.
* `freed` records that an object went through its `free` function.  The cell
  keeps its contents, so that an access after the free is visible as an access
  to a freed cell.
* Locks do nothing when one handler runs at a time.  An object only remembers
  whether `ticket_rwlock_init` was executed on its lock.
-/

namespace ProjetoTSO.Codededup

/-- The granularity of deduplication. -/
abbrev Page := List.Vector UInt8 4096

/-- A SHA-512 digest. -/
abbrev BlockId := List.Vector UInt8 64

/-- A C string: the bytes before the terminating NUL. -/
@[ext]
structure CString where
  bytes : List UInt8
  nulFree : (0 : UInt8) ∉ bytes
deriving DecidableEq

namespace CString

/-- The C string in a buffer: what precedes its first NUL. -/
def ofBytes (buffer : List UInt8) : CString where
  bytes := buffer.takeWhile (· ≠ 0)
  nulFree member := by simpa using List.mem_takeWhile_imp member

/-- An ASCII literal. -/
def lit (s : String) : CString := ofBytes (s.toList.map fun c => UInt8.ofNat c.toNat)

@[simp] theorem ofBytes_bytes (s : CString) : ofBytes s.bytes = s := by
  obtain ⟨bytes, nulFree⟩ := s
  have whole : bytes.takeWhile (· ≠ 0) = bytes :=
    List.takeWhile_eq_self_iff.mpr fun b member => by
      have : b ≠ 0 := fun zero => nulFree (zero ▸ member)
      simpa using this
  simp only [ofBytes]
  congr 1

end CString

abbrev Path := CString
abbrev FileRef := ℕ
abbrev BlockRef := ℕ

/-- `filemeta`. -/
structure Filemeta where
  id : Path
  realSize : ℤ
  logicalSize : ℤ
  blockList : List BlockRef
  lockReady : Bool
  freed : Bool

/-- `blockmeta`. -/
structure Blockmeta where
  block_offset : ℤ
  id : BlockId
  size : ℕ
  counter : ℤ
  lockReady : Bool
  freed : Bool

abbrev GHashTable (K V : Type) := AList fun _ : K => V

theorem GHashTable.lookup_singleton {K V : Type} [DecidableEq K] (key : K) (v : V) :
    (AList.singleton key v : GHashTable K V).lookup key = some v :=
  List.dlookup_cons_eq _ _ _

/-- The `Context` of a mounted file system, the objects its pointers lead to, and
the contents of `/backend/.sysdata`. -/
structure Store where
  fileIndex : GHashTable Path FileRef
  blockIndex : GHashTable BlockId BlockRef
  freeList : List ℤ
  backend_fd : ℤ
  next_free_offset : ℤ
  files : FileRef → Filemeta
  blocks : BlockRef → Blockmeta
  nextFile : FileRef
  nextBlock : BlockRef
  sysdata : ByteDisk.Disk

/-- Zeroed memory. -/
def Filemeta.zero : Filemeta := ⟨CString.ofBytes [], 0, 0, [], false, false⟩

/-- Zeroed memory. -/
def Blockmeta.zero : Blockmeta := ⟨0, List.Vector.replicate 64 0, 0, 0, false, false⟩

namespace Store

/-- A file system mounted over an empty backing file, before its first
operation. -/
def empty (backend_fd : ℤ) (sysdata : ByteDisk.Disk) : Store where
  fileIndex := ∅
  blockIndex := ∅
  freeList := []
  backend_fd := backend_fd
  next_free_offset := 0
  files := fun _ => Filemeta.zero
  blocks := fun _ => Blockmeta.zero
  nextFile := 0
  nextBlock := 0
  sysdata := sysdata

/-- Assignment through a file pointer. -/
def setFile (s : Store) (f : FileRef) (file : Filemeta) : Store :=
  { s with files := Function.update s.files f file }

/-- Assignment through a block pointer. -/
def setBlock (s : Store) (b : BlockRef) (block : Blockmeta) : Store :=
  { s with blocks := Function.update s.blocks b block }

/-- The 4096 bytes of the backing file a block points to. -/
def pageOf (s : Store) (b : BlockRef) : Page :=
  ⟨ByteDisk.read s.sysdata (s.blocks b).block_offset 4096, ByteDisk.length_read _ _ _⟩

theorem pageOf_toList (s : Store) (b : BlockRef) :
    (s.pageOf b).toList = ByteDisk.read s.sysdata (s.blocks b).block_offset 4096 := by
  rw [pageOf, List.Vector.toList_mk]

/-- A page is determined by the backing file and the offset of its block. -/
theorem pageOf_congr {s t : Store} {b c : BlockRef} (sysdata : t.sysdata = s.sysdata)
    (offset : (t.blocks c).block_offset = (s.blocks b).block_offset) :
    t.pageOf c = s.pageOf b := by
  apply List.Vector.eq
  rw [pageOf_toList, pageOf_toList, sysdata, offset]

@[simp] theorem setFile_files_self (s : Store) (f : FileRef) (file : Filemeta) :
    (s.setFile f file).files f = file := by simp [setFile]

theorem setFile_files_ne (s : Store) {f f' : FileRef} (file : Filemeta) (differ : f' ≠ f) :
    (s.setFile f file).files f' = s.files f' := by simp [setFile, differ]

@[simp] theorem setFile_fileIndex (s : Store) (f : FileRef) (file : Filemeta) :
    (s.setFile f file).fileIndex = s.fileIndex := rfl

@[simp] theorem setFile_blockIndex (s : Store) (f : FileRef) (file : Filemeta) :
    (s.setFile f file).blockIndex = s.blockIndex := rfl

@[simp] theorem setFile_freeList (s : Store) (f : FileRef) (file : Filemeta) :
    (s.setFile f file).freeList = s.freeList := rfl

@[simp] theorem setFile_backend_fd (s : Store) (f : FileRef) (file : Filemeta) :
    (s.setFile f file).backend_fd = s.backend_fd := rfl

@[simp] theorem setFile_next_free_offset (s : Store) (f : FileRef) (file : Filemeta) :
    (s.setFile f file).next_free_offset = s.next_free_offset := rfl

@[simp] theorem setFile_blocks (s : Store) (f : FileRef) (file : Filemeta) :
    (s.setFile f file).blocks = s.blocks := rfl

@[simp] theorem setFile_nextFile (s : Store) (f : FileRef) (file : Filemeta) :
    (s.setFile f file).nextFile = s.nextFile := rfl

@[simp] theorem setFile_nextBlock (s : Store) (f : FileRef) (file : Filemeta) :
    (s.setFile f file).nextBlock = s.nextBlock := rfl

@[simp] theorem setFile_sysdata (s : Store) (f : FileRef) (file : Filemeta) :
    (s.setFile f file).sysdata = s.sysdata := rfl

@[simp] theorem setBlock_blocks_self (s : Store) (b : BlockRef) (block : Blockmeta) :
    (s.setBlock b block).blocks b = block := by simp [setBlock]

theorem setBlock_blocks_ne (s : Store) {b b' : BlockRef} (block : Blockmeta) (differ : b' ≠ b) :
    (s.setBlock b block).blocks b' = s.blocks b' := by simp [setBlock, differ]

@[simp] theorem setBlock_fileIndex (s : Store) (b : BlockRef) (block : Blockmeta) :
    (s.setBlock b block).fileIndex = s.fileIndex := rfl

@[simp] theorem setBlock_blockIndex (s : Store) (b : BlockRef) (block : Blockmeta) :
    (s.setBlock b block).blockIndex = s.blockIndex := rfl

@[simp] theorem setBlock_freeList (s : Store) (b : BlockRef) (block : Blockmeta) :
    (s.setBlock b block).freeList = s.freeList := rfl

@[simp] theorem setBlock_backend_fd (s : Store) (b : BlockRef) (block : Blockmeta) :
    (s.setBlock b block).backend_fd = s.backend_fd := rfl

@[simp] theorem setBlock_next_free_offset (s : Store) (b : BlockRef) (block : Blockmeta) :
    (s.setBlock b block).next_free_offset = s.next_free_offset := rfl

@[simp] theorem setBlock_files (s : Store) (b : BlockRef) (block : Blockmeta) :
    (s.setBlock b block).files = s.files := rfl

@[simp] theorem setBlock_nextFile (s : Store) (b : BlockRef) (block : Blockmeta) :
    (s.setBlock b block).nextFile = s.nextFile := rfl

@[simp] theorem setBlock_nextBlock (s : Store) (b : BlockRef) (block : Blockmeta) :
    (s.setBlock b block).nextBlock = s.nextBlock := rfl

@[simp] theorem setBlock_sysdata (s : Store) (b : BlockRef) (block : Blockmeta) :
    (s.setBlock b block).sysdata = s.sysdata := rfl

end Store

/-- `freeFilemeta`. -/
def freeFilemeta (f : FileRef) (s : Store) : Store :=
  s.setFile f { s.files f with freed := true }

/-- `freeBlockMeta`. -/
def freeBlockMeta (b : BlockRef) (s : Store) : Store :=
  s.setBlock b { s.blocks b with freed := true }

end ProjetoTSO.Codededup
