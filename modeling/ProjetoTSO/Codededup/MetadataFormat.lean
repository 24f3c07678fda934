import ProjetoTSO.Codededup.Persistance
import ProjetoTSO.Codededup.Shape

/-!
# The metadata file format

What `save_metadata` writes, as a byte string, and what the readers of
`load_metadata` make of each record.  Every field is specified by `Emits` on the
writing side and by `Reads` on the reading side; the records are put together
from their fields.
-/

namespace ProjetoTSO.Codededup

open CInt ByteStream

/-! ## What is written -/

/-- The bytes of a block record. -/
def blockBytes (s : Store) (b : BlockRef) : Bytes :=
  (s.blocks b).id.toList ++ (leBytes 8 (s.blocks b).size ++
    (leBytes 8 (uint64 (s.blocks b).block_offset) ++ leBytes 8 (uint64 (s.blocks b).counter)))

def stringBytes (str : CString) : Bytes := leBytes 8 str.bytes.length ++ str.bytes

/-- The bytes of a file record: path, sizes, and the hashes of its blocks. -/
def fileBytes (s : Store) (f : FileRef) : Bytes :=
  stringBytes (s.files f).id ++ (leBytes 8 (uint64 (s.files f).realSize) ++
    (leBytes 8 (uint64 (s.files f).logicalSize) ++
      (leBytes 8 (s.files f).blockList.length ++
        (s.files f).blockList.flatMap fun b => (s.blocks b).id.toList)))

def offBytes (off : ℤ) : Bytes := leBytes 8 (uint64 off)

/-- The metadata file of a store whose tables are met in the order of the lists
`blocks` and `files`. -/
def metadataBytes (s : Store) (blocks : List BlockRef) (files : List FileRef) : Bytes :=
  offBytes s.next_free_offset ++
    (leBytes 8 blocks.length ++ (blocks.flatMap (blockBytes s) ++
      (leBytes 8 files.length ++ (files.flatMap (fileBytes s) ++
        (leBytes 8 s.freeList.length ++ s.freeList.flatMap offBytes)))))

theorem length_blockBytes (s : Store) (b : BlockRef) : (blockBytes s b).length = 88 := by
  simp [blockBytes, length_leBytes]

theorem length_fileBytes (s : Store) (f : FileRef) :
    (fileBytes s f).length =
      32 + (s.files f).id.bytes.length + 64 * (s.files f).blockList.length := by
  have hashes : ((s.files f).blockList.flatMap fun b => (s.blocks b).id.toList).length =
      64 * (s.files f).blockList.length := by
    induction (s.files f).blockList with
    | nil => rfl
    | cons b blockList ih =>
        rw [List.flatMap_cons, List.length_append, ih, List.length_cons,
          List.Vector.toList_length]
        omega
  simp only [fileBytes, stringBytes, List.length_append, length_leBytes, hashes]
  omega

theorem emits_write_string (str : CString) : Emits (write_string str) (stringBytes str) :=
  (emits_put _).andThen (emits_put _)

theorem emits_save_block_entry (s : Store) (b : BlockRef) :
    Emits (save_block_entry s b) (blockBytes s b) :=
  (emits_put _).andThen ((emits_put _).andThen ((emits_put _).andThen (emits_put _)))

theorem emits_save_file_entry (s : Store) (f : FileRef) :
    Emits (save_file_entry s f) (fileBytes s f) :=
  (emits_write_string _).andThen ((emits_put _).andThen ((emits_put _).andThen
    ((emits_put _).andThen (emits_putEach (fun b => emits_put (s.blocks b).id.toList) _))))

theorem length_tableValues {K V : Type} (order : IterOrder V) (table : GHashTable K V) :
    (tableValues order table).length = table.entries.length := by
  rw [tableValues, (order.perm _).length_eq, List.length_map]

theorem emits_save_metadata (blockOrder : IterOrder BlockRef) (fileOrder : IterOrder FileRef)
    (s : Store) :
    Emits (save_metadata blockOrder fileOrder s)
      (metadataBytes s (tableValues blockOrder s.blockIndex)
        (tableValues fileOrder s.fileIndex)) := by
  have sizes : Emits (save_metadata blockOrder fileOrder s) (offBytes s.next_free_offset ++
      (leBytes 8 s.blockIndex.entries.length ++
        ((tableValues blockOrder s.blockIndex).flatMap (blockBytes s) ++
          (leBytes 8 s.fileIndex.entries.length ++
            ((tableValues fileOrder s.fileIndex).flatMap (fileBytes s) ++
              (leBytes 8 s.freeList.length ++ s.freeList.flatMap offBytes)))))) :=
    (emits_put _).andThen <| (emits_put _).andThen <|
      (emits_putEach (emits_save_block_entry s) _).andThen <| (emits_put _).andThen <|
      (emits_putEach (emits_save_file_entry s) _).andThen <| (emits_put _).andThen <|
      emits_putEach (fun off => emits_put (offBytes off)) _
  rw [metadataBytes, length_tableValues, length_tableValues]
  exact sizes

/-! ## What is read -/

/-- The last field of a record. -/
theorem reads_last {α β : Type} {reader : Reader α} {bytes : Bytes} {value : α} {f : α → β}
    (reads : Reads reader bytes value) : Reads (reader >>= fun a => pure (f a)) bytes (f value) := by
  have whole : Reads (reader >>= fun a => pure (f a)) (bytes ++ []) (f value) :=
    reads.bind (Reads.pure (f value))
  rwa [List.append_nil] at whole

theorem reads_uint64 {n : ℕ} (fits : n < 2 ^ 64) : Reads read_uint64 (leBytes 8 n) n := by
  have whole : Reads read_uint64 (leBytes 8 n) (leValue (leBytes 8 n)) :=
    (Reads.take (length_leBytes 8 n)).map
  rwa [leValue_leBytes (by norm_num; exact fits)] at whole

theorem reads_int64 {z : ℤ} (fits : FitsOff z) : Reads read_int64 (offBytes z) z := by
  have whole : Reads read_int64 (offBytes z) (int64 (leValue (offBytes z))) :=
    (Reads.take (length_leBytes 8 _)).map (f := fun bytes => int64 (leValue bytes))
  have word : leValue (offBytes z) = uint64 z :=
    leValue_leBytes (by norm_num; exact uint64_lt z)
  rwa [word, int64_uint64 fits.1 fits.2] at whole

theorem reads_hash (hash : BlockId) : Reads read_hash hash.toList hash where
  full rest := by
    have length : hash.toList.length = 64 := hash.2
    have enough : 64 ≤ (hash.toList ++ rest).length := by simp [length]
    simp only [read_hash, dif_pos enough]
    congr 2
    · apply Subtype.ext
      exact List.take_left' length
    · exact List.drop_left' length
  cut stream isPrefix proper := by
    have length : hash.toList.length = 64 := hash.2
    have bound := isPrefix.length_le
    have differ : stream.length ≠ hash.toList.length := fun same =>
      proper (isPrefix.eq_of_length same)
    simp only [read_hash, dif_neg (show ¬ 64 ≤ stream.length by omega)]

theorem reads_string {str : CString} (fits : str.bytes.length < 2 ^ 64) :
    Reads read_string (stringBytes str) str := by
  have whole : Reads read_string (stringBytes str) (CString.ofBytes str.bytes) :=
    (reads_uint64 fits).bind (reads_last (Reads.take rfl))
  rwa [CString.ofBytes_bytes] at whole

/-- The record `load_metadata` reads back for a block. -/
def blockRecord (s : Store) (b : BlockRef) : BlockRecord :=
  ⟨(s.blocks b).id, (s.blocks b).size, (s.blocks b).block_offset, uint64 (s.blocks b).counter⟩

theorem reads_block_record {s : Store} {b : BlockRef} (fits : (s.blocks b).Fits) :
    Reads read_block_record (blockBytes s b) (blockRecord s b) :=
  (reads_hash _).bind <| (reads_uint64 fits.size).bind <|
    (reads_int64 fits.block_offset).bind <| reads_last (reads_uint64 (uint64_lt _))

/-- Where loading has put the blocks of `s`. -/
def movedTo (s t : Store) (b : BlockRef) : BlockRef :=
  (t.blockIndex.lookup (s.blocks b).id).getD 0

theorem reads_block_list {s : Store} {blockIndex : GHashTable BlockId BlockRef}
    {moved : BlockRef → BlockRef} {blockList : List BlockRef}
    (present : ∀ b ∈ blockList, blockIndex.lookup (s.blocks b).id = some (moved b)) :
    Reads (read_block_list blockIndex blockList.length)
      (blockList.flatMap fun b => (s.blocks b).id.toList) (blockList.map moved) := by
  induction blockList with
  | nil => exact Reads.pure []
  | cons b blockList ih =>
      rw [List.flatMap_cons, List.length_cons, List.map_cons]
      refine (reads_hash (s.blocks b).id).bind ?_
      rw [present b (by simp)]
      exact reads_last (ih fun c member => present c (by simp [member]))

/-- The record `load_metadata` reads back for a file. -/
def fileRecord (s : Store) (moved : BlockRef → BlockRef) (f : FileRef) : FileRecord :=
  ⟨(s.files f).id, (s.files f).realSize, (s.files f).logicalSize,
    (s.files f).blockList.map moved⟩

theorem reads_file_record {s : Store} {blockIndex : GHashTable BlockId BlockRef}
    {moved : BlockRef → BlockRef} {f : FileRef} (fits : (s.files f).Fits)
    (present : ∀ b ∈ (s.files f).blockList,
      blockIndex.lookup (s.blocks b).id = some (moved b)) :
    Reads (read_file_record blockIndex) (fileBytes s f) (fileRecord s moved f) := by
  have count : (s.files f).blockList.length < 2 ^ 64 := by
    have := fits.blockList
    omega
  exact (reads_string fits.id).bind <| (reads_int64 fits.realSize).bind <|
    (reads_int64 fits.logicalSize).bind <| (reads_uint64 count).bind <|
    reads_last (reads_block_list present)

end ProjetoTSO.Codededup
