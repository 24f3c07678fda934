import ProjetoTSO.Codededup.Loading

/-!
# Saving and loading a store

What `load_metadata` makes of the file `xmp_destroy` leaves: all of the store when
the whole file was written, and a part that is safe to go on with when the file
was cut short anywhere.
-/

namespace ProjetoTSO.Codededup

open CInt ByteStream

/-! ## The order a table is iterated in -/

section TableValues

variable {K V : Type} [DecidableEq K] {table : GHashTable K V}

theorem mem_tableValues (order : IterOrder V) {v : V} :
    v ∈ tableValues order table ↔ ∃ key, table.lookup key = some v := by
  rw [tableValues, (order.perm _).mem_iff, List.mem_map]
  constructor
  · rintro ⟨⟨key, w⟩, member, rfl⟩
    exact ⟨key, AList.mem_lookup_iff.mpr member⟩
  · rintro ⟨key, found⟩
    exact ⟨⟨key, v⟩, AList.mem_lookup_iff.mp found, rfl⟩

/-- Values that carry their key carry distinct keys. -/
theorem tableValues_nodup (order : IterOrder V) {name : V → K}
    (named : ∀ {key v}, table.lookup key = some v → name v = key) :
    ((tableValues order table).map name).Nodup := by
  have keys : (table.entries.map fun entry => entry.2).map name = table.keys := by
    rw [List.map_map]
    refine List.map_congr_left fun entry member => ?_
    exact named (AList.mem_lookup_iff.mpr member)
  rw [tableValues, ((order.perm _).map name).nodup_iff, keys]
  exact table.keys_nodup

end TableValues

section Enumeration

variable {s : Store} (blockOrder : IterOrder BlockRef) (fileOrder : IterOrder FileRef)

/-- The two orders a linked store is saved in list each of its objects once. -/
theorem enumerates (linked : s.Linked) (fits : s.Fits) :
    Enumerates s (tableValues blockOrder s.blockIndex) (tableValues fileOrder s.fileIndex) where
  blockFits b member := by
    obtain ⟨hash, found⟩ := (mem_tableValues blockOrder).mp member
    exact fits.block found
  fileFits f member := by
    obtain ⟨path, found⟩ := (mem_tableValues fileOrder).mp member
    exact fits.file found
  blockIds := tableValues_nodup blockOrder linked.blockId
  fileIds := tableValues_nodup fileOrder linked.fileId
  listed f member b listed := by
    obtain ⟨path, found⟩ := (mem_tableValues fileOrder).mp member
    exact (mem_tableValues blockOrder).mpr ⟨_, linked.listed found b listed⟩
  blockCount := by
    have := fits.blockIndex
    rw [length_tableValues]
    omega
  fileCount := by
    have := fits.fileIndex
    rw [length_tableValues]
    omega
  freeCount := by
    have := fits.freeList
    omega
  free := fits.free
  next_free_offset := fits.next_free_offset

/-- The file an unmount leaves is a prefix of the format, all of it when every
write succeeded. -/
theorem destroy_isPrefix (room : ℕ) :
    (xmp_destroy blockOrder fileOrder room s).2 <+:
      metadataBytes s (tableValues blockOrder s.blockIndex) (tableValues fileOrder s.fileIndex) :=
  (emits_save_metadata blockOrder fileOrder s).interrupted room

theorem destroy_complete {room : ℕ} (saved : (xmp_destroy blockOrder fileOrder room s).1 = true) :
    (xmp_destroy blockOrder fileOrder room s).2 =
      metadataBytes s (tableValues blockOrder s.blockIndex) (tableValues fileOrder s.fileIndex) :=
  (emits_save_metadata blockOrder fileOrder s).complete saved

/-- Every write succeeds as long as there is room. -/
theorem destroy_saved_iff {room : ℕ} :
    (xmp_destroy blockOrder fileOrder room s).1 = true ↔
      (metadataBytes s (tableValues blockOrder s.blockIndex)
        (tableValues fileOrder s.fileIndex)).length ≤ room := by
  show (save_metadata blockOrder fileOrder s ⟨[], room⟩).1 = true ↔ _
  rw [emits_save_metadata]
  simp only [put, decide_eq_true_eq]

end Enumeration

/-! ## A complete file -/

/-- Loading every object of a linked store copies the store. -/
theorem Loaded.copyBy {s t : Store} {blockOrder : IterOrder BlockRef}
    {fileOrder : IterOrder FileRef} (linked : s.Linked)
    (loaded : Loaded s (tableValues blockOrder s.blockIndex) (tableValues fileOrder s.fileIndex)
      s.freeList t) : Store.CopyBy (movedTo s t) s t where
  blockIndex := by
    constructor
    · intro hash b found
      have member := (mem_tableValues blockOrder).mpr ⟨hash, found⟩
      obtain ⟨b', image, -, same⟩ := loaded.blocks.forth b member
      have moved := movedTo_of_loaded loaded.blocks member
      rw [moved] at image
      cases image
      rw [linked.blockId found] at moved
      exact ⟨movedTo s t b, moved, rfl, same⟩
    · intro hash b' found
      obtain ⟨b, member, name⟩ := loaded.blocks.back found
      obtain ⟨key, inIndex⟩ := (mem_tableValues blockOrder).mp member
      obtain ⟨c, image, -, same⟩ := loaded.blocks.forth b member
      have keyed : key = hash := (linked.blockId inIndex).symm.trans name
      rw [name, found] at image
      cases image
      have moved := movedTo_of_loaded loaded.blocks member
      rw [name, found] at moved
      exact ⟨b, keyed ▸ inIndex, Option.some.inj moved, same⟩
  fileIndex := by
    constructor
    · intro path f found
      obtain ⟨f', image, -, same⟩ :=
        loaded.files.forth f ((mem_tableValues fileOrder).mpr ⟨path, found⟩)
      rw [linked.fileId found] at image
      exact ⟨f', image, same⟩
    · intro path f' found
      obtain ⟨f, member, name⟩ := loaded.files.back found
      obtain ⟨key, inIndex⟩ := (mem_tableValues fileOrder).mp member
      obtain ⟨g, image, -, same⟩ := loaded.files.forth f member
      have keyed : key = path := (linked.fileId inIndex).symm.trans name
      rw [name, found] at image
      cases image
      exact ⟨f, keyed ▸ inIndex, same⟩
  freeList := loaded.freeList
  next_free_offset := loaded.next_free_offset

/-- Remounting over a complete metadata file copies the store. -/
theorem copyBy_of_saved {s t : Store} {blockOrder : IterOrder BlockRef}
    {fileOrder : IterOrder FileRef} {room : ℕ} (linked : s.Linked) (fits : s.Fits)
    (tables : EmptyTables t) (saved : (xmp_destroy blockOrder fileOrder room s).1 = true) :
    ∃ moved, Store.CopyBy moved s
      (load_metadata (some (xmp_destroy blockOrder fileOrder room s).2) t) := by
  rw [destroy_complete blockOrder fileOrder saved]
  have loaded := load_metadataBytes (enumerates blockOrder fileOrder linked fits) tables
  exact ⟨_, loaded.copyBy linked⟩

/-- A store with one file that lists the same block twice, and a free offset. -/
def twiceListed : Store :=
  { Store.empty 3 fun _ => 0 with
    fileIndex := AList.singleton (CString.lit "/f") 0
    blockIndex := AList.singleton (List.Vector.replicate 64 7) 0
    freeList := [4096]
    next_free_offset := 8192
    files := fun _ => ⟨CString.lit "/f", 4096, 8192, [0, 0], true, false⟩
    blocks := fun _ => ⟨0, List.Vector.replicate 64 7, 4096, 2, true, false⟩
    nextFile := 1
    nextBlock := 1 }

theorem twiceListed_linked : twiceListed.Linked where
  blockId {hash b} found := by
    have member := AList.mem_lookup_iff.mp found
    simp only [twiceListed, AList.singleton_entries, List.mem_singleton] at member
    cases member
    rfl
  fileId {path f} found := by
    have member := AList.mem_lookup_iff.mp found
    simp only [twiceListed, AList.singleton_entries, List.mem_singleton] at member
    cases member
    rfl
  listed {path f} found b listed := by
    have zero : b = 0 := by simpa [twiceListed] using listed
    subst zero
    exact GHashTable.lookup_singleton _ _

theorem twiceListed_fits : twiceListed.Fits where
  fileIndex := by simp [twiceListed]
  blockIndex := by simp [twiceListed]
  freeList := by simp [twiceListed]
  next_free_offset := by simp [twiceListed, FitsOff]
  free off member := by
    have : off = 4096 := by simpa [twiceListed] using member
    subst this
    simp [FitsOff]
  block {hash b} _ := ⟨by simp [twiceListed], by simp [twiceListed, FitsOff], by simp [twiceListed]⟩
  file {path f} _ := ⟨by show (CString.lit "/f").bytes.length < 2 ^ 64; decide, by simp [twiceListed, FitsOff], by simp [twiceListed, FitsOff],
    by simp [twiceListed]⟩

theorem twiceListed_saved :
    (xmp_destroy (IterOrder.id _) (IterOrder.id _) 1000 twiceListed).1 = true := by
  have path : (twiceListed.files 0).id.bytes.length = 2 := by decide
  have listed : (twiceListed.files 0).blockList.length = 2 := rfl
  have size : (metadataBytes twiceListed [0] [0]).length = 290 := by
    simp only [metadataBytes, List.length_append, List.flatMap_singleton, length_blockBytes,
      length_fileBytes, path, listed, length_leBytes, offBytes]
    rfl
  rw [destroy_saved_iff]
  show (metadataBytes twiceListed [0] [0]).length ≤ 1000
  omega

/-- **Metadata round trip.**  When all of the metadata file was written, loading it
into empty tables yields the saved store: blocks, files, free list and tail are the
same, and two blocks of the saved store become one only if they were one. -/
theorem load_metadata_of_saved {s t : Store} {blockOrder : IterOrder BlockRef}
    {fileOrder : IterOrder FileRef} {room : ℕ} (linked : s.Linked) (fits : s.Fits)
    (tables : EmptyTables t) (saved : (xmp_destroy blockOrder fileOrder room s).1 = true) :
    ∃ moved, Store.CopyBy moved s
        (load_metadata (some (xmp_destroy blockOrder fileOrder room s).2) t) ∧
      ∀ hash hash' b b', s.blockIndex.lookup hash = some b →
        s.blockIndex.lookup hash' = some b' → moved b = moved b' → b = b' := by
  obtain ⟨moved, copy⟩ := copyBy_of_saved linked fits tables saved
  exact ⟨moved, copy, fun _ _ _ _ inIndex inIndex' same =>
    copy.moved_inj linked inIndex inIndex' same⟩

theorem load_metadata_of_saved_twiceListed :
    ∃ moved, Store.CopyBy moved twiceListed
        (load_metadata (some (xmp_destroy (IterOrder.id _) (IterOrder.id _) 1000 twiceListed).2)
          (Store.empty 3 fun _ => 0)) ∧
      ∀ hash hash' b b', twiceListed.blockIndex.lookup hash = some b →
        twiceListed.blockIndex.lookup hash' = some b' → moved b = moved b' → b = b' :=
  load_metadata_of_saved twiceListed_linked twiceListed_fits ⟨rfl, rfl, rfl⟩ twiceListed_saved

/-! ## A truncated file -/

/-- `t` holds some of the objects of `s`, and whatever file it holds is whole. -/
structure Store.PartBy (moved : BlockRef → BlockRef) (s t : Store) : Prop where
  block : ∀ {hash b'}, t.blockIndex.lookup hash = some b' → ∃ b,
    s.blockIndex.lookup hash = some b ∧ b' = moved b ∧ (s.blocks b).Same (t.blocks b')
  file : ∀ {path f'}, t.fileIndex.lookup path = some f' → ∃ f,
    s.fileIndex.lookup path = some f ∧ (s.files f).Same moved (t.files f')
  /-- A file is only there when every block is. -/
  allBlocks : ∀ {path f'}, t.fileIndex.lookup path = some f' →
    ∀ {hash b}, s.blockIndex.lookup hash = some b → t.blockIndex.lookup hash = some (moved b)
  freeList : t.freeList <+: s.freeList

namespace Store.PartBy

variable {moved : BlockRef → BlockRef} {s t : Store}

/-- The files of a part list blocks of the part. -/
theorem linked (part : Store.PartBy moved s t) (whole : s.Linked) : t.Linked where
  blockId {hash b'} found := by
    obtain ⟨b, inIndex, -, same⟩ := part.block found
    rw [same.id, whole.blockId inIndex]
  fileId {path f'} found := by
    obtain ⟨f, inIndex, same⟩ := part.file found
    rw [same.id, whole.fileId inIndex]
  listed {path f'} found b' member := by
    obtain ⟨f, inIndex, same⟩ := part.file found
    rw [same.blockList] at member
    obtain ⟨b, listed, rfl⟩ := List.mem_map.mp member
    have image := part.allBlocks found (whole.listed inIndex b listed)
    obtain ⟨c, inIndex', -, agree⟩ := part.block image
    rw [agree.id, whole.blockId inIndex']
    exact image

/-- No block of a part is listed more often than the block it came from. -/
theorem references_le (part : Store.PartBy moved s t) (whole : s.Linked) {hash : BlockId}
    {b b' : BlockRef} (inIndex : s.blockIndex.lookup hash = some b)
    (found : t.blockIndex.lookup hash = some b') : t.references b' ≤ s.references b := by
  refine Store.references_le fun path => ?_
  cases loaded : t.fileIndex.lookup path with
  | none => simp [Store.listAt_of_none loaded]
  | some f' =>
      obtain ⟨f, inTable, same⟩ := part.file loaded
      rw [Store.listAt_of_lookup loaded, Store.listAt_of_lookup inTable, same.blockList,
        List.count_eq_countP, List.count_eq_countP, List.countP_map]
      refine List.countP_mono_left fun c member isImage => ?_
      have listed := whole.listed inTable c member
      have image := part.allBlocks loaded listed
      have equal : moved c = b' := by simpa using isImage
      obtain ⟨d, inIndex', -, agree⟩ := part.block image
      obtain ⟨e, inIndex'', -, agree'⟩ := part.block found
      have name : (s.blocks c).id = hash := by
        rw [← whole.blockId inIndex', ← agree.id, equal, agree'.id, whole.blockId inIndex'']
      rw [name, inIndex] at listed
      simpa using (Option.some.inj listed).symm

end Store.PartBy

section Truncation

variable {s t : Store} {blockOrder : IterOrder BlockRef} {fileOrder : IterOrder FileRef}

/-- Whatever part of the metadata file is left, loading it yields a part of the
store. -/
theorem partBy_of_prefix (linked : s.Linked) (fits : s.Fits) (tables : EmptyTables t)
    {stream : Bytes} (isPrefix : stream <+: metadataBytes s (tableValues blockOrder s.blockIndex)
      (tableValues fileOrder s.fileIndex)) :
    ∃ moved, Store.PartBy moved s (load_metadata (some stream) t) ∧
      ∀ {hash b'}, (load_metadata (some stream) t).blockIndex.lookup hash = some b' →
        (load_metadata (some stream) t).next_free_offset = s.next_free_offset := by
  rcases load_of_prefix (enumerates blockOrder fileOrder linked fits) tables isPrefix with
    nothing | ⟨kb, kf, kn, noFiles, -, loaded⟩
  · rw [nothing]
    refine ⟨fun b => b, ⟨?_, ?_, ?_, ?_⟩, ?_⟩
    · intro hash b' found
      simp [tables.blockIndex] at found
    · intro path f' found
      simp [tables.fileIndex] at found
    · intro path f' found
      simp [tables.fileIndex] at found
    · rw [tables.freeList]
      exact List.nil_prefix
    · intro hash b' found
      simp [tables.blockIndex] at found
  generalize load_metadata (some stream) t = u at loaded ⊢
  refine ⟨movedTo s u, ⟨?_, ?_, ?_, ?_⟩, fun _ => loaded.next_free_offset⟩
  · intro hash b' found
    obtain ⟨b, member, name⟩ := loaded.blocks.back found
    obtain ⟨key, inIndex⟩ := (mem_tableValues blockOrder).mp (List.mem_of_mem_take member)
    obtain ⟨c, image, -, same⟩ := loaded.blocks.forth b member
    have keyed : key = hash := (linked.blockId inIndex).symm.trans name
    rw [name, found] at image
    cases image
    have moved := movedTo_of_loaded loaded.blocks member
    rw [name, found] at moved
    exact ⟨b, keyed ▸ inIndex, Option.some.inj moved, same⟩
  · intro path f' found
    obtain ⟨f, member, name⟩ := loaded.files.back found
    obtain ⟨key, inIndex⟩ := (mem_tableValues fileOrder).mp (List.mem_of_mem_take member)
    obtain ⟨g, image, -, same⟩ := loaded.files.forth f member
    have keyed : key = path := (linked.fileId inIndex).symm.trans name
    rw [name, found] at image
    cases image
    exact ⟨f, keyed ▸ inIndex, same⟩
  · intro path f' found hash b inIndex
    -- a loaded file means the files section was reached
    have someFile : kf ≠ 0 := by
      rintro rfl
      obtain ⟨f, member, -⟩ := loaded.files.back found
      simp at member
    have allBlocks : (tableValues blockOrder s.blockIndex).length ≤ kb := by
      by_contra short
      exact someFile (noFiles (by omega)).1
    have member : b ∈ (tableValues blockOrder s.blockIndex).take kb := by
      rw [List.take_of_length_le allBlocks]
      exact (mem_tableValues blockOrder).mpr ⟨hash, inIndex⟩
    have moved := movedTo_of_loaded loaded.blocks member
    rwa [linked.blockId inIndex] at moved
  · rw [loaded.freeList]
    exact List.take_prefix _ _

/-- **Truncated metadata is safe.**  From a store with exact counts and disjoint
live and free offsets below the tail, any prefix of the metadata file loads into a
store that holds a part of it, counts no block too low, and will not hand out the
offset of a loaded block. -/
theorem load_metadata_of_prefix (linked : s.Linked) (fits : s.Fits)
    (exact_ : ∀ {hash b}, s.blockIndex.lookup hash = some b →
      (s.blocks b).counter = s.references b)
    (distinct : (s.liveOffsets ++ s.freeList).Nodup)
    (below : ∀ off ∈ s.liveOffsets ++ s.freeList, off < s.next_free_offset)
    (tables : EmptyTables t) {room : ℕ} {stream : Bytes}
    (isPrefix : stream <+: (xmp_destroy blockOrder fileOrder room s).2) :
    ∃ moved, Store.PartBy moved s (load_metadata (some stream) t) ∧
      (load_metadata (some stream) t).Linked ∧
      ∀ {hash b'}, (load_metadata (some stream) t).blockIndex.lookup hash = some b' →
        ((load_metadata (some stream) t).references b' : ℤ) ≤
            ((load_metadata (some stream) t).blocks b').counter ∧
          ∀ off, off ∈ (load_metadata (some stream) t).freeList ∨
              (load_metadata (some stream) t).next_free_offset ≤ off →
            off ≠ ((load_metadata (some stream) t).blocks b').block_offset := by
  obtain ⟨moved, part, tail⟩ := partBy_of_prefix linked fits tables
    (isPrefix.trans (destroy_isPrefix blockOrder fileOrder room))
  refine ⟨moved, part, part.linked linked, ?_⟩
  intro hash b' found
  obtain ⟨b, inIndex, -, same⟩ := part.block found
  have live : (s.blocks b).block_offset ∈ s.liveOffsets :=
    List.mem_map.mpr ⟨⟨hash, b⟩, AList.mem_lookup_iff.mp inIndex, rfl⟩
  refine ⟨?_, ?_⟩
  · rw [same.counter, exact_ inIndex]
    exact_mod_cast part.references_le linked inIndex found
  · rintro off (free | beyond) rfl
    · rw [same.block_offset] at free
      exact (List.nodup_append.mp distinct).2.2 _ live _ (part.freeList.subset free) rfl
    · rw [same.block_offset, tail found] at beyond
      have := below _ (List.mem_append_left _ live)
      omega

end Truncation

theorem twiceListed_exact {hash : BlockId} {b : BlockRef}
    (found : twiceListed.blockIndex.lookup hash = some b) :
    (twiceListed.blocks b).counter = twiceListed.references b := by
  have member := AList.mem_lookup_iff.mp found
  simp only [twiceListed, AList.singleton_entries, List.mem_singleton] at member
  cases member
  decide

/-- The first 200 bytes hold the block, and not all of the file. -/
theorem load_metadata_of_prefix_twiceListed :
    let t := load_metadata
      (some ((xmp_destroy (IterOrder.id _) (IterOrder.id _) 1000 twiceListed).2.take 200))
      (Store.empty 3 fun _ => 0)
    ∃ moved, Store.PartBy moved twiceListed t ∧ t.Linked ∧
      ∀ {hash b'}, t.blockIndex.lookup hash = some b' →
        (t.references b' : ℤ) ≤ (t.blocks b').counter ∧
          ∀ off, off ∈ t.freeList ∨ t.next_free_offset ≤ off → off ≠ (t.blocks b').block_offset :=
  load_metadata_of_prefix twiceListed_linked twiceListed_fits twiceListed_exact
    (by decide) (by decide) ⟨rfl, rfl, rfl⟩ (List.take_prefix _ _)

end ProjetoTSO.Codededup
