import ProjetoTSO.Codededup.RoundTrip
import ProjetoTSO.Codededup.Write

/-!
# What a remount preserves

A remount over a complete metadata file yields a copy of the store over the same
backing file.  Whatever the invariants of a session say about the store survives
the change of addresses.
-/

namespace ProjetoTSO.Codededup

open CInt ByteStream

/-! ## The mounted store -/

/-- A store freshly loaded: over which descriptor and backing file, and with
addresses that were handed out. -/
structure Mounted (backend_fd : ℤ) (sysdata : ByteDisk.Disk) (t : Store) : Prop where
  backend_fd : t.backend_fd = backend_fd
  sysdata : t.sysdata = sysdata
  blockFresh : ∀ {hash b}, t.blockIndex.lookup hash = some b → b < t.nextBlock
  fileFresh : ∀ {path f}, t.fileIndex.lookup path = some f → f < t.nextFile

section Mounted

variable {fd : ℤ} {sysdata : ByteDisk.Disk} {t : Store}

theorem Mounted.insertLoadedBlock (mounted : Mounted fd sysdata t) (r : BlockRecord) :
    Mounted fd sysdata (insertLoadedBlock t r) := by
  have outside := insertLoadedBlock_outside t r
  refine ⟨outside.backend_fd.trans mounted.backend_fd, outside.sysdata.trans mounted.sysdata,
    ?_, ?_⟩
  · intro hash b found
    have next : (Codededup.insertLoadedBlock t r).nextBlock = t.nextBlock + 1 := by
      unfold Codededup.insertLoadedBlock
      cases t.blockIndex.lookup r.id <;> rfl
    have index : (Codededup.insertLoadedBlock t r).blockIndex =
        t.blockIndex.insert r.id t.nextBlock := by
      unfold Codededup.insertLoadedBlock
      cases t.blockIndex.lookup r.id <;> rfl
    rw [index] at found
    rw [next]
    by_cases same : hash = r.id
    · rw [same, AList.lookup_insert] at found
      rw [← Option.some.inj found]
      exact Nat.lt_succ_self _
    · rw [AList.lookup_insert_ne same] at found
      exact Nat.lt_succ_of_lt (mounted.blockFresh found)
  · intro path f found
    rw [outside.fileIndex] at found
    rw [outside.nextFile]
    exact mounted.fileFresh found

theorem Mounted.insertLoadedFile (mounted : Mounted fd sysdata t) (r : FileRecord) :
    Mounted fd sysdata (insertLoadedFile t r) := by
  have outside := insertLoadedFile_outside t r
  refine ⟨outside.backend_fd.trans mounted.backend_fd, outside.sysdata.trans mounted.sysdata,
    ?_, ?_⟩
  · intro hash b found
    rw [outside.blockIndex] at found
    rw [outside.nextBlock]
    exact mounted.blockFresh found
  · intro path f found
    have next : (Codededup.insertLoadedFile t r).nextFile = t.nextFile + 1 := by
      unfold Codededup.insertLoadedFile
      cases t.fileIndex.lookup r.id <;> rfl
    have index : (Codededup.insertLoadedFile t r).fileIndex =
        t.fileIndex.insert r.id t.nextFile := by
      unfold Codededup.insertLoadedFile
      cases t.fileIndex.lookup r.id <;> rfl
    rw [index] at found
    rw [next]
    by_cases same : path = r.id
    · rw [same, AList.lookup_insert] at found
      rw [← Option.some.inj found]
      exact Nat.lt_succ_self _
    · rw [AList.lookup_insert_ne same] at found
      exact Nat.lt_succ_of_lt (mounted.fileFresh found)

/-- Whatever the metadata file holds, loading it leaves the descriptor and the
backing file alone. -/
theorem load_metadata_mounted (mounted : Mounted fd sysdata t) (file : Option Bytes) :
    Mounted fd sysdata (load_metadata file t) := by
  have free : ∀ stream u, Mounted fd sysdata u → Mounted fd sysdata (load_free stream u) :=
    fun stream u => readSection_invariant (Mounted fd sysdata)
      (fun _ before => ⟨before.backend_fd, before.sysdata, before.blockFresh, before.fileFresh⟩)
      fun _ _ before => before
  have files : ∀ stream u, Mounted fd sysdata u → Mounted fd sysdata (load_files stream u) :=
    fun stream u => readSection_invariant (Mounted fd sysdata)
      (fun r before => before.insertLoadedFile r) free
  have blocks : ∀ stream u, Mounted fd sysdata u → Mounted fd sysdata (load_blocks stream u) :=
    fun stream u => readSection_invariant (Mounted fd sysdata)
      (fun r before => before.insertLoadedBlock r) files
  cases file with
  | none => exact mounted
  | some stream =>
      rw [load_metadata]
      cases read_int64 stream with
      | none => exact mounted
      | some field =>
          exact blocks _ _ ⟨mounted.backend_fd, mounted.sysdata, mounted.blockFresh,
            mounted.fileFresh⟩

end Mounted

theorem initContext_tables (sysdata : ByteDisk.Disk) (out : OpenOut) :
    EmptyTables (initContext sysdata out) := by
  cases out <;> exact ⟨rfl, rfl, rfl⟩

/-- **A remount copies the store.** -/
theorem xmp_init_copyBy {s : Store} {blockOrder : IterOrder BlockRef}
    {fileOrder : IterOrder FileRef} {room : ℕ} (linked : s.Linked) (fits : s.Fits)
    (saved : (xmp_destroy blockOrder fileOrder room s).1 = true) (out : OpenOut)
    (sysdata : ByteDisk.Disk) :
    (∃ moved, Store.CopyBy moved s
      (xmp_init out (some (xmp_destroy blockOrder fileOrder room s).2) sysdata)) ∧
    Mounted (initContext sysdata out).backend_fd sysdata
      (xmp_init out (some (xmp_destroy blockOrder fileOrder room s).2) sysdata) := by
  have tables := initContext_tables sysdata out
  refine ⟨copyBy_of_saved linked fits tables saved, load_metadata_mounted ⟨rfl, ?_, ?_, ?_⟩ _⟩
  · cases out <;> rfl
  · intro hash b found
    simp [tables.blockIndex] at found
  · intro path f found
    simp [tables.fileIndex] at found

/-! ## What a copy shares with the original -/

namespace Store.CopyBy

variable {moved : BlockRef → BlockRef} {s t : Store}

theorem listAt (copy : CopyBy moved s t) (path : Path) :
    t.listAt path = (s.listAt path).map moved := by
  cases entry : s.fileIndex.lookup path with
  | none =>
      rw [Store.listAt_of_none entry,
        Store.listAt_of_none ((copy.fileIndex.none_iff path).mpr entry)]
      rfl
  | some f =>
      obtain ⟨f', image, same⟩ := copy.fileIndex.forth entry
      rw [Store.listAt_of_lookup entry, Store.listAt_of_lookup image, same.blockList]

theorem sizeAt (copy : CopyBy moved s t) (path : Path) : t.sizeAt path = s.sizeAt path := by
  unfold Store.sizeAt
  cases entry : s.fileIndex.lookup path with
  | none => rw [(copy.fileIndex.none_iff path).mpr entry]
  | some f =>
      obtain ⟨f', image, same⟩ := copy.fileIndex.forth entry
      simp only [image, same.logicalSize]

theorem counterOf (copy : CopyBy moved s t) (hash : BlockId) :
    t.counterOf hash = s.counterOf hash := by
  unfold Store.counterOf
  cases entry : s.blockIndex.lookup hash with
  | none => rw [(copy.blockIndex.none_iff hash).mpr entry]
  | some b =>
      obtain ⟨b', image, -, same⟩ := copy.blockIndex.forth entry
      simp only [image, same.counter]

theorem pageOf (copy : CopyBy moved s t) (sysdata : t.sysdata = s.sysdata) {hash : BlockId}
    {b : BlockRef} (found : s.blockIndex.lookup hash = some b) :
    t.pageOf (moved b) = s.pageOf b := by
  obtain ⟨b', image, rfl, same⟩ := copy.blockIndex.forth found
  exact Store.pageOf_congr sysdata same.block_offset

theorem contents (copy : CopyBy moved s t) (linked : s.Linked) (sysdata : t.sysdata = s.sysdata)
    (path : Path) : t.contents path = s.contents path := by
  unfold Store.contents
  rw [copy.listAt, List.flatMap_map]
  refine List.flatMap_congr fun b member => ?_
  obtain ⟨f, entry, listed⟩ := Store.mem_listAt.mp member
  rw [copy.pageOf sysdata (linked.listed entry b listed)]

/-- Blocks are shared in the copy exactly as they are in the original. -/
theorem references (copy : CopyBy moved s t) (linked : s.Linked) {hash : BlockId} {b : BlockRef}
    (found : s.blockIndex.lookup hash = some b) : t.references (moved b) = s.references b := by
  have counts : ∀ path, (t.listAt path).count (moved b) = (s.listAt path).count b := by
    intro path
    rw [copy.listAt, List.count_eq_countP, List.count_eq_countP, List.countP_map]
    refine List.countP_congr fun c member => ?_
    obtain ⟨f, entry, listed⟩ := Store.mem_listAt.mp member
    have inIndex := linked.listed entry c listed
    simp only [Function.comp_apply, beq_iff_eq]
    exact ⟨fun same => copy.moved_inj linked inIndex found same, fun same => by rw [same]⟩
  exact le_antisymm (Store.references_le fun path => (counts path).le)
    (Store.references_le fun path => (counts path).ge)

/-- The copy owns the same offsets. -/
theorem liveOffsets (copy : CopyBy moved s t) (linked : s.Linked) :
    s.liveOffsets.Perm t.liveOffsets := by
  have blocks : (s.liveBlocks.map moved).Perm t.liveBlocks := by
    refine (List.perm_ext_iff_of_nodup ?_ ?_).mpr fun b' => ?_
    · refine (Store.liveBlocks_nodup linked.blockId).map_on fun b member c member' same => ?_
      obtain ⟨hash, found⟩ := Store.mem_liveBlocks.mp member
      obtain ⟨hash', found'⟩ := Store.mem_liveBlocks.mp member'
      exact copy.moved_inj linked found found' same
    · exact Store.liveBlocks_nodup (copy.linked linked).blockId
    · rw [List.mem_map, Store.mem_liveBlocks]
      constructor
      · rintro ⟨b, member, rfl⟩
        obtain ⟨hash, found⟩ := Store.mem_liveBlocks.mp member
        obtain ⟨b', image, rfl, -⟩ := copy.blockIndex.forth found
        exact ⟨hash, image⟩
      · rintro ⟨hash, image⟩
        obtain ⟨b, found, rfl, -⟩ := copy.blockIndex.back image
        exact ⟨b, Store.mem_liveBlocks.mpr ⟨hash, found⟩, rfl⟩
  have offsets : s.liveOffsets =
      (s.liveBlocks.map moved).map fun b => (t.blocks b).block_offset := by
    rw [Store.liveOffsets, Store.liveBlocks, List.map_map, List.map_map]
    refine List.map_congr_left fun entry member => ?_
    obtain ⟨b', image, rfl, same⟩ := copy.blockIndex.forth (AList.mem_lookup_iff.mpr member)
    exact same.block_offset.symm
  have target : t.liveOffsets = t.liveBlocks.map fun b => (t.blocks b).block_offset := by
    rw [Store.liveOffsets, Store.liveBlocks, List.map_map]
    rfl
  rw [offsets, target]
  exact blocks.map _

/-- **The ledger survives a copy**, with the references of the copy. -/
theorem ledger (copy : CopyBy moved s t) (linked : s.Linked)
    (ledger : Ledger s.references ∅ [] s)
    (fresh : ∀ {hash b}, t.blockIndex.lookup hash = some b → b < t.nextBlock) :
    Ledger t.references ∅ [] t where
  blockId := (copy.linked linked).blockId
  fresh := fresh
  indexed {b'} some := by
    obtain ⟨path, member⟩ := Store.references_pos_iff.mp some
    obtain ⟨f, entry, listed⟩ := Store.mem_listAt.mp member
    exact (copy.linked linked).listed entry b' listed
  positive {hash b'} found := by
    obtain ⟨b, inIndex, -, same⟩ := copy.blockIndex.back found
    rw [same.counter]
    exact ledger.positive inIndex
  covered {hash b'} found := by
    obtain ⟨b, inIndex, rfl, same⟩ := copy.blockIndex.back found
    rw [same.counter, copy.references linked inIndex]
    exact ledger.covered inIndex
  counterFits {hash b'} found := by
    obtain ⟨b, inIndex, -, same⟩ := copy.blockIndex.back found
    rw [same.counter]
    exact ledger.counterFits inIndex
  waiting member := absurd member (Set.notMem_empty _)
  blockSize member := absurd member (Set.notMem_empty _)
  tiles := by
    have before := ledger.tiles
    rw [Store.placedOffsets_empty, List.append_nil] at before ⊢
    rw [copy.freeList, copy.next_free_offset]
    exact before.of_perm (copy.liveOffsets linked)

end Store.CopyBy

end ProjetoTSO.Codededup
