import ProjetoTSO.Codededup.Write

/-!
# `xmp_unlink`, phase by phase

The file is taken out of the index before the placeholder is unlinked, and put
back if that fails.  Otherwise the references of its block list are dropped,
aggregated by block, and the blocks left without any are released.
-/

namespace ProjetoTSO.Codededup

open CInt

/-! ## Stealing and reinserting the file -/

section Steal

variable {s : Store} {path : Path} {f : FileRef}

theorem stealFile_lookup {other : Path} {g : FileRef} :
    (stealFile path s).fileIndex.lookup other = some g ↔
      other ≠ path ∧ s.fileIndex.lookup other = some g := by
  show (s.fileIndex.erase path).lookup other = some g ↔ _
  by_cases same : other = path
  · subst same
    simp [AList.lookup_erase]
  · rw [AList.lookup_erase_ne same]
    simp [same]

theorem stealFile_listAt (path other : Path) :
    (stealFile path s).listAt other = if other = path then [] else s.listAt other := by
  by_cases same : other = path
  · subst same
    rw [if_pos rfl]
    exact Store.listAt_of_none (AList.lookup_erase _ _)
  · rw [if_neg same]
    have index : (stealFile path s).fileIndex.lookup other = s.fileIndex.lookup other :=
      AList.lookup_erase_ne same
    unfold Store.listAt
    rw [index]
    rfl

/-- The references of the stolen file are in flight. -/
theorem stealFile_references (path : Path) (c : BlockRef) :
    (stealFile path s).references c + (s.listAt path).count c = s.references c := by
  have change := Store.references_change (s := s) (t := stealFile path s) path
    (fun other differ => by rw [stealFile_listAt, if_neg differ]) c
  rw [stealFile_listAt, if_pos rfl] at change
  simpa using change

theorem stealFile_filed (filed : s.Filed) (path : Path) : (stealFile path s).Filed where
  fileId found := filed.fileId (stealFile_lookup.mp found).2
  fresh found := filed.fresh (stealFile_lookup.mp found).2

/-- Putting the file back where it was undoes the theft. -/
theorem reinsertFile_stealFile_lookup (found : s.fileIndex.lookup path = some f) (other : Path) :
    (reinsertFile path f (stealFile path s)).fileIndex.lookup other =
      s.fileIndex.lookup other := by
  have absent : (stealFile path s).fileIndex.lookup path = none := AList.lookup_erase _ _
  unfold reinsertFile
  rw [absent]
  by_cases same : other = path
  · subst same
    rw [found]
    exact AList.lookup_insert _
  · show ((s.fileIndex.erase path).insert path f).lookup other = _
    rw [AList.lookup_insert_ne same, AList.lookup_erase_ne same]

/-- Only the order of the entries of the file index may have changed. -/
theorem reinsertFile_stealFile_rest (s : Store) (path : Path) (f : FileRef) :
    ∃ table, reinsertFile path f (stealFile path s) = { s with fileIndex := table } := by
  have absent : (stealFile path s).fileIndex.lookup path = none := AList.lookup_erase _ _
  refine ⟨(reinsertFile path f (stealFile path s)).fileIndex, ?_⟩
  unfold reinsertFile
  rw [absent]
  rfl

end Steal

/-! ## Counting the references of the file -/

/-- The table holds every block of the list with its number of occurrences. -/
theorem blockCounts_lookup (blockList : List BlockRef) (b : BlockRef) :
    (blockCounts blockList).lookup b =
      if b ∈ blockList then some (blockList.count b : ℤ) else none := by
  unfold blockCounts
  induction blockList using List.reverseRecOn with
  | nil => simp
  | append_singleton blockList last ih =>
      rw [List.foldl_append, List.foldl_cons, List.foldl_nil]
      by_cases same : b = last
      · subst same
        rw [AList.lookup_insert, ih]
        by_cases member : b ∈ blockList
        · simp [member]
        · simp [member, List.count_eq_zero_of_not_mem member]
      · rw [AList.lookup_insert_ne same, ih, List.count_append, List.count_singleton]
        by_cases member : b ∈ blockList
        · simp [member, Ne.symm same]
        · simp [member, same]

/-- What the release loop relies on, whatever the iteration order: each block of
the list once, with its number of occurrences. -/
structure Tallies (blockList : List BlockRef) (entries : List (BlockRef × ℤ)) : Prop where
  nodup : (entries.map Prod.fst).Nodup
  mem : ∀ b, b ∈ entries.map Prod.fst ↔ b ∈ blockList
  count : ∀ entry ∈ entries, entry.2 = (blockList.count entry.1 : ℤ)

theorem releaseOrder_tallies (order : IterOrder (BlockRef × ℤ)) (blockList : List BlockRef) :
    Tallies blockList (releaseOrder order blockList) := by
  have perm := order.perm ((blockCounts blockList).entries.map fun entry => (entry.1, entry.2))
  have keys : ((blockCounts blockList).entries.map fun entry => (entry.1, entry.2)).map Prod.fst =
      (blockCounts blockList).keys := by
    rw [List.map_map]
    rfl
  constructor
  · rw [releaseOrder, (perm.map _).nodup_iff, keys]
    exact (blockCounts blockList).keys_nodup
  · intro b
    rw [releaseOrder, (perm.map _).mem_iff, keys, ← AList.mem_keys, ← AList.lookup_isSome,
      blockCounts_lookup]
    by_cases member : b ∈ blockList <;> simp [member]
  · intro entry member
    rw [releaseOrder, perm.mem_iff, List.mem_map] at member
    obtain ⟨⟨b, k⟩, inTable, rfl⟩ := member
    have held := AList.mem_lookup_iff.mpr inTable
    rw [Option.mem_def, blockCounts_lookup] at held
    by_cases member : b ∈ blockList
    · rw [if_pos member] at held
      exact (Option.some.inj held).symm
    · rw [if_neg member] at held
      cases held

/-! ## Releasing the blocks -/

/-- `t` differs from `s` in the counters and the `freed` marks of blocks, in the
free list, and in the block index by the entries that were removed. -/
structure Released (s t : Store) : Prop where
  fileIndex : t.fileIndex = s.fileIndex
  files : t.files = s.files
  nextFile : t.nextFile = s.nextFile
  nextBlock : t.nextBlock = s.nextBlock
  backend_fd : t.backend_fd = s.backend_fd
  sysdata : t.sysdata = s.sysdata
  id : ∀ c, (t.blocks c).id = (s.blocks c).id
  block_offset : ∀ c, (t.blocks c).block_offset = (s.blocks c).block_offset
  lookup : ∀ {hash c}, t.blockIndex.lookup hash = some c → s.blockIndex.lookup hash = some c

theorem Released.refl (s : Store) : Released s s :=
  ⟨rfl, rfl, rfl, rfl, rfl, rfl, fun _ => rfl, fun _ => rfl, fun found => found⟩

theorem Released.trans {s t u : Store} (first : Released s t) (second : Released t u) :
    Released s u :=
  ⟨second.fileIndex.trans first.fileIndex, second.files.trans first.files,
    second.nextFile.trans first.nextFile, second.nextBlock.trans first.nextBlock,
    second.backend_fd.trans first.backend_fd, second.sysdata.trans first.sysdata,
    fun c => (second.id c).trans (first.id c),
    fun c => (second.block_offset c).trans (first.block_offset c),
    fun found => first.lookup (second.lookup found)⟩

theorem lowerCounter_released (b : BlockRef) (k : ℤ) (s : Store) :
    Released s (lowerCounter b k s) := by
  have fields : ∀ c, ((lowerCounter b k s).blocks c).id = (s.blocks c).id ∧
      ((lowerCounter b k s).blocks c).block_offset = (s.blocks c).block_offset := by
    intro c
    rw [Ledger.lowerCounter_blocks]
    by_cases same : c = b
    · subst same
      rw [Function.update_self]
      exact ⟨rfl, rfl⟩
    · rw [Function.update_of_ne same]
      exact ⟨rfl, rfl⟩
  have removed : ∀ {hash c}, (lowerCounter b k s).blockIndex.lookup hash = some c →
      s.blockIndex.lookup hash = some c := by
    intro hash c found
    rw [Ledger.lowerCounter_eq] at found
    by_cases zero : int32 ((s.blocks b).counter - k) = 0
    · simp only [zero, if_true] at found
      by_cases same : hash = (s.blocks b).id
      · rw [same, AList.lookup_erase] at found
        cases found
      · rwa [AList.lookup_erase_ne same] at found
    · simpa only [zero, if_false] using found
  refine ⟨?_, ?_, ?_, ?_, ?_, ?_, fun c => (fields c).1, fun c => (fields c).2, removed⟩
  all_goals rw [Ledger.lowerCounter_eq]

theorem freeBlockMeta_released (b : BlockRef) (s : Store) : Released s (freeBlockMeta b s) := by
  have fields : ∀ c, ((freeBlockMeta b s).blocks c).id = (s.blocks c).id ∧
      ((freeBlockMeta b s).blocks c).block_offset = (s.blocks c).block_offset := by
    intro c
    by_cases same : c = b
    · subst same
      rw [freeBlockMeta, Store.setBlock_blocks_self]
      exact ⟨rfl, rfl⟩
    · rw [freeBlockMeta, Store.setBlock_blocks_ne s _ same]
      exact ⟨rfl, rfl⟩
  exact ⟨rfl, rfl, rfl, rfl, rfl, rfl, fun c => (fields c).1, fun c => (fields c).2, fun found => found⟩

theorem releaseBlock_released (s : Store) (entry : BlockRef × ℤ) :
    Released s (releaseBlock s entry) := by
  have lowered := lowerCounter_released entry.1 entry.2 s
  have pushed : ∀ t, Released t (pushFree entry.1 t) := fun t =>
    ⟨rfl, rfl, rfl, rfl, rfl, rfl, fun _ => rfl, fun _ => rfl, fun found => found⟩
  unfold releaseBlock
  simp only
  split
  · exact (lowered.trans (pushed _)).trans (freeBlockMeta_released _ _)
  · exact lowered

theorem foldl_releaseBlock_released (entries : List (BlockRef × ℤ)) (s : Store) :
    Released s (entries.foldl releaseBlock s) := by
  induction entries generalizing s with
  | nil => exact .refl s
  | cons entry entries ih => exact (releaseBlock_released s entry).trans (ih _)

/-- One iteration of the release loop drops the references of one block. -/
theorem releaseBlock_ledger {refs refs' : BlockRef → ℕ} {unplaced : Set BlockRef} {s : Store}
    {b : BlockRef} {k : ℕ} (ledger : Ledger refs unplaced [] s)
    (found : s.blockIndex.lookup (s.blocks b).id = some b) (placed : b ∉ unplaced)
    (fewer : ∀ c, refs' c + (if c = b then k else 0) ≤ refs c) :
    Ledger refs' unplaced [] (releaseBlock s (b, k)) := by
  have lowered := ledger.lowerCounter found placed fewer
  have offset : ((lowerCounter b k s).blocks b).block_offset = (s.blocks b).block_offset :=
    (lowerCounter_released b k s).block_offset b
  unfold releaseBlock
  simp only
  by_cases zero : ((lowerCounter b k s).blocks b).counter = 0
  · rw [if_pos zero, ← offset] at lowered
    rw [if_pos zero]
    exact lowered.pushFree.freeBlockMeta
  · rw [if_neg zero] at lowered
    rwa [if_neg zero]

/-- **The release loop.**  A property of a store and the references held to its
blocks that each iteration preserves, dropping the references of one block, holds
once the references of the whole list are dropped. -/
theorem Tallies.foldl_releaseBlock {blockList : List BlockRef} {entries : List (BlockRef × ℤ)}
    (tallies : Tallies blockList entries) (holds : (BlockRef → ℕ) → Store → Prop)
    (release : ∀ {refs refs' : BlockRef → ℕ} {t : Store} {b : BlockRef} {k : ℕ}, 0 < k →
      (∀ c, refs' c + (if c = b then k else 0) = refs c) → holds refs t →
        holds refs' (releaseBlock t (b, k)))
    {refs : BlockRef → ℕ} {s : Store} (start : holds (fun c => refs c + blockList.count c) s) :
    holds refs (entries.foldl releaseBlock s) := by
  -- the references still held are those of the entries to come
  have loop : ∀ (rest : List (BlockRef × ℤ)) (t : Store), (rest.map Prod.fst).Nodup →
      (∀ entry ∈ rest, entry.2 = (blockList.count entry.1 : ℤ) ∧ entry.1 ∈ blockList) →
      holds (fun c => refs c + if c ∈ rest.map Prod.fst then blockList.count c else 0) t →
      holds refs (rest.foldl releaseBlock t) := by
    intro rest
    induction rest with
    | nil => exact fun t _ _ held => held
    | cons entry rest ih =>
        intro t nodup counts held
        obtain ⟨b, k⟩ := entry
        obtain ⟨apart, later⟩ := List.nodup_cons.mp nodup
        obtain ⟨value, member⟩ := counts (b, k) (by simp)
        simp only at value member apart
        subst value
        refine ih _ later (fun entry inside => counts entry (List.mem_cons_of_mem _ inside)) ?_
        refine release (List.count_pos_iff.mpr member) (fun c => ?_) held
        by_cases same : c = b
        · subst same
          rw [if_neg apart, if_pos rfl, if_pos (by simp), Nat.add_zero]
        · have still : c ∈ ((b, (blockList.count b : ℤ)) :: rest).map Prod.fst ↔
              c ∈ rest.map Prod.fst := by
            rw [List.map_cons, List.mem_cons]
            exact or_iff_right same
          rw [if_neg same, Nat.add_zero]
          by_cases inside : c ∈ rest.map Prod.fst
          · rw [if_pos inside, if_pos (still.mpr inside)]
          · rw [if_neg inside, if_neg fun again => inside (still.mp again)]
  refine loop entries s tallies.nodup (fun entry member => ⟨tallies.count entry member, ?_⟩) ?_
  · exact (tallies.mem _).mp (List.mem_map_of_mem member)
  · have all : (fun c => refs c + if c ∈ entries.map Prod.fst then blockList.count c else 0) =
        fun c => refs c + blockList.count c := by
      funext c
      by_cases member : c ∈ entries.map Prod.fst
      · rw [if_pos member]
      · have absent : c ∉ blockList := fun listed => member ((tallies.mem c).mpr listed)
        rw [if_neg member, List.count_eq_zero_of_not_mem absent]
    rw [all]
    exact start

/-- Every reference of the block list is dropped. -/
theorem foldl_releaseBlock_ledger {refs : BlockRef → ℕ} {s : Store} {blockList : List BlockRef}
    {entries : List (BlockRef × ℤ)} (tallies : Tallies blockList entries)
    (ledger : Ledger (fun c => refs c + blockList.count c) ∅ [] s) :
    Ledger refs ∅ [] (entries.foldl releaseBlock s) := by
  refine tallies.foldl_releaseBlock (fun refs t => Ledger refs ∅ [] t) ?_ ledger
  intro refs refs' t b k some fewer held
  have own := fewer b
  rw [if_pos rfl] at own
  exact releaseBlock_ledger held (held.indexed (by omega)) (Set.notMem_empty b)
    fun c => (fewer c).le

end ProjetoTSO.Codededup
