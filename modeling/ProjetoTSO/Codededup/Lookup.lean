import ProjetoTSO.Codededup.Write

/-!
# The lookup of a write, whatever the counters

`lookupBlocks` says what the lookup loop does to a store whose counters count.  What is said
here needs less: pointers lead to allocated objects, and a block is indexed under its own hash,
because the key of its entry is its `id` (`Store.Allocated`).
-/

namespace ProjetoTSO.Codededup

open CInt

/-- Pointers lead to objects that were created, and blocks are indexed under their hashes. -/
structure Store.Allocated (s : Store) : Prop where
  files : ∀ {path f}, s.fileIndex.lookup path = some f → f < s.nextFile
  listed : ∀ {path f}, s.fileIndex.lookup path = some f →
    ∀ b ∈ (s.files f).blockList, b < s.nextBlock
  indexed : ∀ {hash b}, s.blockIndex.lookup hash = some b →
    b < s.nextBlock ∧ (s.blocks b).id = hash

/-- What the lookup loop, started in `s₀`, has done once it has looked at the hashes in
`seen`. -/
structure Resolved (s₀ : Store) (seen : List BlockId) (tables : WriteTables) (s : Store) :
    Prop where
  outside : OutsideBlocks s₀ s
  heap : s₀.nextBlock ≤ s.nextBlock
  indexed : ∀ {hash b}, s.blockIndex.lookup hash = some b →
    b < s.nextBlock ∧ (s.blocks b).id = hash
  kept : ∀ {hash b}, s₀.blockIndex.lookup hash = some b → s.blockIndex.lookup hash = some b
  born : ∀ {hash b}, s.blockIndex.lookup hash = some b →
    s₀.blockIndex.lookup hash = some b ∨ s₀.nextBlock ≤ b
  created : ∀ b, b ∈ tables.my_created_blocks ↔ s₀.nextBlock ≤ b ∧ b < s.nextBlock
  createdNodup : tables.my_created_blocks.Nodup
  noted : ∀ b ∈ tables.my_created_blocks, b ∈ tables.newBlocksInfo
  found : ∀ b ∈ tables.newBlocksInfo, s.blockIndex.lookup (s.blocks b).id = some b
  info : tables.newBlocksInfo.map (fun b => (s.blocks b).id) = seen
  counter : ∀ {hash b}, s₀.blockIndex.lookup hash = some b → hash ∈ seen →
    (s.blocks b).counter = int32 ((s₀.blocks b).counter + seen.count hash)
  unseen : ∀ {hash b}, s₀.blockIndex.lookup hash = some b → hash ∉ seen →
    s.blocks b = s₀.blocks b

namespace Resolved

variable {s₀ s : Store} {seen : List BlockId} {tables : WriteTables} {hash : BlockId} {b : BlockRef}

theorem start (allocated : s₀.Allocated) : Resolved s₀ [] WriteTables.empty s₀ where
  outside := .refl s₀
  heap := le_rfl
  indexed := allocated.indexed
  kept found := found
  born found := Or.inl found
  created _ := ⟨fun member => absurd member List.not_mem_nil,
    fun range => absurd range.2 (not_lt.mpr range.1)⟩
  createdNodup := List.nodup_nil
  noted _ member := absurd member List.not_mem_nil
  found _ member := absurd member List.not_mem_nil
  info := rfl
  counter _ member := absurd member List.not_mem_nil
  unseen _ _ := rfl

/-- A block is created for a hash the index did not hold. -/
theorem created_iff (resolved : Resolved s₀ seen tables s) (allocated : s₀.Allocated)
    (member : b ∈ tables.newBlocksInfo) :
    b ∈ tables.my_created_blocks ↔ s₀.blockIndex.lookup (s.blocks b).id = none := by
  have inIndex := resolved.found b member
  rw [resolved.created]
  constructor
  · rintro ⟨fresh, -⟩
    by_contra present
    obtain ⟨c, earlier⟩ := Option.ne_none_iff_exists'.mp present
    obtain rfl : b = c := Option.some.inj (inIndex.symm.trans (resolved.kept earlier))
    exact absurd (allocated.indexed earlier).1 (not_lt.mpr fresh)
  · intro absent
    refine ⟨(resolved.born inIndex).resolve_left fun earlier => ?_, (resolved.indexed inIndex).1⟩
    rw [absent] at earlier
    cases earlier

theorem int32_int32_add (z : ℤ) (n : ℤ) : int32 (int32 z + n) = int32 (z + n) :=
  Int.bmod_add_bmod

/-- An iteration that finds its block. -/
theorem raise (resolved : Resolved s₀ seen tables s) (inIndex : s.blockIndex.lookup hash = some b) :
    Resolved s₀ (seen ++ [hash]) (tables.note (raiseCounter b s) b) (raiseCounter b s) := by
  have blockId : (s.blocks b).id = hash := (resolved.indexed inIndex).2
  have same : ∀ c, ((raiseCounter b s).blocks c).id = (s.blocks c).id := by
    intro c
    rcases eq_or_ne c b with rfl | differ
    · rw [raiseCounter, Store.setBlock_blocks_self]
    · rw [raiseCounter, Store.setBlock_blocks_ne s _ differ]
  have other : ∀ {hash' c}, s.blockIndex.lookup hash' = some c → hash' ≠ hash →
      (raiseCounter b s).blocks c = s.blocks c := by
    intro hash' c inside differ
    refine Store.setBlock_blocks_ne s _ fun equal => differ ?_
    rw [← (resolved.indexed inside).2, equal, blockId]
  constructor
  · exact resolved.outside.trans ⟨rfl, rfl, rfl, rfl, rfl, rfl, rfl⟩
  · exact resolved.heap
  · intro hash' c inside
    rw [same]
    exact resolved.indexed inside
  · exact resolved.kept
  · exact resolved.born
  · exact resolved.created
  · exact resolved.createdNodup
  · exact fun c mine => List.mem_append_left _ (resolved.noted c mine)
  · intro c member
    rw [same]
    rcases List.mem_append.mp member with earlier | last
    · exact resolved.found c earlier
    · rw [List.mem_singleton.mp last, blockId]
      exact inIndex
  · rw [WriteTables.note_newBlocksInfo, List.map_append, List.map_singleton, same, blockId]
    refine congrArg (· ++ [hash]) ?_
    rw [← resolved.info]
    exact List.map_congr_left fun c _ => same c
  · intro hash' c before member
    have now := resolved.kept before
    rcases eq_or_ne hash' hash with rfl | differ
    · obtain rfl : b = c := Option.some.inj (inIndex.symm.trans now)
      rw [raiseCounter, Store.setBlock_blocks_self, List.count_append, List.count_singleton_self]
      show int32 ((s.blocks b).counter + 1) = _
      by_cases earlier : hash' ∈ seen
      · rw [resolved.counter before earlier, int32_int32_add]
        push_cast
        rw [add_assoc]
      · rw [resolved.unseen before earlier, List.count_eq_zero_of_not_mem earlier]
        rfl
    · have earlier : hash' ∈ seen := (List.mem_append.mp member).resolve_right fun last =>
        differ (List.mem_singleton.mp last)
      rw [other now differ, resolved.counter before earlier, List.count_append,
        List.count_singleton]
      simp [differ.symm]
  · intro hash' c before member
    rw [List.mem_append, List.mem_singleton, not_or] at member
    rw [other (resolved.kept before) member.2]
    exact resolved.unseen before member.1

/-- An iteration that creates its block. -/
theorem create (resolved : Resolved s₀ seen tables s)
    (notIndexed : s.blockIndex.lookup hash = none) :
    Resolved s₀ (seen ++ [hash])
      ({ tables with my_created_blocks := s.nextBlock :: tables.my_created_blocks }.note
        (createBlock hash s) s.nextBlock) (createBlock hash s) := by
  have old : ∀ {hash' c}, s.blockIndex.lookup hash' = some c →
      (createBlock hash s).blocks c = s.blocks c := fun inside =>
    Ledger.createBlock_blocks_ne s (resolved.indexed inside).1.ne
  have unseen : hash ∉ seen := by
    rw [← resolved.info]
    intro member
    obtain ⟨c, noted, rfl⟩ := List.mem_map.mp member
    rw [resolved.found c noted] at notIndexed
    cases notIndexed
  have next : (createBlock hash s).nextBlock = s.nextBlock + 1 := rfl
  constructor
  · exact resolved.outside.trans ⟨rfl, rfl, rfl, rfl, rfl, rfl, rfl⟩
  · exact resolved.heap.trans (Nat.le_succ _)
  · intro hash' c inside
    rcases (Ledger.createBlock_lookup notIndexed).mp inside with ⟨rfl, rfl⟩ | inside
    · rw [Ledger.createBlock_blocks_self]
      exact ⟨Nat.lt_succ_self _, rfl⟩
    · rw [old inside]
      exact ⟨(resolved.indexed inside).1.trans (Nat.lt_succ_self _), (resolved.indexed inside).2⟩
  · exact fun before => (Ledger.createBlock_lookup notIndexed).mpr (Or.inr (resolved.kept before))
  · intro hash' c inside
    rcases (Ledger.createBlock_lookup notIndexed).mp inside with ⟨rfl, rfl⟩ | inside
    · exact Or.inr resolved.heap
    · exact resolved.born inside
  · intro c
    rw [WriteTables.note_my_created_blocks, List.mem_cons, resolved.created, next]
    constructor
    · rintro (rfl | ⟨lower, upper⟩)
      · exact ⟨resolved.heap, Nat.lt_succ_self _⟩
      · exact ⟨lower, upper.trans (Nat.lt_succ_self _)⟩
    · rintro ⟨lower, upper⟩
      exact (Nat.lt_succ_iff_lt_or_eq.mp upper).symm.imp_right fun below => ⟨lower, below⟩
  · refine List.nodup_cons.mpr ⟨fun mine => ?_, resolved.createdNodup⟩
    exact lt_irrefl _ ((resolved.created _).mp mine).2
  · intro c mine
    rw [WriteTables.note_newBlocksInfo, List.mem_append, List.mem_singleton]
    exact (List.mem_cons.mp mine).symm.imp_left (resolved.noted c)
  · intro c member
    rcases List.mem_append.mp member with earlier | last
    · have inside := resolved.found c earlier
      rw [old inside]
      exact (Ledger.createBlock_lookup notIndexed).mpr (Or.inr inside)
    · rw [List.mem_singleton.mp last, Ledger.createBlock_blocks_self]
      exact (Ledger.createBlock_lookup notIndexed).mpr (Or.inl ⟨rfl, rfl⟩)
  · rw [WriteTables.note_newBlocksInfo, List.map_append, List.map_singleton,
      Ledger.createBlock_blocks_self]
    refine congrArg (· ++ [hash]) ?_
    rw [← resolved.info]
    exact List.map_congr_left fun c member => by rw [old (resolved.found c member)]
  · intro hash' c before member
    have now := resolved.kept before
    have differ : hash' ≠ hash := fun equal => by
      rw [equal, notIndexed] at now
      cases now
    have earlier : hash' ∈ seen := (List.mem_append.mp member).resolve_right fun last =>
      differ (List.mem_singleton.mp last)
    rw [old now, resolved.counter before earlier, List.count_append, List.count_singleton]
    simp [differ.symm]
  · intro hash' c before member
    rw [old (resolved.kept before)]
    exact resolved.unseen before fun earlier => member (List.mem_append_left _ earlier)

end Resolved

/-- **The lookup loop**, in any store. -/
theorem foldl_lookupBlock_resolved {s : Store} (allocated : s.Allocated) (hashes : List BlockId) :
    Resolved s hashes (hashes.foldl lookupBlock (WriteTables.empty, s)).1
      (hashes.foldl lookupBlock (WriteTables.empty, s)).2 := by
  induction hashes using List.reverseRecOn with
  | nil => exact Resolved.start allocated
  | append_singleton seen hash ih =>
      rw [List.foldl_append, List.foldl_cons, List.foldl_nil]
      generalize seen.foldl lookupBlock (WriteTables.empty, s) = state at ih
      obtain ⟨tables, s'⟩ := state
      simp only [lookupBlock]
      cases inIndex : s'.blockIndex.lookup hash with
      | some b => exact ih.raise inIndex
      | none => exact ih.create inIndex

/-- The blocks of a write, with their references taken and their offsets assigned. -/
theorem placeBlocks_resolved {s : Store} (allocated : s.Allocated) (hashes : List BlockId) :
    ∃ mid, Resolved s hashes (placeBlocks hashes s).1 mid ∧
      OffsetsOnly {b | b ∈ (placeBlocks hashes s).1.my_created_blocks} mid
        (placeBlocks hashes s).2 :=
  ⟨_, foldl_lookupBlock_resolved allocated hashes, assignOffsets_offsetsOnly _ _ _⟩

end ProjetoTSO.Codededup
