import Mathlib.Data.Set.Insert
import ProjetoTSO.Codededup.Passthrough
import ProjetoTSO.Codededup.Shape
import ProjetoTSO.Lib.Arena

/-!
# The block ledger

Reference counts and backing-file space, independently of what the references
are.  `Ledger refs unplaced transit s` says that in `s` every block is indexed
under its own hash, that its counter covers the `refs` references the rest of the
system holds to it, that a referenced block is indexed, and that the offsets of
the indexed blocks, the offsets in `transit` to the free list and the free list
tile the backing file.  Blocks in `unplaced` are indexed but own no offset yet.

Each step of the handlers that touches a block or an offset preserves the ledger,
with the references, the unplaced blocks and the offsets in transit changed the
way the step changes them.  A handler run alone and a handler interleaved with
others go through the same steps; they differ only in who holds the references.
-/

namespace ProjetoTSO.Codededup

open CInt Arena

/-! ## Indexed blocks -/

namespace Store

variable {s t : Store}

/-- The blocks of the block index. -/
def liveBlocks (s : Store) : List BlockRef := s.blockIndex.entries.map fun entry => entry.2

theorem mem_liveBlocks {b : BlockRef} :
    b ∈ s.liveBlocks ↔ ∃ hash, s.blockIndex.lookup hash = some b := by
  rw [liveBlocks, List.mem_map]
  constructor
  · rintro ⟨⟨hash, c⟩, member, rfl⟩
    exact ⟨hash, AList.mem_lookup_iff.mpr member⟩
  · rintro ⟨hash, found⟩
    exact ⟨⟨hash, b⟩, AList.mem_lookup_iff.mp found, rfl⟩

/-- An indexed block occurs once, as it has one hash. -/
theorem liveBlocks_nodup
    (blockId : ∀ {hash b}, s.blockIndex.lookup hash = some b → (s.blocks b).id = hash) :
    s.liveBlocks.Nodup := by
  have keys : s.liveBlocks.map (fun b => (s.blocks b).id) = s.blockIndex.keys := by
    rw [liveBlocks, List.map_map]
    refine List.map_congr_left fun entry member => ?_
    exact blockId (AList.mem_lookup_iff.mpr member)
  exact List.Nodup.of_map _ (keys ▸ s.blockIndex.keys_nodup)

open Classical in
/-- The indexed blocks that own an offset. -/
noncomputable def placedBlocks (s : Store) (unplaced : Set BlockRef) : List BlockRef :=
  s.liveBlocks.filter fun b => b ∉ unplaced

theorem mem_placedBlocks {unplaced : Set BlockRef} {b : BlockRef} :
    b ∈ s.placedBlocks unplaced ↔ b ∈ s.liveBlocks ∧ b ∉ unplaced := by
  classical
  simp [placedBlocks]

/-- The offsets they own. -/
noncomputable def placedOffsets (s : Store) (unplaced : Set BlockRef) : List ℤ :=
  (s.placedBlocks unplaced).map fun b => (s.blocks b).block_offset

theorem placedOffsets_empty : s.placedOffsets ∅ = s.liveOffsets := by
  classical
  have all : s.placedBlocks ∅ = s.liveBlocks :=
    List.filter_eq_self.mpr fun b _ => by simp
  rw [placedOffsets, all, liveBlocks, liveOffsets, List.map_map]
  rfl

/-- The owned offsets depend on the placed blocks and their offsets only. -/
theorem placedOffsets_congr {unplaced : Set BlockRef} (index : t.blockIndex = s.blockIndex)
    (offsets : ∀ b ∈ s.placedBlocks unplaced,
      (t.blocks b).block_offset = (s.blocks b).block_offset) :
    t.placedOffsets unplaced = s.placedOffsets unplaced := by
  have same : t.placedBlocks unplaced = s.placedBlocks unplaced := by
    simp only [placedBlocks, liveBlocks, index]
  rw [placedOffsets, same]
  exact List.map_congr_left offsets

end Store

/-! ## The invariant -/

structure Ledger (refs : BlockRef → ℕ) (unplaced : Set BlockRef) (transit : List ℤ)
    (s : Store) : Prop where
  blockId : ∀ {hash b}, s.blockIndex.lookup hash = some b → (s.blocks b).id = hash
  fresh : ∀ {hash b}, s.blockIndex.lookup hash = some b → b < s.nextBlock
  indexed : ∀ {b}, 0 < refs b → s.blockIndex.lookup (s.blocks b).id = some b
  positive : ∀ {hash b}, s.blockIndex.lookup hash = some b → 0 < (s.blocks b).counter
  covered : ∀ {hash b}, s.blockIndex.lookup hash = some b → (refs b : ℤ) ≤ (s.blocks b).counter
  counterFits : ∀ {hash b}, s.blockIndex.lookup hash = some b → (s.blocks b).counter < 2 ^ 31
  waiting : ∀ {b}, b ∈ unplaced → b ∈ s.liveBlocks
  blockSize : ∀ {b}, b ∈ unplaced → (s.blocks b).size = 4096
  tiles : Tiles 4096 (s.placedOffsets unplaced ++ transit) s.freeList s.next_free_offset

namespace Ledger

variable {refs refs' : BlockRef → ℕ} {unplaced : Set BlockRef} {transit : List ℤ} {s t : Store}
variable {hash : BlockId} {b c : BlockRef}

theorem nodup (ledger : Ledger refs unplaced transit s) : s.liveBlocks.Nodup :=
  Store.liveBlocks_nodup ledger.blockId

theorem lookup_id (ledger : Ledger refs unplaced transit s)
    (found : s.blockIndex.lookup hash = some b) :
    s.blockIndex.lookup (s.blocks b).id = some b := by
  rw [ledger.blockId found]
  exact found

/-- A block no reference of which is left, or that was never created, is not
referenced. -/
theorem refs_eq_zero (ledger : Ledger refs unplaced transit s)
    (absent : s.blockIndex.lookup (s.blocks b).id ≠ some b) : refs b = 0 := by
  by_contra nonzero
  exact absent (ledger.indexed (Nat.pos_of_ne_zero nonzero))

theorem refs_fresh (ledger : Ledger refs unplaced transit s) : refs s.nextBlock = 0 :=
  ledger.refs_eq_zero fun found => lt_irrefl _ (ledger.fresh found)

/-- References may be forgotten. -/
theorem mono (ledger : Ledger refs unplaced transit s) (fewer : ∀ c, refs' c ≤ refs c) :
    Ledger refs' unplaced transit s where
  blockId := ledger.blockId
  fresh := ledger.fresh
  indexed {c} some := ledger.indexed (lt_of_lt_of_le some (fewer c))
  positive := ledger.positive
  covered {hash c} found := by
    have := ledger.covered found
    have := fewer c
    omega
  counterFits := ledger.counterFits
  waiting := ledger.waiting
  blockSize := ledger.blockSize
  tiles := ledger.tiles

/-- The offset of a placed block is a multiple of the block size. -/
theorem aligned (ledger : Ledger refs unplaced transit s) (inIndex : b ∈ s.liveBlocks)
    (placed : b ∉ unplaced) : (4096 : ℤ) ∣ (s.blocks b).block_offset := by
  have owned : (s.blocks b).block_offset ∈ s.placedOffsets unplaced :=
    List.mem_map_of_mem (Store.mem_placedBlocks.mpr ⟨inIndex, placed⟩)
  exact ((ledger.tiles.mem_iff (by norm_num)).mp
    (List.mem_append_left _ (List.mem_append_left _ owned))).2.2

/-- Two placed blocks own different offsets, a whole block apart. -/
theorem apart (ledger : Ledger refs unplaced transit s) (inIndex : b ∈ s.liveBlocks)
    (inIndex' : c ∈ s.liveBlocks) (placed : b ∉ unplaced) (placed' : c ∉ unplaced)
    (differ : b ≠ c) :
    (s.blocks b).block_offset + 4096 ≤ (s.blocks c).block_offset ∨
      (s.blocks c).block_offset + 4096 ≤ (s.blocks b).block_offset := by
  have owned : (s.placedOffsets unplaced).Nodup :=
    (List.nodup_append.mp (List.nodup_append.mp (ledger.tiles.nodup (by norm_num))).1).1
  have member := Store.mem_placedBlocks.mpr ⟨inIndex, placed⟩
  have member' := Store.mem_placedBlocks.mpr ⟨inIndex', placed'⟩
  have distinct : (s.blocks b).block_offset ≠ (s.blocks c).block_offset := fun equal =>
    differ (List.inj_on_of_nodup_map owned member member' equal)
  obtain ⟨i, hi⟩ := ledger.aligned inIndex placed
  obtain ⟨j, hj⟩ := ledger.aligned inIndex' placed'
  omega

/-! ## What the ledger does not see -/

/-- Only the block index, the blocks, the free list and the tail matter. -/
theorem congr (ledger : Ledger refs unplaced transit s) (blockIndex : t.blockIndex = s.blockIndex)
    (blocks : t.blocks = s.blocks) (nextBlock : t.nextBlock = s.nextBlock)
    (freeList : t.freeList = s.freeList)
    (next_free_offset : t.next_free_offset = s.next_free_offset) :
    Ledger refs unplaced transit t where
  blockId := by rw [blockIndex, blocks]; exact ledger.blockId
  fresh := by rw [blockIndex, nextBlock]; exact ledger.fresh
  indexed := by rw [blockIndex, blocks]; exact ledger.indexed
  positive := by rw [blockIndex, blocks]; exact ledger.positive
  covered := by rw [blockIndex, blocks]; exact ledger.covered
  counterFits := by rw [blockIndex, blocks]; exact ledger.counterFits
  waiting := by rw [Store.liveBlocks, blockIndex]; exact ledger.waiting
  blockSize := by rw [blocks]; exact ledger.blockSize
  tiles := by
    rw [freeList, next_free_offset, Store.placedOffsets_congr blockIndex fun b _ => by rw [blocks]]
    exact ledger.tiles

theorem setFile (ledger : Ledger refs unplaced transit s) (f : FileRef) (file : Filemeta) :
    Ledger refs unplaced transit (s.setFile f file) := ledger.congr rfl rfl rfl rfl rfl

theorem pwriteBlock (ledger : Ledger refs unplaced transit s) (out : PwriteOut) (page : Page) :
    Ledger refs unplaced transit (pwriteBlock out b page s).2 := by
  cases out with
  | fail errno left => exact ledger.congr rfl rfl rfl rfl rfl
  | done n => exact ledger.congr rfl rfl rfl rfl rfl

/-- Any assignment through a block pointer that leaves the identity and the offset
of the block alone, if it covers the block's references. -/
theorem setBlock (ledger : Ledger refs unplaced transit s) (block : Blockmeta)
    (sameId : block.id = (s.blocks b).id) (sameSize : block.size = (s.blocks b).size)
    (sameOffset : block.block_offset = (s.blocks b).block_offset)
    (indexed : ∀ {c}, 0 < refs' c → s.blockIndex.lookup (s.blocks c).id = some c)
    (others : ∀ c, c ≠ b → refs' c ≤ refs c)
    (own : ∀ {hash}, s.blockIndex.lookup hash = some b →
      0 < block.counter ∧ (refs' b : ℤ) ≤ block.counter ∧ block.counter < 2 ^ 31) :
    Ledger refs' unplaced transit (s.setBlock b block) := by
  have ids : ∀ c, ((s.setBlock b block).blocks c).id = (s.blocks c).id := fun c => by
    by_cases same : c = b
    · rw [same, Store.setBlock_blocks_self, sameId]
    · rw [Store.setBlock_blocks_ne s block same]
  constructor
  · intro hash c found
    rw [ids c]
    exact ledger.blockId found
  · intro hash c found
    exact ledger.fresh found
  · intro c some
    rw [ids c]
    exact indexed some
  · intro hash c found
    by_cases same : c = b
    · subst same
      rw [Store.setBlock_blocks_self]
      exact (own found).1
    · rw [Store.setBlock_blocks_ne s block same]
      exact ledger.positive found
  · intro hash c found
    by_cases same : c = b
    · subst same
      rw [Store.setBlock_blocks_self]
      exact (own found).2.1
    · rw [Store.setBlock_blocks_ne s block same]
      have := ledger.covered found
      have := others c same
      omega
  · intro hash c found
    by_cases same : c = b
    · subst same
      rw [Store.setBlock_blocks_self]
      exact (own found).2.2
    · rw [Store.setBlock_blocks_ne s block same]
      exact ledger.counterFits found
  · exact ledger.waiting
  · intro c member
    by_cases same : c = b
    · subst same
      rw [Store.setBlock_blocks_self, sameSize]
      exact ledger.blockSize member
    · rw [Store.setBlock_blocks_ne s block same]
      exact ledger.blockSize member
  · have offsets : (s.setBlock b block).placedOffsets unplaced = s.placedOffsets unplaced :=
      Store.placedOffsets_congr rfl fun c _ => by
        by_cases same : c = b
        · rw [same, Store.setBlock_blocks_self, sameOffset]
        · rw [Store.setBlock_blocks_ne s block same]
    rw [offsets]
    exact ledger.tiles

theorem freeBlockMeta (ledger : Ledger refs unplaced transit s) :
    Ledger refs unplaced transit (freeBlockMeta b s) :=
  ledger.setBlock _ rfl rfl rfl ledger.indexed (fun _ _ => le_rfl) fun found =>
    ⟨ledger.positive found, ledger.covered found, ledger.counterFits found⟩

/-! ## Taking references -/

/-- A reference more to an indexed block. -/
theorem raiseCounter (ledger : Ledger refs unplaced transit s)
    (found : s.blockIndex.lookup hash = some b) (room : (s.blocks b).counter + 1 < 2 ^ 31)
    (more : ∀ c, refs' c ≤ refs c + if c = b then 1 else 0) :
    Ledger refs' unplaced transit (raiseCounter b s) := by
  have positive := ledger.positive found
  have covered := ledger.covered found
  have exact_ : int32 ((s.blocks b).counter + 1) = (s.blocks b).counter + 1 :=
    int32_eq (by omega) (by omega)
  refine ledger.setBlock _ rfl rfl rfl ?_ ?_ ?_
  · intro c some
    by_cases same : c = b
    · rw [same]
      exact ledger.lookup_id found
    · have := more c
      rw [if_neg same] at this
      exact ledger.indexed (by omega)
  · intro c differ
    have := more c
    rwa [if_neg differ] at this
  · intro _ _
    have := more b
    rw [if_pos rfl] at this
    show 0 < int32 _ ∧ _ ≤ int32 _ ∧ int32 _ < 2 ^ 31
    rw [exact_]
    exact ⟨by omega, by omega, room⟩

theorem createBlock_blocks_ne (s : Store) (differ : c ≠ s.nextBlock) :
    (createBlock hash s).blocks c = s.blocks c := Function.update_of_ne differ _ _

theorem createBlock_blocks_self (s : Store) :
    (createBlock hash s).blocks s.nextBlock =
      { Blockmeta.zero with id := hash, size := 4096, counter := 1, lockReady := true } :=
  Function.update_self _ _ _

theorem createBlock_lookup (absent : s.blockIndex.lookup hash = none) {other : BlockId} :
    (createBlock hash s).blockIndex.lookup other = some c ↔
      (other = hash ∧ c = s.nextBlock) ∨ s.blockIndex.lookup other = some c := by
  by_cases same : other = hash
  · subst same
    rw [createBlock, AList.lookup_insert, absent, Option.some.injEq]
    simp [eq_comm]
  · rw [createBlock, AList.lookup_insert_ne same]
    simp [same]

theorem createBlock_liveBlocks (absent : s.blockIndex.lookup hash = none) :
    (createBlock hash s).liveBlocks = s.nextBlock :: s.liveBlocks := by
  have fresh : hash ∉ s.blockIndex := AList.lookup_eq_none.mp absent
  simp only [Store.liveBlocks, createBlock, AList.entries_insert_of_notMem fresh, List.map_cons]

/-- The first reference to a new block, which waits for an offset. -/
theorem createBlock (ledger : Ledger refs unplaced transit s)
    (absent : s.blockIndex.lookup hash = none)
    (more : ∀ c, refs' c ≤ refs c + if c = s.nextBlock then 1 else 0) :
    Ledger refs' (insert s.nextBlock unplaced) transit (createBlock hash s) := by
  have old : ∀ {other c}, s.blockIndex.lookup other = some c → c ≠ s.nextBlock :=
    fun found => (ledger.fresh found).ne
  constructor
  · intro other c found
    rcases (createBlock_lookup absent).mp found with ⟨rfl, rfl⟩ | before
    · rw [createBlock_blocks_self]
    · rw [createBlock_blocks_ne s (old before)]
      exact ledger.blockId before
  · intro other c found
    rcases (createBlock_lookup absent).mp found with ⟨rfl, rfl⟩ | before
    · exact Nat.lt_succ_self _
    · exact Nat.lt_succ_of_lt (ledger.fresh before)
  · intro c some
    refine (createBlock_lookup absent).mpr ?_
    by_cases same : c = s.nextBlock
    · subst same
      exact Or.inl ⟨by rw [createBlock_blocks_self], rfl⟩
    · have := more c
      rw [if_neg same] at this
      rw [createBlock_blocks_ne s same]
      exact Or.inr (ledger.indexed (by omega))
  · intro other c found
    rcases (createBlock_lookup absent).mp found with ⟨rfl, rfl⟩ | before
    · rw [createBlock_blocks_self]
      norm_num
    · rw [createBlock_blocks_ne s (old before)]
      exact ledger.positive before
  · intro other c found
    have := more c
    rcases (createBlock_lookup absent).mp found with ⟨rfl, rfl⟩ | before
    · rw [if_pos rfl, ledger.refs_fresh] at this
      rw [createBlock_blocks_self]
      show (refs' s.nextBlock : ℤ) ≤ 1
      omega
    · rw [if_neg (old before)] at this
      rw [createBlock_blocks_ne s (old before)]
      have := ledger.covered before
      omega
  · intro other c found
    rcases (createBlock_lookup absent).mp found with ⟨rfl, rfl⟩ | before
    · rw [createBlock_blocks_self]
      norm_num
    · rw [createBlock_blocks_ne s (old before)]
      exact ledger.counterFits before
  · rintro c (rfl | member)
    · rw [createBlock_liveBlocks absent]
      exact List.mem_cons_self
    · rw [createBlock_liveBlocks absent]
      exact List.mem_cons_of_mem _ (ledger.waiting member)
  · intro c member
    by_cases same : c = s.nextBlock
    · rw [same, createBlock_blocks_self]
    · rw [createBlock_blocks_ne s same]
      exact ledger.blockSize (member.resolve_left same)
  · classical
    have placed : (Codededup.createBlock hash s).placedBlocks (insert s.nextBlock unplaced) =
        s.placedBlocks unplaced := by
      simp only [Store.placedBlocks, createBlock_liveBlocks absent]
      rw [List.filter_cons_of_neg (by simp)]
      refine List.filter_congr fun c member => ?_
      obtain ⟨other, found⟩ := Store.mem_liveBlocks.mp member
      simp [Set.mem_insert_iff, old found]
    have offsets : (Codededup.createBlock hash s).placedOffsets (insert s.nextBlock unplaced) =
        s.placedOffsets unplaced := by
      rw [Store.placedOffsets, placed]
      refine List.map_congr_left fun c member => ?_
      obtain ⟨other, found⟩ := Store.mem_liveBlocks.mp (Store.mem_placedBlocks.mp member).1
      rw [createBlock_blocks_ne s (old found)]
    rw [offsets]
    exact ledger.tiles

/-! ## Placing blocks -/

/-- The offset `assignOffset` gives to a block. -/
def nextOffset (s : Store) : ℤ := s.freeList.getLast?.getD s.next_free_offset

theorem assignOffset_blocks (s : Store) (b : BlockRef) :
    (assignOffset s b).blocks =
      Function.update s.blocks b { s.blocks b with block_offset := nextOffset s } := by
  unfold assignOffset nextOffset
  cases s.freeList.getLast? with
  | none => rfl
  | some off => rfl

theorem assignOffset_blockIndex (s : Store) (b : BlockRef) :
    (assignOffset s b).blockIndex = s.blockIndex := by
  unfold assignOffset
  cases s.freeList.getLast? with
  | none => rfl
  | some off => rfl

theorem assignOffset_nextBlock (s : Store) (b : BlockRef) :
    (assignOffset s b).nextBlock = s.nextBlock := by
  unfold assignOffset
  cases s.freeList.getLast? with
  | none => rfl
  | some off => rfl

/-- Reuse and growth are the two moves of the arena. -/
theorem assignOffset_tiles {live : List ℤ} (size : (s.blocks b).size = 4096)
    (tiles : Tiles 4096 live s.freeList s.next_free_offset) :
    Tiles 4096 (nextOffset s :: live) (assignOffset s b).freeList
      (assignOffset s b).next_free_offset := by
  unfold assignOffset nextOffset
  cases last : s.freeList.getLast? with
  | none =>
      simp only [Option.getD_none, Store.setBlock_freeList, size]
      exact tiles.grow
  | some off =>
      have split : s.freeList.dropLast ++ [off] = s.freeList :=
        List.dropLast_append_getLast? off last
      simp only [Option.getD_some, Store.setBlock_next_free_offset]
      exact Tiles.reuse (by rwa [split])

/-- A waiting block gets an offset of its own. -/
theorem assignOffset (ledger : Ledger refs unplaced transit s) (member : b ∈ unplaced) :
    Ledger refs (unplaced \ {b}) transit (assignOffset s b) := by
  have fields : ∀ c, ((Codededup.assignOffset s b).blocks c).id = (s.blocks c).id ∧
      ((Codededup.assignOffset s b).blocks c).counter = (s.blocks c).counter ∧
      ((Codededup.assignOffset s b).blocks c).size = (s.blocks c).size := by
    intro c
    rw [assignOffset_blocks]
    by_cases same : c = b
    · subst same
      rw [Function.update_self]
      exact ⟨rfl, rfl, rfl⟩
    · rw [Function.update_of_ne same]
      exact ⟨rfl, rfl, rfl⟩
  have live : (Codededup.assignOffset s b).liveBlocks = s.liveBlocks := by
    rw [Store.liveBlocks, assignOffset_blockIndex]
    rfl
  constructor
  · intro hash c found
    rw [assignOffset_blockIndex] at found
    rw [(fields c).1]
    exact ledger.blockId found
  · intro hash c found
    rw [assignOffset_blockIndex] at found
    rw [assignOffset_nextBlock]
    exact ledger.fresh found
  · intro c some
    rw [assignOffset_blockIndex, (fields c).1]
    exact ledger.indexed some
  · intro hash c found
    rw [assignOffset_blockIndex] at found
    rw [(fields c).2.1]
    exact ledger.positive found
  · intro hash c found
    rw [assignOffset_blockIndex] at found
    rw [(fields c).2.1]
    exact ledger.covered found
  · intro hash c found
    rw [assignOffset_blockIndex] at found
    rw [(fields c).2.1]
    exact ledger.counterFits found
  · intro c waiting
    rw [live]
    exact ledger.waiting waiting.1
  · intro c waiting
    rw [(fields c).2.2]
    exact ledger.blockSize waiting.1
  · classical
    -- `b` joins the placed blocks, the others keep their offsets
    have placed : ((Codededup.assignOffset s b).placedBlocks (unplaced \ {b})).Perm
        (b :: s.placedBlocks unplaced) := by
      have nodup : (s.placedBlocks unplaced).Nodup := ledger.nodup.filter _
      refine (List.perm_ext_iff_of_nodup ?_ ?_).mpr fun c => ?_
      · rw [Store.placedBlocks, live]
        exact ledger.nodup.filter _
      · exact List.nodup_cons.mpr ⟨fun inside => (Store.mem_placedBlocks.mp inside).2 member, nodup⟩
      · rw [Store.mem_placedBlocks, live, List.mem_cons, Store.mem_placedBlocks]
        by_cases same : c = b
        · subst same
          simp [ledger.waiting member]
        · simp [same]
    have offsets : ((Codededup.assignOffset s b).placedOffsets (unplaced \ {b})).Perm
        (nextOffset s :: s.placedOffsets unplaced) := by
      refine (placed.map _).trans (List.Perm.of_eq ?_)
      rw [List.map_cons, assignOffset_blocks, Function.update_self]
      refine congrArg _ (List.map_congr_left fun c inside => ?_)
      have differ : c ≠ b := fun same => (Store.mem_placedBlocks.mp inside).2 (same ▸ member)
      rw [Function.update_of_ne differ]
    refine (assignOffset_tiles (ledger.blockSize member) ledger.tiles).of_perm ?_
    exact (offsets.symm.append_right transit)

/-! ## Dropping references -/

/-- The two assignments of `lowerCounter`, the second one conditional. -/
theorem lowerCounter_eq (s : Store) (b : BlockRef) (k : ℤ) :
    lowerCounter b k s = { s with
      blocks := Function.update s.blocks b
        { s.blocks b with counter := int32 ((s.blocks b).counter - k) }
      blockIndex := if int32 ((s.blocks b).counter - k) = 0 then
        s.blockIndex.erase (s.blocks b).id else s.blockIndex } := by
  unfold lowerCounter
  by_cases zero : int32 ((s.blocks b).counter - k) = 0
  · simp only [zero, if_true, Store.setBlock, Function.update_self]
  · simp only [zero, if_false, Store.setBlock]

theorem lowerCounter_blocks (s : Store) (b : BlockRef) (k : ℤ) :
    (lowerCounter b k s).blocks =
      Function.update s.blocks b
        { s.blocks b with counter := int32 ((s.blocks b).counter - k) } := by
  rw [lowerCounter_eq]

theorem lowerCounter_liveBlocks (ledger : Ledger refs unplaced transit s)
    (found : s.blockIndex.lookup (s.blocks b).id = some b) :
    s.liveBlocks.Perm (b :: ({ s with blockIndex := s.blockIndex.erase (s.blocks b).id } :
      Store).liveBlocks) := by
  have erased : ∀ {hash c},
      (s.blockIndex.erase (s.blocks b).id).lookup hash = some c →
        hash ≠ (s.blocks b).id ∧ s.blockIndex.lookup hash = some c := by
    intro hash c inside
    by_cases same : hash = (s.blocks b).id
    · rw [same, AList.lookup_erase] at inside
      cases inside
    · rw [AList.lookup_erase_ne same] at inside
      exact ⟨same, inside⟩
  have nodup : ({ s with blockIndex := s.blockIndex.erase (s.blocks b).id } :
      Store).liveBlocks.Nodup :=
    Store.liveBlocks_nodup fun {hash c} inside => ledger.blockId (erased inside).2
  refine (List.perm_ext_iff_of_nodup ledger.nodup ?_).mpr fun c => ?_
  · refine List.nodup_cons.mpr ⟨fun inside => ?_, nodup⟩
    obtain ⟨hash, again⟩ := Store.mem_liveBlocks.mp inside
    exact (erased again).1 (ledger.blockId (erased again).2).symm
  · rw [List.mem_cons, Store.mem_liveBlocks, Store.mem_liveBlocks]
    constructor
    · rintro ⟨hash, inside⟩
      by_cases same : hash = (s.blocks b).id
      · rw [same, found] at inside
        exact Or.inl (Option.some.inj inside).symm
      · refine Or.inr ⟨hash, ?_⟩
        show (s.blockIndex.erase (s.blocks b).id).lookup hash = some c
        rwa [AList.lookup_erase_ne same]
    · rintro (rfl | ⟨hash, inside⟩)
      · exact ⟨_, found⟩
      · exact ⟨hash, (erased inside).2⟩

/-- `k` references fewer; a block left without any leaves the index, and its
offset is in transit. -/
theorem lowerCounter_of (ledger : Ledger refs unplaced transit s) {k : ℕ}
    (found : s.blockIndex.lookup (s.blocks b).id = some b) (placed : refs' b = 0 → b ∉ unplaced)
    (fewer : ∀ c, refs' c + (if c = b then k else 0) ≤ refs c) :
    Ledger refs' unplaced
      (if ((lowerCounter b k s).blocks b).counter = 0 then (s.blocks b).block_offset :: transit
        else transit)
      (lowerCounter b k s) := by
  have covered := ledger.covered found
  have bound := ledger.counterFits found
  have own := fewer b
  rw [if_pos rfl] at own
  have value : int32 ((s.blocks b).counter - k) = (s.blocks b).counter - k :=
    int32_eq (by omega) (by omega)
  have forget : ∀ c, refs' c ≤ refs c := fun c => le_trans (Nat.le_add_right _ _) (fewer c)
  rw [lowerCounter_blocks, Function.update_self, value]
  by_cases zero : (s.blocks b).counter - k = 0
  · -- no reference is left: the block leaves the index
    have none_ : refs' b = 0 := by omega
    have placed := placed none_
    have result : Codededup.lowerCounter b k s =
        { s.setBlock b { s.blocks b with counter := (s.blocks b).counter - k } with
          blockIndex := s.blockIndex.erase (s.blocks b).id } := by
      unfold Codededup.lowerCounter
      rw [value]
      simp only [zero, if_true, Store.setBlock_blocks_self, Store.setBlock_blockIndex]
    rw [if_pos zero, result]
    have erased : ∀ {hash c},
        (s.blockIndex.erase (s.blocks b).id).lookup hash = some c →
          c ≠ b ∧ s.blockIndex.lookup hash = some c := by
      intro hash c inside
      by_cases same : hash = (s.blocks b).id
      · rw [same, AList.lookup_erase] at inside
        cases inside
      · rw [AList.lookup_erase_ne same] at inside
        exact ⟨fun equal => same ((equal ▸ ledger.blockId inside).symm), inside⟩
    have others : ∀ {c}, c ≠ b →
        (s.setBlock b { s.blocks b with counter := (s.blocks b).counter - k }).blocks c =
          s.blocks c := fun differ => Store.setBlock_blocks_ne s _ differ
    have removed := ledger.lowerCounter_liveBlocks found
    constructor
    · intro hash c inside
      show ((s.setBlock b _).blocks c).id = hash
      rw [others (erased inside).1]
      exact ledger.blockId (erased inside).2
    · intro hash c inside
      exact ledger.fresh (erased inside).2
    · intro c some
      have differ : c ≠ b := fun same => by
        rw [same, none_] at some
        exact lt_irrefl 0 some
      have inIndex := ledger.indexed (lt_of_lt_of_le some (forget c))
      show (s.blockIndex.erase (s.blocks b).id).lookup ((s.setBlock b _).blocks c).id = _
      rw [others differ, AList.lookup_erase_ne, inIndex]
      intro same
      rw [same, found] at inIndex
      exact differ (Option.some.inj inIndex).symm
    · intro hash c inside
      show 0 < ((s.setBlock b _).blocks c).counter
      rw [others (erased inside).1]
      exact ledger.positive (erased inside).2
    · intro hash c inside
      show _ ≤ ((s.setBlock b _).blocks c).counter
      rw [others (erased inside).1]
      have := ledger.covered (erased inside).2
      have := forget c
      omega
    · intro hash c inside
      show ((s.setBlock b _).blocks c).counter < 2 ^ 31
      rw [others (erased inside).1]
      exact ledger.counterFits (erased inside).2
    · intro c member
      have differ : c ≠ b := fun same => placed (same ▸ member)
      exact (List.mem_cons.mp (removed.subset (ledger.waiting member))).resolve_left differ
    · intro c member
      have differ : c ≠ b := fun same => placed (same ▸ member)
      show ((s.setBlock b _).blocks c).size = 4096
      rw [others differ]
      exact ledger.blockSize member
    · classical
      have split : (s.placedBlocks unplaced).Perm
          (b :: ({ s with blockIndex := s.blockIndex.erase (s.blocks b).id } :
            Store).placedBlocks unplaced) := by
        refine (removed.filter _).trans (List.Perm.of_eq ?_)
        rw [List.filter_cons_of_pos (by simpa using placed)]
        rfl
      refine ledger.tiles.of_perm ?_
      refine List.Perm.trans ((split.map _).append_right transit) ?_
      rw [List.map_cons, List.cons_append]
      refine List.perm_middle.symm.trans (List.Perm.of_eq ?_)
      refine congrArg (· ++ _) (List.map_congr_left fun c member => ?_)
      obtain ⟨hash, inside⟩ := Store.mem_liveBlocks.mp (Store.mem_placedBlocks.mp member).1
      show (s.blocks c).block_offset = ((s.setBlock b _).blocks c).block_offset
      rw [others (erased inside).1]
  · have result : Codededup.lowerCounter b k s =
        s.setBlock b { s.blocks b with counter := (s.blocks b).counter - k } := by
      unfold Codededup.lowerCounter
      rw [value]
      simp only [zero, if_false]
    rw [if_neg zero, result]
    refine ledger.setBlock _ rfl rfl rfl ?_ ?_ ?_
    · exact fun {c} some => ledger.indexed (lt_of_lt_of_le some (forget c))
    · exact fun c _ => forget c
    · intro _ _
      show 0 < (s.blocks b).counter - (k : ℤ) ∧ (refs' b : ℤ) ≤ (s.blocks b).counter - k ∧
        (s.blocks b).counter - (k : ℤ) < 2 ^ 31
      have positive := ledger.positive found
      exact ⟨by omega, by omega, by omega⟩

/-- The same for a block that owns an offset. -/
theorem lowerCounter (ledger : Ledger refs unplaced transit s) {k : ℕ}
    (found : s.blockIndex.lookup (s.blocks b).id = some b) (placed : b ∉ unplaced)
    (fewer : ∀ c, refs' c + (if c = b then k else 0) ≤ refs c) :
    Ledger refs' unplaced
      (if ((lowerCounter b k s).blocks b).counter = 0 then (s.blocks b).block_offset :: transit
        else transit)
      (lowerCounter b k s) :=
  ledger.lowerCounter_of found (fun _ => placed) fewer

/-- The order of the offsets in transit does not matter. -/
theorem transit_perm {transit' : List ℤ} (ledger : Ledger refs unplaced transit s)
    (perm : transit.Perm transit') : Ledger refs unplaced transit' s where
  blockId := ledger.blockId
  fresh := ledger.fresh
  indexed := ledger.indexed
  positive := ledger.positive
  covered := ledger.covered
  counterFits := ledger.counterFits
  waiting := ledger.waiting
  blockSize := ledger.blockSize
  tiles := ledger.tiles.of_perm (perm.append_left _)

/-- An offset in transit reaches the free list. -/
theorem pushFree (ledger : Ledger refs unplaced ((s.blocks b).block_offset :: transit) s) :
    Ledger refs unplaced transit (pushFree b s) where
  blockId := ledger.blockId
  fresh := ledger.fresh
  indexed := ledger.indexed
  positive := ledger.positive
  covered := ledger.covered
  counterFits := ledger.counterFits
  waiting := ledger.waiting
  blockSize := ledger.blockSize
  tiles := (ledger.tiles.of_perm List.perm_middle).release

end Ledger

end ProjetoTSO.Codededup
