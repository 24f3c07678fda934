import ProjetoTSO.Codededup.Sizes

/-!
# What an append leaves behind

An append that meets no failing system call, described as a function of the store it started
from: which blocks it looks up, which offsets it hands to the blocks it creates, and which
page each of them holds afterwards.  Counters may be what they like.

Where a block lies matters to no later lookup: stores that are `Alike` differ in the places
of their blocks, and looking up the same pages in them yields the same blocks.
-/

namespace ProjetoTSO.Codededup

open CInt ByteStream Arena

/-! ## Stores that differ in the places of their blocks -/

/-- A block, wherever it lies. -/
def Blockmeta.anywhere (block : Blockmeta) : Blockmeta := { block with block_offset := 0 }

/-- The same blocks under the same hashes, wherever they lie. -/
structure Alike (s t : Store) : Prop where
  blockIndex : t.blockIndex = s.blockIndex
  nextBlock : t.nextBlock = s.nextBlock
  blocks : ∀ b, (t.blocks b).anywhere = (s.blocks b).anywhere

namespace Alike

variable {s t u : Store}

theorem refl (s : Store) : Alike s s := ⟨rfl, rfl, fun _ => rfl⟩

theorem symm (alike : Alike s t) : Alike t s :=
  ⟨alike.blockIndex.symm, alike.nextBlock.symm, fun b => (alike.blocks b).symm⟩

theorem trans (first : Alike s t) (second : Alike t u) : Alike s u :=
  ⟨second.blockIndex.trans first.blockIndex, second.nextBlock.trans first.nextBlock,
    fun b => (second.blocks b).trans (first.blocks b)⟩

theorem of_eq (blockIndex : t.blockIndex = s.blockIndex) (nextBlock : t.nextBlock = s.nextBlock)
    (blocks : t.blocks = s.blocks) : Alike s t :=
  ⟨blockIndex, nextBlock, fun b => by rw [blocks]⟩

theorem id (alike : Alike s t) (b : BlockRef) : (t.blocks b).id = (s.blocks b).id :=
  have same : (t.blocks b).anywhere.id = (s.blocks b).anywhere.id := by rw [alike.blocks]
  same

theorem counter (alike : Alike s t) (b : BlockRef) : (t.blocks b).counter = (s.blocks b).counter :=
  have same : (t.blocks b).anywhere.counter = (s.blocks b).anywhere.counter := by rw [alike.blocks]
  same

theorem size (alike : Alike s t) (b : BlockRef) : (t.blocks b).size = (s.blocks b).size :=
  have same : (t.blocks b).anywhere.size = (s.blocks b).anywhere.size := by rw [alike.blocks]
  same

theorem raiseCounter (alike : Alike s t) (b : BlockRef) :
    Alike (raiseCounter b s) (raiseCounter b t) := by
  refine ⟨alike.blockIndex, alike.nextBlock, fun c => ?_⟩
  rcases eq_or_ne c b with rfl | differ
  · have same := alike.blocks c
    rw [Codededup.raiseCounter, Codededup.raiseCounter, Store.setBlock_blocks_self,
      Store.setBlock_blocks_self, alike.counter]
    exact congrArg (fun block : Blockmeta =>
      { block with counter := int32 ((s.blocks c).counter + 1) }) same
  · rw [Codededup.raiseCounter, Codededup.raiseCounter, Store.setBlock_blocks_ne s _ differ,
      Store.setBlock_blocks_ne t _ differ]
    exact alike.blocks c

theorem createBlock (alike : Alike s t) (hash : BlockId) :
    Alike (createBlock hash s) (createBlock hash t) := by
  have next := alike.nextBlock
  refine ⟨?_, congrArg (· + 1) next, fun c => ?_⟩
  · show t.blockIndex.insert hash t.nextBlock = s.blockIndex.insert hash s.nextBlock
    rw [alike.blockIndex, next]
  · rcases eq_or_ne c s.nextBlock with rfl | differ
    · rw [Ledger.createBlock_blocks_self, ← next, Ledger.createBlock_blocks_self]
    · rw [Ledger.createBlock_blocks_ne s differ, Ledger.createBlock_blocks_ne t (next ▸ differ)]
      exact alike.blocks c

end Alike

/-- A lookup went on from some tables to others. -/
structure WriteTables.Extends (info created : List BlockRef) (before after : WriteTables) :
    Prop where
  info : after.newBlocksInfo = before.newBlocksInfo ++ info
  created : after.my_created_blocks = created ++ before.my_created_blocks

/-- **Alike stores yield the same blocks**, whatever was looked up before. -/
theorem foldl_lookupBlock_alike (hashes : List BlockId) {s t : Store} (alike : Alike s t)
    (tables tables' : WriteTables) :
    ∃ info created,
      tables.Extends info created (hashes.foldl lookupBlock (tables, s)).1 ∧
      tables'.Extends info created (hashes.foldl lookupBlock (tables', t)).1 ∧
      Alike (hashes.foldl lookupBlock (tables, s)).2 (hashes.foldl lookupBlock (tables', t)).2 := by
  induction hashes generalizing s t tables tables' with
  | nil => exact ⟨[], [], ⟨by simp, rfl⟩, ⟨by simp, rfl⟩, alike⟩
  | cons hash hashes ih =>
      have index : t.blockIndex.lookup hash = s.blockIndex.lookup hash := by
        rw [alike.blockIndex]
      simp only [List.foldl_cons, lookupBlock, index]
      cases s.blockIndex.lookup hash with
      | some b =>
          obtain ⟨info, created, first, second, after⟩ := ih (alike.raiseCounter b)
            (tables.note (raiseCounter b s) b) (tables'.note (raiseCounter b t) b)
          refine ⟨b :: info, created, ⟨?_, first.created⟩, ⟨?_, second.created⟩, after⟩
          · rw [first.info, WriteTables.note_newBlocksInfo, List.append_assoc]
            rfl
          · rw [second.info, WriteTables.note_newBlocksInfo, List.append_assoc]
            rfl
      | none =>
          have next := alike.nextBlock
          simp only [next]
          obtain ⟨info, created, first, second, after⟩ := ih (alike.createBlock hash)
            ({ tables with my_created_blocks := s.nextBlock :: tables.my_created_blocks }.note
              (createBlock hash s) s.nextBlock)
            ({ tables' with my_created_blocks := s.nextBlock :: tables'.my_created_blocks }.note
              (createBlock hash t) s.nextBlock)
          refine ⟨s.nextBlock :: info, created ++ [s.nextBlock], ⟨?_, ?_⟩, ⟨?_, ?_⟩, after⟩
          · rw [first.info, WriteTables.note_newBlocksInfo, List.append_assoc]
            rfl
          · rw [first.created, WriteTables.note_my_created_blocks, List.append_assoc]
            rfl
          · rw [second.info, WriteTables.note_newBlocksInfo, List.append_assoc]
            rfl
          · rw [second.created, WriteTables.note_my_created_blocks, List.append_assoc]
            rfl

/-! ## The lookup loop of a whole write -/

/-- The lookup loop, from the tables a write starts with. -/
def lookups (hashes : List BlockId) (s : Store) : WriteTables × Store :=
  hashes.foldl lookupBlock (WriteTables.empty, s)

section Lookups

variable {s t : Store} {hashes : List BlockId}

/-- The blocks of two lookups, one after the other, are those of one. -/
theorem lookups_append {first second : List BlockId} (alike : Alike (lookups first s).2 t) :
    (lookups (first ++ second) s).1.newBlocksInfo =
        (lookups first s).1.newBlocksInfo ++ (lookups second t).1.newBlocksInfo ∧
      Alike (lookups (first ++ second) s).2 (lookups second t).2 := by
  obtain ⟨info, created, before, after, same⟩ :=
    foldl_lookupBlock_alike second alike (lookups first s).1 WriteTables.empty
  have split : lookups (first ++ second) s =
      second.foldl lookupBlock ((lookups first s).1, (lookups first s).2) := by
    rw [lookups, List.foldl_append]
    rfl
  have noted : (lookups second t).1.newBlocksInfo = info := after.info
  rw [split, noted]
  exact ⟨before.info, same⟩

/-- Each hash is locked through the block indexed under it. -/
theorem lookups_locks (allocated : s.Allocated) (hashes : List BlockId) :
    Locks hashes (lookups hashes s).1 (lookups hashes s).2 := by
  refine ⟨fun hash => ?_, fun found => ?_⟩
  · induction hashes using List.reverseRecOn with
    | nil => simp [lookups, WriteTables.empty]
    | append_singleton seen last ih =>
        have resolved := foldl_lookupBlock_resolved allocated seen
        rw [lookups, List.foldl_append, List.foldl_cons, List.foldl_nil]
        rw [lookups] at ih
        generalize seen.foldl lookupBlock (WriteTables.empty, s) = state at ih resolved
        obtain ⟨tables, s'⟩ := state
        simp only [lookupBlock] at ih resolved ⊢
        have members : (hash ∈ seen ++ [last]) = (hash ∈ seen ∨ hash = last) := by
          rw [List.mem_append, List.mem_singleton]
        cases inIndex : s'.blockIndex.lookup last with
        | some b =>
            have name : ((raiseCounter b s').blocks b).id = last := by
              rw [raiseCounter, Store.setBlock_blocks_self]
              exact (resolved.indexed inIndex).2
            have index : (raiseCounter b s').blockIndex = s'.blockIndex := rfl
            simp only [WriteTables.note_lockedBlocks, name, ih, members, index]
            rcases eq_or_ne hash last with rfl | differ
            · by_cases earlier : hash ∈ seen
              · simp [earlier, inIndex]
              · simp [earlier, inIndex]
            · simp [differ]
        | none =>
            have unseen : last ∉ seen := by
              rw [← resolved.info]
              intro member
              obtain ⟨c, noted, rfl⟩ := List.mem_map.mp member
              rw [resolved.found c noted] at inIndex
              cases inIndex
            have name : ((createBlock last s').blocks s'.nextBlock).id = last := by
              rw [Ledger.createBlock_blocks_self]
            have index : (createBlock last s').blockIndex =
              s'.blockIndex.insert last s'.nextBlock := rfl
            simp only [WriteTables.note_lockedBlocks, name, ih, members, index]
            rcases eq_or_ne hash last with rfl | differ
            · simp [unseen]
            · simp [differ, AList.lookup_insert_ne differ]
  · exact ((foldl_lookupBlock_resolved allocated hashes).indexed found).2

/-- Looking blocks up leaves the blocks there were where they lie; the blocks it creates take
a page each. -/
theorem lookups_old (hashes : List BlockId) (s : Store) :
    s.nextBlock ≤ (lookups hashes s).2.nextBlock ∧
      (∀ b < s.nextBlock,
        ((lookups hashes s).2.blocks b).block_offset = (s.blocks b).block_offset) ∧
      ∀ b, s.nextBlock ≤ b → b < (lookups hashes s).2.nextBlock →
        ((lookups hashes s).2.blocks b).size = 4096 := by
  induction hashes using List.reverseRecOn with
  | nil => exact ⟨le_rfl, fun _ _ => rfl, fun b lower upper => absurd upper (not_lt.mpr lower)⟩
  | append_singleton seen last ih =>
      rw [lookups, List.foldl_append, List.foldl_cons, List.foldl_nil]
      rw [lookups] at ih
      generalize seen.foldl lookupBlock (WriteTables.empty, s) = state at ih
      obtain ⟨tables, s'⟩ := state
      obtain ⟨heap, old, sizes⟩ := ih
      simp only [lookupBlock] at heap old sizes ⊢
      cases s'.blockIndex.lookup last with
      | some b =>
          have fields : ∀ c, ((raiseCounter b s').blocks c).block_offset =
              (s'.blocks c).block_offset ∧
              ((raiseCounter b s').blocks c).size = (s'.blocks c).size := by
            intro c
            rcases eq_or_ne c b with rfl | differ
            · rw [raiseCounter, Store.setBlock_blocks_self]
              exact ⟨rfl, rfl⟩
            · rw [raiseCounter, Store.setBlock_blocks_ne s' _ differ]
              exact ⟨rfl, rfl⟩
          refine ⟨heap, fun c below => (fields c).1.trans (old c below), fun c lower upper => ?_⟩
          exact (fields c).2.trans (sizes c lower upper)
      | none =>
          refine ⟨heap.trans (Nat.le_succ _), fun c below => ?_, fun c lower upper => ?_⟩
          · show ((createBlock last s').blocks c).block_offset = _
            rw [Ledger.createBlock_blocks_ne s' (lt_of_lt_of_le below heap).ne]
            exact old c below
          · show ((createBlock last s').blocks c).size = _
            rcases Nat.lt_succ_iff_lt_or_eq.mp upper with before | rfl
            · rw [Ledger.createBlock_blocks_ne s' before.ne]
              exact sizes c lower before
            · rw [Ledger.createBlock_blocks_self]

end Lookups

/-! ## Handing out offsets -/

/-- What is free of the backing file. -/
def Store.space (s : Store) : Space := ⟨s.freeList, s.next_free_offset⟩

section Assign

variable {s : Store} {b : BlockRef}

theorem assignOffset_space (size : (s.blocks b).size = 4096) :
    (assignOffset s b).space = s.space.rest 4096 := by
  unfold assignOffset Store.space Space.rest
  rcases List.eq_nil_or_concat s.freeList with empty | ⟨rest, off, split⟩
  · simp [empty, size]
  · rw [List.concat_eq_append] at split
    simp [split]

theorem assignOffset_alike (s : Store) (b : BlockRef) : Alike s (assignOffset s b) := by
  refine ⟨Ledger.assignOffset_blockIndex s b, Ledger.assignOffset_nextBlock s b, fun c => ?_⟩
  rw [Ledger.assignOffset_blocks]
  rcases eq_or_ne c b with rfl | differ
  · rw [Function.update_self]
    rfl
  · rw [Function.update_of_ne differ]

/-- **The allocation loop** hands the next offsets to its blocks, in their order. -/
theorem foldl_assignOffset_draw (chosen : List BlockRef) (s : Store) (nodup : chosen.Nodup)
    (sizes : ∀ b ∈ chosen, (s.blocks b).size = 4096) :
    (chosen.map fun b => ((chosen.foldl assignOffset s).blocks b).block_offset) =
        s.space.draw 4096 chosen.length ∧
      (chosen.foldl assignOffset s).space = (Space.rest 4096)^[chosen.length] s.space ∧
      Alike s (chosen.foldl assignOffset s) ∧
      ∀ c ∉ chosen,
        ((chosen.foldl assignOffset s).blocks c).block_offset = (s.blocks c).block_offset := by
  induction chosen generalizing s with
  | nil => exact ⟨rfl, rfl, .refl s, fun _ _ => rfl⟩
  | cons b chosen ih =>
      obtain ⟨apart, nodup⟩ := List.nodup_cons.mp nodup
      have alike := assignOffset_alike s b
      obtain ⟨drawn, left, after, others⟩ := ih (assignOffset s b) nodup fun c member =>
        (alike.size c).trans (sizes c (List.mem_cons_of_mem _ member))
      have own : ((assignOffset s b).blocks b).block_offset = s.space.next := by
        rw [Ledger.assignOffset_blocks, Function.update_self]
        rfl
      rw [assignOffset_space (sizes b List.mem_cons_self)] at drawn left
      refine ⟨?_, left, alike.trans after, fun c outside => ?_⟩
      · rw [List.map_cons, List.foldl_cons, drawn, others b apart, own]
        rfl
      · rw [List.mem_cons, not_or] at outside
        rw [List.foldl_cons, others c outside.2, Ledger.assignOffset_blocks,
          Function.update_of_ne outside.1]

end Assign

/-! ## Placing the blocks of a write -/

/-- The blocks created from `s` to `t`, in the order of their creation. -/
def bornBlocks (s t : Store) : List BlockRef :=
  List.range' s.nextBlock (t.nextBlock - s.nextBlock)

theorem mem_bornBlocks {s t : Store} {b : BlockRef} :
    b ∈ bornBlocks s t ↔ s.nextBlock ≤ b ∧ b < t.nextBlock := by
  have bounds : b ∈ bornBlocks s t ↔
      s.nextBlock ≤ b ∧ b < s.nextBlock + (t.nextBlock - s.nextBlock) := List.mem_range'_1
  have reach : ∀ m n k : ℕ, m ≤ k ∧ k < m + (n - m) ↔ m ≤ k ∧ k < n := by omega
  exact bounds.trans (reach _ _ _)

/-- `t` is `s` with the blocks of some hashes looked up and placed. -/
structure BlocksPlaced (hashes : List BlockId) (s t : Store) : Prop where
  alike : Alike (lookups hashes s).2 t
  heap : s.nextBlock ≤ t.nextBlock
  drawn : ∃ order : List BlockRef, order.Perm (bornBlocks s t) ∧
    (order.map fun b => (t.blocks b).block_offset) = s.space.draw 4096 (bornBlocks s t).length
  space : t.space = (Space.rest 4096)^[(bornBlocks s t).length] s.space
  old : ∀ b < s.nextBlock, (t.blocks b).block_offset = (s.blocks b).block_offset

/-- The blocks that get an offset are the created ones. -/
theorem created_chosen {s : Store} (allocated : s.Allocated) (hashes : List BlockId) :
    ((blocksToLock (lookups hashes s).1 (lookups hashes s).2).filter
      (· ∈ (lookups hashes s).1.my_created_blocks)).Perm (bornBlocks s (lookups hashes s).2) := by
  have resolved : Resolved s hashes (lookups hashes s).1 (lookups hashes s).2 :=
    foldl_lookupBlock_resolved allocated hashes
  have locks := lookups_locks allocated hashes
  refine (List.perm_ext_iff_of_nodup ((blocksToLock_nodup locks).filter _)
    List.nodup_range').mpr fun b => ?_
  have born : b ∈ bornBlocks s (lookups hashes s).2 ↔
      b ∈ (lookups hashes s).1.my_created_blocks := mem_bornBlocks.trans (resolved.created b).symm
  rw [List.mem_filter, decide_eq_true_iff]
  refine (and_iff_right_of_imp fun mine => ?_).trans born.symm
  have noted := resolved.noted b mine
  rw [mem_blocksToLock locks]
  refine ⟨resolved.found b noted, ?_⟩
  have name := List.mem_map_of_mem (f := fun b => ((lookups hashes s).2.blocks b).id) noted
  rwa [resolved.info] at name

/-- **The allocation phase, whatever the counters.** -/
theorem placeBlocks_placed {s : Store} (allocated : s.Allocated) (hashes : List BlockId) :
    BlocksPlaced hashes s (placeBlocks hashes s).2 := by
  obtain ⟨heap, old, sizes⟩ := lookups_old hashes s
  have outside := (foldl_lookupBlock_resolved allocated hashes).outside
  have space : (lookups hashes s).2.space = s.space := by
    rw [Store.space, Store.space]
    exact congrArg₂ Space.mk outside.freeList outside.next_free_offset
  have chosen := created_chosen allocated hashes
  have size : ∀ b ∈ (blocksToLock (lookups hashes s).1 (lookups hashes s).2).filter
      (· ∈ (lookups hashes s).1.my_created_blocks),
      ((lookups hashes s).2.blocks b).size = 4096 := fun b member =>
    have range := mem_bornBlocks.mp (chosen.subset member)
    sizes b range.1 range.2
  have result : (placeBlocks hashes s).2 =
      ((blocksToLock (lookups hashes s).1 (lookups hashes s).2).filter
        (· ∈ (lookups hashes s).1.my_created_blocks)).foldl assignOffset (lookups hashes s).2 := rfl
  obtain ⟨drawn, left, alike, others⟩ := foldl_assignOffset_draw _ (lookups hashes s).2
    (chosen.nodup_iff.mpr List.nodup_range') size
  rw [← result] at drawn left alike others
  rw [space, chosen.length_eq] at drawn left
  have born : bornBlocks s (placeBlocks hashes s).2 = bornBlocks s (lookups hashes s).2 := by
    rw [bornBlocks, bornBlocks, alike.nextBlock]
  refine ⟨alike, alike.nextBlock ▸ heap, ⟨_, born ▸ chosen, ?_⟩, ?_, fun b below => ?_⟩
  · rw [born]
    exact drawn
  · rw [born]
    exact left
  · rw [others b fun member => ?_, old b below]
    exact absurd (mem_bornBlocks.mp (chosen.subset member)).1 (not_le.mpr below)

end ProjetoTSO.Codededup
