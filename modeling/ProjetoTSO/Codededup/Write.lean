import ProjetoTSO.Codededup.Session
import ProjetoTSO.Codededup.Ledger

/-!
# `xmp_write`, phase by phase

A write finds its file, takes a reference to the block of each page, gives the
blocks it created their offsets, and only then writes them and appends them to
the file.  Each phase has one theorem that says what it leaves behind; the
references it has taken and not yet appended are counted beside those of the
files.
-/

namespace ProjetoTSO.Codededup

open CInt

/-! ## The file index -/

/-- Files are indexed under their own paths and were created. -/
structure Store.Filed (s : Store) : Prop where
  fileId : ∀ {path f}, s.fileIndex.lookup path = some f → (s.files f).id = path
  fresh : ∀ {path f}, s.fileIndex.lookup path = some f → f < s.nextFile

theorem Store.Filed.path_eq {s : Store} (filed : s.Filed) {path other : Path} {f : FileRef}
    (found : s.fileIndex.lookup path = some f) (found' : s.fileIndex.lookup other = some f) :
    other = path := by
  rw [← filed.fileId found, ← filed.fileId found']

/-- Assignment to one file shows at its own path only. -/
theorem Store.Filed.listAt_setFile {s : Store} (filed : s.Filed) {path : Path} {f : FileRef}
    (found : s.fileIndex.lookup path = some f) (file : Filemeta) (other : Path) :
    (s.setFile f file).listAt other = if other = path then file.blockList else s.listAt other := by
  by_cases same : other = path
  · subst same
    rw [if_pos rfl, Store.listAt_of_lookup (s := s.setFile f file) found,
      Store.setFile_files_self]
  · rw [if_neg same]
    cases entry : s.fileIndex.lookup other with
    | none => rw [Store.listAt_of_none entry, Store.listAt_of_none (s := s.setFile f file) entry]
    | some g =>
        have differ : g ≠ f := fun equal => same (filed.path_eq found (equal ▸ entry))
        rw [Store.listAt_of_lookup entry, Store.listAt_of_lookup (s := s.setFile f file) entry,
          Store.setFile_files_ne s file differ]

theorem Store.Filed.sizeAt_setFile {s : Store} (filed : s.Filed) {path : Path} {f : FileRef}
    (found : s.fileIndex.lookup path = some f) (file : Filemeta) (other : Path) :
    (s.setFile f file).sizeAt other = if other = path then file.logicalSize else s.sizeAt other := by
  by_cases same : other = path
  · subst same
    rw [if_pos rfl, Store.sizeAt, Store.setFile_fileIndex, found]
    simp only [Store.setFile_files_self]
  · rw [if_neg same, Store.sizeAt, Store.sizeAt, Store.setFile_fileIndex]
    cases entry : s.fileIndex.lookup other with
    | none => rfl
    | some g =>
        have differ : g ≠ f := fun equal => same (filed.path_eq found (equal ▸ entry))
        simp only [Store.setFile_files_ne s file differ]

theorem Store.Filed.setFile {s : Store} (filed : s.Filed) {f : FileRef} {file : Filemeta}
    (sameId : file.id = (s.files f).id) : (s.setFile f file).Filed where
  fileId {path g} found := by
    by_cases same : g = f
    · subst same
      rw [Store.setFile_files_self, sameId]
      exact filed.fileId found
    · rw [Store.setFile_files_ne s file same]
      exact filed.fileId found
  fresh := filed.fresh

theorem Store.Filed.congr {s t : Store} (filed : s.Filed) (fileIndex : t.fileIndex = s.fileIndex)
    (files : t.files = s.files) (nextFile : t.nextFile = s.nextFile) : t.Filed where
  fileId := by rw [fileIndex, files]; exact filed.fileId
  fresh := by rw [fileIndex, nextFile]; exact filed.fresh

theorem Store.listAt_congr {s t : Store} (fileIndex : t.fileIndex = s.fileIndex)
    (files : t.files = s.files) (path : Path) : t.listAt path = s.listAt path := by
  unfold Store.listAt
  rw [fileIndex, files]

theorem Store.sizeAt_congr {s t : Store} (fileIndex : t.fileIndex = s.fileIndex)
    (files : t.files = s.files) (path : Path) : t.sizeAt path = s.sizeAt path := by
  unfold Store.sizeAt
  rw [fileIndex, files]

/-! ## Finding the file -/

/-- The write works on the file at its path; if it had to be created, it is
empty. -/
structure FoundFile (path : Path) (s : Store) (f : FileRef) (s' : Store) : Prop where
  lookup : s'.fileIndex.lookup path = some f
  outside : OutsideFiles s s'
  filed : s'.Filed
  listAt : ∀ p, s'.listAt p = s.listAt p
  sizeAt : ∀ p, s'.sizeAt p = s.sizeAt p
  logicalSize : (s'.files f).logicalSize = s.sizeAt path

theorem createFile_listAt {s : Store} (filed : s.Filed) {path : Path}
    (absent : s.fileIndex.lookup path = none) (p : Path) :
    (createFile path s).listAt p = s.listAt p := by
  by_cases same : p = path
  · subst same
    rw [Store.listAt_of_none absent, Store.listAt_of_lookup (f := s.nextFile)]
    · simp [createFile, Filemeta.zero]
    · exact AList.lookup_insert _
  · have index : (createFile path s).fileIndex.lookup p = s.fileIndex.lookup p :=
      AList.lookup_insert_ne same
    cases entry : s.fileIndex.lookup p with
    | none => rw [Store.listAt_of_none entry, Store.listAt_of_none (index.trans entry)]
    | some g =>
        rw [Store.listAt_of_lookup entry, Store.listAt_of_lookup (index.trans entry)]
        simp only [createFile, Function.update_of_ne (filed.fresh entry).ne]

theorem createFile_sizeAt {s : Store} (filed : s.Filed) {path : Path}
    (absent : s.fileIndex.lookup path = none) (p : Path) :
    (createFile path s).sizeAt p = s.sizeAt p := by
  unfold Store.sizeAt
  by_cases same : p = path
  · subst same
    have index : (createFile p s).fileIndex.lookup p = some s.nextFile := AList.lookup_insert _
    rw [index, absent]
    simp [createFile, Filemeta.zero]
  · have index : (createFile path s).fileIndex.lookup p = s.fileIndex.lookup p :=
      AList.lookup_insert_ne same
    rw [index]
    cases entry : s.fileIndex.lookup p with
    | none => rfl
    | some g => simp only [createFile, Function.update_of_ne (filed.fresh entry).ne]

theorem createFile_filed {s : Store} (filed : s.Filed) (path : Path) :
    (createFile path s).Filed where
  fileId {p g} found := by
    by_cases same : p = path
    · subst same
      obtain rfl : s.nextFile = g := Option.some.inj ((AList.lookup_insert _).symm.trans found)
      simp [createFile]
    · have entry : s.fileIndex.lookup p = some g := (AList.lookup_insert_ne same).symm.trans found
      simp only [createFile, Function.update_of_ne (filed.fresh entry).ne]
      exact filed.fileId entry
  fresh {p g} found := by
    by_cases same : p = path
    · subst same
      obtain rfl : s.nextFile = g := Option.some.inj ((AList.lookup_insert _).symm.trans found)
      exact Nat.lt_succ_self _
    · have entry : s.fileIndex.lookup p = some g := (AList.lookup_insert_ne same).symm.trans found
      exact Nat.lt_succ_of_lt (filed.fresh entry)

theorem findFile_found {s : Store} (filed : s.Filed) (path : Path) :
    FoundFile path s (findFile path s).1 (findFile path s).2 := by
  unfold findFile
  cases entry : s.fileIndex.lookup path with
  | some f =>
      refine ⟨entry, .refl s, filed, fun _ => rfl, fun _ => rfl, ?_⟩
      simp [Store.sizeAt, entry]
  | none =>
      have index : (createFile path s).fileIndex.lookup path = some s.nextFile :=
        AList.lookup_insert _
      refine ⟨index, ⟨rfl, rfl, rfl, rfl, rfl, rfl, rfl⟩, createFile_filed filed path,
        createFile_listAt filed entry, createFile_sizeAt filed entry, ?_⟩
      rw [← createFile_sizeAt filed entry path]
      simp [Store.sizeAt, index]

/-! ## Looking the blocks up -/

section Note

variable (tables : WriteTables) (s : Store) (b : BlockRef)

@[simp] theorem WriteTables.note_newBlocksInfo :
    (tables.note s b).newBlocksInfo = tables.newBlocksInfo ++ [b] := rfl

@[simp] theorem WriteTables.note_my_created_blocks :
    (tables.note s b).my_created_blocks = tables.my_created_blocks := rfl

/-- A hash is locked through the first block noted under it. -/
theorem WriteTables.note_lockedBlocks (hash : BlockId) :
    (tables.note s b).lockedBlocks.lookup hash =
      if hash = (s.blocks b).id then some ((tables.lockedBlocks.lookup hash).getD b)
      else tables.lockedBlocks.lookup hash := by
  unfold WriteTables.note
  cases held : tables.lockedBlocks.lookup (s.blocks b).id with
  | some c =>
      by_cases same : hash = (s.blocks b).id
      · subst same
        simp only [held, if_true, Option.getD_some]
      · simp only [same, if_false]
  | none =>
      by_cases same : hash = (s.blocks b).id
      · subst same
        simp only [held, if_true, Option.getD_none, AList.lookup_insert]
      · simp only [same, if_false, AList.lookup_insert_ne same]

end Note

/-- What the lookup loop, started in `s₀`, has done once it has looked at the
hashes in `seen`. -/
structure LookedUp (s₀ : Store) (seen : List BlockId) (tables : WriteTables) (s : Store) :
    Prop where
  outside : OutsideBlocks s₀ s
  kept : ∀ {hash b}, s₀.blockIndex.lookup hash = some b → s.blockIndex.lookup hash = some b
  born : ∀ {hash b}, s.blockIndex.lookup hash = some b →
    s₀.blockIndex.lookup hash = some b ∨ hash ∈ seen ∧ b ∈ tables.my_created_blocks
  created : ∀ b ∈ tables.my_created_blocks,
    s₀.nextBlock ≤ b ∧ s₀.blockIndex.lookup (s.blocks b).id = none
  createdNodup : tables.my_created_blocks.Nodup
  old : ∀ b < s₀.nextBlock, (s.blocks b).id = (s₀.blocks b).id ∧
    (s.blocks b).block_offset = (s₀.blocks b).block_offset
  heap : s₀.nextBlock ≤ s.nextBlock
  info : tables.newBlocksInfo.map (fun b => (s.blocks b).id) = seen
  counter : ∀ {hash b}, s.blockIndex.lookup hash = some b →
    (s.blocks b).counter = s₀.counterOf hash + seen.count hash
  locked : ∀ hash, tables.lockedBlocks.lookup hash =
    if hash ∈ seen then s.blockIndex.lookup hash else none
  ledger : Ledger (fun c => s₀.references c + tables.newBlocksInfo.count c)
    {b | b ∈ tables.my_created_blocks} [] s

namespace LookedUp

variable {s₀ s : Store} {seen : List BlockId} {tables : WriteTables} {hash : BlockId} {b : BlockRef}

/-- Before the loop. -/
theorem start (ledger : Ledger s₀.references ∅ [] s₀) : LookedUp s₀ [] WriteTables.empty s₀ where
  outside := .refl s₀
  kept found := found
  born found := Or.inl found
  created b member := absurd member List.not_mem_nil
  createdNodup := List.nodup_nil
  old b _ := ⟨rfl, rfl⟩
  heap := le_rfl
  info := rfl
  counter found := by simp [Store.counterOf_of_lookup found]
  locked hash := by simp [WriteTables.empty]
  ledger := by
    have none_ : {b | b ∈ WriteTables.empty.my_created_blocks} = (∅ : Set BlockRef) := by
      ext b
      simp [WriteTables.empty]
    rw [none_]
    exact ledger.mono fun c => by simp [WriteTables.empty]

/-- The block of every page is the one indexed under the page's hash. -/
theorem indexed (looked : LookedUp s₀ seen tables s) (member : b ∈ tables.newBlocksInfo) :
    s.blockIndex.lookup (s.blocks b).id = some b :=
  looked.ledger.indexed (lt_of_lt_of_le (List.count_pos_iff.mpr member) (Nat.le_add_left _ _))

theorem seen_indexed (looked : LookedUp s₀ seen tables s) (member : hash ∈ seen) :
    ∃ b ∈ tables.newBlocksInfo, s.blockIndex.lookup hash = some b := by
  rw [← looked.info] at member
  obtain ⟨b, noted, rfl⟩ := List.mem_map.mp member
  exact ⟨b, noted, looked.indexed noted⟩

/-- An iteration that finds its block. -/
theorem found (looked : LookedUp s₀ seen tables s) (inIndex : s.blockIndex.lookup hash = some b)
    (room : s₀.counterOf hash + ((seen ++ [hash]).count hash : ℕ) < 2 ^ 31) :
    LookedUp s₀ (seen ++ [hash]) (tables.note (raiseCounter b s) b) (raiseCounter b s) := by
  have blockId : (s.blocks b).id = hash := looked.ledger.blockId inIndex
  have own : (s.blocks b).counter = s₀.counterOf hash + seen.count hash := looked.counter inIndex
  have count : (seen ++ [hash]).count hash = seen.count hash + 1 := by simp
  have positive := looked.ledger.positive inIndex
  have value : int32 ((s.blocks b).counter + 1) = (s.blocks b).counter + 1 :=
    int32_eq (by omega) (by omega)
  have fields : ∀ c, ((raiseCounter b s).blocks c).id = (s.blocks c).id ∧
      ((raiseCounter b s).blocks c).block_offset = (s.blocks c).block_offset := by
    intro c
    by_cases same : c = b
    · subst same
      rw [raiseCounter, Store.setBlock_blocks_self]
      exact ⟨rfl, rfl⟩
    · rw [raiseCounter, Store.setBlock_blocks_ne s _ same]
      exact ⟨rfl, rfl⟩
  constructor
  · exact looked.outside.trans ⟨rfl, rfl, rfl, rfl, rfl, rfl, rfl⟩
  · exact looked.kept
  · intro other c inside
    rcases looked.born inside with before | ⟨member, mine⟩
    · exact Or.inl before
    · exact Or.inr ⟨List.mem_append_left _ member, mine⟩
  · intro c member
    rw [(fields c).1]
    exact looked.created c member
  · exact looked.createdNodup
  · intro c below
    rw [(fields c).1, (fields c).2]
    exact looked.old c below
  · exact looked.heap
  · rw [WriteTables.note_newBlocksInfo, List.map_append]
    refine congrArg₂ (· ++ ·) ?_ ?_
    · rw [← looked.info]
      exact List.map_congr_left fun c _ => (fields c).1
    · simp [(fields b).1, blockId]
  · intro other c found
    have inside : s.blockIndex.lookup other = some c := found
    by_cases same : c = b
    · subst same
      have keyed : other = hash := (looked.ledger.blockId inside).symm.trans blockId
      rw [raiseCounter, Store.setBlock_blocks_self, keyed]
      show int32 ((s.blocks c).counter + 1) = _
      rw [value, own, count]
      push_cast
      ring
    · have differ : hash ≠ other := fun equal => by
        rw [← equal, inIndex] at inside
        exact same (Option.some.inj inside).symm
      rw [raiseCounter, Store.setBlock_blocks_ne s _ same, looked.counter inside,
        List.count_append, List.count_singleton]
      simp [differ]
  · intro other
    rw [WriteTables.note_lockedBlocks, (fields b).1, blockId, looked.locked]
    by_cases same : other = hash
    · subst same
      by_cases before : other ∈ seen
      · simp [before, inIndex, raiseCounter]
      · simp [before, inIndex, raiseCounter]
    · simp [same, raiseCounter]
  · refine looked.ledger.raiseCounter inIndex (by omega) fun c => ?_
    rw [WriteTables.note_newBlocksInfo, List.count_append, List.count_singleton, ← add_assoc]
    by_cases same : c = b
    · simp [same]
    · simp [same, Ne.symm same]

/-- An iteration that creates its block. -/
theorem absent (looked : LookedUp s₀ seen tables s) (notIndexed : s.blockIndex.lookup hash = none) :
    LookedUp s₀ (seen ++ [hash])
      ({ tables with my_created_blocks := s.nextBlock :: tables.my_created_blocks }.note
        (createBlock hash s) s.nextBlock) (createBlock hash s) := by
  have unseen : hash ∉ seen := fun member => by
    obtain ⟨b, -, inIndex⟩ := looked.seen_indexed member
    rw [notIndexed] at inIndex
    cases inIndex
  have before : s₀.blockIndex.lookup hash = none := by
    by_contra present
    obtain ⟨b, inIndex⟩ := Option.ne_none_iff_exists'.mp present
    rw [looked.kept inIndex] at notIndexed
    cases notIndexed
  have old : ∀ {other c}, s.blockIndex.lookup other = some c →
      (createBlock hash s).blocks c = s.blocks c := fun inside =>
    Ledger.createBlock_blocks_ne s (looked.ledger.fresh inside).ne
  constructor
  · exact looked.outside.trans ⟨rfl, rfl, rfl, rfl, rfl, rfl, rfl⟩
  · intro other c inside
    exact (Ledger.createBlock_lookup notIndexed).mpr (Or.inr (looked.kept inside))
  · intro other c inside
    rcases (Ledger.createBlock_lookup notIndexed).mp inside with ⟨rfl, rfl⟩ | inside
    · exact Or.inr ⟨by simp, by simp⟩
    · rcases looked.born inside with earlier | ⟨member, mine⟩
      · exact Or.inl earlier
      · exact Or.inr ⟨List.mem_append_left _ member, List.mem_cons_of_mem _ mine⟩
  · intro c member
    rcases List.mem_cons.mp member with rfl | mine
    · rw [Ledger.createBlock_blocks_self]
      exact ⟨looked.heap, before⟩
    · obtain ⟨other, inside⟩ := Store.mem_liveBlocks.mp (looked.ledger.waiting mine)
      rw [old inside]
      exact looked.created c mine
  · refine List.nodup_cons.mpr ⟨fun mine => ?_, looked.createdNodup⟩
    obtain ⟨other, inside⟩ := Store.mem_liveBlocks.mp (looked.ledger.waiting mine)
    exact lt_irrefl _ (looked.ledger.fresh inside)
  · intro c below
    rw [Ledger.createBlock_blocks_ne s (lt_of_lt_of_le below looked.heap).ne]
    exact looked.old c below
  · exact le_trans looked.heap (Nat.le_succ _)
  · rw [WriteTables.note_newBlocksInfo, List.map_append]
    refine congrArg₂ (· ++ ·) ?_ ?_
    · rw [← looked.info]
      refine List.map_congr_left fun c member => ?_
      rw [old (looked.indexed member)]
    · simp [Ledger.createBlock_blocks_self]
  · intro other c inside
    rcases (Ledger.createBlock_lookup notIndexed).mp inside with ⟨rfl, rfl⟩ | inside
    · rw [Ledger.createBlock_blocks_self, Store.counterOf_of_none before, List.count_append,
        List.count_eq_zero_of_not_mem unseen]
      simp
    · have differ : hash ≠ other := fun equal => by
        rw [← equal, notIndexed] at inside
        cases inside
      rw [old inside, looked.counter inside, List.count_append, List.count_singleton]
      simp [differ]
  · intro other
    rw [WriteTables.note_lockedBlocks, Ledger.createBlock_blocks_self]
    show (if other = hash then some ((tables.lockedBlocks.lookup other).getD s.nextBlock)
      else tables.lockedBlocks.lookup other) = _
    rw [looked.locked]
    by_cases same : other = hash
    · subst same
      simp [unseen, createBlock]
    · simp [same, createBlock, AList.lookup_insert_ne same]
  · have waiting : {b | b ∈ s.nextBlock :: tables.my_created_blocks} =
        insert s.nextBlock {b | b ∈ tables.my_created_blocks} := by
      ext c
      simp
    show Ledger _ {b | b ∈ s.nextBlock :: tables.my_created_blocks} [] _
    rw [waiting]
    refine looked.ledger.createBlock notIndexed fun c => ?_
    rw [WriteTables.note_newBlocksInfo, List.count_append, List.count_singleton, ← add_assoc]
    by_cases same : c = s.nextBlock
    · simp [same]
    · simp [same, Ne.symm same]

end LookedUp

/-- **The lookup loop.**  It takes one reference per page, to the block the index
holds under the page's hash, and creates the blocks the index did not hold. -/
theorem lookupBlocks {s : Store} (ledger : Ledger s.references ∅ [] s) {hashes : List BlockId}
    (room : s.HasRoom hashes) :
    LookedUp s hashes (hashes.foldl lookupBlock (WriteTables.empty, s)).1
      (hashes.foldl lookupBlock (WriteTables.empty, s)).2 := by
  induction hashes using List.reverseRecOn with
  | nil => exact LookedUp.start ledger
  | append_singleton seen hash ih =>
      have looked := ih fun other member => by
        have bound := room other (List.mem_append_left _ member)
        have fewer : seen.count other ≤ (seen ++ [hash]).count other := by simp
        omega
      rw [List.foldl_append, List.foldl_cons, List.foldl_nil]
      generalize seen.foldl lookupBlock (WriteTables.empty, s) = state at looked
      obtain ⟨tables, s'⟩ := state
      simp only [lookupBlock]
      cases inIndex : s'.blockIndex.lookup hash with
      | some b => exact looked.found inIndex (room hash (by simp))
      | none => exact looked.absent inIndex

/-! ## Placing the created blocks -/

/-- `t` differs from `s` in the offsets of the blocks in `touched`, the free list
and the tail only. -/
structure OffsetsOnly (touched : Set BlockRef) (s t : Store) : Prop where
  fileIndex : t.fileIndex = s.fileIndex
  files : t.files = s.files
  nextFile : t.nextFile = s.nextFile
  blockIndex : t.blockIndex = s.blockIndex
  nextBlock : t.nextBlock = s.nextBlock
  backend_fd : t.backend_fd = s.backend_fd
  sysdata : t.sysdata = s.sysdata
  id : ∀ c, (t.blocks c).id = (s.blocks c).id
  counter : ∀ c, (t.blocks c).counter = (s.blocks c).counter
  block_offset : ∀ c ∉ touched, (t.blocks c).block_offset = (s.blocks c).block_offset

theorem OffsetsOnly.refl (touched : Set BlockRef) (s : Store) : OffsetsOnly touched s s :=
  ⟨rfl, rfl, rfl, rfl, rfl, rfl, rfl, fun _ => rfl, fun _ => rfl, fun _ _ => rfl⟩

theorem OffsetsOnly.trans {touched : Set BlockRef} {s t u : Store}
    (first : OffsetsOnly touched s t) (second : OffsetsOnly touched t u) :
    OffsetsOnly touched s u :=
  ⟨second.fileIndex.trans first.fileIndex, second.files.trans first.files,
    second.nextFile.trans first.nextFile, second.blockIndex.trans first.blockIndex,
    second.nextBlock.trans first.nextBlock, second.backend_fd.trans first.backend_fd,
    second.sysdata.trans first.sysdata, fun c => (second.id c).trans (first.id c),
    fun c => (second.counter c).trans (first.counter c),
    fun c apart => (second.block_offset c apart).trans (first.block_offset c apart)⟩

theorem assignOffset_offsetsOnly {touched : Set BlockRef} (s : Store) {b : BlockRef}
    (member : b ∈ touched) : OffsetsOnly touched s (assignOffset s b) := by
  have fields : ∀ c, ((assignOffset s b).blocks c).id = (s.blocks c).id ∧
      ((assignOffset s b).blocks c).counter = (s.blocks c).counter := by
    intro c
    rw [Ledger.assignOffset_blocks]
    by_cases same : c = b
    · subst same
      rw [Function.update_self]
      exact ⟨rfl, rfl⟩
    · rw [Function.update_of_ne same]
      exact ⟨rfl, rfl⟩
  have offset : ∀ c ∉ touched,
      ((assignOffset s b).blocks c).block_offset = (s.blocks c).block_offset := by
    intro c apart
    have differ : c ≠ b := fun same => apart (same ▸ member)
    rw [Ledger.assignOffset_blocks, Function.update_of_ne differ]
  unfold assignOffset at fields offset ⊢
  cases last : s.freeList.getLast? with
  | none =>
      rw [last] at fields offset
      exact ⟨rfl, rfl, rfl, rfl, rfl, rfl, rfl, fun c => (fields c).1, fun c => (fields c).2, offset⟩
  | some off =>
      rw [last] at fields offset
      exact ⟨rfl, rfl, rfl, rfl, rfl, rfl, rfl, fun c => (fields c).1, fun c => (fields c).2, offset⟩

/-- The allocation loop assigns offsets to created blocks. -/
theorem assignOffsets_offsetsOnly (blocks_to_lock created : List BlockRef) (s : Store) :
    OffsetsOnly {b | b ∈ created} s (assignOffsets blocks_to_lock created s) := by
  suffices each : ∀ (chosen : List BlockRef) (s : Store), (∀ b ∈ chosen, b ∈ created) →
      OffsetsOnly {b | b ∈ created} s (chosen.foldl assignOffset s) from
    each _ s fun b member => by simpa using (List.mem_filter.mp member).2
  intro chosen
  induction chosen with
  | nil => exact fun s _ => .refl _ s
  | cons b chosen ih =>
      intro s mine
      have first := assignOffset_offsetsOnly s
        (show b ∈ {b | b ∈ created} from mine b List.mem_cons_self)
      exact first.trans (ih _ fun c member => mine c (List.mem_cons_of_mem _ member))

/-- The allocation loop places every block it meets. -/
theorem foldl_assignOffset {refs : BlockRef → ℕ} {unplaced : Set BlockRef} {transit : List ℤ}
    {s : Store} (ledger : Ledger refs unplaced transit s) {chosen : List BlockRef}
    (nodup : chosen.Nodup) (waiting : ∀ b ∈ chosen, b ∈ unplaced) :
    Ledger refs (unplaced \ {b | b ∈ chosen}) transit (chosen.foldl assignOffset s) ∧
      OffsetsOnly unplaced s (chosen.foldl assignOffset s) := by
  induction chosen using List.reverseRecOn with
  | nil =>
      refine ⟨?_, .refl _ _⟩
      have none_ : unplaced \ {b | b ∈ ([] : List BlockRef)} = unplaced := by
        ext b
        simp
      rw [none_]
      exact ledger
  | append_singleton chosen b ih =>
      rw [List.nodup_append] at nodup
      obtain ⟨init, -, apart⟩ := nodup
      obtain ⟨placed, frame⟩ := ih init fun c member => waiting c (List.mem_append_left _ member)
      have member : b ∈ unplaced := waiting b (by simp)
      have still : b ∈ unplaced \ {c | c ∈ chosen} :=
        ⟨member, fun inside => apart b inside b (by simp) rfl⟩
      have rest : unplaced \ {c | c ∈ chosen ++ [b]} = (unplaced \ {c | c ∈ chosen}) \ {b} := by
        ext c
        simp only [Set.mem_sdiff, Set.mem_ofPred_eq, List.mem_append, List.mem_singleton,
          Set.mem_singleton_iff]
        tauto
      rw [List.foldl_append, rest]
      exact ⟨placed.assignOffset still, frame.trans (assignOffset_offsetsOnly _ member)⟩

section BlocksToLock

variable {s₀ s : Store} {hashes : List BlockId} {tables : WriteTables}

/-- Each of the hashes is locked, through the block the index holds under it. -/
structure Locks (hashes : List BlockId) (tables : WriteTables) (s : Store) : Prop where
  locked : ∀ hash, tables.lockedBlocks.lookup hash =
    if hash ∈ hashes then s.blockIndex.lookup hash else none
  named : ∀ {hash b}, s.blockIndex.lookup hash = some b → (s.blocks b).id = hash

theorem LookedUp.locks (looked : LookedUp s₀ hashes tables s) : Locks hashes tables s :=
  ⟨looked.locked, looked.ledger.blockId⟩

/-- The blocks a write locks are the blocks of its pages. -/
theorem mem_blocksToLock (locks : Locks hashes tables s) {b : BlockRef} :
    b ∈ blocksToLock tables s ↔
      s.blockIndex.lookup (s.blocks b).id = some b ∧ (s.blocks b).id ∈ hashes := by
  rw [blocksToLock, (List.perm_insertionSort _ _).mem_iff, List.mem_map]
  constructor
  · rintro ⟨⟨hash, c⟩, member, rfl⟩
    have held := AList.mem_lookup_iff.mpr member
    rw [Option.mem_def, locks.locked] at held
    by_cases seen : hash ∈ hashes
    · rw [if_pos seen] at held
      have name := locks.named held
      exact ⟨name.symm ▸ held, name ▸ seen⟩
    · rw [if_neg seen] at held
      cases held
  · rintro ⟨inIndex, seen⟩
    refine ⟨⟨(s.blocks b).id, b⟩, AList.mem_lookup_iff.mp ?_, rfl⟩
    rw [Option.mem_def, locks.locked, if_pos seen, inIndex]

theorem blocksToLock_nodup (locks : Locks hashes tables s) : (blocksToLock tables s).Nodup := by
  rw [blocksToLock, (List.perm_insertionSort _ _).nodup_iff]
  have keys : (tables.lockedBlocks.entries.map fun entry => entry.2).map
      (fun b => (s.blocks b).id) = tables.lockedBlocks.keys := by
    rw [List.map_map]
    refine List.map_congr_left fun entry member => ?_
    have held := AList.mem_lookup_iff.mpr member
    rw [Option.mem_def, locks.locked] at held
    by_cases seen : entry.1 ∈ hashes
    · rw [if_pos seen] at held
      exact locks.named held
    · rw [if_neg seen] at held
      cases held
  exact List.Nodup.of_map _ (keys ▸ tables.lockedBlocks.keys_nodup)

/-- Every created block is among the locked ones. -/
theorem LookedUp.created_locked (looked : LookedUp s₀ hashes tables s) {b : BlockRef}
    (mine : b ∈ tables.my_created_blocks) : b ∈ blocksToLock tables s := by
  obtain ⟨hash, inside⟩ := Store.mem_liveBlocks.mp (looked.ledger.waiting mine)
  have name := looked.ledger.blockId inside
  rw [mem_blocksToLock looked.locks, name]
  refine ⟨inside, ?_⟩
  rcases looked.born inside with before | ⟨member, -⟩
  · have := (looked.created b mine).2
    rw [name, before] at this
    cases this
  · exact member

end BlocksToLock

/-- The blocks of a write, with their references taken and their offsets
assigned. -/
def placeBlocks (hashes : List BlockId) (s : Store) : WriteTables × Store :=
  let (tables, s) := hashes.foldl lookupBlock (WriteTables.empty, s)
  (tables, assignOffsets (blocksToLock tables s) tables.my_created_blocks s)

/-- What a write in `s₀` has done when it starts its I/O. -/
structure Prepared (s₀ : Store) (hashes : List BlockId) (tables : WriteTables) (s : Store) :
    Prop where
  fileIndex : s.fileIndex = s₀.fileIndex
  files : s.files = s₀.files
  nextFile : s.nextFile = s₀.nextFile
  backend_fd : s.backend_fd = s₀.backend_fd
  sysdata : s.sysdata = s₀.sysdata
  kept : ∀ {hash b}, s₀.blockIndex.lookup hash = some b → s.blockIndex.lookup hash = some b
  born : ∀ {hash b}, s.blockIndex.lookup hash = some b →
    s₀.blockIndex.lookup hash = some b ∨ hash ∈ hashes ∧ b ∈ tables.my_created_blocks
  created : ∀ b ∈ tables.my_created_blocks,
    s₀.nextBlock ≤ b ∧ s₀.blockIndex.lookup (s.blocks b).id = none ∧ b ∈ tables.newBlocksInfo
  createdNodup : tables.my_created_blocks.Nodup
  old : ∀ b < s₀.nextBlock, (s.blocks b).block_offset = (s₀.blocks b).block_offset
  heap : s₀.nextBlock ≤ s.nextBlock
  info : tables.newBlocksInfo.map (fun b => (s.blocks b).id) = hashes
  indexed : ∀ b ∈ tables.newBlocksInfo, s.blockIndex.lookup (s.blocks b).id = some b
  counter : ∀ {hash b}, s.blockIndex.lookup hash = some b →
    (s.blocks b).counter = s₀.counterOf hash + hashes.count hash
  ledger : Ledger (fun c => s₀.references c + tables.newBlocksInfo.count c) ∅ [] s

/-- **The allocation phase.**  Every block of the write owns an offset. -/
theorem placeBlocks_prepared {s : Store} (ledger : Ledger s.references ∅ [] s)
    {hashes : List BlockId} (room : s.HasRoom hashes) :
    Prepared s hashes (placeBlocks hashes s).1 (placeBlocks hashes s).2 := by
  have looked := lookupBlocks ledger room
  unfold placeBlocks
  generalize hashes.foldl lookupBlock (WriteTables.empty, s) = state at looked
  obtain ⟨tables, s'⟩ := state
  simp only at looked ⊢
  have nodup := (blocksToLock_nodup looked.locks).filter (· ∈ tables.my_created_blocks)
  obtain ⟨placed, frame⟩ := foldl_assignOffset looked.ledger nodup fun b member => by
    simpa using (List.mem_filter.mp member).2
  have everyOne : {b | b ∈ tables.my_created_blocks} \
      {b | b ∈ (blocksToLock tables s').filter (· ∈ tables.my_created_blocks)} = ∅ := by
    ext b
    simp only [Set.mem_sdiff, Set.mem_ofPred_eq, List.mem_filter, decide_eq_true_eq,
      Set.mem_empty_iff_false, iff_false, not_and]
    exact fun mine chosen => chosen (looked.created_locked mine) mine
  rw [everyOne] at placed
  show Prepared s hashes tables (assignOffsets _ _ _)
  rw [assignOffsets]
  generalize ((blocksToLock tables s').filter (· ∈ tables.my_created_blocks)).foldl
    assignOffset s' = t at placed frame
  have outside := looked.outside
  constructor
  · exact frame.fileIndex.trans outside.fileIndex
  · exact frame.files.trans outside.files
  · exact frame.nextFile.trans outside.nextFile
  · exact frame.backend_fd.trans outside.backend_fd
  · exact frame.sysdata.trans outside.sysdata
  · intro hash b inside
    rw [frame.blockIndex]
    exact looked.kept inside
  · intro hash b inside
    rw [frame.blockIndex] at inside
    exact looked.born inside
  · intro b mine
    rw [frame.id]
    refine ⟨(looked.created b mine).1, (looked.created b mine).2, ?_⟩
    obtain ⟨inIndex, member⟩ := (mem_blocksToLock looked.locks).mp (looked.created_locked mine)
    obtain ⟨c, noted, again⟩ := looked.seen_indexed member
    rw [inIndex] at again
    rwa [Option.some.inj again]
  · exact looked.createdNodup
  · intro b below
    rw [frame.block_offset b fun mine => absurd (looked.created b mine).1 (not_le.mpr below)]
    exact (looked.old b below).2
  · rw [frame.nextBlock]
    exact looked.heap
  · rw [← looked.info]
    exact List.map_congr_left fun c _ => frame.id c
  · intro b member
    rw [frame.blockIndex, frame.id]
    exact looked.indexed member
  · intro hash b inside
    rw [frame.blockIndex] at inside
    rw [frame.counter]
    exact looked.counter inside
  · exact placed

/-! ## The I/O loop -/

/-- `t` is `s` with blocks appended to file `f`; the backing file, and the file's
`realSize`, are another matter. -/
structure AppendedTo (f : FileRef) (added : List BlockRef) (s t : Store) : Prop where
  fileIndex : t.fileIndex = s.fileIndex
  blockIndex : t.blockIndex = s.blockIndex
  blocks : t.blocks = s.blocks
  nextFile : t.nextFile = s.nextFile
  nextBlock : t.nextBlock = s.nextBlock
  freeList : t.freeList = s.freeList
  backend_fd : t.backend_fd = s.backend_fd
  next_free_offset : t.next_free_offset = s.next_free_offset
  others : ∀ g, g ≠ f → t.files g = s.files g
  id : (t.files f).id = (s.files f).id
  logicalSize : (t.files f).logicalSize = (s.files f).logicalSize
  blockList : (t.files f).blockList = (s.files f).blockList ++ added

namespace AppendedTo

variable {f : FileRef} {path : Path} {added more : List BlockRef} {s t u : Store}

theorem refl (f : FileRef) (s : Store) : AppendedTo f [] s s :=
  ⟨rfl, rfl, rfl, rfl, rfl, rfl, rfl, rfl, fun _ _ => rfl, rfl, rfl, by simp⟩

theorem trans (first : AppendedTo f added s t) (second : AppendedTo f more t u) :
    AppendedTo f (added ++ more) s u :=
  ⟨second.fileIndex.trans first.fileIndex, second.blockIndex.trans first.blockIndex,
    second.blocks.trans first.blocks, second.nextFile.trans first.nextFile,
    second.nextBlock.trans first.nextBlock, second.freeList.trans first.freeList,
    second.backend_fd.trans first.backend_fd,
    second.next_free_offset.trans first.next_free_offset,
    fun g differ => (second.others g differ).trans (first.others g differ),
    second.id.trans first.id, second.logicalSize.trans first.logicalSize,
    by rw [second.blockList, first.blockList, List.append_assoc]⟩

theorem filed (appended : AppendedTo f added s t) (filed : s.Filed) : t.Filed where
  fileId {path g} found := by
    rw [appended.fileIndex] at found
    by_cases same : g = f
    · subst same
      rw [appended.id]
      exact filed.fileId found
    · rw [appended.others g same]
      exact filed.fileId found
  fresh {path g} found := by
    rw [appended.fileIndex] at found
    rw [appended.nextFile]
    exact filed.fresh found

/-- The blocks show at the path of the file and nowhere else. -/
theorem listAt (appended : AppendedTo f added s t) (filed : s.Filed)
    (found : s.fileIndex.lookup path = some f) (other : Path) :
    t.listAt other = if other = path then s.listAt path ++ added else s.listAt other := by
  have index : ∀ p, t.fileIndex.lookup p = s.fileIndex.lookup p := fun p => by
    rw [appended.fileIndex]
  by_cases same : other = path
  · subst same
    rw [if_pos rfl, Store.listAt_of_lookup ((index _).trans found), appended.blockList,
      Store.listAt_of_lookup found]
  · rw [if_neg same]
    cases entry : s.fileIndex.lookup other with
    | none => rw [Store.listAt_of_none entry, Store.listAt_of_none ((index _).trans entry)]
    | some g =>
        have differ : g ≠ f := fun equal => same (filed.path_eq found (equal ▸ entry))
        rw [Store.listAt_of_lookup entry, Store.listAt_of_lookup ((index _).trans entry),
          appended.others g differ]

theorem sizeAt (appended : AppendedTo f added s t) (path : Path) :
    t.sizeAt path = s.sizeAt path := by
  unfold Store.sizeAt
  rw [appended.fileIndex]
  cases s.fileIndex.lookup path with
  | none => rfl
  | some g =>
      by_cases same : g = f
      · subst same
        exact appended.logicalSize
      · simp only [appended.others g same]

/-- Appending turns references in flight into references of the file. -/
theorem references (appended : AppendedTo f added s t) (filed : s.Filed)
    (found : s.fileIndex.lookup path = some f) (c : BlockRef) :
    t.references c = s.references c + added.count c := by
  have change := Store.references_change (s := s) (t := t) path (fun other differ => by
    rw [appended.listAt filed found, if_neg differ]) c
  rw [appended.listAt filed found, if_pos rfl, List.count_append] at change
  omega

end AppendedTo

/-- An iteration appends its block, whatever the outcome of its `pwrite`. -/
theorem writeBlock_appended (f : FileRef) (out : PwriteOut) (entry : BlockRef × Page)
    (created : List BlockRef) (s : Store) :
    AppendedTo f [entry.1] s (writeBlock f out entry created s).2.2 := by
  have pwrite : ∀ file : Filemeta, file.id = (s.files f).id →
      file.logicalSize = (s.files f).logicalSize →
      file.blockList = (s.files f).blockList ++ [entry.1] →
      AppendedTo f [entry.1] s ((pwriteBlock out entry.1 entry.2 s).2.setFile f file) := by
    intro file sameId sameSize list
    cases out with
    | fail errno left =>
        refine ⟨rfl, rfl, rfl, rfl, rfl, rfl, rfl, rfl, ?_, ?_, ?_, ?_⟩
        · exact fun g differ => Store.setFile_files_ne _ file differ
        · rw [Store.setFile_files_self, sameId]
        · rw [Store.setFile_files_self, sameSize]
        · rw [Store.setFile_files_self, list]
    | done n =>
        refine ⟨rfl, rfl, rfl, rfl, rfl, rfl, rfl, rfl, ?_, ?_, ?_, ?_⟩
        · exact fun g differ => Store.setFile_files_ne _ file differ
        · rw [Store.setFile_files_self, sameId]
        · rw [Store.setFile_files_self, sameSize]
        · rw [Store.setFile_files_self, list]
  have plain : ∀ file : Filemeta, file.id = (s.files f).id →
      file.logicalSize = (s.files f).logicalSize →
      file.blockList = (s.files f).blockList ++ [entry.1] →
      AppendedTo f [entry.1] s (s.setFile f file) := by
    intro file sameId sameSize list
    refine ⟨rfl, rfl, rfl, rfl, rfl, rfl, rfl, rfl, ?_, ?_, ?_, ?_⟩
    · exact fun g differ => Store.setFile_files_ne _ file differ
    · rw [Store.setFile_files_self, sameId]
    · rw [Store.setFile_files_self, sameSize]
    · rw [Store.setFile_files_self, list]
  have files : (pwriteBlock out entry.1 entry.2 s).2.files = s.files := by
    cases out <;> rfl
  unfold writeBlock
  by_cases mine : entry.1 ∈ created
  · by_cases closed : s.backend_fd = -1
    · simp only [mine, closed, if_true]
      exact plain _ rfl rfl rfl
    · simp only [mine, closed, if_true, if_false]
      exact pwrite _ (by rw [files]) (by rw [files]) (by rw [files])
  · simp only [mine, if_false]
    exact plain _ rfl rfl rfl

/-- The loop appends the blocks of a prefix of its entries, all of them unless it
stops with an error. -/
theorem writeBlocks_appended (f : FileRef) (env : WriteEnv) (entries : List (BlockRef × Page)) :
    ∀ (k : ℕ) (created : List BlockRef) (s : Store), ∃ added,
      added <+: entries.map Prod.fst ∧
      AppendedTo f added s (writeBlocks f env k entries created s).2 ∧
      ((writeBlocks f env k entries created s).1 = 0 → added = entries.map Prod.fst) := by
  induction entries with
  | nil => exact fun k created s => ⟨[], List.prefix_rfl, .refl f s, fun _ => rfl⟩
  | cons entry entries ih =>
      intro k created s
      have first := writeBlock_appended f (env.pwrite k) entry created s
      rw [writeBlocks]
      generalize writeBlock f (env.pwrite k) entry created s = outcome at first
      obtain ⟨err, created', s'⟩ := outcome
      simp only at first ⊢
      by_cases failed : err ≠ 0
      · rw [if_pos failed]
        exact ⟨[entry.1], ⟨entries.map Prod.fst, rfl⟩, first, fun zero => absurd zero failed⟩
      · rw [if_neg failed]
        obtain ⟨added, isPrefix, rest, all⟩ := ih (k + 1) created' s'
        refine ⟨[entry.1] ++ added, ?_, first.trans rest, fun zero => ?_⟩
        · rw [List.map_cons]
          exact List.cons_prefix_cons.mpr ⟨rfl, isPrefix⟩
        · rw [all zero]
          rfl

/-- The loop ends with 0 or with a negative `errno`. -/
theorem writeBlocks_nonpos (f : FileRef) (env : WriteEnv) (entries : List (BlockRef × Page)) :
    ∀ (k : ℕ) (created : List BlockRef) (s : Store),
      (writeBlocks f env k entries created s).1 ≤ 0 := by
  have one : ∀ (out : PwriteOut) (entry : BlockRef × Page) (created : List BlockRef) (s : Store),
      (writeBlock f out entry created s).1 ≤ 0 := by
    intro out entry created s
    unfold writeBlock
    by_cases mine : entry.1 ∈ created
    · by_cases closed : s.backend_fd = -1
      · simp only [mine, closed, if_true]
        exact le_rfl
      · simp only [mine, closed, if_true, if_false]
        cases out with
        | fail errno left => exact neg_nonpos.mpr (Int.natCast_nonneg errno)
        | done n => exact le_rfl
    · simp only [mine, if_false]
      exact le_rfl
  induction entries with
  | nil => exact fun _ _ _ => le_rfl
  | cons entry entries ih =>
      intro k created s
      have first := one (env.pwrite k) entry created s
      rw [writeBlocks]
      generalize writeBlock f (env.pwrite k) entry created s = outcome at first ⊢
      obtain ⟨err, created', s'⟩ := outcome
      simp only at first ⊢
      split_ifs
      · exact first
      · exact ih _ _ _

/-! ## The whole append -/

/-- The I/O of a write whose blocks are placed: the error it ends with and the
store it leaves. -/
def writeOut (f : FileRef) (buf : List UInt8) (env : WriteEnv) (tables : WriteTables) (s : Store) :
    ℤ × Store :=
  if env.memalign = false then (-ENOMEM, s)
  else writeBlocks f env 0 (tables.newBlocksInfo.zip (bufferPages buf)) tables.my_created_blocks s

theorem writeOut_nonpos (f : FileRef) (buf : List UInt8) (env : WriteEnv) (tables : WriteTables)
    (s : Store) : (writeOut f buf env tables s).1 ≤ 0 := by
  have negative : -ENOMEM ≤ 0 := by decide
  unfold writeOut
  split_ifs
  · exact negative
  · exact writeBlocks_nonpos f env _ 0 _ s

/-- The I/O of a write appends, to its file only, the blocks it gets to: all of them if it
reports no error. -/
theorem writeOut_lists {f : FileRef} {buf : List UInt8} {env : WriteEnv} {tables : WriteTables}
    {s : Store} (length : tables.newBlocksInfo.length = (bufferPages buf).length) :
    ∃ added, added <+: tables.newBlocksInfo ∧ AppendedTo f added s (writeOut f buf env tables s).2 ∧
      ((writeOut f buf env tables s).1 = 0 → added = tables.newBlocksInfo) := by
  unfold writeOut
  by_cases failed : env.memalign = false
  · rw [if_pos failed]
    have nonzero : (-ENOMEM : ℤ) ≠ 0 := by decide
    exact ⟨[], List.nil_prefix, .refl f s, fun zero => absurd zero nonzero⟩
  · rw [if_neg failed]
    have loop := writeBlocks_appended f env (tables.newBlocksInfo.zip (bufferPages buf)) 0
      tables.my_created_blocks s
    rwa [List.map_fst_zip length.le] at loop

theorem appendBlocks_eq (SHA512 : Page → BlockId) (f : FileRef) (buf : List UInt8) (offset : ℤ)
    (env : WriteEnv) (s : Store) :
    appendBlocks SHA512 f buf offset env s =
      let placed := placeBlocks (blockHashes SHA512 buf) s
      let out := writeOut f buf env placed.1 placed.2
      (if out.1 ≠ 0 then out.1 else int32 buf.length, growFile f out.1 offset buf.length out.2) :=
  rfl

end ProjetoTSO.Codededup
