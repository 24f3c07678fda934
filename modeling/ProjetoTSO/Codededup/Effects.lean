import ProjetoTSO.Codededup.Read

/-!
# What a call does to the contents

A write that reports no error appends its buffer to the contents of its path, a
removal empties them, and nothing else shows: whatever blocks the files share, the
page of a listed block is never written again.  Blocks in `bad` hold something else
than their hash says; they spoil the pages found under their hash and nothing else.
-/

namespace ProjetoTSO.Codededup

open CInt ByteStream Transition Chunks

section Write

variable {SHA512 : Page → BlockId} {data : Set Page} {bad : Set BlockRef} {s t : Store}
variable {path : Path} {f : FileRef}

/-! ## The prepared write -/

/-- Placing the blocks of a write moves no page. -/
theorem Prepared.pageOf {hashes : List BlockId} {tables : WriteTables}
    (prepared : Prepared s hashes tables t) {b : BlockRef} (old : b < s.nextBlock) :
    t.pageOf b = s.pageOf b :=
  Store.pageOf_congr prepared.sysdata (prepared.old b old)

theorem Prepared.stored {hashes : List BlockId} {tables : WriteTables}
    (prepared : Prepared s hashes tables t) (accounted : Accounted s)
    (stored : Stored SHA512 data bad s) :
    Stored SHA512 data ({b | b ∈ tables.my_created_blocks} ∪ bad) t := by
  refine stored.transfer fun hash b found written => ?_
  have before := (prepared.born found).resolve_right fun mine => written (Or.inl mine.2)
  exact ⟨before, fun inBad => written (Or.inr inBad), prepared.pageOf (accounted.ledger.fresh before)⟩

/-- A listed block is not one the write created. -/
theorem Prepared.listed_old {hashes : List BlockId} {tables : WriteTables}
    (prepared : Prepared s hashes tables t) (accounted : Accounted s) {p : Path} {b : BlockRef}
    (listed : b ∈ s.listAt p) :
    b < s.nextBlock ∧ b ∈ t.liveBlocks ∧ b ∉ tables.my_created_blocks := by
  obtain ⟨g, entry, member⟩ := Store.mem_listAt.mp listed
  have inIndex := accounted.linked.listed entry b member
  have old := accounted.ledger.fresh inIndex
  refine ⟨old, Store.mem_liveBlocks.mpr ⟨_, prepared.kept inIndex⟩, fun mine => ?_⟩
  exact absurd (prepared.created b mine).1 (not_le.mpr old)

/-- The entries of the I/O loop pair each page with the block of its hash. -/
theorem Prepared.entries {buf : Bytes} {tables : WriteTables}
    (prepared : Prepared s (blockHashes SHA512 buf) tables t) {entry : BlockRef × Page}
    (member : entry ∈ tables.newBlocksInfo.zip (bufferPages buf)) :
    entry.2 ∈ bufferPages buf ∧ t.blockIndex.lookup (SHA512 entry.2) = some entry.1 := by
  obtain ⟨b, page⟩ := entry
  have noted := List.of_mem_zip member
  have digest : SHA512 page = (t.blocks b).id := by
    have info := prepared.info
    rw [blockHashes] at info
    obtain ⟨i, below, at_⟩ := List.getElem_of_mem member
    have left := congrArg (fun l => l[i]?) info
    rw [List.getElem_zip] at at_
    obtain ⟨rfl, rfl⟩ := Prod.mk.inj at_
    rw [List.length_zip] at below
    have first : i < tables.newBlocksInfo.length := lt_of_lt_of_le below (min_le_left _ _)
    have second : i < (bufferPages buf).length := lt_of_lt_of_le below (min_le_right _ _)
    simp only [List.getElem?_map, List.getElem?_eq_getElem first, List.getElem?_eq_getElem second,
      Option.map_some] at left
    exact (Option.some.inj left).symm
  refine ⟨noted.2, ?_⟩
  rw [digest]
  exact prepared.indexed b noted.1

/-! ## When no system call of the write fails -/

/-- The system calls of a write of these blocks succeed.  `pwrite` is called for
the first occurrence of a hash the index does not hold. -/
def Unfailing (s : Store) (hashes : List BlockId) (env : WriteEnv) : Prop :=
  env.memalign = true ∧ ∀ i hash, hashes[i]? = some hash → s.blockIndex.lookup hash = none →
    hash ∉ hashes.take i → env.pwrite i = .full

/-- The I/O loop ends without an error when the `pwrite` of each created block
succeeds. -/
theorem writeBlocks_noError {env : WriteEnv} (entries : List (BlockRef × Page)) :
    ∀ (k : ℕ) (created : List BlockRef) (s : Store), created.Nodup →
      (∀ i b page, entries[i]? = some (b, page) → b ∈ created →
        b ∉ (entries.take i).map Prod.fst → env.pwrite (k + i) = .full) →
      (writeBlocks f env k entries created s).1 = 0 := by
  induction entries with
  | nil => exact fun k created s _ _ => rfl
  | cons entry entries ih =>
      obtain ⟨b, page⟩ := entry
      intro k created s nodup succeeds
      have first : (writeBlock f (env.pwrite k) (b, page) created s).1 = 0 ∧
          ∀ c ∈ (writeBlock f (env.pwrite k) (b, page) created s).2.1, c ∈ created ∧ c ≠ b := by
        by_cases mine : b ∈ created
        · have full : env.pwrite k = .full := by simpa using succeeds 0 b page rfl mine (by simp)
          have remaining : ∀ c ∈ created.erase b, c ∈ created ∧ c ≠ b := fun c member =>
            (nodup.mem_erase_iff.mp member).symm
          unfold writeBlock
          rw [full]
          by_cases closed : s.backend_fd = -1
          · simp only [mine, closed, if_true]
            exact ⟨trivial, remaining⟩
          · simp only [mine, closed, if_true, if_false]
            exact ⟨rfl, remaining⟩
        · obtain ⟨noError, same, -⟩ := writeBlock_found (f := f) s (env.pwrite k) page mine
          rw [same]
          exact ⟨noError, fun c member => ⟨member, fun equal => mine (equal ▸ member)⟩⟩
      have sublist : (writeBlock f (env.pwrite k) (b, page) created s).2.1.Nodup := by
        unfold writeBlock
        by_cases mine : b ∈ created
        · simp only [mine, if_true]
          exact nodup.erase b
        · simp only [mine, if_false]
          exact nodup
      rw [writeBlocks]
      generalize writeBlock f (env.pwrite k) (b, page) created s = outcome at first sublist
      obtain ⟨err, created', s'⟩ := outcome
      simp only at first sublist ⊢
      rw [first.1]
      simp only [ne_eq, not_true_eq_false, if_false]
      refine ih (k + 1) created' s' sublist fun i c page' at_ member unseen => ?_
      have position : k + 1 + i = k + (i + 1) := by omega
      rw [position]
      refine succeeds (i + 1) c page' (by simpa using at_) (first.2 c member).1 ?_
      rw [List.take_succ_cons, List.map_cons, List.mem_cons, not_or]
      exact ⟨(first.2 c member).2, unseen⟩

theorem writeOut_noError {buf : Bytes} {tables : WriteTables} {env : WriteEnv}
    (prepared : Prepared s (blockHashes SHA512 buf) tables t)
    (unfailing : Unfailing s (blockHashes SHA512 buf) env) :
    (writeOut f buf env tables t).1 = 0 := by
  have granted : ¬ env.memalign = false := by simp [unfailing.1]
  rw [writeOut, if_neg granted]
  refine writeBlocks_noError _ 0 _ t prepared.createdNodup fun i b page at_ mine unseen => ?_
  rw [Nat.zero_add]
  have names : (tables.newBlocksInfo.zip (bufferPages buf)).map
      (fun entry => (t.blocks entry.1).id) = blockHashes SHA512 buf := by
    have firsts := zip_map_fst prepared (length_blockHashes buf)
    have info := prepared.info
    rw [← firsts, List.map_map] at info
    exact info
  refine unfailing.2 i (t.blocks b).id ?_ (prepared.created b mine).2.1 ?_
  · rw [← names, List.getElem?_map, at_]
    rfl
  · intro earlier
    rw [← names, ← List.map_take] at earlier
    obtain ⟨⟨c, page'⟩, member, same⟩ := List.mem_map.mp earlier
    have inZip := List.mem_of_mem_take member
    have indexedC := (prepared.entries inZip).2
    have nameC : (t.blocks c).id = SHA512 page' := prepared.ledger.blockId indexedC
    have indexedB := prepared.indexed b (prepared.created b mine).2.2
    simp only at same
    rw [← same, nameC, indexedC] at indexedB
    cases indexedB
    exact unseen (List.mem_map_of_mem member)

/-! ## A write that reports no error -/

/-- What a successful write leaves behind. -/
structure Extended (SHA512 : Page → BlockId) (data : Set Page) (bad : Set BlockRef) (path : Path)
    (buf : Bytes) (s t : Store) : Prop where
  stored : Stored SHA512 data bad t
  online : t.backend_fd ≠ -1
  contents : ∀ p, t.contents p = if p = path then s.contents p ++ buf else s.contents p
  length : ∀ p, (t.listAt p).length =
    if p = path then (s.listAt p).length + buf.length / 4096 else (s.listAt p).length
  sizeAt : ∀ p, t.sizeAt p = if p = path then s.sizeAt p + buf.length else s.sizeAt p
  heap : s.nextBlock ≤ t.nextBlock

theorem growFile_sizeAt (filed : s.Filed) (found : s.fileIndex.lookup path = some f) {blocks : ℕ}
    {size : ℕ} (sized : (s.files f).logicalSize = 4096 * blocks) (short : blocks < 2 ^ 31)
    (bound : size < 2 ^ 31) (p : Path) :
    (growFile f 0 (4096 * blocks) size s).sizeAt p =
      if p = path then s.sizeAt p + size else s.sizeAt p := by
  have own : s.sizeAt path = 4096 * blocks := by
    rw [← sized]
    simp [Store.sizeAt, found]
  have before : uint64 (4096 * (blocks : ℤ)) = 4096 * blocks := by
    have := uint64_natCast (n := 4096 * blocks) (by omega)
    push_cast at this
    exact this
  have after : uint64 (4096 * (blocks : ℤ) + size) = 4096 * blocks + size := by
    have := uint64_natCast (n := 4096 * blocks + size) (by omega)
    push_cast at this
    exact this
  unfold growFile
  simp only [sized, before, after, true_and]
  by_cases grows : 4096 * blocks < 4096 * blocks + size
  · rw [if_pos grows, filed.sizeAt_setFile found]
    by_cases same : p = path
    · subst same
      have value : int64 ((4096 * blocks + size : ℕ) : ℤ) = ((4096 * blocks + size : ℕ) : ℤ) :=
        int64_eq (by omega) (by omega)
      rw [if_pos rfl, if_pos rfl, own, value]
      push_cast
      rfl
    · rw [if_neg same, if_neg same]
  · have zero : size = 0 := by omega
    rw [if_neg grows, zero]
    by_cases same : p = path
    · simp [same]
    · simp [same]

/-- The pages of the created and of the found blocks, read off in order, are the
buffer. -/
theorem newBlocks_bytes {buf : Bytes} {tables : WriteTables} {u : Store}
    (prepared : Prepared s (blockHashes SHA512 buf) tables t) (whole : buf.length % 4096 = 0)
    (pages : ∀ entry ∈ tables.newBlocksInfo.zip (bufferPages buf), u.pageOf entry.1 = entry.2) :
    (tables.newBlocksInfo.flatMap fun b => (u.pageOf b).toList) = buf := by
  have length : tables.newBlocksInfo.length = (bufferPages buf).length := by
    have := congrArg List.length prepared.info
    rw [List.length_map, length_blockHashes] at this
    exact this
  calc (tables.newBlocksInfo.flatMap fun b => (u.pageOf b).toList)
      _ = (tables.newBlocksInfo.zip (bufferPages buf)).flatMap
            (fun entry => (u.pageOf entry.1).toList) := by
          rw [← List.flatMap_map Prod.fst (fun b => (u.pageOf b).toList),
            List.map_fst_zip length.le]
      _ = (tables.newBlocksInfo.zip (bufferPages buf)).flatMap (fun entry => entry.2.toList) :=
          List.flatMap_congr fun entry member => by rw [pages entry member]
      _ = (bufferPages buf).flatMap (fun page => page.toList) := by
          rw [← List.flatMap_map Prod.snd (fun page : Page => page.toList),
            List.map_snd_zip length.ge]
      _ = buf := bufferPages_flatMap whole

/-- **A write that reports no error** appends as many bytes as its buffer has to the
contents of its path, and leaves all other contents alone.  They are the bytes of the
buffer, unless a page was found under the hash of a bad block. -/
theorem appendBlocks_extended (injective : Set.InjOn SHA512 data) (accounted : Accounted s)
    (stored : Stored SHA512 data bad s) (online : s.backend_fd ≠ -1)
    (found : s.fileIndex.lookup path = some f) {buf : Bytes}
    (inData : ∀ page ∈ bufferPages buf, page ∈ data) (oldBad : ∀ b ∈ bad, b < s.nextBlock)
    (room : s.HasRoom (blockHashes SHA512 buf)) (whole : buf.length % 4096 = 0)
    (bound : buf.length < 2 ^ 31) {blocks : ℕ}
    (sized : (s.files f).logicalSize = 4096 * blocks) (short : blocks < 2 ^ 31) {env : WriteEnv}
    (outcomes : ∀ i, (env.pwrite i).Whole)
    (noError : (writeOut f buf env (placeBlocks (blockHashes SHA512 buf) s).1
      (placeBlocks (blockHashes SHA512 buf) s).2).1 = 0) :
    (appendBlocks SHA512 f buf (4096 * blocks) env s).1 = buf.length ∧ ∃ added,
      added.length = buf.length ∧
      Extended SHA512 data bad path added s
        (appendBlocks SHA512 f buf (4096 * blocks) env s).2 ∧
      ((∀ hash ∈ blockHashes SHA512 buf, ∀ b ∈ bad, s.blockIndex.lookup hash ≠ some b) →
        added = buf) := by
  have prepared := placeBlocks_prepared accounted.ledger room
  rw [appendBlocks_eq]
  generalize placeBlocks (blockHashes SHA512 buf) s = placed at prepared noError
  obtain ⟨tables, t⟩ := placed
  simp only at prepared noError ⊢
  obtain ⟨added, -, appended, all⟩ := writeOut_appended (f := f) prepared env
  have everyBlock := all noError
  subst everyBlock
  have filedT := prepared.filed accounted.filed
  have foundT : t.fileIndex.lookup path = some f := by rw [prepared.fileIndex, found]
  have onlineT : t.backend_fd ≠ -1 := by rw [prepared.backend_fd]; exact online
  -- the loop wrote every page that was not yet on disk
  obtain ⟨storedU, pagesU, keptU⟩ :
      Stored SHA512 data bad (writeOut f buf env tables t).2 ∧
      (∀ entry ∈ tables.newBlocksInfo.zip (bufferPages buf), entry.1 ∉ bad →
        (writeOut f buf env tables t).2.pageOf entry.1 = entry.2) ∧
      ∀ c ∈ t.liveBlocks, c ∉ tables.my_created_blocks →
        (writeOut f buf env tables t).2.pageOf c = t.pageOf c := by
    unfold writeOut at noError ⊢
    by_cases failed : env.memalign = false
    · rw [if_pos failed] at noError
      have nonzero : (-ENOMEM : ℤ) ≠ 0 := by decide
      exact absurd noError nonzero
    · rw [if_neg failed] at noError ⊢
      refine writeBlocks_stored injective outcomes _ 0 _ t onlineT prepared.ledger
        (prepared.stored accounted stored) prepared.createdNodup (fun b mine => ?_)
        (fun entry member => ?_) noError
      · rw [zip_map_fst prepared (length_blockHashes buf)]
        exact (prepared.created b mine).2.2
      · obtain ⟨inBuffer, inIndex⟩ := prepared.entries member
        exact ⟨inData _ inBuffer, inIndex⟩
  generalize writeOut f buf env tables t = out at noError appended storedU pagesU keptU
  obtain ⟨err, u⟩ := out
  simp only at noError appended storedU pagesU keptU ⊢
  subst noError
  have filedU := appended.filed filedT
  have foundU : u.fileIndex.lookup path = some f := by rw [appended.fileIndex, foundT]
  have sizedU : (u.files f).logicalSize = 4096 * blocks := by
    rw [appended.logicalSize, prepared.files, sized]
  obtain ⟨logicalSize, assigned⟩ := growFile_eq f 0 (4096 * blocks) buf.length u
  have sizes := growFile_sizeAt filedU foundU sizedU short bound
  have lists : ∀ p, (growFile f 0 (4096 * blocks) buf.length u).listAt p =
      if p = path then s.listAt p ++ tables.newBlocksInfo else s.listAt p := by
    intro p
    rw [growFile_listAt filedU foundU, appended.listAt filedT foundT]
    have before := Store.listAt_congr prepared.fileIndex prepared.files
    by_cases own : p = path
    · rw [if_pos own, if_pos own, before, own]
    · rw [if_neg own, if_neg own, before]
  have pages : ∀ c, (growFile f 0 (4096 * blocks) buf.length u).pageOf c = u.pageOf c := by
    intro c
    rw [assigned, setFile_pageOf]
  have oldPages : ∀ p, (s.listAt p).flatMap (fun b => (u.pageOf b).toList) = s.contents p := by
    intro p
    refine List.flatMap_congr fun b member => ?_
    obtain ⟨old, live, notMine⟩ := prepared.listed_old accounted member
    rw [keptU b live notMine, prepared.pageOf old]
  have value : int32 (buf.length : ℤ) = buf.length := int32_eq (by omega) (by omega)
  have count : 4096 * tables.newBlocksInfo.length = buf.length := by
    have infos := congrArg List.length prepared.info
    rw [List.length_map, length_blockHashes, bufferPages, List.length_map,
      List.length_range] at infos
    omega
  have size : (listBytes u tables.newBlocksInfo).length = buf.length := by
    rw [length_listBytes, count]
  refine ⟨by simp [value], listBytes u tables.newBlocksInfo, size,
    ⟨?_, ?_, fun p => ?_, fun p => ?_, fun p => ?_, ?_⟩, fun good => ?_⟩
  · refine storedU.transfer fun hash b inIndex written => ⟨?_, written, pages b⟩
    rwa [assigned] at inIndex
  · have same : (growFile f 0 (4096 * blocks) buf.length u).backend_fd = s.backend_fd := by
      rw [assigned]
      exact appended.backend_fd.trans prepared.backend_fd
    rw [same]
    exact online
  · rw [Store.contents]
    simp only [pages, lists]
    by_cases own : p = path
    · rw [if_pos own, if_pos own, List.flatMap_append, oldPages]
      rfl
    · rw [if_neg own, if_neg own, oldPages]
  · rw [lists, size]
    by_cases own : p = path
    · rw [if_pos own, if_pos own, List.length_append]
      omega
    · rw [if_neg own, if_neg own]
  · rw [sizes, appended.sizeAt, Store.sizeAt_congr prepared.fileIndex prepared.files, size]
  · have same : (growFile f 0 (4096 * blocks) buf.length u).nextBlock = t.nextBlock := by
      rw [assigned]
      exact appended.nextBlock
    rw [same]
    exact prepared.heap
  · refine newBlocks_bytes prepared whole fun entry member => pagesU entry member fun inBad => ?_
    obtain ⟨inBuffer, inIndex⟩ := prepared.entries member
    rcases prepared.born inIndex with before | ⟨-, mine⟩
    · exact good _ (List.mem_map_of_mem inBuffer) _ inBad before
    · exact absurd (prepared.created _ mine).1 (not_le.mpr (oldBad _ inBad))

/-- Nothing that can be read or listed has changed. -/
structure Untouched (SHA512 : Page → BlockId) (data : Set Page) (bad : Set BlockRef)
    (s t : Store) : Prop where
  stored : Stored SHA512 data bad t
  online : t.backend_fd ≠ -1
  contents : ∀ p, t.contents p = s.contents p
  length : ∀ p, (t.listAt p).length = (s.listAt p).length
  sizeAt : ∀ p, t.sizeAt p = s.sizeAt p
  heap : s.nextBlock ≤ t.nextBlock

theorem Untouched.refl (stored : Stored SHA512 data bad s) (online : s.backend_fd ≠ -1) :
    Untouched SHA512 data bad s s :=
  ⟨stored, online, fun _ => rfl, fun _ => rfl, fun _ => rfl, le_rfl⟩

theorem Untouched.trans {u : Store} (first : Untouched SHA512 data bad s t)
    (second : Untouched SHA512 data bad t u) : Untouched SHA512 data bad s u :=
  ⟨second.stored, second.online, fun p => (second.contents p).trans (first.contents p),
    fun p => (second.length p).trans (first.length p),
    fun p => (second.sizeAt p).trans (first.sizeAt p), first.heap.trans second.heap⟩

theorem Untouched.extended {u : Store} {buf : Bytes} (first : Untouched SHA512 data bad s t)
    (second : Extended SHA512 data bad path buf t u) : Extended SHA512 data bad path buf s u where
  stored := second.stored
  online := second.online
  contents p := by rw [second.contents, first.contents]
  length p := by rw [second.length, first.length]
  sizeAt p := by rw [second.sizeAt, first.sizeAt]
  heap := first.heap.trans second.heap

theorem findFile_untouched (filed : s.Filed) (stored : Stored SHA512 data bad s)
    (online : s.backend_fd ≠ -1) (path : Path) :
    Untouched SHA512 data bad s (findFile path s).2 := by
  have found := findFile_found filed path
  have pages : ∀ c, (findFile path s).2.pageOf c = s.pageOf c := fun c =>
    Store.pageOf_congr found.outside.sysdata (by rw [found.outside.blocks])
  refine ⟨?_, ?_, fun p => ?_, fun p => ?_, found.sizeAt, found.outside.nextBlock.ge⟩
  · refine stored.transfer fun hash b inIndex written => ⟨?_, written, pages b⟩
    rwa [found.outside.blockIndex] at inIndex
  · rw [found.outside.backend_fd]
    exact online
  · rw [Store.contents, found.listAt]
    exact List.flatMap_congr fun b _ => by rw [pages]
  · rw [found.listAt]

/-- A write that fails without having created a block changes counters only. -/
theorem appendBlocks_refused (accounted : Accounted s) (stored : Stored SHA512 data bad s)
    (online : s.backend_fd ≠ -1) {buf : Bytes} (room : s.HasRoom (blockHashes SHA512 buf))
    (known : ∀ hash ∈ blockHashes SHA512 buf, s.blockIndex.lookup hash ≠ none) {env : WriteEnv}
    (refused : env.memalign = false) (offset : ℤ) :
    (appendBlocks SHA512 f buf offset env s).1 = -ENOMEM ∧
      Untouched SHA512 data bad s (appendBlocks SHA512 f buf offset env s).2 := by
  have prepared := placeBlocks_prepared accounted.ledger room
  rw [appendBlocks_eq]
  generalize placeBlocks (blockHashes SHA512 buf) s = placed at prepared
  obtain ⟨tables, t⟩ := placed
  simp only at prepared ⊢
  have out : writeOut f buf env tables t = (-ENOMEM, t) := if_pos refused
  have nonzero : (-ENOMEM : ℤ) ≠ 0 := by decide
  have unchanged : growFile f (-ENOMEM) offset buf.length t = t := by
    unfold growFile
    exact if_neg fun grows => nonzero grows.1
  have noneCreated : {b | b ∈ tables.my_created_blocks} = (∅ : Set BlockRef) := by
    ext b
    simp only [Set.mem_ofPred_eq, Set.mem_empty_iff_false, iff_false]
    intro mine
    obtain ⟨-, absent, noted⟩ := prepared.created b mine
    have member : (t.blocks b).id ∈ blockHashes SHA512 buf := by
      rw [← prepared.info]
      exact List.mem_map_of_mem (f := fun b => (t.blocks b).id) noted
    exact known _ member absent
  have lists := Store.listAt_congr prepared.fileIndex prepared.files
  have pages := prepared.stored accounted stored
  rw [noneCreated, Set.empty_union] at pages
  rw [out]
  simp only [unchanged]
  refine ⟨if_pos nonzero, pages, ?_, fun p => ?_, fun p => by rw [lists],
    Store.sizeAt_congr prepared.fileIndex prepared.files, prepared.heap⟩
  · rw [prepared.backend_fd]
    exact online
  · rw [Store.contents, lists]
    refine List.flatMap_congr fun b member => ?_
    rw [prepared.pageOf (prepared.listed_old accounted member).1]

end Write

/-! ## Removals and remounts -/

section Unlink

variable {SHA512 : Page → BlockId} {data : Set Page} {bad : Set BlockRef} {s t : Store}
variable {path : Path} {f : FileRef}

theorem released_sizeAt (filed : s.Filed) (found : s.fileIndex.lookup path = some f)
    (entries : List (BlockRef × ℤ)) (p : Path) :
    (freeFilemeta f (entries.foldl releaseBlock (stealFile path s))).sizeAt p =
      if p = path then 0 else s.sizeAt p := by
  have frame := foldl_releaseBlock_released entries (stealFile path s)
  have index : (freeFilemeta f (entries.foldl releaseBlock (stealFile path s))).fileIndex =
      (stealFile path s).fileIndex := frame.fileIndex
  unfold Store.sizeAt
  rw [index]
  by_cases same : p = path
  · rw [if_pos same, same]
    have absent : (stealFile path s).fileIndex.lookup path = none := AList.lookup_erase _ _
    rw [absent]
  · rw [if_neg same]
    have kept : (stealFile path s).fileIndex.lookup p = s.fileIndex.lookup p :=
      AList.lookup_erase_ne same
    rw [kept]
    cases entry : s.fileIndex.lookup p with
    | none => rfl
    | some g =>
        have differ : g ≠ f := fun equal => same (filed.path_eq found (equal ▸ entry))
        simp only [freeFilemeta, Store.setFile_files_ne _ _ differ, frame.files]
        rfl

/-- A removal moves no page, and what is still indexed was indexed. -/
theorem released_stored (stored : Stored SHA512 data bad s) (path : Path) (f : FileRef)
    (entries : List (BlockRef × ℤ)) :
    Stored SHA512 data bad (freeFilemeta f (entries.foldl releaseBlock (stealFile path s))) ∧
      ∀ c, (freeFilemeta f (entries.foldl releaseBlock (stealFile path s))).pageOf c =
        s.pageOf c := by
  have frame := foldl_releaseBlock_released entries (stealFile path s)
  have pages : ∀ c, (freeFilemeta f (entries.foldl releaseBlock (stealFile path s))).pageOf c =
      s.pageOf c := fun c => Store.pageOf_congr frame.sysdata (frame.block_offset c)
  refine ⟨stored.transfer fun hash b found written => ⟨?_, written, pages b⟩, pages⟩
  exact frame.lookup found

/-- The digests and pages of a copy are those of the original. -/
theorem Store.CopyBy.stored {moved : BlockRef → BlockRef} (copy : Store.CopyBy moved s t)
    (sysdata : t.sysdata = s.sysdata) (stored : Stored SHA512 data ∅ s) :
    Stored SHA512 data ∅ t := by
  intro hash b' found written
  obtain ⟨b, inIndex, rfl, -⟩ := copy.blockIndex.back found
  rw [copy.pageOf sysdata inIndex]
  exact stored hash b inIndex (Set.notMem_empty b)

end Unlink

end ProjetoTSO.Codededup
