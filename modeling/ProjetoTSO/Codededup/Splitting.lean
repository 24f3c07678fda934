import ProjetoTSO.Codededup.Appended
import ProjetoTSO.Codededup.OnePage
import ProjetoTSO.Codededup.Transparency

/-!
# An append in two

An append of `a ++ b` beside an append of `a` followed by one of `b`.  The single call tracks
the blocks it has seen in its two tables and hands out offsets in the order of the hashes; the
two calls find blocks through the index and hand out offsets in the order they arrive.  They lead
to stores that differ in which of the new blocks has which of the new offsets, and in nothing
else but the backing file (`append_split`).
-/

namespace ProjetoTSO.Codededup

open CInt ByteStream Arena Transition

/-! ## The loop of a write -/

/-- `realSize` after so many blocks have been created. -/
def grownSize (realSize : ℤ) (count : ℕ) : ℤ :=
  if count = 0 then realSize else int64 (realSize + 4096 * count)

theorem int64_int64_add (z k : ℤ) : int64 (int64 z + k) = int64 (z + k) := by
  unfold int64
  simp only [Int.bmod_def]
  omega

theorem grownSize_add (realSize : ℤ) (first second : ℕ) :
    grownSize (grownSize realSize first) second = grownSize realSize (first + second) := by
  unfold grownSize
  by_cases none₁ : first = 0
  · simp [none₁]
  by_cases none₂ : second = 0
  · simp [none₂]
  · have both : first + second ≠ 0 := by omega
    rw [if_neg none₁, if_neg none₂, if_neg both, int64_int64_add]
    congr 1
    push_cast
    ring

/-- The first block of a loop is created or it is not. -/
theorem count_created {created blocks : List BlockRef} {b : BlockRef} (nodup : created.Nodup) :
    (created.filter (· ∈ b :: blocks)).length =
      (if b ∈ created then 1 else 0) + ((created.erase b).filter (· ∈ blocks)).length := by
  by_cases mine : b ∈ created
  · rw [if_pos mine, ((List.perm_cons_erase mine).filter _).length_eq,
      List.filter_cons_of_pos (by simp), List.length_cons, add_comm]
    congr 2
    refine List.filter_congr fun c member => ?_
    have differ : c ≠ b := by
      rintro rfl
      exact nodup.not_mem_erase member
    simp [differ]
  · rw [if_neg mine, List.erase_of_not_mem mine, zero_add]
    congr 1
    refine List.filter_congr fun c member => ?_
    have differ : c ≠ b := by
      rintro rfl
      exact mine member
    simp [differ]

section Loop

variable {f : FileRef} {env : WriteEnv}

/-- A loop in which every `pwrite` is complete appends its blocks and counts the created ones. -/
theorem writeBlocks_files (full : ∀ i, env.pwrite i = .full) (entries : List (BlockRef × Page)) :
    ∀ (k : ℕ) (created : List BlockRef) (s : Store), s.backend_fd ≠ -1 → created.Nodup →
      (∀ b ∈ created, (s.blocks b).size = 4096) →
      (writeBlocks f env k entries created s).1 = 0 ∧
      (writeBlocks f env k entries created s).2.files = Function.update s.files f
        { s.files f with
          realSize := grownSize (s.files f).realSize
            (created.filter (· ∈ entries.map Prod.fst)).length
          blockList := (s.files f).blockList ++ entries.map Prod.fst } := by
  induction entries with
  | nil =>
      intro k created s _ _ _
      refine ⟨rfl, ?_⟩
      simp [writeBlocks, grownSize]
  | cons entry entries ih =>
      intro k created s online nodup sizes
      rw [writeBlocks]
      by_cases mine : entry.1 ∈ created
      · have step : writeBlock f (env.pwrite k) entry created s =
            (0, created.erase entry.1, (pwriteBlock .full entry.1 entry.2 s).2.setFile f
              { s.files f with
                realSize := int64 ((s.files f).realSize + (s.blocks entry.1).size)
                blockList := (s.files f).blockList ++ [entry.1] }) := by
          simp only [writeBlock, if_pos mine, if_neg online, full]
          rfl
        rw [step]
        obtain ⟨done, files⟩ := ih (k + 1) (created.erase entry.1)
          ((pwriteBlock .full entry.1 entry.2 s).2.setFile f
            { s.files f with
              realSize := int64 ((s.files f).realSize + (s.blocks entry.1).size)
              blockList := (s.files f).blockList ++ [entry.1] })
          online (nodup.erase _) fun b member => sizes b (List.mem_of_mem_erase member)
        refine ⟨done, files.trans ?_⟩
        have one : int64 ((s.files f).realSize + (s.blocks entry.1).size) =
            grownSize (s.files f).realSize 1 := by
          rw [sizes _ mine]
          simp [grownSize]
        rw [Store.setFile_files_self, one]
        simp only
        rw [grownSize_add, List.map_cons, count_created nodup, if_pos mine, List.append_assoc]
        exact Function.update_idem _ _ _
      · have step : writeBlock f (env.pwrite k) entry created s =
            (0, created, s.setFile f
              { s.files f with blockList := (s.files f).blockList ++ [entry.1] }) := by
          simp only [writeBlock, if_neg mine]
        rw [step]
        obtain ⟨done, files⟩ := ih (k + 1) created
          (s.setFile f { s.files f with blockList := (s.files f).blockList ++ [entry.1] })
          online nodup sizes
        refine ⟨done, files.trans ?_⟩
        rw [Store.setFile_files_self, List.map_cons, count_created nodup, if_neg mine,
          List.erase_of_not_mem mine, zero_add]
        simp only [List.append_assoc]
        exact Function.update_idem _ _ _

/-- A file grows to the end of what was written to it. -/
theorem growFile_grown {s : Store} {offset : ℤ} {size : ℕ}
    (sized : (s.files f).logicalSize = offset) (nonneg : 0 ≤ offset) (bound : offset + size < 2 ^ 63) :
    growFile f 0 offset size s = s.setFile f { s.files f with logicalSize := offset + size } := by
  have before : (uint64 offset : ℤ) = offset := uint64_eq nonneg (by omega)
  have after : (uint64 (offset + size) : ℤ) = offset + size := uint64_eq (by omega) (by omega)
  unfold growFile
  simp only [true_and]
  by_cases grows : uint64 (s.files f).logicalSize < uint64 (offset + size)
  · rw [if_pos grows, after, int64_eq (by omega) bound]
  · rw [sized] at grows
    have same : (s.files f).logicalSize = offset + size := by omega
    rw [if_neg (by rwa [sized]), ← same, Store.setFile, Function.update_eq_self]

end Loop

/-! ## One append -/

/-- `t` is `s` after an append to `f`, but for the backing file. -/
structure Appends (f : FileRef) (hashes : List BlockId) (size : ℕ) (s t : Store) : Prop where
  placed : BlocksPlaced hashes s t
  files : t.files = Function.update s.files f
    { s.files f with
      realSize := grownSize (s.files f).realSize (bornBlocks s t).length
      logicalSize := (s.files f).logicalSize + size
      blockList := (s.files f).blockList ++ (lookups hashes s).1.newBlocksInfo }
  fileIndex : t.fileIndex = s.fileIndex
  nextFile : t.nextFile = s.nextFile
  backend_fd : t.backend_fd = s.backend_fd

theorem BlocksPlaced.congr {hashes : List BlockId} {s t u : Store} (placed : BlocksPlaced hashes s t)
    (blockIndex : u.blockIndex = t.blockIndex) (blocks : u.blocks = t.blocks)
    (nextBlock : u.nextBlock = t.nextBlock) (space : u.space = t.space) :
    BlocksPlaced hashes s u := by
  obtain ⟨alike, heap, drawn, left, old⟩ := placed
  have born : bornBlocks s u = bornBlocks s t := by rw [bornBlocks, bornBlocks, nextBlock]
  refine ⟨alike.trans (.of_eq blockIndex nextBlock blocks), nextBlock ▸ heap, ?_, ?_, ?_⟩
  · rw [born, blocks]
    exact drawn
  · rw [born, space]
    exact left
  · rw [blocks]
    exact old

section Append

variable {SHA512 : Page → BlockId} {f : FileRef} {s : Store} {buf : Bytes} {env : WriteEnv}

/-- The blocks a write creates are those of its table. -/
theorem created_perm (allocated : s.Allocated) (hashes : List BlockId) :
    (lookups hashes s).1.my_created_blocks.Perm (bornBlocks s (placeBlocks hashes s).2) := by
  have resolved : Resolved s hashes (lookups hashes s).1 (lookups hashes s).2 :=
    foldl_lookupBlock_resolved allocated hashes
  have next := (placeBlocks_placed allocated hashes).alike.nextBlock
  refine (List.perm_ext_iff_of_nodup resolved.createdNodup List.nodup_range').mpr fun b => ?_
  rw [resolved.created, ← next]
  exact mem_bornBlocks.symm

/-- **An append that meets no failing system call.** -/
theorem appendBlocks_appends (allocated : s.Allocated) (online : s.backend_fd ≠ -1)
    (granted : env.memalign = true) (full : ∀ i, env.pwrite i = .full) {offset : ℤ}
    (sized : (s.files f).logicalSize = offset) (nonneg : 0 ≤ offset)
    (bound : offset + buf.length < 2 ^ 63) (short : buf.length < 2 ^ 31) :
    (appendBlocks SHA512 f buf offset env s).1 = buf.length ∧
      Appends f (blockHashes SHA512 buf) buf.length s (appendBlocks SHA512 f buf offset env s).2 := by
  have placed := placeBlocks_placed allocated (blockHashes SHA512 buf)
  have created := created_perm allocated (blockHashes SHA512 buf)
  have resolved : Resolved s (blockHashes SHA512 buf) (lookups (blockHashes SHA512 buf) s).1
      (lookups (blockHashes SHA512 buf) s).2 := foldl_lookupBlock_resolved allocated _
  obtain ⟨only, length⟩ := placeBlocks_blocksOnly (blockHashes SHA512 buf) s
  have sizes := (lookups_old (blockHashes SHA512 buf) s).2.2
  have tables : (placeBlocks (blockHashes SHA512 buf) s).1 = (lookups (blockHashes SHA512 buf) s).1 := rfl
  rw [appendBlocks_eq]
  simp only [writeOut, granted, tables]
  rw [tables] at length
  generalize (placeBlocks (blockHashes SHA512 buf) s).2 = t at placed only created
  have blocks : ((lookups (blockHashes SHA512 buf) s).1.newBlocksInfo.zip
      (bufferPages buf)).map Prod.fst = (lookups (blockHashes SHA512 buf) s).1.newBlocksInfo :=
    List.map_fst_zip (by rw [length, blockHashes, List.length_map])
  -- every created block is among those of the loop
  have every : (lookups (blockHashes SHA512 buf) s).1.my_created_blocks.filter
      (· ∈ (lookups (blockHashes SHA512 buf) s).1.newBlocksInfo) =
        (lookups (blockHashes SHA512 buf) s).1.my_created_blocks :=
    List.filter_eq_self.mpr fun b mine => decide_eq_true (resolved.noted b mine)
  obtain ⟨done, files⟩ := writeBlocks_files (f := f) full
    ((lookups (blockHashes SHA512 buf) s).1.newBlocksInfo.zip (bufferPages buf)) 0 _ t
    (only.backend_fd ▸ online) resolved.createdNodup fun b mine => by
      rw [placed.alike.size]
      exact sizes b ((resolved.created b).mp mine).1 ((resolved.created b).mp mine).2
  obtain ⟨added, -, appended, -⟩ := writeBlocks_appended f env
    ((lookups (blockHashes SHA512 buf) s).1.newBlocksInfo.zip (bufferPages buf)) 0
    (lookups (blockHashes SHA512 buf) s).1.my_created_blocks t
  rw [blocks, every, created.length_eq, only.files] at files
  generalize writeBlocks f env 0
    ((lookups (blockHashes SHA512 buf) s).1.newBlocksInfo.zip (bufferPages buf))
    (lookups (blockHashes SHA512 buf) s).1.my_created_blocks t = out at done files appended
  obtain ⟨err, u⟩ := out
  simp only at done files appended ⊢
  subst done
  have own : (u.files f).logicalSize = offset := by rw [files, Function.update_self]; exact sized
  have value : int32 (buf.length : ℤ) = buf.length := int32_eq (by omega) (by omega)
  simp only [Bool.true_eq_false, if_false, ne_eq, not_true_eq_false]
  refine ⟨value, ?_⟩
  rw [growFile_grown own nonneg bound]
  have born : bornBlocks s (u.setFile f { u.files f with logicalSize := offset + buf.length }) =
      bornBlocks s t := by
    rw [bornBlocks, bornBlocks]
    exact congrArg (fun next => List.range' s.nextBlock (next - s.nextBlock)) appended.nextBlock
  refine ⟨placed.congr appended.blockIndex appended.blocks appended.nextBlock ?_, ?_,
    appended.fileIndex.trans only.fileIndex, appended.nextFile.trans only.nextFile,
    appended.backend_fd.trans only.backend_fd⟩
  · exact congrArg₂ Space.mk appended.freeList appended.next_free_offset
  · rw [born]
    show Function.update u.files f _ = _
    rw [files, Function.update_self, Function.update_idem, sized]

end Append

/-! ## Two appends -/

/-- `u` is `v`, but for which of the blocks created since `s` has which of their offsets, and
for the backing file. -/
structure Rearranged (s v u : Store) : Prop where
  fileIndex : u.fileIndex = v.fileIndex
  files : u.files = v.files
  nextFile : u.nextFile = v.nextFile
  alike : Alike v u
  freeList : u.freeList = v.freeList
  next_free_offset : u.next_free_offset = v.next_free_offset
  old : ∀ b < s.nextBlock, (u.blocks b).block_offset = (v.blocks b).block_offset
  born : ((bornBlocks s v).map fun b => (u.blocks b).block_offset).Perm
    ((bornBlocks s v).map fun b => (v.blocks b).block_offset)

/-- A call that only looked its file up first started from the same blocks. -/
theorem Rearranged.outsideFiles {s o v u : Store} (rearranged : Rearranged o v u)
    (outside : OutsideFiles s o) : Rearranged s v u := by
  have blocks : bornBlocks s v = bornBlocks o v := by
    rw [bornBlocks, bornBlocks, outside.nextBlock]
  exact { rearranged with
    old := outside.nextBlock ▸ rearranged.old
    born := by rw [blocks]; exact rearranged.born }

theorem bornBlocks_append {s t u : Store} (first : s.nextBlock ≤ t.nextBlock)
    (second : t.nextBlock ≤ u.nextBlock) : bornBlocks s u = bornBlocks s t ++ bornBlocks t u := by
  have parts : ∀ i j k : ℕ, i ≤ j → j ≤ k →
      List.range' i (k - i) = List.range' i (j - i) ++ List.range' j (k - j) := by
    intro i j k below above
    have start : i + (j - i) = j := by omega
    have length : (j - i) + (k - j) = k - i := by omega
    rw [← length, ← List.range'_append_1, start]
  exact parts _ _ _ first second

section Split

variable {f : FileRef} {first second : List BlockId} {m n : ℕ} {s t u v : Store}

/-- **The blocks of two placements** are those of one, in other places. -/
theorem BlocksPlaced.split (placed : BlocksPlaced first s t) (then_ : BlocksPlaced second t u)
    (both : BlocksPlaced (first ++ second) s v) :
    (lookups (first ++ second) s).1.newBlocksInfo =
        (lookups first s).1.newBlocksInfo ++ (lookups second t).1.newBlocksInfo ∧
      (bornBlocks s v).length = (bornBlocks s t).length + (bornBlocks t u).length ∧
      Alike v u ∧ u.space = v.space ∧
      (∀ b < s.nextBlock, (u.blocks b).block_offset = (v.blocks b).block_offset) ∧
      ((bornBlocks s v).map fun b => (u.blocks b).block_offset).Perm
        ((bornBlocks s v).map fun b => (v.blocks b).block_offset) := by
  obtain ⟨info, same⟩ := lookups_append placed.alike
  have alike : Alike v u := both.alike.symm.trans (same.trans then_.alike)
  have born : bornBlocks s v = bornBlocks s t ++ bornBlocks t u := by
    rw [← bornBlocks_append placed.heap then_.heap, bornBlocks, bornBlocks, alike.nextBlock]
  have length : (bornBlocks s v).length = (bornBlocks s t).length + (bornBlocks t u).length := by
    rw [born, List.length_append]
  have space : u.space = v.space := by
    rw [then_.space, placed.space, both.space, length, add_comm, Function.iterate_add_apply]
  have old : ∀ b < s.nextBlock, (u.blocks b).block_offset = (v.blocks b).block_offset :=
    fun b below => by
      rw [then_.old b (lt_of_lt_of_le below placed.heap), placed.old b below, both.old b below]
  refine ⟨info, length, alike, space, old, ?_⟩
  obtain ⟨order₁, perm₁, drawn₁⟩ := placed.drawn
  obtain ⟨order₂, perm₂, drawn₂⟩ := then_.drawn
  obtain ⟨order, perm, drawn⟩ := both.drawn
  -- the blocks of the first placement stay where they are in the second
  have kept : (order₁.map fun b => (u.blocks b).block_offset) =
      order₁.map fun b => (t.blocks b).block_offset :=
    List.map_congr_left fun b member => then_.old b (mem_bornBlocks.mp (perm₁.subset member)).2
  have together : ((order₁ ++ order₂).map fun b => (u.blocks b).block_offset) =
      order.map fun b => (v.blocks b).block_offset := by
    calc (order₁ ++ order₂).map (fun b => (u.blocks b).block_offset)
      _ = s.space.draw 4096 (bornBlocks s t).length ++
            ((Space.rest 4096)^[(bornBlocks s t).length] s.space).draw 4096
              (bornBlocks t u).length := by
          rw [List.map_append, kept, drawn₁, drawn₂, placed.space]
      _ = s.space.draw 4096 (bornBlocks s v).length := by rw [← Space.draw_add, length]
      _ = order.map (fun b => (v.blocks b).block_offset) := drawn.symm
  have arrived := ((perm₁.append perm₂).map fun b => (u.blocks b).block_offset).symm
  rw [together, ← born] at arrived
  exact arrived.trans (perm.map _)

/-- **An append in two** leaves the store of one append, rearranged. -/
theorem Appends.split (appends : Appends f first m s t) (then_ : Appends f second n t u)
    (both : Appends f (first ++ second) (m + n) s v) : Rearranged s v u := by
  obtain ⟨info, length, alike, space, old, born⟩ := appends.placed.split then_.placed both.placed
  refine ⟨?_, ?_, ?_, alike, congrArg Space.free space, congrArg Space.tail space, old, born⟩
  · rw [then_.fileIndex, appends.fileIndex, both.fileIndex]
  · rw [then_.files, both.files, appends.files, Function.update_self, Function.update_idem, info,
      length, grownSize_add, List.append_assoc, Nat.cast_add, add_assoc]
  · rw [then_.nextFile, appends.nextFile, both.nextFile]

end Split

/-! ## The calls -/

theorem bufferPages_append {a b : Bytes} (wholeA : a.length % 4096 = 0)
    (wholeB : b.length % 4096 = 0) : bufferPages (a ++ b) = bufferPages a ++ bufferPages b := by
  have pages := bufferPages_of_pages (bufferPages a ++ bufferPages b)
  rwa [List.flatMap_append, bufferPages_flatMap wholeA, bufferPages_flatMap wholeB] at pages

theorem blockHashes_append (SHA512 : Page → BlockId) {a b : Bytes} (wholeA : a.length % 4096 = 0)
    (wholeB : b.length % 4096 = 0) :
    blockHashes SHA512 (a ++ b) = blockHashes SHA512 a ++ blockHashes SHA512 b := by
  rw [blockHashes, bufferPages_append wholeA wholeB, List.map_append]
  rfl

/-- Room for more is room for less. -/
theorem Store.HasRoom.left {s : Store} {first second : List BlockId}
    (room : s.HasRoom (first ++ second)) : s.HasRoom first := by
  intro hash member
  have both := room hash (List.mem_append_left _ member)
  rw [List.count_append] at both
  push_cast at both
  omega

section Calls

variable {SHA512 : Page → BlockId} {data : Set Page} {fd : ℕ} {sysdata : ByteDisk.Disk}
variable {history : List Event} {s : Store} {path : Path} {a b : Bytes} {env envA envB : WriteEnv}

/-- The second call has the room that is left of that of both. -/
theorem hasRoom_second {t : Store} (accounted : Accounted s) (allocated : s.Allocated)
    {first second : List BlockId} (room : s.HasRoom (first ++ second))
    (placed : Alike (lookups first s).2 t) : t.HasRoom second := by
  have prepared := placeBlocks_prepared accounted.ledger room.left
  have other := (placeBlocks_placed allocated first).alike
  have alike : Alike (placeBlocks first s).2 t := other.symm.trans placed
  intro hash member
  have both := room hash (List.mem_append_right _ member)
  rw [List.count_append] at both
  push_cast at both
  cases found : t.blockIndex.lookup hash with
  | some b =>
      have earlier : (placeBlocks first s).2.blockIndex.lookup hash = some b := by
        rw [← alike.blockIndex, found]
      rw [Store.counterOf_of_lookup found, alike.counter, prepared.counter earlier]
      omega
  | none =>
      have absent : s.blockIndex.lookup hash = none := by
        by_contra some_
        obtain ⟨b, inside⟩ := Option.ne_none_iff_exists'.mp some_
        have kept := prepared.kept inside
        rw [← alike.blockIndex, found] at kept
        cases kept
      rw [Store.counterOf_of_none absent] at both
      rw [Store.counterOf_of_none found]
      omega

/-- A successful append, and what it leaves for a reader. -/
theorem Sound.appended {t : Store} (sound : Sound SHA512 data ∅ s) (injective : Set.InjOn SHA512 data)
    {buf : Bytes} {offset : ℤ} (undisturbed : Undisturbed SHA512 data s (.write path buf offset env))
    (runs : xmp_write SHA512 path buf offset env s = some ((buf.length : ℤ), t)) :
    Sound SHA512 data ∅ t ∧
      ∀ p, t.contents p = if p = path then s.contents p ++ buf else s.contents p := by
  obtain ⟨after, ⟨negative, -⟩ | ⟨-, -, added, contents, same⟩⟩ :=
    sound.write injective undisturbed.exposed undisturbed.traceless runs
  · exact absurd negative (not_lt.mpr (Int.natCast_nonneg _))
  · rw [same fun _ _ b inBad => absurd inBad (Set.notMem_empty b)] at contents
    exact ⟨after, contents⟩

/-- **An append at the end of a file**, in a session without failing calls. -/
theorem Sound.append (sound : Sound SHA512 data ∅ s) (allocated : s.Allocated)
    (injective : Set.InjOn SHA512 data) {buf : Bytes} (whole : buf.length % 4096 = 0)
    (undisturbed : Undisturbed SHA512 data s (.write path buf (s.sizeAt path) env)) :
    ∃ t, xmp_write SHA512 path buf (s.sizeAt path) env s = some ((buf.length : ℤ), t) ∧
      Appends (findFile path s).1 (blockHashes SHA512 buf) buf.length (findFile path s).2 t ∧
      Sound SHA512 data ∅ t ∧
      ∀ p, t.contents p = if p = path then s.contents p ++ buf else s.contents p := by
  have filed := sound.accounted.filed
  have found := findFile_found filed path
  have online := (findFile_untouched filed sound.stored sound.online path).online
  have size := sound.size path
  have accepted : Accepted s path buf (s.sizeAt path) := ⟨whole, rfl⟩
  have few := (undisturbed.2.2.2.2 accepted).2
  have short := undisturbed.1
  have runs : xmp_write SHA512 path buf (s.sizeAt path) env s = some (appendBlocks SHA512
      (findFile path s).1 buf (s.sizeAt path) env (findFile path s).2) :=
    xmp_write_of_accepted filed accepted short.le env
  have done : (appendBlocks SHA512 (findFile path s).1 buf (s.sizeAt path) env
        (findFile path s).2).1 = buf.length ∧
      Appends (findFile path s).1 (blockHashes SHA512 buf) buf.length (findFile path s).2
        (appendBlocks SHA512 (findFile path s).1 buf (s.sizeAt path) env (findFile path s).2).2 :=
    appendBlocks_appends (findFile_pointers allocated path) online undisturbed.2.2.1
      undisturbed.2.2.2.1 found.logicalSize (by omega) (by omega) short
  generalize appendBlocks SHA512 (findFile path s).1 buf (s.sizeAt path) env
    (findFile path s).2 = out at runs done
  obtain ⟨ret, t⟩ := out
  obtain ⟨rfl, appends⟩ := done
  exact ⟨t, runs, appends, sound.appended injective undisturbed runs⟩

/-- **Splitting an append does not matter.**  From every store a session without failing calls
reaches, an append of two buffers and the appends of the one and of the other succeed, and lead
to the same files, with the same lists and sizes, the same index, counters and free offsets, and
the same contents under every path; at most, the new blocks have their new offsets in another
order. -/
theorem append_split (injective : Set.InjOn SHA512 data)
    (run : Runs (Step SHA512 (Undisturbed SHA512 data)) (Store.empty fd sysdata) history s)
    (wholeA : a.length % 4096 = 0) (wholeB : b.length % 4096 = 0)
    (short : a.length + b.length < 2 ^ 31)
    (blocks : (s.listAt path).length + (a.length + b.length) / 4096 < 2 ^ 31)
    (inData : ∀ page ∈ bufferPages a ++ bufferPages b, page ∈ data)
    (room : s.HasRoom (blockHashes SHA512 a ++ blockHashes SHA512 b))
    (fine : ∀ call ∈ [env, envA, envB], call.memalign = true ∧ ∀ i, call.pwrite i = .full) :
    ∃ v t u : Store,
      xmp_write SHA512 path (a ++ b) (s.sizeAt path) env s =
        some (((a.length : ℤ) + b.length), v) ∧
      xmp_write SHA512 path a (s.sizeAt path) envA s = some ((a.length : ℤ), t) ∧
      xmp_write SHA512 path b (s.sizeAt path + a.length) envB t = some ((b.length : ℤ), u) ∧
      Rearranged s v u ∧ ∀ p, u.contents p = v.contents p := by
  have sound : Sound SHA512 data ∅ s := (Runs.faithful injective
    (fun _ _ admitted => admitted.exposed) (fun _ _ admitted => admitted.traceless) run).toSound
  have found := findFile_found sound.accounted.filed path
  have allocated := Runs.allocated run
  have size := sound.size path
  obtain ⟨grantedV, fullV⟩ := fine env (by simp)
  obtain ⟨grantedA, fullA⟩ := fine envA (by simp)
  obtain ⟨grantedB, fullB⟩ := fine envB (by simp)
  have pages := bufferPages_append wholeA wholeB
  have hashes := blockHashes_append SHA512 wholeA wholeB
  -- both at once
  obtain ⟨v, callV, appendsV, -, contentsV⟩ := sound.append allocated injective
    (by rw [List.length_append]; omega)
    (⟨by rw [List.length_append]; omega, by rwa [pages], grantedV, fullV,
      fun _ => ⟨hashes ▸ room, by rw [List.length_append]; exact blocks⟩⟩ :
      Undisturbed SHA512 data s (.write path (a ++ b) (s.sizeAt path) env))
  rw [hashes, List.length_append] at appendsV
  -- the first of the two
  obtain ⟨t, callA, appendsA, soundT, contentsA⟩ := sound.append allocated injective wholeA
    (⟨by omega, fun page member => inData page (List.mem_append_left _ member), grantedA, fullA,
      fun _ => ⟨room.left, by omega⟩⟩ : Undisturbed SHA512 data s (.write path a (s.sizeAt path) envA))
  have own : t.fileIndex.lookup path = some (findFile path s).1 := by
    rw [appendsA.fileIndex, found.lookup]
  have grown : t.sizeAt path = s.sizeAt path + a.length := by
    rw [Store.sizeAt, own]
    show (t.files (findFile path s).1).logicalSize = _
    rw [appendsA.files, Function.update_self, ← found.logicalSize]
  have sizes := soundT.size path
  have roomB : t.HasRoom (blockHashes SHA512 b) := hasRoom_second (sound.accounted.findFile path)
    (findFile_pointers allocated path) (found.hasRoom room) appendsA.placed.alike
  -- the second
  obtain ⟨u, callB, appendsB, -, contentsB⟩ := soundT.append
    (xmp_write_pointers allocated callA) injective wholeB
    (⟨by omega, fun page member => inData page (List.mem_append_right _ member), grantedB, fullB,
      fun _ => ⟨roomB, by omega⟩⟩ : Undisturbed SHA512 data t (.write path b (t.sizeAt path) envB))
  have same : findFile path t = ((findFile path s).1, t) := by rw [findFile, own]
  rw [same] at appendsB
  rw [grown] at callB
  have length : ((a ++ b).length : ℤ) = a.length + b.length := by
    rw [List.length_append]
    push_cast
    rfl
  refine ⟨v, t, u, callV.trans (by rw [length]), callA, callB,
    (appendsA.split appendsB appendsV).outsideFiles found.outside, fun p => ?_⟩
  rw [contentsB, contentsV]
  simp only [contentsA]
  by_cases mine : p = path
  · rw [if_pos mine, if_pos mine, if_pos mine, List.append_assoc]
  · rw [if_neg mine, if_neg mine, if_neg mine]

/-- Two pages of the letter A, in one call or in two, to a file that is not there yet. -/
theorem append_split_pages :
    ∃ v t u : Store,
      xmp_write (fun _ => digestOfA) (CString.lit "/a") (pageOfA.toList ++ pageOfA.toList)
          ((Store.empty (3 : ℕ) fun _ => 0).sizeAt (CString.lit "/a")) .fine
          (Store.empty (3 : ℕ) fun _ => 0) =
        some ((pageOfA.toList.length : ℤ) + pageOfA.toList.length, v) ∧
      xmp_write (fun _ => digestOfA) (CString.lit "/a") pageOfA.toList
          ((Store.empty (3 : ℕ) fun _ => 0).sizeAt (CString.lit "/a")) .fine
          (Store.empty (3 : ℕ) fun _ => 0) = some ((pageOfA.toList.length : ℤ), t) ∧
      xmp_write (fun _ => digestOfA) (CString.lit "/a") pageOfA.toList
          ((Store.empty (3 : ℕ) fun _ => 0).sizeAt (CString.lit "/a") + pageOfA.toList.length)
          .fine t = some ((pageOfA.toList.length : ℤ), u) ∧
      Rearranged (Store.empty (3 : ℕ) fun _ => 0) v u ∧ ∀ p, u.contents p = v.contents p := by
  have length : pageOfA.toList.length = 4096 := length_page pageOfA
  have fresh : (Store.empty (3 : ℕ) fun _ => 0).listAt (CString.lit "/a") = [] := rfl
  refine append_split (Set.injOn_singleton _ pageOfA) .nil (by rw [length])
    (by rw [length]) (by rw [length]; norm_num)
    (by rw [length, fresh, List.length_nil]; norm_num) ?_ ?_ ?_
  · intro page member
    rw [bufferPages_page, List.singleton_append] at member
    simpa using member
  · intro hash member
    have none_ : (Store.empty (3 : ℕ) fun _ => 0).counterOf hash = 0 := Store.counterOf_of_none rfl
    rw [blockHashes_page, List.singleton_append, List.mem_pair, or_self] at member
    rw [none_, blockHashes_page, member, List.singleton_append, List.count_cons_self,
      List.count_singleton_self]
    norm_num
  · intro call member
    simp only [List.mem_cons, List.not_mem_nil, or_false, or_self] at member
    subst member
    exact ⟨rfl, fun _ => rfl⟩

end Calls

end ProjetoTSO.Codededup
