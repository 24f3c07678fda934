import ProjetoTSO.Codededup.FailedWrites

/-!
# Transfers behind a success

`xmp_write` and `xmp_read` look at the result of a transfer for -1 only, and a write does not
miss a backing file that could not be opened.  So a success says that the bytes were transferred
if and only if no transfer it rests on came back short (`write_success_iff`,
`read_success_iff`).

## Design notes

* `writeTransfers` lists the `pwrite`s of a call; `xmp_write_sysdata` says that they are what
  the call does to the backing file.
* A byte in the caller's buffer comes from a `pread` that delivered it if it does not depend on
  what the aligned buffer held before (`ReadEnv.SameTransfers`).
-/

namespace ProjetoTSO.Codededup

open CInt ByteStream Chunks

/-! ## The `pwrite`s of a write -/

/-- A `pwrite` of 4096 bytes at the offset of a block. -/
structure Pwrite where
  block : BlockRef
  page : Page
  out : PwriteOut

/-- What it does to the backing file. -/
def Pwrite.store (blocks : BlockRef → Blockmeta) (disk : ByteDisk.Disk) (w : Pwrite) :
    ByteDisk.Disk :=
  match w.out with
  | .fail _ left => ByteDisk.write disk (blocks w.block).block_offset left.toList
  | .done n => ByteDisk.write disk (blocks w.block).block_offset (w.page.toList.take n)

/-- The `pwrite`s of the I/O loop. -/
def pwrites (f : FileRef) (env : WriteEnv) :
    ℕ → List (BlockRef × Page) → List BlockRef → Store → List Pwrite
  | _, [], _, _ => []
  | i, entry :: rest, my_created_blocks, s =>
      let here :=
        if entry.1 ∈ my_created_blocks ∧ s.backend_fd ≠ -1 then
          [⟨entry.1, entry.2, env.pwrite i⟩]
        else []
      let (err, my_created_blocks, s) := writeBlock f (env.pwrite i) entry my_created_blocks s
      here ++ if err ≠ 0 then [] else pwrites f env (i + 1) rest my_created_blocks s

section WriteLoop

variable {f : FileRef} {env : WriteEnv} {entry : BlockRef × Page} {created : List BlockRef}
variable {s : Store}

theorem writeBlock_created_eq (out : PwriteOut) (mine : entry.1 ∈ created) :
    (writeBlock f out entry created s).2.1 = created.erase entry.1 := by
  unfold writeBlock
  rw [if_pos mine]

theorem writeBlock_old_eq (out : PwriteOut) (other : entry.1 ∉ created) :
    (writeBlock f out entry created s).2.1 = created := by
  unfold writeBlock
  rw [if_neg other]

/-- One iteration writes what it is said to write. -/
theorem writeBlock_sysdata (out : PwriteOut) :
    (writeBlock f out entry created s).2.2.sysdata =
      (if entry.1 ∈ created ∧ s.backend_fd ≠ -1 then [Pwrite.mk entry.1 entry.2 out] else []).foldl
        (Pwrite.store s.blocks) s.sysdata := by
  unfold writeBlock
  by_cases mine : entry.1 ∈ created
  · by_cases closed : s.backend_fd = -1
    · simp only [mine, closed, if_true, ne_eq, not_true_eq_false, and_false, if_false]
      rfl
    · simp only [mine, closed, if_true, if_false, ne_eq, not_false_eq_true, and_self]
      cases out <;> rfl
  · simp only [mine, if_false, false_and]
    rfl

theorem writeBlocks_sysdata (f : FileRef) (env : WriteEnv) (entries : List (BlockRef × Page)) :
    ∀ (k : ℕ) (created : List BlockRef) (s : Store),
      (writeBlocks f env k entries created s).2.sysdata =
        (pwrites f env k entries created s).foldl (Pwrite.store s.blocks) s.sysdata := by
  induction entries with
  | nil => exact fun _ _ _ => rfl
  | cons entry entries ih =>
      intro k created s
      have first := @writeBlock_sysdata f entry created s (env.pwrite k)
      have blocks := (writeBlock_appended f (env.pwrite k) entry created s).blocks
      rw [writeBlocks, pwrites]
      generalize writeBlock f (env.pwrite k) entry created s = outcome at first blocks ⊢
      obtain ⟨err, created', s'⟩ := outcome
      simp only at first blocks ⊢
      rw [List.foldl_append, ← first]
      split_ifs with failed
      · rfl
      · rw [ih, blocks]

/-- The loop writes created blocks only. -/
theorem pwrites_created (f : FileRef) (env : WriteEnv) (entries : List (BlockRef × Page)) :
    ∀ (k : ℕ) (created : List BlockRef) (s : Store),
      ∀ w ∈ pwrites f env k entries created s, w.block ∈ created := by
  induction entries with
  | nil => exact fun _ _ _ w member => absurd member List.not_mem_nil
  | cons entry entries ih =>
      intro k created s w member
      have mineEq := @writeBlock_created_eq f entry created s (env.pwrite k)
      have oldEq := @writeBlock_old_eq f entry created s (env.pwrite k)
      rw [pwrites] at member
      generalize writeBlock f (env.pwrite k) entry created s = outcome at *
      obtain ⟨err, created', s'⟩ := outcome
      simp only at member mineEq oldEq
      rcases List.mem_append.mp member with here | later
      · split_ifs at here with mine
        · rw [List.mem_singleton.mp here]
          exact mine.1
        · exact absurd here List.not_mem_nil
      · split_ifs at later with failed
        · exact absurd later List.not_mem_nil
        · have inRest := ih _ _ _ w later
          by_cases mine : entry.1 ∈ created
          · rw [mineEq mine] at inRest
            exact List.mem_of_mem_erase inRest
          · rwa [oldEq mine] at inRest

/-- When the loop ends without an error, it has stored the created blocks it met if and only if
the `pwrite` at the first occurrence of each stored everything. -/
theorem pwrites_full_iff (f : FileRef) (env : WriteEnv) (entries : List (BlockRef × Page)) :
    ∀ (k : ℕ) (created : List BlockRef) (s : Store), created.Nodup →
      (writeBlocks f env k entries created s).1 = 0 →
      ((∀ b ∈ created, b ∈ entries.map Prod.fst →
          ∃ w ∈ pwrites f env k entries created s, w.block = b ∧ w.out = .full) ↔
        ∀ i b page, entries[i]? = some (b, page) → b ∈ created →
          b ∉ (entries.take i).map Prod.fst →
            s.backend_fd ≠ -1 ∧ env.pwrite (k + i) = .full) := by
  induction entries with
  | nil =>
      intro k created s _ _
      exact iff_of_true (fun b _ member => absurd member List.not_mem_nil)
        fun i b page at_ => by cases at_
  | cons entry entries ih =>
      intro k created s nodup success
      obtain ⟨c, page⟩ := entry
      have inRest := pwrites_created f env entries (k + 1)
        (writeBlock f (env.pwrite k) (c, page) created s).2.1
        (writeBlock f (env.pwrite k) (c, page) created s).2.2
      have online := (writeBlock_appended f (env.pwrite k) (c, page) created s).backend_fd
      have mineEq := @writeBlock_created_eq f (c, page) created s (env.pwrite k)
      have oldEq := @writeBlock_old_eq f (c, page) created s (env.pwrite k)
      rw [writeBlocks] at success
      rw [pwrites]
      generalize writeBlock f (env.pwrite k) (c, page) created s = outcome at *
      obtain ⟨err, created', s'⟩ := outcome
      simp only at success inRest online mineEq oldEq ⊢
      by_cases failed : err ≠ 0
      · rw [if_pos failed] at success
        exact absurd success failed
      rw [if_neg failed] at success ⊢
      by_cases mine : c ∈ created
      · have created_eq := mineEq mine
        subst created_eq
        have rest := ih (k + 1) (created.erase c) s' (nodup.erase c) success
        rw [online] at rest
        have others : ∀ b, b ∈ created.erase c ↔ b ≠ c ∧ b ∈ created := fun b =>
          nodup.mem_erase_iff
        constructor
        · intro stored i b page' at_ member unseen
          cases i with
          | zero =>
              obtain ⟨rfl, rfl⟩ := Prod.mk.inj (Option.some.inj at_)
              obtain ⟨w, inLog, rfl, full⟩ := stored c mine (by simp)
              rcases List.mem_append.mp inLog with here | later
              · split_ifs at here with open_
                · rw [List.mem_singleton.mp here] at full
                  exact ⟨open_.2, full⟩
                · exact absurd here List.not_mem_nil
              · exact absurd rfl ((others _).mp (inRest w later)).1
          | succ i =>
              rw [List.take_succ_cons, List.map_cons, List.mem_cons, not_or] at unseen
              have position : k + (i + 1) = k + 1 + i := by omega
              rw [position]
              refine rest.mp (fun b' member' inEntries => ?_) i b page' (by simpa using at_)
                ((others b).mpr ⟨unseen.1, member⟩) unseen.2
              obtain ⟨differ, mine'⟩ := (others b').mp member'
              obtain ⟨w, inLog, rfl, full⟩ := stored b' mine' (List.mem_cons_of_mem _ inEntries)
              rcases List.mem_append.mp inLog with here | later
              · split_ifs at here with open_
                · rw [List.mem_singleton.mp here] at differ
                  exact absurd rfl differ
                · exact absurd here List.not_mem_nil
              · exact ⟨w, later, rfl, full⟩
        · intro condition b member inEntries
          rcases eq_or_ne b c with rfl | differ
          · obtain ⟨open_, full⟩ := condition 0 b page rfl mine (by simp)
            refine ⟨⟨b, page, env.pwrite k⟩, List.mem_append_left _ ?_, rfl, full⟩
            rw [if_pos ⟨mine, open_⟩]
            exact List.mem_singleton_self _
          · have later : b ∈ entries.map Prod.fst :=
              (List.mem_cons.mp inEntries).resolve_left differ
            obtain ⟨w, inLog, same, full⟩ := rest.mpr (fun i b' page' at_ member' unseen => by
              obtain ⟨differ', mine'⟩ := (others b').mp member'
              have found := condition (i + 1) b' page' (by simpa using at_) mine' (by
                rw [List.take_succ_cons, List.map_cons, List.mem_cons, not_or]
                exact ⟨differ', unseen⟩)
              have position : k + 1 + i = k + (i + 1) := by omega
              rw [position]
              exact found) b ((others b).mpr ⟨differ, member⟩) later
            exact ⟨w, List.mem_append_right _ inLog, same, full⟩
      · have created_eq := oldEq mine
        subst created_eq
        have rest := ih (k + 1) created' s' nodup success
        rw [online] at rest
        rw [if_neg fun both => mine both.1, List.nil_append]
        constructor
        · intro stored i b page' at_ member unseen
          cases i with
          | zero =>
              obtain ⟨rfl, -⟩ := Prod.mk.inj (Option.some.inj at_)
              exact absurd member mine
          | succ i =>
              rw [List.take_succ_cons, List.map_cons, List.mem_cons, not_or] at unseen
              have position : k + (i + 1) = k + 1 + i := by omega
              rw [position]
              exact rest.mp (fun b' member' inEntries =>
                stored b' member' (List.mem_cons_of_mem _ inEntries)) i b page' (by simpa using at_)
                member unseen.2
        · intro condition b member inEntries
          have differ : b ≠ c := fun same => mine (same ▸ member)
          refine rest.mpr (fun i b' page' at_ member' unseen => ?_) b member
            ((List.mem_cons.mp inEntries).resolve_left differ)
          have position : k + 1 + i = k + (i + 1) := by omega
          rw [position]
          refine condition (i + 1) b' page' (by simpa using at_) member' ?_
          rw [List.take_succ_cons, List.map_cons, List.mem_cons, not_or]
          exact ⟨fun same : b' = c => mine (same ▸ member'), unseen⟩

end WriteLoop

/-! ## A write that succeeds -/

/-- The `pwrite`s of a call. -/
def writeTransfers (SHA512 : Page → BlockId) (path : Path) (buf : Bytes) (offset : ℤ)
    (env : WriteEnv) (s : Store) : List Pwrite :=
  if buf.length % 4096 ≠ 0 ∨ 2 ^ 31 < buf.length then []
  else
    let (f, s) := findFile path s
    if offset ≠ (s.files f).logicalSize ∨ env.memalign = false then []
    else
      let (tables, s) := placeBlocks (blockHashes SHA512 buf) s
      pwrites f env 0 (tables.newBlocksInfo.zip (bufferPages buf)) tables.my_created_blocks s

theorem findFile_outside (path : Path) (s : Store) : OutsideFiles s (findFile path s).2 := by
  unfold findFile
  cases s.fileIndex.lookup path with
  | some f => exact .refl s
  | none => exact ⟨rfl, rfl, rfl, rfl, rfl, rfl, rfl⟩

/-- The call changes the backing file by these `pwrite`s only. -/
theorem xmp_write_sysdata {SHA512 : Page → BlockId} {s t : Store} {path : Path} {buf : Bytes}
    {offset : ℤ} {env : WriteEnv} {ret : ℤ}
    (runs : xmp_write SHA512 path buf offset env s = some (ret, t)) :
    t.sysdata =
      (writeTransfers SHA512 path buf offset env s).foldl (Pwrite.store t.blocks) s.sysdata := by
  unfold xmp_write at runs
  unfold writeTransfers
  by_cases odd : buf.length % 4096 ≠ 0
  · rw [if_pos odd] at runs
    cases runs
    rw [if_pos (Or.inl odd)]
    rfl
  rw [if_neg odd] at runs
  split_ifs at runs with long
  rw [if_neg (not_or.mpr ⟨odd, long⟩)]
  have outside := findFile_outside path s
  generalize findFile path s = pair at runs outside ⊢
  obtain ⟨f, s'⟩ := pair
  simp only at runs outside ⊢
  by_cases differ : offset ≠ (s'.files f).logicalSize
  · rw [if_pos differ] at runs
    cases runs
    rw [if_pos (Or.inl differ)]
    exact outside.sysdata
  rw [if_neg differ] at runs
  have phases := appendBlocks_phases SHA512 f buf offset env s'
  rw [Option.some.inj runs] at phases
  have only := (placeBlocks_blocksOnly (blockHashes SHA512 buf) s').1
  rw [phases.sysdata, phases.blocks, ← outside.sysdata, ← only.sysdata]
  generalize placeBlocks (blockHashes SHA512 buf) s' = placed
  obtain ⟨tables, u⟩ := placed
  simp only
  unfold writeOut
  by_cases refused : env.memalign = false
  · rw [if_pos refused, if_pos (Or.inr refused)]
    rfl
  · rw [if_neg refused, if_neg (not_or.mpr ⟨differ, refused⟩)]
    exact writeBlocks_sysdata f env _ 0 _ u

/-- A write creates a block for page `i`: its hash is new to the index, and to the buffer. -/
def Creates (s : Store) (hashes : List BlockId) (i : ℕ) : Prop :=
  ∃ hash, hashes[i]? = some hash ∧ s.blockIndex.lookup hash = none ∧ hash ∉ hashes.take i

/-- The blocks of the I/O loop and the pages that call for them. -/
theorem creates_iff {SHA512 : Page → BlockId} {s : Store} (allocated : s.Allocated) (buf : Bytes)
    (holds : ℕ → Prop) :
    (∀ i b page, ((placeBlocks (blockHashes SHA512 buf) s).1.newBlocksInfo.zip
          (bufferPages buf))[i]? = some (b, page) →
        b ∈ (placeBlocks (blockHashes SHA512 buf) s).1.my_created_blocks →
        b ∉ (((placeBlocks (blockHashes SHA512 buf) s).1.newBlocksInfo.zip
          (bufferPages buf)).take i).map Prod.fst → holds i) ↔
      ∀ i, Creates s (blockHashes SHA512 buf) i → holds i := by
  obtain ⟨mid, resolved, -⟩ := placeBlocks_resolved allocated (blockHashes SHA512 buf)
  have length := (placeBlocks_blocksOnly (blockHashes SHA512 buf) s).2
  rw [length_blockHashes] at length
  generalize (placeBlocks (blockHashes SHA512 buf) s).1 = tables at resolved length ⊢
  have firsts : (tables.newBlocksInfo.zip (bufferPages buf)).map Prod.fst = tables.newBlocksInfo :=
    List.map_fst_zip length.le
  have earlier : ∀ i, ((tables.newBlocksInfo.zip (bufferPages buf)).take i).map Prod.fst =
      tables.newBlocksInfo.take i := fun i => by rw [List.map_take, firsts]
  -- a block is met twice where its hash is
  have again : ∀ {b i}, b ∈ tables.newBlocksInfo →
      (b ∈ tables.newBlocksInfo.take i ↔ (mid.blocks b).id ∈ (blockHashes SHA512 buf).take i) := by
    intro b i noted
    rw [← resolved.info, ← List.map_take]
    refine ⟨List.mem_map_of_mem, fun member => ?_⟩
    obtain ⟨c, inTake, same⟩ := List.mem_map.mp member
    have indexed := resolved.found c (List.mem_of_mem_take inTake)
    rw [same, resolved.found b noted] at indexed
    rwa [Option.some.inj indexed]
  have hashAt : ∀ i, (blockHashes SHA512 buf)[i]? =
      tables.newBlocksInfo[i]?.map fun b => (mid.blocks b).id := fun i => by
    rw [← resolved.info, List.getElem?_map]
  constructor
  · rintro all i ⟨hash, at_, absent, unseen⟩
    rw [hashAt] at at_
    obtain ⟨b, here, rfl⟩ := Option.map_eq_some_iff.mp at_
    have noted := List.mem_of_getElem? here
    have inside : i < (bufferPages buf).length := by
      rw [← length]
      exact (List.getElem?_eq_some_iff.mp here).1
    refine all i b ((bufferPages buf)[i]) ?_ ((resolved.created_iff allocated noted).mpr absent) ?_
    · rw [List.getElem?_zip_eq_some]
      exact ⟨here, List.getElem?_eq_getElem inside⟩
    · rw [earlier, again noted]
      exact unseen
  · intro all i b page at_ mine unseen
    have here := (List.getElem?_zip_eq_some.mp at_).1
    have noted := List.mem_of_getElem? here
    refine all i ⟨(mid.blocks b).id, ?_, (resolved.created_iff allocated noted).mp mine, ?_⟩
    · rw [hashAt, here]
      rfl
    · rwa [earlier, again noted] at unseen

/-- Every block the call created has been stored in full, at its offset. -/
def StoresCreated (s t : Store) (transfers : List Pwrite) : Prop :=
  ∀ b, s.nextBlock ≤ b → b < t.nextBlock → ∃ w ∈ transfers, w.block = b ∧ w.out = .full

/-- A write that returned the size has stored the blocks it created if and only if it had a
backing file, and no `pwrite` of a new page came back short. -/
theorem write_success_iff {SHA512 : Page → BlockId} {s t : Store} (allocated : s.Allocated)
    {path : Path} {buf : Bytes} {offset : ℤ} {env : WriteEnv} {ret : ℤ}
    (runs : xmp_write SHA512 path buf offset env s = some (ret, t)) (success : ret = buf.length) :
    StoresCreated s t (writeTransfers SHA512 path buf offset env s) ↔
      ∀ i, Creates s (blockHashes SHA512 buf) i → s.backend_fd ≠ -1 ∧ env.pwrite i = .full := by
  unfold xmp_write at runs
  unfold writeTransfers
  by_cases odd : buf.length % 4096 ≠ 0
  · rw [if_pos odd] at runs
    cases runs
    have negative : (-EINVAL : ℤ) < 0 := by decide
    omega
  rw [if_neg odd] at runs
  split_ifs at runs with long
  rw [if_neg (not_or.mpr ⟨odd, long⟩)]
  have outside := findFile_outside path s
  have found := findFile_pointers allocated path
  generalize findFile path s = pair at runs outside found ⊢
  obtain ⟨f, s'⟩ := pair
  simp only at runs outside found ⊢
  by_cases differ : offset ≠ (s'.files f).logicalSize
  · rw [if_pos differ] at runs
    cases runs
    have negative : (-ENOTSUP : ℤ) < 0 := by decide
    omega
  rw [if_neg differ] at runs
  have phases := appendBlocks_phases SHA512 f buf offset env s'
  have same := Option.some.inj runs
  rw [same] at phases
  have created := @creates_iff SHA512 s' found buf
    fun i => s'.backend_fd ≠ -1 ∧ env.pwrite i = .full
  have creates : ∀ i, Creates s' (blockHashes SHA512 buf) i ↔ Creates s (blockHashes SHA512 buf) i :=
    fun i => by rw [Creates, Creates, outside.blockIndex]
  simp only [creates, outside.backend_fd] at created
  rw [← created]
  have only := (placeBlocks_blocksOnly (blockHashes SHA512 buf) s').1
  obtain ⟨mid, resolved, offsets⟩ := placeBlocks_resolved found (blockHashes SHA512 buf)
  have code : ∀ placed, placeBlocks (blockHashes SHA512 buf) s' = placed →
      (if (writeOut f buf env placed.1 placed.2).1 ≠ 0 then (writeOut f buf env placed.1 placed.2).1
        else int32 buf.length) = ret := by
    rintro placed rfl
    exact congrArg Prod.fst same
  have length := (placeBlocks_blocksOnly (blockHashes SHA512 buf) s').2
  rw [length_blockHashes] at length
  generalize placeBlocks (blockHashes SHA512 buf) s' = placed at only resolved offsets code length phases ⊢
  obtain ⟨tables, u⟩ := placed
  simp only at only resolved offsets length phases ⊢
  have code := code (tables, u) rfl
  simp only at code
  by_cases refused : env.memalign = false
  · have negative : (-ENOMEM : ℤ) < 0 := by decide
    have failed : (writeOut f buf env tables u).1 = -ENOMEM := by rw [writeOut, if_pos refused]
    rw [failed, if_pos negative.ne] at code
    omega
  rw [if_neg (not_or.mpr ⟨differ, refused⟩)]
  have loop : writeOut f buf env tables u =
      writeBlocks f env 0 (tables.newBlocksInfo.zip (bufferPages buf)) tables.my_created_blocks u := by
    rw [writeOut, if_neg refused]
  rw [loop] at code
  have nonpos := writeBlocks_nonpos f env (tables.newBlocksInfo.zip (bufferPages buf)) 0
    tables.my_created_blocks u
  have ended : (writeBlocks f env 0 (tables.newBlocksInfo.zip (bufferPages buf))
      tables.my_created_blocks u).1 = 0 := by
    by_contra failed
    rw [if_pos failed] at code
    omega
  have stored := pwrites_full_iff f env (tables.newBlocksInfo.zip (bufferPages buf)) 0
    tables.my_created_blocks u resolved.createdNodup ended
  rw [only.backend_fd, outside.backend_fd] at stored
  simp only [Nat.zero_add] at stored
  rw [← stored, StoresCreated, ← outside.nextBlock, phases.nextBlock, offsets.nextBlock,
    List.map_fst_zip length.le]
  constructor
  · intro all b mine _
    obtain ⟨lower, upper⟩ := (resolved.created b).mp mine
    exact all b lower upper
  · intro all b lower upper
    have mine := (resolved.created b).mpr ⟨lower, upper⟩
    exact all b mine (resolved.noted b mine)

/-! ## A read that succeeds -/

/-- Where in its buffer an iteration on block `i` starts to copy. -/
def copyStart (offset i : ℤ) : ℤ := if i * 4096 < offset then offset - i * 4096 else 0

/-- How many bytes it copies after `total` others. -/
def copyLength (offset : ℤ) (size total : ℕ) (i : ℤ) : ℕ :=
  if size < uint64 ((total : ℤ) + uint64 (4096 - copyStart offset i)) then
    uint64 ((size : ℤ) - total)
  else uint64 (4096 - copyStart offset i)

theorem copyStart_nonneg (offset i : ℤ) : 0 ≤ copyStart offset i := by
  unfold copyStart
  split_ifs with first
  · exact Int.sub_nonneg.mpr first.le
  · exact le_rfl

/-- How a `pread` ended. -/
def PreadOut.transfer : PreadOut → Errno ⊕ Fin 4097
  | .fail errno => .inl errno
  | .done n _ => .inr n

/-- The same transfers into buffers that may have held something else. -/
structure ReadEnv.SameTransfers (env env' : ReadEnv) : Prop where
  memalign : ∀ k, env'.memalign k = env.memalign k
  pread : ∀ k, (env'.pread k).transfer = (env.pread k).transfer

/-- Every `pread` of the copy loop delivered the bytes that are copied from its buffer. -/
def Delivers (env : ReadEnv) (offset : ℤ) (size : ℕ) : ℕ → List (ℤ × BlockRef) → ℕ → Prop
  | _, [], _ => True
  | k, entry :: rest, total =>
      (∀ n before, env.pread k = .done n before →
        copyLength offset size total entry.1 = 0 ∨
          copyStart offset entry.1 + copyLength offset size total entry.1 ≤ (n : ℕ)) ∧
      Delivers env offset size (k + 1) rest (total + copyLength offset size total entry.1)

section ReadLoop

variable {s : Store} {env env' : ReadEnv} {offset : ℤ} {capacity size : ℕ}

theorem copyBlock_eq (s : Store) (memalign : Bool) (pread : PreadOut) (offset : ℤ)
    (capacity size : ℕ) (entry : ℤ × BlockRef) (buf : Bytes) :
    copyBlock s memalign pread offset capacity size entry buf =
      if s.backend_fd = -1 then some (-EBADF, buf)
      else if memalign = false then some (-ENOMEM, buf)
      else
        match pread with
        | .fail errno => some (-(errno : ℤ), buf)
        | .done n before =>
            if copyStart offset entry.1 + copyLength offset size buf.length entry.1 ≤ 4096 ∧
                buf.length + copyLength offset size buf.length entry.1 ≤ capacity then
              some (0, buf ++ ((deliver (s.pageOf entry.2) before n).drop
                (copyStart offset entry.1).toNat).take (copyLength offset size buf.length entry.1))
            else none :=
  rfl

/-- What a successful iteration does. -/
theorem copyBlock_zero {memalign : Bool} {pread : PreadOut} {entry : ℤ × BlockRef} {buf out : Bytes}
    (runs : copyBlock s memalign pread offset capacity size entry buf = some (0, out)) :
    ∃ n before, pread = .done n before ∧
      copyStart offset entry.1 + copyLength offset size buf.length entry.1 ≤ 4096 ∧
      out = buf ++ ((deliver (s.pageOf entry.2) before n).drop (copyStart offset entry.1).toNat).take
        (copyLength offset size buf.length entry.1) := by
  rw [copyBlock_eq] at runs
  by_cases offline : s.backend_fd = -1
  · rw [if_pos offline] at runs
    have nonzero : (-EBADF : ℤ) ≠ 0 := by decide
    exact absurd (congrArg Prod.fst (Option.some.inj runs)) nonzero
  rw [if_neg offline] at runs
  by_cases refused : memalign = false
  · rw [if_pos refused] at runs
    have nonzero : (-ENOMEM : ℤ) ≠ 0 := by decide
    exact absurd (congrArg Prod.fst (Option.some.inj runs)) nonzero
  rw [if_neg refused] at runs
  cases pread with
  | fail errno =>
      have code : -(errno : ℤ) = 0 := congrArg Prod.fst (Option.some.inj runs)
      have positive : (0 : ℤ) < errno := by exact_mod_cast errno.pos
      omega
  | done n before =>
      simp only at runs
      split_ifs at runs with room
      exact ⟨n, before, rfl, room.1, (congrArg Prod.snd (Option.some.inj runs)).symm⟩

/-- The same transfer succeeds as well, and copies from the same place. -/
theorem copyBlock_again {memalign : Bool} {n : Fin 4097} {before before' : Page}
    {entry : ℤ × BlockRef} {buf out : Bytes}
    (runs : copyBlock s memalign (.done n before) offset capacity size entry buf = some (0, out)) :
    copyBlock s memalign (.done n before') offset capacity size entry buf = some (0, buf ++
      ((deliver (s.pageOf entry.2) before' n).drop (copyStart offset entry.1).toNat).take
        (copyLength offset size buf.length entry.1)) := by
  rw [copyBlock_eq] at runs ⊢
  by_cases offline : s.backend_fd = -1
  · rw [if_pos offline] at runs
    have nonzero : (-EBADF : ℤ) ≠ 0 := by decide
    exact absurd (congrArg Prod.fst (Option.some.inj runs)) nonzero
  rw [if_neg offline] at runs ⊢
  by_cases refused : memalign = false
  · rw [if_pos refused] at runs
    have nonzero : (-ENOMEM : ℤ) ≠ 0 := by decide
    exact absurd (congrArg Prod.fst (Option.some.inj runs)) nonzero
  rw [if_neg refused] at runs ⊢
  simp only at runs ⊢
  split_ifs at runs ⊢
  rfl

/-- Past what was delivered, the buffer is as it was. -/
theorem deliver_rest (page before : Page) (n : Fin 4097) {j : ℕ} (past : (n : ℕ) ≤ j) :
    (deliver page before n)[j]? = before.toList[j]? := by
  have bound := n.isLt
  have length : (page.toList.take n).length = n := by
    rw [List.length_take, length_page]
    omega
  rw [deliver, List.getElem?_append_right (by omega), length, List.getElem?_drop]
  congr 1
  omega

/-- The bytes copied do not depend on what the buffer held if and only if they were delivered. -/
theorem deliver_window_iff (page : Page) (n : Fin 4097) (before : Page) {start length : ℕ}
    (inside : start + length ≤ 4096) :
    (∀ before', ((deliver page before' n).drop start).take length =
        ((deliver page before n).drop start).take length) ↔
      length = 0 ∨ start + length ≤ (n : ℕ) := by
  have bound := n.isLt
  constructor
  · intro same
    by_contra neither
    obtain ⟨some_, short⟩ := not_or.mp neither
    -- a buffer that held other bytes shows in the last byte copied
    have last : ∀ held : Page, (((deliver page held n).drop start).take length)[length - 1]? =
        held.toList[start + length - 1]? := by
      intro held
      rw [List.getElem?_take_of_lt (by omega), List.getElem?_drop, ← deliver_rest page held n
        (by omega)]
      congr 1
      omega
    have equal := last (before.map (· + 1))
    rw [same, last, List.Vector.toList_map, List.getElem?_map] at equal
    have there : start + length - 1 < before.toList.length := by
      rw [length_page]
      omega
    rw [List.getElem?_eq_getElem there, Option.map_some] at equal
    have self_ : before.toList[start + length - 1] + 0 = before.toList[start + length - 1] + 1 := by
      rw [UInt8.add_zero]
      exact Option.some.inj equal
    exact absurd ((UInt8.add_right_inj _).mp self_) (by decide)
  · rintro (rfl | delivered) before'
    · rw [List.take_zero, List.take_zero]
    · have front : ∀ held : Page, ((deliver page held n).drop start).take length =
          ((page.toList.take n).drop start).take length := by
        intro held
        have whole : (page.toList.take n).length = n := by
          rw [List.length_take, length_page]
          omega
        rw [deliver, List.drop_append_of_le_length (by omega), List.take_append_of_le_length]
        rw [List.length_drop, whole]
        omega
      rw [front, front]

/-- Iterations that are past do not matter. -/
theorem copyBlocks_congr (entries : List (ℤ × BlockRef)) :
    ∀ (k : ℕ) (buf : Bytes),
      (∀ j, k ≤ j → env'.memalign j = env.memalign j ∧ env'.pread j = env.pread j) →
      copyBlocks s env' offset capacity size k entries buf =
        copyBlocks s env offset capacity size k entries buf := by
  induction entries with
  | nil => exact fun _ _ _ => rfl
  | cons entry entries ih =>
      intro k buf same
      have later : ∀ out, copyBlocks s env' offset capacity size (k + 1) entries out =
          copyBlocks s env offset capacity size (k + 1) entries out := fun out =>
        ih (k + 1) out fun j above => same j (by omega)
      simp only [copyBlocks, (same k le_rfl).1, (same k le_rfl).2, later]

/-- A loop that copies something ends with an extension of its buffer. -/
theorem copyBlocks_extends (entries : List (ℤ × BlockRef)) :
    ∀ (k : ℕ) (buf out : Bytes),
      copyBlocks s env offset capacity size k entries buf = some (0, out) → buf <+: out := by
  induction entries with
  | nil =>
      intro k buf out runs
      cases runs
      exact List.prefix_rfl
  | cons entry entries ih =>
      intro k buf out runs
      obtain ⟨⟨err, mid⟩, first, rest⟩ := Option.bind_eq_some_iff.mp runs
      simp only at rest
      split_ifs at rest with failed
      · exact absurd (congrArg Prod.fst (Option.some.inj rest)) failed
      · rw [not_not.mp failed] at first
        obtain ⟨n, before, -, -, rfl⟩ := copyBlock_zero first
        exact (List.prefix_append _ _).trans (ih _ _ _ rest)

/-- When the loop succeeds, its bytes do not depend on what the buffers held if and only if all
of them were delivered. -/
theorem copyBlocks_delivers_iff (entries : List (ℤ × BlockRef)) :
    ∀ (env : ReadEnv) (k : ℕ) (buf out : Bytes),
      copyBlocks s env offset capacity size k entries buf = some (0, out) →
      ((∀ env', env.SameTransfers env' →
          copyBlocks s env' offset capacity size k entries buf = some (0, out)) ↔
        Delivers env offset size k entries buf.length) := by
  induction entries with
  | nil => exact fun env k buf out runs => iff_of_true (fun _ _ => runs) trivial
  | cons entry entries ih =>
      intro env k buf out runs
      obtain ⟨⟨err, mid⟩, first, rest⟩ := Option.bind_eq_some_iff.mp runs
      simp only at rest
      split_ifs at rest with failed
      · exact absurd (congrArg Prod.fst (Option.some.inj rest)) failed
      rw [not_not.mp failed] at first
      obtain ⟨n, before, outcome, inside, rfl⟩ := copyBlock_zero first
      have start : ((copyStart offset entry.1).toNat : ℤ) = copyStart offset entry.1 :=
        Int.toNat_of_nonneg (copyStart_nonneg _ _)
      have window := @deliver_window_iff (s.pageOf entry.2) n before
        (copyStart offset entry.1).toNat (copyLength offset size buf.length entry.1) (by omega)
      have copied : ∀ held : Page, (((deliver (s.pageOf entry.2) held n).drop
          (copyStart offset entry.1).toNat).take (copyLength offset size buf.length entry.1)).length =
            copyLength offset size buf.length entry.1 := by
        intro held
        rw [List.length_take, List.length_drop, length_deliver]
        omega
      -- the iteration, on a buffer that held something else
      have again : ∀ env' : ReadEnv, env.SameTransfers env' → ∃ held, env'.pread k = .done n held ∧
          copyBlocks s env' offset capacity size k (entry :: entries) buf =
            copyBlocks s env' offset capacity size (k + 1) entries (buf ++
              ((deliver (s.pageOf entry.2) held n).drop (copyStart offset entry.1).toNat).take
                (copyLength offset size buf.length entry.1)) := by
        intro env' transfers
        have ended := transfers.pread k
        rw [outcome] at ended first
        cases now : env'.pread k with
        | fail errno =>
            rw [now] at ended
            cases ended
        | done n' held =>
            rw [now] at ended
            obtain rfl : n' = n := Sum.inr.inj ended
            refine ⟨held, rfl, ?_⟩
            rw [copyBlocks, now, transfers.memalign, copyBlock_again first]
            rfl
      have tail := ih env (k + 1) _ out rest
      rw [List.length_append, copied] at tail
      constructor
      · intro all
        refine ⟨fun n' before' now => ?_, tail.mp fun env' transfers => ?_⟩
        · rw [outcome] at now
          obtain ⟨rfl, rfl⟩ := PreadOut.done.inj now
          rw [← start]
          refine (window.mp fun held => ?_).imp_right fun within => by omega
          let other : ReadEnv := ⟨env.memalign, Function.update env.pread k (.done n held)⟩
          have chosen : other.pread k = .done n held := Function.update_self ..
          have transfers : env.SameTransfers other := by
            refine ⟨fun _ => rfl, fun j => ?_⟩
            rcases eq_or_ne j k with rfl | differ
            · rw [outcome, chosen]
              rfl
            · exact congrArg PreadOut.transfer (Function.update_of_ne differ ..)
          obtain ⟨held', now', runs'⟩ := again other transfers
          obtain ⟨-, rfl⟩ := PreadOut.done.inj (now'.symm.trans chosen)
          -- both loops end with the same bytes, of which these come first
          have extended := copyBlocks_extends _ _ _ _ (runs'.symm.trans (all other transfers))
          have extends_ := copyBlocks_extends _ _ _ _ rest
          have equal : _ ++ _ = _ ++ _ := (List.prefix_iff_eq_take.mp extended).trans (by
            rw [List.length_append, copied, ← copied before, ← List.length_append]
            exact (List.prefix_iff_eq_take.mp extends_).symm)
          exact List.append_cancel_left equal
        · let other : ReadEnv := ⟨env'.memalign, Function.update env'.pread k (env.pread k)⟩
          have chosen : other.pread k = env.pread k := Function.update_self ..
          have transfers' : env.SameTransfers other := by
            refine ⟨transfers.memalign, fun j => ?_⟩
            rcases eq_or_ne j k with rfl | differ
            · rw [chosen]
            · exact (congrArg PreadOut.transfer (Function.update_of_ne differ ..)).trans
                (transfers.pread j)
          obtain ⟨held, now, runs'⟩ := again other transfers'
          rw [chosen, outcome] at now
          obtain ⟨-, rfl⟩ := PreadOut.done.inj now
          rw [← all other transfers', runs']
          refine @copyBlocks_congr s other env' offset capacity size entries (k + 1) _
            fun j above => ⟨rfl, ?_⟩
          exact (Function.update_of_ne (by omega) ..).symm
      · rintro ⟨delivered, later⟩ env' transfers
        obtain ⟨held, -, runs'⟩ := again env' transfers
        have here := delivered n before outcome
        rw [runs', window.mpr (here.imp_right fun within => by omega) held]
        exact tail.mpr later env' transfers

/-- The loop ends with 0 or with a negative `errno`. -/
theorem copyBlocks_nonpos (entries : List (ℤ × BlockRef)) :
    ∀ (k : ℕ) (buf out : Bytes) (err : ℤ),
      copyBlocks s env offset capacity size k entries buf = some (err, out) → err ≤ 0 := by
  have one : ∀ (memalign : Bool) (pread : PreadOut) (entry : ℤ × BlockRef) (buf out : Bytes)
      (err : ℤ), copyBlock s memalign pread offset capacity size entry buf = some (err, out) →
      err ≤ 0 := by
    intro memalign pread entry buf out err runs
    rw [copyBlock_eq] at runs
    cases pread with
    | fail errno =>
        simp only at runs
        split_ifs at runs
        · cases runs
          decide
        · cases runs
          decide
        · cases runs
          exact neg_nonpos.mpr (Int.natCast_nonneg errno)
    | done n before =>
        split_ifs at runs
        · cases runs
          decide
        · cases runs
          decide
        · cases runs
          exact le_rfl
  induction entries with
  | nil =>
      intro k buf out err runs
      cases runs
      exact le_rfl
  | cons entry entries ih =>
      intro k buf out err runs
      obtain ⟨⟨err', mid⟩, first, rest⟩ := Option.bind_eq_some_iff.mp runs
      simp only at rest
      split_ifs at rest
      · cases rest
        exact one _ _ _ _ _ _ first
      · exact ih _ _ _ _ rest

end ReadLoop

/-- Every byte a read copies was delivered by the `pread` it is copied from. -/
def ReadDelivers (path : Path) (size : ℕ) (offset : ℤ) (env : ReadEnv) (s : Store) : Prop :=
  ∀ f entries, s.fileIndex.lookup path = some f →
    windowBlocks (s.files f).blockList (startIndex offset)
      (endIndex offset (clampSize (s.files f).logicalSize offset size)) = some entries →
    Delivers env offset (clampSize (s.files f).logicalSize offset size) 0 entries 0

/-- The bytes of a read that returned a number of bytes come from its `pread`s if and only if
each of these delivered what is copied from its buffer. -/
theorem read_success_iff {s : Store} {path : Path} {size : ℕ} {offset : ℤ} {env : ReadEnv} {ret : ℤ}
    {buf : Bytes} (runs : xmp_read path size offset env s = some (ret, buf)) (success : 0 < ret) :
    (∀ env', env.SameTransfers env' → xmp_read path size offset env' s = some (ret, buf)) ↔
      ReadDelivers path size offset env s := by
  unfold xmp_read at runs ⊢
  by_cases odd : size % 4096 ≠ 0
  · rw [if_pos odd] at runs
    cases runs
    exact absurd success (by decide)
  simp only [if_neg odd] at runs ⊢
  cases found : s.fileIndex.lookup path with
  | none =>
      rw [found] at runs
      cases runs
      exact absurd success (by decide)
  | some f =>
      rw [found] at runs
      simp only at runs ⊢
      by_cases past : (s.files f).logicalSize ≤ offset
      · rw [if_pos past] at runs
        cases runs
        exact absurd success (lt_irrefl 0)
      simp only [if_neg past] at runs ⊢
      obtain ⟨entries, window, loop⟩ := Option.bind_eq_some_iff.mp runs
      rw [window]
      set clamped := clampSize (s.files f).logicalSize offset size
      -- a positive result is one of a loop that met no error
      have ended : ∀ env' : ReadEnv,
          ((copyBlocks s env' offset size clamped 0 entries []).bind fun out =>
            some (if out.1 ≠ 0 then out.1 else int32 (out.2.length : ℤ), out.2)) = some (ret, buf) →
          copyBlocks s env' offset size clamped 0 entries [] = some (0, buf) := by
        intro env' result
        obtain ⟨⟨err, out⟩, last, value⟩ := Option.bind_eq_some_iff.mp result
        have nonpos := copyBlocks_nonpos entries 0 [] out err last
        obtain ⟨code, rfl⟩ := Prod.mk.inj (Option.some.inj value)
        have zero : err = 0 := by
          by_contra failed
          rw [if_pos failed] at code
          omega
        rw [last, zero]
      have loops := ended env loop
      have delivers := copyBlocks_delivers_iff entries env 0 [] buf loops
      have result : ∀ env' : ReadEnv, copyBlocks s env' offset size clamped 0 entries [] =
          some (0, buf) → ((copyBlocks s env' offset size clamped 0 entries []).bind
            fun out => some (if out.1 ≠ 0 then out.1 else int32 (out.2.length : ℤ), out.2)) =
              some (ret, buf) := by
        intro env' same
        rw [same, ← loops]
        exact loop
      constructor
      · rintro all g entries' found' window'
        rw [found] at found'
        obtain rfl := Option.some.inj found'
        rw [window] at window'
        obtain rfl := Option.some.inj window'
        exact delivers.mp fun env' transfers => ended env' (all env' transfers)
      · intro whole env' transfers
        exact result env' (delivers.mpr (whole f entries found window) env' transfers)

/-! ## Both -/

/-- **When success means that the bytes were transferred.**  For a write that returned the size,
if and only if it had a backing file and every `pwrite` of a new page stored 4096 bytes; for a
read that returned a number of bytes, if and only if every `pread` delivered what is copied from
its buffer. -/
theorem success_transfers_iff {SHA512 : Page → BlockId} {s t u : Store} (allocated : s.Allocated)
    {path path' : Path} {buf out : Bytes} {offset offset' : ℤ} {size : ℕ} {env : WriteEnv}
    {env' : ReadEnv} {ret ret' : ℤ}
    (writes : xmp_write SHA512 path buf offset env s = some (ret, t)) (whole : ret = buf.length)
    (reads : xmp_read path' size offset' env' u = some (ret', out)) (positive : 0 < ret') :
    (StoresCreated s t (writeTransfers SHA512 path buf offset env s) ↔
        ∀ i, Creates s (blockHashes SHA512 buf) i → s.backend_fd ≠ -1 ∧ env.pwrite i = .full) ∧
      ((∀ env'', env'.SameTransfers env'' → xmp_read path' size offset' env'' u = some (ret', out)) ↔
        ReadDelivers path' size offset' env' u) :=
  ⟨write_success_iff allocated writes whole, read_success_iff reads positive⟩

/-- The first page of a session, written and read back in full. -/
theorem success_transfers_iff_page :
    (StoresCreated (Store.empty 3 fun _ => 0) (Store.onePage (3 : ℕ) (fun _ => 0) (CString.lit "/a")
          (letterDigest pageOfA) pageOfA)
        (writeTransfers letterDigest (CString.lit "/a") pageOfA.toList 0 .fine
          (Store.empty 3 fun _ => 0)) ↔
      ∀ i, Creates (Store.empty 3 fun _ => 0) (blockHashes letterDigest pageOfA.toList) i →
        (Store.empty 3 fun _ => 0).backend_fd ≠ -1 ∧ WriteEnv.fine.pwrite i = .full) ∧
    ((∀ env, ReadEnv.fine.SameTransfers env → xmp_read (CString.lit "/a") 4096 (0 : ℕ) env
          (Store.single (3 : ℕ) (fun _ => 0) ⟨CString.lit "/a", 4096, 4096, [0], true, false⟩
            (.atStart digestOfA 1)) = some (4096, ByteDisk.read (fun _ => 0) 0 4096)) ↔
      ReadDelivers (CString.lit "/a") 4096 (0 : ℕ) .fine
        (Store.single (3 : ℕ) (fun _ => 0) ⟨CString.lit "/a", 4096, 4096, [0], true, false⟩
          (.atStart digestOfA 1))) := by
  have length : pageOfA.toList.length = 4096 := length_page pageOfA
  exact success_transfers_iff (Store.empty_allocated 3 fun _ => 0)
    (@xmp_write_first letterDigest 3 (fun _ => 0) _ pageOfA .fine rfl rfl) (by rw [length]; rfl)
    (xmp_read_single 3 (fun _ => 0) (CString.lit "/a") 4096 digestOfA 1) (by norm_num)

/-- Transfers of 100 bytes. -/
def WriteEnv.short : WriteEnv := ⟨true, fun _ => .done 100⟩

def ReadEnv.short : ReadEnv := ⟨fun _ => true, fun _ => .done 100 pageOfA⟩

/-- A write does not look at how much was written. -/
theorem xmp_write_short (fd : ℕ) (sysdata : ByteDisk.Disk) (path : Path) (page : Page) :
    ∃ t, xmp_write letterDigest path page.toList 0 .short (Store.empty fd sysdata) =
      some (4096, t) := by
  have length : page.toList.length = 4096 := page.toList_length
  have created : findFile path (Store.empty fd sysdata) =
      (0, createFile path (Store.empty fd sysdata)) := rfl
  have absent : (createFile path (Store.empty fd sysdata)).blockIndex.lookup (letterDigest page) =
      none := rfl
  have code : (writeOut 0 page.toList .short
      (placeBlocks (blockHashes letterDigest page.toList) (createFile path (Store.empty fd sysdata))).1
      (placeBlocks (blockHashes letterDigest page.toList)
        (createFile path (Store.empty fd sysdata))).2).1 = 0 := by
    rw [blockHashes_page, placeBlocks_absent absent]
    have granted : ¬ WriteEnv.short.memalign = false := by decide
    rw [writeOut, if_neg granted, bufferPages_page]
    rfl
  unfold xmp_write
  rw [length, if_neg (by decide), if_neg (by decide), created]
  simp only
  rw [if_neg (by simp [createFile, Store.empty, Filemeta.zero]), appendBlocks_eq]
  simp only [code, length]
  exact ⟨_, rfl⟩

/-- A write that stored 100 bytes of a new page returns 4096, and so does a read that was
delivered 100. -/
theorem short_transfers_succeed :
    (∃ t, xmp_write letterDigest (CString.lit "/a") pageOfA.toList 0 .short
        (Store.empty 3 fun _ => 0) = some (4096, t) ∧
      ¬ StoresCreated (Store.empty 3 fun _ => 0) t (writeTransfers letterDigest (CString.lit "/a")
        pageOfA.toList 0 .short (Store.empty 3 fun _ => 0))) ∧
    ∃ buf, xmp_read (CString.lit "/a") 4096 (0 : ℕ) .short holdsA = some (4096, buf) ∧
      ¬ ∀ env, ReadEnv.short.SameTransfers env →
        xmp_read (CString.lit "/a") 4096 (0 : ℕ) env holdsA = some (4096, buf) := by
  constructor
  · obtain ⟨t, runs⟩ := xmp_write_short 3 (fun _ => 0) (CString.lit "/a") pageOfA
    refine ⟨t, runs, fun stored => ?_⟩
    have length : pageOfA.toList.length = 4096 := length_page pageOfA
    have whole : (4096 : ℤ) = pageOfA.toList.length := by
      rw [length]
      rfl
    have transfers := (write_success_iff (Store.empty_allocated 3 fun _ => 0) runs whole).mp stored
    have created : Creates (Store.empty 3 fun _ => 0) (blockHashes letterDigest pageOfA.toList) 0 :=
      ⟨letterDigest pageOfA, by rw [blockHashes_page]; rfl, rfl, List.not_mem_nil⟩
    have full : PwriteOut.done 100 = .done (Fin.last 4096) := (transfers 0 created).2
    exact absurd (PwriteOut.done.inj full) (by decide)
  · have found : holdsA.fileIndex.lookup (CString.lit "/a") = some 0 :=
      Store.single_fileIndex _ _ ⟨CString.lit "/a", 4096, 4096, [0], true, false⟩ _
    have file : holdsA.files 0 = ⟨CString.lit "/a", 4096, 4096, [0], true, false⟩ :=
      Store.single_files _ _ _ _
    obtain ⟨window, -, err, out, runs, -, -, works, result⟩ :=
      @xmp_read_window holdsA _ 0 4096 0 4096 .short found (by rw [file]; rfl) (by rw [file]; rfl)
        (by norm_num) (by norm_num) (by norm_num) (by norm_num)
    have worked : err = 0 := works.mpr fun k _ => ⟨by decide, rfl, fun errno same => nomatch same⟩
    have length : out.length = 4096 := by
      rw [result worked, length_slice, length_loadedBytes, file]
      rfl
    have value : (if (0 : ℤ) ≠ 0 then 0 else int32 (4096 : ℕ)) = 4096 := by decide
    rw [worked, length, value] at runs
    refine ⟨out, runs, fun all => ?_⟩
    have delivers := (read_success_iff runs (by norm_num)).mp all 0 _ found window
    have one : entriesFrom (holdsA.files 0).blockList (0 / 4096)
        (blocksRead 0 (min 4096 (4096 - 0))) = [(0, 0)] := by
      rw [file]
      rfl
    have clamped : clampSize (holdsA.files 0).logicalSize (0 : ℕ) 4096 = 4096 := by
      rw [file]
      decide
    rw [one, clamped] at delivers
    have copied : copyLength (0 : ℕ) 4096 0 0 = 4096 := by decide
    rcases delivers.1 100 pageOfA rfl with none_ | within
    · rw [copied] at none_
      cases none_
    · rw [copied] at within
      exact absurd within (by decide)

end ProjetoTSO.Codededup
