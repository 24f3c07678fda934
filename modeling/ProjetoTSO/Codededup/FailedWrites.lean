import ProjetoTSO.Codededup.Acknowledged
import ProjetoTSO.Codededup.Sizes

/-!
# What a failed write leaves behind

When a write finds that it cannot go on, it has created the entry of its file, raised the
counters of its blocks and published those it created, and undoes none of this.  It leaves the
store as it was in the three cases where it had done nothing yet
(`failed_write_unchanged_iff`).
-/

namespace ProjetoTSO.Codededup

open CInt ByteStream

/-- The store is as it was, but for disk space that no indexed block owns. -/
structure Unchanged (s t : Store) : Prop where
  fileIndex : t.fileIndex = s.fileIndex
  blockList : ∀ {path f}, s.fileIndex.lookup path = some f →
    (t.files f).blockList = (s.files f).blockList
  logicalSize : ∀ {path f}, s.fileIndex.lookup path = some f →
    (t.files f).logicalSize = (s.files f).logicalSize
  realSize : ∀ {path f}, s.fileIndex.lookup path = some f →
    (t.files f).realSize = (s.files f).realSize
  blockIndex : t.blockIndex = s.blockIndex
  counter : ∀ {hash b}, s.blockIndex.lookup hash = some b →
    (t.blocks b).counter = (s.blocks b).counter
  freeList : t.freeList = s.freeList
  next_free_offset : t.next_free_offset = s.next_free_offset
  pages : ∀ {hash b}, s.blockIndex.lookup hash = some b → t.pageOf b = s.pageOf b

theorem Unchanged.refl (s : Store) : Unchanged s s :=
  ⟨rfl, fun _ => rfl, fun _ => rfl, fun _ => rfl, rfl, fun _ => rfl, rfl, rfl, fun _ => rfl⟩

/-- Less than a full turn of an `int` changes it. -/
theorem int32_add_ne {z : ℤ} {n : ℕ} (some_ : 0 < n) (few : n < 2 ^ 32) : int32 (z + n) ≠ z := by
  unfold int32
  rw [Int.bmod_def]
  omega

section Append

variable {SHA512 : Page → BlockId} {s : Store} {path : Path} {buf : Bytes} {offset : ℤ}
variable {env : WriteEnv} {f : FileRef}

/-- Where the parts of the store come from that an append leaves. -/
structure Phases (f : FileRef) (buf : Bytes) (env : WriteEnv) (s : Store)
    (placed : WriteTables × Store) (t : Store) : Prop where
  fileIndex : t.fileIndex = s.fileIndex
  blockIndex : t.blockIndex = placed.2.blockIndex
  blocks : t.blocks = placed.2.blocks
  nextBlock : t.nextBlock = placed.2.nextBlock
  sysdata : t.sysdata = (writeOut f buf env placed.1 placed.2).2.sysdata

theorem appendBlocks_phases (SHA512 : Page → BlockId) (f : FileRef) (buf : Bytes) (offset : ℤ)
    (env : WriteEnv) (s : Store) :
    Phases f buf env s (placeBlocks (blockHashes SHA512 buf) s)
      (appendBlocks SHA512 f buf offset env s).2 := by
  obtain ⟨only, length⟩ := placeBlocks_blocksOnly (blockHashes SHA512 buf) s
  rw [length_blockHashes] at length
  obtain ⟨added, -, appended, -⟩ := @writeOut_lists f buf env _
    (placeBlocks (blockHashes SHA512 buf) s).2 length
  have grown : ∀ err u, u.fileIndex = s.fileIndex →
      u.blockIndex = (placeBlocks (blockHashes SHA512 buf) s).2.blockIndex →
      u.blocks = (placeBlocks (blockHashes SHA512 buf) s).2.blocks →
      u.nextBlock = (placeBlocks (blockHashes SHA512 buf) s).2.nextBlock →
      u.sysdata = (writeOut f buf env (placeBlocks (blockHashes SHA512 buf) s).1
        (placeBlocks (blockHashes SHA512 buf) s).2).2.sysdata →
      Phases f buf env s (placeBlocks (blockHashes SHA512 buf) s)
        (growFile f err offset buf.length u) := by
    intro err u fileIndex blockIndex blocks nextBlock sysdata
    obtain ⟨logicalSize, assigned⟩ := growFile_eq f err offset buf.length u
    rw [assigned]
    exact ⟨fileIndex, blockIndex, blocks, nextBlock, sysdata⟩
  rw [appendBlocks_eq]
  exact grown _ _ (appended.fileIndex.trans only.fileIndex) appended.blockIndex appended.blocks
    appended.nextBlock rfl

/-- An append of some blocks leaves a trace, whatever became of it. -/
theorem appendBlocks_changes (allocated : s.Allocated) (nonempty : blockHashes SHA512 buf ≠ [])
    (short : buf.length ≤ 2 ^ 31) :
    ¬ Unchanged s (appendBlocks SHA512 f buf offset env s).2 := by
  intro unchanged
  have phases := appendBlocks_phases SHA512 f buf offset env s
  obtain ⟨mid, resolved, offsets⟩ := placeBlocks_resolved allocated (blockHashes SHA512 buf)
  obtain ⟨hash, member⟩ := List.exists_mem_of_ne_nil _ nonempty
  have few : (blockHashes SHA512 buf).count hash < 2 ^ 32 := by
    have bound := List.count_le_length (a := hash) (l := blockHashes SHA512 buf)
    rw [length_blockHashes, length_bufferPages] at bound
    omega
  cases found : s.blockIndex.lookup hash with
  | some b =>
      have same := unchanged.counter found
      rw [phases.blocks, offsets.counter, resolved.counter found member] at same
      exact int32_add_ne (List.count_pos_iff.mpr member) few same
  | none =>
      rw [← resolved.info] at member
      obtain ⟨b, noted, rfl⟩ := List.mem_map.mp member
      have inIndex := resolved.found b noted
      rw [← offsets.blockIndex, ← phases.blockIndex, unchanged.blockIndex, found] at inIndex
      cases inIndex

/-- Nothing to write: the call asks for memory, and that is all. -/
theorem appendBlocks_nil (SHA512 : Page → BlockId) (f : FileRef) (offset : ℤ) (env : WriteEnv)
    (s : Store) :
    (appendBlocks SHA512 f [] offset env s) =
      if env.memalign = false then (-ENOMEM, s) else (0, growFile f 0 offset 0 s) := by
  have none_ : placeBlocks (blockHashes SHA512 []) s = (WriteTables.empty, s) := rfl
  rw [appendBlocks_eq, none_]
  unfold writeOut
  split_ifs with failed
  · rfl
  · rfl

end Append

/-- **When a failed write leaves the store as it was.**  It does if and only if the size was
refused, or the path had an entry and either the offset was refused or there was nothing to
write. -/
theorem failed_write_unchanged_iff {SHA512 : Page → BlockId} {s t : Store}
    (allocated : s.Allocated) {path : Path} {buf : Bytes} {offset : ℤ} {env : WriteEnv} {ret : ℤ}
    (runs : xmp_write SHA512 path buf offset env s = some (ret, t)) (failed : ret < 0) :
    Unchanged s t ↔ buf.length % 4096 ≠ 0 ∨
      s.fileIndex.lookup path ≠ none ∧ (offset ≠ s.sizeAt path ∨ buf = []) := by
  unfold xmp_write at runs
  by_cases odd : buf.length % 4096 ≠ 0
  · rw [if_pos odd] at runs
    cases runs
    exact iff_of_true (.refl s) (Or.inl odd)
  rw [if_neg odd] at runs
  split_ifs at runs with long
  unfold findFile at runs
  cases entry : s.fileIndex.lookup path with
  | none =>
      -- the entry of the file has been created
      refine iff_of_false (fun unchanged => ?_) fun fits => ?_
      · have created : t.fileIndex.lookup path = some s.nextFile := by
          have inserted : (createFile path s).fileIndex.lookup path = some s.nextFile :=
            AList.lookup_insert _
          rw [entry] at runs
          simp only at runs
          split_ifs at runs
          · cases runs
            exact inserted
          · have phases := appendBlocks_phases SHA512 s.nextFile buf offset env (createFile path s)
            rw [Option.some.inj runs] at phases
            rw [phases.fileIndex]
            exact inserted
        rw [unchanged.fileIndex, entry] at created
        cases created
      · exact fits.elim odd fun known => known.1 rfl
  | some f =>
      have size : s.sizeAt path = (s.files f).logicalSize := by
        rw [Store.sizeAt, entry]
      rw [entry] at runs
      simp only at runs
      rw [size]
      split_ifs at runs with differ
      · cases runs
        exact iff_of_true (.refl s) (Or.inr ⟨Option.some_ne_none f, Or.inl differ⟩)
      have same := Option.some.inj runs
      obtain rfl : (appendBlocks SHA512 f buf offset env s).2 = t := congrArg Prod.snd same
      by_cases empty : buf = []
      · refine iff_of_true ?_ (Or.inr ⟨Option.some_ne_none f, Or.inr empty⟩)
        subst empty
        rw [appendBlocks_nil] at same ⊢
        split_ifs at same ⊢
        · exact .refl s
        · have zero : 0 = ret := congrArg Prod.fst same
          omega
      · refine iff_of_false (appendBlocks_changes allocated ?_ (not_lt.mp long)) ?_
        · intro none_
          have pages := congrArg List.length none_
          rw [length_blockHashes, length_bufferPages, List.length_nil] at pages
          have some_ := List.length_pos_iff.mpr empty
          omega
        · rintro (refused | ⟨-, refused | nothing⟩)
          · exact odd refused
          · exact differ refused
          · exact empty nothing

/-- The first write of a page, refused its memory. -/
theorem failed_write_unchanged_iff_refused :
    Unchanged (Store.empty 3 fun _ => 0)
        (Store.single (3 : ℕ) (fun _ => 0) ⟨CString.lit "/a", 0, 0, [], true, false⟩
          (.atStart (letterDigest pageOfA) 1)) ↔
      pageOfA.toList.length % 4096 ≠ 0 ∨
        (Store.empty 3 fun _ => 0).fileIndex.lookup (CString.lit "/a") ≠ none ∧
          ((0 : ℤ) ≠ (Store.empty 3 fun _ => 0).sizeAt (CString.lit "/a") ∨ pageOfA.toList = []) :=
  failed_write_unchanged_iff (Store.empty_allocated 3 fun _ => 0)
    (@xmp_write_first_refused letterDigest 3 (fun _ => 0) _ pageOfA .refused rfl) (by decide)

/-- A first write that got no memory has created its file and its block. -/
theorem refused_write_changes :
    ∃ ret t, xmp_write letterDigest (CString.lit "/a") pageOfA.toList 0 .refused
        (Store.empty 3 fun _ => 0) = some (ret, t) ∧
      ret < 0 ∧ ¬ Unchanged (Store.empty 3 fun _ => 0) t := by
  refine ⟨_, _, @xmp_write_first_refused letterDigest 3 (fun _ => 0) _ pageOfA .refused rfl,
    by decide, fun unchanged => ?_⟩
  have created := Store.single_fileIndex (3 : ℕ) (fun _ => 0)
    ⟨CString.lit "/a", 0, 0, [], true, false⟩ (.atStart (letterDigest pageOfA) 1)
  rw [unchanged.fileIndex] at created
  cases created

end ProjetoTSO.Codededup
