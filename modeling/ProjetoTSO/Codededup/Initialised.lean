import ProjetoTSO.Codededup.LockInit
import ProjetoTSO.Codededup.Crash
import ProjetoTSO.Codededup.Loader

/-!
# Which locks are initialised

`xmp_write` initialises the lock of every file and every block it makes, and `load_metadata`
that of every file.  It does not initialise those of the blocks it loads, which later calls
take and `freeBlockMeta` destroys all the same.  A session uses its locks as it should if
and only if it loads no block (`locks_in_order_iff`).
-/

namespace ProjetoTSO.Codededup

open CInt ByteStream

/-! ## The end of a session -/

/-- `g_hash_table_destroy` on the two indexes, at the end of `xmp_destroy`: each table is
emptied, and its values go through their destroy function. -/
def destroyIndexes (blockOrder : IterOrder BlockRef) (fileOrder : IterOrder FileRef) (s : Store) :
    Store :=
  let s := (tableValues fileOrder s.fileIndex).foldl (fun s f => freeFilemeta f s)
    { s with fileIndex := ∅ }
  (tableValues blockOrder s.blockIndex).foldl (fun s b => freeBlockMeta b s)
    { s with blockIndex := ∅ }

/-- The first block `load_metadata` loads. -/
def firstBlock (metadata : Option Bytes) : Option BlockRecord := do
  let stream ← metadata
  let (_, stream) ← read_int64 stream
  let (nblocks, stream) ← read_uint64 stream
  if nblocks = 0 then none else (read_block_record stream).map Prod.fst

/-- No lock was destroyed without having been initialised, or while its object is in an
index. -/
structure DestroyedInOrder (s : Store) : Prop where
  file : ∀ f, (s.files f).freed = true →
    (s.files f).lockReady = true ∧ ∀ path, s.fileIndex.lookup path ≠ some f
  block : ∀ b, (s.blocks b).freed = true →
    (s.blocks b).lockReady = true ∧ ∀ hash, s.blockIndex.lookup hash ≠ some b

/-! ### What is freed at the end -/

theorem foldl_freeFilemeta (files : List FileRef) (s : Store) :
    ∃ freed : FileRef → Bool, files.foldl (fun s f => freeFilemeta f s) s =
        { s with files := fun f => { s.files f with freed := freed f } } ∧
      ∀ f, freed f = true ↔ (s.files f).freed = true ∨ f ∈ files := by
  induction files generalizing s with
  | nil => exact ⟨fun f => (s.files f).freed, rfl, fun f => by simp⟩
  | cons g files ih =>
      obtain ⟨freed, same, iff⟩ := ih (freeFilemeta g s)
      refine ⟨freed, ?_, fun f => ?_⟩
      · rw [List.foldl_cons, same]
        refine congrArg (fun files => ({ s with files := files } : Store)) (funext fun f => ?_)
        rw [freeFilemeta]
        rcases eq_or_ne f g with rfl | differ
        · rw [Store.setFile_files_self]
        · rw [Store.setFile_files_ne s _ differ]
      · rw [iff, freeFilemeta, List.mem_cons]
        rcases eq_or_ne f g with rfl | differ
        · rw [Store.setFile_files_self]
          simp
        · rw [Store.setFile_files_ne s _ differ]
          simp [differ]

theorem foldl_freeBlockMeta (blocks : List BlockRef) (s : Store) :
    ∃ freed : BlockRef → Bool, blocks.foldl (fun s b => freeBlockMeta b s) s =
        { s with blocks := fun b => { s.blocks b with freed := freed b } } ∧
      ∀ b, freed b = true ↔ (s.blocks b).freed = true ∨ b ∈ blocks := by
  induction blocks generalizing s with
  | nil => exact ⟨fun b => (s.blocks b).freed, rfl, fun b => by simp⟩
  | cons c blocks ih =>
      obtain ⟨freed, same, iff⟩ := ih (freeBlockMeta c s)
      refine ⟨freed, ?_, fun b => ?_⟩
      · rw [List.foldl_cons, same]
        refine congrArg (fun blocks => ({ s with blocks := blocks } : Store)) (funext fun b => ?_)
        rw [freeBlockMeta]
        rcases eq_or_ne b c with rfl | differ
        · rw [Store.setBlock_blocks_self]
        · rw [Store.setBlock_blocks_ne s _ differ]
      · rw [iff, freeBlockMeta, List.mem_cons]
        rcases eq_or_ne b c with rfl | differ
        · rw [Store.setBlock_blocks_self]
          simp
        · rw [Store.setBlock_blocks_ne s _ differ]
          simp [differ]

/-- What an unmount has destroyed. -/
structure Destroyed (s t : Store) : Prop where
  fileReady : ∀ f, (t.files f).lockReady = (s.files f).lockReady
  blockReady : ∀ b, (t.blocks b).lockReady = (s.blocks b).lockReady
  fileFreed : ∀ f, (t.files f).freed = true ↔
    (s.files f).freed = true ∨ ∃ path, s.fileIndex.lookup path = some f
  blockFreed : ∀ b, (t.blocks b).freed = true ↔
    (s.blocks b).freed = true ∨ ∃ hash, s.blockIndex.lookup hash = some b
  fileIndex : t.fileIndex = ∅
  blockIndex : t.blockIndex = ∅

theorem destroyIndexes_destroyed (blockOrder : IterOrder BlockRef) (fileOrder : IterOrder FileRef)
    (s : Store) : Destroyed s (destroyIndexes blockOrder fileOrder s) := by
  obtain ⟨freed, files, iff⟩ :=
    foldl_freeFilemeta (tableValues fileOrder s.fileIndex) { s with fileIndex := ∅ }
  obtain ⟨freed', blocks, iff'⟩ :=
    foldl_freeBlockMeta (tableValues blockOrder s.blockIndex)
      { s with
        fileIndex := ∅
        blockIndex := ∅
        files := fun f => { s.files f with freed := freed f } }
  have same : destroyIndexes blockOrder fileOrder s = { s with
      fileIndex := ∅
      blockIndex := ∅
      files := fun f => { s.files f with freed := freed f }
      blocks := fun b => { s.blocks b with freed := freed' b } } := by
    unfold destroyIndexes
    rw [files]
    exact blocks
  rw [same]
  refine ⟨fun _ => rfl, fun _ => rfl, fun f => ?_, fun b => ?_, rfl, rfl⟩
  · exact (iff f).trans (or_congr_right (mem_tableValues _))
  · exact (iff' b).trans (or_congr_right (mem_tableValues _))

/-! ## What is loaded -/

/-- The first block loaded is in the index or was replaced, and has no lock to speak of. -/
structure Unready (t : Store) : Prop where
  made : 0 < t.nextBlock
  ready : (t.blocks 0).lockReady = false
  used : (t.blocks 0).freed = true ∨ ∃ hash, t.blockIndex.lookup hash = some 0

namespace Unready

variable {t : Store}

theorem insertLoadedBlock_first (r : BlockRecord) (none_ : t.nextBlock = 0)
    (empty : t.blockIndex = ∅) : Unready (insertLoadedBlock t r) := by
  have absent : t.blockIndex.lookup r.id = none := by
    rw [empty]
    rfl
  unfold insertLoadedBlock
  rw [absent]
  simp only [none_]
  refine ⟨Nat.one_pos, ?_, Or.inr ⟨r.id, ?_⟩⟩
  · show (Function.update t.blocks 0 _ 0).lockReady = false
    rw [Function.update_self]
    rfl
  · exact AList.lookup_insert _

theorem insertLoadedBlock (unready : Unready t) (r : BlockRecord) :
    Unready (insertLoadedBlock t r) := by
  have placed : ∀ u : Store, u.nextBlock = t.nextBlock → u.blockIndex = t.blockIndex →
      (u.blocks 0).lockReady = false →
      ((u.blocks 0).freed = true ∨ ∃ hash ≠ r.id, t.blockIndex.lookup hash = some 0) →
      Unready { u with
        blocks := Function.update u.blocks u.nextBlock r.loaded
        nextBlock := u.nextBlock + 1
        blockIndex := u.blockIndex.insert r.id u.nextBlock } := by
    intro u next index ready used
    have apart : (0 : BlockRef) ≠ u.nextBlock := by
      rw [next]
      exact unready.made.ne
    refine ⟨Nat.succ_pos _, ?_, ?_⟩
    · show (Function.update u.blocks u.nextBlock _ 0).lockReady = false
      rwa [Function.update_of_ne apart]
    · rcases used with freed | ⟨hash, differ, found⟩
      · refine Or.inl ?_
        show (Function.update u.blocks u.nextBlock _ 0).freed = true
        rwa [Function.update_of_ne apart]
      · refine Or.inr ⟨hash, ?_⟩
        show (u.blockIndex.insert r.id u.nextBlock).lookup hash = some 0
        rwa [AList.lookup_insert_ne differ, index]
  unfold Codededup.insertLoadedBlock
  cases held : t.blockIndex.lookup r.id with
  | none =>
      refine placed t rfl rfl unready.ready (unready.used.imp_right fun ⟨hash, found⟩ => ?_)
      refine ⟨hash, fun same => ?_, found⟩
      rw [same, held] at found
      cases found
  | some old =>
      refine placed (freeBlockMeta old t) rfl rfl ?_ ?_
      · rw [freeBlockMeta]
        rcases eq_or_ne 0 old with same | differ
        · rw [← same, Store.setBlock_blocks_self]
          exact unready.ready
        · rw [Store.setBlock_blocks_ne t _ differ]
          exact unready.ready
      · rw [freeBlockMeta]
        rcases eq_or_ne 0 old with same | differ
        · rw [← same, Store.setBlock_blocks_self]
          exact Or.inl rfl
        · rw [Store.setBlock_blocks_ne t _ differ]
          refine unready.used.imp_right fun ⟨hash, found⟩ => ⟨hash, fun same => ?_, found⟩
          rw [same, held] at found
          exact differ (Option.some.inj found).symm

theorem insertLoadedFile (unready : Unready t) (r : FileRecord) :
    Unready (insertLoadedFile t r) := by
  unfold Codededup.insertLoadedFile
  cases t.fileIndex.lookup r.id <;> exact ⟨unready.made, unready.ready, unready.used⟩

theorem load_free (unready : Unready t) (stream : Bytes) : Unready (load_free stream t) :=
  readSection_invariant Unready (fun _ held => ⟨held.made, held.ready, held.used⟩)
    (fun _ _ held => held) unready

theorem load_files (unready : Unready t) (stream : Bytes) : Unready (load_files stream t) :=
  readSection_invariant Unready (fun r held => held.insertLoadedFile r)
    (fun stream _ held => held.load_free stream) unready

end Unready

/-- The first record of a section is stored, then the others. -/
theorem readSection_first {α σ : Type} {count : Reader ℕ} (select : σ → Reader α)
    (store : σ → α → σ) (next : Bytes → σ → σ) {stream body rest : Bytes} {state : σ} {n : ℕ}
    {value : α} (counted : count stream = some (n + 1, body))
    (read : select state body = some (value, rest)) :
    readSection count select store next stream state =
      readSection (fun _ => some (n, rest)) (fun _ => select state) store next stream
        (store state value) := by
  unfold readSection
  rw [counted]
  simp only [readEach, read]

/-- A block that is loaded is not ready. -/
theorem unready_of_firstBlock {stream : Bytes} {r : BlockRecord} {t : Store}
    (first : firstBlock (some stream) = some r) (none_ : t.nextBlock = 0)
    (empty : t.blockIndex = ∅) : Unready (load_metadata (some stream) t) := by
  rw [firstBlock] at first
  obtain ⟨stream', same, first⟩ := Option.bind_eq_some_iff.mp first
  cases same
  obtain ⟨⟨saved, rest⟩, offset, first⟩ := Option.bind_eq_some_iff.mp first
  obtain ⟨⟨n, body⟩, counted, first⟩ := Option.bind_eq_some_iff.mp first
  dsimp only at counted first
  split_ifs at first with zero
  obtain ⟨⟨record, later⟩, read, rfl⟩ := Option.map_eq_some_iff.mp first
  obtain ⟨k, rfl⟩ := Nat.exists_eq_succ_of_ne_zero zero
  rw [load_metadata]
  simp only [offset]
  rw [load_blocks, readSection_first (fun _ => read_block_record) _ _ counted read]
  refine readSection_invariant Unready (fun r held => held.insertLoadedBlock r)
    (fun stream _ held => held.load_files stream) ?_
  exact Unready.insertLoadedBlock_first _ none_ empty

namespace Threads

open LockedPrograms FifoRwlock Transition

/-! ## The store a session begins with -/

theorem made_initContext (sysdata : ByteDisk.Disk) (out : OpenOut) :
    Made (initContext sysdata out) := by
  have start : ∀ t : Store, t.files = (fun _ => Filemeta.zero) → t.blocks = (fun _ => Blockmeta.zero) →
      t.nextFile = 0 → t.nextBlock = 0 → t.fileIndex = ∅ → t.blockIndex = ∅ → Made t := by
    intro t files blocks nextFile nextBlock fileIndex blockIndex
    constructor
    · intro f
      rw [files, nextFile]
      exact iff_of_false Bool.false_ne_true (Nat.not_lt_zero f)
    · intro b
      rw [blocks, nextBlock]
      exact iff_of_false Bool.false_ne_true (Nat.not_lt_zero b)
    · intro f below
      rw [nextFile] at below
      exact absurd below (Nat.not_lt_zero f)
    · intro path f found
      rw [fileIndex] at found
      cases found
    · intro hash b found
      rw [blockIndex] at found
      cases found
    · intro f gone
      rw [files] at gone
      cases gone
    · intro b gone
      rw [blocks] at gone
      cases gone
  cases out with
  | fail garbage => exact start _ rfl rfl rfl rfl rfl rfl
  | ok fd st_size => exact start _ rfl rfl rfl rfl rfl rfl

/-- A store into which no block was loaded. -/
structure Blockless (t : Store) : Prop where
  made : Made t
  blockIndex : t.blockIndex = ∅

namespace Blockless

variable {t : Store}

theorem load_free (blockless : Blockless t) (stream : Bytes) : Blockless (load_free stream t) := by
  refine readSection_invariant Blockless (fun {t} off held => ⟨?_, held.blockIndex⟩)
    (fun _ _ held => held) blockless
  have made := held.made
  exact ⟨made.fileReady, made.blockReady, made.listed, made.fileIndexed, made.blockIndexed,
    made.fileFreed, made.blockFreed⟩

/-- A file without blocks is loaded. -/
theorem insertLoadedFile (blockless : Blockless t) {r : FileRecord} (none_ : r.blockList = []) :
    Blockless (insertLoadedFile t r) := by
  have placed : ∀ u : Store, Made u →
      Made { u with
        files := Function.update u.files u.nextFile r.loaded
        nextFile := u.nextFile + 1
        fileIndex := u.fileIndex.insert r.id u.nextFile } := by
    intro u made
    have cases_ : ∀ f, f = u.nextFile ∧ Function.update u.files u.nextFile r.loaded f = r.loaded ∨
        f ≠ u.nextFile ∧ Function.update u.files u.nextFile r.loaded f = u.files f := by
      intro f
      rcases eq_or_ne f u.nextFile with rfl | differ
      · exact Or.inl ⟨rfl, Function.update_self ..⟩
      · exact Or.inr ⟨differ, Function.update_of_ne differ _ _⟩
    constructor
    · intro f
      show (Function.update u.files u.nextFile r.loaded f).lockReady = true ↔ f < u.nextFile + 1
      rw [Nat.lt_succ_iff_lt_or_eq]
      rcases cases_ f with ⟨rfl, same⟩ | ⟨differ, same⟩
      · rw [same]
        exact iff_of_true rfl (Or.inr rfl)
      · rw [same, made.fileReady]
        exact ⟨Or.inl, fun below => below.resolve_right differ⟩
    · exact made.blockReady
    · intro f below b member
      have inside : b ∈ (Function.update u.files u.nextFile r.loaded f).blockList := member
      rcases cases_ f with ⟨-, same⟩ | ⟨differ, same⟩
      · rw [same, FileRecord.loaded, none_] at inside
        exact absurd inside List.not_mem_nil
      · rw [same] at inside
        exact made.listed f ((Nat.lt_succ_iff_lt_or_eq.mp below).resolve_right differ) b inside
    · intro path f found
      have inserted : (u.fileIndex.insert r.id u.nextFile).lookup path = some f := found
      rcases eq_or_ne path r.id with rfl | differ
      · rw [AList.lookup_insert] at inserted
        obtain rfl := Option.some.inj inserted
        exact Nat.lt_succ_self _
      · rw [AList.lookup_insert_ne differ] at inserted
        exact (made.fileIndexed inserted).trans (Nat.lt_succ_self _)
    · exact made.blockIndexed
    · intro f gone
      have freed : (Function.update u.files u.nextFile r.loaded f).freed = true := gone
      rcases cases_ f with ⟨rfl, same⟩ | ⟨-, same⟩
      · exact Nat.lt_succ_self _
      · rw [same] at freed
        exact (made.fileFreed freed).trans (Nat.lt_succ_self _)
    · exact made.blockFreed
  unfold Codededup.insertLoadedFile
  cases held : t.fileIndex.lookup r.id with
  | none => exact ⟨placed t blockless.made, blockless.blockIndex⟩
  | some old =>
      have freed := blockless.made.freeFilemeta (blockless.made.fileIndexed held)
      exact ⟨placed _ freed.2, blockless.blockIndex⟩

theorem load_files (blockless : Blockless t) (stream : Bytes) : Blockless (load_files stream t) := by
  refine readSection_pieces Blockless Blockless local_read_uint64
    (local_read_file_record t.blockIndex) (fun {u r bytes} _ read held => ?_) (fun held => held)
    (fun {rest _} _ held => held.load_free rest) blockless
  -- no hash names a block
  refine held.insertLoadedFile (List.eq_nil_iff_forall_not_mem.mpr fun b member => ?_)
  obtain ⟨hash, found⟩ := read_file_record_indexed read b member
  rw [blockless.blockIndex] at found
  cases found

end Blockless

/-- Where no block is loaded, everything that is loaded is ready. -/
theorem made_of_no_block {metadata : Option Bytes} (none_ : firstBlock metadata = none)
    (out : OpenOut) (sysdata : ByteDisk.Disk) : Made (xmp_init out metadata sysdata) := by
  have made := made_initContext sysdata out
  have tables := initContext_tables sysdata out
  rw [xmp_init]
  cases metadata with
  | none => exact made
  | some stream =>
      rw [load_metadata]
      cases offset : read_int64 stream with
      | none => exact made
      | some read =>
          obtain ⟨saved, rest⟩ := read
          have blockless : Blockless { initContext sysdata out with next_free_offset := saved } :=
            ⟨⟨made.fileReady, made.blockReady, made.listed, made.fileIndexed, made.blockIndexed,
              made.fileFreed, made.blockFreed⟩, tables.blockIndex⟩
          refine Blockless.made ?_
          simp only
          rw [load_blocks, readSection]
          cases counted : read_uint64 rest with
          | none => exact blockless
          | some count =>
              obtain ⟨n, body⟩ := count
              cases n with
              | zero => exact blockless.load_files body
              | succ n =>
                  have unread : read_block_record body = none := by
                    cases read : read_block_record body with
                    | none => rfl
                    | some record =>
                        have first : firstBlock (some stream) = some record.1 := by
                          unfold firstBlock
                          simp [offset, counted, read]
                        rw [none_] at first
                        cases first
                  simp only [readEach, unread]
                  exact blockless

theorem xmp_init_loadedFrom (out : OpenOut) (metadata : Option Bytes) (sysdata : ByteDisk.Disk) :
    ∃ stream, LoadedFrom stream (xmp_init out metadata sysdata) := by
  have tables := initContext_tables sysdata out
  cases metadata with
  | none => exact ⟨[], .of_empty tables⟩
  | some stream => exact ⟨stream, load_metadata_loadedFrom tables stream⟩

theorem entries_start {T : Type} (out : OpenOut) (metadata : Option Bytes)
    (sysdata : ByteDisk.Disk) :
    Entries (fun _ : T => .outside) (xmp_init out metadata sysdata) := by
  obtain ⟨stream, loaded⟩ := xmp_init_loadedFrom out metadata sysdata
  refine .start (fun {path path' f} found found' => ?_) fun found => ?_
  · obtain ⟨-, -, r, -, -, rfl, same⟩ := loaded.file found
    obtain ⟨-, -, r', -, -, rfl, same'⟩ := loaded.file found'
    exact (congrArg Filemeta.id (same'.symm.trans same))
  · obtain ⟨-, -, r, -, -, -, same⟩ := loaded.file found
    rw [same]
    rfl

/-! ## Sessions -/

variable {T : Type} [DecidableEq T]

/-- A step; an unlink that counts references counts fewer than `2 ^ 31`. -/
def CountedStep (m : State T) (event : LockedPrograms.Event T Lock) (after : State T) : Prop :=
  m.Step Lock.fifo event after ∧ ∀ t, event = .act t → Countable (m.frame t) m.shared

/-- A step uses no lock that was not initialised, and initialises no lock again. -/
structure UsesReady (m : State T) (event : LockedPrograms.Event T Lock) (after : State T) :
    Prop where
  file : ∀ f mark, event = .lock (.file f) mark → (m.shared.files f).lockReady = true
  block : ∀ b mark, event = .lock (.block b) mark → (m.shared.blocks b).lockReady = true
  fileKept : ∀ f < m.shared.nextFile,
    (after.shared.files f).lockReady = (m.shared.files f).lockReady
  blockKept : ∀ b < m.shared.nextBlock,
    (after.shared.blocks b).lockReady = (m.shared.blocks b).lockReady
  fileOnce : ∀ f, m.shared.nextFile ≤ f → (m.shared.files f).lockReady = false
  blockOnce : ∀ b, m.shared.nextBlock ≤ b → (m.shared.blocks b).lockReady = false

/-- The locks are used in order: up to this state of a session, in every step from here, and
if the session ends here. -/
structure LocksInOrder (m : State T) : Prop where
  destroyed : DestroyedInOrder m.shared
  steps : ∀ event after, CountedStep m event after → UsesReady m event after
  unmount : (∀ t, ¬ m.Unfinished t) → ∀ blockOrder fileOrder,
    DestroyedInOrder (destroyIndexes blockOrder fileOrder m.shared)

/-- No move breaks the rules of the entries. -/
def Clause.entries : Clause T := ⟨Entries, fun _ _ _ _ _ => True⟩

variable {SHA512 : Page → BlockId} {calls : T → Call} {out : OpenOut} {metadata : Option Bytes}
variable {sysdata : ByteDisk.Disk} {trace : List (LockedPrograms.Event T Lock)} {m : State T}

/-- The objects are made throughout a session that loaded no block. -/
theorem upheld_run (none_ : firstBlock metadata = none)
    (run : Runs CountedStep (start SHA512 (xmp_init out metadata sysdata) calls) trace m) :
    Upheld lockPromise m := by
  refine run.state_invariant (fun m : State T => Upheld lockPromise m) ?_ fun before move => ?_
  · exact .start (made_of_no_block none_ out sysdata) fun t => program_uses SHA512 (calls t)
  · exact (before.step move.1 move.2).2.1

theorem entries_run
    (run : Runs CountedStep (start SHA512 (xmp_init out metadata sysdata) calls) trace m) :
    Entries m.frame m.shared := by
  obtain ⟨stream, loaded⟩ := xmp_init_loadedFrom out metadata sysdata
  have free : Runs Clause.entries.Step (start SHA512 (xmp_init out metadata sysdata) calls) trace m :=
    run.mono fun _ _ _ move => ⟨move.1, fun _ _ => trivial⟩
  exact (Clause.keeps_of_moves (fun entries move => Entries.move entries move) loaded.allocated
    (entries_start out metadata sysdata) free).1

theorem LocksInOrder.of_upheld (upheld : Upheld lockPromise m) (entries : Entries m.frame m.shared) :
    LocksInOrder m := by
  have made : Made m.shared := upheld.inv
  refine ⟨⟨fun f gone => ?_, fun b gone => ?_⟩, fun event after move => ?_,
    fun _ blockOrder fileOrder => ?_⟩
  · refine ⟨(made.fileReady f).mpr (made.fileFreed gone), fun path found => ?_⟩
    rw [entries.alive found] at gone
    cases gone
  · obtain ⟨below, absent⟩ := made.blockFreed gone
    exact ⟨(made.blockReady b).mpr below, absent⟩
  · obtain ⟨onward, -, good⟩ := upheld.step move.1 move.2
    have onward : Onward m.shared after.shared := onward
    refine ⟨fun f mark same => (made.fileReady f).mpr (good _ mark same),
      fun b mark same => (made.blockReady b).mpr (good _ mark same), onward.fileReady,
      onward.blockReady, fun f above => ?_, fun b above => ?_⟩
    · rw [← Bool.not_eq_true, made.fileReady]
      exact above.not_gt
    · rw [← Bool.not_eq_true, made.blockReady]
      exact above.not_gt
  · have destroyed := destroyIndexes_destroyed blockOrder fileOrder m.shared
    constructor
    · intro f gone
      rw [destroyed.fileReady, made.fileReady, destroyed.fileIndex]
      refine ⟨?_, fun path found => by cases found⟩
      exact ((destroyed.fileFreed f).mp gone).elim made.fileFreed fun ⟨_, found⟩ =>
        made.fileIndexed found
    · intro b gone
      rw [destroyed.blockReady, made.blockReady, destroyed.blockIndex]
      refine ⟨?_, fun hash found => by cases found⟩
      exact ((destroyed.blockFreed b).mp gone).elim (fun freed => (made.blockFreed freed).1)
        fun ⟨_, found⟩ => (made.blockIndexed found).1

/-- A block is destroyed at the latest by the unmount. -/
theorem not_destroyedInOrder {s : Store} {b : BlockRef} (ready : (s.blocks b).lockReady = false)
    (used : (s.blocks b).freed = true ∨ ∃ hash, s.blockIndex.lookup hash = some b)
    (blockOrder : IterOrder BlockRef) (fileOrder : IterOrder FileRef) :
    ¬ DestroyedInOrder (destroyIndexes blockOrder fileOrder s) := by
  have destroyed := destroyIndexes_destroyed blockOrder fileOrder s
  intro ordered
  have initialised := (ordered.block b ((destroyed.blockFreed b).mpr used)).1
  rw [destroyed.blockReady, ready] at initialised
  cases initialised

/-- **When every lock is initialised before it is used.**  In all runs of a session, however
its calls interleave, if and only if the session loads no block. -/
theorem locks_in_order_iff (SHA512 : Page → BlockId) (out : OpenOut) (metadata : Option Bytes)
    (sysdata : ByteDisk.Disk) :
    (∀ (T : Type) [DecidableEq T] (calls : T → Call) (trace : List (LockedPrograms.Event T Lock))
        (m : State T),
        Runs CountedStep (start SHA512 (xmp_init out metadata sysdata) calls) trace m →
        LocksInOrder m) ↔ firstBlock metadata = none := by
  constructor
  · intro ordered
    cases metadata with
    | none => rfl
    | some stream =>
        cases first : firstBlock (some stream) with
        | none => rfl
        | some r =>
            have none_ : (initContext sysdata out).nextBlock = 0 := by cases out <;> rfl
            have unready :=
              unready_of_firstBlock first none_ (initContext_tables sysdata out).blockIndex
            have idle := ordered Empty (fun t => t.elim) [] _ .nil
            exact absurd (idle.unmount (fun t => t.elim) (IterOrder.id _) (IterOrder.id _))
              (not_destroyedInOrder unready.ready unready.used _ _)
  · intro none_ T _ calls trace m run
    exact .of_upheld (upheld_run none_ run) (entries_run run)

/-- A session over the metadata of one that wrote a page: its unmount destroys a lock that
was never initialised. -/
theorem locks_out_of_order_holdsA :
    let metadata := some (xmp_destroy (IterOrder.id _) (IterOrder.id _) 1000 holdsA).2
    ¬ ∀ (T : Type) [DecidableEq T] (calls : T → Call) (trace : List (LockedPrograms.Event T Lock))
        (m : State T),
        Runs (Machine.Step Lock.fifo)
          (start letterDigest (xmp_init (.ok 3 (some 4096)) metadata holdsA.sysdata) calls) trace m →
        LocksInOrder m := by
  intro metadata ordered
  have loaded : xmp_init (.ok 3 (some 4096)) metadata holdsA.sysdata =
      Store.reloaded 3 holdsA.sysdata (CString.lit "/a") digestOfA :=
    xmp_init_onePage (by decide) 3 (some 4096) holdsA.sysdata
  rw [loaded] at ordered
  have idle := ordered Empty (fun t => t.elim) [] _ .nil
  have indexed : (Store.reloaded 3 holdsA.sysdata (CString.lit "/a") digestOfA).blockIndex.lookup
      digestOfA = some 0 := Store.single_blockIndex _ _ _ _
  have block : (Store.reloaded 3 holdsA.sysdata (CString.lit "/a") digestOfA).blocks 0 =
      ⟨0, digestOfA, 4096, 1, false, false⟩ := Store.single_blocks _ _ _ _
  refine not_destroyedInOrder ?_ (Or.inr ⟨digestOfA, indexed⟩) (IterOrder.id _) (IterOrder.id _)
    (idle.unmount (fun t => t.elim) (IterOrder.id _) (IterOrder.id _))
  rw [block]

end Threads

end ProjetoTSO.Codededup
