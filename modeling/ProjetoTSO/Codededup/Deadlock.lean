import ProjetoTSO.Codededup.Discipline
import ProjetoTSO.Codededup.Lookup

/-!
# No deadlock

Ranking the block locks needs the hashes of the blocks, also of those that are not created
yet.  A block keeps its hash (`program_settles`), so the hashes in the last state of a run
will do for the whole run (`Clause.allowed_run`).

* `Clause.abides` — the calls of a run hold their locks as the order of the locks wants it,
  and keep a clause that every act preserves.
* `calls_never_stuck` — while a call is unfinished, one can go on, and a call that returned
  has released every lock as often as it was granted it.
-/

namespace ProjetoTSO.Codededup

open CInt LockedPrograms FifoRwlock Transition

theorem Accounted.allocated {s : Store} (accounted : Accounted s) : s.Allocated where
  files found := accounted.filed.fresh found
  listed found b member := by
    refine accounted.ledger.fresh (accounted.ledger.indexed ?_)
    exact Store.references_pos_iff.mpr ⟨_, Store.mem_listAt.mpr ⟨_, found, member⟩⟩
  indexed found := ⟨accounted.ledger.fresh found, accounted.ledger.blockId found⟩

namespace Threads

/-! ## Blocks keep their hashes -/

/-- The blocks of `s` are blocks of `s'`, with the hashes they had. -/
structure Settles (s s' : Store) : Prop where
  nextBlock : s.nextBlock ≤ s'.nextBlock
  id : ∀ b < s.nextBlock, (s'.blocks b).id = (s.blocks b).id

namespace Settles

theorem refl (s : Store) : Settles s s := ⟨le_rfl, fun _ _ => rfl⟩

theorem trans {s s' s'' : Store} (first : Settles s s') (second : Settles s' s'') :
    Settles s s'' where
  nextBlock := first.nextBlock.trans second.nextBlock
  id b below := (second.id b (below.trans_le first.nextBlock)).trans (first.id b below)

theorem of_blocks {s s' : Store} (nextBlock : s'.nextBlock = s.nextBlock)
    (blocks : s'.blocks = s.blocks) : Settles s s' :=
  ⟨nextBlock.ge, fun b _ => by rw [blocks]⟩

theorem of_released {s s' : Store} (released : Released s s') : Settles s s' :=
  ⟨released.nextBlock.ge, fun b _ => released.id b⟩

theorem raiseCounter (b : BlockRef) (s : Store) : Settles s (raiseCounter b s) := by
  refine ⟨le_rfl, fun c _ => ?_⟩
  rcases eq_or_ne c b with rfl | differ
  · rw [Codededup.raiseCounter, Store.setBlock_blocks_self]
  · rw [Codededup.raiseCounter, Store.setBlock_blocks_ne s _ differ]

theorem lookupBlock (tables : WriteTables) (hash : BlockId) (s : Store) :
    Settles s (lookupBlock (tables, s) hash).2 := by
  unfold Codededup.lookupBlock
  simp only
  cases s.blockIndex.lookup hash with
  | some b => exact raiseCounter b s
  | none =>
      refine ⟨Nat.le_succ _, fun c below => ?_⟩
      show (Function.update s.blocks s.nextBlock _ c).id = _
      rw [Function.update_of_ne below.ne]

theorem named {s s' : Store} (settles : Settles s s') {ids : BlockRef → BlockId}
    (named : Named ids s') : Named ids s := by
  intro b below
  rw [← settles.id b below]
  exact named b (below.trans_le settles.nextBlock)

end Settles

/-! The acts of each program, in the order of the program. -/

theorem lockBlocks_settles {mode : Mode} {blocks : List BlockRef} {next : Program}
    (settles : next.Acts Settles) : (lockBlocks mode blocks next).Acts Settles := by
  induction blocks with
  | nil => exact settles
  | cons b blocks ih => exact ih

theorem unlockBlocks_settles {mode : Mode} {frame : Frame} {blocks : List BlockRef}
    {next : Program} (settles : next.Acts Settles) :
    (unlockBlocks mode frame blocks next).Acts Settles := by
  induction blocks with
  | nil => exact settles
  | cons b blocks ih => exact ih

theorem xmp_getattr_settles (path : Path) : (xmp_getattr path).Acts Settles := by
  unfold xmp_getattr
  split_ifs
  · exact trivial
  · intro lstat
    cases lstat with
    | fail errno => exact trivial
    | ok st_size st_blocks =>
        refine fun s => ⟨.refl s, ?_⟩
        cases (lookupFile path s).1 with
        | none => exact trivial
        | some f => exact fun s => ⟨.refl s, trivial⟩

theorem copyLoop_settles {f : FileRef} {blocks : List BlockRef} {offset : ℤ} {capacity size : ℕ}
    {next : ℤ × List UInt8 → Program} (settles : ∀ out, (next out).Acts Settles)
    (entries : List (ℤ × BlockRef)) (buf : List UInt8) :
    (copyLoop f blocks offset capacity size entries buf next).Acts Settles := by
  induction entries generalizing buf with
  | nil => exact settles _
  | cons entry rest ih =>
      refine fun memalign pread s => ⟨.refl s, ?_⟩
      dsimp only
      cases copyBlock s memalign pread offset capacity size entry buf with
      | some out =>
          dsimp only
          split_ifs
          · exact settles out
          · exact ih _
      | none =>
          intro out
          dsimp only
          split_ifs
          · exact settles out
          · exact ih _

theorem xmp_read_settles (path : Path) (size : ℕ) (offset : ℤ) :
    (xmp_read path size offset).Acts Settles := by
  have copies : ∀ (f : FileRef) (clamped : ℕ) (entries : List (ℤ × BlockRef))
      (blocks : List BlockRef),
      LockedPrograms.Prog.Acts Settles (copyLoop f blocks offset size clamped entries []
        fun out =>
        .ask fun order : IterOrder BlockRef =>
        unlockBlocks .read (.reading f blocks) (order.arrange blocks) <|
        .release (.file f) .read .outside <|
        .ret (.bytes (if out.1 ≠ 0 then out.1 else int32 out.2.length) out.2)) := by
    intro f clamped entries blocks
    refine copyLoop_settles ?_ entries []
    rintro ⟨err, buf⟩ order
    exact unlockBlocks_settles trivial
  have windows : ∀ (f : FileRef) (start_index end_index : ℤ) (clamped : ℕ)
      (strays : List (ℤ × BlockRef)),
      LockedPrograms.Prog.Acts Settles (.act (readWindow f start_index end_index strays)
        (fun window => .reading f window.2) fun window =>
        lockBlocks .read window.2 <|
        .release .block_index_lock .read (.reading f window.2) <|
        copyLoop f window.2 offset size clamped window.1 [] fun out =>
        .ask fun order : IterOrder BlockRef =>
        unlockBlocks .read (.reading f window.2) (order.arrange window.2) <|
        .release (.file f) .read .outside <|
        .ret (.bytes (if out.1 ≠ 0 then out.1 else int32 out.2.length) out.2)) :=
    fun f _ _ clamped _ s => ⟨.refl s, lockBlocks_settles (copies f clamped _ _)⟩
  unfold xmp_read
  split_ifs
  · exact trivial
  · refine fun s => ⟨.refl s, ?_⟩
    cases (lookupFile path s).1 with
    | none => exact trivial
    | some f =>
        refine fun s => ⟨.refl s, ?_⟩
        generalize (readSize f s).1 = logicalSize
        show LockedPrograms.Prog.Acts Settles (ite _ _ _)
        split_ifs
        · exact trivial
        · -- unfolding would evaluate the indices of the window
          rw [LockedPrograms.Prog.acts_acquire, LockedPrograms.Prog.acts_ask]
          exact fun strays => windows f _ _ _ strays

theorem lookupLoop_settles {f : FileRef} {next : WriteTables → Program}
    (settles : ∀ tables, (next tables).Acts Settles) (hashes : List BlockId)
    (tables : WriteTables) : (lookupLoop f hashes tables next).Acts Settles := by
  induction hashes generalizing tables with
  | nil => exact settles tables
  | cons hash rest ih =>
      intro s
      cases entry : s.blockIndex.lookup hash with
      | some b =>
          rw [countBlock_indexed entry]
          exact ⟨.raiseCounter b s, ih _⟩
      | none =>
          rw [countBlock_absent entry]
          exact ⟨.refl s, fun s => ⟨.lookupBlock tables hash s, ih _⟩⟩

theorem writeCleanup_settles (f : FileRef) (offset : ℤ) (size : ℕ) (tables : WriteTables)
    (blocks_to_lock : List BlockRef) (err : ℤ) :
    (writeCleanup f offset size tables blocks_to_lock err).Acts Settles := by
  refine fun s => ⟨?_, unlockBlocks_settles trivial⟩
  unfold growFile
  simp only
  split_ifs
  · exact .of_blocks rfl rfl
  · exact .refl s

theorem storeLoop_settles {f : FileRef} {tables : WriteTables} {next : ℤ → Program}
    (settles : ∀ err, (next err).Acts Settles) (i : ℕ) (entries : List (BlockRef × Page))
    (created : List BlockRef) : (storeLoop f tables i entries created next).Acts Settles := by
  induction entries generalizing i created with
  | nil => exact settles 0
  | cons entry rest ih =>
      intro pwrite s
      have appended := writeBlock_appended f pwrite entry created s
      refine ⟨.of_blocks appended.nextBlock appended.blocks, ?_⟩
      show (if (writeBlock f pwrite entry created s).1 ≠ 0 then _ else _ : Program).Acts Settles
      split_ifs
      · exact settles _
      · exact ih _ _

theorem placeAndStore_settles (f : FileRef) (buf : List UInt8) (offset : ℤ)
    (tables : WriteTables) : (placeAndStore f buf offset tables).Acts Settles := by
  refine fun s => ⟨.refl s, lockBlocks_settles ?_⟩
  dsimp only
  generalize blocksToLock tables s = blocks_to_lock
  refine fun s => ⟨?_, fun memalign => ?_⟩
  · have only := assignOffsets_offsetsOnly blocks_to_lock tables.my_created_blocks s
    exact ⟨only.nextBlock.ge, fun b _ => only.id b⟩
  · have cleanup := writeCleanup_settles f offset buf.length tables blocks_to_lock
    cases memalign with
    | false => exact cleanup _
    | true => exact storeLoop_settles cleanup _ _ _

section

variable (SHA512 : Page → BlockId)

theorem writeFile_settles (f : FileRef) (buf : List UInt8) (offset : ℤ) :
    (writeFile SHA512 f buf offset).Acts Settles := by
  refine fun s => ⟨.refl s, ?_⟩
  dsimp only
  split_ifs
  · exact trivial
  · exact lookupLoop_settles (fun tables => placeAndStore_settles f buf offset tables) _ _

theorem xmp_write_settles (path : Path) (buf : List UInt8) (offset : ℤ) :
    (xmp_write SHA512 path buf offset).Acts Settles := by
  unfold xmp_write
  split_ifs
  · exact trivial
  · refine fun s => ⟨.refl s, ?_⟩
    cases (lookupFile path s).1 with
    | some f => exact writeFile_settles SHA512 f buf offset
    | none =>
        refine fun s => ⟨?_, writeFile_settles SHA512 _ buf offset⟩
        unfold findFile
        cases s.fileIndex.lookup path with
        | some f => exact .refl s
        | none => exact .of_blocks rfl rfl

end

theorem releaseLoop_settles {f : FileRef} {next : Program} (settles : next.Acts Settles)
    (counts : List (BlockRef × ℤ)) : (releaseLoop f counts next).Acts Settles := by
  induction counts with
  | nil => exact settles
  | cons entry rest ih =>
      refine fun s => ⟨.of_released (lowerCounter_released _ _ s), ?_⟩
      dsimp only
      cases decide (((lowerCounter entry.1 entry.2 s).blocks entry.1).counter = 0) with
      | false => exact ih
      | true =>
          refine fun s => ⟨.of_released (pushFree_released _ s), fun s => ⟨?_, ih⟩⟩
          exact .of_released (freeBlockMeta_released _ s)

theorem xmp_unlink_settles (path : Path) : (xmp_unlink path).Acts Settles := by
  have removes : ∀ f, LockedPrograms.Prog.Acts Settles (.act (fun s : Store => ((), s))
      (fun _ => Frame.removing f) fun _ =>
        .acquire .block_index_lock .write <|
        .ask fun order : IterOrder (BlockRef × ℤ) =>
        .ask fun strays : List (BlockRef × ℤ) =>
        .act (countReferences f order strays) (fun counts => .releasing f none counts)
          fun counts =>
        releaseLoop f counts <|
        .release .block_index_lock .write (.releasing f none []) <|
        .release (.file f) .write (.released f) <|
        .act (fun s => ((), freeFilemeta f s)) (fun _ => .removed f) fun _ =>
        .ret (.status 0)) := by
    refine fun f s => ⟨.refl s, fun order strays s => ⟨.refl s, releaseLoop_settles ?_ _⟩⟩
    exact fun s => ⟨.of_blocks rfl rfl, trivial⟩
  unfold xmp_unlink
  split_ifs
  · exact trivial
  · intro s
    unfold takeFile
    cases s.fileIndex.lookup path with
    | none => exact ⟨.refl s, trivial⟩
    | some f =>
        refine ⟨.of_blocks rfl rfl, fun unlink => ?_⟩
        cases unlink with
        | ok => exact removes f
        | enoent => exact removes f
        | fail errno =>
            have restores : ∀ s, Settles s (reinsertFile path f s) := by
              intro s
              obtain ⟨fileIndex, files, same⟩ := reinsertFile_rest path f s
              rw [same]
              exact .of_blocks rfl rfl
            exact fun s => ⟨.refl s, fun s => ⟨restores s, trivial⟩⟩

/-- No call changes the hash of a block. -/
theorem program_settles (SHA512 : Page → BlockId) (call : Call) :
    (program SHA512 call).Acts Settles := by
  cases call with
  | getattr path => exact xmp_getattr_settles path
  | read path size offset => exact xmp_read_settles path size offset
  | write path buf offset => exact xmp_write_settles SHA512 path buf offset
  | unlink path => exact xmp_unlink_settles path

/-! ## Runs -/

theorem pointers_start {T : Type} {s : Store} {ids : BlockRef → BlockId}
    (allocated : s.Allocated) (named : Named ids s) :
    Pointers ids (fun _ : T => .outside) s where
  files reach := by
    rcases reach with ⟨path, found⟩ | ⟨t, has⟩
    · exact allocated.files found
    · cases has
  listed reach b member := by
    rcases reach with ⟨path, found⟩ | ⟨t, has⟩
    · exact allocated.listed found b member
    · cases has
  indexed inside := by
    obtain ⟨below, id⟩ := allocated.indexed inside
    exact ⟨below, (named _ below).symm.trans id⟩
  named := named
  known t b member := absurd member List.not_mem_nil

variable {T : Type} [DecidableEq T] {SHA512 : Page → BlockId} {calls : T → Call}
variable {clause : Clause T} {s : Store} {trace : List (LockedPrograms.Event T Lock)} {m : State T}

/-- A step of the runs a clause is about. -/
def Clause.Step (clause : Clause T) (m : State T) (event : LockedPrograms.Event T Lock)
    (after : State T) : Prop :=
  m.Step Lock.fifo event after ∧
    ∀ t, event = .act t → clause.allowed m.frame m.shared t (after.frame t) after.shared

theorem Clause.run_settles (run : Runs clause.Step (start SHA512 s calls) trace m) :
    Settles s m.shared ∧ ∀ t, (m.prog t).Acts Settles := by
  refine run.state_invariant (fun m : State T => Settles s m.shared ∧ ∀ t, (m.prog t).Acts Settles)
    ⟨.refl s, fun t => program_settles SHA512 (calls t)⟩ fun before move => ?_
  obtain ⟨settles, programs⟩ := move.1.acts Settles.refl before.2
  exact ⟨before.1.trans settles, programs⟩

/-- The hashes of the blocks in the last state are those of the whole run. -/
theorem Clause.allowed_run {ids : BlockRef → BlockId}
    (run : Runs clause.Step (start SHA512 s calls) trace m) (named : Named ids m.shared) :
    Runs (fun m event after => m.Step Lock.fifo event after ∧
      Allowed (clause.discipline calls ids) m event after) (start SHA512 s calls) trace m := by
  induction run with
  | nil => exact .nil
  | @snoc trace m after event earlier move ih =>
      have settles := (move.1.acts Settles.refl (run_settles earlier).2).1
      exact (ih (settles.named named)).snoc ⟨move.1, fun t acts => ⟨named, move.2 t acts⟩⟩

/-- **Calls hold their locks in order, and keep a clause that every act preserves**, with
the hashes the blocks have in the end. -/
theorem Clause.abides (preserved : ∀ ids, clause.Preserved SHA512 calls ids)
    (allocated : s.Allocated) (keeps : clause.keeps (fun _ => .outside) s)
    (run : Runs clause.Step (start SHA512 s calls) trace m) :
    ∃ ids, Named ids m.shared ∧
      Abides Lock.fifo (clause.discipline calls ids) (fun _ => []) (start SHA512 s calls) ∧
      Runs (fun m event after => m.Step Lock.fifo event after ∧
        Allowed (clause.discipline calls ids) m event after) (start SHA512 s calls) trace m := by
  have named : Named (fun b => (m.shared.blocks b).id) m.shared := fun b _ => rfl
  have from_ : Named (fun b => (m.shared.blocks b).id) s := (run_settles run).1.named named
  exact ⟨_, named, Abides.start (preserved _).follows ⟨pointers_start allocated from_, keeps⟩,
    allowed_run run named⟩

/-! ## The order of the locks is all a run needs -/

/-- The clause that says nothing. -/
def Clause.unconstrained : Clause T := ⟨fun _ _ => True, fun _ _ _ _ _ => True⟩

theorem Clause.unconstrained_preserved (ids : BlockRef → BlockId) :
    (Clause.unconstrained : Clause T).Preserved SHA512 calls ids := by
  constructor <;> intros <;> exact trivial

/-- **No deadlock.**  In every state of every run some unfinished call can go on, if there
is one, and a call that has returned is neither inside a lock nor waiting at one, and has
released every lock as often as it was granted it. -/
theorem calls_never_stuck [Finite T] (SHA512 : Page → BlockId) (allocated : s.Allocated)
    (calls : T → Call) (run : Runs (Machine.Step Lock.fifo) (start SHA512 s calls) trace m) :
    ((∃ t, m.Unfinished t) → ∃ t, m.Unfinished t ∧ ¬ m.Blocked Lock.fifo t) ∧
      ∀ t, ¬ m.Unfinished t → ∀ lock mode, (t, mode) ∉ (m.locks lock).inside ∧
        (t, mode) ∉ (m.locks lock).waiting ∧
        grants t lock mode trace = releases t lock mode trace := by
  have free : Runs Clause.unconstrained.Step (start SHA512 s calls) trace m :=
    run.mono fun _ _ _ move => ⟨move, fun _ _ => trivial⟩
  obtain ⟨ids, -, start, allowed⟩ :=
    Clause.abides Clause.unconstrained_preserved allocated trivial free
  have abides := start.run allowed
  refine ⟨fun ⟨t, unfinished⟩ => abides.not_all_blocked unfinished, fun t finished lock mode => ?_⟩
  obtain ⟨value, here⟩ : ∃ value, m.prog t = .ret value := by
    by_contra none_
    exact finished fun value here => none_ ⟨value, here⟩
  have nothing : holdings trace t = [] := (abides.returned here).1
  refine ⟨fun inside => ?_, abides.not_waiting fun mode next there => ?_, ?_⟩
  · have holds := (abides.table.inside t lock mode).mp inside
    rw [nothing] at holds
    exact absurd holds List.not_mem_nil
  · rw [here] at there
    cases there
  · have balance := grants_eq start allowed t lock mode
    rwa [nothing, List.count_nil, Nat.add_zero] at balance

/-- A write and a read of the same path: the read has joined the queue of
`file_index_lock`. -/
theorem calls_never_stuck_queued :
    let calls : Bool → Call
      | true => .read (CString.lit "/a") 0 0
      | false => .write (CString.lit "/a") [] 0
    let before := start (fun _ => digestOfA) (Store.empty 3 fun _ => 0) calls
    let m := before.setLock .file_index_lock ⟨[], [(true, .read)]⟩
    ((∃ t, m.Unfinished t) → ∃ t, m.Unfinished t ∧ ¬ m.Blocked Lock.fifo t) ∧
      ∀ t, ¬ m.Unfinished t → ∀ lock mode, (t, mode) ∉ (m.locks lock).inside ∧
        (t, mode) ∉ (m.locks lock).waiting ∧
        grants t lock mode [.lock .file_index_lock (.arrive true .read)] =
          releases t lock mode [.lock .file_index_lock (.arrive true .read)] := by
  intro calls before m
  refine calls_never_stuck (fun _ => digestOfA) (Accounted.empty 3 fun _ => 0).allocated calls ?_
  exact Runs.nil.snoc (.arrive rfl trivial (.arrive .read List.not_mem_nil))

end Threads

end ProjetoTSO.Codededup
