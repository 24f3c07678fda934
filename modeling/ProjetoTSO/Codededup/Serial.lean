import ProjetoTSO.Codededup.Discipline
import ProjetoTSO.Codededup.InBounds
import ProjetoTSO.Codededup.Transfers
import ProjetoTSO.Lib.Alone

/-!
# Calls one after the other

The handlers are modelled twice: as functions of a store and of what the system calls answer,
and as programs of threads with every lock operation.  Where no two calls overlap the second
model is the first (`serial_runs_are_sessions`): what is proved of sessions holds of the
threads as long as they take turns.
-/

namespace ProjetoTSO.Codededup.Threads

open CInt LockedPrograms FifoRwlock Transition

/-! ## Loops -/

section Loops

variable {mode : Mode} {frame : Frame} {next : Program} {s s' : Store} {result : Result}

theorem alone_lockBlocks (blocks : List BlockRef) :
    (lockBlocks mode blocks next).Alone s result s' ↔ next.Alone s result s' := by
  induction blocks with
  | nil => exact Iff.rfl
  | cons b blocks ih => exact ih

theorem alone_unlockBlocks (blocks : List BlockRef) :
    (unlockBlocks mode frame blocks next).Alone s result s' ↔ next.Alone s result s' := by
  induction blocks with
  | nil => exact Iff.rfl
  | cons b blocks ih => exact ih

variable {f : FileRef} {offset : ℤ} {capacity size : ℕ} {blocks : List BlockRef}

/-- The environment with its iteration `k` set. -/
def readIteration (env : ReadEnv) (k : ℕ) (memalign : Bool) (pread : PreadOut) : ReadEnv :=
  ⟨Function.update env.memalign k memalign, Function.update env.pread k pread⟩

theorem copyBlocks_iteration (env : ReadEnv) (k : ℕ) (memalign : Bool) (pread : PreadOut)
    (entry : ℤ × BlockRef) (rest : List (ℤ × BlockRef)) (buf : List UInt8) :
    copyBlocks s (readIteration env k memalign pread) offset capacity size k (entry :: rest) buf =
      (copyBlock s memalign pread offset capacity size entry buf).bind fun out =>
        if out.1 ≠ 0 then some (out.1, out.2)
        else copyBlocks s env offset capacity size (k + 1) rest out.2 := by
  have later : ∀ out, copyBlocks s (readIteration env k memalign pread) offset capacity size (k + 1)
      rest out = copyBlocks s env offset capacity size (k + 1) rest out := by
    refine fun out => copyBlocks_congr rest (k + 1) out fun j above => ?_
    have differ : j ≠ k := by omega
    exact ⟨Function.update_of_ne differ _ _, Function.update_of_ne differ _ _⟩
  have granted : (readIteration env k memalign pread).memalign k = memalign := by
    show Function.update env.memalign k memalign k = memalign
    rw [Function.update_self]
  have answered : (readIteration env k memalign pread).pread k = pread := by
    show Function.update env.pread k pread k = pread
    rw [Function.update_self]
  simp only [copyBlocks, granted, answered, later]
  rfl

/-- The copy loop, when all its copies are defined. -/
theorem alone_copyLoop {next : ℤ × List UInt8 → Program} (entries : List (ℤ × BlockRef)) :
    ∀ (k : ℕ) (buf : List UInt8),
      (∀ env, copyBlocks s env offset capacity size k entries buf ≠ none) →
      (copyLoop f blocks offset capacity size entries buf next).Alone s result s' →
      ∃ env out, copyBlocks s env offset capacity size k entries buf = some out ∧
        (next out).Alone s result s' := by
  induction entries with
  | nil => exact fun k buf _ alone => ⟨⟨fun _ => true, fun _ => default⟩, _, rfl, alone⟩
  | cons entry rest ih =>
      intro k buf defined alone
      obtain ⟨memalign, pread, alone⟩ := alone
      have first := fun env : ReadEnv =>
        @copyBlocks_iteration s offset capacity size env k memalign pread entry rest buf
      have some_ := fun env : ReadEnv => defined (readIteration env k memalign pread)
      simp only [first] at some_
      simp only [Prog.Alone] at alone
      cases copied : copyBlock s memalign pread offset capacity size entry buf with
      | none =>
          rw [copied] at some_
          exact absurd rfl (some_ ⟨fun _ => true, fun _ => default⟩)
      | some out =>
          obtain ⟨err, copy⟩ := out
          simp only [copied, Option.bind_some] at first some_ alone
          by_cases failed : err ≠ 0
          · rw [if_pos failed] at alone
            refine ⟨_, _, (first ⟨fun _ => true, fun _ => default⟩).trans (if_pos failed), alone⟩
          · simp only [if_neg failed] at first some_ alone
            obtain ⟨env, out, copies, goes⟩ := ih (k + 1) copy some_ alone
            exact ⟨_, out, (first env).trans copies, goes⟩

variable {tables : WriteTables}

theorem writeBlocks_congr {env env' : WriteEnv} (entries : List (BlockRef × Page)) :
    ∀ (k : ℕ) (created : List BlockRef) (s : Store), (∀ j, k ≤ j → env'.pwrite j = env.pwrite j) →
      writeBlocks f env' k entries created s = writeBlocks f env k entries created s := by
  induction entries with
  | nil => exact fun _ _ _ _ => rfl
  | cons entry rest ih =>
      intro k created s same
      have later : ∀ created s, writeBlocks f env' (k + 1) rest created s =
          writeBlocks f env (k + 1) rest created s := fun created s =>
        ih (k + 1) created s fun j above => same j (by omega)
      simp only [writeBlocks, same k le_rfl, later]

/-- The I/O loop. -/
theorem alone_storeLoop {next : ℤ → Program} (entries : List (BlockRef × Page)) :
    ∀ (k : ℕ) (created : List BlockRef) (s : Store),
      (storeLoop f tables k entries created next).Alone s result s' →
      ∃ env : WriteEnv, env.memalign = true ∧
        (next (writeBlocks f env k entries created s).1).Alone
          (writeBlocks f env k entries created s).2 result s' := by
  induction entries with
  | nil => exact fun k created s alone => ⟨⟨true, fun _ => default⟩, rfl, alone⟩
  | cons entry rest ih =>
      intro k created s alone
      obtain ⟨out, alone⟩ := alone
      simp only [Prog.Alone] at alone
      by_cases failed : (writeBlock f out entry created s).1 ≠ 0
      · rw [if_pos failed] at alone
        refine ⟨⟨true, fun _ => out⟩, rfl, ?_⟩
        simpa only [writeBlocks, if_pos failed] using alone
      · rw [if_neg failed] at alone
        obtain ⟨env, granted, goes⟩ := ih _ _ _ alone
        refine ⟨⟨true, Function.update env.pwrite k out⟩, rfl, ?_⟩
        have later := fun created s => @writeBlocks_congr f env
          ⟨true, Function.update env.pwrite k out⟩ rest (k + 1) created s fun j above =>
            Function.update_of_ne (by omega) _ _
        simpa only [writeBlocks, Function.update_self, if_neg failed, later] using goes

/-- The lookup loop. -/
theorem alone_lookupLoop {next : WriteTables → Program} (hashes : List BlockId) :
    ∀ (tables : WriteTables) (s : Store),
      (lookupLoop f hashes tables next).Alone s result s' →
      (next (hashes.foldl lookupBlock (tables, s)).1).Alone
        (hashes.foldl lookupBlock (tables, s)).2 result s' := by
  induction hashes with
  | nil => exact fun tables s alone => alone
  | cons hash rest ih =>
      intro tables s alone
      simp only [lookupLoop, Prog.Alone, countBlock] at alone
      rw [List.foldl_cons]
      cases entry : s.blockIndex.lookup hash with
      | some b =>
          rw [lookupBlock_indexed entry]
          simp only [entry] at alone
          exact ih _ _ alone
      | none =>
          simp only [entry, Prog.Alone] at alone
          exact ih _ _ alone

/-- The release loop. -/
theorem alone_releaseLoop (entries : List (BlockRef × ℤ)) :
    ∀ s : Store, (releaseLoop f entries next).Alone s result s' →
      next.Alone (entries.foldl releaseBlock s) result s' := by
  induction entries with
  | nil => exact fun s alone => alone
  | cons entry rest ih =>
      intro s alone
      obtain ⟨b, ocorrencias⟩ := entry
      simp only [releaseLoop, Prog.Alone] at alone
      rw [List.foldl_cons]
      by_cases zero : ((lowerCounter b ocorrencias s).blocks b).counter = 0
      · have same : releaseBlock s (b, ocorrencias) =
            freeBlockMeta b (pushFree b (lowerCounter b ocorrencias s)) := if_pos zero
        simp only [zero, decide_true, Prog.Alone] at alone
        rw [same]
        exact ih _ alone
      · have same : releaseBlock s (b, ocorrencias) = lowerCounter b ocorrencias s := if_neg zero
        simp only [zero, decide_false, Prog.Alone] at alone
        rw [same]
        exact ih _ alone

end Loops

/-! ## The handlers -/

section Handlers

variable {s s' : Store} {result : Result} {path : Path}

theorem alone_getattr (alone : (xmp_getattr path).Alone s result s') :
    ∃ lstat, result = .stat (Codededup.xmp_getattr path lstat s) ∧ s = s' := by
  unfold xmp_getattr at alone
  unfold Codededup.xmp_getattr
  by_cases own : reserved path
  · simp only [if_pos own] at alone ⊢
    exact ⟨default, alone.1.symm, alone.2⟩
  · simp only [if_neg own] at alone ⊢
    obtain ⟨lstat, alone⟩ := alone
    refine ⟨lstat, ?_⟩
    cases lstat with
    | fail errno => exact ⟨alone.1.symm, alone.2⟩
    | ok st_size st_blocks =>
        unfold overrideStat
        simp only [Prog.Alone, lookupFile] at alone
        cases entry : s.fileIndex.lookup path with
        | none =>
            simp only [entry, Prog.Alone] at alone
            exact ⟨alone.1.symm, alone.2⟩
        | some f =>
            simp only [entry, Prog.Alone, readSize] at alone
            exact ⟨alone.1.symm, alone.2⟩

theorem alone_read {size : ℕ} {offset : ℤ} (alone : (xmp_read path size offset).Alone s result s')
    (defined : ∀ env, Codededup.xmp_read path size offset env s ≠ none) :
    ∃ env ret buf, Codededup.xmp_read path size offset env s = some (ret, buf) ∧
      result = .bytes ret buf ∧ s = s' := by
  unfold xmp_read at alone
  unfold Codededup.xmp_read at defined ⊢
  by_cases odd : size % 4096 ≠ 0
  · rw [if_pos odd] at alone
    refine ⟨⟨fun _ => true, fun _ => default⟩, -EINVAL, [], if_pos odd, alone.1.symm, alone.2⟩
  rw [if_neg odd] at alone
  simp only [if_neg odd] at defined ⊢
  simp only [Prog.Alone, lookupFile] at alone
  cases entry : s.fileIndex.lookup path with
  | none =>
      simp only [entry, Prog.Alone] at alone
      exact ⟨⟨fun _ => true, fun _ => default⟩, _, _, rfl, alone.1.symm, alone.2⟩
  | some f =>
      simp only [entry, Prog.Alone] at alone defined ⊢
      by_cases past : (s.files f).logicalSize ≤ offset
      · rw [if_pos (show (readSize f s).1 ≤ offset from past)] at alone
        simp only [if_pos past]
        exact ⟨⟨fun _ => true, fun _ => default⟩, _, _, rfl, alone.1.symm, alone.2⟩
      · rw [if_neg (show ¬ (readSize f s).1 ≤ offset from past)] at alone
        simp only [if_neg past] at defined ⊢
        have sized : readSize f s = ((s.files f).logicalSize, s) := rfl
        rw [sized] at alone
        generalize clampSize (s.files f).logicalSize offset size = clamped at alone defined ⊢
        generalize startIndex offset = start_index at alone defined ⊢
        generalize endIndex offset clamped = end_index at alone defined ⊢
        simp only [alone_acquire, alone_ask, alone_act, alone_release, alone_lockBlocks] at alone
        obtain ⟨strays, alone⟩ := alone
        have read : readWindow f start_index end_index strays s =
            (((windowBlocks (s.files f).blockList start_index end_index).getD
              (strays.filter fun entry => entry.2 < s.nextBlock), _), s) := rfl
        rw [read] at alone
        cases window : windowBlocks (s.files f).blockList start_index end_index with
        | none =>
            rw [window] at defined
            exact absurd rfl (defined ⟨fun _ => true, fun _ => default⟩)
        | some entries =>
            rw [window] at alone defined
            have copies : ∀ env, copyBlocks s env offset size clamped 0 entries [] ≠ none := by
              intro env none_
              refine defined env ?_
              show ((copyBlocks s env offset size clamped 0 entries []).bind _) = none
              rw [none_]
              rfl
            obtain ⟨env, out, copied, order, goes⟩ := alone_copyLoop entries 0 [] copies alone
            rw [alone_unlockBlocks] at goes
            refine ⟨env, _, _, ?_, goes.1.symm, goes.2⟩
            show ((copyBlocks s env offset size clamped 0 entries []).bind _) = _
            rw [copied]
            rfl

theorem alone_writeCleanup {f : FileRef} {offset err : ℤ} {size : ℕ} {tables : WriteTables}
    {blocks : List BlockRef}
    (alone : (writeCleanup f offset size tables blocks err).Alone s result s') :
    result = .status (if err ≠ 0 then err else int32 size) ∧
      s' = growFile f err offset size s := by
  unfold writeCleanup at alone
  rw [alone_act, alone_unlockBlocks, alone_release] at alone
  exact ⟨alone.1.symm, alone.2.symm⟩

/-- From the sorting of the blocks on. -/
theorem alone_placeAndStore {f : FileRef} {buf : List UInt8} {offset : ℤ} {tables : WriteTables}
    (alone : (placeAndStore f buf offset tables).Alone s result s') :
    ∃ env, ∀ out, out = writeOut f buf env tables
        (assignOffsets (blocksToLock tables s) tables.my_created_blocks s) →
      result = .status (if out.1 ≠ 0 then out.1 else int32 buf.length) ∧
        s' = growFile f out.1 offset buf.length out.2 := by
  unfold placeAndStore at alone
  rw [alone_act, alone_lockBlocks] at alone
  simp only [alone_acquire, alone_act, alone_release, alone_ask] at alone
  obtain ⟨memalign, alone⟩ := alone
  by_cases refused : memalign = false
  · rw [if_pos refused] at alone
    refine ⟨⟨false, fun _ => default⟩, ?_⟩
    rintro out rfl
    exact alone_writeCleanup alone
  · rw [if_neg refused] at alone
    obtain ⟨env, granted, alone⟩ := alone_storeLoop _ 0 _ _ alone
    refine ⟨env, ?_⟩
    have given : ¬ env.memalign = false := by
      rw [granted]
      decide
    have io : writeOut f buf env tables
        (assignOffsets (blocksToLock tables s) tables.my_created_blocks s) = _ := if_neg given
    rintro out rfl
    rw [io]
    exact alone_writeCleanup alone

/-- From the lock of the file on. -/
theorem alone_writeFile {SHA512 : Page → BlockId} {f : FileRef} {buf : List UInt8} {offset : ℤ}
    (alone : (writeFile SHA512 f buf offset).Alone s result s') :
    ∃ env ret, (if offset ≠ (s.files f).logicalSize then (-ENOTSUP, s)
        else appendBlocks SHA512 f buf offset env s) = (ret, s') ∧ result = .status ret := by
  unfold writeFile at alone
  rw [alone_acquire, alone_act] at alone
  by_cases other : offset ≠ (s.files f).logicalSize
  · rw [if_pos (show offset ≠ (readSize f s).1 from other)] at alone
    obtain ⟨same, rfl⟩ := alone
    exact ⟨⟨true, fun _ => default⟩, -ENOTSUP, if_pos other, same.symm⟩
  · rw [if_neg (show ¬ offset ≠ (readSize f s).1 from other), alone_acquire] at alone
    obtain ⟨env, done⟩ := alone_placeAndStore (alone_lookupLoop _ _ _ alone)
    obtain ⟨value, ends⟩ := done _ rfl
    refine ⟨env, _, ?_, value⟩
    rw [if_neg other, appendBlocks_eq, ends]
    rfl

theorem alone_write {SHA512 : Page → BlockId} {buf : List UInt8} {offset : ℤ}
    (alone : (xmp_write SHA512 path buf offset).Alone s result s')
    (defined : ∀ env, Codededup.xmp_write SHA512 path buf offset env s ≠ none) :
    ∃ env ret, Codededup.xmp_write SHA512 path buf offset env s = some (ret, s') ∧
      result = .status ret := by
  unfold xmp_write at alone
  unfold Codededup.xmp_write
  by_cases odd : buf.length % 4096 ≠ 0
  · rw [if_pos odd] at alone
    obtain ⟨same, rfl⟩ := alone
    exact ⟨⟨true, fun _ => default⟩, _, if_pos odd, same.symm⟩
  rw [if_neg odd, alone_acquire, alone_act] at alone
  -- `buf + i * 4096` is computed in `int`
  have short : ¬ buf.length > 2 ^ 31 := by
    intro long
    refine defined ⟨true, fun _ => default⟩ ?_
    unfold Codededup.xmp_write
    rw [if_neg odd, if_pos long]
  simp only [if_neg odd, if_neg short]
  cases entry : s.fileIndex.lookup path with
  | some f =>
      have found : lookupFile path s = (some f, s) := by rw [lookupFile, entry]
      rw [found] at alone
      obtain ⟨env, ret, runs, same⟩ := alone_writeFile alone
      refine ⟨env, ret, ?_, same⟩
      have here : findFile path s = (f, s) := by
        unfold findFile
        simp only [entry]
      rw [here, ← runs]
      exact (apply_ite some _ _ _).symm
  | none =>
      have absent : lookupFile path s = (none, s) := by rw [lookupFile, entry]
      rw [absent] at alone
      obtain ⟨env, ret, runs, same⟩ := alone_writeFile alone
      refine ⟨env, ret, ?_, same⟩
      have fresh : findFile path s = (s.nextFile, createFile path s) := by
        unfold findFile
        simp only [entry]
      rw [fresh] at runs ⊢
      rw [← runs]
      exact (apply_ite some _ _ _).symm

/-- The removal of an entry that is out of the index. -/
theorem alone_release_file {f : FileRef} (few : ¬ 2 ^ 31 ≤ (s.files f).blockList.length)
    (alone : (Prog.act (fun s : Store => ((), s)) (fun _ => Frame.removing f) fun _ =>
      .acquire .block_index_lock .write <|
      .ask fun order : IterOrder (BlockRef × ℤ) =>
      .ask fun strays : List (BlockRef × ℤ) =>
      .act (countReferences f order strays) (fun counts => .releasing f none counts) fun counts =>
      releaseLoop f counts <|
      .release .block_index_lock .write (.releasing f none []) <|
      .release (.file f) .write (.released f) <|
      .act (fun s => ((), freeFilemeta f s)) (fun _ => .removed f) fun _ =>
      .ret (.status 0) : Program).Alone s result s') :
    ∃ order, result = .status 0 ∧
      s' = freeFilemeta f ((releaseOrder order (s.files f).blockList).foldl releaseBlock s) := by
  simp only [alone_act, alone_acquire, alone_ask] at alone
  obtain ⟨order, strays, alone⟩ := alone
  have counted : countReferences f order strays s = (releaseOrder order (s.files f).blockList, s) := by
    rw [countReferences, if_neg few]
  rw [counted] at alone
  have done := alone_releaseLoop _ _ alone
  exact ⟨order, done.1.symm, done.2.symm⟩

theorem alone_unlink (alone : (xmp_unlink path).Alone s result s')
    (defined : ∀ unlink order, Codededup.xmp_unlink path unlink order s ≠ none) :
    ∃ unlink order ret, Codededup.xmp_unlink path unlink order s = some (ret, s') ∧
      result = .status ret := by
  unfold xmp_unlink at alone
  unfold Codededup.xmp_unlink
  by_cases own : reserved path
  · rw [if_pos own] at alone
    obtain ⟨same, rfl⟩ := alone
    exact ⟨default, default, _, if_pos own, same.symm⟩
  rw [if_neg own, alone_acquire, alone_act] at alone
  simp only [if_neg own]
  cases entry : s.fileIndex.lookup path with
  | none =>
      have absent : takeFile path s = (none, s) := by
        unfold takeFile
        simp only [entry]
      rw [absent] at alone
      obtain ⟨same, rfl⟩ := alone
      exact ⟨default, default, _, rfl, same.symm⟩
  | some f =>
      have taken : takeFile path s = (some f, stealFile path s) := by
        unfold takeFile
        simp only [entry]
      rw [taken] at alone
      obtain ⟨unlink, alone⟩ := alone
      have few : ¬ 2 ^ 31 ≤ ((stealFile path s).files f).blockList.length := by
        intro many
        refine defined .ok default ?_
        unfold Codededup.xmp_unlink
        simp only [if_neg own, entry, if_pos many]
      cases unlink with
      | fail errno =>
          obtain ⟨same, rfl⟩ := alone
          exact ⟨.fail errno, default, _, rfl, same.symm⟩
      | ok =>
          obtain ⟨order, value, rfl⟩ := alone_release_file few alone
          exact ⟨.ok, order, 0, if_neg few, value⟩
      | enoent =>
          obtain ⟨order, value, rfl⟩ := alone_release_file few alone
          exact ⟨.enoent, order, 0, if_neg few, value⟩

end Handlers

/-! ## Sessions -/

/-- The answer to a call, as a session records it. -/
def Result.reply : Result → Reply
  | .stat stbuf => .stat stbuf
  | .bytes ret buf => .data ret buf
  | .status ret => .code ret

/-- The call of a session is this one, with some answers of the system. -/
inductive Call.With : Call → Codededup.Call → Prop
  | getattr (path : Path) (lstat : LstatOut) : With (.getattr path) (.getattr path lstat)
  | read (path : Path) (size : ℕ) (offset : ℤ) (env : ReadEnv) :
      With (.read path size offset) (.read path size offset env)
  | write (path : Path) (buf : List UInt8) (offset : ℤ) (env : WriteEnv) :
      With (.write path buf offset) (.write path buf offset env)
  | unlink (path : Path) (unlink : UnlinkOut) (order : IterOrder (BlockRef × ℤ)) :
      With (.unlink path) (.unlink path unlink order)

/-- Whatever the system answers, the call does nothing undefined on this store. -/
def Call.Defined (SHA512 : Page → BlockId) (call : Call) (s : Store) : Prop :=
  ∀ answered, call.With answered → exec SHA512 answered s ≠ none

/-- A thread with its result, and a call of a session with its reply. -/
def Matches {T : Type} (calls : T → Call) (entry : T × Result) (event : Codededup.Event) : Prop :=
  (calls entry.1).With event.1 ∧ event.2 = entry.2.reply

section Sessions

variable {SHA512 : Page → BlockId} {s s' : Store} {result : Result}

/-- A program that runs alone is the handler. -/
theorem exec_of_alone (call : Call) (defined : call.Defined SHA512 s)
    (alone : (program SHA512 call).Alone s result s') :
    ∃ answered, call.With answered ∧ exec SHA512 answered s = some (result.reply, s') := by
  cases call with
  | getattr path =>
      obtain ⟨lstat, rfl, rfl⟩ := alone_getattr alone
      exact ⟨_, .getattr path lstat, rfl⟩
  | read path size offset =>
      have copies : ∀ env, Codededup.xmp_read path size offset env s ≠ none := fun env none_ =>
        defined _ (.read path size offset env) (congrArg (Option.map _) none_)
      obtain ⟨env, ret, buf, reads, rfl, rfl⟩ := alone_read alone copies
      exact ⟨_, .read path size offset env, congrArg (Option.map _) reads⟩
  | write path buf offset =>
      have stores : ∀ env, Codededup.xmp_write SHA512 path buf offset env s ≠ none :=
        fun env none_ => defined _ (.write path buf offset env) (congrArg (Option.map _) none_)
      obtain ⟨env, ret, writes, rfl⟩ := alone_write alone stores
      exact ⟨_, .write path buf offset env, congrArg (Option.map _) writes⟩
  | unlink path =>
      have frees : ∀ unlink order, Codededup.xmp_unlink path unlink order s ≠ none :=
        fun unlink order none_ =>
          defined _ (.unlink path unlink order) (congrArg (Option.map _) none_)
      obtain ⟨unlink, order, ret, removes, rfl⟩ := alone_unlink alone frees
      exact ⟨_, .unlink path unlink order, congrArg (Option.map _) removes⟩

/-- Steps of a serial run, read as calls of a session. -/
theorem session_of_serial {T : Type} {calls : T → Call} {history : List (T × Result)}
    (run : Runs (fun s entry s' => (calls entry.1).Defined SHA512 s ∧
      (program SHA512 (calls entry.1)).Alone s entry.2 s') s history s') :
    ∃ events, List.Forall₂ (Matches calls) history events ∧
      Runs (fun s event s' => exec SHA512 event.1 s = some (event.2, s')) s events s' := by
  induction run with
  | nil => exact ⟨[], .nil, .nil⟩
  | @snoc history mid after entry earlier move ih =>
      obtain ⟨events, same, session⟩ := ih
      obtain ⟨answered, this, runs⟩ := exec_of_alone _ move.1 move.2
      exact ⟨events ++ [(answered, entry.2.reply)],
        List.rel_append same (.cons ⟨this, rfl⟩ .nil), session.snoc runs⟩

/-- **Threads that take turns are a session**: with every lock operation, every iteration and
every branch of the programs, no call on no thread returns or leaves in the store anything the
handler of the same name does not. -/
theorem serial_runs_are_sessions {T : Type} [DecidableEq T] {calls : T → Call}
    {history : List (T × Result)} {m : State T}
    (serial : Serial Lock.fifo (fun t s => (calls t).Defined SHA512 s) (start SHA512 s calls)
      history m) :
    ∃ events, List.Forall₂ (Matches calls) history events ∧
      Runs (fun s event s' => exec SHA512 event.1 s = some (event.2, s')) s events m.shared :=
  session_of_serial serial.alone

end Sessions

/-- The file of `holdsA` is removed. -/
theorem reached_unlinked :
    ∃ trace m, Runs (Machine.Step Lock.fifo)
        (start (fun _ => digestOfA) holdsA fun _ : Unit => .unlink (CString.lit "/a")) trace m ∧
      m.prog () = .ret (.status 0) := by
  have found : holdsA.fileIndex.lookup (CString.lit "/a") = some 0 := by decide
  have begun : Reached Lock.fifo (fun _ _ _ _ _ => True)
      (start (fun _ => digestOfA) holdsA fun _ : Unit => .unlink (CString.lit "/a"))
      (fun _ => []) holdsA (fun _ => .outside)
      (fun _ => program (fun _ => digestOfA) (.unlink (CString.lit "/a"))) := .start _ _ _
  have taken := (begun.acquire (t := ()) rfl (by simp)).act (t := ()) rfl
    (show takeFile (CString.lit "/a") holdsA = (some 0, stealFile (CString.lit "/a") holdsA) by
      rw [takeFile, found]) trivial
  have mine := (taken.release (t := ()) rfl (by simp)).acquire (t := ()) rfl (by simp)
  have gone := (mine.ask (t := ()) rfl UnlinkOut.ok).act (t := ()) rfl rfl trivial
  have counted := (((gone.acquire (t := ()) rfl (by simp)).ask (t := ()) rfl (IterOrder.id _)).ask
    (t := ()) rfl []).act (t := ()) rfl
      (show countReferences 0 (IterOrder.id _) [] (stealFile (CString.lit "/a") holdsA) =
        ([(0, 1)], stealFile (CString.lit "/a") holdsA) by rfl) trivial
  have zero : ((lowerCounter 0 1 (stealFile (CString.lit "/a") holdsA)).blocks 0).counter = 0 := rfl
  have lowered := (counted.acquire (t := ()) rfl (by simp)).act (t := ()) rfl
    (congrArg (fun last : Bool => (last, lowerCounter 0 1 (stealFile (CString.lit "/a") holdsA)))
      (decide_eq_true zero)) trivial
  have pushed := (lowered.acquire (t := ()) rfl (by simp)).act (t := ()) rfl rfl trivial
  have freed := ((pushed.release (t := ()) rfl (by simp)).release (t := ()) rfl (by simp)).act
    (t := ()) rfl rfl trivial
  obtain ⟨trace, m, run, -, -, -, -, prog⟩ :=
    ((freed.release (t := ()) rfl (by simp)).release (t := ()) rfl (by simp)).act (t := ()) rfl rfl
      trivial
  refine ⟨trace, m, run.mono fun _ _ _ move => move.1, ?_⟩
  rw [prog]
  rfl

theorem serial_runs_are_sessions_unlinked :
    ∃ (m : State Unit) (events : List Codededup.Event),
      List.Forall₂ (Matches fun _ : Unit => .unlink (CString.lit "/a")) [((), .status 0)] events ∧
      Runs (fun s event s' => exec (fun _ => digestOfA) event.1 s = some (event.2, s')) holdsA
        events m.shared := by
  obtain ⟨trace, m, run, returned⟩ := reached_unlinked
  have found : holdsA.fileIndex.lookup (CString.lit "/a") = some 0 := by decide
  have defined : Call.Defined (fun _ => digestOfA) (.unlink (CString.lit "/a")) holdsA := by
    intro answered this none_
    cases this with
    | unlink _ unlink order =>
        have none_ := Option.map_eq_none_iff.mp none_
        unfold Codededup.xmp_unlink at none_
        rw [if_neg (by decide)] at none_
        simp only [found] at none_
        have few : ¬ 2 ^ 31 ≤ ((stealFile (CString.lit "/a") holdsA).files 0).blockList.length := by
          show ¬ 2 ^ 31 ≤ ([0] : List BlockRef).length
          simp
        simp only [if_neg few] at none_
        cases unlink <;> cases none_
  have serial : Serial Lock.fifo (fun _ : Unit => (Call.unlink (CString.lit "/a")).Defined
      fun _ => digestOfA) _ _ m := .call .nil List.not_mem_nil defined
    (run.mono fun _ _ _ move => ⟨move, Subsingleton.elim _ ()⟩) returned
  exact ⟨m, serial_runs_are_sessions serial⟩

end ProjetoTSO.Codededup.Threads
