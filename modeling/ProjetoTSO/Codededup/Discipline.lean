import ProjetoTSO.Codededup.Accounting
import ProjetoTSO.Codededup.LockOrder

/-!
# Every call follows the discipline

A clause that every act of the handlers preserves is kept by every call, in every state of
every run (`Clause.Preserved.follows`).  The proof goes through the handlers once.
-/

namespace ProjetoTSO.Codededup.Threads

open CInt LockedPrograms FifoRwlock

/-! ## Locks and frames on the way -/

def blockLocks (mode : Mode) (blocks : List BlockRef) : List (Lock × Mode) :=
  blocks.map fun b => (.block b, mode)

theorem mem_blockLocks {mode : Mode} {blocks : List BlockRef} {entry : Lock × Mode} :
    entry ∈ blockLocks mode blocks ↔ ∃ b ∈ blocks, entry = (.block b, mode) := by
  rw [blockLocks, List.mem_map]
  constructor
  · rintro ⟨b, member, rfl⟩
    exact ⟨b, member, rfl⟩
  · rintro ⟨b, member, rfl⟩
    exact ⟨b, member, rfl⟩

namespace Fits

variable {held : List (Lock × Mode)} {frame : Frame} {f : FileRef} {mode : Mode}

/-- One more lock. -/
theorem cons {lock : Lock} (fits : Fits held frame)
    (file : ∀ f, lock = .file f → frame.hand = some f)
    (block : ∀ b, lock = .block b → b ∈ frame.blocks ∨ (Lock.block_index_lock, Mode.write) ∈ held) :
    Fits ((lock, mode) :: held) frame where
  hand member := by
    rcases List.mem_cons.mp member with new | old
    · cases new
      exact file _ rfl
    · exact fits.hand old
  locked lock := (fits.locked lock).imp fun _ => List.mem_cons_of_mem _
  found here := List.mem_cons_of_mem _ (fits.found here)
  blocks member := by
    rcases List.mem_cons.mp member with new | old
    · cases new
      exact (block _ rfl).imp_right (List.mem_cons_of_mem _)
    · exact (fits.blocks old).imp_right (List.mem_cons_of_mem _)
  placed here entry member := List.mem_cons_of_mem _ (fits.placed here entry member)

/-- A mutex shows in no frame. -/
theorem mutex {lock : Lock} (fits : Fits held frame) (mutex : ¬ lock.fifo) :
    Fits ((lock, mode) :: held) frame := by
  refine fits.cons (fun f same => ?_) fun b same => ?_
  · rw [same] at mutex
    exact absurd trivial mutex
  · rw [same] at mutex
    exact absurd trivial mutex

theorem nil (out : frame.locked = none) (unfound : ∀ f, frame ≠ .found f) : Fits [] frame where
  hand member := absurd member List.not_mem_nil
  locked lock := by
    rw [out] at lock
    cases lock
  found here := absurd here (unfound _)
  blocks member := absurd member List.not_mem_nil
  placed here := by
    rw [here] at out
    cases out

theorem outside : Fits [] .outside := nil rfl fun _ => by simp

/-- Blocks in hand are locked. -/
theorem blockLocks {blocks : List BlockRef} (fits : Fits held frame)
    (inHand : ∀ b ∈ blocks, b ∈ frame.blocks) :
    Fits (blockLocks mode blocks ++ held) frame := by
  induction blocks with
  | nil => exact fits
  | cons b blocks ih =>
      refine (ih fun c member => inHand c (List.mem_cons_of_mem _ member)).cons ?_ ?_
      · exact fun f same => by cases same
      · rintro c same
        cases same
        exact Or.inl (inHand b List.mem_cons_self)

end Fits

section Rules

variable {T : Type} [DecidableEq T] {calls : T → Call} {ids : BlockRef → BlockId}
variable {clause : Clause T} {t : T} {held rest : List (Lock × Mode)} {frame frame' : Frame}
variable {mode : Mode} {next : Program}

/-- An act, from what it does on its turn. -/
theorem follows_act {α : Type} {run : Store → α × Store} {frame' : α → Frame}
    {next : α → Program} (fits : Fits held frame)
    (turn : ∀ {others frames s}, Turn clause ids others frames s t frame → others t = held →
      Named ids (run s).2 → clause.allowed frames s t (frame' (run s).1) (run s).2 →
        Pointers ids (Function.update frames t (frame' (run s).1)) (run s).2 ∧
          clause.keeps (Function.update frames t (frame' (run s).1)) (run s).2 ∧
          (clause.discipline calls ids).Follows t (next (run s).1) held (frame' (run s).1)) :
    (clause.discipline calls ids).Follows t (.act run frame' next) held frame := by
  refine ⟨fits, fun others frames s scene own here allowed => ?_⟩
  obtain ⟨pointers, keeps, follows⟩ := turn
    ⟨scene.keeps.2, scene.keeps.1, scene.fits, scene.exclusive, here⟩ own allowed.1 allowed.2
  exact ⟨⟨pointers, keeps⟩, follows⟩

/-- A release that changes the frame. -/
theorem follows_release {lock : Lock} (perm : held.Perm ((lock, mode) :: rest))
    (fits : Fits held frame)
    (turn : ∀ {others frames s}, Turn clause ids others frames s t frame → others t = held →
      Pointers ids (Function.update frames t frame') s ∧
        clause.keeps (Function.update frames t frame') s)
    (follows : (clause.discipline calls ids).Follows t next rest frame') :
    (clause.discipline calls ids).Follows t (.release lock mode frame' next) held frame := by
  refine Discipline.Follows.release perm fits (fun others frames s scene own here => ?_) follows
  exact turn ⟨scene.keeps.2, scene.keeps.1, scene.fits, scene.exclusive, here⟩ own

/-- Block locks taken in the order of the hashes. -/
theorem follows_lockBlocks {blocks : List BlockRef}
    (sorted : blocks.Pairwise fun a b => place (ids a) < place (ids b))
    (above : ∀ entry ∈ held, ∀ b, entry.1.rank ids < (Lock.block b).rank ids)
    (fits : Fits held frame) (inHand : ∀ b ∈ blocks, b ∈ frame.blocks)
    (follows : (clause.discipline calls ids).Follows t next (blockLocks mode blocks ++ held) frame) :
    (clause.discipline calls ids).Follows t (lockBlocks mode blocks next) held frame := by
  -- the locks of `taken` are held already
  suffices from_ : ∀ {taken}, (∀ a ∈ taken, ∀ b ∈ blocks, place (ids a) < place (ids b)) →
      (∀ b ∈ taken, b ∈ frame.blocks) →
      (clause.discipline calls ids).Follows t next
        (blockLocks mode blocks ++ (blockLocks mode taken ++ held)) frame →
      (clause.discipline calls ids).Follows t (lockBlocks mode blocks next)
        (blockLocks mode taken ++ held) frame from
    from_ (fun a member => absurd member List.not_mem_nil)
      (fun a member => absurd member List.not_mem_nil) follows
  clear follows
  induction blocks with
  | nil => exact fun _ _ follows => follows
  | cons b blocks ih =>
      intro taken below mine follows
      obtain ⟨first, sorted⟩ := List.pairwise_cons.mp sorted
      refine ⟨fits.blockLocks mine, fun entry member => ?_, ?_⟩
      · rcases List.mem_append.mp member with own | before
        · obtain ⟨a, earlier, rfl⟩ := mem_blockLocks.mp own
          exact Nat.add_lt_add_left (below a earlier b List.mem_cons_self) 3
        · exact above entry before b
      · refine @ih sorted (fun c member => inHand c (List.mem_cons_of_mem _ member))
          (b :: taken) ?_ ?_ (follows.perm ?_)
        · intro a member c later
          rcases List.mem_cons.mp member with rfl | earlier
          · exact first c later
          · exact below a earlier c (List.mem_cons_of_mem _ later)
        · intro a member
          rcases List.mem_cons.mp member with rfl | earlier
          · exact inHand a List.mem_cons_self
          · exact mine a earlier
        · exact (List.perm_middle).symm

/-- Block locks released in any order. -/
theorem follows_unlockBlocks {blocks : List BlockRef} (fits : Fits held frame)
    (inHand : ∀ b ∈ blocks, b ∈ frame.blocks)
    (follows : (clause.discipline calls ids).Follows t next held frame) :
    (clause.discipline calls ids).Follows t (unlockBlocks mode frame blocks next)
      (blockLocks mode blocks ++ held) frame := by
  induction blocks with
  | nil => exact follows
  | cons b blocks ih =>
      refine Discipline.Follows.release_same (List.Perm.refl _) (fits.blockLocks inHand) ?_
      exact ih fun c member => inHand c (List.mem_cons_of_mem _ member)

end Rules

/-! ## `xmp_getattr` and `xmp_read` -/

section Calls

variable {T : Type} [DecidableEq T] {SHA512 : Page → BlockId} {calls : T → Call}
variable {ids : BlockRef → BlockId} {clause : Clause T} {t : T} {held : List (Lock × Mode)}

/-- What is in hand may be kept in hand. -/
theorem Turn.pointers_keep {others : T → List (Lock × Mode)} {frames : T → Frame} {s : Store}
    {frame frame' : Frame} (turn : Turn clause ids others frames s t frame)
    (hand : frame'.hand = frame.hand ∨ frame'.hand = none)
    (known : ∀ b ∈ frame'.blocks, b ∈ frame.blocks ∨ b < s.nextBlock) :
    Pointers ids (Function.update frames t frame') s := by
  refine turn.pointers.turn (fun {f} has => ?_) (turn.here ▸ known)
  rcases hand with same | none_
  · exact Or.inr ⟨t, by rw [turn.here, ← same, has]⟩
  · rw [none_] at has
    cases has

/-- The lookup of a path. -/
theorem follows_find (preserved : clause.Preserved SHA512 calls ids) {path : Path}
    {next : Option FileRef → Program} (call : (calls t).path = path) (fits : Fits held .outside)
    (index : (Lock.file_index_lock, Mode.read) ∈ held)
    (absent : (clause.discipline calls ids).Follows t (next none) held .outside)
    (found : ∀ f, (clause.discipline calls ids).Follows t (next (some f)) held (.found f)) :
    (clause.discipline calls ids).Follows t (.act (lookupFile path) Frame.ofLookup next) held
      .outside := by
  refine follows_act fits fun {others frames s} turn own named allowed => ?_
  have keeps := preserved.find turn (own ▸ index)
  rw [call] at keeps
  refine ⟨?_, keeps, ?_⟩
  · show Pointers ids (Function.update frames t (.ofLookup (s.fileIndex.lookup path))) s
    cases entry : s.fileIndex.lookup path with
    | none =>
        exact turn.pointers_keep (Or.inl rfl) fun b member => absurd member List.not_mem_nil
    | some f =>
        refine turn.pointers.turn (fun {g} has => ?_) fun b member => absurd member List.not_mem_nil
        cases has
        exact Or.inl ⟨path, entry⟩
  · show (clause.discipline calls ids).Follows t (next (s.fileIndex.lookup path)) held
      (.ofLookup (s.fileIndex.lookup path))
    cases s.fileIndex.lookup path with
    | none => exact absent
    | some f => exact found f

/-- The first look at an entry whose lock was taken. -/
theorem follows_enter (preserved : clause.Preserved SHA512 calls ids) {f : FileRef} {mode : Mode}
    {next : ℤ → Program} (fits : Fits held (.found f)) (own : (Lock.file f, mode) ∈ held)
    (follows : ∀ logicalSize, (clause.discipline calls ids).Follows t (next logicalSize) held
      (.entered f logicalSize)) :
    (clause.discipline calls ids).Follows t (.act (readSize f) (.entered f) next) held
      (.found f) := by
  refine follows_act fits fun {others frames s} turn own' named allowed => ?_
  exact ⟨turn.pointers_keep (Or.inl rfl) fun b member => absurd member List.not_mem_nil,
    preserved.enter turn (Or.inl rfl) (own' ▸ own) allowed, follows _⟩

/-- The end of a call that leaves an entry as it is. -/
theorem follows_leave (preserved : clause.Preserved SHA512 calls ids) {f : FileRef} {mode : Mode}
    {frame : Frame} {rest : List (Lock × Mode)} {next : Program} (leaves : frame.Leaves f)
    (perm : held.Perm ((.file f, mode) :: rest)) (fits : Fits held frame)
    (follows : (clause.discipline calls ids).Follows t next rest .outside) :
    (clause.discipline calls ids).Follows t (.release (.file f) mode .outside next) held frame := by
  refine follows_release perm fits (fun {others frames s} turn own => ⟨?_, ?_⟩) follows
  · exact turn.pointers_keep (Or.inr rfl) fun b member => absurd member List.not_mem_nil
  · exact preserved.leave turn leaves (own ▸ perm.mem_iff.mpr List.mem_cons_self)

/-- An entry whose lock is held. -/
theorem fits_entered {f : FileRef} {mode mode' : Mode} {logicalSize : ℤ} :
    Fits [(.file f, mode), (.file_index_lock, mode')] (.entered f logicalSize) := by
  constructor <;> simp [Frame.hand, Frame.locked]

theorem follows_getattr (preserved : clause.Preserved SHA512 calls ids) {path : Path}
    (call : calls t = .getattr path) :
    (clause.discipline calls ids).Follows t (xmp_getattr path) [] .outside := by
  have returns : ∀ stat, Returns (calls t) .outside (.stat stat) := fun stat => by
    rw [call]
    rfl
  unfold xmp_getattr
  split_ifs
  · exact ⟨Fits.outside, rfl, returns _⟩
  · refine ⟨Fits.outside, fun lstat => ?_⟩
    cases lstat with
    | fail errno => exact ⟨Fits.outside, rfl, returns _⟩
    | ok st_size st_blocks =>
        refine ⟨Fits.outside, fun _ member => absurd member List.not_mem_nil, ?_⟩
        have index : Fits [(.file_index_lock, .read)] .outside := by
          constructor <;> simp [Frame.locked]
        refine follows_find preserved (by rw [call]; rfl) index List.mem_cons_self ?_ fun f => ?_
        · refine Discipline.Follows.release_same (List.Perm.refl _) index ?_
          exact ⟨Fits.outside, rfl, returns _⟩
        · have found : Fits [(.file_index_lock, .read)] (.found f) := by
            constructor <;> simp [Frame.locked]
          have both : Fits [(.file f, .read), (.file_index_lock, .read)] (.found f) := by
            constructor <;> simp [Frame.locked, Frame.hand]
          refine ⟨found, by simp [Clause.discipline, Lock.rank], ?_⟩
          refine follows_enter preserved both List.mem_cons_self fun logicalSize => ?_
          refine follows_leave preserved (.entered _) (List.Perm.refl _) fits_entered ?_
          refine Discipline.Follows.release_same (List.Perm.refl _) index ?_
          exact ⟨Fits.outside, rfl, returns _⟩

/-- The blocks a window finds are in the list. -/
theorem mem_of_windowBlocks {blockList : List BlockRef} {start_index end_index : ℤ}
    {entries : List (ℤ × BlockRef)}
    (window : windowBlocks blockList start_index end_index = some entries) :
    ∀ entry ∈ entries, entry.2 ∈ blockList := by
  have mapped : ∀ (indices : List ℤ) {entries}, indices.mapM (listIndex blockList) = some entries →
      ∀ entry ∈ entries, entry.2 ∈ blockList := by
    intro indices
    induction indices with
    | nil =>
        intro entries none_ entry member
        cases none_
        exact absurd member List.not_mem_nil
    | cons i indices ih =>
        intro entries some_ entry member
        rw [List.mapM_cons] at some_
        obtain ⟨first, here, some_⟩ := Option.bind_eq_some_iff.mp some_
        obtain ⟨others, there, whole⟩ := Option.bind_eq_some_iff.mp some_
        cases whole
        rcases List.mem_cons.mp member with rfl | later
        · unfold listIndex at here
          split_ifs at here with nonneg
          obtain ⟨b, found, rfl⟩ := Option.map_eq_some_iff.mp here
          exact List.mem_of_getElem? found
        · exact ih there entry later
  unfold windowBlocks at window
  split_ifs at window
  exact mapped _ window

/-- The blocks of a window were created. -/
theorem readWindow_created {s : Store} {f : FileRef} {start_index end_index : ℤ}
    {strays : List (ℤ × BlockRef)} (listed : ∀ b ∈ (s.files f).blockList, b < s.nextBlock) :
    ∀ entry ∈ (readWindow f start_index end_index strays s).1.1, entry.2 < s.nextBlock := by
  intro entry member
  unfold readWindow at member
  cases window : windowBlocks (s.files f).blockList start_index end_index with
  | some entries =>
      rw [window, Option.getD_some] at member
      exact listed entry.2 (mem_of_windowBlocks window entry member)
  | none =>
      rw [window, Option.getD_none] at member
      simpa using (List.mem_filter.mp member).2

theorem uniqueBlocks_lookup {s : Store} {entries : List (ℤ × BlockRef)} {hash : BlockId}
    {b : BlockRef} (found : (uniqueBlocks s entries).lookup hash = some b) :
    (s.blocks b).id = hash ∧ ∃ i, (i, b) ∈ entries := by
  suffices from_ : ∀ (table : GHashTable BlockId BlockRef),
      (entries.foldl (fun table entry => table.insert (s.blocks entry.2).id entry.2) table).lookup
        hash = some b → table.lookup hash = some b ∨ (s.blocks b).id = hash ∧ ∃ i, (i, b) ∈ entries by
    refine (from_ ∅ found).resolve_left fun empty => ?_
    rw [AList.lookup_empty] at empty
    cases empty
  clear found
  induction entries with
  | nil => exact fun table found => Or.inl found
  | cons entry entries ih =>
      intro table found
      rcases ih _ found with before | ⟨name, i, member⟩
      · by_cases same : hash = (s.blocks entry.2).id
        · rw [same, AList.lookup_insert] at before
          cases before
          exact Or.inr ⟨same.symm, entry.1, List.mem_cons_self⟩
        · rw [AList.lookup_insert_ne same] at before
          exact Or.inl before
      · exact Or.inr ⟨name, i, List.mem_cons_of_mem _ member⟩

theorem mem_blocksToRead {s : Store} {entries : List (ℤ × BlockRef)} {b : BlockRef}
    (member : b ∈ blocksToRead s entries) : ∃ i, (i, b) ∈ entries := by
  rw [blocksToRead, (List.perm_insertionSort _ _).mem_iff, List.mem_map] at member
  obtain ⟨entry, member, rfl⟩ := member
  exact (uniqueBlocks_lookup (AList.mem_lookup_iff.mpr member)).2

theorem readWindow_blocks_created {s : Store} {f : FileRef} {start_index end_index : ℤ}
    {strays : List (ℤ × BlockRef)} (listed : ∀ b ∈ (s.files f).blockList, b < s.nextBlock) :
    ∀ b ∈ (readWindow f start_index end_index strays s).1.2, b < s.nextBlock := by
  intro b member
  obtain ⟨i, entry⟩ := mem_blocksToRead member
  exact readWindow_created listed _ entry

theorem readWindow_sorted (s : Store) (f : FileRef) (start_index end_index : ℤ)
    (strays : List (ℤ × BlockRef)) :
    (readWindow f start_index end_index strays s).1.2.Pairwise
      fun a b => place (s.blocks a).id < place (s.blocks b).id :=
  sorted_strictly (keyed_nodup fun found => (uniqueBlocks_lookup found).1)

/-- The copy loop changes nothing. -/
theorem follows_copyLoop {f : FileRef} {blocks : List BlockRef} {offset : ℤ} {capacity size : ℕ}
    {next : ℤ × List UInt8 → Program} (fits : Fits held (.reading f blocks))
    (follows : ∀ out, (clause.discipline calls ids).Follows t (next out) held (.reading f blocks))
    (entries : List (ℤ × BlockRef)) (buf : List UInt8) :
    (clause.discipline calls ids).Follows t (copyLoop f blocks offset capacity size entries buf next)
      held (.reading f blocks) := by
  induction entries generalizing buf with
  | nil => exact follows _
  | cons entry entries ih =>
      refine ⟨fits, fun memalign => ⟨fits, fun pread => ?_⟩⟩
      refine follows_act fits fun {others frames s} turn own named allowed => ?_
      refine ⟨?_, ?_, ?_⟩
      · rw [← turn.here, Function.update_eq_self]
        exact turn.pointers
      · rw [← turn.here, Function.update_eq_self]
        exact turn.keeps
      · dsimp only
        cases copyBlock s memalign pread offset capacity size entry buf with
        | some out =>
            show (clause.discipline calls ids).Follows t (if out.1 ≠ 0 then _ else _) held _
            split_ifs
            · exact follows _
            · exact ih _
        | none =>
            refine ⟨fits, fun out => ?_⟩
            show (clause.discipline calls ids).Follows t (if out.1 ≠ 0 then _ else _) held _
            split_ifs
            · exact follows _
            · exact ih _

theorem readWindow_store (s : Store) (f : FileRef) (start_index end_index : ℤ)
    (strays : List (ℤ × BlockRef)) : (readWindow f start_index end_index strays s).2 = s := rfl

/-- From the window on, `xmp_read` goes on with the sorted blocks of its window. -/
theorem follows_window {f : FileRef} {start_index end_index : ℤ} {strays : List (ℤ × BlockRef)}
    {logicalSize : ℤ} {next : List (ℤ × BlockRef) × List BlockRef → Program}
    (fits : Fits held (.entered f logicalSize))
    (keeps : ∀ {others frames s}, Turn clause ids others frames s t (.entered f logicalSize) →
      others t = held →
      clause.allowed frames s t (.reading f (readWindow f start_index end_index strays s).1.2) s →
      clause.keeps (Function.update frames t
        (.reading f (readWindow f start_index end_index strays s).1.2)) s)
    (follows : ∀ {entries blocks}, blocks.Pairwise (fun a b => place (ids a) < place (ids b)) →
      (clause.discipline calls ids).Follows t (next (entries, blocks)) held (.reading f blocks)) :
    (clause.discipline calls ids).Follows t
      (.act (readWindow f start_index end_index strays) (fun window => .reading f window.2) next)
      held (.entered f logicalSize) := by
  refine follows_act fits fun {others frames s} turn own named allowed => ?_
  rw [readWindow_store] at allowed ⊢
  have reach : Reachable frames s f := Or.inr ⟨t, by rw [turn.here]; rfl⟩
  have created : ∀ b ∈ (readWindow f start_index end_index strays s).1.2, b < s.nextBlock :=
    readWindow_blocks_created (turn.pointers.listed reach)
  refine ⟨?_, keeps turn own allowed, follows ?_⟩
  · exact turn.pointers_keep (Or.inl rfl) fun b member => Or.inr (created b member)
  · refine (readWindow_sorted s f _ _ strays).imp_of_mem fun {a b} first second less => ?_
    rwa [turn.pointers.named a (created a first), turn.pointers.named b (created b second)] at less

theorem follows_read (preserved : clause.Preserved SHA512 calls ids) {path : Path} {size : ℕ}
    {offset : ℤ} (call : calls t = .read path size offset) :
    (clause.discipline calls ids).Follows t (xmp_read path size offset) [] .outside := by
  have returns : ∀ ret buf, Returns (calls t) .outside (.bytes ret buf) := fun ret buf => by
    rw [call]
    rfl
  have index : Fits [(.file_index_lock, .read)] .outside := by
    constructor <;> simp [Frame.locked]
  unfold xmp_read
  split_ifs
  · exact ⟨Fits.outside, rfl, returns _ _⟩
  · refine ⟨Fits.outside, fun _ member => absurd member List.not_mem_nil, ?_⟩
    refine follows_find preserved (by rw [call]; rfl) index List.mem_cons_self ?_ fun f => ?_
    · refine Discipline.Follows.release_same (List.Perm.refl _) index ?_
      exact ⟨Fits.outside, rfl, returns _ _⟩
    · have found : Fits [(.file_index_lock, .read)] (.found f) := by
        constructor <;> simp [Frame.locked]
      have both : Fits [(.file f, .read), (.file_index_lock, .read)] (.found f) := by
        constructor <;> simp [Frame.locked, Frame.hand]
      have entered : ∀ {logicalSize}, Fits [(.file f, .read)] (.entered f logicalSize) := by
        intro logicalSize
        constructor <;> simp [Frame.locked, Frame.hand]
      refine ⟨found, by simp [Clause.discipline, Lock.rank], ?_⟩
      refine follows_enter preserved both List.mem_cons_self fun logicalSize => ?_
      refine Discipline.Follows.release_same (List.Perm.swap _ _ _) fits_entered ?_
      split_ifs with inFile
      · refine follows_leave preserved (.entered _) (List.Perm.refl _) entered ?_
        exact ⟨Fits.outside, rfl, returns _ _⟩
      · refine ⟨entered, by simp [Clause.discipline, Lock.rank], ?_⟩
        have queued : Fits [(.block_index_lock, .read), (.file f, .read)]
            (.entered f logicalSize) :=
          entered.cons (fun g same => by cases same) fun b same => by cases same
        refine ⟨queued, fun strays => ?_⟩
        refine follows_window queued (fun turn own allowed =>
          preserved.window call inFile turn (by rw [own]; simp) allowed)
          fun {entries blocks} sorted => ?_
        have reading : ∀ {blocks}, Fits [(.file f, .read)] (.reading f blocks) := by
          intro blocks
          constructor <;> simp [Frame.locked, Frame.hand]
        have locking : Fits [(.block_index_lock, .read), (.file f, .read)] (.reading f blocks) :=
          reading.cons (fun g same => by cases same) fun b same => by cases same
        have above : ∀ entry ∈ [(Lock.block_index_lock, Mode.read), (Lock.file f, Mode.read)],
            ∀ b, entry.1.rank ids < (Lock.block b).rank ids := by
          intro entry member b
          rcases List.mem_pair.mp member with rfl | rfl
          · exact lt_block le_rfl b
          · exact lt_block (Nat.le_succ 1) b
        refine follows_lockBlocks sorted above locking (fun b member => member) ?_
        have mine : ∀ b ∈ blocks, b ∈ (Frame.reading f blocks).blocks := fun b member => member
        refine Discipline.Follows.release_same (List.perm_middle) (locking.blockLocks mine) ?_
        refine follows_copyLoop (reading.blockLocks mine) (fun out => ?_) _ _
        refine ⟨reading.blockLocks mine, fun order => ?_⟩
        have perm := order.perm blocks
        have unlocks : (blockLocks .read (order.arrange blocks) ++ [(Lock.file f, Mode.read)]).Perm
            (blockLocks .read blocks ++ [(Lock.file f, Mode.read)]) := (perm.map _).append_right _
        refine (follows_unlockBlocks reading (fun b member => perm.mem_iff.mp member) ?_).perm unlocks
        refine follows_leave preserved (.reading blocks) (List.Perm.refl _) reading ?_
        exact ⟨Fits.outside, rfl, returns _ _⟩

/-! ## `xmp_write` -/

/-! ### The tables -/

theorem Noted.empty (ids : BlockRef → BlockId) : Noted ids [] WriteTables.empty where
  info := rfl
  locked hash := by simp [WriteTables.empty]
  keyed found := by simp [WriteTables.empty] at found
  created b member := absurd member List.not_mem_nil
  nodup := List.nodup_nil

section Tables

variable {seen : List BlockId} {tables : WriteTables} {s : Store} {b : BlockRef} {hash : BlockId}

theorem Noted.note (noted : Noted ids seen tables) (name : (s.blocks b).id = hash)
    (known : ids b = hash) : Noted ids (seen ++ [hash]) (tables.note s b) where
  info := by
    rw [WriteTables.note_newBlocksInfo, List.map_append, noted.info, List.map_singleton, known]
  locked other := by
    rw [WriteTables.note_lockedBlocks, name, List.mem_append, List.mem_singleton]
    split_ifs with same
    · simp [same]
    · rw [noted.locked]
      simp [same]
  keyed {other c} found := by
    rw [WriteTables.note_lockedBlocks, name] at found
    rw [WriteTables.note_newBlocksInfo, List.mem_append, List.mem_singleton]
    split_ifs at found with same
    · cases before : tables.lockedBlocks.lookup other with
      | none =>
          rw [before, Option.getD_none] at found
          cases found
          exact ⟨known.trans same.symm, Or.inr rfl⟩
      | some d =>
          rw [before, Option.getD_some] at found
          cases found
          exact ⟨(noted.keyed before).1, Or.inl (noted.keyed before).2⟩
    · exact ⟨(noted.keyed found).1, Or.inl (noted.keyed found).2⟩
  created c member := by
    rw [WriteTables.note_newBlocksInfo]
    exact List.mem_append_left _ (noted.created c member)
  nodup := noted.nodup

/-- A block that is created and noted. -/
theorem Noted.create (noted : Noted ids seen tables) (name : (s.blocks b).id = hash)
    (known : ids b = hash) (fresh : b ∉ tables.newBlocksInfo) :
    Noted ids (seen ++ [hash])
      ({ tables with my_created_blocks := b :: tables.my_created_blocks }.note s b) where
  info := (noted.note name known).info
  locked := (noted.note name known).locked
  keyed := (noted.note name known).keyed
  created c member := by
    rw [WriteTables.note_newBlocksInfo, List.mem_append, List.mem_singleton]
    rcases List.mem_cons.mp member with new | old
    · exact Or.inr new
    · exact Or.inl (noted.created c old)
  nodup := List.nodup_cons.mpr ⟨fun old => fresh (noted.created b old), noted.nodup⟩

end Tables

/-- The blocks a write locks. -/
theorem mem_lockedBlocks {tables : WriteTables} {b : BlockRef} :
    b ∈ (tables.lockedBlocks.entries.map fun entry => entry.2) ↔
      ∃ hash, tables.lockedBlocks.lookup hash = some b := by
  rw [List.mem_map]
  constructor
  · rintro ⟨⟨hash, c⟩, member, rfl⟩
    exact ⟨hash, AList.mem_lookup_iff.mpr member⟩
  · rintro ⟨hash, found⟩
    exact ⟨⟨hash, b⟩, AList.mem_lookup_iff.mp found, rfl⟩

/-! ### The lookup loop -/

/-- A write that looks its blocks up. -/
theorem fits_looking {f : FileRef} {mode : Mode} {tables : WriteTables} :
    Fits [(.block_index_lock, mode), (.file f, .write), (.file_index_lock, .read)]
      (.writing f tables .looking) := by
  constructor <;> simp [Frame.hand, Frame.locked]

theorem fits_unindexed {f : FileRef} {tables : WriteTables} :
    Fits [(.file f, .write), (.file_index_lock, .read)] (.writing f tables .looking) := by
  constructor <;> simp [Frame.hand, Frame.locked]

/-- The acts of the lookup loop. -/
theorem pointers_lookupBlock {others : T → List (Lock × Mode)} {frames : T → Frame} {s : Store}
    {f : FileRef} {tables : WriteTables} {hash : BlockId}
    (turn : Turn clause ids others frames s t (.writing f tables .looking))
    (named : Named ids (lookupBlock (tables, s) hash).2) {seen : List BlockId}
    (noted : Noted ids seen tables) :
    Pointers ids (Function.update frames t
        (.writing f (lookupBlock (tables, s) hash).1 .looking)) (lookupBlock (tables, s) hash).2 ∧
      Noted ids (seen ++ [hash]) (lookupBlock (tables, s) hash).1 := by
  have mine : (frames t).blocks = tables.newBlocksInfo := by rw [turn.here]; rfl
  have hand : (frames t).hand = some f := by rw [turn.here]; rfl
  cases entry : s.blockIndex.lookup hash with
  | some b =>
      have result : lookupBlock (tables, s) hash =
          (tables.note (raiseCounter b s) b, raiseCounter b s) := by
        unfold lookupBlock
        simp only [entry]
      obtain ⟨created, known⟩ := turn.pointers.indexed entry
      rw [result] at named ⊢
      refine ⟨?_, noted.note ((named b created).trans known) known⟩
      refine turn.pointers.inside named hand.symm rfl rfl le_rfl (fun member => Or.inl member)
        Or.inl fun c member => ?_
      rcases List.mem_append.mp member with old | new
      · exact Or.inl (mine ▸ old)
      · exact Or.inr (List.mem_singleton.mp new ▸ created)
  | none =>
      have result : lookupBlock (tables, s) hash =
          ({ tables with my_created_blocks := s.nextBlock :: tables.my_created_blocks }.note
            (createBlock hash s) s.nextBlock, createBlock hash s) := by
        unfold lookupBlock
        simp only [entry]
      rw [result] at named ⊢
      have name : ((createBlock hash s).blocks s.nextBlock).id = hash := by
        show (Function.update s.blocks s.nextBlock _ s.nextBlock).id = hash
        rw [Function.update_self]
      have known : ids s.nextBlock = hash := (named s.nextBlock (Nat.lt_succ_self _)).symm.trans name
      have fresh : s.nextBlock ∉ tables.newBlocksInfo := fun member =>
        lt_irrefl _ (turn.pointers.known t _ (mine ▸ member))
      refine ⟨?_, noted.create name known fresh⟩
      refine turn.pointers.inside named hand.symm rfl rfl (Nat.le_succ _)
        (fun member => Or.inl member) (fun {other c} inside => ?_) fun c member => ?_
      · have inserted : (s.blockIndex.insert hash s.nextBlock).lookup other = some c := inside
        by_cases same : other = hash
        · rw [same, AList.lookup_insert] at inserted
          cases inserted
          exact Or.inr ⟨Nat.lt_succ_self _, known.trans same.symm⟩
        · rw [AList.lookup_insert_ne same] at inserted
          exact Or.inl inserted
      · rcases List.mem_append.mp member with old | new
        · exact Or.inl (mine ▸ old)
        · rw [List.mem_singleton.mp new]
          exact Or.inr (Nat.lt_succ_self s.nextBlock)

theorem lookupBlock_indexed {s : Store} {tables : WriteTables} {hash : BlockId} {b : BlockRef}
    (entry : s.blockIndex.lookup hash = some b) :
    lookupBlock (tables, s) hash = (tables.note (raiseCounter b s) b, raiseCounter b s) := by
  unfold lookupBlock
  simp only [entry]

theorem countBlock_indexed {s : Store} {tables : WriteTables} {hash : BlockId} {b : BlockRef}
    (entry : s.blockIndex.lookup hash = some b) :
    countBlock tables hash s = (some (tables.note (raiseCounter b s) b), raiseCounter b s) := by
  unfold countBlock
  simp only [entry]

theorem countBlock_absent {s : Store} {tables : WriteTables} {hash : BlockId}
    (entry : s.blockIndex.lookup hash = none) : countBlock tables hash s = (none, s) := by
  unfold countBlock
  simp only [entry]

theorem follows_lookupLoop (preserved : clause.Preserved SHA512 calls ids) {path : Path}
    {buf : List UInt8} {offset : ℤ} (call : calls t = .write path buf offset) {f : FileRef}
    {next : WriteTables → Program}
    (follows : ∀ tables, Noted ids (blockHashes SHA512 buf) tables →
      (clause.discipline calls ids).Follows t (next tables)
        [(.block_index_lock, .read), (.file f, .write), (.file_index_lock, .read)]
        (.writing f tables .looking))
    {rest seen : List BlockId} {tables : WriteTables}
    (hashes : blockHashes SHA512 buf = seen ++ rest) (noted : Noted ids seen tables) :
    (clause.discipline calls ids).Follows t (lookupLoop f rest tables next)
      [(.block_index_lock, .read), (.file f, .write), (.file_index_lock, .read)]
      (.writing f tables .looking) := by
  induction rest generalizing seen tables with
  | nil =>
      rw [List.append_nil] at hashes
      exact follows tables (hashes ▸ noted)
  | cons hash rest ih =>
      have further : blockHashes SHA512 buf = (seen ++ [hash]) ++ rest := by
        rw [List.append_assoc]
        exact hashes
      refine follows_act fits_looking fun {others frames s} turn own named allowed => ?_
      cases entry : s.blockIndex.lookup hash with
      | some b =>
          rw [countBlock_indexed entry] at named allowed ⊢
          have looked := pointers_lookupBlock turn
            (by rw [lookupBlock_indexed entry]; exact named) noted
          rw [lookupBlock_indexed entry] at looked
          exact ⟨looked.1, preserved.count call hashes noted turn (by rw [own]; simp) entry allowed,
            ih further looked.2⟩
      | none =>
          rw [countBlock_absent entry]
          refine ⟨?_, ?_, ?_⟩
          · show Pointers ids (Function.update frames t (.writing f tables .looking)) s
            rw [← turn.here, Function.update_eq_self]
            exact turn.pointers
          · show clause.keeps (Function.update frames t (.writing f tables .looking)) s
            rw [← turn.here, Function.update_eq_self]
            exact turn.keeps
          · -- the lock is let go and taken again to write
            refine Discipline.Follows.release_same (List.Perm.refl _) fits_looking ?_
            refine ⟨fits_unindexed, by simp [Clause.discipline, Lock.rank], ?_⟩
            refine follows_act fits_looking fun {others frames s} turn own named allowed => ?_
            have looked := pointers_lookupBlock turn named noted
            refine ⟨looked.1, ?_, ?_⟩
            · exact preserved.lookup call hashes noted turn (by rw [own]; simp) named allowed
            · refine Discipline.Follows.release_same (List.Perm.refl _) fits_looking ?_
              refine ⟨fits_unindexed, by simp [Clause.discipline, Lock.rank], ?_⟩
              exact ih further looked.2

/-! ### The rest of a write -/

/-- A write whose blocks are locked. -/
theorem fits_placed {f : FileRef} {tables : WriteTables} {blocks_to_lock : List BlockRef}
    {k : ℕ} {rest : List (Lock × Mode)}
    (perm : blocks_to_lock.Perm (tables.lockedBlocks.entries.map fun entry => entry.2))
    (inHand : ∀ b ∈ blocks_to_lock, b ∈ tables.newBlocksInfo)
    (plain : ∀ entry ∈ rest, (∀ g, entry.1 = .file g → g = f) ∧ ∀ b, entry.1 ≠ .block b)
    (own : (.file f, .write) ∈ rest) :
    Fits (blockLocks .write blocks_to_lock ++ rest) (.writing f tables (.placed k)) where
  hand {g mode} member := by
    rcases List.mem_append.mp member with block | other
    · obtain ⟨b, -, same⟩ := mem_blockLocks.mp block
      cases same
    · rw [(plain _ other).1 g rfl]
      rfl
  locked lock := by
    cases lock
    exact ⟨.write, List.mem_append_right _ own⟩
  found here := by cases here
  blocks {b mode} member := by
    rcases List.mem_append.mp member with block | other
    · obtain ⟨c, inside, same⟩ := mem_blockLocks.mp block
      cases same
      exact Or.inl (inHand b inside)
    · exact absurd rfl ((plain _ other).2 b)
  placed {g tables' k'} here entry member := by
    cases here
    refine List.mem_append_left _ (mem_blockLocks.mpr ⟨entry.2, ?_, rfl⟩)
    exact perm.mem_iff.mpr (List.mem_map_of_mem member)

theorem writeBlock_err (f : FileRef) (out : PwriteOut) (entry : BlockRef × Page)
    (created : List BlockRef) (s : Store) : (writeBlock f out entry created s).1 ≤ 0 := by
  unfold writeBlock
  by_cases mine : entry.1 ∈ created
  · by_cases closed : s.backend_fd = -1
    · simp only [mine, closed, if_true]
      exact le_rfl
    · simp only [mine, closed, if_true, if_false]
      cases out with
      | fail errno left =>
          show -(errno : ℤ) ≤ 0
          have := errno.pos
          omega
      | done n => exact le_rfl
  · simp only [mine, if_false]
    exact le_rfl

theorem writeBlock_remaining (f : FileRef) (out : PwriteOut) (entry : BlockRef × Page)
    (created : List BlockRef) (s : Store) :
    (writeBlock f out entry created s).2.1 = created.erase entry.1 := by
  unfold writeBlock
  by_cases mine : entry.1 ∈ created
  · simp only [mine, if_true]
  · simp only [mine, if_false]
    exact (List.erase_of_not_mem mine).symm

/-- The locks of a write but for those of its blocks. -/
theorem plain_write {f : FileRef} : ∀ entry ∈ [(Lock.block_index_lock, Mode.read),
    (Lock.file f, Mode.write), (Lock.file_index_lock, Mode.read)],
    (∀ g, entry.1 = .file g → g = f) ∧ ∀ b, entry.1 ≠ .block b := by
  intro entry member
  simp only [List.mem_cons, List.not_mem_nil, or_false] at member
  rcases member with rfl | rfl | rfl
  · exact ⟨fun g same => (by cases same), fun b same => (by cases same)⟩
  · exact ⟨fun g same => (by cases same; rfl), fun b same => (by cases same)⟩
  · exact ⟨fun g same => (by cases same), fun b same => (by cases same)⟩

theorem plain_file {f : FileRef} : ∀ entry ∈ [(Lock.file f, Mode.write)],
    (∀ g, entry.1 = .file g → g = f) ∧ ∀ b, entry.1 ≠ .block b := fun entry member =>
  plain_write entry (by rw [List.mem_singleton.mp member]; simp)

/-- From the label `write_cleanup` on. -/
theorem follows_writeCleanup (preserved : clause.Preserved SHA512 calls ids) {path : Path}
    {buf : List UInt8} {offset : ℤ} (call : calls t = .write path buf offset) {f : FileRef}
    {tables : WriteTables} (noted : Noted ids (blockHashes SHA512 buf) tables)
    {blocks_to_lock : List BlockRef}
    (perm : blocks_to_lock.Perm (tables.lockedBlocks.entries.map fun entry => entry.2))
    (inHand : ∀ b ∈ blocks_to_lock, b ∈ tables.newBlocksInfo) {i : ℕ} {err : ℤ}
    (outcome : err = 0 ∧ i = tables.newBlocksInfo.length ∨ err < 0) :
    (clause.discipline calls ids).Follows t
      (writeCleanup f offset buf.length tables blocks_to_lock err)
      (blockLocks .write blocks_to_lock ++ [(.file f, .write)])
      (.writing f tables (.placed i)) := by
  refine follows_act (fits_placed perm inHand plain_file (by simp))
    fun {others frames s} turn own named allowed => ?_
  have file : (Lock.file f, Mode.write) ∈ others t := by
    rw [own]
    exact List.mem_append_right _ List.mem_cons_self
  refine ⟨?_, preserved.grow call noted outcome turn file allowed, ?_⟩
  · obtain ⟨logicalSize, grown⟩ := growFile_eq f err offset buf.length s
    have fileIndex : (growFile f err offset buf.length s).fileIndex = s.fileIndex := by
      rw [grown]
      rfl
    have nextFile : (growFile f err offset buf.length s).nextFile = s.nextFile := by
      rw [grown]
      rfl
    have nextBlock : (growFile f err offset buf.length s).nextBlock = s.nextBlock := by
      rw [grown]
      rfl
    refine turn.pointers.inside named (by rw [turn.here]; rfl) fileIndex nextFile nextBlock.ge
      ?_ ?_ ?_
    · intro g b member
      have member : b ∈ ((growFile f err offset buf.length s).files g).blockList := member
      rw [grown] at member
      rcases eq_or_ne g f with rfl | differ
      · rw [Store.setFile_files_self] at member
        exact Or.inl member
      · rw [Store.setFile_files_ne _ _ differ] at member
        exact Or.inl member
    · intro hash b inside
      have inside : (growFile f err offset buf.length s).blockIndex.lookup hash = some b := inside
      rw [grown] at inside
      exact Or.inl inside
    · intro b member
      rw [turn.here]
      exact Or.inl member
  · have stored : Fits [(.file f, .write)] (.writing f tables (.stored err)) := by
      constructor <;> simp [Frame.hand, Frame.locked]
    refine follows_unlockBlocks stored inHand ?_
    by_cases failed : err ≠ 0
    · rw [if_pos failed]
      refine follows_leave preserved (.writing tables failed) (List.Perm.refl _) stored ?_
      refine ⟨Fits.outside, rfl, ?_⟩
      show Returns (calls t) _ _
      rw [call]
      refine Or.inl ⟨err, ?_, by rw [if_pos failed], rfl⟩
      exact outcome.resolve_left fun success => failed success.1
    · have zero : err = 0 := not_not.mp failed
      rw [if_neg failed]
      refine follows_release (List.Perm.refl _) stored (fun {others frames s} turn own => ?_) ?_
      · refine ⟨?_, preserved.finish call noted (zero ▸ turn) (by rw [own]; simp)⟩
        exact turn.pointers_keep (Or.inr rfl) fun b member => absurd member List.not_mem_nil
      · refine ⟨Fits.nil rfl fun _ => by simp, rfl, ?_⟩
        show Returns (calls t) _ _
        rw [call]
        exact Or.inr ⟨by rw [if_neg failed], f, tables.newBlocksInfo, rfl⟩

theorem follows_storeLoop (preserved : clause.Preserved SHA512 calls ids) {path : Path}
    {buf : List UInt8} {offset : ℤ} (call : calls t = .write path buf offset) {f : FileRef}
    {tables : WriteTables} (noted : Noted ids (blockHashes SHA512 buf) tables)
    {blocks_to_lock : List BlockRef}
    (perm : blocks_to_lock.Perm (tables.lockedBlocks.entries.map fun entry => entry.2))
    (inHand : ∀ b ∈ blocks_to_lock, b ∈ tables.newBlocksInfo) {next : ℤ → Program}
    (follows : ∀ {i err}, err = 0 ∧ i = tables.newBlocksInfo.length ∨ err < 0 →
      (clause.discipline calls ids).Follows t (next err)
        (blockLocks .write blocks_to_lock ++ [(.file f, .write)])
        (.writing f tables (.placed i)))
    {i : ℕ} {entries : List (BlockRef × Page)} {created : List BlockRef}
    (rest : entries = (tables.newBlocksInfo.zip (bufferPages buf)).drop i)
    (inRange : i ≤ tables.newBlocksInfo.length) (nodup : created.Nodup)
    (left : ∀ c, c ∈ created ↔ c ∈ tables.my_created_blocks ∧ c ∉ tables.newBlocksInfo.take i) :
    (clause.discipline calls ids).Follows t (storeLoop f tables i entries created next)
      (blockLocks .write blocks_to_lock ++ [(.file f, .write)])
      (.writing f tables (.placed i)) := by
  have length : tables.newBlocksInfo.length = (bufferPages buf).length := by
    have info := congrArg List.length noted.info
    rwa [List.length_map, blockHashes, List.length_map] at info
  have zipped : (tables.newBlocksInfo.zip (bufferPages buf)).length =
      tables.newBlocksInfo.length := by
    rw [List.length_zip, ← length, Nat.min_self]
  induction entries generalizing i created with
  | nil =>
      refine follows (Or.inl ⟨rfl, ?_⟩)
      have none_ := List.drop_eq_nil_iff.mp rest.symm
      omega
  | cons entry entries ih =>
      obtain ⟨b, page⟩ := entry
      have here : (tables.newBlocksInfo.zip (bufferPages buf))[i]? = some (b, page) := by
        rw [← List.head?_drop, ← rest]
        rfl
      have block := (List.getElem?_zip_eq_some.mp here).1
      have content := (List.getElem?_zip_eq_some.mp here).2
      have below : i < tables.newBlocksInfo.length := (List.getElem?_eq_some_iff.mp block).1
      have fits : ∀ {k}, Fits (blockLocks .write blocks_to_lock ++ [(.file f, .write)])
          (.writing f tables (.placed k)) :=
        fits_placed perm inHand plain_file (by simp)
      refine ⟨fits, fun pwrite => follows_act fits fun {others frames s} turn own named allowed => ?_⟩
      have file : (Lock.file f, Mode.write) ∈ others t := by
        rw [own]
        exact List.mem_append_right _ List.mem_cons_self
      have appended := writeBlock_appended f pwrite (b, page) created s
      refine ⟨?_, preserved.store call noted block content left turn file allowed, ?_⟩
      · refine turn.pointers.inside named (by rw [turn.here]; rfl) appended.fileIndex
          appended.nextFile appended.nextBlock.ge ?_ ?_ ?_
        · intro g c member
          rcases eq_or_ne g f with rfl | differ
          · rw [appended.blockList] at member
            rcases List.mem_append.mp member with old | new
            · exact Or.inl old
            · rw [List.mem_singleton.mp new, turn.here]
              exact Or.inr (List.mem_of_getElem? block)
          · rw [appended.others g differ] at member
            exact Or.inl member
        · intro hash c inside
          rw [appended.blockIndex] at inside
          exact Or.inl inside
        · intro c member
          rw [turn.here]
          exact Or.inl member
      · show (clause.discipline calls ids).Follows t
          (if (writeBlock f pwrite (b, page) created s).1 ≠ 0 then
            next (writeBlock f pwrite (b, page) created s).1
          else storeLoop f tables (i + 1) entries (writeBlock f pwrite (b, page) created s).2.1 next)
          _ _
        split_ifs with failed
        · refine follows (Or.inr ?_)
          exact lt_of_le_of_ne (writeBlock_err f pwrite (b, page) created s) failed
        · refine ih ?_ below ?_ ?_
          · rw [← List.drop_drop, ← rest]
            rfl
          · rw [writeBlock_remaining]
            exact nodup.erase b
          · intro c
            rw [writeBlock_remaining, nodup.mem_erase_iff, left, List.take_add_one, block,
              List.mem_append, Option.toList_some, List.mem_singleton]
            tauto

/-- From the sorting of the blocks on. -/
theorem follows_placeAndStore (preserved : clause.Preserved SHA512 calls ids) {path : Path}
    {buf : List UInt8} {offset : ℤ} (call : calls t = .write path buf offset) {f : FileRef}
    {tables : WriteTables} (noted : Noted ids (blockHashes SHA512 buf) tables) :
    (clause.discipline calls ids).Follows t (placeAndStore f buf offset tables)
      [(.block_index_lock, .read), (.file f, .write), (.file_index_lock, .read)]
      (.writing f tables .looking) := by
  refine follows_act fits_looking fun {others frames s} turn own named allowed => ?_
  refine ⟨?_, ?_, ?_⟩
  · rw [← turn.here, Function.update_eq_self]
    exact turn.pointers
  · rw [← turn.here, Function.update_eq_self]
    exact turn.keeps
  -- what is known of the blocks to lock
  have perm : (blocksToLock tables s).Perm
      (tables.lockedBlocks.entries.map fun entry => entry.2) := List.perm_insertionSort _ _
  have inHand : ∀ b ∈ blocksToLock tables s, b ∈ tables.newBlocksInfo := by
    intro b member
    obtain ⟨hash, found⟩ := mem_lockedBlocks.mp (perm.mem_iff.mp member)
    exact (noted.keyed found).2
  have name : ∀ b ∈ tables.newBlocksInfo, (s.blocks b).id = ids b := fun b member =>
    turn.pointers.named b (turn.pointers.known t b (by rw [turn.here]; exact member))
  have sorted : (blocksToLock tables s).Pairwise fun a b => place (ids a) < place (ids b) := by
    have keyed : ∀ {hash b}, tables.lockedBlocks.lookup hash = some b → (s.blocks b).id = hash :=
      fun found => (name _ (noted.keyed found).2).trans (noted.keyed found).1
    have strict := sorted_strictly (keyed_nodup keyed)
    refine strict.imp_of_mem fun {a b} first second less => ?_
    rwa [name a (inHand a first), name b (inHand b second)] at less
  show (clause.discipline calls ids).Follows t (lockBlocks .write (blocksToLock tables s) _) _ _
  generalize blocksToLock tables s = blocks_to_lock at perm inHand sorted ⊢
  clear turn own named allowed name
  have above : ∀ entry ∈ [(Lock.block_index_lock, Mode.read), (Lock.file f, Mode.write),
      (Lock.file_index_lock, Mode.read)], ∀ b, entry.1.rank ids < (Lock.block b).rank ids := by
    intro entry member b
    simp only [List.mem_cons, List.not_mem_nil, or_false] at member
    rcases member with rfl | rfl | rfl
    · exact lt_block le_rfl b
    · exact lt_block (Nat.le_succ 1) b
    · exact lt_block (Nat.zero_le 2) b
  refine follows_lockBlocks sorted above fits_looking inHand ?_
  have locked : Fits (blockLocks .write blocks_to_lock ++
      [(.block_index_lock, .read), (.file f, .write), (.file_index_lock, .read)])
      (.writing f tables .looking) := fits_looking.blockLocks inHand
  have below : ∀ entry ∈ blockLocks .write blocks_to_lock ++ [(Lock.block_index_lock, Mode.read),
      (Lock.file f, Mode.write), (Lock.file_index_lock, Mode.read)],
      entry.1.rank ids < Lock.freeList_lock.rank ids := by
    intro entry member
    rcases List.mem_append.mp member with block | other
    · obtain ⟨b, -, rfl⟩ := mem_blockLocks.mp block
      exact block_lt_freeList ids b
    · exact (above entry other 0).trans (block_lt_freeList ids 0)
  refine ⟨locked, below, ?_⟩
  refine ⟨locked.mutex id, ?_, ?_⟩
  · intro entry member
    have last : Lock.freeList_lock.rank ids < Lock.offset_lock.rank ids :=
      Nat.add_lt_add_right (Nat.lt_succ_self 3) _
    rcases List.mem_cons.mp member with rfl | before
    · exact last
    · exact (below entry before).trans last
  refine follows_act ((locked.mutex id).mutex id) fun {others frames s} turn own named allowed => ?_
  have frame := assignOffsets_offsetsOnly blocks_to_lock tables.my_created_blocks s
  refine ⟨?_, ?_, ?_⟩
  · refine turn.pointers.inside named (by rw [turn.here]; rfl) frame.fileIndex frame.nextFile
      frame.nextBlock.ge ?_ ?_ ?_
    · intro g b member
      rw [frame.files] at member
      exact Or.inl member
    · intro hash b inside
      rw [frame.blockIndex] at inside
      exact Or.inl inside
    · intro b member
      rw [turn.here]
      exact Or.inl member
  · refine preserved.place call noted perm turn (fun b member => ?_) ?_ ?_ allowed
    · rw [own]
      refine List.mem_cons_of_mem _ (List.mem_cons_of_mem _ (List.mem_append_left _ ?_))
      exact mem_blockLocks.mpr ⟨b, member, rfl⟩
    · rw [own]
      simp
    · rw [own]
      simp
  · -- the locks are released but for those of the blocks and the file
    have all : Fits (blockLocks .write blocks_to_lock ++
        [(.block_index_lock, .read), (.file f, .write), (.file_index_lock, .read)])
        (.writing f tables (.placed 0)) := fits_placed perm inHand plain_write (by simp)
    have files : Fits (blockLocks .write blocks_to_lock ++
        [(.file f, .write), (.file_index_lock, .read)]) (.writing f tables (.placed 0)) :=
      fits_placed perm inHand (fun entry member => plain_write entry (List.mem_cons_of_mem _ member))
        (by simp)
    refine Discipline.Follows.release_same (List.Perm.refl _) ((all.mutex id).mutex id) ?_
    refine Discipline.Follows.release_same (List.Perm.refl _) (all.mutex id) ?_
    refine Discipline.Follows.release_same List.perm_middle all ?_
    have last : (blockLocks .write blocks_to_lock ++
        [(Lock.file f, Mode.write), (Lock.file_index_lock, Mode.read)]).Perm
        ((Lock.file_index_lock, Mode.read) ::
          (blockLocks .write blocks_to_lock ++ [(Lock.file f, Mode.write)])) := by
      rw [List.append_cons]
      exact List.perm_append_singleton _ _
    refine Discipline.Follows.release_same last files ?_
    have alone : Fits (blockLocks .write blocks_to_lock ++ [(.file f, .write)])
        (.writing f tables (.placed 0)) := fits_placed perm inHand plain_file (by simp)
    refine ⟨alone, fun memalign => ?_⟩
    cases memalign with
    | false => exact follows_writeCleanup preserved call noted perm inHand (Or.inr (by decide))
    | true =>
      refine follows_storeLoop preserved call noted perm inHand (fun outcome =>
        follows_writeCleanup preserved call noted perm inHand outcome) rfl (Nat.zero_le _)
        noted.nodup fun c => ?_
      simp

/-- From the lock of the entry on. -/
theorem follows_writeFile (preserved : clause.Preserved SHA512 calls ids) {path : Path}
    {buf : List UInt8} {offset : ℤ} (call : calls t = .write path buf offset) {f : FileRef}
    {frame : Frame} (how : frame = .found f ∨ frame = .window f) :
    (clause.discipline calls ids).Follows t (writeFile SHA512 f buf offset)
      [(.file_index_lock, .read)] frame := by
  have hand : frame.hand = some f := by
    rcases how with rfl | rfl
    · rfl
    · rfl
  have index : Fits [(.file_index_lock, .read)] frame := by
    rcases how with rfl | rfl
    · constructor <;> simp [Frame.locked]
    · constructor <;> simp [Frame.locked]
  have both : Fits [(.file f, .write), (.file_index_lock, .read)] frame := by
    refine index.cons (fun g same => ?_) fun b same => by cases same
    cases same
    exact hand
  refine ⟨index, by simp [Clause.discipline, Lock.rank], ?_⟩
  refine follows_act both fun {others frames s} turn own named allowed => ?_
  have file : (Lock.file f, Mode.write) ∈ others t := by rw [own]; simp
  by_cases differ : offset ≠ (s.files f).logicalSize
  · have result : (readSize f s).1 = (s.files f).logicalSize := rfl
    rw [result, if_pos differ] at allowed ⊢
    refine ⟨turn.pointers_keep (Or.inl hand.symm) fun b member => absurd member List.not_mem_nil,
      preserved.enter turn how file allowed, ?_⟩
    rw [if_pos differ]
    refine follows_leave preserved (.entered _) (List.Perm.refl _) fits_entered ?_
    have outside : Fits [(.file_index_lock, .read)] .outside := by
      constructor <;> simp [Frame.locked]
    refine Discipline.Follows.release_same (List.Perm.refl _) outside ?_
    refine ⟨Fits.outside, rfl, ?_⟩
    show Returns (calls t) _ _
    rw [call]
    exact Or.inl ⟨-ENOTSUP, by decide, rfl, rfl⟩
  · have result : (readSize f s).1 = (s.files f).logicalSize := rfl
    rw [result, if_neg differ] at allowed ⊢
    refine ⟨turn.pointers_keep (Or.inl hand.symm) fun b member => absurd member List.not_mem_nil,
      preserved.begin_ call turn how file (not_not.mp differ) allowed, ?_⟩
    rw [if_neg differ]
    refine ⟨fits_unindexed, by simp [Clause.discipline, Lock.rank], ?_⟩
    exact follows_lookupLoop preserved call
      (fun tables noted => follows_placeAndStore preserved call noted) (List.nil_append _).symm
      (Noted.empty ids)

theorem follows_write (preserved : clause.Preserved SHA512 calls ids) {path : Path}
    {buf : List UInt8} {offset : ℤ} (call : calls t = .write path buf offset) :
    (clause.discipline calls ids).Follows t (xmp_write SHA512 path buf offset) [] .outside := by
  have index : ∀ {mode}, Fits [(.file_index_lock, mode)] .outside := by
    intro mode
    constructor <;> simp [Frame.locked]
  unfold xmp_write
  split_ifs
  · refine ⟨Fits.outside, rfl, ?_⟩
    show Returns (calls t) _ _
    rw [call]
    exact Or.inl ⟨-EINVAL, by decide, rfl, rfl⟩
  · refine ⟨Fits.outside, fun _ member => absurd member List.not_mem_nil, ?_⟩
    refine follows_find preserved (by rw [call]; rfl) index List.mem_cons_self ?_ fun f =>
      follows_writeFile preserved call (Or.inl rfl)
    -- the entry is created: between the two locks anything can happen
    refine Discipline.Follows.release_same (List.Perm.refl _) index ?_
    refine ⟨Fits.outside, fun _ member => absurd member List.not_mem_nil, ?_⟩
    refine follows_act index fun {others frames s} turn own named allowed => ?_
    refine ⟨?_, preserved.create call turn (by rw [own]; simp) allowed, ?_⟩
    · cases entry : s.fileIndex.lookup path with
      | some f =>
          have result : findFile path s = (f, s) := by
            unfold findFile
            simp only [entry]
          rw [result]
          refine turn.pointers.turn (fun {g} has => ?_) fun b member =>
            absurd member List.not_mem_nil
          cases has
          exact Or.inl ⟨path, entry⟩
      | none =>
          have result : findFile path s = (s.nextFile, createFile path s) := by
            unfold findFile
            simp only [entry]
          rw [result] at named ⊢
          have empty : ((createFile path s).files s.nextFile).blockList = [] := by
            show (Function.update s.files s.nextFile _ s.nextFile).blockList = []
            rw [Function.update_self]
            rfl
          refine turn.pointers.step named (Nat.le_succ _) le_rfl (fun {f} reach => ?_)
            (fun {f b} reach member => Or.inl ?_) Or.inl fun b member =>
              absurd member List.not_mem_nil
          · rcases eq_or_ne f s.nextFile with rfl | differ
            · exact Or.inr ⟨Nat.lt_succ_self _, empty⟩
            · refine Or.inl ?_
              rcases reach with ⟨other, found⟩ | ⟨u, has⟩
              · have found : (s.fileIndex.insert path s.nextFile).lookup other = some f := found
                by_cases same : other = path
                · rw [same, AList.lookup_insert] at found
                  exact absurd (Option.some.inj found).symm differ
                · rw [AList.lookup_insert_ne same] at found
                  exact Or.inl ⟨other, found⟩
              · rcases eq_or_ne u t with rfl | apart
                · rw [Function.update_self] at has
                  exact absurd (Option.some.inj has).symm differ
                · rw [Function.update_of_ne apart] at has
                  exact Or.inr ⟨u, has⟩
          · have differ : f ≠ s.nextFile := (turn.pointers.files reach).ne
            have member : b ∈ (Function.update s.files s.nextFile
              { Filemeta.zero with id := path, lockReady := true } f).blockList := member
            rwa [Function.update_of_ne differ] at member
    · have window : ∀ {f mode}, Fits [(.file_index_lock, mode)] (.window f) := by
        intro f mode
        constructor <;> simp [Frame.locked]
      refine Discipline.Follows.release_same (List.Perm.refl _) window ?_
      refine ⟨Fits.nil rfl fun _ => by simp, fun _ member => absurd member List.not_mem_nil, ?_⟩
      exact follows_writeFile preserved call (Or.inr rfl)

/-! ## `xmp_unlink` -/

/-- The locks of an unlink that releases references. -/
theorem fits_releasing {f : FileRef} {gone : Option BlockRef} {rest : List (BlockRef × ℤ)} :
    Fits [(.block_index_lock, .write), (.file f, .write)] (.releasing f gone rest) := by
  constructor <;> simp [Frame.hand, Frame.locked]

theorem fits_releasing_block {f : FileRef} {b : BlockRef} {gone : Option BlockRef}
    {rest : List (BlockRef × ℤ)} :
    Fits [(.block b, .write), (.block_index_lock, .write), (.file f, .write)]
      (.releasing f gone rest) :=
  fits_releasing.cons (fun g same => by cases same) fun c same => Or.inr List.mem_cons_self

/-- The acts of a release keep to the blocks that are indexed. -/
theorem Turn.pointers_released {others : T → List (Lock × Mode)} {frames : T → Frame}
    {s s' : Store} {frame frame' : Frame} (turn : Turn clause ids others frames s t frame)
    (named : Named ids s') (released : Released s s') (hand : frame'.hand = frame.hand)
    (blocks : frame'.blocks = []) : Pointers ids (Function.update frames t frame') s' := by
  refine turn.pointers.inside named (by rw [turn.here, hand]) released.fileIndex
    released.nextFile released.nextBlock.ge (fun member => ?_)
    (fun inside => Or.inl (released.lookup inside)) fun b member => ?_
  · rw [released.files] at member
    exact Or.inl member
  · rw [blocks] at member
    exact absurd member List.not_mem_nil

theorem pushFree_released (b : BlockRef) (s : Store) : Released s (pushFree b s) :=
  ⟨rfl, rfl, rfl, rfl, rfl, rfl, fun _ => rfl, fun _ => rfl, fun found => found⟩

/-- The release loop. -/
theorem follows_releaseLoop (preserved : clause.Preserved SHA512 calls ids) {path : Path}
    (call : calls t = .unlink path) {f : FileRef} {next : Program}
    (follows : (clause.discipline calls ids).Follows t next
      [(.block_index_lock, .write), (.file f, .write)] (.releasing f none []))
    (counts : List (BlockRef × ℤ)) :
    (clause.discipline calls ids).Follows t (releaseLoop f counts next)
      [(.block_index_lock, .write), (.file f, .write)] (.releasing f none counts) := by
  induction counts with
  | nil => exact follows
  | cons entry rest ih =>
      obtain ⟨b, ocorrencias⟩ := entry
      refine ⟨fits_releasing, fun entry member => ?_, ?_⟩
      · simp only [List.mem_cons, List.not_mem_nil, or_false] at member
        rcases member with rfl | rfl
        · exact lt_block le_rfl b
        · exact lt_block (Nat.le_succ 1) b
      refine follows_act fits_releasing_block fun {others frames s} turn own named allowed => ?_
      have file : (Lock.file f, Mode.write) ∈ others t := by rw [own]; simp
      have index : (Lock.block_index_lock, Mode.write) ∈ others t := by rw [own]; simp
      have block : (Lock.block b, Mode.write) ∈ others t := by rw [own]; simp
      have gone : ∀ (s' : Store), (if decide ((s'.blocks b).counter = 0) then some b else none) =
          if (s'.blocks b).counter = 0 then some b else none := fun s' => by
        simp only [decide_eq_true_eq]
      dsimp only at named allowed ⊢
      rw [gone] at allowed ⊢
      refine ⟨turn.pointers_released named (lowerCounter_released _ _ _) rfl rfl,
        preserved.lower call turn file index block allowed, ?_⟩
      by_cases zero : ((lowerCounter b ocorrencias s).blocks b).counter = 0
      · rw [decide_eq_true zero, if_pos zero]
        refine ⟨fits_releasing_block, fun entry member => ?_, ?_⟩
        · simp only [List.mem_cons, List.not_mem_nil, or_false] at member
          rcases member with rfl | rfl | rfl
          · exact block_lt_freeList ids b
          · exact (lt_block le_rfl b).trans (block_lt_freeList ids b)
          · exact (lt_block (Nat.le_succ 1) b).trans (block_lt_freeList ids b)
        have mutex : ∀ {gone}, Fits [(.freeList_lock, .write), (.block b, .write),
            (.block_index_lock, .write), (.file f, .write)] (.releasing f gone rest) :=
          fits_releasing_block.mutex id
        refine follows_act mutex fun {others frames s} turn own named allowed => ?_
        refine ⟨turn.pointers_released named (pushFree_released b s) rfl rfl,
          preserved.push call turn (by rw [own]; simp) (by rw [own]; simp) allowed, ?_⟩
        refine Discipline.Follows.release_same (List.Perm.refl _) mutex ?_
        refine Discipline.Follows.release_same (List.Perm.refl _) fits_releasing_block ?_
        refine follows_act fits_releasing fun {others frames s} turn own named allowed => ?_
        refine ⟨turn.pointers_released named (freeBlockMeta_released b s) rfl rfl, ?_, ih⟩
        show clause.keeps (Function.update frames t (.releasing f none rest)) (freeBlockMeta b s)
        rw [← turn.here, Function.update_eq_self]
        exact preserved.free call turn (by rw [own]; simp)
      · rw [decide_eq_false zero, if_neg zero]
        exact Discipline.Follows.release_same (List.Perm.refl _) fits_releasing_block ih

theorem reinsertFile_lookup (path : Path) (f : FileRef) (s : Store) (other : Path) :
    (reinsertFile path f s).fileIndex.lookup other =
      if other = path then some f else s.fileIndex.lookup other := by
  have index : (reinsertFile path f s).fileIndex = s.fileIndex.insert path f := by
    unfold reinsertFile
    cases s.fileIndex.lookup path with
    | none => rfl
    | some old => rfl
  rw [index]
  split_ifs with same
  · rw [same, AList.lookup_insert]
  · rw [AList.lookup_insert_ne same]

/-- Only the mark of the entry that is replaced changes. -/
theorem reinsertFile_files (path : Path) (f : FileRef) (s : Store) (g : FileRef) :
    ∃ freed, (reinsertFile path f s).files g = { s.files g with freed := freed } ∧
      (freed = (s.files g).freed ∨ s.fileIndex.lookup path = some g) := by
  unfold reinsertFile
  cases entry : s.fileIndex.lookup path with
  | none => exact ⟨_, rfl, Or.inl rfl⟩
  | some old =>
      show ∃ freed, (freeFilemeta old s).files g = _ ∧ _
      rcases eq_or_ne g old with rfl | differ
      · refine ⟨true, ?_, Or.inr rfl⟩
        rw [freeFilemeta, Store.setFile_files_self]
      · refine ⟨(s.files g).freed, ?_, Or.inl rfl⟩
        rw [freeFilemeta, Store.setFile_files_ne s _ differ]

theorem reinsertFile_rest (path : Path) (f : FileRef) (s : Store) :
    ∃ fileIndex files, reinsertFile path f s =
      { s with fileIndex := fileIndex, files := files } := by
  unfold reinsertFile
  cases s.fileIndex.lookup path with
  | none => exact ⟨_, s.files, rfl⟩
  | some old => exact ⟨_, _, rfl⟩

/-- The entry in hand goes back into the index. -/
theorem Turn.pointers_restore {others : T → List (Lock × Mode)} {frames : T → Frame} {s : Store}
    {path : Path} {f : FileRef} (turn : Turn clause ids others frames s t (.failed f)) :
    Pointers ids (Function.update frames t (.restored f)) (reinsertFile path f s) := by
  have hand : Reachable frames s f := Or.inr ⟨t, by rw [turn.here]; rfl⟩
  obtain ⟨fileIndex, files, same⟩ := reinsertFile_rest path f s
  refine turn.pointers.step ?_ ?_ ?_ (fun reach => Or.inl ?_) (fun {g b} _ member => Or.inl ?_)
    (fun {hash b} inside => Or.inl ?_) fun b member => absurd member List.not_mem_nil
  · rw [same]
    exact turn.pointers.named
  · rw [same]
  · rw [same]
  · refine Pointers.reachable_update (fun {other g} found => ?_) (fun has => by cases has) reach
    rw [reinsertFile_lookup] at found
    split_ifs at found with here
    · cases found
      exact hand
    · exact Or.inl ⟨other, found⟩
  · obtain ⟨freed, meta_, -⟩ := reinsertFile_files path f s g
    rw [meta_] at member
    exact member
  · rw [same] at inside
    exact inside

/-- A failed unlink puts the entry back. -/
theorem follows_fail (preserved : clause.Preserved SHA512 calls ids) {path : Path}
    (call : calls t = .unlink path) {f : FileRef} (errno : Errno) :
    (clause.discipline calls ids).Follows t
      (.act (fun s => ((), s)) (fun _ => .failed f) fun _ =>
        .release (.file f) .write (.failed f) <|
        .acquire .file_index_lock .write <|
        .act (fun s => ((), reinsertFile path f s)) (fun _ => .restored f) fun _ =>
        .release .file_index_lock .write (.restored f) <|
        .ret (.status (-(errno : ℤ))))
      [(.file f, .write)] (.stolen f) := by
  have stolen : Fits [(.file f, .write)] (.stolen f) := by
    constructor <;> simp [Frame.hand, Frame.locked]
  have failed : Fits [(.file f, .write)] (.failed f) := by
    constructor <;> simp [Frame.hand, Frame.locked]
  have alone : Fits [] (.failed f) := Fits.nil rfl fun _ => by simp
  have index : ∀ {frame : Frame}, frame.locked = none → (∀ g, frame ≠ .found g) →
      Fits [(.file_index_lock, .write)] frame := fun out unfound =>
    (Fits.nil out unfound).cons (fun g same => (by cases same)) fun b same => by cases same
  refine follows_act stolen fun {others frames s} turn own named allowed => ?_
  refine ⟨turn.pointers_keep (Or.inl rfl) fun b member => absurd member List.not_mem_nil,
    preserved.fail call turn (by rw [own]; simp) allowed, ?_⟩
  refine Discipline.Follows.release_same (List.Perm.refl _) failed ?_
  refine ⟨alone, fun _ member => absurd member List.not_mem_nil, ?_⟩
  refine follows_act (index rfl fun _ => by simp) fun {others frames s} turn own named allowed => ?_
  refine ⟨turn.pointers_restore, preserved.restore call turn (by rw [own]; simp) allowed, ?_⟩
  refine Discipline.Follows.release_same (List.Perm.refl _) (index rfl fun _ => by simp) ?_
  refine ⟨Fits.nil rfl fun _ => by simp, rfl, ?_⟩
  show Returns (calls t) _ _
  rw [call]
  exact Or.inr (Or.inl ⟨errno, f, rfl, rfl⟩)

/-- The placeholder is gone: the references are released, and the entry is freed. -/
theorem follows_remove (preserved : clause.Preserved SHA512 calls ids) {path : Path}
    (call : calls t = .unlink path) {f : FileRef} :
    (clause.discipline calls ids).Follows t
      (.act (fun s => ((), s)) (fun _ => .removing f) fun _ =>
        .acquire .block_index_lock .write <|
        .ask fun order : IterOrder (BlockRef × ℤ) =>
        .ask fun strays : List (BlockRef × ℤ) =>
        .act (countReferences f order strays) (fun counts => .releasing f none counts)
          fun counts =>
        releaseLoop f counts <|
        .release .block_index_lock .write (.releasing f none []) <|
        .release (.file f) .write (.released f) <|
        .act (fun s => ((), freeFilemeta f s)) (fun _ => .removed f) fun _ =>
        .ret (.status 0))
      [(.file f, .write)] (.stolen f) := by
  have stolen : Fits [(.file f, .write)] (.stolen f) := by
    constructor <;> simp [Frame.hand, Frame.locked]
  have removing : Fits [(.file f, .write)] (.removing f) := by
    constructor <;> simp [Frame.hand, Frame.locked]
  have both : Fits [(.block_index_lock, .write), (.file f, .write)] (.removing f) :=
    removing.cons (fun g same => (by cases same)) fun b same => by cases same
  have alone : Fits [(.file f, .write)] (.releasing f none []) := by
    constructor <;> simp [Frame.hand, Frame.locked]
  refine follows_act stolen fun {others frames s} turn own named allowed => ?_
  refine ⟨turn.pointers_keep (Or.inl rfl) fun b member => absurd member List.not_mem_nil,
    preserved.remove call turn (by rw [own]; simp) allowed, ?_⟩
  refine ⟨removing, by simp [Clause.discipline, Lock.rank], both, fun order => ⟨both,
    fun strays => ?_⟩⟩
  refine follows_act both fun {others frames s} turn own named allowed => ?_
  refine ⟨turn.pointers_keep (Or.inl rfl) fun b member => absurd member List.not_mem_nil,
    preserved.counts call turn (by rw [own]; simp) (by rw [own]; simp) allowed, ?_⟩
  refine follows_releaseLoop preserved call ?_ _
  refine Discipline.Follows.release_same (List.Perm.refl _) fits_releasing ?_
  refine follows_release (List.Perm.refl _) alone (fun {others frames s} turn own => ⟨?_, ?_⟩) ?_
  · exact turn.pointers_keep (Or.inl rfl) fun b member => absurd member List.not_mem_nil
  · exact preserved.released call turn (by rw [own]; simp)
  refine follows_act (Fits.nil rfl fun _ => by simp) fun {others frames s} turn own named allowed => ?_
  refine ⟨?_, preserved.close call turn allowed, Fits.nil rfl fun _ => by simp, rfl, ?_⟩
  · refine turn.pointers.step named le_rfl le_rfl (fun reach => Or.inl ?_)
      (fun {g b} _ member => Or.inl ?_) Or.inl fun b member => absurd member List.not_mem_nil
    · exact Pointers.reachable_update (fun found => Or.inl ⟨_, found⟩) (fun has => by cases has)
        reach
    · rcases eq_or_ne g f with rfl | differ
      · rw [freeFilemeta, Store.setFile_files_self] at member
        exact member
      · rw [freeFilemeta, Store.setFile_files_ne s _ differ] at member
        exact member
  · show Returns (calls t) _ _
    rw [call]
    exact Or.inr (Or.inr ⟨f, rfl, rfl⟩)

theorem follows_unlink (preserved : clause.Preserved SHA512 calls ids) {path : Path}
    (call : calls t = .unlink path) :
    (clause.discipline calls ids).Follows t (xmp_unlink path) [] .outside := by
  have index : ∀ {frame : Frame}, frame.locked = none → (∀ g, frame ≠ .found g) →
      Fits [(.file_index_lock, .write)] frame := fun out unfound =>
    (Fits.nil out unfound).cons (fun g same => (by cases same)) fun b same => by cases same
  unfold xmp_unlink
  split_ifs
  · refine ⟨Fits.outside, rfl, ?_⟩
    show Returns (calls t) _ _
    rw [call]
    exact Or.inl ⟨-EPERM, rfl, Or.inl rfl, rfl⟩
  · refine ⟨Fits.outside, fun _ member => absurd member List.not_mem_nil, ?_⟩
    refine follows_act (index rfl fun _ => by simp) fun {others frames s} turn own named allowed => ?_
    have keeps := preserved.take call turn (by rw [own]; simp) allowed
    cases entry : s.fileIndex.lookup path with
    | none =>
        have result : takeFile path s = (none, s) := by
          unfold takeFile
          simp only [entry]
        rw [result] at keeps ⊢
        refine ⟨turn.pointers_keep (Or.inl rfl) fun b member => absurd member List.not_mem_nil,
          keeps, ?_⟩
        refine Discipline.Follows.release_same (List.Perm.refl _) (index rfl fun _ => by simp) ?_
        refine ⟨Fits.outside, rfl, ?_⟩
        show Returns (calls t) _ _
        rw [call]
        exact Or.inl ⟨-ENOENT, rfl, Or.inr rfl, rfl⟩
    | some f =>
        have result : takeFile path s = (some f, stealFile path s) := by
          unfold takeFile
          simp only [entry]
        rw [result] at named keeps ⊢
        refine ⟨?_, keeps, ?_⟩
        · refine turn.pointers.step named le_rfl le_rfl (fun reach => Or.inl ?_)
            (fun _ member => Or.inl member) Or.inl fun b member => absurd member List.not_mem_nil
          refine Pointers.reachable_update (fun found => ?_) (fun has => ?_) reach
          · exact Or.inl ⟨_, (stealFile_lookup.mp found).2⟩
          · cases has
            exact Or.inl ⟨path, entry⟩
        · have stolen : Fits [] (.stolen f) := Fits.nil rfl fun _ => by simp
          have locked : Fits [(.file f, .write)] (.stolen f) := by
            constructor <;> simp [Frame.hand, Frame.locked]
          refine Discipline.Follows.release_same (List.Perm.refl _) (index rfl fun _ => by simp) ?_
          refine ⟨stolen, fun _ member => absurd member List.not_mem_nil, locked, fun unlink => ?_⟩
          cases unlink with
          | ok => exact follows_remove preserved call
          | enoent => exact follows_remove preserved call
          | fail errno => exact follows_fail preserved call errno

/-- **A clause that every act preserves is kept by every call.** -/
theorem Clause.Preserved.follows (preserved : clause.Preserved SHA512 calls ids) (t : T) :
    (clause.discipline calls ids).Follows t (program SHA512 (calls t)) [] .outside := by
  cases call : calls t with
  | getattr path => exact follows_getattr preserved call
  | read path size offset => exact follows_read preserved call
  | write path buf offset => exact follows_write preserved call
  | unlink path => exact follows_unlink preserved call

end Calls

end ProjetoTSO.Codededup.Threads
