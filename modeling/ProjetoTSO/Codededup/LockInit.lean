import ProjetoTSO.Codededup.Entries
import ProjetoTSO.Lib.RelyGuarantee

/-!
# Every lock is initialised before it is used

Files and blocks are made in several places and destroyed in others, and in between every
handler takes their locks.
-/

namespace ProjetoTSO.Codededup.Threads

open CInt LockedPrograms FifoRwlock Transition

/-! ## What the calls promise each other -/

/-- The objects that were made have their locks initialised, and pointers lead to them. -/
structure Made (s : Store) : Prop where
  fileReady : ∀ f, (s.files f).lockReady = true ↔ f < s.nextFile
  blockReady : ∀ b, (s.blocks b).lockReady = true ↔ b < s.nextBlock
  listed : ∀ f < s.nextFile, ∀ b ∈ (s.files f).blockList, b < s.nextBlock
  fileIndexed : ∀ {path f}, s.fileIndex.lookup path = some f → f < s.nextFile
  blockIndexed : ∀ {hash b}, s.blockIndex.lookup hash = some b →
    b < s.nextBlock ∧ (s.blocks b).id = hash
  fileFreed : ∀ {f}, (s.files f).freed = true → f < s.nextFile
  blockFreed : ∀ {b}, (s.blocks b).freed = true →
    b < s.nextBlock ∧ ∀ hash, s.blockIndex.lookup hash ≠ some b

/-- Objects stay, with their locks as they are, and a block does not return to the index. -/
structure Onward (s s' : Store) : Prop where
  nextFile : s.nextFile ≤ s'.nextFile
  nextBlock : s.nextBlock ≤ s'.nextBlock
  fileReady : ∀ f < s.nextFile, (s'.files f).lockReady = (s.files f).lockReady
  blockReady : ∀ b < s.nextBlock, (s'.blocks b).lockReady = (s.blocks b).lockReady
  unindexed : ∀ b < s.nextBlock, (∀ hash, s.blockIndex.lookup hash ≠ some b) →
    ∀ hash, s'.blockIndex.lookup hash ≠ some b

namespace Onward

variable {s s' s'' : Store}

theorem refl (s : Store) : Onward s s :=
  ⟨le_rfl, le_rfl, fun _ _ => rfl, fun _ _ => rfl, fun _ _ absent => absent⟩

theorem trans (first : Onward s s') (second : Onward s' s'') : Onward s s'' where
  nextFile := first.nextFile.trans second.nextFile
  nextBlock := first.nextBlock.trans second.nextBlock
  fileReady f below :=
    (second.fileReady f (below.trans_le first.nextFile)).trans (first.fileReady f below)
  blockReady b below :=
    (second.blockReady b (below.trans_le first.nextBlock)).trans (first.blockReady b below)
  unindexed b below absent :=
    second.unindexed b (below.trans_le first.nextBlock) (first.unindexed b below absent)

end Onward

/-- What one act does to the objects. -/
def Advances (s s' : Store) : Prop := Onward s s' ∧ Made s'

/-- An act on the files that are there. -/
theorem Made.files {s s' : Store} (made : Made s) (blockIndex : s'.blockIndex = s.blockIndex)
    (blocks : s'.blocks = s.blocks) (nextBlock : s'.nextBlock = s.nextBlock)
    (nextFile : s'.nextFile = s.nextFile)
    (ready : ∀ f, (s'.files f).lockReady = (s.files f).lockReady)
    (listed : ∀ f, ∀ b ∈ (s'.files f).blockList, b ∈ (s.files f).blockList ∨ b < s.nextBlock)
    (indexed : ∀ {path f}, s'.fileIndex.lookup path = some f →
      s.fileIndex.lookup path = some f ∨ f < s.nextFile)
    (freed : ∀ {f}, (s'.files f).freed = true → (s.files f).freed = true ∨ f < s.nextFile) :
    Advances s s' := by
  refine ⟨⟨nextFile.ge, nextBlock.ge, fun f _ => ready f, fun b _ => by rw [blocks],
    fun b _ absent => by rwa [blockIndex]⟩, ?_⟩
  constructor
  · intro f
    rw [ready, nextFile]
    exact made.fileReady f
  · rw [nextBlock, blocks]
    exact made.blockReady
  · intro f below b member
    rw [nextBlock]
    exact (listed f b member).elim (made.listed f (nextFile ▸ below) b) id
  · intro path f found
    rw [nextFile]
    exact (indexed found).elim made.fileIndexed id
  · rw [blockIndex, blocks, nextBlock]
    exact made.blockIndexed
  · intro f gone
    rw [nextFile]
    exact (freed gone).elim made.fileFreed id
  · rw [blockIndex, blocks, nextBlock]
    exact made.blockFreed

/-- An act on the blocks that are there. -/
theorem Made.blocks {s s' : Store} (made : Made s) (fileIndex : s'.fileIndex = s.fileIndex)
    (files : s'.files = s.files) (nextFile : s'.nextFile = s.nextFile)
    (nextBlock : s'.nextBlock = s.nextBlock) (id : ∀ b, (s'.blocks b).id = (s.blocks b).id)
    (ready : ∀ b, (s'.blocks b).lockReady = (s.blocks b).lockReady)
    (indexed : ∀ {hash b}, s'.blockIndex.lookup hash = some b →
      s.blockIndex.lookup hash = some b)
    (freed : ∀ {b}, (s'.blocks b).freed = true → (s.blocks b).freed = true ∨
      b < s.nextBlock ∧ ∀ hash, s.blockIndex.lookup hash ≠ some b) :
    Advances s s' := by
  refine ⟨⟨nextFile.ge, nextBlock.ge, fun f _ => by rw [files], fun b _ => ready b,
    fun b _ absent hash found => absent hash (indexed found)⟩, ?_⟩
  constructor
  · rw [nextFile, files]
    exact made.fileReady
  · intro b
    rw [ready, nextBlock]
    exact made.blockReady b
  · rw [nextFile, files, nextBlock]
    exact made.listed
  · rw [fileIndex, nextFile]
    exact made.fileIndexed
  · intro hash b found
    rw [nextBlock, id]
    exact made.blockIndexed (indexed found)
  · rw [files, nextFile]
    exact made.fileFreed
  · intro b gone
    obtain ⟨below, absent⟩ := (freed gone).elim made.blockFreed fun now => now
    rw [nextBlock]
    exact ⟨below, fun hash found => absent hash (indexed found)⟩

/-! ### The acts -/

namespace Made

variable {s : Store}

theorem same (made : Made s) : Advances s s := ⟨.refl s, made⟩

theorem findFile (made : Made s) (path : Path) :
    Advances s (findFile path s).2 ∧ (Codededup.findFile path s).1 <
      (Codededup.findFile path s).2.nextFile := by
  unfold Codededup.findFile
  cases found : s.fileIndex.lookup path with
  | some f => exact ⟨made.same, made.fileIndexed found⟩
  | none =>
      have old : ∀ {f}, f < s.nextFile → (createFile path s).files f = s.files f :=
        fun below => Function.update_of_ne below.ne _ _
      have new : (createFile path s).files s.nextFile =
          { Filemeta.zero with id := path, lockReady := true } := Function.update_self ..
      have split : ∀ {f}, f < s.nextFile + 1 → f < s.nextFile ∨ f = s.nextFile :=
        Nat.lt_succ_iff_lt_or_eq.mp
      refine ⟨⟨⟨Nat.le_succ _, le_rfl, fun f below => by rw [old below], fun _ _ => rfl,
        fun _ _ absent => absent⟩, ?_⟩, Nat.lt_succ_self _⟩
      constructor
      · intro f
        rcases eq_or_ne f s.nextFile with rfl | differ
        · rw [new]
          exact iff_of_true rfl (Nat.lt_succ_self _)
        · have apart : (createFile path s).files f = s.files f := Function.update_of_ne differ _ _
          rw [apart, made.fileReady]
          exact ⟨fun below => below.trans (Nat.lt_succ_self _),
            fun below => (split below).resolve_right differ⟩
      · exact made.blockReady
      · intro f below b member
        rcases split below with before | rfl
        · rw [old before] at member
          exact made.listed f before b member
        · rw [new] at member
          exact absurd member List.not_mem_nil
      · intro other f inside
        rcases eq_or_ne other path with rfl | differ
        · have here : (s.fileIndex.insert other s.nextFile).lookup other = some f := inside
          rw [AList.lookup_insert] at here
          obtain rfl := Option.some.inj here
          exact Nat.lt_succ_self _
        · have before : (s.fileIndex.insert path s.nextFile).lookup other = some f := inside
          rw [AList.lookup_insert_ne differ] at before
          exact (made.fileIndexed before).trans (Nat.lt_succ_self _)
      · exact made.blockIndexed
      · intro f gone
        rcases eq_or_ne f s.nextFile with rfl | differ
        · exact Nat.lt_succ_self _
        · have before : (Function.update s.files s.nextFile _ f).freed = true := gone
          rw [Function.update_of_ne differ] at before
          exact (made.fileFreed before).trans (Nat.lt_succ_self _)
      · exact made.blockFreed

theorem raiseCounter (made : Made s) (b : BlockRef) : Advances s (raiseCounter b s) := by
  have fields : ∀ c, ((Codededup.raiseCounter b s).blocks c).id = (s.blocks c).id ∧
      ((Codededup.raiseCounter b s).blocks c).lockReady = (s.blocks c).lockReady ∧
      ((Codededup.raiseCounter b s).blocks c).freed = (s.blocks c).freed := by
    intro c
    rcases eq_or_ne c b with rfl | differ
    · rw [Codededup.raiseCounter, Store.setBlock_blocks_self]
      exact ⟨rfl, rfl, rfl⟩
    · rw [Codededup.raiseCounter, Store.setBlock_blocks_ne s _ differ]
      exact ⟨rfl, rfl, rfl⟩
  exact made.blocks rfl rfl rfl rfl (fun c => (fields c).1) (fun c => (fields c).2.1)
    (fun found => found) fun gone => Or.inl ((fields _).2.2 ▸ gone)

/-- A block is looked up, or made. -/
theorem lookupBlock (made : Made s) (tables : WriteTables) (hash : BlockId) :
    Advances s (lookupBlock (tables, s) hash).2 := by
  unfold Codededup.lookupBlock
  simp only
  cases found : s.blockIndex.lookup hash with
  | some b => exact made.raiseCounter b
  | none =>
      have old : ∀ {b}, b < s.nextBlock → (createBlock hash s).blocks b = s.blocks b :=
        fun below => Ledger.createBlock_blocks_ne s below.ne
      have split : ∀ {b}, b < s.nextBlock + 1 → b < s.nextBlock ∨ b = s.nextBlock :=
        Nat.lt_succ_iff_lt_or_eq.mp
      have looked : ∀ {other b}, (createBlock hash s).blockIndex.lookup other = some b →
          other = hash ∧ b = s.nextBlock ∨ s.blockIndex.lookup other = some b := by
        intro other b inside
        have inserted : (s.blockIndex.insert hash s.nextBlock).lookup other = some b := inside
        rcases eq_or_ne other hash with rfl | differ
        · rw [AList.lookup_insert] at inserted
          exact Or.inl ⟨rfl, (Option.some.inj inserted).symm⟩
        · rw [AList.lookup_insert_ne differ] at inserted
          exact Or.inr inserted
      refine ⟨⟨le_rfl, Nat.le_succ _, fun _ _ => rfl, fun b below => by rw [old below],
        fun b below absent other inside => ?_⟩, ?_⟩
      · rcases looked inside with ⟨-, rfl⟩ | before
        · exact lt_irrefl _ below
        · exact absent other before
      constructor
      · exact made.fileReady
      · intro b
        rcases eq_or_ne b s.nextBlock with rfl | differ
        · rw [Ledger.createBlock_blocks_self]
          exact iff_of_true rfl (Nat.lt_succ_self _)
        · rw [Ledger.createBlock_blocks_ne s differ, made.blockReady]
          exact ⟨fun below => below.trans (Nat.lt_succ_self _),
            fun below => (split below).resolve_right differ⟩
      · exact fun f below b member => (made.listed f below b member).trans (Nat.lt_succ_self _)
      · exact made.fileIndexed
      · intro other b inside
        rcases looked inside with ⟨rfl, rfl⟩ | before
        · rw [Ledger.createBlock_blocks_self]
          exact ⟨Nat.lt_succ_self _, rfl⟩
        · obtain ⟨below, id⟩ := made.blockIndexed before
          rw [old below]
          exact ⟨below.trans (Nat.lt_succ_self _), id⟩
      · exact made.fileFreed
      · intro b gone
        rcases eq_or_ne b s.nextBlock with rfl | differ
        · rw [Ledger.createBlock_blocks_self] at gone
          cases gone
        · rw [Ledger.createBlock_blocks_ne s differ] at gone
          obtain ⟨below, absent⟩ := made.blockFreed gone
          refine ⟨below.trans (Nat.lt_succ_self _), fun other inside => ?_⟩
          rcases looked inside with ⟨-, new⟩ | before
          · exact differ new
          · exact absent other before

theorem assignOffsets (made : Made s) (blocks_to_lock created : List BlockRef) :
    Advances s (assignOffsets blocks_to_lock created s) := by
  have only := assignOffsets_offsetsOnly blocks_to_lock created s
  have marks : ∀ (chosen : List BlockRef) (s : Store) (c : BlockRef),
      ((chosen.foldl assignOffset s).blocks c).lockReady = (s.blocks c).lockReady ∧
        ((chosen.foldl assignOffset s).blocks c).freed = (s.blocks c).freed := by
    intro chosen
    induction chosen with
    | nil => exact fun _ _ => ⟨rfl, rfl⟩
    | cons b chosen ih =>
        intro s c
        rw [List.foldl_cons, (ih _ c).1, (ih _ c).2, Ledger.assignOffset_blocks]
        rcases eq_or_ne c b with rfl | differ
        · rw [Function.update_self]
          exact ⟨rfl, rfl⟩
        · rw [Function.update_of_ne differ]
          exact ⟨rfl, rfl⟩
  exact made.blocks only.fileIndex only.files only.nextFile only.nextBlock only.id
    (fun c => (marks _ s c).1) (fun {hash c} found => only.blockIndex ▸ found)
    fun {c} gone => Or.inl ((marks _ s c).2 ▸ gone)

theorem writeBlock (made : Made s) (f : FileRef) (out : PwriteOut) (entry : BlockRef × Page)
    (created : List BlockRef) (below : entry.1 < s.nextBlock) :
    Advances s (writeBlock f out entry created s).2.2 := by
  have appended := writeBlock_appended f out entry created s
  have marks := writeBlock_marks f out entry created s
  refine made.files appended.blockIndex appended.blocks appended.nextBlock appended.nextFile
    (fun g => (marks g).1) (fun g b member => ?_)
    (fun found => Or.inl (appended.fileIndex ▸ found)) fun {g} gone => Or.inl ((marks g).2 ▸ gone)
  rcases eq_or_ne g f with rfl | differ
  · rw [appended.blockList] at member
    rcases List.mem_append.mp member with old | new
    · exact Or.inl old
    · rw [List.mem_singleton.mp new]
      exact Or.inr below
  · rw [appended.others g differ] at member
    exact Or.inl member

theorem growFile (made : Made s) (f : FileRef) (err offset : ℤ) (size : ℕ) :
    Advances s (growFile f err offset size s) := by
  obtain ⟨logicalSize, same⟩ := growFile_eq f err offset size s
  have fields : ∀ g, ((Codededup.growFile f err offset size s).files g).lockReady =
        (s.files g).lockReady ∧
      ((Codededup.growFile f err offset size s).files g).blockList = (s.files g).blockList := by
    intro g
    rw [same]
    rcases eq_or_ne g f with rfl | differ
    · rw [Store.setFile_files_self]
      exact ⟨rfl, rfl⟩
    · rw [Store.setFile_files_ne s _ differ]
      exact ⟨rfl, rfl⟩
  refine made.files ?_ ?_ ?_ ?_ (fun g => (fields g).1)
    (fun g b member => Or.inl ((fields g).2 ▸ member))
    (fun found => Or.inl (growFile_fileIndex f err offset size s ▸ found))
    fun {g} gone => Or.inl (growFile_freed f err offset size s g ▸ gone)
  all_goals rw [same]; rfl

theorem takeFile (made : Made s) (path : Path) :
    Advances s (takeFile path s).2 ∧ ∀ f ∈ (Threads.takeFile path s).1, f < s.nextFile := by
  unfold Threads.takeFile
  cases found : s.fileIndex.lookup path with
  | none => exact ⟨made.same, fun f member => by cases member⟩
  | some f =>
      refine ⟨made.files rfl rfl rfl rfl (fun _ => rfl) (fun _ _ member => Or.inl member)
        (fun inside => Or.inl (stealFile_lookup.mp inside).2) fun gone => Or.inl gone, ?_⟩
      intro g member
      cases member
      exact made.fileIndexed found

theorem reinsertFile (made : Made s) (path : Path) {f : FileRef} (below : f < s.nextFile) :
    Advances s (reinsertFile path f s) := by
  have files := reinsertFile_files path f s
  obtain ⟨fileIndex, files', same⟩ := reinsertFile_rest path f s
  refine made.files ?_ ?_ ?_ ?_ (fun g => ?_) (fun g b member => ?_)
    (fun {other g} found => ?_) fun {g} gone => ?_
  · rw [same]
  · rw [same]
  · rw [same]
  · rw [same]
  · obtain ⟨freed, equal, -⟩ := files g
    rw [equal]
  · obtain ⟨freed, equal, -⟩ := files g
    rw [equal] at member
    exact Or.inl member
  · rw [reinsertFile_lookup] at found
    split_ifs at found
    · cases found
      exact Or.inr below
    · exact Or.inl found
  · obtain ⟨freed, equal, how⟩ := files g
    rw [equal] at gone
    rcases how with kept | replaced
    · exact Or.inl (kept ▸ gone)
    · exact Or.inr (made.fileIndexed replaced)

theorem freeFilemeta (made : Made s) {f : FileRef} (below : f < s.nextFile) :
    Advances s (freeFilemeta f s) := by
  have fields : ∀ g, ((Codededup.freeFilemeta f s).files g).lockReady = (s.files g).lockReady ∧
      ((Codededup.freeFilemeta f s).files g).blockList = (s.files g).blockList ∧
      (((Codededup.freeFilemeta f s).files g).freed = true →
        (s.files g).freed = true ∨ g < s.nextFile) := by
    intro g
    rw [Codededup.freeFilemeta]
    rcases eq_or_ne g f with rfl | differ
    · rw [Store.setFile_files_self]
      exact ⟨rfl, rfl, fun _ => Or.inr below⟩
    · rw [Store.setFile_files_ne s _ differ]
      exact ⟨rfl, rfl, Or.inl⟩
  exact made.files rfl rfl rfl rfl (fun g => (fields g).1)
    (fun g b member => Or.inl ((fields g).2.1 ▸ member)) (fun found => Or.inl found)
    fun {g} gone => (fields g).2.2 gone

/-- A block whose counter reaches zero is out of the index. -/
theorem lowerCounter (made : Made s) (b : BlockRef) (ocorrencias : ℤ) :
    Advances s (lowerCounter b ocorrencias s) ∧
      (((Codededup.lowerCounter b ocorrencias s).blocks b).counter = 0 →
        ∀ hash, (Codededup.lowerCounter b ocorrencias s).blockIndex.lookup hash ≠ some b) := by
  have released := lowerCounter_released b ocorrencias s
  have fields : ∀ c, ((Codededup.lowerCounter b ocorrencias s).blocks c).lockReady =
        (s.blocks c).lockReady ∧
      ((Codededup.lowerCounter b ocorrencias s).blocks c).freed = (s.blocks c).freed := by
    intro c
    rw [Ledger.lowerCounter_blocks]
    rcases eq_or_ne c b with rfl | differ
    · rw [Function.update_self]
      exact ⟨rfl, rfl⟩
    · rw [Function.update_of_ne differ]
      exact ⟨rfl, rfl⟩
  refine ⟨made.blocks released.fileIndex released.files released.nextFile released.nextBlock
    released.id (fun c => (fields c).1) released.lookup
    fun {c} gone => Or.inl ((fields c).2 ▸ gone), fun zero hash found => ?_⟩
  have named := (made.blockIndexed (released.lookup found)).2
  rw [Ledger.lowerCounter_blocks, Function.update_self] at zero
  rw [Ledger.lowerCounter_eq] at found
  simp only at zero found
  rw [if_pos zero, named, AList.lookup_erase] at found
  cases found

theorem pushFree (made : Made s) (b : BlockRef) : Advances s (pushFree b s) :=
  made.blocks rfl rfl rfl rfl (fun _ => rfl) (fun _ => rfl) (fun found => found) Or.inl

/-- A block out of the index is freed. -/
theorem freeBlockMeta (made : Made s) {b : BlockRef} (below : b < s.nextBlock)
    (absent : ∀ hash, s.blockIndex.lookup hash ≠ some b) : Advances s (freeBlockMeta b s) := by
  have fields : ∀ c, ((Codededup.freeBlockMeta b s).blocks c).id = (s.blocks c).id ∧
      ((Codededup.freeBlockMeta b s).blocks c).lockReady = (s.blocks c).lockReady ∧
      (((Codededup.freeBlockMeta b s).blocks c).freed = true → (s.blocks c).freed = true ∨ c = b) := by
    intro c
    rw [Codededup.freeBlockMeta]
    rcases eq_or_ne c b with rfl | differ
    · rw [Store.setBlock_blocks_self]
      exact ⟨rfl, rfl, fun _ => Or.inr rfl⟩
    · rw [Store.setBlock_blocks_ne s _ differ]
      exact ⟨rfl, rfl, Or.inl⟩
  refine made.blocks rfl rfl rfl rfl (fun c => (fields c).1) (fun c => (fields c).2.1)
    (fun found => found) fun {c} gone => ?_
  rcases (fields c).2.2 gone with before | rfl
  · exact Or.inl before
  · exact Or.inr ⟨below, absent⟩

end Made

/-! ## The calls keep the promise -/

/-- The object a lock belongs to was made. -/
def Lock.Owned (s : Store) : Lock → Prop
  | .file f => f < s.nextFile
  | .block b => b < s.nextBlock
  | _ => True

/-- The `int` that counts up an entry's references reaches the end of the list. -/
def Countable (frame : Frame) (s : Store) : Prop :=
  ∀ f, frame = .removing f → (s.files f).blockList.length < 2 ^ 31

def lockPromise : Guarantee Store Frame Lock where
  inv := Made
  rely := Onward
  good s lock := lock.Owned s
  allowed := Countable
  refl := Onward.refl
  trans := Onward.trans
  lasting {s s' lock} onward owned := by
    cases lock with
    | file f => exact Nat.lt_of_lt_of_le owned onward.nextFile
    | block b => exact Nat.lt_of_lt_of_le owned onward.nextBlock
    | _ => trivial

/-- The program uses locks of objects that were made, from a store on that was `s`. -/
abbrev Uses (program : Program) (frame : Frame) (s : Store) : Prop :=
  program.Upholds lockPromise frame s

variable {s : Store} {frame : Frame} {f : FileRef} {next : Program}

theorem lockBlocks_uses {mode : Mode} {blocks : List BlockRef}
    (owned : ∀ b ∈ blocks, b < s.nextBlock) (follows : Uses next frame s) :
    Uses (lockBlocks mode blocks next) frame s := by
  induction blocks with
  | nil => exact follows
  | cons b blocks ih =>
      exact ⟨owned b List.mem_cons_self, ih fun c member => owned c (List.mem_cons_of_mem _ member)⟩

theorem unlockBlocks_uses {mode : Mode} {blocks : List BlockRef}
    (owned : ∀ b ∈ blocks, b < s.nextBlock) (follows : Uses next frame s) :
    Uses (unlockBlocks mode frame blocks next) frame s := by
  induction blocks with
  | nil => exact follows
  | cons b blocks ih =>
      exact ⟨owned b List.mem_cons_self, ih fun c member => owned c (List.mem_cons_of_mem _ member)⟩

/-! ### `xmp_getattr` and `xmp_read` -/

/-- The lookup of a path. -/
theorem lookupFile_uses {path : Path} {next : Option FileRef → Program}
    (absent : ∀ {s'}, Onward s s' → Uses (next none) .outside s')
    (found : ∀ {s'} f, Onward s s' → Made s' → f < s'.nextFile → Uses (next (some f)) (.found f) s') :
    Uses (.act (lookupFile path) Frame.ofLookup next) frame s := by
  refine LockedPrograms.Prog.Upholds.look fun s' onward made _ => ?_
  cases entry : s'.fileIndex.lookup path with
  | none => exact absent onward
  | some f => exact found f onward made (made.fileIndexed entry)

theorem xmp_getattr_uses (path : Path) : Uses (xmp_getattr path) frame s := by
  unfold xmp_getattr
  split_ifs
  · exact trivial
  · intro lstat
    cases lstat with
    | fail errno => exact trivial
    | ok st_size st_blocks =>
        refine ⟨trivial, lookupFile_uses (fun _ => ⟨trivial, trivial⟩) fun f _ _ below => ?_⟩
        refine ⟨below, LockedPrograms.Prog.Upholds.look fun s' onward _ _ => ?_⟩
        exact ⟨Nat.lt_of_lt_of_le below onward.nextFile, trivial, trivial⟩

theorem copyLoop_uses {blocks : List BlockRef} {offset : ℤ} {capacity size : ℕ}
    {next : ℤ × List UInt8 → Program}
    (follows : ∀ out, Uses (next out) (.reading f blocks) s)
    (entries : List (ℤ × BlockRef)) (buf : List UInt8) :
    Uses (copyLoop f blocks offset capacity size entries buf next) (.reading f blocks) s := by
  induction entries generalizing buf s with
  | nil => exact follows _
  | cons entry rest ih =>
      refine fun memalign pread => LockedPrograms.Prog.Upholds.look fun s' onward _ _ => ?_
      have later : ∀ out, Uses (next out) (.reading f blocks) s' :=
        fun out => (follows out).later onward
      cases copyBlock s' memalign pread offset capacity size entry buf with
      | some out =>
          dsimp only
          split_ifs
          · exact later out
          · exact ih later _
      | none =>
          intro out
          dsimp only
          split_ifs
          · exact later out
          · exact ih later _

theorem xmp_read_uses (path : Path) (size : ℕ) (offset : ℤ) :
    Uses (xmp_read path size offset) frame s := by
  have copies : ∀ {s : Store} {f : FileRef} (clamped : ℕ) (entries : List (ℤ × BlockRef))
      {blocks : List BlockRef}, f < s.nextFile → (∀ b ∈ blocks, b < s.nextBlock) →
      Uses (copyLoop f blocks offset size clamped entries [] fun out =>
        .ask fun order : IterOrder BlockRef =>
        unlockBlocks .read (.reading f blocks) (order.arrange blocks) <|
        .release (.file f) .read .outside <|
        .ret (.bytes (if out.1 ≠ 0 then out.1 else int32 out.2.length) out.2)) (.reading f blocks) s := by
    intro s f clamped entries blocks below owned
    refine copyLoop_uses ?_ entries []
    rintro ⟨err, buf⟩ order
    refine unlockBlocks_uses (fun b member => owned b ?_) ⟨below, trivial⟩
    exact (order.perm blocks).mem_iff.mp member
  have windows : ∀ {s : Store} {f : FileRef} {logicalSize : ℤ} (start_index end_index : ℤ)
      (clamped : ℕ) (strays : List (ℤ × BlockRef)), f < s.nextFile →
      Uses (.act (readWindow f start_index end_index strays)
        (fun window => .reading f window.2) fun window =>
        lockBlocks .read window.2 <|
        .release .block_index_lock .read (.reading f window.2) <|
        copyLoop f window.2 offset size clamped window.1 [] fun out =>
        .ask fun order : IterOrder BlockRef =>
        unlockBlocks .read (.reading f window.2) (order.arrange window.2) <|
        .release (.file f) .read .outside <|
        .ret (.bytes (if out.1 ≠ 0 then out.1 else int32 out.2.length) out.2)) (.entered f logicalSize) s := by
    intro s f logicalSize start_index end_index clamped strays below s' onward made _
    have below : f < s'.nextFile := Nat.lt_of_lt_of_le below onward.nextFile
    have owned : ∀ b ∈ (readWindow f start_index end_index strays s').1.2, b < s'.nextBlock :=
      readWindow_blocks_created (made.listed f below)
    exact ⟨.refl s', made, lockBlocks_uses owned ⟨trivial, copies _ _ below owned⟩⟩
  unfold xmp_read
  split_ifs
  · exact trivial
  · refine ⟨trivial, lookupFile_uses (fun _ => ⟨trivial, trivial⟩) fun {s} f _ _ below => ?_⟩
    refine ⟨below, LockedPrograms.Prog.Upholds.look fun s onward _ _ => ?_⟩
    have below : f < s.nextFile := Nat.lt_of_lt_of_le below onward.nextFile
    refine ⟨trivial, ?_⟩
    show LockedPrograms.Prog.Upholds lockPromise (ite _ _ _) _ s
    split_ifs
    · exact ⟨below, trivial⟩
    · -- unfolding would evaluate the indices of the window
      rw [LockedPrograms.Prog.upholds_acquire, LockedPrograms.Prog.upholds_ask]
      exact ⟨trivial, fun strays => windows _ _ _ strays below⟩

/-! ### `xmp_write` -/

/-- The blocks in the tables of a write were made. -/
structure Looked (tables : WriteTables) (s : Store) : Prop where
  info : ∀ b ∈ tables.newBlocksInfo, b < s.nextBlock
  locked : ∀ {hash b}, tables.lockedBlocks.lookup hash = some b → b < s.nextBlock

namespace Looked

variable {tables : WriteTables} {s s' : Store}

theorem empty (s : Store) : Looked .empty s :=
  ⟨fun b member => absurd member List.not_mem_nil, fun found => by cases found⟩

theorem later (looked : Looked tables s) (onward : s.nextBlock ≤ s'.nextBlock) :
    Looked tables s' :=
  ⟨fun b member => Nat.lt_of_lt_of_le (looked.info b member) onward,
    fun found => Nat.lt_of_lt_of_le (looked.locked found) onward⟩

theorem note (looked : Looked tables s) {b : BlockRef} (below : b < s.nextBlock) (s' : Store) :
    Looked (tables.note s' b) s where
  info c member := by
    rcases List.mem_append.mp member with old | new
    · exact looked.info c old
    · rw [List.mem_singleton.mp new]
      exact below
  locked {hash c} found := by
    unfold WriteTables.note at found
    simp only at found
    cases held : tables.lockedBlocks.lookup (s'.blocks b).id with
    | some old =>
        rw [held] at found
        exact looked.locked found
    | none =>
        rw [held] at found
        rcases eq_or_ne hash (s'.blocks b).id with rfl | differ
        · rw [AList.lookup_insert] at found
          rwa [← Option.some.inj found]
        · rw [AList.lookup_insert_ne differ] at found
          exact looked.locked found

theorem lookupBlock (looked : Looked tables s) (made : Made s) (hash : BlockId) :
    Looked (lookupBlock (tables, s) hash).1 (lookupBlock (tables, s) hash).2 := by
  cases found : s.blockIndex.lookup hash with
  | some b =>
      rw [lookupBlock_indexed found]
      exact (looked.note (made.blockIndexed found).1 _).later le_rfl
  | none =>
      unfold Codededup.lookupBlock
      simp only [found]
      have more : Looked { tables with my_created_blocks := s.nextBlock :: tables.my_created_blocks }
          (createBlock hash s) :=
        ⟨(looked.later (Nat.le_succ _)).info, (looked.later (Nat.le_succ _)).locked⟩
      exact more.note (Nat.lt_succ_self _) _

theorem blocksToLock (looked : Looked tables s) (s' : Store) :
    ∀ b ∈ blocksToLock tables s', b < s.nextBlock := by
  intro b member
  rw [Codededup.blocksToLock, (List.perm_insertionSort _ _).mem_iff, List.mem_map] at member
  obtain ⟨entry, member, rfl⟩ := member
  exact looked.locked (AList.mem_lookup_iff.mpr member)

end Looked

theorem lookupLoop_uses {next : WriteTables → Program}
    (follows : ∀ {tables s'}, Onward s s' → Looked tables s' →
      Uses (next tables) (.writing f tables .looking) s')
    (hashes : List BlockId) {tables : WriteTables} (looked : Looked tables s) :
    Uses (lookupLoop f hashes tables next) (.writing f tables .looking) s := by
  induction hashes generalizing tables s with
  | nil => exact follows (.refl s) looked
  | cons hash rest ih =>
      have onward : ∀ {s' tables'}, Onward s s' → Looked tables' s' →
          Uses (lookupLoop f rest tables' next) (.writing f tables' .looking) s' :=
        fun first looked => ih (fun second => follows (first.trans second)) looked
      intro s' first made _
      have looked := looked.later first.nextBlock
      cases entry : s'.blockIndex.lookup hash with
      | some b =>
          rw [countBlock_indexed entry]
          obtain ⟨second, after⟩ := made.raiseCounter b
          refine ⟨second, after, onward (Onward.trans first second) ?_⟩
          exact (looked.note (made.blockIndexed entry).1 _).later le_rfl
      | none =>
          rw [countBlock_absent entry]
          refine ⟨.refl s', made, trivial, trivial, fun s'' second made _ => ?_⟩
          obtain ⟨third, after⟩ := made.lookupBlock tables hash
          refine ⟨third, after, trivial, trivial, onward ((Onward.trans first second).trans third) ?_⟩
          exact (looked.later second.nextBlock).lookupBlock made hash

theorem writeCleanup_uses {offset : ℤ} {size : ℕ} {tables : WriteTables}
    {blocks_to_lock : List BlockRef} (below : f < s.nextFile)
    (owned : ∀ b ∈ blocks_to_lock, b < s.nextBlock) (err : ℤ) :
    Uses (writeCleanup f offset size tables blocks_to_lock err) frame s := by
  intro s' onward made _
  obtain ⟨grown, after⟩ := made.growFile f err offset size
  have onward : Onward s (growFile f err offset size s') := Onward.trans onward grown
  refine ⟨grown, after, unlockBlocks_uses (fun b member => ?_) ?_⟩
  · exact Nat.lt_of_lt_of_le (owned b member) onward.nextBlock
  · exact ⟨Nat.lt_of_lt_of_le below onward.nextFile, trivial⟩

theorem storeLoop_uses {tables : WriteTables} {next : ℤ → Program}
    (follows : ∀ {s' i} err, Onward s s' → Uses (next err) (.writing f tables (.placed i)) s')
    (i : ℕ) (entries : List (BlockRef × Page)) (created : List BlockRef)
    (owned : ∀ entry ∈ entries, entry.1 < s.nextBlock) :
    Uses (storeLoop f tables i entries created next) (.writing f tables (.placed i)) s := by
  induction entries generalizing i created s with
  | nil => exact follows 0 (.refl s)
  | cons entry rest ih =>
      intro pwrite s' onward made _
      have below := Nat.lt_of_lt_of_le (owned entry List.mem_cons_self) onward.nextBlock
      obtain ⟨wrote, after⟩ := made.writeBlock f pwrite entry created below
      have onward : Onward s (writeBlock f pwrite entry created s').2.2 := Onward.trans onward wrote
      refine ⟨wrote, after, ?_⟩
      show Uses (if (writeBlock f pwrite entry created s').1 ≠ 0 then _ else _ : Program) _ _
      split_ifs
      · exact follows _ onward
      · refine ih (fun err later => follows err (onward.trans later)) _ _ fun entry' member => ?_
        exact Nat.lt_of_lt_of_le (owned entry' (List.mem_cons_of_mem _ member)) onward.nextBlock

theorem placeAndStore_uses {buf : List UInt8} {offset : ℤ} {tables : WriteTables}
    (below : f < s.nextFile) (looked : Looked tables s) :
    Uses (placeAndStore f buf offset tables) frame s := by
  refine LockedPrograms.Prog.Upholds.look fun s' first _ _ => ?_
  have below : f < s'.nextFile := Nat.lt_of_lt_of_le below first.nextFile
  have looked := looked.later first.nextBlock
  have owned := looked.blocksToLock s'
  generalize blocksToLock tables s' = blocks_to_lock at owned
  refine lockBlocks_uses owned ⟨trivial, trivial, fun s'' second made _ => ?_⟩
  obtain ⟨placed, after⟩ := made.assignOffsets blocks_to_lock tables.my_created_blocks
  refine ⟨placed, after, trivial, trivial, trivial, trivial, fun memalign => ?_⟩
  have onward : Onward s' (assignOffsets blocks_to_lock tables.my_created_blocks s'') :=
    Onward.trans second placed
  have cleanup : ∀ {frame s₃} err, Onward s' s₃ →
      Uses (writeCleanup f offset buf.length tables blocks_to_lock err) frame s₃ :=
    fun err later => writeCleanup_uses (Nat.lt_of_lt_of_le below later.nextFile)
      (fun b member => Nat.lt_of_lt_of_le (owned b member) later.nextBlock) err
  cases memalign with
  | false => exact cleanup _ onward
  | true =>
      refine storeLoop_uses (fun err later => cleanup err (onward.trans later)) _ _ _ ?_
      rintro ⟨b, page⟩ member
      exact Nat.lt_of_lt_of_le (looked.info b (List.of_mem_zip member).1) onward.nextBlock

section

variable (SHA512 : Page → BlockId)

theorem writeFile_uses {buf : List UInt8} {offset : ℤ} (below : f < s.nextFile) :
    Uses (writeFile SHA512 f buf offset) frame s := by
  refine ⟨below, LockedPrograms.Prog.Upholds.look fun s' onward _ _ => ?_⟩
  have below : f < s'.nextFile := Nat.lt_of_lt_of_le below onward.nextFile
  show LockedPrograms.Prog.Upholds lockPromise (ite _ _ _) _ s'
  split_ifs with differs
  · exact ⟨below, trivial, trivial⟩
  · refine ⟨trivial, lookupLoop_uses (fun later looked => ?_) _ (.empty s')⟩
    exact placeAndStore_uses (Nat.lt_of_lt_of_le below later.nextFile) looked

theorem xmp_write_uses (path : Path) (buf : List UInt8) (offset : ℤ) :
    Uses (xmp_write SHA512 path buf offset) frame s := by
  unfold xmp_write
  split_ifs
  · exact trivial
  · refine ⟨trivial, lookupFile_uses (fun _ => ⟨trivial, trivial, ?_⟩)
      fun f _ _ below => writeFile_uses SHA512 below⟩
    intro s' _ made _
    obtain ⟨advances, below⟩ := made.findFile path
    exact ⟨advances.1, advances.2, trivial, trivial, writeFile_uses SHA512 below⟩

end

/-! ### `xmp_unlink` -/

theorem releaseLoop_uses (follows : ∀ {s'}, Onward s s' → Uses next (.releasing f none []) s')
    (counts : List (BlockRef × ℤ)) (owned : ∀ entry ∈ counts, entry.1 < s.nextBlock) :
    Uses (releaseLoop f counts next) (.releasing f none counts) s := by
  induction counts generalizing s with
  | nil => exact follows (.refl s)
  | cons entry rest ih =>
      obtain ⟨b, ocorrencias⟩ := entry
      have below : b < s.nextBlock := owned _ List.mem_cons_self
      have loop : ∀ {s'}, Onward s s' →
          Uses (releaseLoop f rest next) (.releasing f none rest) s' := by
        intro s' first
        refine ih (fun second => follows (first.trans second)) fun entry' member => ?_
        exact Nat.lt_of_lt_of_le (owned entry' (List.mem_cons_of_mem _ member)) first.nextBlock
      refine ⟨below, fun s' first made _ => ?_⟩
      obtain ⟨⟨lowered, after⟩, absent⟩ := made.lowerCounter b ocorrencias
      have first : Onward s (lowerCounter b ocorrencias s') := Onward.trans first lowered
      have below : b < (lowerCounter b ocorrencias s').nextBlock :=
        Nat.lt_of_lt_of_le below first.nextBlock
      refine ⟨lowered, after, ?_⟩
      dsimp only
      by_cases zero : ((lowerCounter b ocorrencias s').blocks b).counter = 0
      · rw [decide_eq_true zero]
        -- from here on the block is out of the index for good
        have absent := absent zero
        refine ⟨trivial, fun s₂ second made _ => ?_⟩
        obtain ⟨pushed, after⟩ := made.pushFree b
        have second : Onward (lowerCounter b ocorrencias s') (pushFree b s₂) :=
          Onward.trans second pushed
        refine ⟨pushed, after, trivial, Nat.lt_of_lt_of_le below second.nextBlock,
          fun s₃ third made _ => ?_⟩
        have third : Onward (lowerCounter b ocorrencias s') s₃ := second.trans third
        obtain ⟨freed, after⟩ := made.freeBlockMeta (Nat.lt_of_lt_of_le below third.nextBlock)
          (third.unindexed b below absent)
        exact ⟨freed, after, loop ((first.trans third).trans freed)⟩
      · rw [decide_eq_false zero]
        exact ⟨below, loop first⟩

/-- The blocks whose references an unlink counts are listed. -/
theorem countReferences_owned {order : IterOrder (BlockRef × ℤ)} {strays : List (BlockRef × ℤ)}
    (made : Made s) (below : f < s.nextFile) (countable : Countable (.removing f) s) :
    ∀ entry ∈ (countReferences f order strays s).1, entry.1 < s.nextBlock := by
  intro entry member
  unfold countReferences at member
  rw [if_neg (countable f rfl).not_ge] at member
  have listed := ((releaseOrder_tallies order (s.files f).blockList).mem entry.1).mp
    (List.mem_map_of_mem member)
  exact made.listed f below entry.1 listed

theorem xmp_unlink_uses (path : Path) : Uses (xmp_unlink path) frame s := by
  have removes : ∀ {s : Store} {f}, f < s.nextFile → Uses (.act (fun s => ((), s))
      (fun _ => .removing f) fun _ =>
        .acquire .block_index_lock .write <|
        .ask fun order : IterOrder (BlockRef × ℤ) =>
        .ask fun strays : List (BlockRef × ℤ) =>
        .act (countReferences f order strays) (fun counts => .releasing f none counts)
          fun counts =>
        releaseLoop f counts <|
        .release .block_index_lock .write (.releasing f none []) <|
        .release (.file f) .write (.released f) <|
        .act (fun s => ((), freeFilemeta f s)) (fun _ => .removed f) fun _ =>
        .ret (.status 0)) (.stolen f) s := by
    intro s f below
    refine LockedPrograms.Prog.Upholds.look fun s₁ first _ _ => ⟨trivial, fun order strays => ?_⟩
    intro s₂ second made countable
    have below : f < s₂.nextFile :=
      Nat.lt_of_lt_of_le below (first.nextFile.trans second.nextFile)
    refine ⟨.refl s₂, made, releaseLoop_uses (fun {s₃} third => ?_) _
      (countReferences_owned made below countable)⟩
    have below : f < s₃.nextFile := Nat.lt_of_lt_of_le below third.nextFile
    refine ⟨trivial, below, fun s₄ fourth made _ => ?_⟩
    obtain ⟨freed, after⟩ := made.freeFilemeta (Nat.lt_of_lt_of_le below fourth.nextFile)
    exact ⟨freed, after, trivial⟩
  unfold xmp_unlink
  split_ifs
  · exact trivial
  · refine ⟨trivial, fun s₁ _ made _ => ?_⟩
    obtain ⟨⟨taken, after⟩, owned⟩ := made.takeFile path
    refine ⟨taken, after, ?_⟩
    cases found : (takeFile path s₁).1 with
    | none => exact ⟨trivial, trivial⟩
    | some f =>
        have below : f < (takeFile path s₁).2.nextFile :=
          Nat.lt_of_lt_of_le (owned f found) taken.nextFile
        refine ⟨trivial, below, fun unlink => ?_⟩
        cases unlink with
        | ok => exact removes below
        | enoent => exact removes below
        | fail errno =>
            refine LockedPrograms.Prog.Upholds.look fun s₂ second _ _ => ?_
            have below : f < s₂.nextFile := Nat.lt_of_lt_of_le below second.nextFile
            refine ⟨below, trivial, fun s₃ third made _ => ?_⟩
            obtain ⟨restored, after⟩ :=
              made.reinsertFile path (Nat.lt_of_lt_of_le below third.nextFile)
            exact ⟨restored, after, trivial, trivial⟩

theorem program_uses (SHA512 : Page → BlockId) (call : Call) :
    Uses (program SHA512 call) frame s := by
  cases call with
  | getattr path => exact xmp_getattr_uses path
  | read path size offset => exact xmp_read_uses path size offset
  | write path buf offset => exact xmp_write_uses SHA512 path buf offset
  | unlink path => exact xmp_unlink_uses path

end ProjetoTSO.Codededup.Threads
