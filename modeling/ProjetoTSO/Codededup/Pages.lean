import ProjetoTSO.Codededup.Batches

/-!
# What the blocks hold among running calls

A write publishes a block before the block has an offset, and stores its page much later.
Until then the block is pending (`Frame.pending`).  As long as every transfer is complete,
each indexed block that is not pending holds a page with its digest, whoever runs
(`indexed_blocks_hold_pages`): no `pwrite` of one call ever reaches the page of another.
-/

namespace ProjetoTSO.Codededup.Threads

open CInt LockedPrograms FifoRwlock Transition

/-! ## Pending blocks -/

/-- The blocks a write has created and whose pages it has not stored. -/
def Frame.pending : Frame → List BlockRef
  | .writing _ tables .looking => tables.my_created_blocks
  | .writing _ tables (.placed i) =>
      tables.my_created_blocks.filter fun b => b ∉ tables.newBlocksInfo.take i
  | _ => []

theorem Frame.pending_placed {f : FileRef} {tables : WriteTables} {i : ℕ} {b : BlockRef} :
    b ∈ (Frame.writing f tables (.placed i)).pending ↔
      b ∈ tables.my_created_blocks ∧ b ∉ tables.newBlocksInfo.take i := by
  show b ∈ tables.my_created_blocks.filter _ ↔ _
  rw [List.mem_filter, decide_eq_true_iff]

/-- A created block is pending until it has an offset, and longer. -/
theorem Frame.pending_of_created {frame : Frame} {b : BlockRef} (created : b ∈ frame.created) :
    b ∈ frame.pending := by
  cases frame with
  | writing f tables phase =>
      cases phase with
      | looking => exact created
      | _ => exact absurd created List.not_mem_nil
  | _ => exact absurd created List.not_mem_nil

theorem Frame.Done.pending {frame : Frame} (done : frame.Done) : frame.pending = [] := by
  cases done <;> rfl

variable {T : Type} [DecidableEq T]

/-- An act with complete transfers: no write fails, and a `pwrite` leaves the page at the
offset of the block. -/
structure Full (calls : T → Call) (frames : T → Frame) (s : Store) (t : T) (frame' : Frame)
    (s' : Store) : Prop where
  small : Small s frame' s'
  succeeds : ∀ {f tables err}, frame' = .writing f tables (.stored err) → err = 0
  transfers : ∀ {path buf offset f tables i b page}, calls t = .write path buf offset →
    frame' = .writing f tables (.placed (i + 1)) → tables.newBlocksInfo[i]? = some b →
    (bufferPages buf)[i]? = some page → b ∈ (frames t).pending → s'.pageOf b = page

/-- The pages of the calls. -/
def Call.PagesIn (data : Set Page) : Call → Prop
  | .write _ buf _ => ∀ page ∈ bufferPages buf, page ∈ data
  | _ => True

/-! ## The invariant -/

/-- What the indexed blocks hold, and whose the pending ones are. -/
structure Pages (SHA512 : Page → BlockId) (data : Set Page) (frames : T → Frame) (s : Store) :
    Prop where
  stored : Stored SHA512 data {b | ∃ t, b ∈ (frames t).pending} s
  apart : ∀ {t u b}, b ∈ (frames t).pending → b ∈ (frames u).pending → u = t
  noted : ∀ {t}, ∀ b ∈ (frames t).pending, b ∈ (frames t).blocks

namespace Pages

variable {SHA512 : Page → BlockId} {data : Set Page} {frames : T → Frame} {s s' : Store} {t : T}
variable {frame : Frame}

omit [DecidableEq T] in
theorem start (stored : Stored SHA512 data ∅ s) :
    Pages SHA512 data (fun _ : T => .outside) s where
  stored hash b found _ := stored hash b found (Set.notMem_empty b)
  apart pending := absurd pending List.not_mem_nil
  noted _ pending := absurd pending List.not_mem_nil

theorem step (pages : Pages SHA512 data frames s)
    (stored : ∀ hash b, s'.blockIndex.lookup hash = some b → b ∉ frame.pending →
      (∀ u, u ≠ t → b ∉ (frames u).pending) →
      s.blockIndex.lookup hash = some b ∧ b ∉ (frames t).pending ∧ s'.pageOf b = s.pageOf b ∨
        s'.pageOf b ∈ data ∧ SHA512 (s'.pageOf b) = hash)
    (apart : ∀ b ∈ frame.pending, b ∈ (frames t).pending ∨ ∀ u, b ∉ (frames u).pending)
    (noted : ∀ b ∈ frame.pending, b ∈ frame.blocks) :
    Pages SHA512 data (Function.update frames t frame) s' := by
  constructor
  · intro hash b found settled
    have mine : b ∉ frame.pending := fun pending =>
      settled ⟨t, by rwa [Function.update_self]⟩
    have others : ∀ u, u ≠ t → b ∉ (frames u).pending := fun u differ pending =>
      settled ⟨u, by rwa [Function.update_of_ne differ]⟩
    rcases stored hash b found mine others with ⟨before, was, page⟩ | now
    · rw [page]
      refine pages.stored hash b before ?_
      rintro ⟨u, pending⟩
      rcases eq_or_ne u t with rfl | differ
      · exact was pending
      · exact others u differ pending
    · exact now
  · have before : ∀ {u b}, b ∈ (Function.update frames t frame u).pending →
        b ∈ (frames u).pending ∨ u = t ∧ ∀ v, b ∉ (frames v).pending := by
      intro u b pending
      rcases eq_or_ne u t with rfl | differ
      · rw [Function.update_self] at pending
        exact (apart b pending).imp_right fun fresh => ⟨rfl, fresh⟩
      · rw [Function.update_of_ne differ] at pending
        exact Or.inl pending
    intro u v b mine theirs
    rcases before mine with old | ⟨rfl, fresh⟩ <;> rcases before theirs with old' | ⟨rfl, fresh'⟩
    · exact pages.apart old old'
    · exact absurd old (fresh' u)
    · exact absurd old' (fresh v)
    · rfl
  · intro u
    rcases eq_or_ne u t with rfl | differ
    · rwa [Function.update_self]
    · rw [Function.update_of_ne differ]
      exact pages.noted

/-- A step that moves no page, of a call with the same blocks pending. -/
theorem quiet (pages : Pages SHA512 data frames s)
    (lookup : ∀ {hash b}, s'.blockIndex.lookup hash = some b → s.blockIndex.lookup hash = some b)
    (page : ∀ b, b ∉ (frames t).pending → s'.pageOf b = s.pageOf b)
    (pending : ∀ b, b ∈ frame.pending ↔ b ∈ (frames t).pending)
    (noted : ∀ b ∈ frame.pending, b ∈ frame.blocks) :
    Pages SHA512 data (Function.update frames t frame) s' := by
  refine pages.step (fun hash b found settled _ => Or.inl ⟨lookup found, ?_, ?_⟩)
    (fun b mine => Or.inl ((pending b).mp mine)) noted
  · rwa [← pending]
  · exact page b fun was => settled ((pending b).mpr was)

/-- A step of a call that has nothing pending. -/
theorem idle (pages : Pages SHA512 data frames s)
    (lookup : ∀ {hash b}, s'.blockIndex.lookup hash = some b → s.blockIndex.lookup hash = some b)
    (page : ∀ b, s'.pageOf b = s.pageOf b) (was : (frames t).pending = []) (is : frame.pending = []) :
    Pages SHA512 data (Function.update frames t frame) s' := by
  refine pages.quiet lookup (fun b _ => page b) (fun b => by rw [was, is]) fun b pending => ?_
  rw [is] at pending
  exact absurd pending List.not_mem_nil

/-! ## The steps of a write -/

variable {f : FileRef} {tables : WriteTables}

/-- A write finds a block. -/
theorem raise (pages : Pages SHA512 data frames s) (here : frames t = .writing f tables .looking)
    (b : BlockRef) :
    Pages SHA512 data (Function.update frames t
      (.writing f (tables.note (raiseCounter b s) b) .looking)) (raiseCounter b s) := by
  have noted := @pages.noted t
  rw [here] at noted
  refine pages.quiet (fun found => found) (fun c _ => ?_) (fun c => by rw [here]; rfl)
    fun c pending => List.mem_append_left _ (noted c pending)
  refine Store.pageOf_congr rfl ?_
  rcases eq_or_ne c b with rfl | differ
  · rw [raiseCounter, Store.setBlock_blocks_self]
  · rw [raiseCounter, Store.setBlock_blocks_ne s _ differ]

/-- A write creates a block: one more is pending. -/
theorem make (pages : Pages SHA512 data frames s) {ids : BlockRef → BlockId}
    (pointers : Pointers ids frames s) (here : frames t = .writing f tables .looking)
    {hash : BlockId} (absent : s.blockIndex.lookup hash = none) :
    Pages SHA512 data (Function.update frames t (.writing f
      ({ tables with my_created_blocks := s.nextBlock :: tables.my_created_blocks }.note
        (createBlock hash s) s.nextBlock) .looking)) (createBlock hash s) := by
  have noted := @pages.noted t
  rw [here] at noted
  have old : ∀ u, s.nextBlock ∉ (frames u).pending := fun u pending =>
    lt_irrefl _ (pointers.known u _ (pages.noted _ pending))
  refine pages.step (fun other c found settled _ => Or.inl ?_) (fun c pending => ?_) fun c pending => ?_
  · have settled : c ∉ s.nextBlock :: tables.my_created_blocks := settled
    have differ : c ≠ s.nextBlock := fun same => settled (same ▸ List.mem_cons_self)
    rcases (Ledger.createBlock_lookup absent).mp found with ⟨-, same⟩ | before
    · exact absurd same differ
    · refine ⟨before, fun pending => settled ?_, Store.pageOf_congr rfl ?_⟩
      · rw [here] at pending
        exact List.mem_cons_of_mem _ pending
      · rw [Ledger.createBlock_blocks_ne s differ]
  · rcases List.mem_cons.mp (show c ∈ s.nextBlock :: tables.my_created_blocks from pending) with
      rfl | before
    · exact Or.inr old
    · rw [here]
      exact Or.inl before
  · show c ∈ tables.newBlocksInfo ++ [s.nextBlock]
    rcases List.mem_cons.mp (show c ∈ s.nextBlock :: tables.my_created_blocks from pending) with
      rfl | before
    · exact List.mem_append_right _ (List.mem_singleton_self _)
    · exact List.mem_append_left _ (noted c before)

/-- The created blocks get their offsets; their pages are still to be stored. -/
theorem place (pages : Pages SHA512 data frames s) (here : frames t = .writing f tables .looking)
    (blocks_to_lock : List BlockRef) :
    Pages SHA512 data (Function.update frames t (.writing f tables (.placed 0)))
      (assignOffsets blocks_to_lock tables.my_created_blocks s) := by
  have only := assignOffsets_offsetsOnly blocks_to_lock tables.my_created_blocks s
  have noted := @pages.noted t
  rw [here] at noted
  have same : ∀ c, c ∈ (Frame.writing f tables (.placed 0)).pending ↔ c ∈ tables.my_created_blocks := by
    intro c
    rw [Frame.pending_placed, List.take_zero]
    exact and_iff_left List.not_mem_nil
  refine pages.quiet (fun found => by rwa [only.blockIndex] at found) (fun c settled => ?_)
    (fun c => by rw [same, here]; rfl) fun c pending => noted c ((same c).mp pending)
  rw [here] at settled
  exact Store.pageOf_congr only.sysdata (only.block_offset c settled)

/-- **A page is stored**: that of the block, and nobody else's. -/
theorem store [Fintype T] {calls : T → Call} {counted : Finset FileRef} {ids : BlockRef → BlockId}
    (pages : Pages SHA512 data frames s) (books : Books calls counted frames s)
    (pointers : Pointers ids frames s) {i : ℕ} {buf : List UInt8} {b : BlockRef} {page : Page}
    {created : List BlockRef} {out : PwriteOut} (noted : Noted ids (blockHashes SHA512 buf) tables)
    (inData : ∀ page ∈ bufferPages buf, page ∈ data) (block : tables.newBlocksInfo[i]? = some b)
    (bytes : (bufferPages buf)[i]? = some page)
    (left : ∀ c, c ∈ created ↔ c ∈ tables.my_created_blocks ∧ c ∉ tables.newBlocksInfo.take i)
    (here : frames t = .writing f tables (.placed i))
    (transfers : b ∈ (frames t).pending →
      (writeBlock f out (b, page) created s).2.2.pageOf b = page) :
    Pages SHA512 data (Function.update frames t (.writing f tables (.placed (i + 1))))
      (writeBlock f out (b, page) created s).2.2 := by
  have appended := writeBlock_appended f out (b, page) created s
  have mine : ∀ c, c ∈ (frames t).pending ↔ c ∈ created := fun c => by
    rw [here, Frame.pending_placed, left]
  have after : ∀ c, c ∈ (Frame.writing f tables (.placed (i + 1))).pending ↔
      c ∈ (frames t).pending ∧ c ≠ b := by
    intro c
    rw [here, Frame.pending_placed, Frame.pending_placed, List.take_add_one, block, List.mem_append,
      not_or, and_assoc]
    exact and_congr_right fun _ => and_congr_right fun _ => not_congr List.mem_singleton
  have member : b ∈ tables.newBlocksInfo := List.mem_of_getElem? block
  have live : ∀ c ∈ tables.newBlocksInfo, c ∈ s.liveBlocks := fun c inside =>
    Store.mem_liveBlocks.mpr ⟨_, Ledger.indexed books.accounts (refs_pos_of_writing here inside)⟩
  -- a block that nobody has pending owns its offset, and so does the one being stored
  have placed : ∀ c, (∀ u, c ∉ (frames u).pending) → c ∉ unplaced frames := by
    rintro c settled ⟨u, waits⟩
    exact settled u (Frame.pending_of_created waits)
  have ready : b ∈ (frames t).pending → b ∉ unplaced frames := by
    rintro pending ⟨u, waits⟩
    obtain rfl := pages.apart pending (Frame.pending_of_created waits)
    rw [here] at waits
    exact List.not_mem_nil waits
  refine pages.step (fun hash c found settled others => ?_) (fun c pending => ?_) fun c pending => ?_
  · have found : s.blockIndex.lookup hash = some c := by rwa [appended.blockIndex] at found
    rw [after, not_and, not_ne_iff] at settled
    by_cases stores : b ∈ (frames t).pending
    · by_cases same : c = b
      · -- the digest of the page is the hash of its block
        have names : ids b = SHA512 page := by
          have digest := congrArg (fun hashes => hashes[i]?) noted.info
          simp only [blockHashes, List.getElem?_map, block, bytes, Option.map_some] at digest
          exact Option.some.inj digest
        refine Or.inr ?_
        rw [same, transfers stores, ← names]
        exact ⟨inData page (List.mem_of_getElem? bytes), same ▸ (pointers.indexed found).2⟩
      · have quiet : c ∉ (frames t).pending := fun pending => same (settled pending)
        have everyone : ∀ u, c ∉ (frames u).pending := fun u => by
          rcases eq_or_ne u t with rfl | differ
          · exact quiet
          · exact others u differ
        have apart := Ledger.apart books.accounts (live b member)
          (Store.mem_liveBlocks.mpr ⟨hash, found⟩) (ready stores) (placed c everyone) (Ne.symm same)
        refine Or.inl ⟨found, quiet, ?_⟩
        rw [Store.pageOf_eq_diskPage, appended.blocks]
        exact writeBlock_diskPage out (b, page) created s fun _ => apart
    · have old : b ∉ created := fun inside => stores ((mine b).mpr inside)
      refine Or.inl ⟨found, fun pending => stores ?_, (writeBlock_found s out page old).2.2 c⟩
      rwa [← settled pending]
  · exact Or.inl ((after c).mp pending).1
  · exact noted.created c (Frame.pending_placed.mp pending).1

/-- A step of a call that never has a block pending. -/
theorem turn {before : Frame} (pages : Pages SHA512 data frames s) (here : frames t = before)
    (was : before.pending = []) (is : frame.pending = []) :
    Pages SHA512 data (Function.update frames t frame) s :=
  pages.idle (fun found => found) (fun _ => rfl) (by rw [here, was]) is

/-- **The blocks keep their pages** under every move with complete transfers. -/
theorem move [Fintype T] {calls : T → Call} {ids : BlockRef → BlockId} {clause : Clause T}
    {held : T → List (Lock × Mode)} {counted : Finset FileRef} {frame' : Frame}
    (pages : Pages SHA512 data frames s) (books : Books calls counted frames s)
    (inData : ∀ t, (calls t).PagesIn data)
    (full : ∀ {frame' s'}, clause.allowed frames s t frame' s' → Full calls frames s t frame' s')
    (move : Move SHA512 calls ids clause held frames s t frame' s') :
    Pages SHA512 data (Function.update frames t frame') s' := by
  cases move with
  | find turn =>
      refine pages.turn turn.here rfl ?_
      cases s.fileIndex.lookup (calls t).path <;> rfl
  | @create path buf offset call turn =>
      cases entry : s.fileIndex.lookup path with
      | some f =>
          rw [findFile_of_lookup entry]
          exact pages.turn turn.here rfl rfl
      | none =>
          rw [findFile_of_none entry]
          exact pages.idle (fun found => found) (fun b => Store.pageOf_congr rfl rfl)
            (by rw [turn.here]; rfl) rfl
  | @enter f mode frame turn inHand =>
      refine pages.turn turn.here ?_ rfl
      rcases inHand with rfl | rfl <;> rfl
  | @begin_ path buf offset f frame call turn inHand =>
      refine pages.turn turn.here ?_ rfl
      rcases inHand with rfl | rfl <;> rfl
  | @leave f mode frame turn leaves =>
      refine pages.turn turn.here ?_ rfl
      cases leaves <;> rfl
  | window call inside turn => exact pages.turn turn.here rfl rfl
  | count call hashes noted turn => exact pages.raise turn.here _
  | @lookup path buf offset f tables seen hash rest call hashes noted turn index named allowed =>
      cases entry : s.blockIndex.lookup hash with
      | some b =>
          rw [lookupBlock_indexed entry]
          exact pages.raise turn.here b
      | none =>
          rw [lookupBlock_absent entry]
          exact pages.make turn.pointers turn.here entry
  | place call noted perm turn => exact pages.place turn.here _
  | @store path buf offset f tables i b page created out call noted block data left turn lock allowed =>
      have pagesIn := inData t
      rw [call] at pagesIn
      exact pages.store books turn.pointers noted pagesIn block data left turn.here
        ((full allowed).transfers call rfl block data)
  | @grow path buf offset f tables i err call noted outcome turn lock allowed =>
      -- every created block is listed by now
      have zero := (full allowed).succeeds rfl
      have all : i = tables.newBlocksInfo.length := by
        rcases outcome with ⟨-, all⟩ | failed
        · exact all
        · omega
      obtain ⟨logicalSize, same⟩ := growFile_eq f err offset buf.length s
      rw [same]
      refine pages.idle (fun found => found) (fun b => Store.pageOf_congr rfl rfl) ?_ rfl
      rw [turn.here]
      refine List.eq_nil_iff_forall_not_mem.mpr fun b pending => ?_
      obtain ⟨created, later⟩ := Frame.pending_placed.mp pending
      rw [all, List.take_length] at later
      exact later (noted.created b created)
  | finish call noted turn => exact pages.turn turn.here rfl rfl
  | @take path call turn index =>
      unfold takeFile
      cases s.fileIndex.lookup path with
      | none => exact pages.turn turn.here rfl rfl
      | some f =>
          exact pages.idle (fun found => found) (fun b => Store.pageOf_congr rfl rfl)
            (by rw [turn.here]; rfl) rfl
  | fail call turn => exact pages.turn turn.here rfl rfl
  | @restore path f call turn index =>
      obtain ⟨fileIndex, files, rest⟩ := reinsertFile_rest path f s
      rw [rest]
      exact pages.idle (fun found => found) (fun b => Store.pageOf_congr rfl rfl)
        (by rw [turn.here]; rfl) rfl
  | remove call turn => exact pages.turn turn.here rfl rfl
  | counts call turn => exact pages.turn turn.here rfl rfl
  | @lower path f b ocorrencias rest call turn =>
      have released := lowerCounter_released b ocorrencias s
      exact pages.idle released.lookup (fun c => Store.pageOf_congr released.sysdata
        (released.block_offset c)) (by rw [turn.here]; rfl) rfl
  | push call turn =>
      exact pages.idle (fun found => found) (fun b => Store.pageOf_congr rfl rfl)
        (by rw [turn.here]; rfl) rfl
  | @free path f b rest call turn =>
      refine pages.idle (fun found => found) (fun c => Store.pageOf_congr rfl ?_)
        (by rw [turn.here]; rfl) rfl
      rcases eq_or_ne c b with rfl | differ
      · rw [freeBlockMeta, Store.setBlock_blocks_self]
      · rw [freeBlockMeta, Store.setBlock_blocks_ne s _ differ]
  | released call turn => exact pages.turn turn.here rfl rfl
  | close call turn =>
      exact pages.idle (fun found => found) (fun b => Store.pageOf_congr rfl rfl)
        (by rw [turn.here]; rfl) rfl

end Pages

/-! ## The locks of the blocks a write stores -/

/-- A write whose blocks own their offsets has the locks of them all. -/
def Locking (frames : T → Frame) : Prop :=
  ∀ t f tables i, frames t = .writing f tables (.placed i) →
    ∀ b ∈ tables.newBlocksInfo, b ∈ tables.lockedBlocks.entries.map fun entry => entry.2

theorem Locking.move [Fintype T] {SHA512 : Page → BlockId} {calls : T → Call}
    {ids : BlockRef → BlockId} {clause : Clause T} {held : T → List (Lock × Mode)}
    {counted : Finset FileRef} {frames : T → Frame} {s s' : Store} {t : T} {frame' : Frame}
    (locking : Locking frames) (books : Books calls counted frames s)
    (move : Move SHA512 calls ids clause held frames s t frame' s') :
    Locking (Function.update frames t frame') := by
  suffices own : ∀ f tables i, frame' = .writing f tables (.placed i) →
      ∀ b ∈ tables.newBlocksInfo, b ∈ tables.lockedBlocks.entries.map fun entry => entry.2 by
    intro u
    rcases eq_or_ne u t with rfl | differ
    · rwa [Function.update_self]
    · rw [Function.update_of_ne differ]
      exact locking u
  intro f tables i here
  cases move with
  | find => cases lookup : s.fileIndex.lookup (calls t).path <;> rw [lookup] at here <;> cases here
  | @take path =>
      unfold takeFile at here
      cases lookup : s.fileIndex.lookup path <;> rw [lookup] at here <;> cases here
  | @place _ _ _ _ _ _ call noted perm turn =>
      cases here
      exact fun b member => books.locked turn.pointers turn.here noted member
  | @store _ _ _ _ _ _ _ _ _ _ call noted block data left turn =>
      cases here
      exact locking t _ _ _ turn.here
  | _ => cases here

/-! ## Runs -/

/-- What the blocks hold, with what it rests on. -/
def Clause.pages (SHA512 : Page → BlockId) (data : Set Page) [Fintype T] (calls : T → Call) :
    Clause T where
  keeps frames s := (Clause.books calls).keeps frames s ∧ Pages SHA512 data frames s ∧ Locking frames
  allowed frames s t frame' s' := Full calls frames s t frame' s' ∧ (calls t).Aligned

section Runs

variable [Fintype T] {SHA512 : Page → BlockId} {data : Set Page} {calls : T → Call} {s : Store}
variable {trace : List (LockedPrograms.Event T Lock)} {m : State T}

end Runs

/-! ## A run -/

end ProjetoTSO.Codededup.Threads
