import ProjetoTSO.Codededup.Batches
import ProjetoTSO.Codededup.Counts

/-!
# Exact counters among running calls

As long as no write fails, no unlink gets an entry before the write that created it, and an
unlink that fails finds its path without an entry, no reference is lost: every counter is the
number of references to its block (`Exact`), and when all calls have returned that is the
number of its occurrences in the files (`counters_exact_running`).
-/

namespace ProjetoTSO.Codededup.Threads

open CInt LockedPrograms FifoRwlock Transition
open scoped BigOperators

variable {T : Type} [DecidableEq T]

/-- An act by which no reference is lost. -/
structure Lossless (calls : T → Call) (frames : T → Frame) (s : Store) (t : T) (frame' : Frame)
    (s' : Store) : Prop where
  small : Small s frame' s'
  seize : ∀ {f}, frame' = .failed f ∨ frame' = .removing f → ∀ u, frames u ≠ .window f
  restore : ∀ {f}, frame' = .restored f → s.fileIndex.lookup (calls t).path = none
  stores : ∀ {f tables err}, frame' = .writing f tables (.stored err) → err = 0

omit [DecidableEq T] in
theorem Lossless.careful {calls : T → Call} {frames : T → Frame} {s s' : Store} {t : T}
    {frame' : Frame} (lossless : Lossless calls frames s t frame' s') :
    Careful calls frames s t frame' where
  seize := lossless.seize
  restore here found := by
    rw [lossless.restore here] at found
    cases found

/-- The blocks of a write that it has listed. -/
def Phase.done (newBlocksInfo : List BlockRef) : Phase → List BlockRef
  | .looking => []
  | .placed k => newBlocksInfo.take k
  | .stored _ => newBlocksInfo

variable [Fintype T]

/-- No reference is lost. -/
structure Exact (counted : Finset FileRef) (frames : T → Frame) (s : Store) : Prop where
  only : ∀ f ∈ counted, (∃ path, s.fileIndex.lookup path = some f) ∨
    ∃ t, (frames t).intact = some f
  covered : ∀ {t f tables phase}, frames t = .writing f tables phase →
    ∀ b, (phase.done tables.newBlocksInfo).count b ≤ listed counted s f b
  stored : ∀ {t f tables err}, frames t = .writing f tables (.stored err) → err = 0
  balanced : Balanced (refs counted frames s) s

namespace Exact

variable {calls : T → Call} {counted counted' : Finset FileRef} {frames : T → Frame}
variable {s s' : Store} {t : T} {frame : Frame} {f : FileRef}

theorem step (exact_ : Exact counted frames s)
    (only : ∀ f ∈ counted', (∃ path, s'.fileIndex.lookup path = some f) ∨
      frame.intact = some f ∨ ∃ u, u ≠ t ∧ (frames u).intact = some f)
    (others : ∀ u, u ≠ t → ∀ f, (frames u).writes = some f →
      ∀ b, listed counted s f b ≤ listed counted' s' f b)
    (covered : ∀ f tables phase, frame = .writing f tables phase →
      ∀ b, (phase.done tables.newBlocksInfo).count b ≤ listed counted' s' f b)
    (stored : ∀ f tables err, frame = .writing f tables (.stored err) → err = 0)
    (balanced : Balanced (refs counted' (Function.update frames t frame) s') s') :
    Exact counted' (Function.update frames t frame) s' := by
  constructor
  · intro f member
    rcases only f member with indexed | mine | ⟨u, differ, theirs⟩
    · exact Or.inl indexed
    · exact Or.inr ⟨t, by rw [Function.update_self, mine]⟩
    · exact Or.inr ⟨u, by rw [Function.update_of_ne differ, theirs]⟩
  · intro u f tables phase here b
    rcases eq_or_ne u t with rfl | differ
    · rw [Function.update_self] at here
      exact covered f tables phase here b
    · rw [Function.update_of_ne differ] at here
      exact (exact_.covered here b).trans (others u differ f (by rw [here]; rfl) b)
  · intro u f tables err here
    rcases eq_or_ne u t with rfl | differ
    · rw [Function.update_self] at here
      exact stored f tables err here
    · rw [Function.update_of_ne differ] at here
      exact exact_.stored here
  · exact balanced

omit [DecidableEq T] [Fintype T] in
/-- A write whose file lists what it has appended owes the rest. -/
theorem owed_covered {listed : FileRef → BlockRef → ℕ} {tables : WriteTables} {phase : Phase}
    {b : BlockRef} (covered : (phase.done tables.newBlocksInfo).count b ≤ listed f b) :
    (Frame.writing f tables phase).owed listed b = (phase.left tables.newBlocksInfo).count b := by
  have parts : (phase.done tables.newBlocksInfo).count b +
      (phase.left tables.newBlocksInfo).count b = tables.newBlocksInfo.count b := by
    cases phase with
    | looking => exact Nat.zero_add _
    | placed k =>
        show (tables.newBlocksInfo.take k).count b + (tables.newBlocksInfo.drop k).count b = _
        rw [← List.count_append, List.take_append_drop]
    | stored err => exact Nat.add_zero _
  show max _ _ = _
  omega

/-- A step that changes no block and no list, of a call that keeps its references. -/
theorem quiet (exact_ : Exact counted frames s) (blocks : SameBlocks s s')
    (lists : ∀ g, (s'.files g).blockList = (s.files g).blockList)
    (owed : ∀ b, frame.owed (listed counted s) b = (frames t).owed (listed counted s) b)
    (only : ∀ f ∈ counted, (∃ path, s'.fileIndex.lookup path = some f) ∨
      frame.intact = some f ∨ ∃ u, u ≠ t ∧ (frames u).intact = some f)
    (covered : ∀ f tables phase, frame = .writing f tables phase →
      ∀ b, (phase.done tables.newBlocksInfo).count b ≤ listed counted s f b)
    (stored : ∀ f tables err, frame = .writing f tables (.stored err) → err = 0) :
    Exact counted (Function.update frames t frame) s' := by
  have counts : listed counted s' = listed counted s := by
    funext g b
    unfold listed
    rw [lists]
  refine exact_.step only (fun _ _ _ _ _ => by rw [counts]) (by rwa [counts]) stored ?_
  refine exact_.balanced.congr blocks.blockIndex blocks.blocks fun b => ?_
  have turn : refs counted (Function.update frames t frame) s' b +
        (frames t).owed (listed counted s) b =
      refs counted frames s b + frame.owed (listed counted s') b :=
    refs_turn t frame (fun b => by simp only [lists]) (fun _ _ _ _ _ => by rw [counts]) b
  rw [counts, owed] at turn
  omega

omit [DecidableEq T] in
/-- A step that changes neither the index of the files nor who has one intact. -/
theorem kept (exact_ : Exact counted frames s) (fileIndex : s'.fileIndex = s.fileIndex)
    (intact : frame.intact = (frames t).intact) : ∀ f ∈ counted,
      (∃ path, s'.fileIndex.lookup path = some f) ∨ frame.intact = some f ∨
        ∃ u, u ≠ t ∧ (frames u).intact = some f := by
  intro f member
  rcases exact_.only f member with indexed | ⟨u, theirs⟩
  · exact Or.inl (fileIndex ▸ indexed)
  · rcases eq_or_ne u t with rfl | differ
    · exact Or.inr (Or.inl (intact.trans theirs))
    · exact Or.inr (Or.inr ⟨u, differ, theirs⟩)

/-- Only the frame changes, and the call owes nothing. -/
theorem turn (exact_ : Exact counted frames s) {before : Frame} (here : frames t = before)
    (was : ∀ b, before.owed (listed counted s) b = 0)
    (is : ∀ b, frame.owed (listed counted s) b = 0) (intact : frame.intact = before.intact)
    (writes : ∀ f tables phase, frame = .writing f tables phase → phase = .looking) :
    Exact counted (Function.update frames t frame) s := by
  subst here
  refine exact_.quiet (.refl s) (fun _ => rfl) (fun b => (is b).trans (was b).symm)
    (exact_.kept rfl intact) (fun f tables phase here b => ?_) fun f tables err here => ?_
  · rw [writes f tables phase here]
    exact Nat.zero_le _
  · cases writes f tables _ here

/-- The references follow the counters. -/
theorem shift {refs refs' : BlockRef → ℕ} {s t : Store} (balanced : Balanced refs s)
    (lookup : ∀ {hash c}, t.blockIndex.lookup hash = some c → s.blockIndex.lookup hash = some c)
    (counter : ∀ {hash c}, t.blockIndex.lookup hash = some c →
      (t.blocks c).counter + refs c = (s.blocks c).counter + refs' c) : Balanced refs' t := by
  intro hash c found
  have before := balanced hash c (lookup found)
  have after := counter found
  omega

section Moves

variable {SHA512 : Page → BlockId} {ids : BlockRef → BlockId} {clause : Clause T}
variable {held : T → List (Lock × Mode)} {frame' : Frame} {b : BlockRef}

/-- A write finds a block. -/
theorem raise (exact_ : Exact counted frames s) (books : Books calls counted frames s)
    {tables : WriteTables} {hash : BlockId} (here : frames t = .writing f tables .looking)
    (found : s.blockIndex.lookup hash = some b) (room : (s.blocks b).counter + 1 < 2 ^ 31) :
    Exact counted (Function.update frames t
      (.writing f (tables.note (raiseCounter b s) b) .looking)) (raiseCounter b s) := by
  refine exact_.step (exact_.kept rfl (by rw [here]; rfl)) (fun _ _ _ _ _ => le_rfl)
    (fun g tables phase same c => ?_) (fun g tables err same => by cases same) ?_
  · cases same
    exact Nat.zero_le _
  · refine shift exact_.balanced (fun inside => inside) fun {hash c} inside => ?_
    rw [refs_raise here b c]
    rcases eq_or_ne c b with rfl | differ
    · have positive := Ledger.positive books.accounts found
      rw [raiseCounter, Store.setBlock_blocks_self, if_pos rfl]
      show int32 ((s.blocks c).counter + 1) + _ = _
      rw [int32_eq (by omega) (by omega)]
      push_cast
      ring
    · rw [raiseCounter, Store.setBlock_blocks_ne s _ differ, if_neg differ, Nat.add_zero]

/-- A write creates a block. -/
theorem make (exact_ : Exact counted frames s) (books : Books calls counted frames s)
    {tables : WriteTables} {hash : BlockId} (here : frames t = .writing f tables .looking)
    (absent : s.blockIndex.lookup hash = none) :
    Exact counted (Function.update frames t (.writing f
      ({ tables with my_created_blocks := s.nextBlock :: tables.my_created_blocks }.note
        (createBlock hash s) s.nextBlock) .looking)) (createBlock hash s) := by
  refine exact_.step (exact_.kept rfl (by rw [here]; rfl)) (fun _ _ _ _ _ => le_rfl)
    (fun g tables phase same c => ?_) (fun g tables err same => by cases same) ?_
  · cases same
    exact Nat.zero_le _
  · intro other c inside
    rw [refs_make here c]
    rcases (Ledger.createBlock_lookup absent).mp inside with ⟨rfl, rfl⟩ | before
    · rw [Ledger.createBlock_blocks_self, Ledger.refs_fresh books.accounts, if_pos rfl]
      rfl
    · have old := (Ledger.fresh books.accounts before).ne
      rw [Ledger.createBlock_blocks_ne s old, if_neg old]
      exact exact_.balanced other c before

/-- The blocks of a write get their offsets. -/
theorem place (exact_ : Exact counted frames s) {tables : WriteTables}
    (here : frames t = .writing f tables .looking) (blocks_to_lock : List BlockRef) :
    Exact counted (Function.update frames t (.writing f tables (.placed 0)))
      (assignOffsets blocks_to_lock tables.my_created_blocks s) := by
  have only := assignOffsets_offsetsOnly blocks_to_lock tables.my_created_blocks s
  refine exact_.step (exact_.kept only.fileIndex (by rw [here]; rfl))
    (fun _ _ _ _ _ => by rw [listed_congr only.files]) (fun g tables phase same c => ?_)
    (fun g tables err same => by cases same) ?_
  · cases same
    exact Nat.zero_le _
  · refine shift exact_.balanced (fun inside => only.blockIndex ▸ inside) fun {hash c} _ => ?_
    rw [refs_place here blocks_to_lock c, only.counter]

/-- A write lists a block in a file that counts. -/
theorem store (exact_ : Exact counted frames s) {tables : WriteTables} {k : ℕ}
    (here : frames t = .writing f tables (.placed k)) (block : tables.newBlocksInfo[k]? = some b)
    (counts : f ∈ counted) (alone : ∀ u, u ≠ t → (frames u).writes ≠ some f)
    (appended : AppendedTo f [b] s s') :
    Exact counted (Function.update frames t (.writing f tables (.placed (k + 1)))) s' := by
  have own : ∀ c, listed counted s' f c = listed counted s f c + if c = b then 1 else 0 := by
    intro c
    unfold listed
    rw [if_pos counts, if_pos counts, appended.blockList]
    exact count_snoc _ b c
  refine exact_.step (exact_.kept appended.fileIndex (by rw [here]; rfl)) (fun u differ g writes c => ?_)
    (fun g tables phase same c => ?_) (fun g tables err same => by cases same) ?_
  · unfold listed
    rw [appended.others g fun same => alone u differ (same ▸ writes)]
  · cases same
    have before := exact_.covered here c
    rw [own]
    show (tables.newBlocksInfo.take (k + 1)).count c ≤ _
    rw [List.take_add_one, block]
    have more := count_snoc (tables.newBlocksInfo.take k) b c
    replace before : (tables.newBlocksInfo.take k).count c ≤ _ := before
    show (tables.newBlocksInfo.take k ++ [b]).count c ≤ _
    omega
  · exact exact_.balanced.congr appended.blockIndex appended.blocks fun c =>
      (refs_store here block alone appended c).2 counts (exact_.covered here c)

/-- The release loop gives up the references to one block. -/
theorem lower (exact_ : Exact counted frames s) (books : Books calls counted frames s) {n : ℤ}
    {rest : List (BlockRef × ℤ)} (here : frames t = .releasing f none ((b, n) :: rest))
    (gone : Option BlockRef) :
    Exact counted (Function.update frames t (.releasing f gone rest)) (lowerCounter b n s) := by
  have positive := @books.positive t
  rw [here] at positive
  have some_ : 0 < n := positive _ List.mem_cons_self
  obtain ⟨k, rfl⟩ := Int.eq_ofNat_of_zero_le some_.le
  have released := lowerCounter_released b k s
  refine exact_.step (exact_.kept released.fileIndex (by rw [here]; rfl))
    (fun _ _ _ _ _ => by rw [listed_congr released.files]) (fun g tables phase same => by cases same)
    (fun g tables err same => by cases same) ?_
  refine shift exact_.balanced released.lookup fun {hash c} inside => ?_
  have change : refs counted (Function.update frames t (.releasing f gone rest))
      (lowerCounter b k s) c + (if c = b then k else 0) = refs counted frames s c :=
    refs_lower gone here c
  rw [Ledger.lowerCounter_blocks]
  rcases eq_or_ne c b with rfl | differ
  · have own := exact_.balanced hash c (released.lookup inside)
    have fits := Ledger.counterFits books.accounts (released.lookup inside)
    rw [if_pos rfl] at change
    rw [Function.update_self]
    show int32 ((s.blocks c).counter - k) + _ = _
    rw [int32_eq (by omega) (by omega)]
    omega
  · rw [if_neg differ] at change
    rw [Function.update_of_ne differ]
    omega

/-- A new entry has no references. -/
theorem create (exact_ : Exact counted frames s) (books : Books calls counted frames s) {path : Path}
    (was : frames t = .outside) (absent : s.fileIndex.lookup path = none)
    (reached : ∀ u f, (frames u).writes = some f → f < s.nextFile) :
    Exact (insert s.nextFile counted) (Function.update frames t (.window s.nextFile))
      (createFile path s) := by
  have same : ∀ f < s.nextFile, ∀ b,
      listed (insert s.nextFile counted) (createFile path s) f b = listed counted s f b := by
    intro f below b
    have old : (createFile path s).files f = s.files f := Function.update_of_ne below.ne _ _
    unfold listed
    simp only [Finset.mem_insert, below.ne, false_or, old]
  have lists := createFile_lists books.custody.below path
  refine exact_.step (fun f member => ?_) (fun u _ f inside b => (same f (reached u f inside) b).ge)
    (fun g tables phase here => by cases here) (fun g tables err here => by cases here) ?_
  · rcases Finset.mem_insert.mp member with rfl | before
    · exact Or.inl ⟨path, AList.lookup_insert _⟩
    · rcases exact_.only f before with ⟨other, found⟩ | ⟨u, theirs⟩
      · refine Or.inl ⟨other, ?_⟩
        have differ : other ≠ path := by
          rintro rfl
          rw [absent] at found
          cases found
        exact (AList.lookup_insert_ne differ).trans found
      · refine Or.inr (Or.inr ⟨u, ?_, theirs⟩)
        rintro rfl
        rw [was] at theirs
        cases theirs
  · refine exact_.balanced.congr rfl rfl fun b => ?_
    have turn : refs (insert s.nextFile counted)
          (Function.update frames t (.window s.nextFile)) (createFile path s) b +
          (frames t).owed (listed counted s) b = refs counted frames s b + 0 :=
      refs_turn t (.window s.nextFile) lists (fun u _ f inside => same f (reached u f inside)) b
    rw [was] at turn
    exact turn

/-- An unlink begins to release its file. -/
theorem counts (exact_ : Exact counted frames s) (books : Books calls counted frames s)
    {rest : List (BlockRef × ℤ)} (here : frames t = .removing f)
    (tallies : Tallies (s.files f).blockList rest)
    (alone : ∀ u, (frames u).writes = some f → u = t) :
    Exact (counted.erase f) (Function.update frames t (.releasing f none rest)) s := by
  have member : f ∈ counted := by
    refine books.custody.trusted (t := t) ?_
    rw [here]
    rfl
  have writes : ∀ u, u ≠ t → (frames u).writes ≠ some f := fun u differ inside =>
    differ (alone u inside)
  refine exact_.step (fun g inside => ?_) (fun u differ g inside b => ?_)
    (fun g tables phase same => by cases same) (fun g tables err same => by cases same)
    (exact_.balanced.congr rfl rfl (refs_counts here member (tally_of_tallies tallies) writes))
  · obtain ⟨apart, before⟩ := Finset.mem_erase.mp inside
    rcases exact_.only g before with found | ⟨u, theirs⟩
    · exact Or.inl found
    · refine Or.inr (Or.inr ⟨u, ?_, theirs⟩)
      rintro rfl
      rw [here] at theirs
      exact apart (Option.some.inj theirs).symm
  · have apart : g ≠ f := fun same => writes u differ (same ▸ inside)
    unfold listed
    simp only [Finset.mem_erase, apart, ne_eq, not_false_eq_true, true_and]
    exact le_rfl

/-- **Every lossless move keeps the counters exact.** -/
theorem move (exact_ : Exact counted frames s) (books : Books calls counted frames s)
    (landing : Landing calls (parts frames) s)
    (lossless : ∀ {frame' s'}, clause.allowed frames s t frame' s' →
      Lossless calls frames s t frame' s')
    (move : Move SHA512 calls ids clause held frames s t frame' s') :
    Exact (recount counted (frames t) frame') (Function.update frames t frame') s' := by
  -- the file of a write counts
  have working : ∀ u f, (frames u).writes = some f → f ∈ counted := by
    intro u f writes
    have works : parts frames u = .working f := by
      unfold parts
      cases here : frames u with
      | writing =>
          rw [here] at writes
          exact congrArg Part.working (Option.some.inj writes)
      | _ =>
          rw [here] at writes
          cases writes
    rcases landing.working works with found | ⟨v, -, waits⟩
    · exact books.custody.indexed found
    · refine books.custody.trusted (t := v) ?_
      rw [Frame.eq_stolen waits]
      rfl
  cases move with
  | find turn =>
      have same : recount counted (frames t) (.ofLookup (s.fileIndex.lookup (calls t).path)) =
          counted := by
        cases s.fileIndex.lookup (calls t).path <;> rfl
      rw [same]
      refine exact_.turn turn.here (fun _ => rfl) (fun _ => ?_) ?_ fun f tables phase here => ?_ <;>
        cases entry : s.fileIndex.lookup (calls t).path with
        | none => first | rfl | (rw [entry] at here; cases here)
        | some g => first | rfl | (rw [entry] at here; cases here)
  | @create path buf offset call turn index =>
      cases entry : s.fileIndex.lookup path with
      | some g =>
          have same : recount counted (frames t) (.window g) = counted :=
            Finset.insert_eq_of_mem (books.custody.indexed entry)
          rw [findFile_of_lookup entry]
          show Exact (recount counted (frames t) (.window g)) (Function.update frames t (.window g)) s
          rw [same]
          exact exact_.turn turn.here (fun _ => rfl) (fun _ => rfl) rfl
            fun f tables phase here => by cases here
      | none =>
          rw [findFile_of_none entry]
          exact exact_.create books turn.here entry fun u f inside =>
            turn.pointers.files (Or.inr ⟨u, Frame.hand_of_writes inside⟩)
  | @enter f mode frame turn inHand lock =>
      refine exact_.turn turn.here (fun _ => ?_) (fun _ => rfl) ?_ fun f tables phase here => by cases here
      · rcases inHand with rfl | rfl <;> rfl
      · rcases inHand with rfl | rfl <;> rfl
  | @begin_ path buf offset f frame call turn inHand lock append =>
      refine exact_.turn turn.here (fun _ => ?_) (fun b => ?_) ?_ fun g tables phase here => ?_
      · rcases inHand with rfl | rfl <;> rfl
      · rw [Frame.owed_looking]
        rfl
      · rcases inHand with rfl | rfl <;> rfl
      · cases here
        rfl
  | @leave f mode frame turn leaves =>
      cases leaves with
      | entered | reading =>
          exact exact_.turn turn.here (fun _ => rfl) (fun _ => rfl) rfl
            fun g tables phase here => by cases here
      | writing tables failed => exact absurd (exact_.stored turn.here) failed
  | @window path size offset f logicalSize strays call inside turn lock allowed =>
      exact exact_.turn turn.here (fun _ => rfl) (fun _ => rfl) rfl
        fun g tables phase here => by cases here
  | @count path buf offset f tables seen hash rest b call hashes noted turn index found allowed =>
      exact exact_.raise books turn.here found
        ((lossless allowed).small.room (Ledger.counterFits books.accounts found))
  | @lookup path buf offset f tables seen hash rest call hashes noted turn index named allowed =>
      cases entry : s.blockIndex.lookup hash with
      | some b =>
          rw [lookupBlock_indexed entry] at allowed ⊢
          exact exact_.raise books turn.here entry
            ((lossless allowed).small.room (Ledger.counterFits books.accounts entry))
      | none =>
          rw [lookupBlock_absent entry]
          exact exact_.make books turn.here entry
  | @place path buf offset f tables blocks_to_lock call noted perm turn =>
      exact exact_.place turn.here blocks_to_lock
  | @store path buf offset f tables i b page created out call noted block data left turn lock =>
      exact exact_.store turn.here block (working t f (by rw [turn.here]; rfl))
        (fun u differ inside => differ (turn.writes_alone lock inside))
        (writeBlock_appended f out (b, page) created s)
  | @grow path buf offset f tables i err call noted outcome turn lock allowed =>
      obtain rfl := (lossless allowed).stores rfl
      obtain ⟨-, rfl⟩ := outcome.resolve_right (lt_irrefl _)
      have covered : ∀ b, tables.newBlocksInfo.count b ≤ listed counted s f b := by
        intro b
        have all := exact_.covered turn.here b
        replace all : (tables.newBlocksInfo.take tables.newBlocksInfo.length).count b ≤ _ := all
        rwa [List.take_length] at all
      refine exact_.quiet (growFile_sameBlocks f s _ _ _) (growFile_lists f s _ _ _) (fun b => ?_)
        (exact_.kept (growFile_fileIndex _ _ _ _ s) (by rw [turn.here]; rfl))
        (fun g tables phase here b => ?_) fun g tables err here => ?_
      · rw [turn.here, owed_covered (exact_.covered turn.here b), owed_covered (covered b)]
        show [].count b = (tables.newBlocksInfo.drop tables.newBlocksInfo.length).count b
        rw [List.drop_length]
      · cases here
        exact covered b
      · cases here
        rfl
  | @finish path buf offset f tables call noted turn =>
      refine exact_.turn turn.here (fun b => ?_) (fun _ => rfl) rfl fun g tables phase here => by cases here
      exact owed_covered (exact_.covered turn.here b)
  | @take path call turn index =>
      unfold takeFile
      cases entry : s.fileIndex.lookup path with
      | none =>
          exact exact_.turn turn.here (fun _ => rfl) (fun _ => rfl) rfl
            fun g tables phase here => by cases here
      | some f =>
          refine exact_.quiet ⟨rfl, rfl, rfl, rfl, rfl⟩ (fun _ => rfl) (fun b => by rw [turn.here]; rfl)
            (fun g member => ?_) (fun g tables phase here => by cases here)
            fun g tables err here => by cases here
          rcases exact_.only g member with ⟨other, found⟩ | ⟨u, theirs⟩
          · by_cases same : other = path
            · rw [same, entry] at found
              exact Or.inr (Or.inl found)
            · exact Or.inl ⟨other, stealFile_lookup.mpr ⟨same, found⟩⟩
          · refine Or.inr (Or.inr ⟨u, ?_, theirs⟩)
            rintro rfl
            rw [turn.here] at theirs
            cases theirs
  | @fail path f call turn =>
      exact exact_.turn turn.here (fun _ => rfl) (fun _ => rfl) rfl
        fun g tables phase here => by cases here
  | @restore path f call turn index allowed =>
      have vacant : s.fileIndex.lookup path = none := by
        have none_ := (lossless allowed).restore rfl
        rwa [call] at none_
      refine exact_.quiet (reinsertFile_sameBlocks f s path) (reinsertFile_lists f s path)
        (fun b => by rw [turn.here]; rfl) (fun g member => ?_)
        (fun g tables phase here => by cases here) fun g tables err here => by cases here
      rcases exact_.only g member with ⟨other, found⟩ | ⟨u, theirs⟩
      · refine Or.inl ⟨other, ?_⟩
        rw [reinsertFile_lookup, if_neg, found]
        rintro rfl
        rw [vacant] at found
        cases found
      · by_cases own : u = t
        · rw [own, turn.here] at theirs
          cases theirs
          refine Or.inl ⟨path, ?_⟩
          rw [reinsertFile_lookup, if_pos rfl]
        · exact Or.inr (Or.inr ⟨u, own, theirs⟩)
  | @remove path f call turn =>
      exact exact_.turn turn.here (fun _ => rfl) (fun _ => rfl) rfl
        fun g tables phase here => by cases here
  | @counts path f order strays call turn lock index allowed =>
      have short := (lossless allowed).small.lists f rfl
      have table : (countReferences f order strays s).1 =
          releaseOrder order (s.files f).blockList := by
        rw [countReferences, if_neg (by omega)]
      rw [table, turn.here]
      exact exact_.counts books turn.here (releaseOrder_tallies order _) fun u inside =>
        turn.writes_alone lock inside
  | @lower path f b ocorrencias rest call turn =>
      rw [turn.here]
      exact exact_.lower books turn.here _
  | @push path f b rest call turn =>
      rw [turn.here]
      refine exact_.step (exact_.kept rfl (by rw [turn.here]; rfl)) (fun _ _ _ _ _ => le_rfl)
        (fun g tables phase here => by cases here) (fun g tables err here => by cases here) ?_
      exact exact_.balanced.congr rfl rfl (refs_push turn.here)
  | @free path f b rest call turn =>
      have still : Function.update frames t (.releasing f none rest) = frames := by
        rw [← turn.here, Function.update_eq_self]
      rw [still, turn.here]
      refine ⟨exact_.only, exact_.covered, exact_.stored, ?_⟩
      refine shift exact_.balanced (fun inside => inside) fun {hash c} _ => ?_
      rcases eq_or_ne c b with rfl | differ
      · rw [freeBlockMeta, Store.setBlock_blocks_self]
        rfl
      · rw [freeBlockMeta, Store.setBlock_blocks_ne s _ differ]
        rfl
  | @released path f call turn =>
      exact exact_.turn turn.here (fun _ => rfl) (fun _ => rfl) rfl
        fun g tables phase here => by cases here
  | @close path f call turn =>
      exact exact_.quiet ⟨rfl, rfl, rfl, rfl, rfl⟩ (freeFilemeta_lists f s)
        (fun b => by rw [turn.here]; rfl) (exact_.kept rfl (by rw [turn.here]; rfl))
        (fun g tables phase here => by cases here) fun g tables err here => by cases here

end Moves

omit [DecidableEq T] in
/-- Before any call has begun. -/
theorem start (filed : s.Filed) (balanced : Balanced s.references s) :
    Exact (indexedFiles s) (fun _ : T => .outside) s where
  only f member := Or.inl (mem_indexedFiles.mp member)
  covered here := by cases here
  stored here := by cases here
  balanced := by
    have once : ∀ {path path' f}, s.fileIndex.lookup path = some f →
        s.fileIndex.lookup path' = some f → path' = path := filed.path_eq
    exact balanced.congr rfl rfl (refs_idle once fun _ _ _ => rfl)

end Exact

/-! ## Runs -/

/-- Steps by which no reference is lost. -/
def LosslessStep (calls : T → Call) :
    State T → LockedPrograms.Event T Lock → State T → Prop :=
  Machine.Allows Lock.fifo (Lossless calls)

/-- Exact books, with what they rest on. -/
def Clause.exact_ (calls : T → Call) : Clause T where
  keeps frames s := (∃ counted, Books calls counted frames s ∧ Exact counted frames s) ∧
    Entries frames s ∧ Sizing calls frames s ∧ Titles calls frames s ∧
    Landing calls (parts frames) s
  allowed frames s t frame' s' := Lossless calls frames s t frame' s' ∧ (calls t).Aligned

section Runs

variable {calls : T → Call} {s : Store}

omit [DecidableEq T] in
theorem Clause.exact_start (rest : AtRest s) (balanced : Balanced s.references s) :
    (Clause.exact_ calls).keeps (fun _ => .outside) s := by
  have once : ∀ {path path' f}, s.fileIndex.lookup path = some f →
      s.fileIndex.lookup path' = some f → path' = path := rest.accounted.filed.path_eq
  have landing : Landing calls (parts fun _ => .outside) s := Landing.start calls s
  exact ⟨⟨_, Books.start calls rest.accounted, Exact.start rest.accounted.filed balanced⟩,
    .start once rest.alive, Sizing.start calls rest.sized, Titles.start calls rest.accounted.filed,
    landing⟩

theorem Clause.exact_kept {SHA512 : Page → BlockId} {ids : BlockRef → BlockId}
    {held : T → List (Lock × Mode)} {frames : T → Frame} {s' : Store} {t : T} {frame' : Frame}
    (proper : ∀ t, (calls t).Proper) (kept : (Clause.exact_ calls).keeps frames s)
    (move : Move SHA512 calls ids (Clause.exact_ calls) held frames s t frame' s') :
    (Clause.exact_ calls).keeps (Function.update frames t frame') s' := by
  obtain ⟨⟨counted, books, exact_⟩, entries, sizing, titles, landing⟩ := kept
  have allowed : ∀ {frame' s'}, (Clause.exact_ calls).allowed frames s t frame' s' →
      Lossless calls frames s t frame' s' ∧ (calls t).Aligned := fun allowed => allowed
  refine ⟨⟨_, books.move entries (fun all => (allowed all).1.small) move,
    exact_.move books landing (fun all => (allowed all).1) move⟩, entries.move move,
    Sizing.move sizing proper (fun all => ⟨(allowed all).1.small, (allowed all).2⟩) move,
    titles.move move, landing.move (fun all => (allowed all).1.careful) move⟩

/-- **Counters are exact in every interleaving** in which no reference is lost.  The files
that count are those of the index and those an unlink has out of it and has not begun to
release; the counter of an indexed block is the number of its occurrences in them and of the
references the calls have in flight.  When all calls have returned it is the number of its
occurrences in the files of the index, and there is one. -/
theorem counters_exact_running (SHA512 : Page → BlockId) (rest : AtRest s)
    (balanced : Balanced s.references s) (calls : T → Call) (proper : ∀ t, (calls t).Proper)
    {trace : List (LockedPrograms.Event T Lock)} {m : State T}
    (run : Runs (LosslessStep calls) (start SHA512 s calls) trace m) :
    (∃ counted : Finset FileRef,
      (∀ f, f ∈ counted ↔ (∃ path, m.shared.fileIndex.lookup path = some f) ∨
        ∃ t, (m.frame t).intact = some f) ∧
      ∀ hash b, m.shared.blockIndex.lookup hash = some b →
        (m.shared.blocks b).counter = refs counted m.frame m.shared b) ∧
    ((∀ t, ∃ value, m.prog t = .ret value) → AtRest m.shared ∧
      ∀ hash b, m.shared.blockIndex.lookup hash = some b →
        (m.shared.blocks b).counter = m.shared.references b ∧ 0 < m.shared.references b) := by
  have run : Runs (Clause.exact_ calls).Step (start SHA512 s calls) trace m := aligned_run run
  obtain ⟨⟨⟨counted, books, exact_⟩, entries, sizing, titles, -⟩, ids, pointers, abides⟩ :=
    Clause.keeps_of_moves (fun kept move => Clause.exact_kept proper kept move)
      rest.accounted.allocated (Clause.exact_start rest balanced) run
  have members : ∀ f, f ∈ counted ↔ (∃ path, m.shared.fileIndex.lookup path = some f) ∨
      ∃ t, (m.frame t).intact = some f := by
    intro f
    refine ⟨exact_.only f, ?_⟩
    rintro (⟨path, found⟩ | ⟨t, intact⟩)
    · exact books.custody.indexed found
    · exact books.custody.trusted (Call.trusts_intact intact)
  refine ⟨⟨counted, members, exact_.balanced⟩, fun returned => ?_⟩
  have done : ∀ t, (m.frame t).Done := by
    intro t
    obtain ⟨value, here⟩ := returned t
    exact Frame.done_of_returns (abides.returned here).2
  have all : counted = indexedFiles m.shared := by
    ext f
    rw [members, mem_indexedFiles]
    refine or_iff_left ?_
    rintro ⟨t, intact⟩
    rw [(done t).intact] at intact
    cases intact
  refine ⟨⟨⟨books.close done entries.once, titles.indexed,
    fun found => pointers.files (Or.inl ⟨_, found⟩)⟩, sizing.sized, entries.alive⟩, ?_⟩
  intro hash b found
  have counter := exact_.balanced hash b found
  have positive := Ledger.positive books.accounts found
  rw [all, refs_idle entries.once fun t listed b => (done t).owed] at counter
  exact ⟨counter, by omega⟩

theorem holdsA_balanced : Balanced holdsA.references holdsA :=
  Runs.undisturbed_balanced (runs_first (fun _ => digestOfA) .fine (by decide) rfl rfl
    (undisturbed_first (Set.mem_singleton pageOfA)))

/-- The file of the block is in the hands of an unlink. -/
theorem counters_exact_running_stolen :
    ∃ trace m, Runs (LosslessStep readAndUnlink)
        (start (fun _ => digestOfA) holdsA readAndUnlink) trace m ∧
      m.frame false = .stolen 0 ∧ ∃ counted : Finset FileRef,
        (∀ f, f ∈ counted ↔ (∃ path, m.shared.fileIndex.lookup path = some f) ∨
          ∃ t, (m.frame t).intact = some f) ∧
        ∀ hash b, m.shared.blockIndex.lookup hash = some b →
          (m.shared.blocks b).counter = refs counted m.frame m.shared b := by
  obtain ⟨trace, m, run, -, stolen, -⟩ := reached_stolen (Lossless readAndUnlink) (by
    intro frames t frame' s' blocks files here
    have small := small_holdsA blocks files here
    simp only [List.mem_cons, List.not_mem_nil, or_false] at here
    rcases here with rfl | rfl | rfl <;>
      exact ⟨small, fun taken => (by rcases taken with taken | taken <;> cases taken),
        fun taken => (by cases taken), fun taken => (by cases taken)⟩)
  exact ⟨trace, m, run, stolen, (counters_exact_running (fun _ => digestOfA) holdsA_atRest
    holdsA_balanced readAndUnlink readAndUnlink_proper run).1⟩

end Runs

end ProjetoTSO.Codededup.Threads
