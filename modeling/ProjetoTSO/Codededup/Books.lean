import ProjetoTSO.Codededup.Accounting
import ProjetoTSO.Codededup.InBounds
import ProjetoTSO.Codededup.Owed

/-!
# The books of a run

Which files count is a matter of custody: those in the index, those an unlink has taken out
of it and not begun to release, and those a call reads (`Custody`).  With the ledger of the
references in flight, what the frames say about the blocks they hold makes up the books
(`Books`), and every move of every call keeps them (`Books.move`).
-/

namespace ProjetoTSO.Codededup.Threads

open CInt LockedPrograms FifoRwlock Transition
open scoped BigOperators

/-! ## Custody -/

def Call.writes : Call → Bool
  | .write _ _ _ => true
  | _ => false

/-- The entry of a call whose references count as long as the call is there.  A write may
have the lock of an entry that is freed. -/
def Call.trusts (call : Call) : Frame → Option FileRef
  | .entered f _ => if call.writes then none else some f
  | .reading f _ => some f
  | .stolen f => some f
  | .failed f => some f
  | .removing f => some f
  | _ => none

theorem Call.locked_of_trusts {call : Call} {frame : Frame} {f : FileRef}
    (trusts : call.trusts frame = some f) : frame.locked = some f ∨ frame.unlinked = some f := by
  cases frame with
  | entered =>
      unfold Call.trusts at trusts
      split_ifs at trusts
      exact Or.inl trusts
  | reading => exact Or.inl trusts
  | stolen | failed | removing => exact Or.inr trusts
  | _ => cases trusts

variable {T : Type} [DecidableEq T]

/-- The files whose references count. -/
structure Custody (calls : T → Call) (counted : Finset FileRef) (frames : T → Frame) (s : Store) :
    Prop where
  below : ∀ f ∈ counted, f < s.nextFile
  indexed : ∀ {path f}, s.fileIndex.lookup path = some f → f ∈ counted
  trusted : ∀ {t f}, (calls t).trusts (frames t) = some f → f ∈ counted
  found : ∀ {t f}, frames t = .found f → s.fileIndex.lookup (calls t).path = some f
  window : ∀ {t f}, frames t = .window f → (calls t).writes = true

namespace Custody

variable {calls : T → Call} {counted counted' : Finset FileRef} {frames : T → Frame}
variable {s s' : Store} {t : T} {frame : Frame} {f : FileRef}

theorem step (custody : Custody calls counted frames s) (below : ∀ f ∈ counted', f < s'.nextFile)
    (indexed : ∀ path f, s'.fileIndex.lookup path = some f → f ∈ counted')
    (kept : ∀ u f, u ≠ t → (calls u).trusts (frames u) = some f → f ∈ counted')
    (index : ∀ u f, u ≠ t → frames u = .found f → s'.fileIndex.lookup (calls u).path = some f)
    (trusted : ∀ f, (calls t).trusts frame = some f → f ∈ counted')
    (found : ∀ f, frame = .found f → s'.fileIndex.lookup (calls t).path = some f)
    (window : ∀ f, frame = .window f → (calls t).writes = true) :
    Custody calls counted' (Function.update frames t frame) s' := by
  constructor
  · exact below
  · exact fun {path f} => indexed path f
  · intro u f has
    rcases eq_or_ne u t with rfl | differ
    · rw [Function.update_self] at has
      exact trusted f has
    · rw [Function.update_of_ne differ] at has
      exact kept u f differ has
  · intro u f has
    rcases eq_or_ne u t with rfl | differ
    · rw [Function.update_self] at has
      exact found f has
    · rw [Function.update_of_ne differ] at has
      exact index u f differ has
  · intro u f has
    rcases eq_or_ne u t with rfl | differ
    · rw [Function.update_self] at has
      exact window f has
    · rw [Function.update_of_ne differ] at has
      exact custody.window has

/-- A step that leaves the index alone. -/
theorem quiet (custody : Custody calls counted frames s) (fileIndex : s'.fileIndex = s.fileIndex)
    (nextFile : s'.nextFile = s.nextFile)
    (trusted : ∀ f, (calls t).trusts frame = some f → f ∈ counted)
    (found : ∀ f, frame = .found f → s.fileIndex.lookup (calls t).path = some f)
    (window : ∀ f, frame ≠ .window f) : Custody calls counted (Function.update frames t frame) s' := by
  refine custody.step ?_ ?_ (fun u f _ => custody.trusted) ?_ trusted ?_
    fun f here => absurd here (window f)
  · rw [nextFile]
    exact custody.below
  · rw [fileIndex]
    exact fun path f => custody.indexed
  · rw [fileIndex]
    exact fun u f _ => custody.found
  · rwa [fileIndex]

/-- A step within the entry in hand. -/
theorem inside (custody : Custody calls counted frames s) (fileIndex : s'.fileIndex = s.fileIndex)
    (nextFile : s'.nextFile = s.nextFile)
    (trusted : ∀ f, (calls t).trusts frame = some f → (calls t).trusts (frames t) = some f)
    (found : ∀ f, frame ≠ .found f) (window : ∀ f, frame ≠ .window f) :
    Custody calls counted (Function.update frames t frame) s' :=
  custody.quiet fileIndex nextFile (fun f has => custody.trusted (trusted f has))
    (fun f here => absurd here (found f)) window

end Custody

/-! ## The books -/

namespace Frame

/-- The entries of `blockCounts` to come. -/
def rest : Frame → List (BlockRef × ℤ)
  | .releasing _ _ rest => rest
  | _ => []

end Frame

section Books

variable [Fintype T]

structure Books (calls : T → Call) (counted : Finset FileRef) (frames : T → Frame) (s : Store) :
    Prop where
  accounts : Accounts counted frames s
  custody : Custody calls counted frames s
  gone : ∀ {t b}, (frames t).gone = some b → b < s.nextBlock ∧ b ∉ s.liveBlocks
  positive : ∀ {t}, ∀ entry ∈ (frames t).rest, 0 < entry.2
  noted : ∀ {t}, ∀ b ∈ (frames t).created, b ∈ (frames t).blocks
  apart : ∀ {t u b}, b ∈ (frames t).created → b ∈ (frames u).created → u = t

namespace Books

variable {calls : T → Call} {counted counted' : Finset FileRef} {frames : T → Frame}
variable {s s' : Store} {t : T} {frame : Frame} {f : FileRef}

theorem step (books : Books calls counted frames s)
    (accounts : Accounts counted' (Function.update frames t frame) s')
    (custody : Custody calls counted' (Function.update frames t frame) s')
    (nextBlock : s.nextBlock ≤ s'.nextBlock)
    (live : ∀ b < s.nextBlock, b ∈ s'.liveBlocks → b ∈ s.liveBlocks)
    (gone : ∀ b, frame.gone = some b → b < s'.nextBlock ∧ b ∉ s'.liveBlocks)
    (positive : ∀ entry ∈ frame.rest, 0 < entry.2)
    (noted : ∀ b ∈ frame.created, b ∈ frame.blocks)
    (apart : ∀ b ∈ frame.created, b ∈ (frames t).created ∨ ∀ u, b ∉ (frames u).created) :
    Books calls counted' (Function.update frames t frame) s' := by
  constructor
  · exact accounts
  · exact custody
  · intro u b left
    rcases eq_or_ne u t with rfl | differ
    · rw [Function.update_self] at left
      exact gone b left
    · rw [Function.update_of_ne differ] at left
      obtain ⟨created, out⟩ := books.gone left
      exact ⟨created.trans_le nextBlock, fun back => out (live b created back)⟩
  · intro u
    rcases eq_or_ne u t with rfl | differ
    · rwa [Function.update_self]
    · rw [Function.update_of_ne differ]
      exact books.positive
  · intro u
    rcases eq_or_ne u t with rfl | differ
    · rwa [Function.update_self]
    · rw [Function.update_of_ne differ]
      exact books.noted
  · have before : ∀ {u b}, b ∈ (Function.update frames t frame u).created →
        b ∈ (frames u).created ∨ u = t ∧ ∀ v, b ∉ (frames v).created := by
      intro u b member
      rcases eq_or_ne u t with rfl | differ
      · rw [Function.update_self] at member
        exact (apart b member).imp_right fun fresh => ⟨rfl, fresh⟩
      · rw [Function.update_of_ne differ] at member
        exact Or.inl member
    intro u v b mine theirs
    rcases before mine with old | ⟨rfl, fresh⟩ <;> rcases before theirs with old' | ⟨rfl, fresh'⟩
    · exact books.apart old old'
    · exact absurd old (fresh' u)
    · exact absurd old' (fresh v)
    · rfl

/-- A step of a call that creates and releases nothing. -/
theorem plain (books : Books calls counted frames s)
    (accounts : Accounts counted' (Function.update frames t frame) s')
    (custody : Custody calls counted' (Function.update frames t frame) s')
    (nextBlock : s'.nextBlock = s.nextBlock) (blockIndex : s'.blockIndex = s.blockIndex)
    (gone : frame.gone = none) (rest : frame.rest = []) (created : frame.created = []) :
    Books calls counted' (Function.update frames t frame) s' := by
  refine books.step accounts custody nextBlock.ge ?_ ?_ ?_ ?_ ?_
  · intro b _ member
    rwa [Store.liveBlocks, blockIndex] at member
  · intro b left
    rw [gone] at left
    cases left
  · rw [rest]
    exact fun entry member => absurd member List.not_mem_nil
  · rw [created]
    exact fun b member => absurd member List.not_mem_nil
  · rw [created]
    exact fun b member => absurd member List.not_mem_nil

/-- A step that changes no block and no list. -/
theorem quiet (books : Books calls counted frames s) (blocks : SameBlocks s s')
    (lists : ∀ g, (s'.files g).blockList = (s.files g).blockList)
    (owed : ∀ b, frame.owed (listed counted s) b ≤ (frames t).owed (listed counted s) b)
    (was : (frames t).gone = none ∧ (frames t).created = [])
    (is : frame.gone = none ∧ frame.created = []) (rest : frame.rest = [])
    (custody : Custody calls counted (Function.update frames t frame) s') :
    Books calls counted (Function.update frames t frame) s' := by
  have counts : listed counted s' = listed counted s := by
    funext g b
    unfold listed
    rw [lists]
  refine books.plain (books.accounts.quiet blocks (fun b => by simp only [lists])
    (fun _ _ _ _ _ => by rw [counts]) (fun b => ?_) (is.2.trans was.2.symm) (is.1.trans was.1.symm))
    custody blocks.nextBlock blocks.blockIndex is.1 rest is.2
  rw [counts]
  exact owed b

/-- Only the frame changes. -/
theorem turn (books : Books calls counted frames s)
    (owed : ∀ b, frame.owed (listed counted s) b ≤ (frames t).owed (listed counted s) b)
    (was : (frames t).gone = none ∧ (frames t).created = [])
    (is : frame.gone = none ∧ frame.created = []) (rest : frame.rest = [])
    (custody : Custody calls counted (Function.update frames t frame) s) :
    Books calls counted (Function.update frames t frame) s :=
  books.quiet (.refl s) (fun _ => rfl) owed was is rest custody

/-- A step of a call that only looks, or lets go of what it has. -/
theorem within {before : Frame} (books : Books calls counted frames s) (here : frames t = before)
    (was : before.gone = none ∧ before.created = []) (is : frame.gone = none ∧ frame.created = [])
    (owed : ∀ b, frame.owed (listed counted s) b = 0) (rest : frame.rest = [])
    (trusted : ∀ f, (calls t).trusts frame = some f → (calls t).trusts before = some f)
    (found : ∀ f, frame ≠ .found f) (window : ∀ f, frame ≠ .window f) :
    Books calls counted (Function.update frames t frame) s := by
  subst here
  refine books.turn (fun b => ?_) was is rest (books.custody.inside rfl rfl trusted found window)
  rw [owed]
  exact Nat.zero_le _

end Books

end Books

/-! ## What the moves need -/

/-- The entries of `blockCounts` add up to the list. -/
theorem tally_of_nodup {entries : List (BlockRef × ℤ)} (nodup : (entries.map Prod.fst).Nodup)
    {b : BlockRef} {k : ℤ} (member : (b, k) ∈ entries) : tally b entries = k.toNat := by
  induction entries with
  | nil => exact absurd member List.not_mem_nil
  | cons entry entries ih =>
      rw [List.map_cons, List.nodup_cons] at nodup
      show (if entry.1 = b then entry.2.toNat else 0) + tally b entries = _
      rcases List.mem_cons.mp member with rfl | later
      · have none_ : tally b entries = 0 := by
          refine List.sum_eq_zero fun n inside => ?_
          obtain ⟨other, listed, rfl⟩ := List.mem_map.mp inside
          refine if_neg fun same => nodup.1 ?_
          exact List.mem_map.mpr ⟨other, listed, same⟩
        rw [if_pos rfl, none_, Nat.add_zero]
      · have differ : entry.1 ≠ b := by
          rintro rfl
          exact nodup.1 (List.mem_map.mpr ⟨_, later, rfl⟩)
        rw [if_neg differ, Nat.zero_add, ih nodup.2 later]

theorem tally_of_tallies {blockList : List BlockRef} {entries : List (BlockRef × ℤ)}
    (tallies : Tallies blockList entries) (b : BlockRef) :
    tally b entries = blockList.count b := by
  by_cases listed : b ∈ blockList
  · obtain ⟨⟨c, k⟩, member, rfl⟩ := List.mem_map.mp ((tallies.mem b).mpr listed)
    have k_eq : k = (blockList.count c : ℤ) := tallies.count _ member
    rw [tally_of_nodup tallies.nodup member, k_eq, Int.toNat_natCast]
  · rw [List.count_eq_zero_of_not_mem listed]
    refine List.sum_eq_zero fun n inside => ?_
    obtain ⟨entry, member, rfl⟩ := List.mem_map.mp inside
    refine if_neg fun same => listed ?_
    rw [← tallies.mem, ← same]
    exact List.mem_map_of_mem member

theorem positive_of_tallies {blockList : List BlockRef} {entries : List (BlockRef × ℤ)}
    (tallies : Tallies blockList entries) {entry : BlockRef × ℤ} (member : entry ∈ entries) :
    0 < entry.2 := by
  have listed := (tallies.mem entry.1).mp (List.mem_map_of_mem member)
  rw [tallies.count entry member]
  exact_mod_cast List.count_pos_iff.mpr listed

/-- A counter that does not wrap around has room for a reference more. -/
theorem Small.room {s : Store} {frame' : Frame} {b : BlockRef}
    (small : Small s frame' (raiseCounter b s)) (fits : (s.blocks b).counter < 2 ^ 31) :
    (s.blocks b).counter + 1 < 2 ^ 31 := by
  by_contra full
  have last : (s.blocks b).counter = 2 ^ 31 - 1 := by omega
  have wraps : int32 (2 ^ 31 - 1 + 1) = -2 ^ 31 := by decide
  refine small.counters b last ?_
  rw [raiseCounter, Store.setBlock_blocks_self, last, wraps]

theorem findFile_of_lookup {s : Store} {path : Path} {f : FileRef}
    (entry : s.fileIndex.lookup path = some f) : findFile path s = (f, s) := by
  unfold findFile
  simp only [entry]

theorem findFile_of_none {s : Store} {path : Path} (entry : s.fileIndex.lookup path = none) :
    findFile path s = (s.nextFile, createFile path s) := by
  unfold findFile
  simp only [entry]

theorem lookupBlock_absent {s : Store} {tables : WriteTables} {hash : BlockId}
    (entry : s.blockIndex.lookup hash = none) :
    lookupBlock (tables, s) hash =
      ({ tables with my_created_blocks := s.nextBlock :: tables.my_created_blocks }.note
        (createBlock hash s) s.nextBlock, createBlock hash s) := by
  unfold lookupBlock
  simp only [entry]

section Lists

variable (f : FileRef) (s : Store)

theorem growFile_sameBlocks (err offset : ℤ) (size : ℕ) :
    SameBlocks s (growFile f err offset size s) := by
  obtain ⟨logicalSize, same⟩ := growFile_eq f err offset size s
  rw [same]
  exact ⟨rfl, rfl, rfl, rfl, rfl⟩

theorem growFile_lists (err offset : ℤ) (size : ℕ) (g : FileRef) :
    ((growFile f err offset size s).files g).blockList = (s.files g).blockList := by
  obtain ⟨logicalSize, same⟩ := growFile_eq f err offset size s
  rw [same]
  rcases eq_or_ne g f with rfl | differ
  · rw [Store.setFile_files_self]
  · rw [Store.setFile_files_ne s _ differ]

theorem growFile_nextFile (err offset : ℤ) (size : ℕ) :
    (growFile f err offset size s).nextFile = s.nextFile := by
  obtain ⟨logicalSize, same⟩ := growFile_eq f err offset size s
  rw [same]
  rfl

theorem reinsertFile_sameBlocks (path : Path) : SameBlocks s (reinsertFile path f s) := by
  obtain ⟨fileIndex, files, rest⟩ := reinsertFile_rest path f s
  rw [rest]
  exact ⟨rfl, rfl, rfl, rfl, rfl⟩

theorem reinsertFile_lists (path : Path) (g : FileRef) :
    ((reinsertFile path f s).files g).blockList = (s.files g).blockList := by
  obtain ⟨freed, same, -⟩ := reinsertFile_files path f s g
  rw [same]

theorem freeFilemeta_lists (g : FileRef) :
    ((freeFilemeta f s).files g).blockList = (s.files g).blockList := by
  rcases eq_or_ne g f with rfl | differ
  · rw [freeFilemeta, Store.setFile_files_self]
  · rw [freeFilemeta, Store.setFile_files_ne s _ differ]

end Lists

/-- The files that count after a step: an entry a write has found or created counts, and one
an unlink begins to release no longer does. -/
def recount (counted : Finset FileRef) (before after : Frame) : Finset FileRef :=
  match after with
  | .window f => insert f counted
  | .releasing f _ _ =>
      match before with
      | .removing _ => counted.erase f
      | _ => counted
  | _ => counted

section Moves

variable [Fintype T] {SHA512 : Page → BlockId} {calls : T → Call} {ids : BlockRef → BlockId}
variable {clause : Clause T} {held : T → List (Lock × Mode)} {counted : Finset FileRef}
variable {frames : T → Frame} {s s' : Store} {t : T} {frame' : Frame} {f : FileRef}

omit [DecidableEq T] in
/-- A write has locked, or will lock, every block it lists. -/
theorem Books.locked (books : Books calls counted frames s) (pointers : Pointers ids frames s)
    {tables : WriteTables} {phase : Phase} {hashes : List BlockId}
    (here : frames t = .writing f tables phase) (noted : Noted ids hashes tables) {b : BlockRef}
    (member : b ∈ tables.newBlocksInfo) :
    b ∈ tables.lockedBlocks.entries.map fun entry => entry.2 := by
  have indexed : ∀ {c}, c ∈ tables.newBlocksInfo → s.blockIndex.lookup (ids c) = some c := by
    intro c inside
    have found := Ledger.indexed books.accounts (refs_pos_of_writing here inside)
    have name := (pointers.indexed found).2
    rwa [name]
  have seen : ids b ∈ hashes := by
    rw [← noted.info]
    exact List.mem_map_of_mem member
  obtain ⟨c, locked⟩ := Option.ne_none_iff_exists'.mp ((noted.locked (ids b)).mpr seen)
  obtain ⟨name, inside⟩ := noted.keyed locked
  have same := indexed inside
  rw [name, indexed member] at same
  rw [mem_lockedBlocks]
  exact ⟨ids b, by rw [locked, Option.some.inj same]⟩

omit [DecidableEq T] [Fintype T] in
/-- A new entry lists nothing. -/
theorem createFile_lists (below : ∀ f ∈ counted, f < s.nextFile) (path : Path) (b : BlockRef) :
    ∑ f ∈ insert s.nextFile counted, ((createFile path s).files f).blockList.count b =
      ∑ f ∈ counted, (s.files f).blockList.count b := by
  have fresh : s.nextFile ∉ counted := fun member => lt_irrefl _ (below _ member)
  have new : ((createFile path s).files s.nextFile).blockList = [] := by
    show (Function.update s.files s.nextFile _ s.nextFile).blockList = []
    rw [Function.update_self]
    rfl
  rw [Finset.sum_insert fresh, new, List.count_nil, Nat.zero_add]
  refine Finset.sum_congr rfl fun f member => ?_
  have old : (createFile path s).files f = s.files f := Function.update_of_ne (below f member).ne _ _
  rw [old]

/-- A new entry counts. -/
theorem Books.create (books : Books calls counted frames s) {path : Path} (was : frames t = .outside)
    (writes : (calls t).writes = true) (alone : ∀ u f, frames u ≠ .found f)
    (reached : ∀ u f, (frames u).writes = some f → f < s.nextFile) :
    Books calls (insert s.nextFile counted) (Function.update frames t (.window s.nextFile))
      (createFile path s) := by
  have old : ∀ f < s.nextFile, (createFile path s).files f = s.files f := fun f below =>
    Function.update_of_ne below.ne _ _
  have lists := createFile_lists books.custody.below path
  refine books.plain (books.accounts.quiet ⟨rfl, rfl, rfl, rfl, rfl⟩ lists ?_ (fun _ => Nat.zero_le _)
    (by rw [was]; rfl) (by rw [was]; rfl)) ?_ rfl rfl rfl rfl rfl
  · intro u _ f inside b
    have below := reached u f inside
    unfold listed
    simp only [Finset.mem_insert, below.ne, false_or, old f below]
  · refine books.custody.step (fun f member => ?_) (fun other f found => ?_) (fun u f _ has => ?_)
      (fun u f _ here => absurd here (alone u f)) (fun f has => by cases has)
      (fun f here => by cases here) fun f _ => writes
    · rcases Finset.mem_insert.mp member with rfl | before
      · exact Nat.lt_succ_self s.nextFile
      · exact Nat.lt_succ_of_lt (books.custody.below f before)
    · have found : (s.fileIndex.insert path s.nextFile).lookup other = some f := found
      by_cases same : other = path
      · rw [same, AList.lookup_insert] at found
        rw [Option.some.inj found]
        exact Finset.mem_insert_self _ _
      · rw [AList.lookup_insert_ne same] at found
        exact Finset.mem_insert_of_mem (books.custody.indexed found)
    · exact Finset.mem_insert_of_mem (books.custody.trusted has)

/-- A write finds a block. -/
theorem Books.raise (books : Books calls counted frames s) {tables : WriteTables} {hash : BlockId}
    {b : BlockRef} (here : frames t = .writing f tables .looking)
    (found : s.blockIndex.lookup hash = some b) (room : (s.blocks b).counter + 1 < 2 ^ 31) :
    Books calls counted (Function.update frames t
      (.writing f (tables.note (raiseCounter b s) b) .looking)) (raiseCounter b s) := by
  have noted := @books.noted t
  rw [here] at noted
  refine books.step (books.accounts.raise here found room) ?_ le_rfl (fun _ _ member => member)
    (fun _ left => by cases left) (fun _ member => absurd member List.not_mem_nil)
    (fun c member => ?_) fun c member => ?_
  · exact books.custody.inside rfl rfl (fun g has => by cases has) (fun g same => by cases same)
      fun g same => by cases same
  · exact List.mem_append_left _ (noted c member)
  · rw [here]
    exact Or.inl member

/-- A write creates a block. -/
theorem Books.make (books : Books calls counted frames s) {tables : WriteTables} {hash : BlockId}
    (here : frames t = .writing f tables .looking) (absent : s.blockIndex.lookup hash = none) :
    Books calls counted (Function.update frames t (.writing f
      ({ tables with my_created_blocks := s.nextBlock :: tables.my_created_blocks }.note
        (createBlock hash s) s.nextBlock) .looking)) (createBlock hash s) := by
  have noted := @books.noted t
  rw [here] at noted
  have fresh : ∀ u, s.nextBlock ∉ (frames u).created := by
    intro u member
    obtain ⟨hash, found⟩ := Store.mem_liveBlocks.mp (Ledger.waiting books.accounts ⟨u, member⟩)
    exact lt_irrefl _ (Ledger.fresh books.accounts found)
  refine books.step (books.accounts.create here absent fun u b left => (books.gone left).1) ?_
    (Nat.le_succ _) (fun c below member => ?_) (fun _ left => by cases left)
    (fun _ member => absurd member List.not_mem_nil) (fun c member => ?_) fun c member => ?_
  · exact books.custody.inside rfl rfl (fun g has => by cases has) (fun g same => by cases same)
      fun g same => by cases same
  · rw [Ledger.createBlock_liveBlocks absent] at member
    exact (List.mem_cons.mp member).resolve_left below.ne
  · rcases List.mem_cons.mp member with rfl | old
    · exact List.mem_append_right _ (List.mem_singleton_self _)
    · exact List.mem_append_left _ (noted c old)
  · rw [here]
    rcases List.mem_cons.mp member with rfl | old
    · exact Or.inr fresh
    · exact Or.inl old

/-- The blocks of a write get their offsets. -/
theorem Books.place (books : Books calls counted frames s) (pointers : Pointers ids frames s)
    {tables : WriteTables} {hashes : List BlockId} {blocks_to_lock : List BlockRef}
    (here : frames t = .writing f tables .looking) (noted : Noted ids hashes tables)
    (perm : blocks_to_lock.Perm (tables.lockedBlocks.entries.map fun entry => entry.2)) :
    Books calls counted (Function.update frames t (.writing f tables (.placed 0)))
      (assignOffsets blocks_to_lock tables.my_created_blocks s) := by
  have only := assignOffsets_offsetsOnly blocks_to_lock tables.my_created_blocks s
  have nodup : blocks_to_lock.Nodup :=
    perm.nodup_iff.mpr (List.Nodup.of_map _ (keyed_nodup fun found => (noted.keyed found).1))
  have locked : ∀ b ∈ tables.my_created_blocks, b ∈ blocks_to_lock := fun b member =>
    perm.mem_iff.mpr (books.locked pointers here noted (noted.created b member))
  refine books.plain (books.accounts.place here nodup locked (fun u b => books.apart)
    fun u b left => (books.gone left).2) ?_ only.nextBlock only.blockIndex rfl rfl rfl
  exact books.custody.inside only.fileIndex only.nextFile (fun g has => by cases has)
    (fun g same => by cases same) fun g same => by cases same

/-- An unlink begins to release its file, which nobody else has. -/
theorem Books.counts (books : Books calls counted frames s) (entries : Entries frames s)
    {rest : List (BlockRef × ℤ)} (here : frames t = .removing f)
    (tallies : Tallies (s.files f).blockList rest)
    (alone : ∀ u, (frames u).locked = some f → u = t) :
    Books calls (counted.erase f) (Function.update frames t (.releasing f none rest)) s := by
  have mine : (frames t).unlinked = some f := by rw [here]; rfl
  have member : f ∈ counted := by
    refine books.custody.trusted (t := t) ?_
    rw [here]
    rfl
  have writes : ∀ u, u ≠ t → (frames u).writes ≠ some f := fun u differ inside =>
    differ (alone u (Frame.locked_of_writes inside))
  refine books.step (books.accounts.counts here member (tally_of_tallies tallies) writes) ?_ le_rfl
    (fun _ _ live => live) (fun _ left => by cases left) (fun _ inside => positive_of_tallies tallies inside)
    (fun _ created => absurd created List.not_mem_nil)
    fun _ created => absurd created List.not_mem_nil
  refine books.custody.step ?_ (fun path g found => ?_) (fun u g differ has => ?_)
    (fun u g _ => books.custody.found) (fun g has => by cases has) (fun g same => by cases same)
    fun g same => by cases same
  · exact fun g inside => books.custody.below g (Finset.mem_of_mem_erase inside)
  · refine Finset.mem_erase.mpr ⟨?_, books.custody.indexed found⟩
    rintro rfl
    exact entries.out mine path found
  · refine Finset.mem_erase.mpr ⟨?_, books.custody.trusted has⟩
    rintro rfl
    rcases Call.locked_of_trusts has with inside | theirs
    · exact differ (alone u inside)
    · exact differ (entries.alone mine theirs)

/-- The release loop gives up the references to one block. -/
theorem Books.lower (books : Books calls counted frames s) {b : BlockRef} {n : ℤ}
    {rest : List (BlockRef × ℤ)} (here : frames t = .releasing f none ((b, n) :: rest)) :
    Books calls counted (Function.update frames t (.releasing f
      (if ((lowerCounter b n s).blocks b).counter = 0 then some b else none) rest))
      (lowerCounter b n s) := by
  have released := lowerCounter_released b n s
  have positive := @books.positive t
  rw [here] at positive
  have some_ : 0 < n := positive _ List.mem_cons_self
  have noted : ∀ u g tables, frames u = .writing g tables .looking →
      ∀ c ∈ tables.my_created_blocks, c ∈ tables.newBlocksInfo := by
    intro u g tables here
    have noted := @books.noted u
    rwa [here] at noted
  have accounts := books.accounts.lower here some_ noted
  have live : ∀ c, c ∈ (lowerCounter b n s).liveBlocks → c ∈ s.liveBlocks := by
    intro c member
    obtain ⟨hash, found⟩ := Store.mem_liveBlocks.mp member
    exact Store.mem_liveBlocks.mpr ⟨hash, released.lookup found⟩
  refine books.step accounts ?_ released.nextBlock.ge (fun c _ => live c) (fun c left => ?_)
    (fun entry member => positive entry (List.mem_cons_of_mem _ member))
    (fun _ created => absurd created List.not_mem_nil)
    fun _ created => absurd created List.not_mem_nil
  · exact books.custody.inside released.fileIndex released.nextFile (fun g has => by cases has)
      (fun g same => by cases same) fun g same => by cases same
  · replace left : (if ((lowerCounter b n s).blocks b).counter = 0 then some b else none) = some c :=
      left
    split_ifs at left with zero
    cases left
    have owes : 0 < (frames t).owed (listed counted s) b := by
      rw [here]
      show 0 < (if b = b then n.toNat else 0) + tally b rest
      rw [if_pos rfl]
      omega
    have found := Ledger.indexed books.accounts (refs_pos_of_owed owes)
    refine ⟨released.nextBlock ▸ Ledger.fresh books.accounts found, fun member => ?_⟩
    obtain ⟨hash, still⟩ := Store.mem_liveBlocks.mp member
    exact (Ledger.positive accounts still).ne' zero

/-- **Every move keeps the books**, while counters and lists stay small. -/
theorem Books.move (books : Books calls counted frames s) (entries : Entries frames s)
    (small : ∀ {frame' s'}, clause.allowed frames s t frame' s' → Small s frame' s')
    (move : Move SHA512 calls ids clause held frames s t frame' s') :
    Books calls (recount counted (frames t) frame') (Function.update frames t frame') s' := by
  cases move with
  | find turn =>
      have same : recount counted (frames t) (.ofLookup (s.fileIndex.lookup (calls t).path)) =
          counted := by
        cases s.fileIndex.lookup (calls t).path <;> rfl
      rw [same]
      refine books.turn (fun _ => ?_) ?_ ?_ ?_ ?_
      · cases s.fileIndex.lookup (calls t).path <;> exact Nat.zero_le _
      · rw [turn.here]
        exact ⟨rfl, rfl⟩
      · cases s.fileIndex.lookup (calls t).path <;> exact ⟨rfl, rfl⟩
      · cases s.fileIndex.lookup (calls t).path <;> rfl
      · refine books.custody.quiet rfl rfl (fun f has => ?_) (fun f has => ?_) fun f has => ?_ <;>
          cases entry : s.fileIndex.lookup (calls t).path with
          | none =>
              rw [entry] at has
              cases has
          | some g =>
              rw [entry] at has
              cases has
              try rfl
  | @create path buf offset call turn index =>
      have writes : (calls t).writes = true := by rw [call]; rfl
      have alone : ∀ u f, frames u ≠ .found f := fun u f here =>
        turn.alone index (fun g same => by cases same) u f (congrArg Frame.part here)
      cases entry : s.fileIndex.lookup path with
      | some g =>
          have same : recount counted (frames t) (.window g) = counted :=
            Finset.insert_eq_of_mem (books.custody.indexed entry)
          rw [findFile_of_lookup entry]
          show Books calls (recount counted (frames t) (.window g))
            (Function.update frames t (.window g)) s
          rw [same]
          refine books.turn (fun b => Nat.zero_le _) (by rw [turn.here]; exact ⟨rfl, rfl⟩)
            ⟨rfl, rfl⟩ rfl ?_
          exact books.custody.step books.custody.below (fun _ _ => books.custody.indexed)
            (fun _ _ _ => books.custody.trusted) (fun _ _ _ => books.custody.found)
            (fun f has => by cases has) (fun f here => by cases here) fun f _ => writes
      | none =>
          rw [findFile_of_none entry]
          exact books.create turn.here writes alone fun u f inside =>
            turn.pointers.files (Or.inr ⟨u, Frame.hand_of_writes inside⟩)
  | @enter f mode frame turn inHand lock =>
      refine books.turn (fun _ => Nat.zero_le _) ?_ ⟨rfl, rfl⟩ rfl ?_
      · rw [turn.here]
        rcases inHand with rfl | rfl <;> exact ⟨rfl, rfl⟩
      · refine books.custody.quiet rfl rfl (fun g has => ?_) (fun g here => by cases here)
          fun g here => by cases here
        unfold Call.trusts at has
        split_ifs at has with writes
        cases has
        rcases inHand with rfl | rfl
        · exact books.custody.indexed (books.custody.found turn.here)
        · exact absurd (books.custody.window turn.here) writes
  | @begin_ path buf offset f frame call turn inHand lock append =>
      refine books.within turn.here ?_ ⟨rfl, rfl⟩ (fun b => ?_) rfl
        (fun g has => by cases has) (fun g here => by cases here) fun g here => by cases here
      · rcases inHand with rfl | rfl <;> exact ⟨rfl, rfl⟩
      · rw [Frame.owed_looking]
        rfl
  | @leave f mode frame turn leaves =>
      refine books.within turn.here ?_ ⟨rfl, rfl⟩ (fun b => rfl) rfl
        (fun g has => by cases has) (fun g here => by cases here) fun g here => by cases here
      cases leaves <;> exact ⟨rfl, rfl⟩
  | @window path size offset f logicalSize strays call inside turn lock allowed =>
      refine books.within turn.here ⟨rfl, rfl⟩ ⟨rfl, rfl⟩ (fun b => rfl) rfl
        (fun g has => ?_) (fun g here => by cases here) fun g here => by cases here
      rw [call]
      exact has
  | @count path buf offset f tables seen hash rest b call hashes noted turn index found allowed =>
      exact books.raise turn.here found
        ((small allowed).room (Ledger.counterFits books.accounts found))
  | @lookup path buf offset f tables seen hash rest call hashes noted turn index named allowed =>
      cases entry : s.blockIndex.lookup hash with
      | some b =>
          rw [lookupBlock_indexed entry] at allowed ⊢
          exact books.raise turn.here entry
            ((small allowed).room (Ledger.counterFits books.accounts entry))
      | none =>
          rw [lookupBlock_absent entry]
          exact books.make turn.here entry
  | @place path buf offset f tables blocks_to_lock call noted perm turn =>
      exact books.place turn.pointers turn.here noted perm
  | @store path buf offset f tables i b page created out call noted block data left turn lock =>
      have appended := writeBlock_appended f out (b, page) created s
      refine books.plain (books.accounts.store turn.here block
        (fun u differ inside => differ (turn.writes_alone lock inside)) appended) ?_
        appended.nextBlock appended.blockIndex rfl rfl rfl
      exact books.custody.inside appended.fileIndex appended.nextFile (fun g has => by cases has)
        (fun g here => by cases here) fun g here => by cases here
  | @grow path buf offset f tables i err call noted outcome turn lock allowed =>
      refine books.quiet (growFile_sameBlocks f s _ _ _) (growFile_lists f s _ _ _) (fun b => ?_)
        (by rw [turn.here]; exact ⟨rfl, rfl⟩) ⟨rfl, rfl⟩ rfl ?_
      · rw [turn.here]
        exact max_le_max (Nat.zero_le _) le_rfl
      · exact books.custody.inside (growFile_fileIndex _ _ _ _ s) (growFile_nextFile f s _ _ _)
          (fun g has => by cases has) (fun g here => by cases here) fun g here => by cases here
  | finish call noted turn =>
      exact books.within turn.here ⟨rfl, rfl⟩ ⟨rfl, rfl⟩ (fun b => rfl) rfl
        (fun g has => by cases has) (fun g here => by cases here) fun g here => by cases here
  | @take path call turn index =>
      unfold takeFile
      cases entry : s.fileIndex.lookup path with
      | none =>
          exact books.within turn.here ⟨rfl, rfl⟩ ⟨rfl, rfl⟩ (fun b => rfl) rfl
            (fun g has => by cases has) (fun g here => by cases here) fun g here => by cases here
      | some f =>
          refine books.quiet ⟨rfl, rfl, rfl, rfl, rfl⟩ (fun _ => rfl)
            (fun _ => Nat.zero_le _) (by rw [turn.here]; exact ⟨rfl, rfl⟩) ⟨rfl, rfl⟩ rfl ?_
          refine books.custody.step books.custody.below (fun other g found => ?_)
            (fun _ _ _ => books.custody.trusted) (fun u g _ here => ?_) (fun g has => ?_)
            (fun g here => by cases here) fun g here => by cases here
          · exact books.custody.indexed (stealFile_lookup.mp found).2
          · exact absurd (congrArg Frame.part here)
              (turn.alone index (fun h same => by cases same) u g)
          · cases has
            exact books.custody.indexed entry
  | @fail path f call turn =>
      exact books.within turn.here ⟨rfl, rfl⟩ ⟨rfl, rfl⟩ (fun b => rfl) rfl
        (fun g has => has) (fun g here => by cases here) fun g here => by cases here
  | @restore path f call turn index =>
      refine books.quiet (reinsertFile_sameBlocks f s path) (reinsertFile_lists f s path)
        (fun b => Nat.zero_le _) (by rw [turn.here]; exact ⟨rfl, rfl⟩) ⟨rfl, rfl⟩ rfl ?_
      have nextFile : (reinsertFile path f s).nextFile = s.nextFile := by
        obtain ⟨fileIndex, files, rest⟩ := reinsertFile_rest path f s
        rw [rest]
      refine books.custody.step (by rw [nextFile]; exact books.custody.below)
        (fun other g found => ?_) (fun _ _ _ => books.custody.trusted) (fun u g _ here => ?_)
        (fun g has => by cases has) (fun g here => by cases here) fun g here => by cases here
      · rw [reinsertFile_lookup] at found
        split_ifs at found with own
        · cases found
          refine books.custody.trusted (t := t) ?_
          rw [turn.here]
          rfl
        · exact books.custody.indexed found
      · exact absurd (congrArg Frame.part here) (turn.alone index (fun h same => by cases same) u g)
  | @remove path f call turn =>
      exact books.within turn.here ⟨rfl, rfl⟩ ⟨rfl, rfl⟩ (fun b => rfl) rfl
        (fun g has => has) (fun g here => by cases here) fun g here => by cases here
  | @counts path f order strays call turn lock index allowed =>
      have short := (small allowed).lists f rfl
      have table : (countReferences f order strays s).1 =
          releaseOrder order (s.files f).blockList := by
        rw [countReferences, if_neg (by omega)]
      have gone : recount counted (frames t) (.releasing f none (releaseOrder order
          (s.files f).blockList)) = counted.erase f := by
        rw [turn.here]
        rfl
      rw [table, gone]
      refine books.counts entries turn.here (releaseOrder_tallies order _) fun u inside => ?_
      obtain ⟨mode, has⟩ := (turn.fits u).locked inside
      exact turn.exclusive lock has
  | @lower path f b ocorrencias rest call turn =>
      rw [turn.here]
      exact books.lower turn.here
  | @push path f b rest call turn =>
      have positive := @books.positive t
      rw [turn.here] at positive ⊢
      refine books.step (books.accounts.push turn.here) ?_ le_rfl (fun _ _ live => live)
        (fun _ left => by cases left) positive (fun _ created => absurd created List.not_mem_nil)
        fun _ created => absurd created List.not_mem_nil
      exact books.custody.inside rfl rfl (fun g has => by cases has) (fun g here => by cases here)
        fun g here => by cases here
  | @free path f b rest call turn =>
      have still : Function.update frames t (.releasing f none rest) = frames := by
        rw [← turn.here, Function.update_eq_self]
      rw [still, turn.here]
      have custody : Custody calls counted frames (freeBlockMeta b s) := ⟨books.custody.below,
        books.custody.indexed, books.custody.trusted, books.custody.found, books.custody.window⟩
      exact ⟨books.accounts.free b, custody, books.gone, books.positive, books.noted, books.apart⟩
  | @released path f call turn =>
      exact books.within turn.here ⟨rfl, rfl⟩ ⟨rfl, rfl⟩ (fun b => rfl) rfl
        (fun g has => by cases has) (fun g here => by cases here) fun g here => by cases here
  | @close path f call turn =>
      refine books.quiet ⟨rfl, rfl, rfl, rfl, rfl⟩ (freeFilemeta_lists f s) (fun b => Nat.zero_le _)
        (by rw [turn.here]; exact ⟨rfl, rfl⟩) ⟨rfl, rfl⟩ rfl ?_
      exact books.custody.inside rfl rfl (fun g has => by cases has) (fun g here => by cases here)
        fun g here => by cases here

end Moves

/-! ## Runs -/

/-- The files of the index. -/
def indexedFiles (s : Store) : Finset FileRef :=
  s.paths.image fun path => (s.fileIndex.lookup path).getD 0

theorem mem_indexedFiles {s : Store} {f : FileRef} :
    f ∈ indexedFiles s ↔ ∃ path, s.fileIndex.lookup path = some f := by
  rw [indexedFiles, Finset.mem_image]
  constructor
  · rintro ⟨path, member, rfl⟩
    obtain ⟨g, found⟩ := Option.ne_none_iff_exists'.mp (Store.mem_paths.mp member)
    exact ⟨path, by rw [found, Option.getD_some]⟩
  · rintro ⟨path, found⟩
    refine ⟨path, Store.mem_paths.mpr ?_, by rw [found, Option.getD_some]⟩
    rw [found]
    exact Option.some_ne_none f

/-- The references are those of the files of the index. -/
theorem references_eq {s : Store} (once : ∀ {path path' f}, s.fileIndex.lookup path = some f →
      s.fileIndex.lookup path' = some f → path' = path) (b : BlockRef) :
    s.references b = ∑ f ∈ indexedFiles s, (s.files f).blockList.count b := by
  rw [indexedFiles, Finset.sum_image, Store.references]
  · refine Finset.sum_congr rfl fun path member => ?_
    obtain ⟨f, found⟩ := Option.ne_none_iff_exists'.mp (Store.mem_paths.mp member)
    rw [Store.listAt_of_lookup found, found, Option.getD_some]
  · intro path member path' member' same
    obtain ⟨f, found⟩ := Option.ne_none_iff_exists'.mp (Store.mem_paths.mp member)
    obtain ⟨g, found'⟩ := Option.ne_none_iff_exists'.mp (Store.mem_paths.mp member')
    have same : (s.fileIndex.lookup path).getD 0 = (s.fileIndex.lookup path').getD 0 := same
    rw [found, found', Option.getD_some, Option.getD_some] at same
    exact (once found (same ▸ found')).symm

section Start

variable [Fintype T] {s : Store}

omit [DecidableEq T] in
/-- When no call is running, the references are those of the files of the index. -/
theorem refs_idle {frames : T → Frame} (once : ∀ {path path' f}, s.fileIndex.lookup path = some f →
      s.fileIndex.lookup path' = some f → path' = path)
    (idle : ∀ t listed b, (frames t).owed listed b = 0) (b : BlockRef) :
    refs (indexedFiles s) frames s b = s.references b := by
  have none_ : ∑ t, (frames t).owed (listed (indexedFiles s) s) b = 0 :=
    Finset.sum_eq_zero fun t _ => idle t _ b
  rw [refs, none_, Nat.add_zero, references_eq once]

omit [DecidableEq T] in
theorem transit_idle {frames : T → Frame} (idle : ∀ t, (frames t).gone = none) :
    transit frames s = [] := by
  have none_ : ∑ t, (frames t).transit s = 0 := by
    refine Finset.sum_eq_zero fun t _ => ?_
    rw [Frame.transit, idle]
    rfl
  rw [transit, none_, Multiset.toList_zero]

omit [DecidableEq T] [Fintype T] in
theorem unplaced_idle {frames : T → Frame} (idle : ∀ t, (frames t).created = []) :
    unplaced frames = ∅ := by
  refine Set.eq_empty_iff_forall_notMem.mpr ?_
  rintro b ⟨t, member⟩
  rw [idle] at member
  exact absurd member List.not_mem_nil

omit [DecidableEq T] in
/-- Before any call has begun. -/
theorem Books.start (calls : T → Call) (accounted : Accounted s) :
    Books calls (indexedFiles s) (fun _ => .outside) s where
  accounts := by
    have once : ∀ {path path' f}, s.fileIndex.lookup path = some f →
        s.fileIndex.lookup path' = some f → path' = path := accounted.filed.path_eq
    unfold Accounts
    rw [unplaced_idle fun _ => rfl, transit_idle fun _ => rfl, funext (refs_idle once fun _ _ _ => rfl)]
    exact accounted.ledger
  custody := by
    constructor
    · intro f member
      obtain ⟨path, found⟩ := mem_indexedFiles.mp member
      exact accounted.filed.fresh found
    · exact fun {path f} found => mem_indexedFiles.mpr ⟨path, found⟩
    · exact fun {t f} has => by cases has
    · exact fun {t f} here => by cases here
    · exact fun {t f} here => by cases here
  gone left := by cases left
  positive entry member := absurd member List.not_mem_nil
  noted b member := absurd member List.not_mem_nil
  apart member := absurd member List.not_mem_nil

/-- A store on which no call is running. -/
structure AtRest (s : Store) : Prop where
  accounted : Accounted s
  sized : s.Sized
  alive : ∀ {path f}, s.fileIndex.lookup path = some f → (s.files f).freed = false

/-- The books, with what they rest on. -/
def Clause.books (calls : T → Call) : Clause T where
  keeps frames s := (∃ counted, Books calls counted frames s) ∧ Entries frames s ∧
    Sizing calls frames s
  allowed _ s t frame' s' := Small s frame' s' ∧ (calls t).Aligned

end Start

end ProjetoTSO.Codededup.Threads
