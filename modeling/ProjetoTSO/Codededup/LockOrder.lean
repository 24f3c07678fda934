import ProjetoTSO.Codededup.Threads

/-!
# The order of the locks

Every call takes `file_index_lock`, one file lock, `block_index_lock`, block locks in the
order of the hashes, `freeList_lock` and `offset_lock` in this order; before it takes
`file_index_lock` again it has released everything.  A block is ranked by its hash, which
never changes.

* `Fits` — how the locks a call holds show in its frame.
* `Pointers` — pointers in indexes, files and frames lead to blocks that were created.
* `Clause` — a property of the store and the frames.  A clause that every act preserves
  (`Clause.Preserved`) holds throughout every run (`Clause.Preserved.follows`), so what an
  act does is said once, for all that is to be proved of runs.
-/

namespace ProjetoTSO.Codededup.Threads

open CInt LockedPrograms FifoRwlock

/-! ## The order of the hashes -/

/-- The number a list of bytes stands for, most significant byte first. -/
def bigEndian : List UInt8 → ℕ
  | [] => 0
  | byte :: bytes => byte.toNat * 256 ^ bytes.length + bigEndian bytes

theorem bigEndian_lt (bytes : List UInt8) : bigEndian bytes < 256 ^ bytes.length := by
  induction bytes with
  | nil => exact Nat.one_pos
  | cons byte bytes ih =>
      have small : byte.toNat + 1 ≤ 256 := byte.toNat_lt
      have scaled := Nat.mul_le_mul_right (256 ^ bytes.length) small
      rw [Nat.add_mul, Nat.one_mul] at scaled
      rw [bigEndian, List.length_cons, Nat.pow_succ, Nat.mul_comm _ 256]
      omega

/-- The most significant byte decides. -/
theorem bigEndian_cons_lt {a b : UInt8} {as bs : List UInt8} (length : as.length = bs.length)
    (less : a.toNat < b.toNat) : bigEndian (a :: as) < bigEndian (b :: bs) := by
  have below := bigEndian_lt as
  have scaled := Nat.mul_le_mul_right (256 ^ bs.length) (Nat.succ_le_of_lt less)
  rw [Nat.succ_mul] at scaled
  rw [bigEndian, bigEndian, length]
  rw [length] at below
  omega

/-- `memcmp` compares numbers. -/
theorem memcmp_nonpos {as bs : List UInt8} (length : as.length = bs.length) :
    memcmp as bs ≤ 0 ↔ bigEndian as ≤ bigEndian bs := by
  induction as generalizing bs with
  | nil =>
      obtain rfl := List.length_eq_zero_iff.mp length.symm
      exact ⟨fun _ => le_rfl, fun _ => le_rfl⟩
  | cons a as ih =>
      cases bs with
      | nil => cases length
      | cons b bs =>
          have rest : as.length = bs.length := Nat.succ.inj length
          by_cases same : a = b
          · rw [memcmp, if_pos same, ih rest, bigEndian, bigEndian, same, rest]
            exact (Nat.add_le_add_iff_left).symm
          · have differ : a.toNat ≠ b.toNat := fun equal => same (UInt8.toNat_inj.mp equal)
            rw [memcmp, if_neg same]
            rcases Nat.lt_or_gt_of_ne differ with less | greater
            · exact iff_of_true (by omega) (bigEndian_cons_lt rest less).le
            · exact iff_of_false (by omega) (bigEndian_cons_lt rest.symm greater).not_ge

theorem bigEndian_inj {as bs : List UInt8} (length : as.length = bs.length)
    (equal : bigEndian as = bigEndian bs) : as = bs := by
  induction as generalizing bs with
  | nil => exact (List.length_eq_zero_iff.mp length.symm).symm
  | cons a as ih =>
      cases bs with
      | nil => cases length
      | cons b bs =>
          have rest : as.length = bs.length := Nat.succ.inj length
          have same : a = b := by
            by_contra differ
            rcases Nat.lt_or_gt_of_ne fun equal => differ (UInt8.toNat_inj.mp equal) with less | more
            · exact absurd equal (bigEndian_cons_lt rest less).ne
            · exact absurd equal (bigEndian_cons_lt rest.symm more).ne'
          rw [bigEndian, bigEndian, same, rest, Nat.add_left_cancel_iff] at equal
          rw [same, ih rest equal]

/-- The place of a hash in the order. -/
def place (hash : BlockId) : ℕ := bigEndian hash.toList

theorem place_lt (hash : BlockId) : place hash < 256 ^ 64 := by
  have below := bigEndian_lt hash.toList
  rwa [List.Vector.toList_length] at below

theorem place_inj {hash hash' : BlockId} (equal : place hash = place hash') : hash = hash' :=
  List.Vector.eq _ _ (bigEndian_inj (by simp) equal)

theorem compare_blocks_nonpos (s : Store) (a b : BlockRef) :
    compare_blocks s a b ≤ 0 ↔ place (s.blocks a).id ≤ place (s.blocks b).id :=
  memcmp_nonpos (by simp)

/-- Blocks with different hashes are sorted strictly. -/
theorem sorted_strictly {s : Store} {blocks : List BlockRef}
    (distinct : (blocks.map fun b => (s.blocks b).id).Nodup) :
    (blocks.insertionSort fun a b => compare_blocks s a b ≤ 0).Pairwise
      fun a b => place (s.blocks a).id < place (s.blocks b).id := by
  have total : Std.Total fun a b => compare_blocks s a b ≤ 0 := ⟨fun a b => by
    rw [compare_blocks_nonpos, compare_blocks_nonpos]
    exact Nat.le_total _ _⟩
  have transitive : IsTrans BlockRef fun a b => compare_blocks s a b ≤ 0 := ⟨fun a b c => by
    rw [compare_blocks_nonpos, compare_blocks_nonpos, compare_blocks_nonpos]
    exact Nat.le_trans⟩
  have perm := List.perm_insertionSort (fun a b => compare_blocks s a b ≤ 0) blocks
  have apart := List.pairwise_map.mp ((perm.map fun b => (s.blocks b).id).nodup_iff.mpr distinct)
  refine ((List.pairwise_insertionSort (fun a b => compare_blocks s a b ≤ 0) blocks).and
    apart).imp ?_
  rintro a b ⟨ordered, differ⟩
  rw [compare_blocks_nonpos] at ordered
  exact lt_of_le_of_ne ordered fun equal => differ (place_inj equal)

/-- A table of blocks under their hashes holds blocks with different hashes. -/
theorem keyed_nodup {table : GHashTable BlockId BlockRef} {key : BlockRef → BlockId}
    (keyed : ∀ {hash b}, table.lookup hash = some b → key b = hash) :
    ((table.entries.map fun entry => entry.2).map key).Nodup := by
  have keys : (table.entries.map fun entry => entry.2).map key = table.keys := by
    rw [List.map_map]
    refine List.map_congr_left fun entry member => ?_
    exact keyed (AList.mem_lookup_iff.mpr member)
  exact keys ▸ table.keys_nodup

/-! ## Ranks -/

/-- The place of a lock in the order, if `ids` are the hashes of the blocks. -/
def Lock.rank (ids : BlockRef → BlockId) : Lock → ℕ
  | .file_index_lock => 0
  | .file _ => 1
  | .block_index_lock => 2
  | .block b => 3 + place (ids b)
  | .freeList_lock => 3 + 256 ^ 64
  | .offset_lock => 4 + 256 ^ 64

theorem lt_block {ids : BlockRef → BlockId} {n : ℕ} (low : n ≤ 2) (b : BlockRef) :
    n < (Lock.block b).rank ids :=
  Nat.lt_of_lt_of_le (Nat.lt_succ_of_le low) (Nat.le_add_right 3 _)

theorem block_lt_freeList (ids : BlockRef → BlockId) (b : BlockRef) :
    (Lock.block b).rank ids < Lock.freeList_lock.rank ids :=
  Nat.add_lt_add_left (place_lt (ids b)) 3

/-! ## Frames, locks and pointers -/

namespace Frame

/-- The entry in hand. -/
def hand : Frame → Option FileRef
  | .found f => some f
  | .window f => some f
  | .entered f _ => some f
  | .reading f _ => some f
  | .writing f _ _ => some f
  | .stolen f => some f
  | .failed f => some f
  | .removing f => some f
  | .releasing f _ _ => some f
  | .released f => some f
  | _ => none

/-- The entry whose lock is held. -/
def locked : Frame → Option FileRef
  | .entered f _ => some f
  | .reading f _ => some f
  | .writing f _ _ => some f
  | .removing f => some f
  | .releasing f _ _ => some f
  | _ => none

/-- The blocks in hand. -/
def blocks : Frame → List BlockRef
  | .reading _ blocks => blocks
  | .writing _ tables _ => tables.newBlocksInfo
  | _ => []

/-- A call that ends with an entry as it is: it only looked at it, or could not write all
it was to. -/
inductive Leaves (f : FileRef) : Frame → Prop
  | entered (logicalSize : ℤ) : Leaves f (.entered f logicalSize)
  | reading (blocks : List BlockRef) : Leaves f (.reading f blocks)
  | writing (tables : WriteTables) {err : ℤ} (failed : err ≠ 0) :
      Leaves f (.writing f tables (.stored err))

end Frame

/-- How the locks a call holds show in its frame. -/
structure Fits (held : List (Lock × Mode)) (frame : Frame) : Prop where
  hand : ∀ {f mode}, (Lock.file f, mode) ∈ held → frame.hand = some f
  locked : ∀ {f}, frame.locked = some f → ∃ mode, (Lock.file f, mode) ∈ held
  found : ∀ {f}, frame = .found f → (Lock.file_index_lock, Mode.read) ∈ held
  blocks : ∀ {b mode}, (Lock.block b, mode) ∈ held →
    b ∈ frame.blocks ∨ (Lock.block_index_lock, Mode.write) ∈ held
  placed : ∀ {f tables k}, frame = .writing f tables (.placed k) →
    ∀ entry ∈ tables.lockedBlocks.entries, (Lock.block entry.2, Mode.write) ∈ held

theorem Fits.perm {held held' : List (Lock × Mode)} {frame : Frame} (perm : held.Perm held')
    (fits : Fits held frame) : Fits held' frame where
  hand member := fits.hand (perm.mem_iff.mpr member)
  locked lock := (fits.locked lock).imp fun _ => perm.mem_iff.mp
  found here := perm.mem_iff.mp (fits.found here)
  blocks member := (fits.blocks (perm.mem_iff.mpr member)).imp_right perm.mem_iff.mp
  placed here entry member := perm.mem_iff.mp (fits.placed here entry member)

variable {T : Type}

/-- The blocks of the store have the hashes `ids`. -/
def Named (ids : BlockRef → BlockId) (s : Store) : Prop :=
  ∀ b < s.nextBlock, (s.blocks b).id = ids b

/-- An entry that is in the index or in some call's hand. -/
def Reachable (frames : T → Frame) (s : Store) (f : FileRef) : Prop :=
  (∃ path, s.fileIndex.lookup path = some f) ∨ ∃ t, (frames t).hand = some f

/-- Pointers lead to objects that were created. -/
structure Pointers (ids : BlockRef → BlockId) (frames : T → Frame) (s : Store) : Prop where
  files : ∀ {f}, Reachable frames s f → f < s.nextFile
  listed : ∀ {f}, Reachable frames s f → ∀ b ∈ (s.files f).blockList, b < s.nextBlock
  indexed : ∀ {hash b}, s.blockIndex.lookup hash = some b → b < s.nextBlock ∧ ids b = hash
  named : Named ids s
  known : ∀ t, ∀ b ∈ (frames t).blocks, b < s.nextBlock

namespace Pointers

variable [DecidableEq T] {ids : BlockRef → BlockId} {frames : T → Frame} {s s' : Store} {t : T}
variable {frame : Frame}

/-- A step that adds to no list but blocks in hand, and to no index but what it created. -/
theorem step (pointers : Pointers ids frames s) (named : Named ids s')
    (nextFile : s.nextFile ≤ s'.nextFile) (nextBlock : s.nextBlock ≤ s'.nextBlock)
    (reachable : ∀ {f}, Reachable (Function.update frames t frame) s' f →
      Reachable frames s f ∨ f < s'.nextFile ∧ (s'.files f).blockList = [])
    (listed : ∀ {f b}, Reachable frames s f → b ∈ (s'.files f).blockList →
      b ∈ (s.files f).blockList ∨ b ∈ (frames t).blocks)
    (indexed : ∀ {hash b}, s'.blockIndex.lookup hash = some b →
      s.blockIndex.lookup hash = some b ∨ b < s'.nextBlock ∧ ids b = hash)
    (known : ∀ b ∈ frame.blocks, b ∈ (frames t).blocks ∨ b < s'.nextBlock) :
    Pointers ids (Function.update frames t frame) s' where
  files reach := by
    rcases reachable reach with before | ⟨new, -⟩
    · exact (pointers.files before).trans_le nextFile
    · exact new
  listed reach b member := by
    rcases reachable reach with before | ⟨-, empty⟩
    · rcases listed before member with old | mine
      · exact (pointers.listed before b old).trans_le nextBlock
      · exact (pointers.known t b mine).trans_le nextBlock
    · rw [empty] at member
      exact absurd member List.not_mem_nil
  indexed inside := by
    rcases indexed inside with before | new
    · exact ⟨(pointers.indexed before).1.trans_le nextBlock, (pointers.indexed before).2⟩
    · exact new
  named := named
  known u b member := by
    rcases eq_or_ne u t with rfl | differ
    · rw [Function.update_self] at member
      rcases known b member with mine | new
      · exact (pointers.known u b mine).trans_le nextBlock
      · exact new
    · rw [Function.update_of_ne differ] at member
      exact (pointers.known u b member).trans_le nextBlock

/-- Entries stay reachable when a call takes up what it had or what is indexed. -/
theorem reachable_update (index : ∀ {path f}, s'.fileIndex.lookup path = some f →
      Reachable frames s f)
    (hand : ∀ {f}, frame.hand = some f → Reachable frames s f) {f : FileRef}
    (reach : Reachable (Function.update frames t frame) s' f) : Reachable frames s f := by
  rcases reach with ⟨path, found⟩ | ⟨u, has⟩
  · exact index found
  · rcases eq_or_ne u t with rfl | differ
    · rw [Function.update_self] at has
      exact hand has
    · rw [Function.update_of_ne differ] at has
      exact Or.inr ⟨u, has⟩

/-- Only the frame changes. -/
theorem turn (pointers : Pointers ids frames s)
    (hand : ∀ {f}, frame.hand = some f → Reachable frames s f)
    (known : ∀ b ∈ frame.blocks, b ∈ (frames t).blocks ∨ b < s.nextBlock) :
    Pointers ids (Function.update frames t frame) s :=
  pointers.step pointers.named le_rfl le_rfl
    (fun reach => Or.inl (reachable_update (fun found => Or.inl ⟨_, found⟩) hand reach))
    (fun _ member => Or.inl member) Or.inl known

/-- A step within the entry in hand. -/
theorem inside (pointers : Pointers ids frames s) (named : Named ids s')
    (hand : frame.hand = (frames t).hand) (fileIndex : s'.fileIndex = s.fileIndex)
    (nextFile : s'.nextFile = s.nextFile) (nextBlock : s.nextBlock ≤ s'.nextBlock)
    (listed : ∀ {f b}, b ∈ (s'.files f).blockList →
      b ∈ (s.files f).blockList ∨ b ∈ (frames t).blocks)
    (indexed : ∀ {hash b}, s'.blockIndex.lookup hash = some b →
      s.blockIndex.lookup hash = some b ∨ b < s'.nextBlock ∧ ids b = hash)
    (known : ∀ b ∈ frame.blocks, b ∈ (frames t).blocks ∨ b < s'.nextBlock) :
    Pointers ids (Function.update frames t frame) s' := by
  refine pointers.step named nextFile.ge nextBlock (fun reach => Or.inl ?_)
    (fun _ member => listed member) indexed known
  refine reachable_update (fun found => Or.inl ⟨_, fileIndex ▸ found⟩) (fun has => ?_) reach
  exact Or.inr ⟨t, hand ▸ has⟩

end Pointers

/-! ## Clauses -/

def Call.path : Call → Path
  | .getattr path => path
  | .read path _ _ => path
  | .write path _ _ => path
  | .unlink path => path

/-- What a call has returned, and with which frame. -/
def Returns (call : Call) (frame : Frame) (result : Result) : Prop :=
  match call with
  | .getattr _ => frame = .outside
  | .read _ _ _ => frame = .outside
  | .write _ buf offset =>
      (∃ ret < 0, result = .status ret ∧ frame = .outside) ∨
        result = .status (int32 buf.length) ∧
          ∃ f newBlocksInfo, frame = .wrote f offset newBlocksInfo
  | .unlink _ =>
      (∃ ret, result = .status ret ∧ (ret = -EPERM ∨ ret = -ENOENT) ∧ frame = .outside) ∨
        (∃ errno : Errno, ∃ f, result = .status (-(errno : ℤ)) ∧ frame = .restored f) ∨
        ∃ f, result = .status 0 ∧ frame = .removed f

/-- A property of the store and the frames, in runs whose acts are `allowed`. -/
structure Clause (T : Type) where
  keeps : (T → Frame) → Store → Prop
  allowed : (T → Frame) → Store → T → Frame → Store → Prop

def Clause.discipline (calls : T → Call) (ids : BlockRef → BlockId) (clause : Clause T) :
    Discipline T Store Frame Lock Result ℕ where
  rank := Lock.rank ids
  fits := Fits
  fits_perm perm fits := fits.perm perm
  keeps frames s := Pointers ids frames s ∧ clause.keeps frames s
  allowed frames s t frame s' := Named ids s' ∧ clause.allowed frames s t frame s'
  returns t frame result := Returns (calls t) frame result

/-- The turn of a call whose frame is `frame`; `held` are the locks of each call. -/
structure Turn (clause : Clause T) (ids : BlockRef → BlockId) (held : T → List (Lock × Mode))
    (frames : T → Frame) (s : Store) (t : T) (frame : Frame) : Prop where
  keeps : clause.keeps frames s
  pointers : Pointers ids frames s
  fits : ∀ u, Fits (held u) (frames u)
  exclusive : Discipline.Exclusive held
  here : frames t = frame

/-- The tables of a write that has looked up the hashes `seen`. -/
structure Noted (ids : BlockRef → BlockId) (seen : List BlockId) (tables : WriteTables) :
    Prop where
  info : tables.newBlocksInfo.map ids = seen
  locked : ∀ hash, tables.lockedBlocks.lookup hash ≠ none ↔ hash ∈ seen
  keyed : ∀ {hash b}, tables.lockedBlocks.lookup hash = some b →
    ids b = hash ∧ b ∈ tables.newBlocksInfo
  created : ∀ b ∈ tables.my_created_blocks, b ∈ tables.newBlocksInfo
  nodup : tables.my_created_blocks.Nodup

variable [DecidableEq T]

/-- **Every act preserves the clause.**  One field for each act of the handlers, with the
locks it is done under. -/
structure Clause.Preserved (SHA512 : Page → BlockId) (calls : T → Call)
    (ids : BlockRef → BlockId) (clause : Clause T) : Prop where
  find : ∀ {held frames s t}, Turn clause ids held frames s t .outside →
    (Lock.file_index_lock, Mode.read) ∈ held t →
    clause.keeps (Function.update frames t (.ofLookup (s.fileIndex.lookup (calls t).path))) s
  create : ∀ {held frames s t path buf offset}, calls t = .write path buf offset →
    Turn clause ids held frames s t .outside → (Lock.file_index_lock, Mode.write) ∈ held t →
    clause.allowed frames s t (.window (findFile path s).1) (findFile path s).2 →
    clause.keeps (Function.update frames t (.window (findFile path s).1)) (findFile path s).2
  enter : ∀ {held frames s t f mode frame}, Turn clause ids held frames s t frame →
    frame = .found f ∨ frame = .window f → (Lock.file f, mode) ∈ held t →
    let logicalSize := (s.files f).logicalSize
    clause.allowed frames s t (.entered f logicalSize) s →
    clause.keeps (Function.update frames t (.entered f logicalSize)) s
  begin_ : ∀ {held frames s t path buf offset f frame}, calls t = .write path buf offset →
    Turn clause ids held frames s t frame → frame = .found f ∨ frame = .window f →
    (Lock.file f, Mode.write) ∈ held t → offset = (s.files f).logicalSize →
    clause.allowed frames s t (.writing f .empty .looking) s →
    clause.keeps (Function.update frames t (.writing f .empty .looking)) s
  leave : ∀ {held frames s t f mode frame}, Turn clause ids held frames s t frame →
    frame.Leaves f → (Lock.file f, mode) ∈ held t →
    clause.keeps (Function.update frames t .outside) s
  window : ∀ {held frames s t path size offset f logicalSize strays},
    calls t = .read path size offset → ¬ logicalSize ≤ offset →
    Turn clause ids held frames s t (.entered f logicalSize) →
    (Lock.file f, Mode.read) ∈ held t →
    let entries := readWindow f (startIndex offset)
      (endIndex offset (clampSize logicalSize offset size)) strays s
    clause.allowed frames s t (.reading f entries.1.2) s →
    clause.keeps (Function.update frames t (.reading f entries.1.2)) s
  count : ∀ {held frames s t path buf offset f tables seen hash rest b},
    calls t = .write path buf offset → blockHashes SHA512 buf = seen ++ hash :: rest →
    Noted ids seen tables → Turn clause ids held frames s t (.writing f tables .looking) →
    (Lock.block_index_lock, Mode.read) ∈ held t → s.blockIndex.lookup hash = some b →
    let tables' := tables.note (raiseCounter b s) b
    clause.allowed frames s t (.writing f tables' .looking) (raiseCounter b s) →
    clause.keeps (Function.update frames t (.writing f tables' .looking)) (raiseCounter b s)
  lookup : ∀ {held frames s t path buf offset f tables seen hash rest},
    calls t = .write path buf offset → blockHashes SHA512 buf = seen ++ hash :: rest →
    Noted ids seen tables → Turn clause ids held frames s t (.writing f tables .looking) →
    (Lock.block_index_lock, Mode.write) ∈ held t →
    let looked := lookupBlock (tables, s) hash
    Named ids looked.2 → clause.allowed frames s t (.writing f looked.1 .looking) looked.2 →
    clause.keeps (Function.update frames t (.writing f looked.1 .looking)) looked.2
  place : ∀ {held frames s t path buf offset f tables blocks_to_lock},
    calls t = .write path buf offset → Noted ids (blockHashes SHA512 buf) tables →
    blocks_to_lock.Perm (tables.lockedBlocks.entries.map fun entry => entry.2) →
    Turn clause ids held frames s t (.writing f tables .looking) →
    (∀ b ∈ blocks_to_lock, (Lock.block b, Mode.write) ∈ held t) →
    (Lock.block_index_lock, Mode.read) ∈ held t → (Lock.freeList_lock, Mode.write) ∈ held t →
    let s' := assignOffsets blocks_to_lock tables.my_created_blocks s
    clause.allowed frames s t (.writing f tables (.placed 0)) s' →
    clause.keeps (Function.update frames t (.writing f tables (.placed 0))) s'
  store : ∀ {held frames s t path buf offset f tables i b page created out},
    calls t = .write path buf offset → Noted ids (blockHashes SHA512 buf) tables →
    tables.newBlocksInfo[i]? = some b → (bufferPages buf)[i]? = some page →
    (∀ c, c ∈ created ↔ c ∈ tables.my_created_blocks ∧ c ∉ tables.newBlocksInfo.take i) →
    Turn clause ids held frames s t (.writing f tables (.placed i)) →
    (Lock.file f, Mode.write) ∈ held t →
    let s' := (writeBlock f out (b, page) created s).2.2
    clause.allowed frames s t (.writing f tables (.placed (i + 1))) s' →
    clause.keeps (Function.update frames t (.writing f tables (.placed (i + 1)))) s'
  grow : ∀ {held frames s t path buf offset f tables i err}, calls t = .write path buf offset →
    Noted ids (blockHashes SHA512 buf) tables →
    err = 0 ∧ i = tables.newBlocksInfo.length ∨ err < 0 →
    Turn clause ids held frames s t (.writing f tables (.placed i)) →
    (Lock.file f, Mode.write) ∈ held t →
    let s' := growFile f err offset buf.length s
    clause.allowed frames s t (.writing f tables (.stored err)) s' →
    clause.keeps (Function.update frames t (.writing f tables (.stored err))) s'
  finish : ∀ {held frames s t path buf offset f tables}, calls t = .write path buf offset →
    Noted ids (blockHashes SHA512 buf) tables →
    Turn clause ids held frames s t (.writing f tables (.stored 0)) →
    (Lock.file f, Mode.write) ∈ held t →
    clause.keeps (Function.update frames t (.wrote f offset tables.newBlocksInfo)) s
  take : ∀ {held frames s t path}, calls t = .unlink path →
    Turn clause ids held frames s t .outside → (Lock.file_index_lock, Mode.write) ∈ held t →
    let taken := takeFile path s
    let frame := (taken.1.map Frame.stolen).getD .outside
    clause.allowed frames s t frame taken.2 →
    clause.keeps (Function.update frames t frame) taken.2
  fail : ∀ {held frames s t path f}, calls t = .unlink path →
    Turn clause ids held frames s t (.stolen f) → (Lock.file f, Mode.write) ∈ held t →
    clause.allowed frames s t (.failed f) s →
    clause.keeps (Function.update frames t (.failed f)) s
  restore : ∀ {held frames s t path f}, calls t = .unlink path →
    Turn clause ids held frames s t (.failed f) → (Lock.file_index_lock, Mode.write) ∈ held t →
    clause.allowed frames s t (.restored f) (reinsertFile path f s) →
    clause.keeps (Function.update frames t (.restored f)) (reinsertFile path f s)
  remove : ∀ {held frames s t path f}, calls t = .unlink path →
    Turn clause ids held frames s t (.stolen f) → (Lock.file f, Mode.write) ∈ held t →
    clause.allowed frames s t (.removing f) s →
    clause.keeps (Function.update frames t (.removing f)) s
  counts : ∀ {held frames s t path f order strays}, calls t = .unlink path →
    Turn clause ids held frames s t (.removing f) → (Lock.file f, Mode.write) ∈ held t →
    (Lock.block_index_lock, Mode.write) ∈ held t →
    let counts := (countReferences f order strays s).1
    clause.allowed frames s t (.releasing f none counts) s →
    clause.keeps (Function.update frames t (.releasing f none counts)) s
  lower : ∀ {held frames s t path f b ocorrencias rest}, calls t = .unlink path →
    Turn clause ids held frames s t (.releasing f none ((b, ocorrencias) :: rest)) →
    (Lock.file f, Mode.write) ∈ held t → (Lock.block_index_lock, Mode.write) ∈ held t →
    (Lock.block b, Mode.write) ∈ held t →
    let s' := lowerCounter b ocorrencias s
    let gone := if (s'.blocks b).counter = 0 then some b else none
    clause.allowed frames s t (.releasing f gone rest) s' →
    clause.keeps (Function.update frames t (.releasing f gone rest)) s'
  push : ∀ {held frames s t path f b rest}, calls t = .unlink path →
    Turn clause ids held frames s t (.releasing f (some b) rest) →
    (Lock.block_index_lock, Mode.write) ∈ held t → (Lock.freeList_lock, Mode.write) ∈ held t →
    clause.allowed frames s t (.releasing f none rest) (pushFree b s) →
    clause.keeps (Function.update frames t (.releasing f none rest)) (pushFree b s)
  free : ∀ {held frames s t path f b rest}, calls t = .unlink path →
    Turn clause ids held frames s t (.releasing f none rest) →
    (Lock.block_index_lock, Mode.write) ∈ held t →
    clause.keeps frames (freeBlockMeta b s)
  released : ∀ {held frames s t path f}, calls t = .unlink path →
    Turn clause ids held frames s t (.releasing f none []) → (Lock.file f, Mode.write) ∈ held t →
    clause.keeps (Function.update frames t (.released f)) s
  close : ∀ {held frames s t path f}, calls t = .unlink path →
    Turn clause ids held frames s t (.released f) →
    clause.allowed frames s t (.removed f) (freeFilemeta f s) →
    clause.keeps (Function.update frames t (.removed f)) (freeFilemeta f s)

end ProjetoTSO.Codededup.Threads
