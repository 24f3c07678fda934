import ProjetoTSO.Codededup.OnePage
import ProjetoTSO.Codededup.Remount
import ProjetoTSO.Codededup.Unlink

/-!
# Accounting over whole sessions

The ledger holds between any two calls of a session, with the block lists as the
only references, whatever `posix_memalign`, `pwrite` and `unlink` did.  That the
live and the free offsets partition the backing file is one of its clauses.
-/

namespace ProjetoTSO.Codededup

open CInt ByteStream Transition Arena

/-- The invariant of a file system between two calls. -/
structure Accounted (s : Store) : Prop where
  ledger : Ledger s.references ∅ [] s
  filed : s.Filed

namespace Accounted

variable {s t : Store} {path : Path} {f : FileRef}

theorem empty (fd : ℤ) (sysdata : ByteDisk.Disk) : Accounted (Store.empty fd sysdata) where
  ledger := by
    constructor
    · intro hash b found
      simp [Store.empty] at found
    · intro hash b found
      simp [Store.empty] at found
    · intro b some
      obtain ⟨path, member⟩ := Store.references_pos_iff.mp some
      simp [Store.listAt, Store.empty] at member
    · intro hash b found
      simp [Store.empty] at found
    · intro hash b found
      simp [Store.empty] at found
    · intro hash b found
      simp [Store.empty] at found
    · exact fun member => absurd member (Set.notMem_empty _)
    · exact fun member => absurd member (Set.notMem_empty _)
    · rw [Store.placedOffsets_empty]
      exact Tiles.empty 4096
  filed := ⟨fun found => by simp [Store.empty] at found, fun found => by simp [Store.empty] at found⟩

theorem linked (accounted : Accounted s) : s.Linked where
  blockId := accounted.ledger.blockId
  fileId := accounted.filed.fileId
  listed {path f} found _ member := accounted.ledger.indexed <|
    Store.references_pos_iff.mpr ⟨path, Store.mem_listAt.mpr ⟨f, found, member⟩⟩

/-- Only the lists, the file index and what the ledger reads matter. -/
theorem congr (accounted : Accounted s) (filed : t.Filed)
    (lists : ∀ p, t.listAt p = s.listAt p) (outside : OutsideFiles s t) : Accounted t where
  ledger := by
    have same : t.references = s.references := funext (Store.references_congr lists)
    rw [same]
    exact accounted.ledger.congr outside.blockIndex outside.blocks outside.nextBlock
      outside.freeList outside.next_free_offset
  filed := filed

theorem findFile (accounted : Accounted s) (path : Path) : Accounted (findFile path s).2 :=
  have found := findFile_found accounted.filed path
  accounted.congr found.filed found.listAt found.outside

end Accounted

/-! ## Writes -/

section Write

variable {SHA512 : Page → BlockId} {s : Store} {path : Path} {f : FileRef}

/-- The references and pages of a write go in pairs. -/
theorem zip_map_fst {hashes : List BlockId} {tables : WriteTables} {t : Store} {pages : List Page}
    (prepared : Prepared s hashes tables t) (length : hashes.length = pages.length) :
    (tables.newBlocksInfo.zip pages).map Prod.fst = tables.newBlocksInfo := by
  refine List.map_fst_zip ?_
  have := congrArg List.length prepared.info
  rw [List.length_map] at this
  omega

theorem length_blockHashes (buf : Bytes) :
    (blockHashes SHA512 buf).length = (bufferPages buf).length := by
  rw [blockHashes, List.length_map]

theorem writeOut_appended {buf : Bytes} {tables : WriteTables} {t : Store}
    (prepared : Prepared s (blockHashes SHA512 buf) tables t) (env : WriteEnv) :
    ∃ added, added <+: tables.newBlocksInfo ∧ AppendedTo f added t (writeOut f buf env tables t).2 ∧
      ((writeOut f buf env tables t).1 = 0 → added = tables.newBlocksInfo) := by
  refine writeOut_lists ?_
  have same := congrArg List.length prepared.info
  rwa [List.length_map, length_blockHashes] at same

/-- Growing a file assigns to its `logicalSize` only. -/
theorem growFile_eq (f : FileRef) (err offset : ℤ) (size : ℕ) (s : Store) :
    ∃ logicalSize, growFile f err offset size s =
      s.setFile f { s.files f with logicalSize := logicalSize } := by
  unfold growFile
  by_cases grows : err = 0 ∧ uint64 (s.files f).logicalSize < uint64 (offset + size)
  · exact ⟨_, if_pos grows⟩
  · refine ⟨(s.files f).logicalSize, ?_⟩
    simp only [if_neg grows, Store.setFile, Function.update_eq_self]

/-- No list changes by it. -/
theorem growFile_listAt (filed : s.Filed) (found : s.fileIndex.lookup path = some f)
    (err offset : ℤ) (size : ℕ) (p : Path) :
    (growFile f err offset size s).listAt p = s.listAt p := by
  obtain ⟨logicalSize, assigned⟩ := growFile_eq f err offset size s
  rw [assigned, filed.listAt_setFile found]
  by_cases same : p = path
  · rw [if_pos same, same, Store.listAt_of_lookup found]
  · rw [if_neg same]

theorem Accounted.growFile (accounted : Accounted s) (found : s.fileIndex.lookup path = some f)
    (err offset : ℤ) (size : ℕ) : Accounted (growFile f err offset size s) := by
  have lists := growFile_listAt accounted.filed found err offset size
  obtain ⟨logicalSize, assigned⟩ := growFile_eq f err offset size s
  rw [assigned] at lists ⊢
  exact accounted.congr (accounted.filed.setFile rfl) lists ⟨rfl, rfl, rfl, rfl, rfl, rfl, rfl⟩

theorem Prepared.filed {hashes : List BlockId} {tables : WriteTables} {t : Store}
    (prepared : Prepared s hashes tables t) (filed : s.Filed) : t.Filed :=
  filed.congr prepared.fileIndex prepared.files prepared.nextFile

theorem Prepared.references {hashes : List BlockId} {tables : WriteTables} {t : Store}
    (prepared : Prepared s hashes tables t) : t.references = s.references :=
  funext (Store.references_congr (Store.listAt_congr prepared.fileIndex prepared.files))

/-- The I/O keeps the accounts: what it does not append is a reference too many,
never one too few. -/
theorem writeOut_accounted (accounted : Accounted s) (found : s.fileIndex.lookup path = some f)
    {buf : Bytes} {tables : WriteTables} {t : Store}
    (prepared : Prepared s (blockHashes SHA512 buf) tables t) (env : WriteEnv) :
    Accounted (writeOut f buf env tables t).2 := by
  obtain ⟨added, isPrefix, appended, -⟩ := writeOut_appended (f := f) prepared env
  have filed := prepared.filed accounted.filed
  have index : t.fileIndex.lookup path = some f := by rw [prepared.fileIndex, found]
  refine ⟨?_, appended.filed filed⟩
  have moved := prepared.ledger.congr appended.blockIndex appended.blocks appended.nextBlock
    appended.freeList appended.next_free_offset
  refine moved.mono fun c => ?_
  rw [appended.references filed index, prepared.references]
  exact Nat.add_le_add_left (isPrefix.sublist.count_le c) _

theorem appendBlocks_accounted (accounted : Accounted s)
    (found : s.fileIndex.lookup path = some f) {buf : Bytes}
    (room : s.HasRoom (blockHashes SHA512 buf)) (offset : ℤ) (env : WriteEnv) :
    Accounted (appendBlocks SHA512 f buf offset env s).2 := by
  have prepared := placeBlocks_prepared accounted.ledger room
  rw [appendBlocks_eq]
  have done := writeOut_accounted (f := f) accounted found prepared env
  obtain ⟨added, -, appended, -⟩ := writeOut_appended (f := f) prepared env
  have index : (writeOut f buf env (placeBlocks (blockHashes SHA512 buf) s).1
      (placeBlocks (blockHashes SHA512 buf) s).2).2.fileIndex.lookup path = some f := by
    rw [appended.fileIndex, prepared.fileIndex, found]
  exact done.growFile index _ _ _

/-- The write is not turned away. -/
def Accepted (s : Store) (path : Path) (buf : Bytes) (offset : ℤ) : Prop :=
  buf.length % 4096 = 0 ∧ offset = s.sizeAt path

/-- The four ways a write can go. -/
theorem xmp_write_cases (filed : s.Filed) {buf : Bytes} {offset : ℤ} {env : WriteEnv} {ret : ℤ}
    {t : Store} (runs : xmp_write SHA512 path buf offset env s = some (ret, t)) :
    (buf.length % 4096 ≠ 0 ∧ ret = -EINVAL ∧ t = s) ∨
    (buf.length % 4096 = 0 ∧ offset ≠ s.sizeAt path ∧ ret = -ENOTSUP ∧ t = (findFile path s).2) ∨
    (Accepted s path buf offset ∧ buf.length ≤ 2 ^ 31 ∧
      (ret, t) = appendBlocks SHA512 (findFile path s).1 buf offset env (findFile path s).2) := by
  unfold xmp_write at runs
  by_cases whole : buf.length % 4096 ≠ 0
  · rw [if_pos whole] at runs
    cases runs
    exact Or.inl ⟨whole, rfl, rfl⟩
  rw [if_neg whole] at runs
  by_cases long : 2 ^ 31 < buf.length
  · rw [if_pos long] at runs
    cases runs
  rw [if_neg long] at runs
  have size := (findFile_found filed path).logicalSize
  simp only at runs
  rw [size] at runs
  by_cases differ : offset ≠ s.sizeAt path
  · rw [if_pos differ] at runs
    cases runs
    exact Or.inr (Or.inl ⟨not_not.mp whole, differ, rfl, rfl⟩)
  · rw [if_neg differ] at runs
    exact Or.inr (Or.inr ⟨⟨not_not.mp whole, not_not.mp differ⟩, not_lt.mp long,
      (Option.some.inj runs).symm⟩)

theorem xmp_write_of_accepted (filed : s.Filed) {buf : Bytes} {offset : ℤ}
    (accepted : Accepted s path buf offset) (bound : buf.length ≤ 2 ^ 31) (env : WriteEnv) :
    xmp_write SHA512 path buf offset env s =
      some (appendBlocks SHA512 (findFile path s).1 buf offset env (findFile path s).2) := by
  have size := (findFile_found filed path).logicalSize
  unfold xmp_write
  rw [if_neg (not_not.mpr accepted.1), if_neg (not_lt.mpr bound)]
  exact if_neg fun differ => differ (accepted.2.trans size.symm)

theorem FoundFile.hasRoom {s' : Store} (found : FoundFile path s f s') {hashes : List BlockId}
    (room : s.HasRoom hashes) : s'.HasRoom hashes := by
  intro hash member
  have same : s'.counterOf hash = s.counterOf hash := by
    unfold Store.counterOf
    rw [found.outside.blockIndex, found.outside.blocks]
  rw [same]
  exact room hash member

/-- **A write keeps the accounts, failed or not.** -/
theorem xmp_write_accounted (accounted : Accounted s) {buf : Bytes} {offset : ℤ} {env : WriteEnv}
    {ret : ℤ} {t : Store}
    (room : Accepted s path buf offset → s.HasRoom (blockHashes SHA512 buf))
    (runs : xmp_write SHA512 path buf offset env s = some (ret, t)) : Accounted t := by
  have found := findFile_found accounted.filed path
  rcases xmp_write_cases accounted.filed runs with
    ⟨-, -, rfl⟩ | ⟨-, -, -, rfl⟩ | ⟨accepted, -, outcome⟩
  · exact accounted
  · exact accounted.findFile path
  · rw [show t = (appendBlocks SHA512 _ buf offset env _).2 from congrArg Prod.snd outcome]
    exact appendBlocks_accounted (accounted.findFile path) found.lookup
      (found.hasRoom (room accepted)) offset env

end Write

/-! ## Removals -/

section Unlink

variable {s t : Store} {path : Path} {f : FileRef}

/-- A file that was stolen and put back shows as it did. -/
theorem reinsertFile_listAt (found : s.fileIndex.lookup path = some f) (p : Path) :
    (reinsertFile path f (stealFile path s)).listAt p = s.listAt p := by
  have index := reinsertFile_stealFile_lookup found p
  obtain ⟨table, rest⟩ := reinsertFile_stealFile_rest s path f
  unfold Store.listAt
  rw [index, rest]

theorem reinsertFile_sizeAt (found : s.fileIndex.lookup path = some f) (p : Path) :
    (reinsertFile path f (stealFile path s)).sizeAt p = s.sizeAt p := by
  have index := reinsertFile_stealFile_lookup found p
  obtain ⟨table, rest⟩ := reinsertFile_stealFile_rest s path f
  unfold Store.sizeAt
  rw [index, rest]

theorem reinsertFile_filed (filed : s.Filed) (found : s.fileIndex.lookup path = some f) :
    (reinsertFile path f (stealFile path s)).Filed := by
  have index := reinsertFile_stealFile_lookup found
  obtain ⟨table, rest⟩ := reinsertFile_stealFile_rest s path f
  constructor
  · intro p g inside
    rw [index] at inside
    rw [rest]
    exact filed.fileId inside
  · intro p g inside
    rw [index] at inside
    rw [rest]
    exact filed.fresh inside

/-- The five ways a removal can go, two of them alike. -/
theorem xmp_unlink_cases {unlink : UnlinkOut} {order : IterOrder (BlockRef × ℤ)} {ret : ℤ}
    (runs : xmp_unlink path unlink order s = some (ret, t)) :
    (reserved path ∧ ret = -EPERM ∧ t = s) ∨
    (¬ reserved path ∧ s.fileIndex.lookup path = none ∧ ret = -ENOENT ∧ t = s) ∨
    (∃ f errno, ¬ reserved path ∧ s.fileIndex.lookup path = some f ∧ unlink = .fail errno ∧
      ret = -(errno : ℤ) ∧ t = reinsertFile path f (stealFile path s)) ∨
    (∃ f, ¬ reserved path ∧ s.fileIndex.lookup path = some f ∧ (unlink = .ok ∨ unlink = .enoent) ∧
      ret = 0 ∧ (s.files f).blockList.length < 2 ^ 31 ∧
      t = freeFilemeta f ((releaseOrder order (s.files f).blockList).foldl releaseBlock
        (stealFile path s))) := by
  unfold xmp_unlink at runs
  by_cases own : reserved path
  · rw [if_pos own] at runs
    cases runs
    exact Or.inl ⟨own, rfl, rfl⟩
  rw [if_neg own] at runs
  cases entry : s.fileIndex.lookup path with
  | none =>
      rw [entry] at runs
      cases runs
      exact Or.inr (Or.inl ⟨own, rfl, rfl, rfl⟩)
  | some f =>
      rw [entry] at runs
      have released : (if 2 ^ 31 ≤ ((stealFile path s).files f).blockList.length then none
          else some (0, freeFilemeta f ((releaseOrder order
            ((stealFile path s).files f).blockList).foldl releaseBlock (stealFile path s)))) =
            some (ret, t) →
          ret = 0 ∧ (s.files f).blockList.length < 2 ^ 31 ∧
            t = freeFilemeta f ((releaseOrder order (s.files f).blockList).foldl releaseBlock
              (stealFile path s)) := by
        intro runs
        by_cases long : 2 ^ 31 ≤ ((stealFile path s).files f).blockList.length
        · rw [if_pos long] at runs
          cases runs
        · rw [if_neg long] at runs
          cases runs
          exact ⟨rfl, not_le.mp long, rfl⟩
      cases unlink with
      | fail errno =>
          cases runs
          exact Or.inr (Or.inr (Or.inl ⟨f, errno, own, rfl, rfl, rfl, rfl⟩))
      | ok => exact Or.inr (Or.inr (Or.inr ⟨f, own, rfl, Or.inl rfl, released runs⟩))
      | enoent => exact Or.inr (Or.inr (Or.inr ⟨f, own, rfl, Or.inr rfl, released runs⟩))

/-- The release of a stolen file, as the ledger sees it. -/
theorem release_ledger (ledger : Ledger s.references ∅ [] s)
    (found : s.fileIndex.lookup path = some f) (order : IterOrder (BlockRef × ℤ)) :
    Ledger (stealFile path s).references ∅ []
      ((releaseOrder order (s.files f).blockList).foldl releaseBlock (stealFile path s)) := by
  refine foldl_releaseBlock_ledger (releaseOrder_tallies order _) ?_
  refine (ledger.congr (t := stealFile path s) rfl rfl rfl rfl rfl).mono fun c => ?_
  have moved := stealFile_references (s := s) path c
  rw [Store.listAt_of_lookup found] at moved
  exact moved.le

/-- Marking a file that is no longer indexed changes no list. -/
theorem freeFilemeta_listAt (absent : ∀ p, s.fileIndex.lookup p ≠ some f) (p : Path) :
    (freeFilemeta f s).listAt p = s.listAt p := by
  unfold Store.listAt
  rw [freeFilemeta, Store.setFile_fileIndex]
  cases entry : s.fileIndex.lookup p with
  | none => rfl
  | some g =>
      have differ : g ≠ f := fun same => absent p (same ▸ entry)
      simp only [Store.setFile_files_ne s _ differ]

/-- The lists after a successful removal. -/
theorem released_listAt (filed : s.Filed) (found : s.fileIndex.lookup path = some f)
    (entries : List (BlockRef × ℤ)) (p : Path) :
    (freeFilemeta f (entries.foldl releaseBlock (stealFile path s))).listAt p =
      if p = path then [] else s.listAt p := by
  have frame := foldl_releaseBlock_released entries (stealFile path s)
  rw [freeFilemeta_listAt, Store.listAt_congr frame.fileIndex frame.files, stealFile_listAt]
  intro other entry
  rw [frame.fileIndex] at entry
  obtain ⟨differ, entry⟩ := stealFile_lookup.mp entry
  exact differ (filed.path_eq found entry)

theorem xmp_unlink_accounted (accounted : Accounted s) {unlink : UnlinkOut}
    {order : IterOrder (BlockRef × ℤ)} {ret : ℤ}
    (runs : xmp_unlink path unlink order s = some (ret, t)) : Accounted t := by
  rcases xmp_unlink_cases runs with ⟨-, -, rfl⟩ | ⟨-, -, -, rfl⟩ |
    ⟨f, errno, -, found, -, -, rfl⟩ | ⟨f, -, found, -, -, -, rfl⟩
  · exact accounted
  · exact accounted
  · obtain ⟨table, rest⟩ := reinsertFile_stealFile_rest s path f
    refine accounted.congr (reinsertFile_filed accounted.filed found) (reinsertFile_listAt found) ?_
    rw [rest]
    exact ⟨rfl, rfl, rfl, rfl, rfl, rfl, rfl⟩
  · have frame := foldl_releaseBlock_released (releaseOrder order (s.files f).blockList)
      (stealFile path s)
    have held := release_ledger accounted.ledger found order
    refine ⟨?_, ?_⟩
    · refine (held.setFile f _).mono fun c => (Store.references_congr (fun p => ?_) c).le
      rw [stealFile_listAt]
      exact released_listAt accounted.filed found _ p
    · exact ((stealFile_filed accounted.filed path).congr frame.fileIndex frame.files
        frame.nextFile).setFile rfl

end Unlink

/-! ## Sessions -/

/-- The bounds the accounting needs: no counter reaches `2 ^ 31`, and a remount
finds the metadata file complete. -/
def Countable (SHA512 : Page → BlockId) (s : Store) : Call → Prop
  | .write path buf offset _ => Accepted s path buf offset → s.HasRoom (blockHashes SHA512 buf)
  | .remount blockOrder fileOrder room _ => (xmp_destroy blockOrder fileOrder room s).1 = true
  | _ => True

section Sessions

variable {SHA512 : Page → BlockId} {admitted : Store → Call → Prop}

/-- **Every call keeps the accounts.** -/
theorem Step.accounted {s t : Store} {event : Event} (step : Step SHA512 admitted s event t)
    (countable : Countable SHA512 s event.1) (fits : s.Fits) (accounted : Accounted s) :
    Accounted t := by
  obtain ⟨runs, -, -⟩ := step
  obtain ⟨call, reply⟩ := event
  cases call with
  | write path buf offset env =>
      obtain ⟨⟨ret, u⟩, outcome, same⟩ := Option.map_eq_some_iff.mp runs
      cases same
      exact xmp_write_accounted accounted countable outcome
  | read path size offset env =>
      obtain ⟨⟨ret, buf⟩, -, same⟩ := Option.map_eq_some_iff.mp runs
      cases same
      exact accounted
  | getattr path lstat =>
      cases runs
      exact accounted
  | unlink path unlink order =>
      obtain ⟨⟨ret, u⟩, outcome, same⟩ := Option.map_eq_some_iff.mp runs
      cases same
      exact xmp_unlink_accounted accounted outcome
  | remount blockOrder fileOrder room out =>
      cases runs
      obtain ⟨⟨moved, copy⟩, mounted⟩ :=
        xmp_init_copyBy accounted.linked fits countable out s.sysdata
      have linked := copy.linked accounted.linked
      exact ⟨copy.ledger accounted.linked accounted.ledger mounted.blockFresh,
        ⟨linked.fileId, mounted.fileFresh⟩⟩

theorem Store.empty_fits (fd : ℤ) (sysdata : ByteDisk.Disk) : (Store.empty fd sysdata).Fits where
  fileIndex := by simp [Store.empty]
  blockIndex := by simp [Store.empty]
  freeList := by simp [Store.empty]
  next_free_offset := by simp [Store.empty, FitsOff]
  free off member := by simp [Store.empty] at member
  block found := by simp [Store.empty] at found
  file found := by simp [Store.empty] at found

/-- The numbers of every store of a session fit. -/
theorem Runs.fits {fd : ℤ} {sysdata : ByteDisk.Disk} {history : List Event} {s : Store}
    (run : Runs (Step SHA512 admitted) (Store.empty fd sysdata) history s) : s.Fits :=
  run.state_invariant Store.Fits (Store.empty_fits fd sysdata) fun _ move => move.fits

theorem Runs.accounted {fd : ℤ} {sysdata : ByteDisk.Disk} {history : List Event} {s : Store}
    (countable : ∀ s call, admitted s call → Countable SHA512 s call)
    (run : Runs (Step SHA512 admitted) (Store.empty fd sysdata) history s) : Accounted s :=
  run.invariant (fun _ s => Accounted s) (Accounted.empty fd sysdata) fun earlier before move =>
    move.accounted (countable _ _ move.admitted) (Runs.fits earlier) before

/-- **Space accounting is an exact partition.**  The live and the free offsets are
pairwise distinct and are exactly the multiples of 4096 below the tail. -/
theorem offsets_partition {fd : ℤ} {sysdata : ByteDisk.Disk} {history : List Event} {s : Store}
    (run : Runs (Step SHA512 (Countable SHA512)) (Store.empty fd sysdata) history s) :
    (s.liveOffsets ++ s.freeList).Nodup ∧
      ∃ count : ℕ, s.next_free_offset = count * 4096 ∧
        ∀ off, off ∈ s.liveOffsets ++ s.freeList ↔ ∃ i < count, (i : ℤ) * 4096 = off := by
  have tiles := (Runs.accounted (fun _ _ countable => countable) run).ledger.tiles
  rw [Store.placedOffsets_empty, List.append_nil] at tiles
  refine ⟨tiles.nodup (by norm_num), ?_⟩
  obtain ⟨count, tail, cover⟩ := tiles
  exact ⟨count, tail, fun off => by rw [cover.mem_iff, mem_grid]⟩

theorem offsets_partition_holdsA :
    (holdsA.liveOffsets ++ holdsA.freeList).Nodup ∧
      ∃ count : ℕ, holdsA.next_free_offset = count * 4096 ∧
        ∀ off, off ∈ holdsA.liveOffsets ++ holdsA.freeList ↔
          ∃ i < count, (i : ℤ) * 4096 = off :=
  offsets_partition <| runs_first (fun _ => digestOfA) .fine (by decide) rfl rfl
    fun _ => hasRoom_first

end Sessions

end ProjetoTSO.Codededup
