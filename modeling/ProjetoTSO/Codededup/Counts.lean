import ProjetoTSO.Codededup.Transparency

/-!
# Exact reference counts

The ledger only promises counters that are high enough.  As long as memory and
block I/O do not fail, they are exact: a write takes as many references as it
appends, a removal drops as many as the file held, and a removal that fails drops
none.  What the index holds is then a function of the contents of the files,
whatever calls led to them.
-/

namespace ProjetoTSO.Codededup

open CInt ByteStream Transition Chunks
open scoped BigOperators

/-- Every counter is the number of references held to its block. -/
def Balanced (refs : BlockRef → ℕ) (s : Store) : Prop :=
  ∀ hash b, s.blockIndex.lookup hash = some b → (s.blocks b).counter = refs b

section Balanced

variable {refs refs' : BlockRef → ℕ} {s t : Store} {path : Path} {f : FileRef}

theorem Balanced.congr (balanced : Balanced refs s) (blockIndex : t.blockIndex = s.blockIndex)
    (blocks : t.blocks = s.blocks) (same : ∀ c, refs' c = refs c) : Balanced refs' t := by
  intro hash b found
  rw [blockIndex] at found
  rw [blocks, same]
  exact balanced hash b found

/-! ## Writes -/

/-- The references of a write to a block are the pages with its hash. -/
theorem Prepared.count_newBlocksInfo {hashes : List BlockId} {tables : WriteTables}
    (prepared : Prepared s hashes tables t) {hash : BlockId} {b : BlockRef}
    (found : t.blockIndex.lookup hash = some b) :
    tables.newBlocksInfo.count b = hashes.count hash := by
  have name := prepared.ledger.blockId found
  rw [← prepared.info, List.count_eq_countP, List.count_eq_countP, List.countP_map]
  refine List.countP_congr fun c member => ?_
  simp only [Function.comp_apply, beq_iff_eq]
  constructor
  · rintro rfl
    exact name
  · intro same
    have inIndex := prepared.indexed c member
    rw [same, found] at inIndex
    exact (Option.some.inj inIndex).symm

theorem Prepared.balanced {hashes : List BlockId} {tables : WriteTables}
    (prepared : Prepared s hashes tables t) (ledger : Ledger s.references ∅ [] s)
    (balanced : Balanced s.references s) :
    Balanced (fun c => s.references c + tables.newBlocksInfo.count c) t := by
  intro hash b found
  show (t.blocks b).counter = ((s.references b + tables.newBlocksInfo.count b : ℕ) : ℤ)
  rw [prepared.counter found, prepared.count_newBlocksInfo found]
  rcases prepared.born found with before | ⟨-, mine⟩
  · rw [Store.counterOf_of_lookup before, balanced hash b before]
    push_cast
    rfl
  · obtain ⟨new, absent, -⟩ := prepared.created b mine
    have unreferenced : s.references b = 0 :=
      ledger.refs_eq_zero fun found => absurd (ledger.fresh found) (not_lt.mpr new)
    rw [prepared.ledger.blockId found] at absent
    rw [Store.counterOf_of_none absent, unreferenced]
    push_cast
    rfl

theorem growFile_balanced (accounted : Accounted s) (found : s.fileIndex.lookup path = some f)
    (balanced : Balanced s.references s) (err offset : ℤ) (size : ℕ) :
    Balanced (growFile f err offset size s).references (growFile f err offset size s) := by
  have lists := growFile_listAt accounted.filed found err offset size
  obtain ⟨logicalSize, assigned⟩ := growFile_eq f err offset size s
  refine balanced.congr ?_ ?_ (Store.references_congr lists)
  · rw [assigned]
    rfl
  · rw [assigned]
    rfl

variable {SHA512 : Page → BlockId}

/-- A write whose I/O meets no error appends every reference it took. -/
theorem appendBlocks_balanced (accounted : Accounted s) (found : s.fileIndex.lookup path = some f)
    (balanced : Balanced s.references s) {buf : Bytes} (room : s.HasRoom (blockHashes SHA512 buf))
    {env : WriteEnv} (noError : (writeOut f buf env (placeBlocks (blockHashes SHA512 buf) s).1
      (placeBlocks (blockHashes SHA512 buf) s).2).1 = 0) (offset : ℤ) :
    Balanced (appendBlocks SHA512 f buf offset env s).2.references
      (appendBlocks SHA512 f buf offset env s).2 := by
  have prepared := placeBlocks_prepared accounted.ledger room
  have done := writeOut_accounted accounted found prepared env
  have counted := prepared.balanced accounted.ledger balanced
  rw [appendBlocks_eq]
  generalize placeBlocks (blockHashes SHA512 buf) s = placed at prepared noError done counted
  obtain ⟨tables, t⟩ := placed
  simp only at prepared noError done counted ⊢
  obtain ⟨added, -, appended, all⟩ := writeOut_appended (f := f) prepared env
  have everyBlock := all noError
  subst everyBlock
  have index : t.fileIndex.lookup path = some f := by rw [prepared.fileIndex, found]
  have written : Balanced (writeOut f buf env tables t).2.references
      (writeOut f buf env tables t).2 := by
    refine counted.congr appended.blockIndex appended.blocks fun c => ?_
    rw [appended.references (prepared.filed accounted.filed) index, prepared.references]
  have indexOut : (writeOut f buf env tables t).2.fileIndex.lookup path = some f := by
    rw [appended.fileIndex, index]
  exact growFile_balanced done indexOut written _ _ _

theorem findFile_balanced (accounted : Accounted s) (balanced : Balanced s.references s) (path : Path) :
    Balanced (findFile path s).2.references (findFile path s).2 := by
  have found := findFile_found accounted.filed path
  exact balanced.congr found.outside.blockIndex found.outside.blocks
    (Store.references_congr found.listAt)

/-- A write that is not turned away returns its size. -/
def Succeeds (SHA512 : Page → BlockId) (s : Store) : Call → Prop
  | .write path buf offset env => Accepted s path buf offset →
      ∃ t, xmp_write SHA512 path buf offset env s = some ((buf.length : ℤ), t)
  | _ => True

theorem Undisturbed.succeeds {data : Set Page} {call : Call} (accounted : Accounted s)
    (undisturbed : Undisturbed SHA512 data s call) : Succeeds SHA512 s call := by
  cases call with
  | write path buf offset env =>
      intro accepted
      obtain ⟨bound, -, granted, full, counts⟩ := undisturbed
      have found := findFile_found accounted.filed path
      have prepared := placeBlocks_prepared (accounted.findFile path).ledger
        (found.hasRoom (counts accepted).1)
      have noError := writeOut_noError (f := (findFile path s).1) prepared
        ⟨granted, fun i _ _ _ _ => full i⟩
      rw [xmp_write_of_accepted accounted.filed accepted bound.le, appendBlocks_eq]
      simp only [noError, ne_eq, not_true_eq_false, if_false]
      rw [int32_eq (by omega) (by omega)]
      exact ⟨_, rfl⟩
  | read | getattr | unlink | remount => trivial

theorem xmp_write_balanced (accounted : Accounted s) (balanced : Balanced s.references s)
    {buf : Bytes} {offset : ℤ} {env : WriteEnv} {ret : ℤ}
    (room : Accepted s path buf offset → s.HasRoom (blockHashes SHA512 buf))
    (success : Succeeds SHA512 s (.write path buf offset env))
    (runs : xmp_write SHA512 path buf offset env s = some (ret, t)) : Balanced t.references t := by
  have found := findFile_found accounted.filed path
  have created := findFile_balanced accounted balanced path
  rcases xmp_write_cases accounted.filed runs with
    ⟨-, -, rfl⟩ | ⟨-, -, -, rfl⟩ | ⟨accepted, -, outcome⟩
  · exact balanced
  · exact created
  · obtain ⟨t', same⟩ := success accepted
    obtain rfl : ret = buf.length := congrArg Prod.fst (Option.some.inj (runs.symm.trans same))
    rw [show t = (appendBlocks SHA512 _ buf offset env _).2 from congrArg Prod.snd outcome]
    refine appendBlocks_balanced (accounted.findFile path) found.lookup created
      (found.hasRoom (room accepted)) ?_ offset
    -- a negative error would have been returned
    by_contra failed
    rw [appendBlocks_eq] at outcome
    have code := congrArg Prod.fst outcome
    simp only [if_pos failed] at code
    have negative := writeOut_nonpos (findFile path s).1 buf env
      (placeBlocks (blockHashes SHA512 buf) (findFile path s).2).1
      (placeBlocks (blockHashes SHA512 buf) (findFile path s).2).2
    omega

/-! ## Removals -/

/-- One iteration of the release loop lowers a counter by what is released. -/
theorem releaseBlock_balanced {b : BlockRef} {k : ℕ} (ledger : Ledger refs ∅ [] s)
    (balanced : Balanced refs s) (found : s.blockIndex.lookup (s.blocks b).id = some b)
    (fewer : ∀ c, refs' c + (if c = b then k else 0) = refs c) :
    Balanced refs' (releaseBlock s (b, k)) := by
  have own := fewer b
  rw [if_pos rfl] at own
  have value : int32 ((s.blocks b).counter - k) = (s.blocks b).counter - k := by
    have covered := ledger.covered found
    have bound := ledger.counterFits found
    exact int32_eq (by omega) (by omega)
  have counters : ∀ c, ((releaseBlock s (b, k)).blocks c).counter =
      ((lowerCounter b k s).blocks c).counter := by
    intro c
    unfold releaseBlock
    simp only
    split
    · by_cases same : c = b
      · subst same
        rw [freeBlockMeta, Store.setBlock_blocks_self]
        rfl
      · rw [freeBlockMeta, Store.setBlock_blocks_ne _ _ same]
        rfl
    · rfl
  intro hash c inside
  have before := (releaseBlock_released s (b, k)).lookup inside
  have counter := balanced hash c before
  have change := fewer c
  rw [counters, Ledger.lowerCounter_blocks]
  by_cases same : c = b
  · subst same
    rw [Function.update_self]
    show int32 ((s.blocks c).counter - k) = _
    rw [value, counter]
    omega
  · rw [if_neg same] at change
    rw [Function.update_of_ne same, counter]
    omega

/-- The release loop leaves the references of the other files. -/
theorem release_balanced (accounted : Accounted s) (balanced : Balanced s.references s)
    (found : s.fileIndex.lookup path = some f) (order : IterOrder (BlockRef × ℤ)) :
    Balanced (stealFile path s).references
      ((releaseOrder order (s.files f).blockList).foldl releaseBlock (stealFile path s)) := by
  have stolen : (fun c => (stealFile path s).references c + (s.files f).blockList.count c) =
      s.references := by
    funext c
    have moved := stealFile_references (s := s) path c
    rwa [Store.listAt_of_lookup found] at moved
  refine ((releaseOrder_tallies order (s.files f).blockList).foldl_releaseBlock
    (fun refs t => Ledger refs ∅ [] t ∧ Balanced refs t) ?_ ?_).2
  · rintro refs refs' t b k some fewer ⟨held, counted⟩
    have own := fewer b
    rw [if_pos rfl] at own
    have inIndex := held.indexed (by omega : 0 < refs b)
    exact ⟨releaseBlock_ledger held inIndex (Set.notMem_empty b) fun c => (fewer c).le,
      releaseBlock_balanced held counted inIndex fewer⟩
  · rw [stolen]
    exact ⟨accounted.ledger.congr rfl rfl rfl rfl rfl, balanced.congr rfl rfl fun _ => rfl⟩

theorem xmp_unlink_balanced (accounted : Accounted s) (balanced : Balanced s.references s)
    {unlink : UnlinkOut} {order : IterOrder (BlockRef × ℤ)} {ret : ℤ}
    (runs : xmp_unlink path unlink order s = some (ret, t)) : Balanced t.references t := by
  rcases xmp_unlink_cases runs with ⟨-, -, rfl⟩ | ⟨-, -, -, rfl⟩ |
    ⟨f, errno, -, found, -, -, rfl⟩ | ⟨f, -, found, -, -, -, rfl⟩
  · exact balanced
  · exact balanced
  · obtain ⟨table, rest⟩ := reinsertFile_stealFile_rest s path f
    refine balanced.congr ?_ ?_ (Store.references_congr (reinsertFile_listAt found))
    · rw [rest]
    · rw [rest]
  · refine (release_balanced accounted balanced found order).congr rfl rfl ?_
    refine Store.references_congr fun p => ?_
    rw [released_listAt accounted.filed found, stealFile_listAt]

end Balanced

/-! ## Sessions -/

section Sessions

variable {SHA512 : Page → BlockId} {data : Set Page} {s t : Store}

/-- A remount copies counters and references alike. -/
theorem Store.CopyBy.balanced {moved : BlockRef → BlockRef} (copy : Store.CopyBy moved s t)
    (linked : s.Linked) (balanced : Balanced s.references s) : Balanced t.references t := by
  intro hash b' found
  obtain ⟨b, inIndex, rfl, same⟩ := copy.blockIndex.back found
  rw [same.counter, copy.references linked inIndex]
  exact balanced hash b inIndex

/-- **Every call that succeeds keeps the counters exact.** -/
theorem Step.balanced {admitted : Store → Call → Prop} {event : Event}
    (step : Step SHA512 admitted s event t) (countable : Countable SHA512 s event.1)
    (success : Succeeds SHA512 s event.1) (accounted : Accounted s) (fits : s.Fits)
    (balanced : Balanced s.references s) : Balanced t.references t := by
  obtain ⟨runs, -, -⟩ := step
  obtain ⟨call, reply⟩ := event
  cases call with
  | write path buf offset env =>
      obtain ⟨⟨ret, u⟩, outcome, same⟩ := Option.map_eq_some_iff.mp runs
      cases same
      exact xmp_write_balanced accounted balanced countable success outcome
  | read path size offset env =>
      obtain ⟨⟨ret, buf⟩, -, same⟩ := Option.map_eq_some_iff.mp runs
      cases same
      exact balanced
  | getattr path lstat =>
      cases runs
      exact balanced
  | unlink path unlink order =>
      obtain ⟨⟨ret, u⟩, outcome, same⟩ := Option.map_eq_some_iff.mp runs
      cases same
      exact xmp_unlink_balanced accounted balanced outcome
  | remount blockOrder fileOrder room out =>
      cases runs
      obtain ⟨⟨moved, copy⟩, -⟩ := xmp_init_copyBy accounted.linked fits countable out s.sysdata
      exact copy.balanced accounted.linked balanced

theorem Runs.balanced {admitted : Store → Call → Prop} {fd : ℤ} {sysdata : ByteDisk.Disk}
    {history : List Event} (countable : ∀ s call, admitted s call → Countable SHA512 s call)
    (success : ∀ s call, Accounted s → admitted s call → Succeeds SHA512 s call)
    (run : Runs (Step SHA512 admitted) (Store.empty fd sysdata) history s) :
    Balanced s.references s := by
  refine run.invariant (fun _ s => Balanced s.references s) ?_ fun earlier before move => ?_
  · intro hash b found
    simp [Store.empty] at found
  · have accounted := Runs.accounted countable earlier
    exact move.balanced (countable _ _ move.admitted) (success _ _ accounted move.admitted) accounted
      (Runs.fits earlier) before

theorem Runs.undisturbed_balanced {fd : ℕ} {sysdata : ByteDisk.Disk} {history : List Event}
    (run : Runs (Step SHA512 (Undisturbed SHA512 data)) (Store.empty fd sysdata) history s) :
    Balanced s.references s :=
  Runs.balanced (fun _ _ undisturbed => undisturbed.exposed.countable)
    (fun _ _ accounted undisturbed => undisturbed.succeeds accounted) run

/-! ## The index as a function of the contents -/

/-- The hashes of a file's pages are the names of its blocks. -/
theorem Faithful.blockHashes_content {history : List Event}
    (faithful : Faithful SHA512 data history s) (path : Path) :
    blockHashes SHA512 (content history path) =
      (s.listAt path).map fun b => (s.blocks b).id := by
  have pages : content history path =
      ((s.listAt path).map s.pageOf).flatMap fun page => page.toList := by
    rw [← faithful.contents, Store.contents, List.flatMap_map]
  rw [blockHashes, pages, bufferPages_of_pages, List.map_map]
  refine List.map_congr_left fun b member => ?_
  obtain ⟨f, found, listed⟩ := Store.mem_listAt.mp member
  exact (faithful.stored _ b (faithful.accounted.linked.listed found b listed)
    (Set.notMem_empty b)).2

/-- What the block index holds, given the contents of the files. -/
structure IndexOf (SHA512 : Page → BlockId) (content : Path → Bytes) (s : Store) : Prop where
  /-- A listed block is the one indexed under its hash. -/
  listed : ∀ path, ∀ b ∈ s.listAt path, s.blockIndex.lookup (s.blocks b).id = some b
  /-- A counter is the number of occurrences of its block, and there is one. -/
  counter : ∀ hash b, s.blockIndex.lookup hash = some b →
    (s.blocks b).counter = s.references b ∧ 0 < s.references b
  /-- The hashes of the index are those of the pages of the contents. -/
  hashes : ∀ hash, s.blockIndex.lookup hash ≠ none ↔
    ∃ path, ∃ page ∈ bufferPages (content path), SHA512 page = hash
  /-- Distinct blocks hold distinct pages. -/
  distinct : ∀ hash hash' b b', s.blockIndex.lookup hash = some b →
    s.blockIndex.lookup hash' = some b' → s.pageOf b = s.pageOf b' → b = b'

/-- The counter under a hash is the number of pages with that hash. -/
theorem Faithful.counterOf_eq {history : List Event} (faithful : Faithful SHA512 data history s)
    (balanced : Balanced s.references s) {domain : Finset Path} (covers : s.paths ⊆ domain)
    (hash : BlockId) :
    s.counterOf hash =
      ((∑ path ∈ domain, (blockHashes SHA512 (content history path)).count hash : ℕ) : ℤ) := by
  have linked := faithful.accounted.linked
  cases found : s.blockIndex.lookup hash with
  | some b =>
      rw [Store.counterOf_of_lookup found, balanced hash b found,
        Store.references_eq_sum covers]
      refine congrArg _ (Finset.sum_congr rfl fun path _ => ?_)
      rw [faithful.blockHashes_content, List.count_eq_countP, List.count_eq_countP,
        List.countP_map]
      refine List.countP_congr fun c member => ?_
      obtain ⟨f, entry, listed⟩ := Store.mem_listAt.mp member
      have inIndex := linked.listed entry c listed
      simp only [Function.comp_apply, beq_iff_eq]
      constructor
      · rintro rfl
        exact linked.blockId found
      · intro same
        rw [same, found] at inIndex
        exact (Option.some.inj inIndex).symm
  | none =>
      rw [Store.counterOf_of_none found, Finset.sum_eq_zero fun path _ => ?_]
      · rfl
      · refine List.count_eq_zero_of_not_mem fun member => ?_
        rw [faithful.blockHashes_content] at member
        obtain ⟨c, inList, rfl⟩ := List.mem_map.mp member
        obtain ⟨f, entry, listed⟩ := Store.mem_listAt.mp inList
        rw [linked.listed entry c listed] at found
        cases found

theorem Faithful.indexOf {history : List Event} (faithful : Faithful SHA512 data history s)
    (balanced : Balanced s.references s) : IndexOf SHA512 (content history) s := by
  have linked := faithful.accounted.linked
  have ledger := faithful.accounted.ledger
  constructor
  · intro path b member
    obtain ⟨f, found, listed⟩ := Store.mem_listAt.mp member
    exact linked.listed found b listed
  · intro hash b found
    have counter := balanced hash b found
    have positive := ledger.positive found
    exact ⟨counter, by omega⟩
  · intro hash
    constructor
    · intro present
      obtain ⟨b, found⟩ := Option.ne_none_iff_exists'.mp present
      have counter := balanced hash b found
      have positive := ledger.positive found
      obtain ⟨path, member⟩ := Store.references_pos_iff.mp (by omega : 0 < s.references b)
      have named : hash ∈ blockHashes SHA512 (content history path) := by
        rw [faithful.blockHashes_content, ← linked.blockId found]
        exact List.mem_map_of_mem (f := fun b => (s.blocks b).id) member
      exact ⟨path, List.mem_map.mp named⟩
    · rintro ⟨path, page, member, rfl⟩
      have named : SHA512 page ∈ blockHashes SHA512 (content history path) :=
        List.mem_map_of_mem member
      rw [faithful.blockHashes_content] at named
      obtain ⟨b, inList, same⟩ := List.mem_map.mp named
      obtain ⟨f, found, listed⟩ := Store.mem_listAt.mp inList
      rw [← same, linked.listed found b listed]
      exact Option.some_ne_none b
  · intro hash hash' b b' found found' same
    have digest := (faithful.stored hash b found (Set.notMem_empty b)).2
    have digest' := (faithful.stored hash' b' found' (Set.notMem_empty b')).2
    rw [← digest, same, digest', found'] at found
    exact (Option.some.inj found).symm

/-- **Exact reference counts.**  In a session in which memory and block I/O do not
fail, the index holds one block for each distinct page of the files' contents, with
the number of its occurrences as counter.  It depends on the contents only: another
session that ends with the same contents ends with the same index. -/
theorem counters_exact {fd : ℕ} {sysdata : ByteDisk.Disk} {history : List Event}
    (injective : Set.InjOn SHA512 data)
    (run : Runs (Step SHA512 (Undisturbed SHA512 data)) (Store.empty fd sysdata) history s) :
    IndexOf SHA512 (content history) s ∧
      ∀ (fd' : ℕ) (sysdata' : ByteDisk.Disk) (history' : List Event) (s' : Store),
        Runs (Step SHA512 (Undisturbed SHA512 data)) (Store.empty fd' sysdata') history' s' →
        (∀ path, content history' path = content history path) →
        ∀ hash, (s'.blockIndex.lookup hash = none ↔ s.blockIndex.lookup hash = none) ∧
          s'.counterOf hash = s.counterOf hash := by
  have faithful := Runs.faithful injective (fun _ _ admitted => admitted.exposed)
    (fun _ _ admitted => admitted.traceless) run
  have indexed := faithful.indexOf (Runs.undisturbed_balanced run)
  refine ⟨indexed, fun fd' sysdata' history' s' run' sameContent hash => ?_⟩
  have faithful' := Runs.faithful injective (fun _ _ admitted => admitted.exposed)
    (fun _ _ admitted => admitted.traceless) run'
  constructor
  · have indexed' := faithful'.indexOf (Runs.undisturbed_balanced run')
    rw [← not_iff_not]
    refine (indexed'.hashes hash).trans (Iff.trans ?_ (indexed.hashes hash).symm)
    simp only [sameContent]
  · classical
    have covers : s.paths ⊆ s.paths ∪ s'.paths := Finset.subset_union_left
    have covers' : s'.paths ⊆ s.paths ∪ s'.paths := Finset.subset_union_right
    rw [faithful.counterOf_eq (Runs.undisturbed_balanced run) covers,
      faithful'.counterOf_eq (Runs.undisturbed_balanced run') covers']
    simp only [sameContent]

theorem counters_exact_holdsA :
    IndexOf (fun _ => digestOfA)
        (content [(.write (CString.lit "/a") pageOfA.toList 0 .fine, .code 4096)]) holdsA ∧
      ∀ (fd' : ℕ) (sysdata' : ByteDisk.Disk) (history' : List Event) (s' : Store),
        Runs (Step (fun _ => digestOfA) (Undisturbed (fun _ => digestOfA) {pageOfA}))
          (Store.empty fd' sysdata') history' s' →
        (∀ path, content history' path =
          content [(.write (CString.lit "/a") pageOfA.toList 0 .fine, .code 4096)] path) →
        ∀ hash, (s'.blockIndex.lookup hash = none ↔ holdsA.blockIndex.lookup hash = none) ∧
          s'.counterOf hash = holdsA.counterOf hash :=
  counters_exact (Set.injOn_singleton _ pageOfA)
    (runs_first _ _ (by decide) rfl rfl (undisturbed_first (Set.mem_singleton pageOfA)))

end Sessions

end ProjetoTSO.Codededup
