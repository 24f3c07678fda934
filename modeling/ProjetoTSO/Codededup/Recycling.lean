import Mathlib.Data.Set.Card
import ProjetoTSO.Codededup.Counts

/-!
# The backing file grows to its peak

A write takes the offsets of its new blocks from the free list, and from the tail of
the backing file only when the free list is empty; a removal gives offsets back.  So
the tail is where it has to be for the largest number of blocks the index ever held,
and no further (`tail_is_peak`): deleted space is used before the file grows.
-/

namespace ProjetoTSO.Codededup

open CInt ByteStream Transition Arena

/-! ## What a call does to the tail -/

/-- Offsets were taken, from the tail only once the free list was used up. -/
structure Allocated (s t : Store) : Prop where
  grows : s.next_free_offset ≤ t.next_free_offset
  drains : t.next_free_offset = s.next_free_offset ∨ t.freeList = []
  empties : s.freeList = [] → t.freeList = []

namespace Allocated

variable {s t u : Store}

theorem of_eq (tail : t.next_free_offset = s.next_free_offset) (free : t.freeList = s.freeList) :
    Allocated s t :=
  ⟨tail.ge, Or.inl tail, fun empty => free.trans empty⟩

theorem trans (first : Allocated s t) (second : Allocated t u) : Allocated s u where
  grows := first.grows.trans second.grows
  drains := by
    rcases second.drains with same | empty
    · exact first.drains.imp same.trans second.empties
    · exact Or.inr empty
  empties empty := second.empties (first.empties empty)

end Allocated

theorem assignOffset_allocated (s : Store) (b : BlockRef) : Allocated s (assignOffset s b) := by
  unfold assignOffset
  cases last : s.freeList.getLast? with
  | none =>
      have empty : s.freeList = [] := List.getLast?_eq_none_iff.mp last
      refine ⟨?_, Or.inr empty, fun _ => empty⟩
      show s.next_free_offset ≤ s.next_free_offset + _
      omega
  | some off =>
      refine ⟨le_rfl, Or.inl rfl, fun empty => ?_⟩
      rw [empty] at last
      cases last

theorem foldl_assignOffset_allocated (chosen : List BlockRef) (s : Store) :
    Allocated s (chosen.foldl assignOffset s) := by
  induction chosen generalizing s with
  | nil => exact .of_eq rfl rfl
  | cons b chosen ih => exact (assignOffset_allocated s b).trans (ih _)

section Calls

variable {SHA512 : Page → BlockId} {s t : Store} {path : Path}

theorem placeBlocks_allocated (ledger : Ledger s.references ∅ [] s) {hashes : List BlockId}
    (room : s.HasRoom hashes) : Allocated s (placeBlocks hashes s).2 := by
  have looked := lookupBlocks ledger room
  unfold placeBlocks
  exact (Allocated.of_eq looked.outside.next_free_offset looked.outside.freeList).trans
    (foldl_assignOffset_allocated _ _)

theorem xmp_write_allocated (accounted : Accounted s) {buf : Bytes} {offset : ℤ} {env : WriteEnv}
    {ret : ℤ} (room : Accepted s path buf offset → s.HasRoom (blockHashes SHA512 buf))
    (runs : xmp_write SHA512 path buf offset env s = some (ret, t)) : Allocated s t := by
  have found := findFile_found accounted.filed path
  have created := Allocated.of_eq found.outside.next_free_offset found.outside.freeList
  rcases xmp_write_cases accounted.filed runs with
    ⟨-, -, rfl⟩ | ⟨-, -, -, rfl⟩ | ⟨accepted, -, outcome⟩
  · exact .of_eq rfl rfl
  · exact created
  have ledger := (accounted.findFile path).ledger
  have allocated := placeBlocks_allocated ledger (found.hasRoom (room accepted))
  have prepared := placeBlocks_prepared ledger (found.hasRoom (room accepted))
  have storeEq : t = (appendBlocks SHA512 _ buf offset env _).2 := congrArg Prod.snd outcome
  rw [storeEq, appendBlocks_eq]
  clear outcome storeEq runs
  generalize placeBlocks (blockHashes SHA512 buf) (findFile path s).2 = placed
    at prepared allocated
  obtain ⟨tables, u⟩ := placed
  simp only at prepared allocated ⊢
  obtain ⟨added, -, appended, -⟩ := writeOut_appended (f := (findFile path s).1) prepared env
  obtain ⟨logicalSize, assigned⟩ := growFile_eq (findFile path s).1
    (writeOut (findFile path s).1 buf env tables u).1 offset buf.length
    (writeOut (findFile path s).1 buf env tables u).2
  rw [assigned]
  exact (created.trans allocated).trans (.of_eq appended.next_free_offset appended.freeList)

theorem releaseBlock_tail (s : Store) (entry : BlockRef × ℤ) :
    (releaseBlock s entry).next_free_offset = s.next_free_offset := by
  have lowered : (lowerCounter entry.1 entry.2 s).next_free_offset = s.next_free_offset := by
    rw [Ledger.lowerCounter_eq]
  unfold releaseBlock
  by_cases zero : ((lowerCounter entry.1 entry.2 s).blocks entry.1).counter = 0
  · rw [if_pos zero]
    exact lowered
  · rw [if_neg zero]
    exact lowered

theorem xmp_unlink_tail {unlink : UnlinkOut} {order : IterOrder (BlockRef × ℤ)} {ret : ℤ}
    (runs : xmp_unlink path unlink order s = some (ret, t)) :
    t.next_free_offset = s.next_free_offset := by
  have released : ∀ (entries : List (BlockRef × ℤ)) (s : Store),
      (entries.foldl releaseBlock s).next_free_offset = s.next_free_offset := by
    intro entries
    induction entries with
    | nil => exact fun s => rfl
    | cons entry entries ih => exact fun s => (ih _).trans (releaseBlock_tail s entry)
  rcases xmp_unlink_cases runs with ⟨-, -, rfl⟩ | ⟨-, -, -, rfl⟩ |
    ⟨f, errno, -, -, -, -, rfl⟩ | ⟨f, -, -, -, -, -, rfl⟩
  · rfl
  · rfl
  · obtain ⟨table, rest⟩ := reinsertFile_stealFile_rest s path f
    rw [rest]
  · exact released _ (stealFile path s)

/-- The tail is the larger of where it was and where the blocks of the index end. -/
theorem tail_eq_max (ledger : Ledger t.references ∅ [] t)
    (grows : s.next_free_offset ≤ t.next_free_offset)
    (drains : t.next_free_offset = s.next_free_offset ∨ t.freeList = []) :
    t.next_free_offset = max s.next_free_offset (4096 * t.blockIndex.entries.length) := by
  have tiles := ledger.tiles
  rw [Store.placedOffsets_empty, List.append_nil] at tiles
  have tail := tiles.tail_eq
  rw [Store.liveOffsets, List.length_map] at tail
  rcases drains with same | empty
  · rw [same] at tail
    rw [same, max_eq_left]
    rw [tail]
    push_cast
    omega
  · rw [empty, List.length_nil] at tail
    rw [max_eq_right]
    · rw [tail]
      push_cast
      ring
    · refine grows.trans ?_
      rw [tail]
      push_cast
      omega

/-- **What a call does to the tail.** -/
theorem Step.tail_eq {admitted : Store → Call → Prop} {event : Event}
    (step : Step SHA512 admitted s event t) (countable : Countable SHA512 s event.1)
    (fits : s.Fits) (accounted : Accounted s) :
    t.next_free_offset = max s.next_free_offset (4096 * t.blockIndex.entries.length) := by
  have ledger := (step.accounted countable fits accounted).ledger
  have kept : t.next_free_offset = s.next_free_offset →
      t.next_free_offset = max s.next_free_offset (4096 * t.blockIndex.entries.length) :=
    fun same => tail_eq_max ledger same.ge (Or.inl same)
  obtain ⟨runs, -, -⟩ := step
  obtain ⟨call, reply⟩ := event
  cases call with
  | write path buf offset env =>
      obtain ⟨⟨ret, u⟩, outcome, same⟩ := Option.map_eq_some_iff.mp runs
      cases same
      have allocated := xmp_write_allocated accounted countable outcome
      exact tail_eq_max ledger allocated.grows allocated.drains
  | read path size offset env =>
      obtain ⟨⟨ret, buf⟩, -, same⟩ := Option.map_eq_some_iff.mp runs
      cases same
      exact kept rfl
  | getattr path lstat =>
      cases runs
      exact kept rfl
  | unlink path unlink order =>
      obtain ⟨⟨ret, u⟩, outcome, same⟩ := Option.map_eq_some_iff.mp runs
      cases same
      exact kept (xmp_unlink_tail outcome)
  | remount blockOrder fileOrder room out =>
      cases runs
      obtain ⟨⟨moved, copy⟩, -⟩ :=
        xmp_init_copyBy accounted.linked fits countable out s.sysdata
      exact kept copy.next_free_offset

end Calls

/-! ## The peak -/

/-- The pages that occur in the contents of the files. -/
def livePages (content : Path → Bytes) : Set Page :=
  {page | ∃ path, page ∈ bufferPages (content path)}

section Sessions

variable {SHA512 : Page → BlockId} {data : Set Page} {s t : Store} {fd : ℕ}
variable {sysdata : ByteDisk.Disk} {history : List Event} {peak : ℕ}

/-- The tail follows the number of blocks in the index. -/
theorem tail_of_highWater
    (reached : HighWater (Step SHA512 (Countable SHA512))
      (fun _ s => s.blockIndex.entries.length) (Store.empty fd sysdata) history s peak) :
    s.next_free_offset = 4096 * peak := by
  induction reached with
  | nil => simp [Store.empty]
  | snoc earlier move ih =>
      have accounted := Runs.accounted (fun _ _ countable => countable) earlier.run
      rw [move.tail_eq move.admitted (Runs.fits earlier.run) accounted, ih]
      push_cast
      exact (mul_max_of_nonneg _ _ (by norm_num)).symm

/-- In a faithful session the index holds one block for each page of the contents. -/
theorem Faithful.length_blockIndex (faithful : Faithful SHA512 data history s)
    (balanced : Balanced s.references s) (injective : Set.InjOn SHA512 data) :
    s.blockIndex.entries.length = (livePages (content history)).ncard := by
  have indexed := faithful.indexOf balanced
  have inData : livePages (content history) ⊆ data := by
    rintro page ⟨path, member⟩
    have pages : content history path =
        ((s.listAt path).map s.pageOf).flatMap fun page => page.toList := by
      rw [← faithful.contents, Store.contents, List.flatMap_map]
    rw [pages, bufferPages_of_pages, List.mem_map] at member
    obtain ⟨b, listed, rfl⟩ := member
    exact (faithful.stored _ b (indexed.listed path b listed) (Set.notMem_empty b)).1
  have keys : SHA512 '' livePages (content history) = ↑s.blockIndex.keys.toFinset := by
    ext hash
    rw [Finset.mem_coe, List.mem_toFinset, ← AList.mem_keys, ← AList.lookup_isSome,
      ← Option.ne_none_iff_isSome, indexed.hashes hash]
    constructor
    · rintro ⟨page, ⟨path, member⟩, named⟩
      exact ⟨path, page, member, named⟩
    · rintro ⟨path, page, member, named⟩
      exact ⟨page, ⟨path, member⟩, named⟩
  rw [← (injective.mono inData).ncard_image, keys, Set.ncard_coe_finset,
    List.toFinset_card_of_nodup s.blockIndex.keys_nodup]
  exact (List.length_map _).symm

/-- In a session in which no I/O fails, the tail follows the number of pages in the
contents. -/
theorem tail_of_pages (injective : Set.InjOn SHA512 data)
    (reached : HighWater (Step SHA512 (Undisturbed SHA512 data))
      (fun history _ => (livePages (content history)).ncard) (Store.empty fd sysdata)
      history s peak) : s.next_free_offset = 4096 * peak := by
  have counted : HighWater (Step SHA512 (Undisturbed SHA512 data))
      (fun _ s => s.blockIndex.entries.length) (Store.empty fd sysdata) history s peak :=
    reached.congr fun {history s} run => by
      have faithful := Runs.faithful injective (fun _ _ admitted => admitted.exposed)
        (fun _ _ admitted => admitted.traceless) run
      exact (faithful.length_blockIndex (Runs.undisturbed_balanced run) injective).symm
  have lenient : HighWater (Step SHA512 (Countable SHA512))
      (fun _ s => s.blockIndex.entries.length) (Store.empty fd sysdata) history s peak :=
    counted.mono fun _ _ _ step => ⟨step.runs, step.fits, step.admitted.exposed.countable⟩
  exact tail_of_highWater lenient

/-- **Deleted space is used before the backing file grows.**  The tail is where the
largest number of blocks the index ever held ends.  When no I/O fails, that is the
largest number of distinct pages the files ever had together; and as long as they have
no more than that, the tail does not move. -/
theorem tail_is_peak (injective : Set.InjOn SHA512 data) :
    (∀ history s peak, HighWater (Step SHA512 (Countable SHA512))
        (fun _ s => s.blockIndex.entries.length) (Store.empty fd sysdata) history s peak →
      s.next_free_offset = 4096 * peak) ∧
    ∀ history s peak, HighWater (Step SHA512 (Undisturbed SHA512 data))
        (fun history _ => (livePages (content history)).ncard) (Store.empty fd sysdata)
        history s peak →
      s.next_free_offset = 4096 * peak ∧
        ∀ later t, Runs (Step SHA512 (Undisturbed SHA512 data)) s later t →
          (∀ before after, later = before ++ after →
            (livePages (content (history ++ before))).ncard ≤ peak) →
          t.next_free_offset = s.next_free_offset := by
  refine ⟨fun _ _ _ reached => tail_of_highWater reached, fun history s peak reached => ?_⟩
  have tail := tail_of_pages injective reached
  refine ⟨tail, fun later t run small => ?_⟩
  -- the peak stays where it is
  have level : HighWater (Step SHA512 (Undisturbed SHA512 data))
      (fun history _ => (livePages (content history)).ncard) (Store.empty fd sysdata)
      (history ++ later) t peak := by
    induction run with
    | nil => simpa using reached
    | @snoc later t next event earlier move ih =>
        have before := ih fun before after split =>
          small before (after ++ [event]) (by rw [split, List.append_assoc])
        have same : max peak (livePages (content (history ++ later ++ [event]))).ncard = peak := by
          rw [List.append_assoc]
          exact max_eq_left (small (later ++ [event]) [] (by simp))
        rw [← List.append_assoc]
        have stepped := before.snoc move
        rwa [same] at stepped
  rw [tail, tail_of_pages injective level]

theorem tail_is_peak_holdsA :
    let written : Event := (.write (CString.lit "/a") pageOfA.toList 0 .fine, .code 4096)
    holdsA.next_free_offset = 4096 * (1 : ℕ) ∧
      ∀ later t, Runs (Step (fun _ => digestOfA) (Undisturbed (fun _ => digestOfA) {pageOfA}))
          holdsA later t →
        (∀ before after, later = before ++ after →
          (livePages (content ([written] ++ before))).ncard ≤
            max (livePages (content [])).ncard (livePages (content [written])).ncard) →
        t.next_free_offset = holdsA.next_free_offset := by
  have first : Runs (Step (fun _ => digestOfA) (Undisturbed (fun _ => digestOfA) {pageOfA}))
      (Store.empty (3 : ℕ) fun _ => 0)
      ([] ++ [(.write (CString.lit "/a") pageOfA.toList 0 .fine, .code 4096)]) holdsA :=
    runs_first _ _ (by decide) rfl rfl (undisturbed_first (Set.mem_singleton pageOfA))
  obtain ⟨before, nothing, step⟩ := Runs.of_snoc first
  cases nothing.of_nil
  have lenient : Step (fun _ => digestOfA) (Countable fun _ => digestOfA) _ _ holdsA :=
    ⟨step.runs, step.fits, step.admitted.exposed.countable⟩
  have injective := Set.injOn_singleton (fun _ => digestOfA) pageOfA
  exact ⟨(tail_is_peak injective).1 _ holdsA 1 (.snoc .nil lenient),
    ((tail_is_peak injective).2 _ holdsA _ (.snoc .nil step)).2⟩

end Sessions

end ProjetoTSO.Codededup
