import ProjetoTSO.Codededup.Accounting
import ProjetoTSO.Lib.Chunks

/-!
# What the blocks hold

`Stored SHA512 data unwritten s` says that the page of every indexed block, except
those in `unwritten`, is a page of `data` whose digest is the block's hash.  With
SHA-512 injective on `data`, a block found under the digest of a page of `data`
therefore holds that page: this is why deduplication is invisible.

A write that reports no error extends the contents of its file by its buffer and
changes no other contents (`appendBlocks_stored`); the outcomes of its `pwrite`
calls matter for the created blocks only.  Blocks that were bad before, in `bad`,
stay bad, and harm no page but those found under their hash.
-/

namespace ProjetoTSO.Codededup

open CInt ByteStream Chunks

/-! ## Pages under `pwrite` -/

/-- A `pwrite` that stored everything. -/
def PwriteOut.full : PwriteOut := .done (Fin.last 4096)

/-- It stored everything or reported an error. -/
def PwriteOut.Whole (out : PwriteOut) : Prop := out = .full ∨ ∃ errno left, out = .fail errno left

section Pwrite

variable {s : Store} {b c : BlockRef}

theorem length_page (page : Page) : page.toList.length = 4096 := page.toList_length

/-- A page written in full is read back. -/
theorem pwriteBlock_pageOf_self (s : Store) (b : BlockRef) (page : Page) :
    (pwriteBlock .full b page s).2.pageOf b = page := by
  apply List.Vector.eq
  rw [Store.pageOf_toList]
  show ByteDisk.read (ByteDisk.write s.sysdata (s.blocks b).block_offset
    (page.toList.take (Fin.last 4096 : Fin 4097))) (s.blocks b).block_offset 4096 = page.toList
  have all : page.toList.take (Fin.last 4096 : Fin 4097) = page.toList :=
    List.take_of_length_le (length_page page).le
  have same := ByteDisk.read_write_same s.sysdata (s.blocks b).block_offset page.toList
  rw [length_page] at same
  rw [all, same]

/-- Writing one page leaves the rest of the backing file alone, whatever the
outcome. -/
theorem pwriteBlock_read_apart (out : PwriteOut) (page : Page) {off : ℤ}
    (apart : (s.blocks b).block_offset + 4096 ≤ off ∨ off + 4096 ≤ (s.blocks b).block_offset) :
    ByteDisk.read (pwriteBlock out b page s).2.sysdata off 4096 =
      ByteDisk.read s.sysdata off 4096 := by
  cases out with
  | fail errno left =>
      have length := length_page left
      exact ByteDisk.read_write_apart s.sysdata (by omega)
  | done n =>
      have length : (page.toList.take n).length ≤ 4096 := by
        rw [List.length_take, length_page]
        omega
      exact ByteDisk.read_write_apart s.sysdata (by omega)

/-- In particular the page of a block elsewhere. -/
theorem pwriteBlock_pageOf_apart (out : PwriteOut) (page : Page)
    (apart : (s.blocks b).block_offset + 4096 ≤ (s.blocks c).block_offset ∨
      (s.blocks c).block_offset + 4096 ≤ (s.blocks b).block_offset) :
    (pwriteBlock out b page s).2.pageOf c = s.pageOf c := by
  have blocks : (pwriteBlock out b page s).2.blocks = s.blocks := by cases out <;> rfl
  apply List.Vector.eq
  rw [Store.pageOf_toList, Store.pageOf_toList, blocks]
  exact pwriteBlock_read_apart out page apart

theorem setFile_pageOf (f : FileRef) (file : Filemeta) : (s.setFile f file).pageOf c = s.pageOf c :=
  Store.pageOf_congr rfl rfl

end Pwrite

/-! ## The invariant -/

section Stored

variable (SHA512 : Page → BlockId) (data : Set Page)

def Stored (unwritten : Set BlockRef) (s : Store) : Prop :=
  ∀ hash b, s.blockIndex.lookup hash = some b → b ∉ unwritten →
    s.pageOf b ∈ data ∧ SHA512 (s.pageOf b) = hash

variable {SHA512 data}

/-- Steps that keep index entries and their pages keep the invariant. -/
theorem Stored.transfer {unwritten unwritten' : Set BlockRef} {s t : Store}
    (stored : Stored SHA512 data unwritten s)
    (same : ∀ hash b, t.blockIndex.lookup hash = some b → b ∉ unwritten' →
      s.blockIndex.lookup hash = some b ∧ b ∉ unwritten ∧ t.pageOf b = s.pageOf b) :
    Stored SHA512 data unwritten' t := by
  intro hash b found written
  obtain ⟨before, notWaiting, page⟩ := same hash b found written
  rw [page]
  exact stored hash b before notWaiting

/-- **A block found under the digest of a page holds that page.** -/
theorem Stored.pageOf_eq (injective : Set.InjOn SHA512 data) {unwritten : Set BlockRef} {s : Store}
    (stored : Stored SHA512 data unwritten s) {page : Page} (inData : page ∈ data) {b : BlockRef}
    (found : s.blockIndex.lookup (SHA512 page) = some b) (written : b ∉ unwritten) :
    s.pageOf b = page := by
  obtain ⟨member, digest⟩ := stored _ b found written
  exact injective member inData digest

end Stored

/-! ## The I/O loop -/

section Loop

variable {SHA512 : Page → BlockId} {data : Set Page} {refs : BlockRef → ℕ} {f : FileRef}

/-- An iteration on a created block writes its page and nothing else. -/
theorem writeBlock_created {s : Store} {out : PwriteOut} {b : BlockRef} {page : Page}
    {created : List BlockRef} (mine : b ∈ created) (online : s.backend_fd ≠ -1)
    (whole : out.Whole) (noError : (writeBlock f out (b, page) created s).1 = 0) :
    (writeBlock f out (b, page) created s).2.1 = created.erase b ∧
      (writeBlock f out (b, page) created s).2.2.pageOf b = page ∧
      ∀ c, (s.blocks b).block_offset + 4096 ≤ (s.blocks c).block_offset ∨
          (s.blocks c).block_offset + 4096 ≤ (s.blocks b).block_offset →
        (writeBlock f out (b, page) created s).2.2.pageOf c = s.pageOf c := by
  unfold writeBlock at noError ⊢
  simp only [mine, online, if_true, if_false] at noError ⊢
  rcases whole with rfl | ⟨errno, left, rfl⟩
  · refine ⟨trivial, ?_, fun c apart => ?_⟩
    · rw [setFile_pageOf, pwriteBlock_pageOf_self]
    · rw [setFile_pageOf, pwriteBlock_pageOf_apart _ _ apart]
  · have positive : (0 : ℤ) < errno := by exact_mod_cast errno.pos
    have value : (-(errno : ℤ)) = 0 := noError
    omega

/-- An iteration on a block of the index writes nothing. -/
theorem writeBlock_found (s : Store) (out : PwriteOut) {b : BlockRef} (page : Page)
    {created : List BlockRef} (other : b ∉ created) :
    (writeBlock f out (b, page) created s).1 = 0 ∧
      (writeBlock f out (b, page) created s).2.1 = created ∧
      ∀ c, (writeBlock f out (b, page) created s).2.2.pageOf c = s.pageOf c := by
  unfold writeBlock
  simp only [other, if_false]
  exact ⟨trivial, trivial, fun c => setFile_pageOf _ _⟩

/-- **The I/O loop, when it ends without an error.**  Every entry's block holds the
entry's page, unless it was bad, and the pages of all other blocks are as before. -/
theorem writeBlocks_stored {bad : Set BlockRef} (injective : Set.InjOn SHA512 data) {env : WriteEnv}
    (whole : ∀ i, (env.pwrite i).Whole) (entries : List (BlockRef × Page)) :
    ∀ (k : ℕ) (created : List BlockRef) (s : Store), s.backend_fd ≠ -1 →
      Ledger refs ∅ [] s → Stored SHA512 data ({b | b ∈ created} ∪ bad) s → created.Nodup →
      (∀ b ∈ created, b ∈ entries.map Prod.fst) →
      (∀ entry ∈ entries, entry.2 ∈ data ∧
        s.blockIndex.lookup (SHA512 entry.2) = some entry.1) →
      (writeBlocks f env k entries created s).1 = 0 →
      Stored SHA512 data bad (writeBlocks f env k entries created s).2 ∧
        (∀ entry ∈ entries, entry.1 ∉ bad →
          (writeBlocks f env k entries created s).2.pageOf entry.1 = entry.2) ∧
        ∀ c ∈ s.liveBlocks, c ∉ created →
          (writeBlocks f env k entries created s).2.pageOf c = s.pageOf c := by
  induction entries with
  | nil =>
      intro k created s _ _ stored _ covered _ _
      have none_ : {b | b ∈ created} = (∅ : Set BlockRef) := by
        ext b
        simpa using fun member => by simpa using covered b member
      rw [none_, Set.empty_union] at stored
      exact ⟨stored, fun entry member => absurd member List.not_mem_nil, fun c _ _ => rfl⟩
  | cons entry entries ih =>
      obtain ⟨b, page⟩ := entry
      intro k created s online ledger stored nodup covered pages noError
      obtain ⟨inData, found⟩ := pages (b, page) (by simp)
      simp only at inData found
      have live : b ∈ s.liveBlocks := Store.mem_liveBlocks.mpr ⟨_, found⟩
      have frame := writeBlock_appended f (env.pwrite k) (b, page) created s
      have first : (writeBlock f (env.pwrite k) (b, page) created s).1 = 0 := by
        by_contra failed
        rw [writeBlocks] at noError
        simp only [ne_eq, failed, not_false_iff, if_true] at noError
      -- one iteration: the blocks still to write, and the pages it leaves
      obtain ⟨remaining, remainingNodup, subset, own, kept⟩ :
          (∀ c, c ∈ (writeBlock f (env.pwrite k) (b, page) created s).2.1 ↔ c ∈ created ∧ c ≠ b) ∧
          (writeBlock f (env.pwrite k) (b, page) created s).2.1.Nodup ∧
          (∀ c ∈ (writeBlock f (env.pwrite k) (b, page) created s).2.1,
            c ∈ entries.map Prod.fst) ∧
          (b ∉ bad → (writeBlock f (env.pwrite k) (b, page) created s).2.2.pageOf b = page) ∧
          ∀ c ∈ s.liveBlocks, c ≠ b ∨ c ∉ created →
            (writeBlock f (env.pwrite k) (b, page) created s).2.2.pageOf c = s.pageOf c := by
        have later : ∀ c, c ∈ created → c ≠ b → c ∈ entries.map Prod.fst := fun c member differ =>
          (List.mem_cons.mp (covered c member)).resolve_left differ
        by_cases mine : b ∈ created
        · obtain ⟨erased, own, kept⟩ := writeBlock_created mine online (whole k) first
          rw [erased]
          have members : ∀ c, c ∈ created.erase b ↔ c ∈ created ∧ c ≠ b := fun c => by
            rw [nodup.mem_erase_iff]
            exact and_comm
          refine ⟨members, nodup.erase b, fun c member => ?_, fun _ => own,
            fun c inIndex other => ?_⟩
          · exact later c ((members c).mp member).1 ((members c).mp member).2
          · have differ : b ≠ c := fun same => other.elim (fun h => h same.symm) fun h => h (same ▸ mine)
            exact kept c (ledger.apart live inIndex (Set.notMem_empty b) (Set.notMem_empty c) differ)
        · obtain ⟨-, same, kept⟩ := writeBlock_found (f := f) s (env.pwrite k) page mine
          rw [same]
          refine ⟨fun c => ⟨fun member => ⟨member, fun equal => mine (equal ▸ member)⟩,
            fun member => member.1⟩, nodup, fun c member => ?_, fun good => ?_, fun c _ _ => kept c⟩
          · exact later c member fun equal => mine (equal ▸ member)
          · rw [kept b]
            exact stored.pageOf_eq injective inData found fun either => either.elim mine good
      rw [writeBlocks] at noError ⊢
      generalize writeBlock f (env.pwrite k) (b, page) created s = outcome at *
      obtain ⟨err, created', s'⟩ := outcome
      simp only at first remaining remainingNodup subset own kept frame noError ⊢
      subst first
      simp only [ne_eq, not_true_eq_false, if_false] at noError ⊢
      have liveSame : s'.liveBlocks = s.liveBlocks := by
        unfold Store.liveBlocks
        rw [frame.blockIndex]
      have stored' : Stored SHA512 data ({c | c ∈ created'} ∪ bad) s' := by
        intro hash c inIndex written
        rw [frame.blockIndex] at inIndex
        by_cases same : c = b
        · subst same
          rw [own fun inBad => written (Or.inr inBad)]
          refine ⟨inData, ?_⟩
          rw [← ledger.blockId found, ledger.blockId inIndex]
        · have untouched : c ∉ {b | b ∈ created} ∪ bad := fun either =>
            written (either.imp (fun member => (remaining c).mpr ⟨member, same⟩) id)
          rw [kept c (Store.mem_liveBlocks.mpr ⟨hash, inIndex⟩) (Or.inl same)]
          exact stored hash c inIndex untouched
      obtain ⟨storedEnd, pagesEnd, keptEnd⟩ := ih (k + 1) created' s'
        (by rw [frame.backend_fd]; exact online)
        (ledger.congr frame.blockIndex frame.blocks frame.nextBlock frame.freeList
          frame.next_free_offset) stored' remainingNodup subset
        (fun entry member => by
          rw [frame.blockIndex]
          exact pages entry (List.mem_cons_of_mem _ member)) noError
      refine ⟨storedEnd, ?_, ?_⟩
      · rintro entry (_ | ⟨_, member⟩) good
        · rw [keptEnd b (by rw [liveSame]; exact live) fun member => ((remaining b).mp member).2 rfl]
          exact own good
        · exact pagesEnd entry member good
      · intro c inIndex untouched
        rw [keptEnd c (by rw [liveSame]; exact inIndex) fun member =>
          untouched ((remaining c).mp member).1]
        exact kept c inIndex (Or.inr untouched)

end Loop

/-! ## The pages of a buffer -/

theorem bufferPage_toList {buf : Bytes} {i : ℕ} (inside : 4096 * (i + 1) ≤ buf.length) :
    (bufferPage buf i).toList = slice buf (4096 * i) 4096 := by
  apply List.ext_getElem
  · rw [length_page, length_slice]
    omega
  · intro j below below'
    have bound : j < 4096 := by rwa [length_page] at below
    have position : 4096 * i + j < buf.length := by omega
    simp only [bufferPage, List.Vector.toList_ofFn, List.getElem_ofFn, slice, List.getElem_take,
      List.getElem_drop]
    exact List.getD_eq_getElem _ _ position

/-- A buffer of whole blocks is the concatenation of its pages. -/
theorem bufferPages_flatMap {buf : Bytes} (whole : buf.length % 4096 = 0) :
    (bufferPages buf).flatMap (fun page => page.toList) = buf := by
  have length : 4096 * (buf.length / 4096) = buf.length := by omega
  have pages : (bufferPages buf).flatMap (fun page => page.toList) =
      (List.range (buf.length / 4096)).flatMap fun i => slice buf (4096 * i) 4096 := by
    rw [bufferPages, List.flatMap_map]
    refine List.flatMap_congr fun i member => ?_
    have below := List.mem_range.mp member
    exact bufferPage_toList (by omega)
  rw [pages, flatMap_slices, length, slice_all]

/-- A buffer made of pages is cut into these pages. -/
theorem bufferPages_of_pages (pages : List Page) :
    bufferPages (pages.flatMap fun page => page.toList) = pages := by
  have length := length_flatMap length_page pages
  apply List.ext_getElem
  · rw [bufferPages, List.length_map, List.length_range, length]
    omega
  · intro i _ inside
    apply List.Vector.eq
    have window := slice_flatMap length_page inside (by norm_num : 0 + 4096 ≤ 4096)
    have within : 4096 * (i + 1) ≤ (pages.flatMap fun page => page.toList).length := by
      rw [length]
      omega
    simp only [bufferPages, List.getElem_map, List.getElem_range]
    rw [bufferPage_toList within, ← Nat.add_zero (4096 * i), window]
    have whole := slice_all (pages.get ⟨i, inside⟩).toList
    rw [length_page] at whole
    rw [whole]
    rfl

end ProjetoTSO.Codededup
