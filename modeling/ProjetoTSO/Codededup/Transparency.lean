import ProjetoTSO.Codededup.Effects

/-!
# Transparency of deduplication

`Faithful history s`: between two calls, every file of `s` consists of the bytes
that `content history` says were written to it, whatever blocks it shares with
other files.  Each call keeps it, as long as no write fails after it has created
a block: by then the block is published under a hash its page need not have.

The part of it that does not speak of the history is `Sound`, which also allows for
blocks that hold the wrong page.
-/

namespace ProjetoTSO.Codededup

open CInt ByteStream Transition Chunks

/-! ## What a session is exposed to -/

/-- What a session may be exposed to: `pwrite` and `pread` transfer everything or
report an error, sizes and counts stay inside the ranges of their C types. -/
def Exposed (SHA512 : Page → BlockId) (data : Set Page) (s : Store) : Call → Prop
  | .write path buf offset env =>
      buf.length < 2 ^ 31 ∧ (∀ page ∈ bufferPages buf, page ∈ data) ∧
        (∀ i, (env.pwrite i).Whole) ∧
        (Accepted s path buf offset → s.HasRoom (blockHashes SHA512 buf) ∧
          (s.listAt path).length + buf.length / 4096 < 2 ^ 31)
  | .read _ size offset env => size < 2 ^ 31 ∧ 0 ≤ offset ∧ ∀ k, (env.pread k).Whole
  | .remount blockOrder fileOrder room out =>
      (xmp_destroy blockOrder fileOrder room s).1 = true ∧ ∃ fd st_size, out = .ok fd st_size
  | _ => True

/-- The write meets no failing system call, or the index holds all its blocks. -/
def Traceless (SHA512 : Page → BlockId) (s : Store) : Call → Prop
  | .write path buf offset env => Accepted s path buf offset →
      Unfailing s (blockHashes SHA512 buf) env ∨
        ∀ hash ∈ blockHashes SHA512 buf, s.blockIndex.lookup hash ≠ none
  | _ => True

/-- Memory and block I/O never fail. -/
def Undisturbed (SHA512 : Page → BlockId) (data : Set Page) (s : Store) : Call → Prop
  | .write path buf offset env =>
      buf.length < 2 ^ 31 ∧ (∀ page ∈ bufferPages buf, page ∈ data) ∧ env.memalign = true ∧
        (∀ i, env.pwrite i = .full) ∧
        (Accepted s path buf offset → s.HasRoom (blockHashes SHA512 buf) ∧
          (s.listAt path).length + buf.length / 4096 < 2 ^ 31)
  | .read _ size offset env =>
      size < 2 ^ 31 ∧ 0 ≤ offset ∧ ∀ k, env.memalign k = true ∧ (env.pread k).Full
  | .remount blockOrder fileOrder room out =>
      (xmp_destroy blockOrder fileOrder room s).1 = true ∧ ∃ fd st_size, out = .ok fd st_size
  | _ => True

section Predicates

variable {SHA512 : Page → BlockId} {data : Set Page} {s : Store} {call : Call}

theorem Exposed.countable (exposed : Exposed SHA512 data s call) : Countable SHA512 s call := by
  cases call with
  | write path buf offset env => exact fun accepted => (exposed.2.2.2 accepted).1
  | remount blockOrder fileOrder room out => exact exposed.1
  | read | getattr | unlink => trivial

theorem Undisturbed.exposed (undisturbed : Undisturbed SHA512 data s call) :
    Exposed SHA512 data s call := by
  cases call with
  | write path buf offset env =>
      obtain ⟨bound, inData, -, full, room⟩ := undisturbed
      exact ⟨bound, inData, fun i => Or.inl (full i), room⟩
  | read path size offset env =>
      obtain ⟨bound, nonneg, full⟩ := undisturbed
      exact ⟨bound, nonneg, fun k => Or.inl (full k).2⟩
  | remount blockOrder fileOrder room out => exact undisturbed
  | getattr | unlink => trivial

theorem Undisturbed.traceless (undisturbed : Undisturbed SHA512 data s call) :
    Traceless SHA512 s call := by
  cases call with
  | write path buf offset env =>
      obtain ⟨-, -, granted, full, -⟩ := undisturbed
      exact fun _ => Or.inl ⟨granted, fun i _ _ _ _ => full i⟩
  | read | getattr | unlink | remount => trivial

end Predicates

/-! ## The invariant of a session -/

/-- The invariant of a file system between two calls, but for what its files hold:
the blocks in `bad`, and only they, may hold something else than their hash says. -/
structure Sound (SHA512 : Page → BlockId) (data : Set Page) (bad : Set BlockRef) (s : Store) :
    Prop where
  accounted : Accounted s
  online : s.backend_fd ≠ -1
  stored : Stored SHA512 data bad s
  oldBad : ∀ b ∈ bad, b < s.nextBlock
  size : ∀ path, s.sizeAt path = 4096 * (s.listAt path).length
  short : ∀ path, (s.listAt path).length < 2 ^ 31

/-- No block is bad, and the files hold what was written to them. -/
structure Faithful (SHA512 : Page → BlockId) (data : Set Page) (history : List Event) (s : Store) :
    Prop extends Sound SHA512 data ∅ s where
  contents : ∀ path, s.contents path = content history path

namespace Sound

variable {SHA512 : Page → BlockId} {data : Set Page} {bad : Set BlockRef} {s t : Store}
variable {path : Path}

theorem still (sound : Sound SHA512 data bad s) : Untouched SHA512 data bad s s :=
  .refl sound.stored sound.online

/-- The `logicalSize` of a path is the length of what it holds. -/
theorem sizeAt_eq (sound : Sound SHA512 data bad s) (path : Path) :
    s.sizeAt path = (s.contents path).length := by
  rw [sound.size]
  show (4096 : ℤ) * (s.listAt path).length = (listBytes s (s.listAt path)).length
  rw [length_listBytes]
  push_cast
  rfl

theorem untouched (sound : Sound SHA512 data bad s) (accounted : Accounted t)
    (untouched : Untouched SHA512 data bad s t) : Sound SHA512 data bad t where
  accounted := accounted
  online := untouched.online
  stored := untouched.stored
  oldBad b inBad := lt_of_lt_of_le (sound.oldBad b inBad) untouched.heap
  size p := by rw [untouched.sizeAt, untouched.length, sound.size]
  short p := by rw [untouched.length]; exact sound.short p

theorem extended (sound : Sound SHA512 data bad s) (accounted : Accounted t) {added : Bytes}
    (extended : Extended SHA512 data bad path added s t) (whole : added.length % 4096 = 0)
    (fits : (s.listAt path).length + added.length / 4096 < 2 ^ 31) : Sound SHA512 data bad t where
  accounted := accounted
  online := extended.online
  stored := extended.stored
  oldBad b inBad := lt_of_lt_of_le (sound.oldBad b inBad) extended.heap
  size p := by
    have blocks : (4096 : ℤ) * ((added.length / 4096 : ℕ) : ℤ) = added.length := by omega
    rw [extended.sizeAt, extended.length, sound.size]
    by_cases own : p = path
    · rw [if_pos own, if_pos own, Nat.cast_add, mul_add, blocks]
    · rw [if_neg own, if_neg own]
  short p := by
    rw [extended.length]
    by_cases own : p = path
    · rw [if_pos own, own]
      exact fits
    · rw [if_neg own]
      exact sound.short p

/-- **An accepted write** either extends its file, by its buffer unless it meets a
bad block, or was refused memory and changed nothing. -/
theorem accepted_write (sound : Sound SHA512 data bad s) (injective : Set.InjOn SHA512 data)
    {buf : Bytes} {offset : ℤ} {env : WriteEnv}
    (exposed : Exposed SHA512 data s (.write path buf offset env))
    (traceless : Traceless SHA512 s (.write path buf offset env))
    (accepted : Accepted s path buf offset) {ret : ℤ}
    (outcome : (ret, t) = appendBlocks SHA512 (findFile path s).1 buf offset env
      (findFile path s).2) :
    (ret = buf.length ∧ ∃ added, added.length = buf.length ∧
      Extended SHA512 data bad path added s t ∧
      ((∀ hash ∈ blockHashes SHA512 buf, ∀ b ∈ bad, s.blockIndex.lookup hash ≠ some b) →
        added = buf)) ∨
      (env.memalign = false ∧ ret = -ENOMEM ∧ Untouched SHA512 data bad s t) := by
  have filed := sound.accounted.filed
  have found := findFile_found filed path
  have untouched := findFile_untouched filed sound.stored sound.online path
  have accounted := sound.accounted.findFile path
  have sameIndex := found.outside.blockIndex
  obtain ⟨bound, inData, outcomes, counts⟩ := exposed
  have room := found.hasRoom (counts accepted).1
  have prepared := placeBlocks_prepared accounted.ledger room
  have offsetEq : offset = 4096 * ((s.listAt path).length : ℤ) := by
    rw [accepted.2, sound.size]
  have retEq : ret = (appendBlocks SHA512 _ buf offset env _).1 := congrArg Prod.fst outcome
  have storeEq : t = (appendBlocks SHA512 _ buf offset env _).2 := congrArg Prod.snd outcome
  rw [retEq, storeEq, offsetEq]
  -- either the I/O succeeds, or memory was refused to a write that created nothing
  have outcomeCases : (writeOut (findFile path s).1 buf env
      (placeBlocks (blockHashes SHA512 buf) (findFile path s).2).1
      (placeBlocks (blockHashes SHA512 buf) (findFile path s).2).2).1 = 0 ∨
      (env.memalign = false ∧
        ∀ hash ∈ blockHashes SHA512 buf, (findFile path s).2.blockIndex.lookup hash ≠ none) := by
    rcases traceless accepted with unfailing | known
    · left
      refine writeOut_noError prepared ⟨unfailing.1, fun i hash at_ absent => ?_⟩
      rw [sameIndex] at absent
      exact unfailing.2 i hash at_ absent
    · rw [← sameIndex] at known
      cases granted : env.memalign with
      | true =>
          left
          refine writeOut_noError prepared ⟨granted, fun i hash at_ absent => ?_⟩
          exact absurd absent (known hash (List.mem_of_getElem? at_))
      | false => exact Or.inr ⟨rfl, known⟩
  rcases outcomeCases with noError | ⟨refused, known⟩
  · have oldBad : ∀ b ∈ bad, b < (findFile path s).2.nextBlock := by
      rw [found.outside.nextBlock]
      exact sound.oldBad
    obtain ⟨value, added, length, extended, same⟩ := appendBlocks_extended injective accounted
      untouched.stored untouched.online found.lookup inData oldBad room accepted.1 bound
      (found.logicalSize.trans (sound.size path)) (sound.short path) outcomes noError
    rw [sameIndex] at same
    exact Or.inl ⟨value, added, length, untouched.extended extended, same⟩
  · obtain ⟨value, same⟩ := appendBlocks_refused (f := (findFile path s).1) accounted
      untouched.stored untouched.online room known refused (4096 * ((s.listAt path).length : ℤ))
    exact Or.inr ⟨refused, value, untouched.trans same⟩

/-- **A write**, if it leaves no trace of a failure: it failed and shows nowhere, or
it was acknowledged and appended as much as its buffer holds to its file. -/
theorem write (sound : Sound SHA512 data bad s) (injective : Set.InjOn SHA512 data) {buf : Bytes}
    {offset : ℤ} {env : WriteEnv} {ret : ℤ}
    (exposed : Exposed SHA512 data s (.write path buf offset env))
    (traceless : Traceless SHA512 s (.write path buf offset env))
    (runs : xmp_write SHA512 path buf offset env s = some (ret, t)) :
    Sound SHA512 data bad t ∧
      ((ret < 0 ∧ ∀ p, t.contents p = s.contents p) ∨
        (Accepted s path buf offset ∧ ret = buf.length ∧ ∃ added,
          (∀ p, t.contents p = if p = path then s.contents p ++ added else s.contents p) ∧
          ((∀ hash ∈ blockHashes SHA512 buf, ∀ b ∈ bad, s.blockIndex.lookup hash ≠ some b) →
            added = buf))) := by
  have accountedT := xmp_write_accounted sound.accounted exposed.countable runs
  have filed := sound.accounted.filed
  rcases xmp_write_cases filed runs with
    ⟨-, rfl, rfl⟩ | ⟨-, -, rfl, rfl⟩ | ⟨accepted, -, outcome⟩
  · exact ⟨sound, Or.inl ⟨by decide, fun _ => rfl⟩⟩
  · have untouched := findFile_untouched filed sound.stored sound.online path
    exact ⟨sound.untouched accountedT untouched, Or.inl ⟨by decide, untouched.contents⟩⟩
  rcases sound.accepted_write injective exposed traceless accepted outcome with
    ⟨value, added, length, extended, same⟩ | ⟨-, value, untouched⟩
  · have fits := (exposed.2.2.2 accepted).2
    rw [← length] at fits
    refine ⟨sound.extended accountedT extended (length ▸ accepted.1) fits, Or.inr ?_⟩
    exact ⟨accepted, value, added, extended.contents, same⟩
  · refine ⟨sound.untouched accountedT untouched, Or.inl ⟨?_, untouched.contents⟩⟩
    rw [value]
    decide

/-- **A removal**, whatever `unlink` did: it failed and shows nowhere, or it emptied
its path. -/
theorem unlink (sound : Sound SHA512 data bad s) {unlink : UnlinkOut}
    {order : IterOrder (BlockRef × ℤ)} {ret : ℤ}
    (runs : xmp_unlink path unlink order s = some (ret, t)) :
    Sound SHA512 data bad t ∧
      ((ret ≠ 0 ∧ ∀ p, t.contents p = s.contents p) ∨
        (ret = 0 ∧ ∀ p, t.contents p = if p = path then [] else s.contents p)) := by
  have accountedT := xmp_unlink_accounted sound.accounted runs
  rcases xmp_unlink_cases runs with ⟨-, rfl, rfl⟩ | ⟨-, -, rfl, rfl⟩ |
    ⟨f, errno, -, found, -, rfl, rfl⟩ | ⟨f, -, found, -, rfl, -, rfl⟩
  · exact ⟨sound, Or.inl ⟨by decide, fun _ => rfl⟩⟩
  · exact ⟨sound, Or.inl ⟨by decide, fun _ => rfl⟩⟩
  · obtain ⟨table, rest⟩ := reinsertFile_stealFile_rest s path f
    have positive : (0 : ℤ) < errno := by exact_mod_cast errno.pos
    have lists := reinsertFile_listAt found
    have untouched : Untouched SHA512 data bad s (reinsertFile path f (stealFile path s)) := by
      refine ⟨?_, ?_, fun p => ?_, fun p => by rw [lists], reinsertFile_sizeAt found, ?_⟩
      · rw [rest]
        exact sound.stored.transfer fun hash b inIndex written => ⟨inIndex, written, rfl⟩
      · rw [rest]
        exact sound.online
      · rw [Store.contents, lists, rest]
        rfl
      · rw [rest]
    exact ⟨sound.untouched accountedT untouched, Or.inl ⟨by omega, untouched.contents⟩⟩
  · have lists := released_listAt sound.accounted.filed found
      (releaseOrder order (s.files f).blockList)
    have sizes := released_sizeAt sound.accounted.filed found
      (releaseOrder order (s.files f).blockList)
    obtain ⟨storedT, pages⟩ := released_stored sound.stored path f
      (releaseOrder order (s.files f).blockList)
    have frame := foldl_releaseBlock_released (releaseOrder order (s.files f).blockList)
      (stealFile path s)
    refine ⟨⟨accountedT, ?_, storedT, fun b inBad => ?_, fun p => ?_, fun p => ?_⟩,
      Or.inr ⟨rfl, fun p => ?_⟩⟩
    · have same : (freeFilemeta f ((releaseOrder order (s.files f).blockList).foldl releaseBlock
          (stealFile path s))).backend_fd = s.backend_fd := frame.backend_fd
      rw [same]
      exact sound.online
    · have same : (freeFilemeta f ((releaseOrder order (s.files f).blockList).foldl releaseBlock
          (stealFile path s))).nextBlock = s.nextBlock := frame.nextBlock
      rw [same]
      exact sound.oldBad b inBad
    · rw [sizes, lists]
      by_cases own : p = path
      · rw [if_pos own, if_pos own]
        rfl
      · rw [if_neg own, if_neg own, sound.size]
    · rw [lists]
      by_cases own : p = path
      · rw [if_pos own]
        norm_num
      · rw [if_neg own]
        exact sound.short p
    · rw [Store.contents, lists]
      simp only [pages]
      by_cases own : p = path
      · rw [if_pos own, if_pos own]
        rfl
      · rw [if_neg own, if_neg own]
        rfl

/-- **A read** of an indexed file delivers a window of its contents. -/
theorem read (sound : Sound SHA512 data bad s) {f : FileRef} {size : ℕ} (offset : ℕ)
    {env : ReadEnv} (found : s.fileIndex.lookup path = some f) (bound : size < 2 ^ 31)
    (whole : ∀ k, (env.pread k).Whole) :
    ∃ ret buf, xmp_read path size offset env s = some (ret, buf) ∧
      (0 ≤ ret → buf = slice (s.contents path) offset size ∧ ret = buf.length) ∧
      (size % 4096 = 0 → (∀ k, env.memalign k = true ∧ (env.pread k).Full) → 0 ≤ ret) := by
  have sized := sound.size path
  have short := sound.short path
  rw [Store.listAt_of_lookup found] at sized short
  have logical : s.sizeAt path = (s.files f).logicalSize := by simp [Store.sizeAt, found]
  have bytes : s.contents path = listBytes s (s.files f).blockList := by
    rw [Store.contents, Store.listAt_of_lookup found]
    rfl
  rw [bytes]
  exact xmp_read_spec found sound.online (logical.symm.trans sized) short bound whole

/-- A read that reports no error, of whatever path. -/
theorem read_of_success (sound : Sound SHA512 data bad s) {size offset : ℕ} {env : ReadEnv}
    {ret : ℤ} {buf : Bytes} (bound : size < 2 ^ 31) (whole : ∀ k, (env.pread k).Whole)
    (runs : xmp_read path size offset env s = some (ret, buf)) (success : 0 ≤ ret) :
    buf = slice (s.contents path) offset size ∧ ret = buf.length := by
  cases found : s.fileIndex.lookup path with
  | some f =>
      obtain ⟨ret', buf', runs', delivered, -⟩ := sound.read offset found bound whole
      rw [runs] at runs'
      cases runs'
      exact delivered success
  | none =>
      unfold xmp_read at runs
      by_cases odd : size % 4096 ≠ 0
      · rw [if_pos odd] at runs
        cases runs
        exact absurd success (by decide)
      · rw [if_neg odd, found] at runs
        cases runs
        exact absurd success (by decide)

end Sound

namespace Faithful

variable {SHA512 : Page → BlockId} {data : Set Page} {history : List Event} {s t : Store}
variable {path : Path}

theorem empty (fd : ℕ) (sysdata : ByteDisk.Disk) :
    Faithful SHA512 data [] (Store.empty fd sysdata) where
  accounted := Accounted.empty fd sysdata
  online := by
    show (fd : ℤ) ≠ -1
    omega
  stored hash b found := by simp [Store.empty] at found
  oldBad b inBad := absurd inBad (Set.notMem_empty b)
  size path := by simp [Store.sizeAt, Store.listAt, Store.empty]
  short path := by simp [Store.listAt, Store.empty]
  contents path := by simp [Store.contents, Store.listAt, Store.empty]

/-- The `logicalSize` of a path is the length of what was written to it. -/
theorem sizeAt_eq (faithful : Faithful SHA512 data history s) (path : Path) :
    s.sizeAt path = (content history path).length := by
  rw [faithful.toSound.sizeAt_eq, faithful.contents]

/-- A call that changes nothing and is not recorded. -/
theorem unchanged (faithful : Faithful SHA512 data history s) {event : Event}
    (sound : Sound SHA512 data ∅ t) (contents : ∀ p, t.contents p = s.contents p)
    (silent : ∀ p bytes, written p bytes event = bytes) :
    Faithful SHA512 data (history ++ [event]) t :=
  ⟨sound, fun p => by rw [contents, content_snoc, silent, faithful.contents]⟩

/-- **A write keeps the session faithful** if it leaves no trace of a failure. -/
theorem write (faithful : Faithful SHA512 data history s) (injective : Set.InjOn SHA512 data)
    {buf : Bytes} {offset : ℤ} {env : WriteEnv} {ret : ℤ}
    (exposed : Exposed SHA512 data s (.write path buf offset env))
    (traceless : Traceless SHA512 s (.write path buf offset env))
    (runs : xmp_write SHA512 path buf offset env s = some (ret, t)) :
    Faithful SHA512 data (history ++ [(.write path buf offset env, .code ret)]) t := by
  obtain ⟨sound, ⟨negative, contents⟩ | ⟨-, value, added, contents, same⟩⟩ :=
    faithful.toSound.write injective exposed traceless runs
  · refine faithful.unchanged sound contents fun p bytes => ?_
    simp only [written]
    rw [if_neg fun both => absurd both.2 (not_le.mpr negative)]
  · have success : 0 ≤ ret := by
      rw [value]
      exact Int.natCast_nonneg _
    refine ⟨sound, fun p => ?_⟩
    rw [contents, content_snoc, faithful.contents,
      same fun _ _ b inBad => absurd inBad (Set.notMem_empty b)]
    simp only [written]
    by_cases own : p = path
    · rw [if_pos own, if_pos ⟨own.symm, success⟩]
    · rw [if_neg own, if_neg fun both => own both.1.symm]

/-- **A removal keeps the session faithful**, whatever `unlink` did. -/
theorem unlink (faithful : Faithful SHA512 data history s) {unlink : UnlinkOut}
    {order : IterOrder (BlockRef × ℤ)} {ret : ℤ}
    (runs : xmp_unlink path unlink order s = some (ret, t)) :
    Faithful SHA512 data (history ++ [(.unlink path unlink order, .code ret)]) t := by
  obtain ⟨sound, ⟨failed, contents⟩ | ⟨success, contents⟩⟩ := faithful.toSound.unlink runs
  · refine faithful.unchanged sound contents fun p bytes => ?_
    simp only [written]
    rw [if_neg fun both => failed both.2]
  · refine ⟨sound, fun p => ?_⟩
    rw [contents, content_snoc, faithful.contents]
    simp only [written]
    by_cases own : p = path
    · rw [if_pos own, if_pos ⟨own.symm, success⟩]
    · rw [if_neg own, if_neg fun both => own both.1.symm]

/-- A mounted copy is as sound as its blocks are. -/
theorem copy (faithful : Faithful SHA512 data history s) {moved : BlockRef → BlockRef}
    (copy : Store.CopyBy moved s t) {fd : ℕ} {sysdata : ByteDisk.Disk}
    (mounted : Mounted fd sysdata t) {bad : Set BlockRef}
    (stored : ∀ hash b, t.blockIndex.lookup hash = some b → b ∉ bad →
      t.pageOf b ∈ data ∧ SHA512 (t.pageOf b) = hash)
    (known : ∀ b ∈ bad, b < t.nextBlock) : Sound SHA512 data bad t := by
  have linked := faithful.accounted.linked
  refine ⟨?_, ?_, stored, known, fun p => ?_, fun p => ?_⟩
  · exact ⟨copy.ledger linked faithful.accounted.ledger mounted.blockFresh,
      ⟨(copy.linked linked).fileId, mounted.fileFresh⟩⟩
  · rw [mounted.backend_fd]
    omega
  · rw [copy.sizeAt, copy.listAt, List.length_map, faithful.size]
  · rw [copy.listAt, List.length_map]
    exact faithful.short p

/-- **A remount keeps the session faithful.** -/
theorem remount (faithful : Faithful SHA512 data history s) (fits : s.Fits)
    {blockOrder : IterOrder BlockRef} {fileOrder : IterOrder FileRef} {room : ℕ}
    (saved : (xmp_destroy blockOrder fileOrder room s).1 = true) (fd : ℕ) (st_size : Option ℤ)
    (reply : Reply) :
    Faithful SHA512 data (history ++ [(.remount blockOrder fileOrder room (.ok fd st_size), reply)])
      (xmp_init (.ok fd st_size) (some (xmp_destroy blockOrder fileOrder room s).2) s.sysdata) := by
  have linked := faithful.accounted.linked
  obtain ⟨⟨moved, copy⟩, mounted⟩ := xmp_init_copyBy linked fits saved (.ok fd st_size) s.sysdata
  have sound := faithful.copy copy mounted (copy.stored mounted.sysdata faithful.stored)
    fun b inBad => absurd inBad (Set.notMem_empty b)
  refine faithful.unchanged sound (copy.contents linked mounted.sysdata) fun p bytes => ?_
  cases reply <;> rfl

/-- **Every call keeps the session faithful.** -/
theorem step (faithful : Faithful SHA512 data history s) (injective : Set.InjOn SHA512 data)
    (fits : s.Fits) {call : Call} {reply : Reply} (exposed : Exposed SHA512 data s call)
    (traceless : Traceless SHA512 s call) (runs : exec SHA512 call s = some (reply, t)) :
    Faithful SHA512 data (history ++ [(call, reply)]) t := by
  cases call with
  | write path buf offset env =>
      obtain ⟨⟨ret, u⟩, outcome, same⟩ := Option.map_eq_some_iff.mp runs
      cases same
      exact faithful.write injective exposed traceless outcome
  | read path size offset env =>
      obtain ⟨⟨ret, buf⟩, -, same⟩ := Option.map_eq_some_iff.mp runs
      cases same
      exact faithful.unchanged faithful.toSound (fun _ => rfl) fun _ _ => rfl
  | getattr path lstat =>
      cases runs
      exact faithful.unchanged faithful.toSound (fun _ => rfl) fun _ _ => rfl
  | unlink path unlink order =>
      obtain ⟨⟨ret, u⟩, outcome, same⟩ := Option.map_eq_some_iff.mp runs
      cases same
      exact faithful.unlink outcome
  | remount blockOrder fileOrder room out =>
      cases runs
      obtain ⟨saved, fd, st_size, rfl⟩ := exposed
      exact faithful.remount fits saved fd st_size _

end Faithful

/-! ## Whole sessions -/

section Sessions

variable {SHA512 : Page → BlockId} {data : Set Page} {admitted : Store → Call → Prop}
variable {fd : ℕ} {sysdata : ByteDisk.Disk} {history : List Event} {s : Store}

theorem Runs.faithful (injective : Set.InjOn SHA512 data)
    (exposed : ∀ s call, admitted s call → Exposed SHA512 data s call)
    (traceless : ∀ s call, admitted s call → Traceless SHA512 s call)
    (run : Runs (Step SHA512 admitted) (Store.empty fd sysdata) history s) :
    Faithful SHA512 data history s :=
  run.invariant (Faithful SHA512 data) (Faithful.empty fd sysdata) fun earlier before move =>
    before.step injective (Runs.fits earlier) (exposed _ _ move.admitted)
      (traceless _ _ move.admitted) move.runs

/-- The replies of a file system without deduplication: a file is a byte string
that only grows at its end. -/
def Transparent (content : Path → Bytes) (s : Store) : Call → Reply → Prop
  | .write path buf offset _, reply => buf.length % 4096 = 0 →
      reply = .code (if offset = (content path).length then buf.length else -ENOTSUP)
  | .read path size offset _, reply => size % 4096 = 0 → s.fileIndex.lookup path ≠ none →
      reply = .data (slice (content path) offset.toNat size).length
        (slice (content path) offset.toNat size)
  | .getattr path lstat, reply => ∀ st_size st_blocks, lstat = .ok st_size st_blocks →
      (reserved path → reply = .stat ⟨-ENOENT, 0, 0⟩) ∧
        (¬ reserved path → s.fileIndex.lookup path ≠ none ∨ st_size = 0 →
          ∃ st_blocks, reply = .stat ⟨0, (content path).length, st_blocks⟩)
  | _, _ => True

/-- **Transparency of deduplication.**  In a session in which no system call
fails, every call has a defined result, and it is the one a file system without
deduplication would give. -/
theorem exec_transparent (injective : Set.InjOn SHA512 data)
    (run : Runs (Step SHA512 (Undisturbed SHA512 data)) (Store.empty fd sysdata) history s)
    {call : Call} (undisturbed : Undisturbed SHA512 data s call) :
    ∃ reply t, exec SHA512 call s = some (reply, t) ∧
      Transparent (content history) s call reply := by
  have faithful := Runs.faithful injective (fun _ _ admitted => admitted.exposed)
    (fun _ _ admitted => admitted.traceless) run
  have filed := faithful.accounted.filed
  cases call with
  | write path buf offset env =>
      have bound := undisturbed.1
      obtain ⟨ret, t, runs⟩ : ∃ ret t, xmp_write SHA512 path buf offset env s = some (ret, t) := by
        unfold xmp_write
        by_cases odd : buf.length % 4096 ≠ 0
        · exact ⟨_, _, if_pos odd⟩
        · rw [if_neg odd, if_neg (by omega)]
          simp only
          by_cases differ : offset ≠ ((findFile path s).2.files (findFile path s).1).logicalSize
          · exact ⟨_, _, if_pos differ⟩
          · exact ⟨_, _, if_neg differ⟩
      refine ⟨.code ret, t, Option.map_eq_some_iff.mpr ⟨(ret, t), runs, rfl⟩, fun aligned => ?_⟩
      rcases xmp_write_cases filed runs with
        ⟨odd, -, -⟩ | ⟨-, differ, rfl, -⟩ | ⟨accepted, -, outcome⟩
      · exact absurd aligned odd
      · rw [faithful.sizeAt_eq] at differ
        rw [if_neg differ]
      · rcases faithful.accepted_write injective undisturbed.exposed undisturbed.traceless accepted
          outcome with ⟨value, -⟩ | ⟨refused, -⟩
        · rw [if_pos (accepted.2.trans (faithful.sizeAt_eq path)), value]
        · have granted := undisturbed.2.2.1
          rw [refused] at granted
          cases granted
  | read path size offset env =>
      obtain ⟨bound, nonneg, full⟩ := undisturbed
      obtain ⟨position, rfl⟩ := Int.eq_ofNat_of_zero_le nonneg
      cases found : s.fileIndex.lookup path with
      | none =>
          obtain ⟨ret, buf, runs⟩ : ∃ ret buf,
              xmp_read path size (position : ℤ) env s = some (ret, buf) := by
            unfold xmp_read
            by_cases odd : size % 4096 ≠ 0
            · exact ⟨_, _, if_pos odd⟩
            · rw [if_neg odd, found]
              exact ⟨_, _, rfl⟩
          exact ⟨.data ret buf, s, Option.map_eq_some_iff.mpr ⟨(ret, buf), runs, rfl⟩,
            fun _ present => absurd found present⟩
      | some f =>
          obtain ⟨ret, buf, runs, delivered, success⟩ := faithful.read position found
            bound fun k => Or.inl (full k).2
          rw [faithful.contents] at delivered
          refine ⟨.data ret buf, s, Option.map_eq_some_iff.mpr ⟨(ret, buf), runs, rfl⟩,
            fun aligned _ => ?_⟩
          obtain ⟨bytes, value⟩ := delivered (success aligned full)
          rw [value, bytes]
          rfl
  | getattr path lstat =>
      refine ⟨.stat (xmp_getattr path lstat s), s, rfl, ?_⟩
      rintro st_size st_blocks rfl
      refine ⟨fun own => ?_, fun other present => ?_⟩
      · rw [xmp_getattr, if_pos own]
      · have size := faithful.sizeAt_eq path
        rw [xmp_getattr, if_neg other]
        simp only [overrideStat]
        unfold Store.sizeAt at size
        cases found : s.fileIndex.lookup path with
        | some f =>
            rw [found] at size
            exact ⟨_, by rw [← size]⟩
        | none =>
            rw [found] at size
            rcases present with inIndex | rfl
            · exact absurd found inIndex
            · exact ⟨_, by rw [← size]⟩
  | unlink path unlink order =>
      obtain ⟨ret, t, runs⟩ : ∃ ret t, xmp_unlink path unlink order s = some (ret, t) := by
        unfold xmp_unlink
        by_cases own : reserved path
        · exact ⟨_, _, if_pos own⟩
        · rw [if_neg own]
          cases found : s.fileIndex.lookup path with
          | none => exact ⟨_, _, rfl⟩
          | some f =>
              have short := faithful.short path
              rw [Store.listAt_of_lookup found] at short
              have notLong : ¬ 2 ^ 31 ≤ ((stealFile path s).files f).blockList.length :=
                not_le.mpr short
              cases unlink with
              | fail errno => exact ⟨_, _, rfl⟩
              | ok => exact ⟨_, _, if_neg notLong⟩
              | enoent => exact ⟨_, _, if_neg notLong⟩
      exact ⟨.code ret, t, Option.map_eq_some_iff.mpr ⟨(ret, t), runs, rfl⟩, trivial⟩
  | remount blockOrder fileOrder room out => exact ⟨_, _, rfl, trivial⟩

/-- The first write of a session, if nothing fails. -/
theorem undisturbed_first {path : Path} {page : Page} (inData : page ∈ data) :
    Undisturbed SHA512 data (Store.empty fd sysdata) (.write path page.toList 0 .fine) := by
  have length : page.toList.length = 4096 := length_page page
  refine ⟨by omega, fun other member => ?_, rfl, fun _ => rfl, fun _ => ⟨hasRoom_first, ?_⟩⟩
  · rw [bufferPages_page, List.mem_singleton] at member
    rwa [member]
  · have nothing : (Store.empty fd sysdata).listAt path = [] := Store.listAt_of_none rfl
    rw [nothing, length]
    decide

theorem exec_transparent_holdsA :
    ∃ reply t, exec (fun _ => digestOfA)
        (.read (CString.lit "/a") 4096 0 ⟨fun _ => true, fun _ => .done (Fin.last 4096) pageOfA⟩)
        holdsA = some (reply, t) ∧
      Transparent (content [(.write (CString.lit "/a") pageOfA.toList 0 .fine, .code 4096)])
        holdsA (.read (CString.lit "/a") 4096 0
          ⟨fun _ => true, fun _ => .done (Fin.last 4096) pageOfA⟩) reply :=
  exec_transparent (Set.injOn_singleton _ pageOfA)
    (runs_first _ _ (by decide) rfl rfl (undisturbed_first (Set.mem_singleton pageOfA)))
    ⟨by norm_num, le_rfl, fun _ => ⟨rfl, pageOfA, rfl⟩⟩

/-- The store's own files are not there for `xmp_getattr`, whatever was written
under their names. -/
theorem getattr_reserved_not_transparent :
    ¬ ∀ (SHA512 : Page → BlockId) (data : Set Page) (fd : ℕ) (sysdata : ByteDisk.Disk)
      (history : List Event) (s : Store), Set.InjOn SHA512 data →
      Runs (Step SHA512 (Undisturbed SHA512 data)) (Store.empty fd sysdata) history s →
      ∀ path, ∃ st_blocks, exec SHA512 (.getattr path (.ok 0 0)) s =
        some (.stat ⟨0, (content history path).length, st_blocks⟩, s) := by
  intro claim
  have short : (CString.lit "/backend/.metadata").bytes.length < 2 ^ 64 := by decide
  obtain ⟨st_blocks, replied⟩ := claim (fun _ => digestOfA) {pageOfA} 3 (fun _ => 0) _ _
    (Set.injOn_singleton _ pageOfA)
    (runs_first _ _ short rfl rfl (undisturbed_first (Set.mem_singleton pageOfA)))
    (CString.lit "/backend/.metadata")
  have hidden : ∀ s, xmp_getattr (CString.lit "/backend/.metadata") (.ok 0 0) s =
      ⟨-ENOENT, 0, 0⟩ := fun s => if_pos (Or.inl rfl)
  rw [exec, hidden] at replied
  injection replied with pair
  injection pair with reply
  injection reply with stbuf
  injection stbuf with ret
  exact absurd ret (by decide)

end Sessions

end ProjetoTSO.Codededup
