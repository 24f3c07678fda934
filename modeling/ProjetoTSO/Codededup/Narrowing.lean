import ProjetoTSO.Codededup.Counts
import ProjetoTSO.Codededup.Sizes

/-!
# Counts kept in an `int`

`blockmeta.counter`, the block indices of `xmp_read`, and the loop variable and the tallies of
`xmp_unlink` are `int`s, while `xmp_write` bounds neither the length of a file nor the references
to a block.  They are exact as long as no write takes a counter, or the number of blocks of a
file, to `2 ^ 31` (`counts_exact_in_range`); one page appended over and over gets there
(`counter_overflows`).
-/

namespace ProjetoTSO.Codededup

open CInt ByteStream Transition

/-- No call fails: an accepted write returns its size, and a remount finds the metadata file
complete. -/
def Completes (SHA512 : Page → BlockId) (s : Store) : Call → Prop
  | .remount blockOrder fileOrder room _ => (xmp_destroy blockOrder fileOrder room s).1 = true
  | call => Succeeds SHA512 s call

/-- An accepted write takes no counter to `2 ^ 31`, and its file not to `2 ^ 31` blocks. -/
def InRange (SHA512 : Page → BlockId) (s : Store) : Call → Prop
  | .write path buf offset _ => Accepted s path buf offset →
      s.HasRoom (blockHashes SHA512 buf) ∧ (s.listAt path).length + buf.length / 4096 < 2 ^ 31
  | _ => True

/-- The `int`s of the program are the numbers they stand for. -/
structure ExactCounts (s : Store) : Prop where
  counter : ∀ {hash b}, s.blockIndex.lookup hash = some b → (s.blocks b).counter = s.references b
  /-- The loops of a read run from the index of its first byte to that of its last. -/
  indices : ∀ {path f}, s.fileIndex.lookup path = some f → ∀ (offset size : ℕ),
    offset < (s.files f).logicalSize → offset + size < 2 ^ 63 →
    let clamped := clampSize (s.files f).logicalSize offset size
    startIndex offset = (offset : ℤ) / 4096 ∧ endIndex offset clamped = ((offset : ℤ) + clamped - 1) / 4096 ∧
      ∃ entries, windowBlocks (s.files f).blockList (startIndex offset) (endIndex offset clamped) =
        some entries ∧ ∀ entry ∈ entries, 0 ≤ entry.1 ∧ entry.1 < (s.files f).blockList.length
  /-- The loop of an unlink reaches the length of the list. -/
  length : ∀ {path f}, s.fileIndex.lookup path = some f → (s.files f).blockList.length < 2 ^ 31
  tallies : ∀ {path f}, s.fileIndex.lookup path = some f → ∀ b n,
    (blockCounts (s.files f).blockList).lookup b = some n →
      n = (s.files f).blockList.count b ∧ n < 2 ^ 31

/-! ## The length of the lists -/

/-- No list has `2 ^ 31` blocks. -/
def Store.Short (s : Store) : Prop := ∀ path, (s.listAt path).length < 2 ^ 31

section Short

variable {SHA512 : Page → BlockId} {s t : Store} {path : Path}

theorem xmp_write_short_lists (filed : s.Filed) (short : s.Short) {buf : Bytes} {offset : ℤ}
    {env : WriteEnv} {ret : ℤ} (inRange : InRange SHA512 s (.write path buf offset env))
    (runs : xmp_write SHA512 path buf offset env s = some (ret, t)) : t.Short := by
  have found := findFile_found filed path
  rcases xmp_write_cases filed runs with ⟨-, -, rfl⟩ | ⟨-, -, -, rfl⟩ | ⟨accepted, -, outcome⟩
  · exact short
  · intro p
    rw [found.listAt]
    exact short p
  obtain ⟨-, few⟩ := inRange accepted
  rw [← found.listAt] at few
  have before : ∀ p, ((findFile path s).2.listAt p).length < 2 ^ 31 := fun p => by
    rw [found.listAt]
    exact short p
  obtain ⟨only, length⟩ := placeBlocks_blocksOnly (blockHashes SHA512 buf) (findFile path s).2
  rw [length_blockHashes] at length
  obtain ⟨added, isPrefix, appended, -⟩ := @writeOut_lists (findFile path s).1 buf env _ _ length
  have most := isPrefix.length_le
  rw [length, length_bufferPages] at most
  have filed' := found.filed.congr only.fileIndex only.files only.nextFile
  have index : (placeBlocks (blockHashes SHA512 buf) (findFile path s).2).2.fileIndex.lookup path =
      some (findFile path s).1 := by
    rw [only.fileIndex]
    exact found.lookup
  have indexOut := index
  rw [← appended.fileIndex] at indexOut
  rw [appendBlocks_eq] at outcome
  obtain rfl := congrArg Prod.snd outcome
  intro p
  show ((growFile _ _ _ _ _).listAt p).length < _
  rw [growFile_listAt (appended.filed filed') indexOut, appended.listAt filed' index,
    Store.listAt_congr only.fileIndex only.files, Store.listAt_congr only.fileIndex only.files]
  split_ifs
  · rw [List.length_append]
    omega
  · exact before p

theorem xmp_unlink_short_lists (filed : s.Filed) (short : s.Short) {unlink : UnlinkOut}
    {order : IterOrder (BlockRef × ℤ)} {ret : ℤ}
    (runs : xmp_unlink path unlink order s = some (ret, t)) : t.Short := by
  rcases xmp_unlink_cases runs with ⟨-, -, rfl⟩ | ⟨-, -, -, rfl⟩ |
    ⟨f, errno, -, found, -, -, rfl⟩ | ⟨f, -, found, -, -, -, rfl⟩
  · exact short
  · exact short
  · intro p
    rw [reinsertFile_listAt found]
    exact short p
  · intro p
    rw [released_listAt filed found]
    split_ifs
    · exact Nat.two_pow_pos 31
    · exact short p

theorem Store.CopyBy.short {moved : BlockRef → BlockRef} (copy : Store.CopyBy moved s t)
    (short : s.Short) : t.Short := by
  intro path
  rw [copy.listAt, List.length_map]
  exact short path

end Short

/-! ## Sessions -/

section Sessions

variable {SHA512 : Page → BlockId} {fd : ℤ} {sysdata : ByteDisk.Disk} {history : List Event}
variable {s : Store}

theorem countable_in_range {call : Call} (completes : Completes SHA512 s call)
    (inRange : InRange SHA512 s call) : Countable SHA512 s call := by
  cases call with
  | write path buf offset env => exact fun accepted => (inRange accepted).1
  | remount blockOrder fileOrder room out => exact completes
  | read | getattr | unlink => trivial

theorem Completes.succeeds {call : Call} (completes : Completes SHA512 s call) :
    Succeeds SHA512 s call := by
  cases call with
  | remount => trivial
  | write | read | getattr | unlink => exact completes

/-- The lists of a session whose writes stay in range are short. -/
theorem Runs.short
    (run : Runs (Step SHA512 fun s call => Completes SHA512 s call ∧ InRange SHA512 s call)
      (Store.empty fd sysdata) history s) : s.Short := by
  refine run.invariant (fun _ s => s.Short) (fun path => ?_) ?_
  · rw [Store.listAt_of_none (s := Store.empty fd sysdata) rfl]
    exact Nat.two_pow_pos 31
  rintro history s ⟨call, reply⟩ t earlier short ⟨runs, -, completes, inRange⟩
  have accounted := Runs.accounted (fun _ _ both => countable_in_range both.1 both.2) earlier
  cases call with
  | write path buf offset env =>
      obtain ⟨⟨ret, u⟩, outcome, same⟩ := Option.map_eq_some_iff.mp runs
      cases same
      exact xmp_write_short_lists accounted.filed short inRange outcome
  | read path size offset env =>
      obtain ⟨⟨ret, buf⟩, -, same⟩ := Option.map_eq_some_iff.mp runs
      cases same
      exact short
  | getattr path lstat =>
      cases runs
      exact short
  | unlink path unlink order =>
      obtain ⟨⟨ret, u⟩, outcome, same⟩ := Option.map_eq_some_iff.mp runs
      cases same
      exact xmp_unlink_short_lists accounted.filed short outcome
  | remount blockOrder fileOrder room out =>
      cases runs
      obtain ⟨⟨moved, copy⟩, -⟩ :=
        xmp_init_copyBy accounted.linked (Runs.fits earlier) completes out s.sysdata
      exact copy.short short

/-- **Exact `int`s.**  In a session in which no call fails, and no write takes a counter or the
number of blocks of a file to `2 ^ 31`, every counter is the number of references to its block,
reads and removals use the indices they mean, and nothing overflows. -/
theorem counts_exact_in_range
    (run : Runs (Step SHA512 fun s call => Completes SHA512 s call ∧ InRange SHA512 s call)
      (Store.empty fd sysdata) history s) : ExactCounts s := by
  have balanced := Runs.balanced (fun _ _ both => countable_in_range both.1 both.2)
    (fun _ _ _ both => both.1.succeeds) run
  have short : ∀ {path f}, s.fileIndex.lookup path = some f →
      (s.files f).blockList.length < 2 ^ 31 := by
    intro path f found
    rw [← Store.listAt_of_lookup found]
    exact Runs.short run path
  refine ⟨fun found => balanced _ _ found, ?_, short, ?_⟩
  · intro path f found offset size inside bound
    obtain ⟨blocks, length, listed⟩ := Runs.sized run f
    have few := short found
    have clamped : clampSize (s.files f).logicalSize offset size =
        min size (4096 * blocks - offset) := by
      rw [length]
      exact_mod_cast @clampSize_eq offset size (4096 * blocks) (by omega) (by omega) (by omega)
    simp only [clamped]
    have start := @startIndex_eq offset (by omega)
    have stop := @endIndex_eq offset (min size (4096 * blocks - offset)) (by omega)
    have within : offset / 4096 + blocksRead offset (min size (4096 * blocks - offset)) ≤
        (s.files f).blockList.length := by
      unfold blocksRead
      omega
    refine ⟨?_, ?_, entriesFrom (s.files f).blockList (offset / 4096)
      (blocksRead offset (min size (4096 * blocks - offset))), ?_, fun entry member => ?_⟩
    · rw [start]
      push_cast
      rfl
    · unfold blocksRead at stop
      omega
    · rw [start]
      exact windowBlocks_eq within (by omega) stop
    · obtain ⟨lower, upper⟩ := mem_entriesFrom member
      exact ⟨lower, upper.trans_le (by exact_mod_cast within)⟩
  · intro path f found b n tally
    have few := short found
    rw [blockCounts_lookup] at tally
    split_ifs at tally
    have count := @List.count_le_length _ _ b (s.files f).blockList
    obtain rfl := Option.some.inj tally
    exact ⟨rfl, by omega⟩

theorem counts_exact_in_range_page : ExactCounts (Store.onePage (3 : ℕ) (fun _ => 0)
    (CString.lit "/a") (letterDigest pageOfA) pageOfA) := by
  refine counts_exact_in_range <| runs_first letterDigest .fine (by decide) rfl rfl
    ⟨fun _ => ?_, fun _ => ⟨hasRoom_first, ?_⟩⟩
  · have length : pageOfA.toList.length = 4096 := length_page pageOfA
    rw [length]
    exact ⟨_, xmp_write_first rfl rfl⟩
  · have length : pageOfA.toList.length = 4096 := length_page pageOfA
    rw [length, Store.listAt_of_none (s := Store.empty (3 : ℕ) fun _ => 0) rfl]
    norm_num

end Sessions

/-! ## One page over and over -/

section Repeated

variable {SHA512 : Page → BlockId} {fd : ℕ} {sysdata : ByteDisk.Disk} {path : Path} {page : Page}

/-- A file that has one page `n + 1` times. -/
def Store.repeated (fd : ℕ) (sysdata : ByteDisk.Disk) (path : Path) (hash : BlockId) (n : ℕ) :
    Store :=
  Store.single fd sysdata ⟨path, 4096, 4096 * (n + 1), List.replicate (n + 1) 0, true, false⟩
    (.atStart hash (int32 (n + 1)))

theorem Store.repeated_fits {hash : BlockId} {n : ℕ} (short : path.bytes.length < 2 ^ 64)
    (few : n + 1 < 2 ^ 32) : (Store.repeated fd sysdata path hash n).Fits := by
  have offset : ∀ k : ℕ, k < 2 ^ 45 → FitsOff k := fun k bound => ⟨by omega, by omega⟩
  have size : FitsOff (4096 * ((n : ℤ) + 1)) := by
    have := offset (4096 * (n + 1)) (by omega)
    push_cast at this
    exact this
  have list : (List.replicate (n + 1) 0).length < 2 ^ 32 := by
    rw [List.length_replicate]
    exact few
  exact Store.single_fits _ _ ⟨short, offset 4096 (by norm_num), size, list⟩
    (Blockmeta.atStart_fits hash (int32_range _).1 (int32_range _).2)

/-- Appending the page once more. -/
theorem xmp_write_repeated {n : ℕ} (few : n + 1 < 2 ^ 32) :
    xmp_write SHA512 path page.toList (4096 * (n + 1)) .fine
        (Store.repeated fd sysdata path (SHA512 page) n) =
      some (4096, Store.repeated fd sysdata path (SHA512 page) (n + 1)) := by
  have known : (Store.repeated fd sysdata path (SHA512 page) n).blockIndex.lookup (SHA512 page) =
      some 0 := Store.single_blockIndex _ _ _ (.atStart (SHA512 page) (int32 (n + 1)))
  have found : (Store.repeated fd sysdata path (SHA512 page) n).fileIndex.lookup path = some 0 :=
    Store.single_fileIndex _ _ ⟨path, 4096, 4096 * (n + 1), List.replicate (n + 1) 0, true, false⟩ _
  have file : (Store.repeated fd sysdata path (SHA512 page) n).files 0 =
      ⟨path, 4096, 4096 * (n + 1), List.replicate (n + 1) 0, true, false⟩ :=
    Store.single_files _ _ _ _
  have before : uint64 (4096 * ((n : ℤ) + 1)) = 4096 * (n + 1) := by
    have := uint64_natCast (n := 4096 * (n + 1)) (by omega)
    push_cast at this
    exact this
  have after : uint64 (4096 * ((n : ℤ) + 1) + (4096 : ℕ)) = 4096 * (n + 2) := by
    have cast : 4096 * ((n : ℤ) + 1) + (4096 : ℕ) = ((4096 * (n + 2) : ℕ) : ℤ) := by
      push_cast
      ring
    rw [cast]
    exact uint64_natCast (by omega)
  have grows : True ∧ 4096 * (n + 1) < 4096 * (n + 2) := ⟨trivial, by omega⟩
  have signed : int64 ((4096 * (n + 2) : ℕ) : ℤ) = 4096 * (((n + 1 : ℕ) : ℤ) + 1) := by
    rw [int64_eq (by omega) (by omega)]
    push_cast
    ring
  have counted : int32 (int32 ((n : ℤ) + 1) + 1) = int32 (((n + 1 : ℕ) : ℤ) + 1) := by
    rw [int32_int32_add]
    push_cast
    rfl
  have appended := xmp_write_known .fine found known rfl
  rw [file] at appended
  rw [appended]
  refine congrArg (fun t => some ((4096 : ℤ), t)) ?_
  have raised : raiseCounter 0 (Store.repeated fd sysdata path (SHA512 page) n) =
      Store.single fd sysdata ⟨path, 4096, 4096 * (n + 1), List.replicate (n + 1) 0, true, false⟩
        (.atStart (SHA512 page) (int32 (((n + 1 : ℕ) : ℤ) + 1))) := by
    rw [Store.repeated, raiseCounter_atStart, counted]
  rw [raised]
  simp only [growFile, Store.setFile_files_self, before, after, signed]
  rw [if_pos grows]
  rw [← List.replicate_succ']
  simp [Store.setFile, Store.repeated, Store.single]

/-- A session that appends one page again and again. -/
theorem runs_repeated (SHA512 : Page → BlockId) (fd : ℕ) (sysdata : ByteDisk.Disk) (path : Path)
    (page : Page) (short : path.bytes.length < 2 ^ 64) (n : ℕ) (few : n + 1 < 2 ^ 32) :
    ∃ history, Runs (Step SHA512 (Completes SHA512)) (Store.empty fd sysdata) history
      (Store.repeated fd (ByteDisk.write sysdata 0 page.toList) path (SHA512 page) n) := by
  have length : page.toList.length = 4096 := length_page page
  induction n with
  | zero =>
      have completes : Completes SHA512 (Store.empty fd sysdata) (.write path page.toList 0 .fine) := by
        intro _
        rw [length]
        exact ⟨_, xmp_write_first rfl rfl⟩
      exact ⟨_, runs_first SHA512 .fine short rfl rfl completes⟩
  | succ n ih =>
      obtain ⟨history, earlier⟩ := ih (by omega)
      have again := @xmp_write_repeated SHA512 fd (ByteDisk.write sysdata 0 page.toList) path page n
        (by omega)
      have step : Step SHA512 (Completes SHA512)
          (Store.repeated fd (ByteDisk.write sysdata 0 page.toList) path (SHA512 page) n)
          (.write path page.toList (4096 * (n + 1)) .fine, .code 4096)
          (Store.repeated fd (ByteDisk.write sysdata 0 page.toList) path (SHA512 page) (n + 1)) := by
        refine ⟨?_, Store.repeated_fits short few, fun _ => ?_⟩
        · rw [exec, again]
          rfl
        · rw [again, length]
          exact ⟨_, rfl⟩
      exact ⟨_, .snoc earlier step⟩

/-- After `2 ^ 31` appends of one page, its counter is negative. -/
theorem counter_overflows :
    ∃ history s, Runs (Step letterDigest (Completes letterDigest))
      (Store.empty (3 : ℕ) fun _ => 0) history s ∧ ¬ ExactCounts s := by
  obtain ⟨history, run⟩ := runs_repeated letterDigest 3 (fun _ => 0) (CString.lit "/a") pageOfA
    (by decide) (2 ^ 31 - 1) (by norm_num)
  refine ⟨history, _, run, fun exact_ => ?_⟩
  have found := Store.single_blockIndex (3 : ℕ) (ByteDisk.write (fun _ => 0) 0 pageOfA.toList)
    ⟨CString.lit "/a", 4096, 4096 * (((2 ^ 31 - 1 : ℕ) : ℤ) + 1), List.replicate (2 ^ 31 - 1 + 1) 0,
      true, false⟩ (.atStart (letterDigest pageOfA) (int32 (((2 ^ 31 - 1 : ℕ) : ℤ) + 1)))
  have counter := exact_.counter found
  have wrapped : int32 (((2 ^ 31 - 1 : ℕ) : ℤ) + 1) < 0 := by decide
  rw [Store.repeated, Store.single_blocks] at counter
  have counter : int32 (((2 ^ 31 - 1 : ℕ) : ℤ) + 1) = _ := counter
  rw [counter] at wrapped
  exact absurd wrapped (by omega)

end Repeated

end ProjetoTSO.Codededup
