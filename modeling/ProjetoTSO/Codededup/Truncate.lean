import ProjetoTSO.Codededup.Acknowledged
import ProjetoTSO.Codededup.Rename
import ProjetoTSO.Codededup.ReservedFiles
import ProjetoTSO.Codededup.Sizes

/-!
# What `xmp_truncate` does to a written file

The length of a written file and its blocks are in the store; `xmp_truncate` resizes the
placeholder in the backend tree and returns 0.  What it returned 0 for is therefore true in the
one case in which there was nothing to do (`truncate_honest_iff`).
-/

namespace ProjetoTSO.Codededup

open ByteStream Chunks CInt Transition

/-- What can be read of a file: the bytes of its blocks, up to its length. -/
def Store.readable (s : Store) (path : Path) : Bytes := (s.contents path).take (s.sizeAt path).toNat

/-- The first `size` bytes, followed by zeros up to that length. -/
def resized (size : ℕ) (bytes : Bytes) : Bytes :=
  bytes.take size ++ List.replicate (size - bytes.length) 0

/-- No transfer of a read fails. -/
def ReadEnv.Undisturbed (env : ReadEnv) : Prop :=
  ∀ k, env.memalign k = true ∧ (env.pread k).Full

/-- What a truncation of a file that held `old` promises of the store and the tree it leaves. -/
structure Truncated (SHA512 : Page → BlockId) (path : Path) (size : ℤ) (old : Bytes) (s : Store)
    (b : Backend) : Prop where
  getattr : (xmp_getattr path (b.lstat path) s).ret = 0 ∧
    (xmp_getattr path (b.lstat path) s).st_size = size
  reads : ∀ (count offset : ℕ) (env : ReadEnv), count % 4096 = 0 → count < 2 ^ 31 →
    env.Undisturbed → xmp_read path count offset env s =
      some (((slice (resized size.toNat old) offset count).length : ℤ),
        slice (resized size.toNat old) offset count)
  appends : ∀ buf : Bytes, buf.length % 4096 = 0 → buf.length < 2 ^ 31 →
    ∃ t, xmp_write SHA512 path buf size .fine s = some ((buf.length : ℤ), t)
  released : 4096 * ((s.listAt path).length : ℤ) < size + 4096

/-! ## The handler -/

section Handler

variable {follow : Backend → Bytes → Bytes} {SHA512 : Page → BlockId} {s : Store} {path : Path}
variable {size : ℤ} {fh : Option ℕ} {b b' : Backend} {served : Served}

theorem changeAt_entries (p : Bytes) (change : Inode → Inode) :
    (b.changeAt p change).entries = b.entries := by
  unfold Backend.changeAt
  cases b.entries p <;> rfl

/-- A call that only resizes a file, handed through. -/
theorem passthrough_resize {call : Syscall} {ret : ℤ}
    (entries : (call.effect follow b).entries = b.entries) (zero : ∀ out, call.Returns follow b out →
      out = .ok 0) (runs : (Handlers.passthrough call).Runs follow b ret b') :
    ret = 0 ∧ b'.entries = b.entries ∨ ret < 0 ∧ b' = b := by
  cases runs with
  | sys made rest =>
      cases rest
      cases made with
      | fail errno =>
          refine Or.inr ⟨?_, rfl⟩
          have positive : (0 : ℤ) < errno := by exact_mod_cast errno.pos
          show -(errno : ℤ) < 0
          omega
      | done allowed returns =>
          rw [zero _ returns]
          exact Or.inl ⟨rfl, entries⟩

/-- The handler returns 0 and leaves every entry, or an error and leaves everything. -/
theorem truncate_serves
    (runs : ((Request.truncate path size fh).serve SHA512 s).Runs follow b (some served) b') :
    served.store = s ∧
      (served.reply = .code 0 ∧ b'.entries = b.entries ∨
        ∃ ret < 0, served.reply = .code ret ∧ b' = b) := by
  obtain ⟨ret, same, inner⟩ := runs.of_map
  cases same
  refine ⟨rfl, ?_⟩
  have ended : ret = 0 ∧ b'.entries = b.entries ∨ ret < 0 ∧ b' = b := by
    cases fh with
    | none =>
        exact @passthrough_resize follow b b' (.truncate path size) ret (changeAt_entries _ _)
          (fun _ returns => returns) inner
    | some fd =>
        exact @passthrough_resize follow b b' (.ftruncate fd size) ret rfl
          (fun _ returns => returns) inner
  rcases ended with ⟨rfl, entries⟩ | ⟨negative, unchanged⟩
  · exact Or.inl ⟨rfl, entries⟩
  · exact Or.inr ⟨ret, negative, rfl, unchanged⟩

/-- What `xmp_getattr` finds in a tree with the same entries. -/
theorem getattr_of_entries {f : FileRef} (found : s.fileIndex.lookup path = some f)
    (seen : (xmp_getattr path (b.lstat path) s).ret = 0) (entries : b'.entries = b.entries) :
    (xmp_getattr path (b'.lstat path) s).ret = 0 ∧
      (xmp_getattr path (b'.lstat path) s).st_size = (s.files f).logicalSize := by
  have nonzero : -ENOENT ≠ 0 := by decide
  by_cases hidden : reserved path
  · rw [xmp_getattr_hidden hidden] at seen
    exact absurd seen nonzero
  cases entry : b.entries path.bytes with
  | none =>
      rw [xmp_getattr_absent entry] at seen
      exact absurd seen nonzero
  | some i =>
      rw [xmp_getattr_present hidden ((congrFun entries path.bytes).trans entry), overrideStat, found]
      exact ⟨rfl, rfl⟩

end Handler

/-! ## The next append -/

theorem writeBlocks_fine (f : FileRef) (entries : List (BlockRef × Page)) :
    ∀ (k : ℕ) (created : List BlockRef) (s : Store),
      (writeBlocks f .fine k entries created s).1 = 0 := by
  have one : ∀ (k : ℕ) (entry : BlockRef × Page) (created : List BlockRef) (s : Store),
      (writeBlock f (WriteEnv.fine.pwrite k) entry created s).1 = 0 := by
    intro k entry created s
    unfold writeBlock
    by_cases mine : entry.1 ∈ created
    · by_cases closed : s.backend_fd = -1
      · simp only [mine, closed, if_true]
      · simp only [mine, closed, if_true, if_false]
        rfl
    · simp only [mine, if_false]
  induction entries with
  | nil => exact fun _ _ _ => rfl
  | cons entry entries ih =>
      intro k created s
      have first := one k entry created s
      rw [writeBlocks]
      generalize writeBlock f (WriteEnv.fine.pwrite k) entry created s = outcome at first ⊢
      obtain ⟨err, created', s'⟩ := outcome
      simp only at first ⊢
      rw [if_neg (not_not.mpr first)]
      exact ih _ _ _

/-- At the end of a file, and there only, an append is accepted. -/
theorem xmp_write_fine_iff {SHA512 : Page → BlockId} {s : Store} {path : Path} {f : FileRef}
    (found : s.fileIndex.lookup path = some f) {offset : ℤ} {buf : Bytes}
    (aligned : buf.length % 4096 = 0) (bound : buf.length < 2 ^ 31) :
    (∃ t, xmp_write SHA512 path buf offset .fine s = some ((buf.length : ℤ), t)) ↔
      offset = (s.files f).logicalSize := by
  have known : findFile path s = (f, s) := by
    rw [findFile, found]
  unfold xmp_write
  rw [if_neg (not_not.mpr aligned), if_neg (not_lt.mpr bound.le), known]
  simp only
  by_cases differ : offset ≠ (s.files f).logicalSize
  · rw [if_pos differ]
    refine iff_of_false ?_ differ
    rintro ⟨t, same⟩
    have code : -ENOTSUP = (buf.length : ℤ) := congrArg Prod.fst (Option.some.inj same)
    have negative : -ENOTSUP < 0 := by decide
    omega
  · rw [if_neg differ, appendBlocks_eq]
    refine iff_of_true ?_ (not_not.mp differ)
    have granted : ¬ WriteEnv.fine.memalign = false := by decide
    simp only [writeOut, if_neg granted, writeBlocks_fine, ne_eq, not_true_eq_false, if_false]
    rw [int32_eq (by omega) (by omega)]
    exact ⟨_, rfl⟩

/-! ## When it is true -/

section Truncated

variable {SHA512 : Page → BlockId} {s : Store} {path : Path} {f : FileRef} {b : Backend}

theorem listAt_contents (found : s.fileIndex.lookup path = some f) :
    s.contents path = listBytes s (s.files f).blockList := by
  rw [Store.contents, Store.listAt_of_lookup found, listBytes]

theorem resized_all (bytes : Bytes) : resized bytes.length bytes = bytes := by
  rw [resized, List.take_length, Nat.sub_self, List.replicate_zero, List.append_nil]

/-- Past the last `int` index, the loop over the blocks has no defined end. -/
theorem xmp_read_past_int (found : s.fileIndex.lookup path = some f)
    (long : 2 ^ 43 ≤ (s.files f).logicalSize) (fits : (s.files f).logicalSize < 2 ^ 63)
    (env : ReadEnv) :
    xmp_read path 4096 ((2 ^ 43 - 4096 : ℕ) : ℤ) env s = none := by
  have notPast : ¬ (s.files f).logicalSize ≤ ((2 ^ 43 - 4096 : ℕ) : ℤ) := by omega
  have unsigned : uint64 (s.files f).logicalSize = (s.files f).logicalSize.toNat := by
    have cast : (s.files f).logicalSize = ((s.files f).logicalSize.toNat : ℤ) := by omega
    conv_lhs => rw [cast]
    exact uint64_natCast (by omega)
  have clamped : clampSize (s.files f).logicalSize ((2 ^ 43 - 4096 : ℕ) : ℤ) 4096 = 4096 := by
    have last : uint64 (((2 ^ 43 - 4096 : ℕ) : ℤ) + (4096 : ℕ)) = 2 ^ 43 := by decide
    rw [clampSize, unsigned, last, if_neg (by omega)]
  have stop : endIndex ((2 ^ 43 - 4096 : ℕ) : ℤ) 4096 = 2 ^ 31 - 1 := by decide
  unfold xmp_read
  rw [if_neg (by decide)]
  simp only [found]
  rw [if_neg notPast, clamped, windowBlocks, if_pos stop]
  rfl

/-- A read of a file that lists the blocks of its length. -/
theorem xmp_read_exact (found : s.fileIndex.lookup path = some f)
    (sized : (s.files f).logicalSize = 4096 * (s.files f).blockList.length)
    (short : (s.files f).logicalSize < 2 ^ 43) (online : s.backend_fd ≠ -1 ∨ (s.files f).logicalSize = 0)
    {count offset : ℕ} {env : ReadEnv} (aligned : count % 4096 = 0) (bound : count < 2 ^ 31)
    (undisturbed : env.Undisturbed) :
    xmp_read path count offset env s =
      some (((slice (listBytes s (s.files f).blockList) offset count).length : ℤ),
        slice (listBytes s (s.files f).blockList) offset count) := by
  have total := length_listBytes s (s.files f).blockList
  by_cases past : (s.files f).logicalSize ≤ offset
  · have nothing : slice (listBytes s (s.files f).blockList) offset count = [] := by
      rw [slice, List.drop_of_length_le (by omega), List.take_nil]
    unfold xmp_read
    rw [if_neg (not_not.mpr aligned)]
    simp only [found]
    rw [if_pos past, nothing]
    rfl
  have online : s.backend_fd ≠ -1 := online.resolve_right (by omega)
  obtain ⟨ret, buf, runs, delivered, success⟩ := @xmp_read_spec s path f count offset env found
    online sized (by omega) bound fun k => Or.inl (undisturbed k).2
  obtain ⟨content, length⟩ := delivered (success aligned undisturbed)
  rw [runs, length, content]

/-- A file is as if it had been truncated to the length `size` if and only if that is its length,
no block is listed beyond it, and it can be read. -/
theorem truncated_iff (found : s.fileIndex.lookup path = some f) (sized : (s.files f).Sized)
    (fits : (s.files f).blockList.length < 2 ^ 32) (size : ℤ)
    (seen : (xmp_getattr path (b.lstat path) s).ret = 0 ∧
      (xmp_getattr path (b.lstat path) s).st_size = (s.files f).logicalSize) :
    Truncated SHA512 path size (s.readable path) s b ↔
      size = s.sizeAt path ∧ 4096 * ((s.listAt path).length : ℤ) ≤ size ∧ size < 2 ^ 43 ∧
        (s.backend_fd ≠ -1 ∨ size = 0) := by
  have length : s.sizeAt path = (s.files f).logicalSize := by
    rw [Store.sizeAt, found]
  have list : s.listAt path = (s.files f).blockList := Store.listAt_of_lookup found
  obtain ⟨blocks, whole, within⟩ := sized
  have total := length_listBytes s (s.files f).blockList
  have old : s.readable path = (listBytes s (s.files f).blockList).take (4096 * blocks) := by
    have nat : (s.files f).logicalSize.toNat = 4096 * blocks := by omega
    rw [Store.readable, length, nat, listAt_contents found]
  rw [length, list]
  constructor
  · intro truncated
    have same : size = (s.files f).logicalSize := truncated.getattr.2.symm.trans seen.2
    have few := truncated.released
    rw [list] at few
    have held : (s.readable path).length = 4096 * blocks := by
      rw [old, List.length_take, total]
      omega
    have all : resized size.toNat (s.readable path) = s.readable path := by
      have nat : size.toNat = (s.readable path).length := by omega
      rw [nat]
      exact resized_all _
    refine ⟨same, by omega, ?_, ?_⟩
    · by_contra long
      have undefined := xmp_read_past_int found (by omega) (by omega) .fine
      rw [truncated.reads 4096 (2 ^ 43 - 4096) .fine (by norm_num) (by norm_num)
        fun k => ⟨rfl, pageOfA, rfl⟩] at undefined
      cases undefined
    · by_contra neither
      obtain ⟨offline, some_⟩ := not_or.mp neither
      by_cases long : 2 ^ 43 ≤ (s.files f).logicalSize
      · have undefined := xmp_read_past_int found long (by omega) .fine
        rw [truncated.reads 4096 (2 ^ 43 - 4096) .fine (by norm_num) (by norm_num)
          fun k => ⟨rfl, pageOfA, rfl⟩] at undefined
        cases undefined
      -- a read of the first block finds no backing file
      have delivered := truncated.reads 4096 0 .fine (by norm_num) (by norm_num)
        fun k => ⟨rfl, pageOfA, rfl⟩
      obtain ⟨-, -, err, out, runs, nonpos, -, works, -⟩ :=
        @xmp_read_window s path f 4096 0 (4096 * blocks) .fine found (by omega) (by omega)
          (by omega) (by norm_num) (by norm_num) (by omega)
      have failed : err ≠ 0 := by
        intro zero
        have first := works.mp zero 0 (by unfold blocksRead; omega)
        exact offline first.1
      rw [runs, if_pos failed, all] at delivered
      have code : err = ((slice (s.readable path) 0 4096).length : ℤ) :=
        congrArg Prod.fst (Option.some.inj delivered)
      rw [length_slice, held] at code
      omega
  · rintro ⟨rfl, few, short, online⟩
    have exact_ : (s.files f).logicalSize = 4096 * ((s.files f).blockList.length : ℤ) := by omega
    have content : resized (s.files f).logicalSize.toNat (s.readable path) =
        listBytes s (s.files f).blockList := by
      have none_ : s.readable path = listBytes s (s.files f).blockList := by
        rw [old]
        exact List.take_of_length_le (by omega)
      have nat : (s.files f).logicalSize.toNat = (listBytes s (s.files f).blockList).length := by
        omega
      rw [none_, nat]
      exact resized_all _
    refine ⟨seen, fun count offset env aligned bound undisturbed => ?_,
      fun buf aligned bound => (xmp_write_fine_iff found aligned bound).mpr rfl, ?_⟩
    · rw [content]
      exact xmp_read_exact found exact_ short online aligned bound undisturbed
    · rw [list]
      omega

end Truncated

/-- **When a truncation that returned 0 has happened.**  Of a file of a session, if and only if
the size asked for is the length of the file, no block is listed beyond it, and the file can be
read; a truncation that returned an error has changed nothing. -/
theorem truncate_honest_iff {SHA512 : Page → BlockId} {admitted : Store → Call → Prop} {fd : ℤ}
    {sysdata : ByteDisk.Disk} {history : List Event} {s : Store}
    (run : Runs (Step SHA512 admitted) (Store.empty fd sysdata) history s) {path : Path}
    {f : FileRef} (found : s.fileIndex.lookup path = some f)
    {follow : Backend → Bytes → Bytes} {b b' : Backend} {size : ℤ} {fh : Option ℕ} {served : Served}
    (seen : (xmp_getattr path (b.lstat path) s).ret = 0)
    (runs : ((Request.truncate path size fh).serve SHA512 s).Runs follow b (some served) b') :
    (served.reply = .code 0 ∧
      (Truncated SHA512 path size (s.readable path) served.store b' ↔
        size = s.sizeAt path ∧ 4096 * ((s.listAt path).length : ℤ) ≤ size ∧ size < 2 ^ 43 ∧
          (s.backend_fd ≠ -1 ∨ size = 0))) ∨
    ∃ ret < 0, served.reply = .code ret ∧ served.store = s ∧ b' = b := by
  obtain ⟨store, ⟨code, entries⟩ | ⟨ret, negative, code, unchanged⟩⟩ := truncate_serves runs
  · refine Or.inl ⟨code, ?_⟩
    rw [store]
    exact truncated_iff found (Runs.sized run f) ((Runs.fits run).file found).blockList size
      (getattr_of_entries found seen entries)
  · exact Or.inr ⟨ret, negative, code, store, unchanged⟩

/-- The placeholder of a written file, cut. -/
def cutA : Backend := onlyA.changeAt (CString.lit "/a").bytes (Inode.resize 0)

theorem truncate_holdsA :
    ((Request.truncate (CString.lit "/a") 0 none).serve letterDigest holdsA).Runs
      (fun _ path => path) onlyA (some ⟨.code 0, none, holdsA⟩) cutA :=
  .sys (.done ⟨le_rfl, 1, by decide, by decide⟩ rfl) .ret

theorem truncate_honest_iff_page :
    (Reply.code 0 = .code 0 ∧
      (Truncated letterDigest (CString.lit "/a") 0 (holdsA.readable (CString.lit "/a")) holdsA cutA ↔
        0 = holdsA.sizeAt (CString.lit "/a") ∧
          4096 * ((holdsA.listAt (CString.lit "/a")).length : ℤ) ≤ 0 ∧ (0 : ℤ) < 2 ^ 43 ∧
          (holdsA.backend_fd ≠ -1 ∨ (0 : ℤ) = 0))) ∨
    ∃ ret < 0, Reply.code 0 = .code ret ∧ holdsA = holdsA ∧ cutA = onlyA := by
  have run := @runs_first (fun _ _ => True) 3 (fun _ => 0) (CString.lit "/a") pageOfA letterDigest
    .fine (by decide) rfl rfl trivial
  rw [letterDigest_pageOfA] at run
  have found : holdsA.fileIndex.lookup (CString.lit "/a") = some 0 := by decide
  exact truncate_honest_iff run found (by decide) truncate_holdsA

/-- A page is written and its file truncated to nothing: it still has the page. -/
theorem truncate_lies :
    ∃ served b', ((Request.truncate (CString.lit "/a") 0 none).serve letterDigest holdsA).Runs
        (fun _ path => path) onlyA (some served) b' ∧ served.reply = .code 0 ∧
      ¬ Truncated letterDigest (CString.lit "/a") 0 (holdsA.readable (CString.lit "/a"))
        served.store b' := by
  refine ⟨_, _, truncate_holdsA, rfl, fun truncated => ?_⟩
  have found : holdsA.fileIndex.lookup (CString.lit "/a") = some 0 := by decide
  have seen := getattr_of_entries found (b := onlyA) (by decide)
    (changeAt_entries (CString.lit "/a").bytes (Inode.resize 0))
  have file : holdsA.files 0 = ⟨CString.lit "/a", 4096, 4096, [0], true, false⟩ :=
    Store.single_files _ _ _ _
  have size := seen.2.symm.trans truncated.getattr.2
  rw [file] at size
  cases size

end ProjetoTSO.Codededup
