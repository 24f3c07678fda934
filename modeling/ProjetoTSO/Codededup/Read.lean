import ProjetoTSO.Codededup.Contents

/-!
# `xmp_read`, block by block

The copy loop keeps the bytes copied so far equal to the window it has covered of what the
aligned buffers hold after each `pread` (`loadedBytes`).  A read of a file that lists the
blocks of its length therefore stays inside its arrays and delivers the window requested,
whatever its alignment (`xmp_read_window`).  Where every `pread` delivers all or fails, these
are the contents of the file (`xmp_read_spec`).
-/

namespace ProjetoTSO.Codededup

open CInt ByteStream Chunks

/-- A `pread` that delivered everything. -/
def PreadOut.Full (out : PreadOut) : Prop := ∃ before, out = .done (Fin.last 4096) before

/-- It delivered everything or reported an error. -/
def PreadOut.Whole (out : PreadOut) : Prop := out.Full ∨ ∃ errno, out = .fail errno

theorem deliver_full (page before : Page) : deliver page before (Fin.last 4096) = page.toList := by
  have all : page.toList.take 4096 = page.toList := List.take_of_length_le (length_page page).le
  have none_ : before.toList.drop 4096 = [] := List.drop_of_length_le (length_page before).le
  show page.toList.take 4096 ++ before.toList.drop 4096 = page.toList
  rw [all, none_, List.append_nil]

theorem length_deliver (page before : Page) (n : Fin 4097) :
    (deliver page before n).length = 4096 := by
  have bound := n.isLt
  rw [deliver, List.length_append, List.length_take, List.length_drop, length_page, length_page]
  omega

/-- What an aligned buffer holds after a `pread`. -/
def PreadOut.loaded (page : Page) : PreadOut → Bytes
  | .fail _ => page.toList
  | .done n before => deliver page before n

theorem PreadOut.length_loaded (page : Page) (out : PreadOut) : (out.loaded page).length = 4096 := by
  cases out with
  | fail errno => exact length_page page
  | done n before => exact length_deliver page before n

theorem PreadOut.Whole.loaded {out : PreadOut} (whole : out.Whole) (page : Page) :
    out.loaded page = page.toList := by
  rcases whole with ⟨before, rfl⟩ | ⟨errno, rfl⟩
  · exact deliver_full page before
  · rfl

/-- Iteration `k` of the copy loop meets no error. -/
def ReadEnv.Works (env : ReadEnv) (s : Store) (k : ℕ) : Prop :=
  s.backend_fd ≠ -1 ∧ env.memalign k = true ∧ ∀ errno, env.pread k ≠ .fail errno

section Loop

variable {s : Store} {blockList : List BlockRef} {env : ReadEnv} {bytes : Bytes}

/-- The contents the block list stands for. -/
def listBytes (s : Store) (blockList : List BlockRef) : Bytes :=
  blockList.flatMap fun b => (s.pageOf b).toList

theorem length_listBytes (s : Store) (blockList : List BlockRef) :
    (listBytes s blockList).length = 4096 * blockList.length :=
  length_flatMap (fun b => length_page (s.pageOf b)) blockList

/-- The buffer of each block, where block `start` is the first one read. -/
def loadedBytes (s : Store) (blockList : List BlockRef) (env : ReadEnv) (start : ℕ) : Bytes :=
  (List.range blockList.length).flatMap fun i =>
    (env.pread (i - start)).loaded (s.pageOf (blockList.getD i 0))

theorem length_loadedBytes (s : Store) (blockList : List BlockRef) (env : ReadEnv) (start : ℕ) :
    (loadedBytes s blockList env start).length = 4096 * blockList.length := by
  have chunks := length_flatMap (fun i => PreadOut.length_loaded (s.pageOf (blockList.getD i 0))
    (env.pread (i - start))) (List.range blockList.length)
  rw [List.length_range] at chunks
  exact chunks

/-- The buffer of one block. -/
theorem slice_loadedBytes {i start : ℕ} (inside : i < blockList.length) :
    slice (loadedBytes s blockList env start) (4096 * i) 4096 =
      (env.pread (i - start)).loaded (s.pageOf (blockList.get ⟨i, inside⟩)) := by
  have inRange : i < (List.range blockList.length).length := by rwa [List.length_range]
  have chunk := slice_flatMap (fun i => PreadOut.length_loaded (s.pageOf (blockList.getD i 0))
    (env.pread (i - start))) inRange (Nat.zero_add 4096).le
  rw [Nat.add_zero] at chunk
  refine chunk.trans ?_
  have all := slice_all ((env.pread (i - start)).loaded (s.pageOf (blockList.get ⟨i, inside⟩)))
  rw [PreadOut.length_loaded] at all
  simp only [List.get_eq_getElem, List.getElem_range, List.getD_eq_getElem _ _ inside] at all ⊢
  exact all

theorem loadedBytes_whole (whole : ∀ k, (env.pread k).Whole) (start : ℕ) :
    loadedBytes s blockList env start = listBytes s blockList := by
  have listed : (List.range blockList.length).map (fun i => blockList.getD i 0) = blockList := by
    refine List.ext_getElem (by simp) fun i _ inside => ?_
    rw [List.getElem_map, List.getElem_range, List.getD_eq_getElem _ _ inside]
  have pages : ∀ i, (env.pread (i - start)).loaded (s.pageOf (blockList.getD i 0)) =
      (s.pageOf (blockList.getD i 0)).toList := fun i => (whole _).loaded _
  conv_rhs => rw [← listed, listBytes, List.flatMap_map]
  simp only [loadedBytes, pages]

/-- One iteration extends the window from `p`, inside block `i`, to the end of the
block or of the request. -/
theorem copyBlock_spec (k : ℕ) {b : BlockRef} {offset p i capacity size : ℕ} {buf : Bytes}
    (start : p = max (4096 * i) offset) (block : p ≤ 4096 * (i + 1)) (window : p ≤ offset + size)
    (small : i < 2 ^ 31) (fits : size ≤ capacity)
    (loads : (env.pread k).loaded (s.pageOf b) = slice bytes (4096 * i) 4096)
    (copied : buf = slice bytes offset (p - offset)) (length : buf.length = p - offset) :
    ∃ err out, copyBlock s (env.memalign k) (env.pread k) offset capacity size ((i : ℤ), b) buf =
        some (err, out) ∧
      err ≤ 0 ∧
      (err = 0 ↔ env.Works s k) ∧
      (err = 0 → out = slice bytes offset (min (4096 * (i + 1)) (offset + size) - offset)) ∧
      (err ≠ 0 → out = buf) := by
  have readStart : (if (i : ℤ) * 4096 < offset then (offset : ℤ) - i * 4096 else 0) =
      ((p - 4096 * i : ℕ) : ℤ) := by
    by_cases first : (i : ℤ) * 4096 < offset
    · rw [if_pos first]
      omega
    · rw [if_neg first]
      omega
  have rest : uint64 (4096 - ((p - 4096 * i : ℕ) : ℤ)) = 4096 * (i + 1) - p := by
    have value : (4096 - ((p - 4096 * i : ℕ) : ℤ)) = ((4096 * (i + 1) - p : ℕ) : ℤ) := by omega
    rw [value]
    exact uint64_natCast (by omega)
  set stop := min (4096 * (i + 1)) (offset + size) with hstop
  have bytes_to_read : (if size < uint64 ((buf.length : ℤ) + ((4096 * (i + 1) - p : ℕ) : ℤ)) then
      uint64 ((size : ℤ) - buf.length) else 4096 * (i + 1) - p) = stop - p := by
    have sum : (buf.length : ℤ) + ((4096 * (i + 1) - p : ℕ) : ℤ) =
        ((4096 * (i + 1) - offset : ℕ) : ℤ) := by omega
    have total : uint64 ((4096 * (i + 1) - offset : ℕ) : ℤ) = 4096 * (i + 1) - offset :=
      uint64_natCast (by omega)
    rw [sum, total]
    by_cases short : size < 4096 * (i + 1) - offset
    · have left : (size : ℤ) - buf.length = ((offset + size - p : ℕ) : ℤ) := by omega
      have value : uint64 ((offset + size - p : ℕ) : ℤ) = offset + size - p :=
        uint64_natCast (by omega)
      rw [if_pos short, left, value]
      omega
    · rw [if_neg short]
      omega
  unfold copyBlock ReadEnv.Works
  simp only [readStart, rest, bytes_to_read]
  by_cases offline : s.backend_fd = -1
  · have nonzero : (-EBADF : ℤ) ≠ 0 := by decide
    rw [if_pos offline]
    exact ⟨-EBADF, buf, rfl, by decide, iff_of_false nonzero fun works => works.1 offline,
      fun zero => absurd zero nonzero, fun _ => rfl⟩
  rw [if_neg offline]
  by_cases failed : env.memalign k = false
  · have nonzero : (-ENOMEM : ℤ) ≠ 0 := by decide
    rw [if_pos failed]
    refine ⟨-ENOMEM, buf, rfl, by decide, iff_of_false nonzero fun works => ?_,
      fun zero => absurd zero nonzero, fun _ => rfl⟩
    rw [failed] at works
    exact absurd works.2.1 (by decide)
  rw [if_neg failed]
  have granted : env.memalign k = true := by simpa using failed
  cases outcome : env.pread k with
  | done n before =>
      have room : ((p - 4096 * i : ℕ) : ℤ) + ((stop - p : ℕ) : ℤ) ≤ 4096 ∧
          buf.length + (stop - p) ≤ capacity := by omega
      refine ⟨0, _, if_pos room, le_rfl,
        iff_of_true rfl ⟨offline, granted, fun errno same => nomatch same⟩, fun _ => ?_,
        fun nonzero => absurd rfl nonzero⟩
      rw [outcome] at loads
      have loads : deliver (s.pageOf b) before n = slice bytes (4096 * i) 4096 := loads
      rw [loads, Int.toNat_natCast]
      -- the bytes taken from the buffer are the next window
      have chunk : ((slice bytes (4096 * i) 4096).drop (p - 4096 * i)).take (stop - p) =
          slice bytes p (stop - p) := by
        have window := @slice_slice _ bytes (4096 * i) 4096 (p - 4096 * i) (stop - p) (by omega)
        have position : 4096 * i + (p - 4096 * i) = p := by omega
        rwa [position] at window
      have next : offset + (p - offset) = p := by omega
      have total : p - offset + (stop - p) = stop - offset := by omega
      have joined := slice_append_slice bytes offset (p - offset) (stop - p)
      rw [next, total, ← copied] at joined
      rw [chunk]
      exact joined
  | fail errno =>
      have positive : (0 : ℤ) < errno := by exact_mod_cast errno.pos
      exact ⟨-(errno : ℤ), buf, rfl, by omega,
        iff_of_false (by omega) fun works => works.2.2 errno rfl, fun zero => by omega, fun _ => rfl⟩

/-- The entries of `count` iterations from block `i` on. -/
def entriesFrom (blockList : List BlockRef) (i count : ℕ) : List (ℤ × BlockRef) :=
  (List.range' i count).map fun j : ℕ => ((j : ℤ), blockList.getD j 0)

theorem length_entriesFrom (blockList : List BlockRef) (i count : ℕ) :
    (entriesFrom blockList i count).length = count := by
  rw [entriesFrom, List.length_map, List.length_range']

theorem entriesFrom_succ {i count : ℕ} (inside : i < blockList.length) :
    entriesFrom blockList i (count + 1) =
      ((i : ℤ), blockList.get ⟨i, inside⟩) :: entriesFrom blockList (i + 1) count := by
  rw [entriesFrom, List.range'_succ, List.map_cons, List.getD_eq_getElem _ _ inside]
  rfl

/-- **The copy loop.**  It covers the window up to the end of the last block, or
of the request. -/
theorem copyBlocks_spec {offset capacity size count : ℕ} (fits : size ≤ capacity)
    (total : bytes.length = 4096 * blockList.length) :
    ∀ (i k : ℕ) (buf : Bytes), i + count ≤ blockList.length → i + count < 2 ^ 31 →
      (∀ j, i ≤ j → ∀ inside : j < blockList.length,
        (env.pread (j - i + k)).loaded (s.pageOf (blockList.get ⟨j, inside⟩)) =
          slice bytes (4096 * j) 4096) →
      offset ≤ 4096 * (i + 1) →
      (count ≠ 0 → 4096 * (i + count - 1) ≤ offset + size) →
      buf = slice bytes offset (max (4096 * i) offset - offset) →
      buf.length = max (4096 * i) offset - offset →
      ∃ err out, copyBlocks s env offset capacity size k (entriesFrom blockList i count) buf =
          some (err, out) ∧
        err ≤ 0 ∧
        (err = 0 ↔ ∀ j < count, env.Works s (k + j)) ∧
        (err = 0 → count ≠ 0 → out = slice bytes offset
          (min (4096 * (i + count)) (offset + size) - offset)) ∧
        (count = 0 → out = buf) ∧
        (count ≠ 0 → out.length ≤ size) := by
  induction count with
  | zero =>
      intro i k buf _ _ _ _ _ _ _
      exact ⟨0, buf, rfl, le_rfl, iff_of_true rfl fun j below => absurd below (Nat.not_lt_zero j),
        fun _ some => absurd rfl some, fun _ => rfl, fun some => absurd rfl some⟩
  | succ count ih =>
      intro i k buf within small loads offsetBelow reach copied length
      have inside : i < blockList.length := by omega
      have reaches := reach (Nat.succ_ne_zero count)
      have here := loads i le_rfl inside
      rw [Nat.sub_self, Nat.zero_add] at here
      obtain ⟨err, out, first, nonpos, exact_, result, unchanged⟩ :=
        copyBlock_spec k rfl (by omega) (by omega) (by omega) fits here copied length
      rw [entriesFrom_succ inside, copyBlocks, first]
      simp only [Option.bind_eq_bind, Option.bind_some]
      by_cases failed : err ≠ 0
      · rw [if_pos failed]
        refine ⟨err, out, rfl, nonpos, iff_of_false failed fun all => ?_,
          fun zero => absurd zero failed, fun zero => absurd zero (Nat.succ_ne_zero count),
          fun _ => ?_⟩
        · exact failed (exact_.mpr (all 0 (Nat.succ_pos count)))
        · rw [unchanged failed, length]
          omega
      rw [if_neg failed]
      have reached := result (not_not.mp failed)
      have worked := exact_.mp (not_not.mp failed)
      have outLength : out.length = min (4096 * (i + 1)) (offset + size) - offset := by
        rw [reached, length_slice, total]
        omega
      by_cases last : count = 0
      · subst last
        refine ⟨0, out, rfl, le_rfl, iff_of_true rfl fun j below => ?_, fun _ _ => reached,
          fun zero => absurd zero (Nat.succ_ne_zero 0), fun _ => by omega⟩
        obtain rfl : j = 0 := by omega
        exact worked
      · -- another block follows, so this one was copied to its end
        have stop : min (4096 * (i + 1)) (offset + size) = max (4096 * (i + 1)) offset := by omega
        rw [stop] at reached outLength
        have later : ∀ j, i + 1 ≤ j → ∀ inside : j < blockList.length,
            (env.pread (j - (i + 1) + (k + 1))).loaded (s.pageOf (blockList.get ⟨j, inside⟩)) =
              slice bytes (4096 * j) 4096 := by
          intro j above inside
          have iteration : j - (i + 1) + (k + 1) = j - i + k := by omega
          rw [iteration]
          exact loads j (by omega) inside
        obtain ⟨err', out', rest, nonpos', exact', result', -, bound'⟩ :=
          ih (i + 1) (k + 1) out (by omega) (by omega) later (by omega) (fun _ => by omega) reached
            outLength
        have position : i + 1 + count = i + (count + 1) := by omega
        rw [position] at result'
        refine ⟨err', out', rest, nonpos', exact'.trans ⟨fun all j below => ?_, fun all j below => ?_⟩,
          fun zero _ => result' zero last, fun zero => absurd zero (Nat.succ_ne_zero count),
          fun _ => bound' last⟩
        · cases j with
          | zero => exact worked
          | succ j =>
              have next := all j (by omega)
              rwa [Nat.add_assoc, Nat.add_comm 1 j] at next
        · have next := all (j + 1) (by omega)
          rwa [Nat.add_comm j 1, ← Nat.add_assoc] at next

/-- The index loop stays inside the block list. -/
theorem windowBlocks_eq {i count : ℕ} (within : i + count ≤ blockList.length)
    (short : i + count < 2 ^ 31) {end_index : ℤ} (stop : end_index + 1 = (i + count : ℕ)) :
    windowBlocks blockList i end_index = some (entriesFrom blockList i count) := by
  have mapped : ∀ indices : List ℕ, (∀ j ∈ indices, j < blockList.length) →
      (indices.map fun j : ℕ => (j : ℤ)).mapM (listIndex blockList) =
        some (indices.map fun j : ℕ => ((j : ℤ), blockList.getD j 0)) := by
    intro indices
    induction indices with
    | nil => exact fun _ => rfl
    | cons j indices ih =>
        intro below
        have inside : j < blockList.length := below j (by simp)
        have head : listIndex blockList (j : ℤ) = some ((j : ℤ), blockList.getD j 0) := by
          have nonneg : (0 : ℤ) ≤ j := Int.natCast_nonneg j
          rw [listIndex, if_pos nonneg, Int.toNat_natCast, List.getElem?_eq_getElem inside,
            List.getD_eq_getElem _ _ inside]
          rfl
        rw [List.map_cons, List.mapM_cons, head, ih fun l member => below l (by simp [member])]
        rfl
  have noOverflow : ¬ end_index = 2 ^ 31 - 1 := by omega
  have counted : (end_index + 1 - (i : ℤ)).toNat = count := by omega
  have indices : ((List.range count).map fun k : ℕ => (i : ℤ) + k) =
      (List.range' i count).map fun j : ℕ => (j : ℤ) := by
    rw [List.range'_eq_map_range, List.map_map]
    refine List.map_congr_left fun k _ => ?_
    show (i : ℤ) + k = ((i + k : ℕ) : ℤ)
    push_cast
    rfl
  rw [windowBlocks, if_neg noOverflow, counted, indices]
  refine mapped _ fun j member => ?_
  have := List.mem_range'_1.mp member
  omega

/-- Every index of the two loops is one of the block list. -/
theorem mem_entriesFrom {i count : ℕ} {entry : ℤ × BlockRef}
    (member : entry ∈ entriesFrom blockList i count) :
    0 ≤ entry.1 ∧ entry.1 < (i + count : ℕ) := by
  obtain ⟨j, range, rfl⟩ := List.mem_map.mp member
  have bounds := List.mem_range'_1.mp range
  refine ⟨Int.natCast_nonneg j, ?_⟩
  show (j : ℤ) < _
  omega

end Loop

/-! ## The whole read -/

/-- The window of `len` bytes at `off`, cut off at the end of the file. -/
theorem slice_clamped (l : Bytes) (off len : ℕ) :
    slice l off (min len (l.length - off)) = slice l off len := by
  simp only [slice]
  rw [← List.length_drop]
  exact List.take_eq_take_min.symm

section Window

variable {offset size length : ℕ}

/-- The size requested is cut off at the end of the file. -/
theorem clampSize_eq (short : length < 2 ^ 63) (bound : offset + size < 2 ^ 64)
    (inside : offset < length) : clampSize length offset size = min size (length - offset) := by
  have sizeValue : uint64 (length : ℤ) = length := uint64_natCast (by omega)
  have endValue : uint64 ((offset : ℤ) + size) = offset + size := by
    have := uint64_natCast (n := offset + size) (by omega)
    push_cast at this
    exact this
  have leftValue : uint64 ((length : ℤ) - offset) = length - offset := by
    have cast : (length : ℤ) - offset = ((length - offset : ℕ) : ℤ) := by omega
    rw [cast]
    exact uint64_natCast (by omega)
  rw [clampSize, sizeValue, endValue, leftValue]
  by_cases beyond : length < offset + size
  · rw [if_pos beyond]
    omega
  · rw [if_neg beyond]
    omega

theorem startIndex_eq (short : offset < 2 ^ 43) : startIndex offset = (offset / 4096 : ℕ) := by
  have quotient : (offset : ℤ).tdiv 4096 = (offset / 4096 : ℕ) := by
    rw [Int.tdiv_eq_ediv_of_nonneg (Int.natCast_nonneg offset)]
    omega
  rw [startIndex, quotient]
  exact int32_eq (by omega) (by omega)

/-- The iterations it takes to cover a window. -/
def blocksRead (offset size : ℕ) : ℕ := (offset + size + 4095) / 4096 - offset / 4096

/-- The last index is that of the last byte; before an empty window at the origin it wraps
around to -1. -/
theorem endIndex_eq (short : offset + size < 2 ^ 43) :
    endIndex offset size + 1 = (offset / 4096 + blocksRead offset size : ℕ) := by
  unfold blocksRead
  by_cases origin : offset + size = 0
  · obtain ⟨rfl, rfl⟩ : offset = 0 ∧ size = 0 := by omega
    decide
  have lastValue : endIndex offset size = ((offset + size - 1) / 4096 : ℕ) := by
    have cast : (offset : ℤ) + size - 1 = ((offset + size - 1 : ℕ) : ℤ) := by omega
    have value : uint64 ((offset + size - 1 : ℕ) : ℤ) = offset + size - 1 :=
      uint64_natCast (by omega)
    rw [endIndex, cast, value]
    exact int32_eq (by omega) (by omega)
  rw [lastValue]
  omega

end Window

/-- **What a read does.**  On a file that lists the blocks of its length, a read below that
length uses indices of the block list only, and copies the window requested, cut off at the end
of the file, unless an iteration fails. -/
theorem xmp_read_window {s : Store} {path : Path} {f : FileRef} {size offset length : ℕ}
    {env : ReadEnv} (found : s.fileIndex.lookup path = some f)
    (sized : (s.files f).logicalSize = length) (listed : length ≤ 4096 * (s.files f).blockList.length)
    (limit : length ≤ 2 ^ 43 - 4096) (aligned : size % 4096 = 0) (bound : offset + size < 2 ^ 63)
    (inside : offset < length) :
    windowBlocks (s.files f).blockList (startIndex offset)
        (endIndex offset (clampSize (s.files f).logicalSize offset size)) =
        some (entriesFrom (s.files f).blockList (offset / 4096)
          (blocksRead offset (min size (length - offset)))) ∧
      offset / 4096 + blocksRead offset (min size (length - offset)) ≤
        (s.files f).blockList.length ∧
      ∃ err out, xmp_read path size offset env s =
          some (if err ≠ 0 then err else int32 (out.length : ℤ), out) ∧
        err ≤ 0 ∧ out.length ≤ min size (length - offset) ∧
        (err = 0 ↔ ∀ k < blocksRead offset (min size (length - offset)), env.Works s k) ∧
        (err = 0 → out = slice (loadedBytes s (s.files f).blockList env (offset / 4096)) offset
          (min size (length - offset))) := by
  unfold xmp_read
  rw [if_neg (not_not.mpr aligned)]
  simp only [found, sized]
  have notPast : ¬ (length : ℤ) ≤ offset := by omega
  rw [if_neg notPast, clampSize_eq (by omega) (by omega) inside, startIndex_eq (by omega)]
  generalize (s.files f).blockList = blockList at listed ⊢
  have total := length_loadedBytes s blockList env (offset / 4096)
  have fits : min size (length - offset) ≤ size := min_le_left _ _
  set clamped := min size (length - offset) with hclamped
  have within : offset / 4096 + blocksRead offset clamped ≤ blockList.length := by
    unfold blocksRead
    omega
  have small : offset / 4096 + blocksRead offset clamped < 2 ^ 31 := by
    unfold blocksRead
    omega
  rw [windowBlocks_eq within small (endIndex_eq (by omega))]
  refine ⟨rfl, within, ?_⟩
  have origin : max (4096 * (offset / 4096)) offset - offset = 0 := by omega
  have reach : blocksRead offset clamped ≠ 0 →
      4096 * (offset / 4096 + blocksRead offset clamped - 1) ≤ offset + clamped := by
    unfold blocksRead
    omega
  have cover : offset + clamped ≤ 4096 * (offset / 4096 + blocksRead offset clamped) := by
    unfold blocksRead
    omega
  have empty : blocksRead offset clamped = 0 → clamped = 0 := by
    unfold blocksRead
    omega
  generalize blocksRead offset clamped = count at within small reach cover empty ⊢
  obtain ⟨err, out, loop, nonpos, exact_, result, nothing, bounded⟩ :=
    copyBlocks_spec fits total (offset / 4096) 0 [] within small
      (fun j above inside => (slice_loadedBytes inside).symm) (by omega) reach
      (by rw [origin, slice_zero]) (by rw [origin]; rfl)
  simp only [Option.bind_eq_bind, Option.bind_some, loop]
  refine ⟨err, out, rfl, nonpos, ?_, ?_, fun success => ?_⟩
  · by_cases none_ : count = 0
    · rw [nothing none_]
      exact Nat.zero_le _
    · exact bounded none_
  · simpa only [Nat.zero_add] using exact_
  · by_cases none_ : count = 0
    · rw [nothing none_, empty none_, slice_zero]
    · rw [result success none_]
      by_cases start : clamped = 0
      · have zero : min (4096 * (offset / 4096 + count)) (offset + clamped) - offset = clamped := by
          omega
        rw [zero]
      · have stop : min (4096 * (offset / 4096 + count)) (offset + clamped) - offset = clamped := by
          omega
        rw [stop]

/-- **A read delivers its window.**  It has a defined result; if that is not an
error it is the number of bytes delivered, and these are the bytes of the file in
the window requested.  Without an error from the system there is none. -/
theorem xmp_read_spec {s : Store} {path : Path} {f : FileRef} {size offset : ℕ} {env : ReadEnv}
    (found : s.fileIndex.lookup path = some f) (online : s.backend_fd ≠ -1)
    (sized : (s.files f).logicalSize = 4096 * (s.files f).blockList.length)
    (short : (s.files f).blockList.length < 2 ^ 31) (bound : size < 2 ^ 31)
    (whole : ∀ k, (env.pread k).Whole) :
    ∃ ret buf, xmp_read path size offset env s = some (ret, buf) ∧
      (0 ≤ ret → buf = slice (listBytes s (s.files f).blockList) offset size ∧
        ret = buf.length) ∧
      (size % 4096 = 0 → (∀ k, env.memalign k = true ∧ (env.pread k).Full) → 0 ≤ ret) := by
  have total := length_listBytes s (s.files f).blockList
  by_cases aligned : size % 4096 ≠ 0
  · refine ⟨-EINVAL, [], if_pos aligned, fun nonneg => absurd nonneg (by decide), fun whole => ?_⟩
    exact absurd whole aligned
  by_cases past : (s.files f).logicalSize ≤ offset
  · refine ⟨0, [], ?_, fun _ => ⟨?_, rfl⟩, fun _ _ => le_rfl⟩
    · unfold xmp_read
      rw [if_neg aligned]
      simp only [found]
      rw [if_pos past]
    · have nothing : (listBytes s (s.files f).blockList).drop offset = [] :=
        List.drop_of_length_le (by omega)
      rw [slice, nothing, List.take_nil]
  obtain ⟨-, -, err, out, runs, nonpos, bounded, exact_, result⟩ :=
    @xmp_read_window s path f size offset (4096 * (s.files f).blockList.length) env found
      (by rw [sized]; push_cast; rfl) le_rfl (by omega) (not_not.mp aligned) (by omega) (by omega)
  rw [loadedBytes_whole whole, ← total] at result
  refine ⟨_, out, runs, fun nonneg => ?_, fun _ all => ?_⟩
  · by_cases failed : err ≠ 0
    · rw [if_pos failed] at nonneg
      exact absurd (le_antisymm nonpos nonneg) failed
    rw [if_neg failed] at nonneg ⊢
    rw [int32_eq (by omega) (by omega)]
    exact ⟨(result (not_not.mp failed)).trans (slice_clamped _ _ _), rfl⟩
  · have worked : err = 0 := exact_.mpr fun k _ => ⟨online, (all k).1, fun errno same => by
      obtain ⟨before, full⟩ := (all k).2
      rw [full] at same
      cases same⟩
    rw [if_neg (not_not.mpr worked), int32_eq (by omega) (by omega)]
    exact Int.natCast_nonneg _

end ProjetoTSO.Codededup
