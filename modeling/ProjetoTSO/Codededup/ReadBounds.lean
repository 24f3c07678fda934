import ProjetoTSO.Codededup.Acknowledged
import ProjetoTSO.Codededup.Sizes

/-!
# The indices of a read

`xmp_read` narrows 64-bit offsets to `int` indices and does not check them against the length
of the block list.  Up to `2 ^ 31 - 1` blocks this is sound, since every file of a session lists
the blocks of its length (`Runs.sized`).
-/

namespace ProjetoTSO.Codededup

open CInt ByteStream Transition Chunks

/-- **The read loop is in bounds.**  A read of a file of a session has a defined result, its
indices are those of listed blocks, and where no transfer fails it copies what the file has of
the window requested. -/
theorem read_in_bounds {SHA512 : Page → BlockId} {admitted : Store → Call → Prop} {fd : ℤ}
    {sysdata : ByteDisk.Disk} {history : List Event} {s : Store}
    (run : Runs (Step SHA512 admitted) (Store.empty fd sysdata) history s)
    {path : Path} {f : FileRef} (found : s.fileIndex.lookup path = some f)
    (limit : (s.files f).logicalSize ≤ 2 ^ 43 - 4096) {offset : ℤ} {size : ℕ}
    (nonneg : 0 ≤ offset) (aligned : size % 4096 = 0) (bound : offset + size < 2 ^ 63)
    (env : ReadEnv) :
    ∃ entries ret buf,
      (offset < (s.files f).logicalSize →
        windowBlocks (s.files f).blockList (startIndex offset)
          (endIndex offset (clampSize (s.files f).logicalSize offset size)) = some entries) ∧
      (∀ entry ∈ entries, 0 ≤ entry.1 ∧ entry.1 < (s.files f).blockList.length) ∧
      xmp_read path size offset env s = some (ret, buf) ∧
      buf.length ≤ size ∧
      ((∀ k < entries.length, env.Works s k) →
        (buf.length : ℤ) = max 0 (min (size : ℤ) ((s.files f).logicalSize - offset))) := by
  obtain ⟨blocks, length, listed⟩ := Runs.sized run f
  obtain ⟨offset, rfl⟩ := Int.eq_ofNat_of_zero_le nonneg
  have sized : (s.files f).logicalSize = ((4096 * blocks : ℕ) : ℤ) := by
    rw [length]
    push_cast
    rfl
  by_cases past : (s.files f).logicalSize ≤ offset
  · refine ⟨[], 0, [], fun inside => absurd inside (not_lt.mpr past),
      fun _ member => absurd member List.not_mem_nil, ?_, Nat.zero_le _, fun _ => ?_⟩
    · unfold xmp_read
      rw [if_neg (not_not.mpr aligned)]
      simp only [found]
      rw [if_pos past]
    · rw [List.length_nil]
      omega
  obtain ⟨window, within, err, out, runs, -, bounded, works, result⟩ :=
    @xmp_read_window s path f size offset (4096 * blocks) env found sized (by omega) (by omega)
      aligned (by omega) (by omega)
  refine ⟨_, _, out, fun _ => window, fun entry member => ?_, runs,
    bounded.trans (min_le_left _ _), fun all => ?_⟩
  · obtain ⟨lower, upper⟩ := mem_entriesFrom member
    exact ⟨lower, lt_of_lt_of_le upper (by exact_mod_cast within)⟩
  · rw [length_entriesFrom] at all
    rw [result (works.mpr all), length_slice, length_loadedBytes]
    omega

/-- A page read back from where it starts. -/
theorem read_in_bounds_page :
    ∃ entries ret buf,
      ((0 : ℤ) < (holdsA.files 0).logicalSize →
        windowBlocks (holdsA.files 0).blockList (startIndex 0)
          (endIndex 0 (clampSize (holdsA.files 0).logicalSize 0 4096)) = some entries) ∧
      (∀ entry ∈ entries, 0 ≤ entry.1 ∧ entry.1 < (holdsA.files 0).blockList.length) ∧
      xmp_read (CString.lit "/a") 4096 0 .fine holdsA = some (ret, buf) ∧
      buf.length ≤ 4096 ∧
      ((∀ k < entries.length, ReadEnv.fine.Works holdsA k) →
        (buf.length : ℤ) = max 0 (min ((4096 : ℕ) : ℤ) ((holdsA.files 0).logicalSize - 0))) := by
  have run := @runs_first (fun _ _ => True) 3 (fun _ => 0) (CString.lit "/a") pageOfA letterDigest
    .fine (by decide) rfl rfl trivial
  rw [letterDigest_pageOfA] at run
  have file : holdsA.files 0 = ⟨CString.lit "/a", 4096, 4096, [0], true, false⟩ :=
    Store.single_files _ _ _ _
  refine @read_in_bounds _ _ _ _ _ _ run _ _ (Store.single_fileIndex _ _ ⟨CString.lit "/a", 4096, 4096, [0], true,
    false⟩ _) ?_ 0 4096 le_rfl (by norm_num)
    (by norm_num) .fine
  show (holdsA.files 0).logicalSize ≤ _
  rw [file]
  norm_num

end ProjetoTSO.Codededup
