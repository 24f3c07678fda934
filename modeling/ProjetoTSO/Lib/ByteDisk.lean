import Mathlib.Data.List.Range
import Mathlib.Data.List.GetD
import Mathlib.Data.Int.Basic

/-!
# A byte-addressed disk

A disk is a total map from byte offsets to bytes.  Reads and writes of byte
strings at an offset obey the two laws every client needs: a write is read back
where it was written, and it is invisible to every read of a disjoint range.
-/

namespace ByteDisk

abbrev Disk := ℤ → UInt8

/-- Replace the bytes from `off` on. -/
def write (disk : Disk) (off : ℤ) (bytes : List UInt8) : Disk := fun x =>
  if off ≤ x ∧ x < off + bytes.length then bytes.getD (x - off).toNat 0 else disk x

/-- The `n` bytes from `off` on. -/
def read (disk : Disk) (off : ℤ) (n : ℕ) : List UInt8 :=
  (List.range n).map fun i : ℕ => disk (off + i)

@[simp] theorem length_read (disk : Disk) (off : ℤ) (n : ℕ) : (read disk off n).length = n := by
  simp [read]

@[simp] theorem write_nil (disk : Disk) (off : ℤ) : write disk off [] = disk := by
  funext x
  simp only [write, List.length_nil]
  rw [if_neg (by omega)]

theorem read_write_same (disk : Disk) (off : ℤ) (bytes : List UInt8) :
    read (write disk off bytes) off bytes.length = bytes := by
  apply List.ext_getElem
  · simp
  · intro i _ below
    have inside : off ≤ off + (i : ℤ) ∧ off + (i : ℤ) < off + bytes.length := by omega
    have index : (off + (i : ℤ) - off).toNat = i := by omega
    simp only [read, List.getElem_map, List.getElem_range, write, if_pos inside, index]
    simp [below]

theorem read_write_apart (disk : Disk) {off off' : ℤ} {bytes : List UInt8} {n : ℕ}
    (apart : off + bytes.length ≤ off' ∨ off' + n ≤ off) :
    read (write disk off bytes) off' n = read disk off' n := by
  apply List.map_congr_left
  intro i member
  have below : i < n := List.mem_range.mp member
  simp only [write]
  rw [if_neg (by omega)]

end ByteDisk
