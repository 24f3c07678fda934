import Mathlib.Data.List.Basic
import Mathlib.Data.List.Range
import Mathlib.Tactic.Ring

/-!
# Slices of lists made of chunks

A byte string stored as equally long chunks is read back chunk by chunk.  `slice`
is the bytes of a window; consecutive windows concatenate (`slice_append_slice`),
and a window that stays inside one chunk is a window of that chunk
(`slice_flatMap`).
-/

universe u v

namespace Chunks

variable {α : Type u} {β : Type v}

/-- The `len` elements from position `off` on, or as many as there are. -/
def slice (l : List α) (off len : ℕ) : List α := (l.drop off).take len

theorem length_slice (l : List α) (off len : ℕ) :
    (slice l off len).length = min len (l.length - off) := by
  simp [slice]

@[simp] theorem slice_zero (l : List α) (off : ℕ) : slice l off 0 = [] := by
  simp [slice]

theorem slice_append_slice (l : List α) (off len more : ℕ) :
    slice l off len ++ slice l (off + len) more = slice l off (len + more) := by
  simp only [slice, ← List.drop_drop]
  rw [List.take_add]

/-- A window of a window. -/
theorem slice_slice (l : List α) {off n r len : ℕ} (bound : r + len ≤ n) :
    slice (slice l off n) r len = slice l (off + r) len := by
  rw [slice, slice, slice, List.drop_take, List.take_take, List.drop_drop,
    min_eq_left (by omega)]

theorem slice_all (l : List α) : slice l 0 l.length = l := by
  simp [slice]

section Chunked

variable {chunk : β → List α} {n : ℕ}

theorem length_flatMap (length : ∀ b, (chunk b).length = n) (l : List β) :
    (l.flatMap chunk).length = n * l.length := by
  induction l with
  | nil => simp
  | cons b l ih =>
      rw [List.flatMap_cons, List.length_append, length, ih, List.length_cons]
      ring

/-- Whole chunks are skipped as such. -/
theorem drop_flatMap (length : ∀ b, (chunk b).length = n) (l : List β) (i : ℕ) :
    (l.flatMap chunk).drop (n * i) = (l.drop i).flatMap chunk := by
  induction l generalizing i with
  | nil => simp
  | cons b l ih =>
      cases i with
      | zero => simp
      | succ i =>
          have past : n * (i + 1) = (chunk b).length + n * i := by
            rw [length]
            ring
          rw [List.flatMap_cons, past, List.drop_append, List.drop_of_length_le (by omega),
            Nat.add_sub_cancel_left, List.nil_append, List.drop_succ_cons, ih]

/-- A window inside chunk `i`. -/
theorem slice_flatMap (length : ∀ b, (chunk b).length = n) {l : List β} {i r len : ℕ}
    (inside : i < l.length) (bound : r + len ≤ n) :
    slice (l.flatMap chunk) (n * i + r) len = slice (chunk (l.get ⟨i, inside⟩)) r len := by
  rw [slice, ← List.drop_drop, drop_flatMap length,
    List.drop_eq_getElem_cons inside, List.flatMap_cons]
  have enough : r ≤ (chunk l[i]).length := by
    rw [length]
    omega
  rw [List.drop_append_of_le_length enough, List.take_append_of_le_length]
  · rfl
  · rw [List.length_drop, length]
    omega

end Chunked

/-- Cutting a list into windows of length `n` and concatenating them gives the
list back. -/
theorem flatMap_slices (l : List α) (n count : ℕ) :
    (List.range count).flatMap (fun i => slice l (n * i) n) = slice l 0 (n * count) := by
  induction count with
  | zero => simp
  | succ count ih =>
      rw [List.range_succ, List.flatMap_append, ih, List.flatMap_singleton]
      have next := slice_append_slice l 0 (n * count) n
      rw [Nat.zero_add] at next
      rw [next, Nat.mul_succ]

end Chunks
