import Mathlib.Data.List.Perm.Basic
import Mathlib.Data.List.Range
import Mathlib.Data.List.Nodup
import Mathlib.Data.Int.Basic
import Mathlib.Tactic.Ring
import Mathlib.Tactic.Linarith
import Mathlib.Tactic.Positivity

/-!
# A growing arena with a free list

An allocator that hands out units of a fixed size from a linear space: it reuses
a released offset when it has one and otherwise extends the space at its tail.
`Tiles unit live free tail` is the accounting invariant of such an allocator:
the offsets in use and the offsets on the free list are, up to order, exactly
the multiples of `unit` below the tail.  Being a permutation of a list without
repetitions, it says at once that no offset is owned twice and none is lost.

The three moves of an allocator — reuse, growth, release — each preserve it.
-/

namespace Arena

open scoped List

/-- The offsets of the first `count` units. -/
def grid (unit : ℤ) (count : ℕ) : List ℤ := (List.range count).map fun i : ℕ => (i : ℤ) * unit

theorem mem_grid {unit off : ℤ} {count : ℕ} :
    off ∈ grid unit count ↔ ∃ i < count, (i : ℤ) * unit = off := by
  simp [grid]

theorem grid_succ (unit : ℤ) (count : ℕ) :
    grid unit (count + 1) = grid unit count ++ [(count : ℤ) * unit] := by
  simp [grid, List.range_succ]

theorem grid_nodup {unit : ℤ} (positive : 0 < unit) (count : ℕ) : (grid unit count).Nodup := by
  refine List.nodup_range.map fun i j equal => ?_
  have : (i : ℤ) = j := Int.eq_of_mul_eq_mul_right positive.ne' equal
  exact_mod_cast this

/-- The offsets in use and the free offsets tile the space below the tail. -/
def Tiles (unit : ℤ) (live free : List ℤ) (tail : ℤ) : Prop :=
  ∃ count : ℕ, tail = count * unit ∧ (live ++ free).Perm (grid unit count)

namespace Tiles

variable {unit off tail : ℤ} {live live' free free' : List ℤ}

/-- The empty space. -/
theorem empty (unit : ℤ) : Tiles unit [] [] 0 := ⟨0, by simp, by simp [grid]⟩

theorem of_perm (tiles : Tiles unit live free tail) (perm : live.Perm live') :
    Tiles unit live' free tail := by
  obtain ⟨count, bound, cover⟩ := tiles
  exact ⟨count, bound, (perm.symm.append_right free).trans cover⟩

/-- Reuse: a free offset becomes live. -/
theorem reuse (tiles : Tiles unit live (free ++ [off]) tail) :
    Tiles unit (off :: live) free tail := by
  obtain ⟨count, bound, cover⟩ := tiles
  refine ⟨count, bound, List.Perm.trans ?_ cover⟩
  calc off :: (live ++ free)
      _ ~ (live ++ free) ++ [off] := (List.perm_append_singleton off _).symm
      _ ~ live ++ (free ++ [off]) := by rw [List.append_assoc]

/-- Growth: with nothing free or not, the tail offset becomes live and the tail
moves one unit on. -/
theorem grow (tiles : Tiles unit live free tail) :
    Tiles unit (tail :: live) free (tail + unit) := by
  obtain ⟨count, rfl, cover⟩ := tiles
  refine ⟨count + 1, by push_cast; ring, ?_⟩
  rw [grid_succ]
  exact (cover.cons _).trans (List.perm_append_singleton _ _).symm

/-- Release: a live offset becomes free. -/
theorem release (tiles : Tiles unit (off :: live) free tail) :
    Tiles unit live (free ++ [off]) tail := by
  obtain ⟨count, bound, cover⟩ := tiles
  refine ⟨count, bound, List.Perm.trans ?_ cover⟩
  calc live ++ (free ++ [off])
      _ ~ (live ++ free) ++ [off] := by rw [List.append_assoc]
      _ ~ off :: (live ++ free) := List.perm_append_singleton off _

/-- No offset is owned twice, neither within nor across the two lists. -/
theorem nodup (positive : 0 < unit) (tiles : Tiles unit live free tail) :
    (live ++ free).Nodup := by
  obtain ⟨count, -, cover⟩ := tiles
  exact cover.nodup_iff.mpr (grid_nodup positive count)

/-- The owned offsets are exactly the unit multiples below the tail. -/
theorem mem_iff (positive : 0 < unit) (tiles : Tiles unit live free tail) :
    off ∈ live ++ free ↔ 0 ≤ off ∧ off < tail ∧ unit ∣ off := by
  obtain ⟨count, rfl, cover⟩ := tiles
  rw [cover.mem_iff, mem_grid]
  constructor
  · rintro ⟨i, below, rfl⟩
    have : (i : ℤ) < count := by exact_mod_cast below
    exact ⟨by positivity, by nlinarith, Dvd.intro_left _ rfl⟩
  · rintro ⟨nonneg, below, i, rfl⟩
    have lower : 0 ≤ i := by nlinarith
    have upper : i < count := by nlinarith
    refine ⟨i.toNat, by omega, ?_⟩
    rw [Int.toNat_of_nonneg lower, mul_comm]

/-- How far the space has grown is the number of offsets owned. -/
theorem tail_eq (tiles : Tiles unit live free tail) :
    tail = (live.length + free.length : ℕ) * unit := by
  obtain ⟨count, rfl, cover⟩ := tiles
  have := cover.length_eq
  simp only [List.length_append, grid, List.length_map, List.length_range] at this
  rw [this]

end Tiles

/-! ## Drawing offsets -/

/-- What an allocator keeps. -/
structure Space where
  free : List ℤ
  tail : ℤ

namespace Space

/-- The offset handed out next: the one released last, else the tail. -/
def next (space : Space) : ℤ := space.free.getLast?.getD space.tail

/-- What is left of the space once it is handed out. -/
def rest (unit : ℤ) (space : Space) : Space where
  free := space.free.dropLast
  tail := if space.free = [] then space.tail + unit else space.tail

/-- The next offsets, in the order they are handed out. -/
def draw (unit : ℤ) : ℕ → Space → List ℤ
  | 0, _ => []
  | count + 1, space => space.next :: draw unit count (space.rest unit)

variable {unit : ℤ} {live : List ℤ}

/-- What is drawn in two goes is drawn in one. -/
theorem draw_add (j k : ℕ) (space : Space) :
    space.draw unit (j + k) = space.draw unit j ++ ((rest unit)^[j] space).draw unit k := by
  induction j generalizing space with
  | zero => rw [Nat.zero_add, draw, List.nil_append, Function.iterate_zero_apply]
  | succ j ih =>
      rw [Nat.succ_add, draw, draw, ih, Function.iterate_succ_apply, List.cons_append]

theorem length_draw (count : ℕ) (space : Space) : (space.draw unit count).length = count := by
  induction count generalizing space with
  | zero => rfl
  | succ count ih => rw [draw, List.length_cons, ih]

end Space

namespace Tiles

variable {unit : ℤ} {live : List ℤ}

theorem draw_one {space : Space} (tiles : Tiles unit live space.free space.tail) :
    Tiles unit (space.next :: live) (space.rest unit).free (space.rest unit).tail := by
  unfold Space.next Space.rest
  rcases List.eq_nil_or_concat space.free with empty | ⟨free, off, split⟩
  · simp only [empty, List.getLast?_nil, Option.getD_none, List.dropLast_nil, if_true]
    rw [empty] at tiles
    exact tiles.grow
  · have some_ : free ++ [off] ≠ [] := by simp
    rw [List.concat_eq_append] at split
    rw [split] at tiles ⊢
    simp only [List.getLast?_concat, Option.getD_some, List.dropLast_concat, if_neg some_]
    exact tiles.reuse

/-- What is drawn is live. -/
theorem draw (count : ℕ) {space : Space} (tiles : Tiles unit live space.free space.tail) :
    Tiles unit (space.draw unit count ++ live) ((Space.rest unit)^[count] space).free
      ((Space.rest unit)^[count] space).tail := by
  induction count generalizing space live with
  | zero => exact tiles
  | succ count ih =>
      rw [Space.draw, Function.iterate_succ_apply]
      exact (ih tiles.draw_one).of_perm List.perm_middle

end Tiles

end Arena
