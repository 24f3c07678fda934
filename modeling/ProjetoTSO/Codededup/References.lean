import Mathlib.Algebra.BigOperators.Group.Finset.Basic
import Mathlib.Algebra.Order.BigOperators.Group.Finset
import ProjetoTSO.Codededup.Shape

/-!
# References to a block

The number a block's counter is meant to hold: how often the block occurs in the
block lists of the indexed files, with multiplicity.  An operation that touches
one path changes it by the change at that path (`references_change`), which is
all the reference counting proofs use.
-/

namespace ProjetoTSO.Codededup

open scoped BigOperators

namespace Store

variable {s t : Store}

/-- The block list of the file at a path; a path without an entry lists nothing. -/
def listAt (s : Store) (path : Path) : List BlockRef :=
  match s.fileIndex.lookup path with
  | some f => (s.files f).blockList
  | none => []

theorem listAt_of_lookup {path : Path} {f : FileRef} (found : s.fileIndex.lookup path = some f) :
    s.listAt path = (s.files f).blockList := by
  simp [listAt, found]

theorem listAt_of_none {path : Path} (absent : s.fileIndex.lookup path = none) :
    s.listAt path = [] := by
  simp [listAt, absent]

theorem mem_listAt {path : Path} {b : BlockRef} :
    b ∈ s.listAt path ↔ ∃ f, s.fileIndex.lookup path = some f ∧ b ∈ (s.files f).blockList := by
  cases found : s.fileIndex.lookup path with
  | none => simp [listAt, found]
  | some f => simp [listAt, found]

/-- The paths that have an entry. -/
def paths (s : Store) : Finset Path := s.fileIndex.keys.toFinset

theorem mem_paths {path : Path} : path ∈ s.paths ↔ s.fileIndex.lookup path ≠ none := by
  rw [paths, List.mem_toFinset, ← AList.mem_keys, ← AList.lookup_isSome, Option.isSome_iff_ne_none]

theorem listAt_of_notMem {path : Path} (absent : path ∉ s.paths) : s.listAt path = [] := by
  rw [mem_paths, not_not] at absent
  exact listAt_of_none absent

/-- The number of occurrences of a block in the block lists of all files. -/
def references (s : Store) (b : BlockRef) : ℕ := ∑ path ∈ s.paths, (s.listAt path).count b

/-- Paths without an entry contribute nothing. -/
theorem references_eq_sum {domain : Finset Path} (covers : s.paths ⊆ domain) (b : BlockRef) :
    s.references b = ∑ path ∈ domain, (s.listAt path).count b := by
  refine Finset.sum_subset covers fun path _ absent => ?_
  rw [listAt_of_notMem absent]
  rfl

/-- **What one path's change does to the references of a block.** -/
theorem references_change (path : Path)
    (others : ∀ other, other ≠ path → t.listAt other = s.listAt other) (b : BlockRef) :
    t.references b + (s.listAt path).count b = s.references b + (t.listAt path).count b := by
  classical
  set domain := insert path (s.paths ∪ t.paths) with hdomain
  have coversS : s.paths ⊆ domain := fun p member => by simp [hdomain, member]
  have coversT : t.paths ⊆ domain := fun p member => by simp [hdomain, member]
  have inside : path ∈ domain := Finset.mem_insert_self _ _
  rw [references_eq_sum coversS, references_eq_sum coversT,
    ← Finset.add_sum_erase domain (fun p => (s.listAt p).count b) inside,
    ← Finset.add_sum_erase domain (fun p => (t.listAt p).count b) inside]
  have rest : ∑ p ∈ domain.erase path, (t.listAt p).count b =
      ∑ p ∈ domain.erase path, (s.listAt p).count b :=
    Finset.sum_congr rfl fun p member => by rw [others p (Finset.ne_of_mem_erase member)]
  omega

theorem references_congr (same : ∀ path, t.listAt path = s.listAt path) (b : BlockRef) :
    t.references b = s.references b := by
  have changed := references_change (CString.ofBytes []) (fun other _ => same other) b
  rw [same] at changed
  omega

/-- A store that lists a block nowhere more often has no more references to it. -/
theorem references_le {b c : BlockRef}
    (below : ∀ path, (t.listAt path).count c ≤ (s.listAt path).count b) :
    t.references c ≤ s.references b := by
  classical
  rw [references_eq_sum (Finset.subset_union_right : t.paths ⊆ s.paths ∪ t.paths),
    references_eq_sum (Finset.subset_union_left : s.paths ⊆ s.paths ∪ t.paths)]
  exact Finset.sum_le_sum fun path _ => below path

/-- A file's own occurrences are among the references. -/
theorem count_le_references (s : Store) (path : Path) (b : BlockRef) :
    (s.listAt path).count b ≤ s.references b := by
  by_cases member : path ∈ s.paths
  · exact Finset.single_le_sum (f := fun p => (s.listAt p).count b) (fun _ _ => Nat.zero_le _) member
  · rw [listAt_of_notMem member]
    exact Nat.zero_le _

theorem references_pos_iff {b : BlockRef} : 0 < s.references b ↔ ∃ path, b ∈ s.listAt path := by
  constructor
  · intro positive
    obtain ⟨path, -, counted⟩ := Finset.exists_ne_zero_of_sum_ne_zero positive.ne'
    exact ⟨path, List.count_pos_iff.mp (Nat.pos_of_ne_zero counted)⟩
  · rintro ⟨path, member⟩
    exact lt_of_lt_of_le (List.count_pos_iff.mpr member) (count_le_references s path b)

theorem references_eq_zero_iff {b : BlockRef} :
    s.references b = 0 ↔ ∀ path, b ∉ s.listAt path := by
  have := @references_pos_iff s b
  constructor
  · intro zero path member
    have := this.mpr ⟨path, member⟩
    omega
  · intro nowhere
    by_contra positive
    obtain ⟨path, member⟩ := this.mp (Nat.pos_of_ne_zero positive)
    exact nowhere path member

end Store

end ProjetoTSO.Codededup
