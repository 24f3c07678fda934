import Mathlib.Algebra.BigOperators.Group.Finset.Basic
import Mathlib.Tactic.Abel
import ProjetoTSO.Codededup.Filling

/-!
# References in flight

While calls run, the references to a block are not only in the lists of the files.  A write
has taken its references before it lists a block, and an unlink releases those of its file
one block after the other (`Frame.owed`).  With these the ledger holds in every interleaving:
the references to a block are those of the files that still count and those the calls owe
(`refs`), a block waits for an offset while the write that created it looks others up
(`unplaced`), and an offset is in transit between the index and the free list (`transit`).
-/

namespace ProjetoTSO.Codededup.Threads

open CInt LockedPrograms FifoRwlock
open scoped BigOperators

/-! ## Sums over threads -/

/-- What a sum over threads is after one of them moved. -/
theorem sum_update {M T Λ : Type} [AddCommMonoid M] [Fintype T] [DecidableEq T] (g g' : Λ → M)
    (frames : T → Λ) (t : T) (frame : Λ) (others : ∀ u, u ≠ t → g' (frames u) = g (frames u)) :
    ∑ u, g' (Function.update frames t frame u) + g (frames t) = ∑ u, g (frames u) + g' frame := by
  have rest : ∑ u ∈ Finset.univ.erase t, g' (Function.update frames t frame u) =
      ∑ u ∈ Finset.univ.erase t, g (frames u) := by
    refine Finset.sum_congr rfl fun u member => ?_
    have differ := Finset.ne_of_mem_erase member
    rw [Function.update_of_ne differ, others u differ]
  rw [← Finset.add_sum_erase Finset.univ (fun u => g' (Function.update frames t frame u))
      (Finset.mem_univ t), ← Finset.add_sum_erase Finset.univ (fun u => g (frames u))
      (Finset.mem_univ t), rest, Function.update_self]
  abel

/-! ## What calls owe -/

/-- The blocks of a write that it has yet to list. -/
def Phase.left (newBlocksInfo : List BlockRef) : Phase → List BlockRef
  | .looking => newBlocksInfo
  | .placed k => newBlocksInfo.drop k
  | .stored _ => []

/-- The references to a block that `blockCounts` still holds. -/
def tally (b : BlockRef) (rest : List (BlockRef × ℤ)) : ℕ :=
  (rest.map fun entry => if entry.1 = b then entry.2.toNat else 0).sum

namespace Frame

/-- The references to a block a call has in hand, where `listed` are those that the files
account for.  A write owes what it has yet to list, and all its blocks if its file does not
count. -/
def owed (listed : FileRef → BlockRef → ℕ) (b : BlockRef) : Frame → ℕ
  | .writing f tables phase =>
      max ((phase.left tables.newBlocksInfo).count b) (tables.newBlocksInfo.count b - listed f b)
  | .releasing _ _ rest => tally b rest
  | _ => 0

/-- The blocks a write has created and that own no offset. -/
def created : Frame → List BlockRef
  | .writing _ tables .looking => tables.my_created_blocks
  | _ => []

/-- The block that has left the index and whose offset is not free yet. -/
def gone : Frame → Option BlockRef
  | .releasing _ gone _ => gone
  | _ => none

/-- The offset of that block. -/
def transit (s : Store) (frame : Frame) : Multiset ℤ :=
  frame.gone.elim 0 fun b => {(s.blocks b).block_offset}

/-- The entry an unlink has taken out of the index, no reference of which it has released. -/
def intact : Frame → Option FileRef
  | .stolen f => some f
  | .failed f => some f
  | .removing f => some f
  | _ => none

theorem unlinked_of_intact {frame : Frame} {f : FileRef} (intact : frame.intact = some f) :
    frame.unlinked = some f := by
  cases frame <;> first | exact intact | cases intact

end Frame

/-! ## The books -/

section Books

variable {T : Type} [Fintype T]

/-- The references to a block in a file, if it counts. -/
def listed (counted : Finset FileRef) (s : Store) (f : FileRef) (b : BlockRef) : ℕ :=
  if f ∈ counted then (s.files f).blockList.count b else 0

theorem listed_congr {counted : Finset FileRef} {s s' : Store} (files : s'.files = s.files) :
    listed counted s' = listed counted s := by
  funext f b
  unfold listed
  rw [files]

/-- The references to a block. -/
def refs (counted : Finset FileRef) (frames : T → Frame) (s : Store) (b : BlockRef) : ℕ :=
  ∑ f ∈ counted, (s.files f).blockList.count b + ∑ t, (frames t).owed (listed counted s) b

omit [Fintype T] in
/-- The blocks that own no offset yet. -/
def unplaced (frames : T → Frame) : Set BlockRef := {b | ∃ t, b ∈ (frames t).created}

/-- The offsets between the index and the free list. -/
noncomputable def transit (frames : T → Frame) (s : Store) : List ℤ :=
  (∑ t, (frames t).transit s).toList

theorem coe_transit (frames : T → Frame) (s : Store) :
    (transit frames s : Multiset ℤ) = ∑ t, (frames t).transit s := Multiset.coe_toList _

/-- The ledger of a store on which calls are running. -/
def Accounts (counted : Finset FileRef) (frames : T → Frame) (s : Store) : Prop :=
  Ledger (refs counted frames s) (unplaced frames) (transit frames s) s

end Books

theorem count_snoc (blocks : List BlockRef) (b c : BlockRef) :
    (blocks ++ [b]).count c = blocks.count c + if c = b then 1 else 0 := by
  rw [List.count_append, List.count_singleton]
  rcases eq_or_ne c b with rfl | differ
  · rw [beq_self_eq_true, if_pos rfl, if_pos rfl]
  · rw [beq_false_of_ne differ.symm, if_neg differ, if_neg Bool.false_ne_true]

/-- Index, blocks and offsets are the same. -/
structure SameBlocks (s s' : Store) : Prop where
  blockIndex : s'.blockIndex = s.blockIndex
  blocks : s'.blocks = s.blocks
  nextBlock : s'.nextBlock = s.nextBlock
  freeList : s'.freeList = s.freeList
  next_free_offset : s'.next_free_offset = s.next_free_offset

theorem SameBlocks.refl (s : Store) : SameBlocks s s := ⟨rfl, rfl, rfl, rfl, rfl⟩

namespace Frame

variable {frame : Frame} {listed listed' : FileRef → BlockRef → ℕ} {f : FileRef} {b : BlockRef}

/-- Only the file a write writes to matters. -/
theorem owed_congr (same : ∀ f, frame.writes = some f → ∀ b, listed' f b = listed f b)
    (b : BlockRef) : frame.owed listed' b = frame.owed listed b := by
  cases frame with
  | writing f tables phase => simp only [owed, same f rfl]
  | _ => rfl

/-- A write that looks its blocks up owes all it has found. -/
theorem owed_looking (tables : WriteTables) :
    (Frame.writing f tables .looking).owed listed b = tables.newBlocksInfo.count b :=
  max_eq_left (Nat.sub_le _ _)

/-- What a write owes covers its blocks, together with what its file lists. -/
theorem count_le_owed (tables : WriteTables) (phase : Phase) :
    tables.newBlocksInfo.count b ≤
      (Frame.writing f tables phase).owed listed b + listed f b := by
  show _ ≤ max _ (tables.newBlocksInfo.count b - listed f b) + _
  omega

end Frame

section Steps

variable {T : Type} [DecidableEq T] {counted counted' : Finset FileRef}
variable {frames : T → Frame} {frame : Frame} {s s' : Store} {t : T} {f : FileRef} {b : BlockRef}

theorem created_update (same : frame.created = (frames t).created) :
    unplaced (Function.update frames t frame) = unplaced frames := by
  ext b
  refine exists_congr fun u => ?_
  rcases eq_or_ne u t with rfl | differ
  · rw [Function.update_self, same]
  · rw [Function.update_of_ne differ]

/-- A write has created one more block. -/
theorem created_insert (more : frame.created = b :: (frames t).created) :
    unplaced (Function.update frames t frame) = insert b (unplaced frames) := by
  ext c
  constructor
  · rintro ⟨u, member⟩
    rcases eq_or_ne u t with rfl | differ
    · rw [Function.update_self, more] at member
      exact (List.mem_cons.mp member).imp_right fun old => ⟨u, old⟩
    · rw [Function.update_of_ne differ] at member
      exact Or.inr ⟨u, member⟩
  · rintro (rfl | ⟨u, member⟩)
    · refine ⟨t, ?_⟩
      rw [Function.update_self, more]
      exact List.mem_cons_self
    · refine ⟨u, ?_⟩
      rcases eq_or_ne u t with rfl | differ
      · rw [Function.update_self, more]
        exact List.mem_cons_of_mem _ member
      · rwa [Function.update_of_ne differ]

/-- The blocks of a write own their offsets. -/
theorem created_placed (none_ : frame.created = [])
    (apart : ∀ u, ∀ b ∈ (frames t).created, b ∈ (frames u).created → u = t) :
    unplaced (Function.update frames t frame) = unplaced frames \ {b | b ∈ (frames t).created} := by
  ext c
  constructor
  · rintro ⟨u, member⟩
    rcases eq_or_ne u t with rfl | differ
    · rw [Function.update_self, none_] at member
      exact absurd member List.not_mem_nil
    · rw [Function.update_of_ne differ] at member
      exact ⟨⟨u, member⟩, fun mine => differ (apart u c mine member)⟩
  · rintro ⟨⟨u, member⟩, other⟩
    refine ⟨u, ?_⟩
    rwa [Function.update_of_ne]
    rintro rfl
    exact other member

variable [Fintype T]

omit [DecidableEq T] in
/-- A reference is to a listed block, or owed. -/
theorem refs_pos_of_listed (member : f ∈ counted) (listed : b ∈ (s.files f).blockList) :
    0 < refs counted frames s b := by
  have one : (s.files f).blockList.count b ≤ ∑ f ∈ counted, (s.files f).blockList.count b :=
    Finset.single_le_sum (f := fun f => (s.files f).blockList.count b) (fun _ _ => Nat.zero_le _)
      member
  have some_ := List.count_pos_iff.mpr listed
  unfold refs
  omega

omit [DecidableEq T] in
theorem refs_pos_of_owed (owes : 0 < (frames t).owed (listed counted s) b) :
    0 < refs counted frames s b := by
  have one : (frames t).owed (listed counted s) b ≤ ∑ u, (frames u).owed (listed counted s) b :=
    Finset.single_le_sum (f := fun u => (frames u).owed (listed counted s) b)
      (fun _ _ => Nat.zero_le _) (Finset.mem_univ t)
  unfold refs
  omega

omit [DecidableEq T] in
/-- The blocks of a write are referenced. -/
theorem refs_pos_of_writing {tables : WriteTables} {phase : Phase}
    (here : frames t = .writing f tables phase) (member : b ∈ tables.newBlocksInfo) :
    0 < refs counted frames s b := by
  have some_ := List.count_pos_iff.mpr member
  have covered := @Frame.count_le_owed (listed counted s) f b tables phase
  rw [← here] at covered
  by_cases owes : 0 < (frames t).owed (listed counted s) b
  · exact refs_pos_of_owed owes
  · have inList : 0 < listed counted s f b := by omega
    by_cases counts : f ∈ counted
    · rw [listed, if_pos counts] at inList
      exact refs_pos_of_listed counts (List.count_pos_iff.mp inList)
    · rw [listed, if_neg counts] at inList
      exact absurd inList (lt_irrefl 0)

/-- What a step does to the references. -/
theorem refs_change (t : T) (frame : Frame)
    (others : ∀ u, u ≠ t → ∀ f, (frames u).writes = some f →
      ∀ b, listed counted' s' f b = listed counted s f b) (b : BlockRef) :
    refs counted' (Function.update frames t frame) s' b +
        (frames t).owed (listed counted s) b + ∑ f ∈ counted, (s.files f).blockList.count b =
      refs counted frames s b + frame.owed (listed counted' s') b +
        ∑ f ∈ counted', (s'.files f).blockList.count b := by
  have sum := sum_update (fun frame => Frame.owed (listed counted s) b frame)
    (fun frame => Frame.owed (listed counted' s') b frame) frames t frame
    fun u differ => Frame.owed_congr (others u differ) b
  unfold refs
  omega

/-- The references after a step that leaves the lists alone. -/
theorem refs_turn (t : T) (frame : Frame) (files : ∀ b, ∑ f ∈ counted', (s'.files f).blockList.count b =
      ∑ f ∈ counted, (s.files f).blockList.count b)
    (others : ∀ u, u ≠ t → ∀ f, (frames u).writes = some f →
      ∀ b, listed counted' s' f b = listed counted s f b) (b : BlockRef) :
    refs counted' (Function.update frames t frame) s' b +
        (frames t).owed (listed counted s) b =
      refs counted frames s b + frame.owed (listed counted' s') b := by
  have change := refs_change t frame others b
  rw [files] at change
  omega

/-- A call takes references. -/
theorem refs_gain (gain : BlockRef → ℕ) (files : ∀ b, ∑ f ∈ counted', (s'.files f).blockList.count b =
      ∑ f ∈ counted, (s.files f).blockList.count b)
    (others : ∀ u, u ≠ t → ∀ f, (frames u).writes = some f →
      ∀ b, listed counted' s' f b = listed counted s f b)
    (owed : ∀ b, frame.owed (listed counted' s') b =
      (frames t).owed (listed counted s) b + gain b) (b : BlockRef) :
    refs counted' (Function.update frames t frame) s' b = refs counted frames s b + gain b := by
  have turn := refs_turn t frame files others b
  rw [owed b] at turn
  omega

/-! ## What the steps do to the references -/

/-- One more to a block a write has found. -/
theorem refs_raise {tables : WriteTables} (here : frames t = .writing f tables .looking)
    (b c : BlockRef) :
    refs counted (Function.update frames t
        (.writing f (tables.note (raiseCounter b s) b) .looking)) (raiseCounter b s) c =
      refs counted frames s c + if c = b then 1 else 0 := by
  refine refs_gain (fun c => if c = b then 1 else 0) ?_ ?_ ?_ c
  · exact fun _ => rfl
  · exact fun _ _ _ _ _ => rfl
  · intro c
    rw [here, Frame.owed_looking, Frame.owed_looking]
    exact count_snoc tables.newBlocksInfo b c

/-- The first to a block a write creates. -/
theorem refs_make {tables : WriteTables} {hash : BlockId}
    (here : frames t = .writing f tables .looking) (c : BlockRef) :
    refs counted (Function.update frames t (.writing f
        ({ tables with my_created_blocks := s.nextBlock :: tables.my_created_blocks }.note
          (createBlock hash s) s.nextBlock) .looking)) (createBlock hash s) c =
      refs counted frames s c + if c = s.nextBlock then 1 else 0 := by
  refine refs_gain (fun c => if c = s.nextBlock then 1 else 0) ?_ ?_ ?_ c
  · exact fun _ => rfl
  · exact fun _ _ _ _ _ => rfl
  · intro c
    rw [here, Frame.owed_looking, Frame.owed_looking]
    exact count_snoc tables.newBlocksInfo s.nextBlock c

theorem refs_place {tables : WriteTables} (here : frames t = .writing f tables .looking)
    (blocks_to_lock : List BlockRef) (c : BlockRef) :
    refs counted (Function.update frames t (.writing f tables (.placed 0)))
        (assignOffsets blocks_to_lock tables.my_created_blocks s) c =
      refs counted frames s c := by
  have files := (assignOffsets_offsetsOnly blocks_to_lock tables.my_created_blocks s).files
  refine refs_gain (fun _ => 0) ?_ ?_ ?_ c
  · exact fun b => by rw [files]
  · exact fun _ _ _ _ _ => by rw [listed_congr files]
  · intro b
    rw [here, Frame.owed_looking]
    exact max_eq_left (Nat.sub_le _ _)

omit [DecidableEq T] [Fintype T] in
/-- One block more in a file. -/
theorem count_appended (appended : AppendedTo f [b] s s') (c : BlockRef) :
    ∑ g ∈ counted, (s'.files g).blockList.count c =
      ∑ g ∈ counted, (s.files g).blockList.count c +
        if f ∈ counted then (if c = b then 1 else 0) else 0 := by
  have own : (s'.files f).blockList.count c =
      (s.files f).blockList.count c + if c = b then 1 else 0 := by
    rw [appended.blockList]
    exact count_snoc _ b c
  have rest : ∀ chosen : Finset FileRef, f ∉ chosen →
      ∑ g ∈ chosen, (s'.files g).blockList.count c =
        ∑ g ∈ chosen, (s.files g).blockList.count c := by
    intro chosen apart
    refine Finset.sum_congr rfl fun g member => ?_
    rw [appended.others g fun same => apart (same ▸ member)]
  by_cases counts : f ∈ counted
  · rw [if_pos counts, ← Finset.add_sum_erase counted _ counts,
      ← Finset.add_sum_erase counted (fun g => (s.files g).blockList.count c) counts,
      rest _ (Finset.notMem_erase f counted), own]
    omega
  · rw [if_neg counts, rest _ counts, Nat.add_zero]

/-- A block a write owed is listed.  No reference is lost if the file counts and lists what
the write has appended so far. -/
theorem refs_store {tables : WriteTables} {k : ℕ} (here : frames t = .writing f tables (.placed k))
    (block : tables.newBlocksInfo[k]? = some b)
    (alone : ∀ u, u ≠ t → (frames u).writes ≠ some f) (appended : AppendedTo f [b] s s')
    (c : BlockRef) :
    refs counted (Function.update frames t (.writing f tables (.placed (k + 1)))) s' c ≤
        refs counted frames s c ∧
      (f ∈ counted → (tables.newBlocksInfo.take k).count c ≤ listed counted s f c →
        refs counted (Function.update frames t (.writing f tables (.placed (k + 1)))) s' c =
          refs counted frames s c) := by
  have others : ∀ u, u ≠ t → ∀ g, (frames u).writes = some g →
      ∀ c, listed counted s' g c = listed counted s g c := by
    intro u differ g writes c
    unfold listed
    rw [appended.others g fun same => alone u differ (same ▸ writes)]
  have change := refs_change t (.writing f tables (.placed (k + 1))) others c
  have files := @count_appended counted s s' f b appended c
  have own : listed counted s' f c = listed counted s f c +
      if f ∈ counted then (if c = b then 1 else 0) else 0 := by
    unfold listed
    by_cases counts : f ∈ counted
    · rw [if_pos counts, if_pos counts, if_pos counts, appended.blockList]
      exact count_snoc _ b c
    · rw [if_neg counts, if_neg counts, if_neg counts]
  have next : (tables.newBlocksInfo.drop k).count c =
      (tables.newBlocksInfo.drop (k + 1)).count c + if c = b then 1 else 0 := by
    obtain ⟨inside, at_⟩ := List.getElem?_eq_some_iff.mp block
    rw [List.drop_eq_getElem_cons inside, at_, List.count_cons]
    rcases eq_or_ne c b with rfl | differ
    · rw [beq_self_eq_true, if_pos rfl, if_pos rfl]
    · rw [beq_false_of_ne differ.symm, if_neg differ, if_neg Bool.false_ne_true]
  have parts : (tables.newBlocksInfo.take k).count c + (tables.newBlocksInfo.drop k).count c =
      tables.newBlocksInfo.count c := by
    rw [← List.count_append, List.take_append_drop]
  have before : (frames t).owed (listed counted s) c =
      max ((tables.newBlocksInfo.drop k).count c)
        (tables.newBlocksInfo.count c - listed counted s f c) := by
    rw [here]
    rfl
  have after : (Frame.writing f tables (.placed (k + 1))).owed (listed counted s') c =
      max ((tables.newBlocksInfo.drop (k + 1)).count c)
        (tables.newBlocksInfo.count c - listed counted s' f c) := rfl
  rw [before, after, files, own, next] at change
  by_cases counts : f ∈ counted
  · rw [if_pos counts] at change
    exact ⟨by omega, fun _ appended => by omega⟩
  · rw [if_neg counts] at change
    exact ⟨by omega, fun counted => absurd counted counts⟩

/-- The references of a file are those its release loop gives up. -/
theorem refs_counts {rest : List (BlockRef × ℤ)} (here : frames t = .removing f)
    (member : f ∈ counted) (tallied : ∀ c, tally c rest = (s.files f).blockList.count c)
    (alone : ∀ u, u ≠ t → (frames u).writes ≠ some f) (c : BlockRef) :
    refs (counted.erase f) (Function.update frames t (.releasing f none rest)) s c =
      refs counted frames s c := by
  have others : ∀ u, u ≠ t → ∀ g, (frames u).writes = some g →
      ∀ c, listed (counted.erase f) s g c = listed counted s g c := by
    intro u differ g writes c
    have apart : g ≠ f := fun same => alone u differ (same ▸ writes)
    unfold listed
    simp only [Finset.mem_erase, apart, ne_eq, not_false_eq_true, true_and]
  have change := refs_change t (.releasing f none rest) others c
  have before : (frames t).owed (listed counted s) c = 0 := by
    rw [here]
    rfl
  have after : (Frame.releasing f none rest).owed (listed (counted.erase f) s) c =
      (s.files f).blockList.count c := tallied c
  rw [before, after, ← Finset.add_sum_erase counted (fun g => (s.files g).blockList.count c) member]
    at change
  omega

/-- The references to one block are given up. -/
theorem refs_lower {k : ℕ} {rest : List (BlockRef × ℤ)} (gone : Option BlockRef)
    (here : frames t = .releasing f none ((b, (k : ℤ)) :: rest)) (c : BlockRef) :
    refs counted (Function.update frames t (.releasing f gone rest)) (lowerCounter b k s) c +
      (if c = b then k else 0) = refs counted frames s c := by
  have files := (lowerCounter_released b k s).files
  have turn : refs counted (Function.update frames t (.releasing f gone rest))
        (lowerCounter b k s) c + (frames t).owed (listed counted s) c =
      refs counted frames s c +
        (Frame.releasing f gone rest).owed (listed counted (lowerCounter b k s)) c :=
    refs_turn t _ (fun b => by rw [files]) (fun _ _ _ _ _ => by rw [listed_congr files]) c
  have before : (frames t).owed (listed counted s) c = (if c = b then k else 0) + tally c rest := by
    rw [here]
    show (if b = c then (k : ℤ).toNat else 0) + tally c rest = _
    rw [Int.toNat_natCast]
    simp only [eq_comm]
  have after : (Frame.releasing f gone rest).owed (listed counted (lowerCounter b k s)) c =
    tally c rest := rfl
  omega

theorem refs_push {rest : List (BlockRef × ℤ)} (here : frames t = .releasing f (some b) rest)
    (c : BlockRef) :
    refs counted (Function.update frames t (.releasing f none rest)) (pushFree b s) c =
      refs counted frames s c := by
  refine refs_gain (fun _ => 0) (fun _ => rfl) (fun _ _ _ _ _ => rfl) (fun c => ?_) c
  rw [here]
  rfl

/-! ## The offsets in transit -/

/-- The offsets in transit after a step that moves no block on its way. -/
theorem transit_turn (t : T) (frame : Frame) (moved : ∀ u b, (frames u).gone = some b →
      (s'.blocks b).block_offset = (s.blocks b).block_offset) :
    ∑ u, (Function.update frames t frame u).transit s' + (frames t).transit s =
      ∑ u, (frames u).transit s + frame.transit s' := by
  refine sum_update (Frame.transit s) (Frame.transit s') frames t frame fun u _ => ?_
  unfold Frame.transit
  cases gone : (frames u).gone with
  | none => rfl
  | some b =>
      rw [Option.elim_some, Option.elim_some, moved u b gone]

theorem transit_same (moved : ∀ u b, (frames u).gone = some b →
      (s'.blocks b).block_offset = (s.blocks b).block_offset)
    (gone : frame.gone = (frames t).gone) :
    transit (Function.update frames t frame) s' = transit frames s := by
  have turn := transit_turn t frame moved
  have own : frame.transit s' = (frames t).transit s := by
    unfold Frame.transit
    rw [gone]
    cases here : (frames t).gone with
    | none => rfl
    | some b => rw [Option.elim_some, Option.elim_some, moved t b here]
  rw [own] at turn
  rw [transit, transit, add_right_cancel turn]

namespace Accounts

/-- A step that touches no block and gives up references at most. -/
theorem of_refs (accounts : Accounts counted frames s) (same : SameBlocks s s')
    (fewer : ∀ b, refs counted' (Function.update frames t frame) s' b ≤ refs counted frames s b)
    (created : frame.created = (frames t).created) (gone : frame.gone = (frames t).gone) :
    Accounts counted' (Function.update frames t frame) s' := by
  have moved : ∀ u b, (frames u).gone = some b →
      (s'.blocks b).block_offset = (s.blocks b).block_offset := fun u b _ => by rw [same.blocks]
  unfold Accounts
  rw [created_update created, transit_same moved gone]
  exact (Ledger.mono accounts fewer).congr same.blockIndex same.blocks same.nextBlock
    same.freeList same.next_free_offset

/-- A step that touches no block and no list. -/
theorem quiet (accounts : Accounts counted frames s) (same : SameBlocks s s')
    (files : ∀ b, ∑ f ∈ counted', (s'.files f).blockList.count b =
      ∑ f ∈ counted, (s.files f).blockList.count b)
    (others : ∀ u, u ≠ t → ∀ f, (frames u).writes = some f →
      ∀ b, listed counted' s' f b = listed counted s f b)
    (owed : ∀ b, frame.owed (listed counted' s') b ≤ (frames t).owed (listed counted s) b)
    (created : frame.created = (frames t).created) (gone : frame.gone = (frames t).gone) :
    Accounts counted' (Function.update frames t frame) s' := by
  refine accounts.of_refs same (fun b => ?_) created gone
  have turn := refs_turn t frame files others b
  have less := owed b
  omega

/-- Only the frame changes. -/
theorem turn (accounts : Accounts counted frames s)
    (owed : ∀ b, frame.owed (listed counted s) b ≤ (frames t).owed (listed counted s) b)
    (created : frame.created = (frames t).created) (gone : frame.gone = (frames t).gone) :
    Accounts counted (Function.update frames t frame) s :=
  accounts.quiet (.refl s) (fun _ => rfl) (fun _ _ _ _ _ => rfl) owed created gone

/-- A write takes a reference to a block that is indexed. -/
theorem raise (accounts : Accounts counted frames s) {tables : WriteTables} {hash : BlockId}
    (here : frames t = .writing f tables .looking) (found : s.blockIndex.lookup hash = some b)
    (room : (s.blocks b).counter + 1 < 2 ^ 31) :
    Accounts counted (Function.update frames t
      (.writing f (tables.note (raiseCounter b s) b) .looking)) (raiseCounter b s) := by
  have offsets : ∀ c, ((raiseCounter b s).blocks c).block_offset = (s.blocks c).block_offset := by
    intro c
    rcases eq_or_ne c b with rfl | differ
    · rw [raiseCounter, Store.setBlock_blocks_self]
    · rw [raiseCounter, Store.setBlock_blocks_ne s _ differ]
  have created : (Frame.writing f (tables.note (raiseCounter b s) b) .looking).created =
      (frames t).created := by rw [here]; rfl
  unfold Accounts
  rw [created_update created, transit_same (fun _ c _ => offsets c) (by rw [here]; rfl)]
  exact Ledger.raiseCounter accounts found room fun c => (refs_raise here b c).le

/-- A write creates a block, which waits for an offset. -/
theorem create (accounts : Accounts counted frames s) {tables : WriteTables} {hash : BlockId}
    (here : frames t = .writing f tables .looking) (absent : s.blockIndex.lookup hash = none)
    (gone : ∀ u b, (frames u).gone = some b → b < s.nextBlock) :
    Accounts counted (Function.update frames t (.writing f
      ({ tables with my_created_blocks := s.nextBlock :: tables.my_created_blocks }.note
        (createBlock hash s) s.nextBlock) .looking)) (createBlock hash s) := by
  have offsets : ∀ u c, (frames u).gone = some c →
      ((createBlock hash s).blocks c).block_offset = (s.blocks c).block_offset := by
    intro u c left
    rw [Ledger.createBlock_blocks_ne s (gone u c left).ne]
  unfold Accounts
  rw [created_insert (b := s.nextBlock) (by rw [here]; rfl), transit_same offsets (by rw [here]; rfl)]
  exact Ledger.createBlock accounts absent fun c => (refs_make here c).le

/-- The blocks a write has created get their offsets. -/
theorem place (accounts : Accounts counted frames s) {tables : WriteTables}
    {blocks_to_lock : List BlockRef} (here : frames t = .writing f tables .looking)
    (nodup : blocks_to_lock.Nodup) (locked : ∀ b ∈ tables.my_created_blocks, b ∈ blocks_to_lock)
    (apart : ∀ u, ∀ b ∈ (frames t).created, b ∈ (frames u).created → u = t)
    (gone : ∀ u b, (frames u).gone = some b → b ∉ s.liveBlocks) :
    Accounts counted (Function.update frames t (.writing f tables (.placed 0)))
      (assignOffsets blocks_to_lock tables.my_created_blocks s) := by
  have mine : (frames t).created = tables.my_created_blocks := by rw [here]; rfl
  have waiting : ∀ b ∈ blocks_to_lock.filter (· ∈ tables.my_created_blocks),
      b ∈ unplaced frames := by
    intro b member
    refine ⟨t, ?_⟩
    rw [mine]
    exact of_decide_eq_true (List.mem_filter.mp member).2
  obtain ⟨placed, only⟩ := foldl_assignOffset accounts (nodup.filter _) waiting
  have chosen : {b | b ∈ blocks_to_lock.filter (· ∈ tables.my_created_blocks)} =
      {b | b ∈ (frames t).created} := by
    ext b
    rw [mine]
    constructor
    · intro member
      exact of_decide_eq_true (List.mem_filter.mp member).2
    · intro member
      exact List.mem_filter.mpr ⟨locked b member, decide_eq_true member⟩
  rw [chosen] at placed
  have offsets : ∀ u b, (frames u).gone = some b →
      ((assignOffsets blocks_to_lock tables.my_created_blocks s).blocks b).block_offset =
        (s.blocks b).block_offset := by
    intro u b left
    exact only.block_offset b fun waits => gone u b left (Ledger.waiting accounts waits)
  unfold Accounts
  rw [created_placed rfl apart, transit_same offsets (by rw [here]; rfl)]
  exact placed.mono fun b => (refs_place here blocks_to_lock b).le

/-- A write lists a block it owed. -/
theorem store (accounts : Accounts counted frames s) {tables : WriteTables} {k : ℕ}
    (here : frames t = .writing f tables (.placed k)) (block : tables.newBlocksInfo[k]? = some b)
    (alone : ∀ u, u ≠ t → (frames u).writes ≠ some f) (appended : AppendedTo f [b] s s') :
    Accounts counted (Function.update frames t (.writing f tables (.placed (k + 1)))) s' := by
  have same : SameBlocks s s' := ⟨appended.blockIndex, appended.blocks, appended.nextBlock,
    appended.freeList, appended.next_free_offset⟩
  exact accounts.of_refs same (fun c => (refs_store here block alone appended c).1)
    (by rw [here]; rfl) (by rw [here]; rfl)

/-- An unlink takes over the references of its file. -/
theorem counts (accounts : Accounts counted frames s) {rest : List (BlockRef × ℤ)}
    (here : frames t = .removing f) (member : f ∈ counted)
    (tallied : ∀ c, tally c rest = (s.files f).blockList.count c)
    (alone : ∀ u, u ≠ t → (frames u).writes ≠ some f) :
    Accounts (counted.erase f) (Function.update frames t (.releasing f none rest)) s := by
  exact accounts.of_refs (.refl s) (fun c => (refs_counts here member tallied alone c).le)
    (by rw [here]; rfl) (by rw [here]; rfl)

/-- The release loop gives up the references to one block.  A block left without any leaves
the index. -/
theorem lower (accounts : Accounts counted frames s) {n : ℤ} {rest : List (BlockRef × ℤ)}
    (here : frames t = .releasing f none ((b, n) :: rest)) (some_ : 0 < n)
    (noted : ∀ u g tables, frames u = .writing g tables .looking →
      ∀ c ∈ tables.my_created_blocks, c ∈ tables.newBlocksInfo) :
    Accounts counted (Function.update frames t (.releasing f
      (if ((lowerCounter b n s).blocks b).counter = 0 then some b else none) rest))
      (lowerCounter b n s) := by
  obtain ⟨k, rfl⟩ := Int.eq_ofNat_of_zero_le some_.le
  have offsets : ∀ c, ((lowerCounter b k s).blocks c).block_offset = (s.blocks c).block_offset := by
    intro c
    rw [Ledger.lowerCounter_blocks]
    rcases eq_or_ne c b with rfl | differ
    · rw [Function.update_self]
    · rw [Function.update_of_ne differ]
  set gone := if ((lowerCounter b k s).blocks b).counter = 0 then some b else none with isGone
  have fewer : ∀ c, refs counted (Function.update frames t (.releasing f gone rest))
      (lowerCounter b k s) c + (if c = b then k else 0) = refs counted frames s c :=
    refs_lower gone here
  have referenced : 0 < refs counted frames s b := by
    have own := fewer b
    rw [if_pos rfl] at own
    omega
  have placed : refs counted (Function.update frames t (.releasing f gone rest))
      (lowerCounter b k s) b = 0 → b ∉ unplaced frames := by
    rintro zero ⟨u, created⟩
    cases other : frames u with
    | writing g tables phase =>
        cases phase with
        | looking =>
            rw [other] at created
            have differ : u ≠ t := by
              rintro rfl
              rw [here] at other
              cases other
            have still : Function.update frames t (.releasing f gone rest) u =
                .writing g tables .looking := by rw [Function.update_of_ne differ, other]
            have more : 0 < refs counted (Function.update frames t (.releasing f gone rest))
                (lowerCounter b k s) b :=
              refs_pos_of_writing still (noted u g tables other b created)
            omega
        | _ =>
            rw [other] at created
            exact absurd created List.not_mem_nil
    | _ =>
        rw [other] at created
        exact absurd created List.not_mem_nil
  have ledger := Ledger.lowerCounter_of accounts (Ledger.indexed accounts referenced) placed
    fun c => (fewer c).le
  have turn : ∑ u, (Function.update frames t (.releasing f gone rest) u).transit
        (lowerCounter b k s) + (frames t).transit s =
      ∑ u, (frames u).transit s + (Frame.releasing f gone rest).transit (lowerCounter b k s) :=
    transit_turn t _ fun u c _ => offsets c
  have none_ : (frames t).transit s = 0 := by rw [here]; rfl
  rw [none_, add_zero] at turn
  unfold Accounts
  rw [created_update (by rw [here]; rfl)]
  refine ledger.transit_perm (Multiset.coe_eq_coe.mp ?_)
  rw [coe_transit, turn]
  by_cases zero : ((lowerCounter b k s).blocks b).counter = 0
  · rw [if_pos zero] at isGone ⊢
    rw [isGone, ← Multiset.cons_coe, coe_transit, ← Multiset.singleton_add, add_comm]
    show _ = _ + {((lowerCounter b k s).blocks b).block_offset}
    rw [offsets]
  · rw [if_neg zero] at isGone ⊢
    rw [isGone, coe_transit]
    exact (add_zero _).symm

/-- The offset of a block that has left the index becomes free. -/
theorem push (accounts : Accounts counted frames s) {rest : List (BlockRef × ℤ)}
    (here : frames t = .releasing f (some b) rest) :
    Accounts counted (Function.update frames t (.releasing f none rest)) (pushFree b s) := by
  have turn : ∑ u, (Function.update frames t (.releasing f none rest) u).transit (pushFree b s) +
      (frames t).transit s = ∑ u, (frames u).transit s + 0 :=
    transit_turn t (.releasing f none rest) fun _ _ _ => rfl
  rw [here, add_zero] at turn
  unfold Accounts
  rw [created_update (by rw [here]; rfl), funext (refs_push here)]
  refine Ledger.pushFree (Ledger.transit_perm accounts (Multiset.coe_eq_coe.mp ?_))
  rw [coe_transit, ← turn, ← Multiset.cons_coe, coe_transit, ← Multiset.singleton_add, add_comm]
  rfl

omit [DecidableEq T] in
/-- What becomes of a block that has left the index does not matter. -/
theorem free (accounts : Accounts counted frames s) (b : BlockRef) :
    Accounts counted frames (freeBlockMeta b s) := by
  have offsets : ∀ c, ((freeBlockMeta b s).blocks c).block_offset = (s.blocks c).block_offset := by
    intro c
    rcases eq_or_ne c b with rfl | differ
    · rw [freeBlockMeta, Store.setBlock_blocks_self]
    · rw [freeBlockMeta, Store.setBlock_blocks_ne s _ differ]
  have same : transit frames (freeBlockMeta b s) = transit frames s := by
    unfold transit Frame.transit
    simp only [offsets]
  unfold Accounts
  rw [same]
  exact Ledger.freeBlockMeta accounts

end Accounts

end Steps

end ProjetoTSO.Codededup.Threads
