import ProjetoTSO.Codededup.MetaInfo

/-!
# Well-formed stores

`Store.Linked` is what every store the program builds has in common, whatever
happened to its counters and its disk: objects sit in the two indexes under
their own names, and a file lists only blocks that the index holds.

`Store.Fits` says that a store is one of C values: GLib stores lengths in `guint`
and aborts when one would overflow, and the remaining numbers have the ranges of
their types.

`Store.Copy s t` says that `t` is `s` up to the addresses of its objects.  The
blocks correspond one to one, so blocks shared in `s` are shared in `t`.
-/

namespace ProjetoTSO.Codededup

/-- Objects are indexed under their own names, and listed blocks are indexed. -/
structure Store.Linked (s : Store) : Prop where
  blockId : ∀ {hash b}, s.blockIndex.lookup hash = some b → (s.blocks b).id = hash
  fileId : ∀ {path f}, s.fileIndex.lookup path = some f → (s.files f).id = path
  listed : ∀ {path f}, s.fileIndex.lookup path = some f →
    ∀ b ∈ (s.files f).blockList, s.blockIndex.lookup (s.blocks b).id = some b

/-- The offsets owned by indexed blocks. -/
def Store.liveOffsets (s : Store) : List ℤ :=
  s.blockIndex.entries.map fun entry => (s.blocks entry.2).block_offset

/-- The range of `off_t` and `int64_t`. -/
def FitsOff (z : ℤ) : Prop := -2 ^ 63 ≤ z ∧ z < 2 ^ 63

structure Blockmeta.Fits (block : Blockmeta) : Prop where
  size : block.size < 2 ^ 64
  block_offset : FitsOff block.block_offset
  counter : -2 ^ 31 ≤ block.counter ∧ block.counter < 2 ^ 31

structure Filemeta.Fits (file : Filemeta) : Prop where
  id : file.id.bytes.length < 2 ^ 64
  realSize : FitsOff file.realSize
  logicalSize : FitsOff file.logicalSize
  blockList : file.blockList.length < 2 ^ 32

structure Store.Fits (s : Store) : Prop where
  fileIndex : s.fileIndex.entries.length < 2 ^ 32
  blockIndex : s.blockIndex.entries.length < 2 ^ 32
  freeList : s.freeList.length < 2 ^ 32
  next_free_offset : FitsOff s.next_free_offset
  free : ∀ off ∈ s.freeList, FitsOff off
  block : ∀ {hash b}, s.blockIndex.lookup hash = some b → (s.blocks b).Fits
  file : ∀ {path f}, s.fileIndex.lookup path = some f → (s.files f).Fits

/-- Two blocks agree in what the metadata file records of them. -/
structure Blockmeta.Same (x y : Blockmeta) : Prop where
  id : y.id = x.id
  size : y.size = x.size
  block_offset : y.block_offset = x.block_offset
  counter : y.counter = x.counter

/-- Two files agree in what the metadata file records of them; `moved` says where
the blocks went. -/
structure Filemeta.Same (moved : BlockRef → BlockRef) (x y : Filemeta) : Prop where
  id : y.id = x.id
  realSize : y.realSize = x.realSize
  logicalSize : y.logicalSize = x.logicalSize
  blockList : y.blockList = x.blockList.map moved

/-- Every entry of one table has its counterpart in the other, and the other has
nothing else. -/
structure TableMatch {K V W : Type} [DecidableEq K] (related : V → W → Prop)
    (left : GHashTable K V) (right : GHashTable K W) : Prop where
  forth : ∀ {key v}, left.lookup key = some v → ∃ w, right.lookup key = some w ∧ related v w
  back : ∀ {key w}, right.lookup key = some w → ∃ v, left.lookup key = some v ∧ related v w

/-- `t` is `s` with its blocks moved by `moved`. -/
structure Store.CopyBy (moved : BlockRef → BlockRef) (s t : Store) : Prop where
  blockIndex : TableMatch (fun b b' => b' = moved b ∧ (s.blocks b).Same (t.blocks b'))
    s.blockIndex t.blockIndex
  fileIndex : TableMatch (fun f f' => (s.files f).Same moved (t.files f')) s.fileIndex t.fileIndex
  freeList : t.freeList = s.freeList
  next_free_offset : t.next_free_offset = s.next_free_offset

/-- `t` is `s` up to the addresses of its objects. -/
def Store.Copy (s t : Store) : Prop := ∃ moved, Store.CopyBy moved s t

section TableMatch

variable {K V W : Type} [DecidableEq K] {related : V → W → Prop}
variable {left : GHashTable K V} {right : GHashTable K W}

theorem TableMatch.lookup_eq (matched : TableMatch related left right) {key : K} {v : V} {w : W}
    (inLeft : left.lookup key = some v) (inRight : right.lookup key = some w) : related v w := by
  obtain ⟨w', found, agree⟩ := matched.forth inLeft
  rw [inRight] at found
  cases found
  exact agree

theorem TableMatch.none_iff (matched : TableMatch related left right) (key : K) :
    right.lookup key = none ↔ left.lookup key = none := by
  constructor
  · intro absent
    by_contra present
    obtain ⟨v, found⟩ := Option.ne_none_iff_exists'.mp present
    obtain ⟨w, image, -⟩ := matched.forth found
    rw [absent] at image
    cases image
  · intro absent
    by_contra present
    obtain ⟨w, found⟩ := Option.ne_none_iff_exists'.mp present
    obtain ⟨v, image, -⟩ := matched.back found
    rw [absent] at image
    cases image

end TableMatch

namespace Store

variable {s t : Store} {moved : BlockRef → BlockRef}

/-- Distinct indexed blocks stay distinct in a copy: nothing becomes shared. -/
theorem CopyBy.moved_inj (copy : CopyBy moved s t) (linked : s.Linked) {hash hash' : BlockId}
    {b b' : BlockRef} (inIndex : s.blockIndex.lookup hash = some b)
    (inIndex' : s.blockIndex.lookup hash' = some b') (same : moved b = moved b') : b = b' := by
  obtain ⟨c, found, rfl, agree⟩ := copy.blockIndex.forth inIndex
  obtain ⟨c', found', rfl, agree'⟩ := copy.blockIndex.forth inIndex'
  have hashes : hash = hash' := by
    rw [← linked.blockId inIndex, ← linked.blockId inIndex', ← agree.id, ← agree'.id, same]
  subst hashes
  exact Option.some.inj (inIndex.symm.trans inIndex')

/-- A copy of a linked store is linked. -/
theorem CopyBy.linked (copy : CopyBy moved s t) (linked : s.Linked) : t.Linked where
  blockId {hash b'} found := by
    obtain ⟨b, inIndex, -, agree⟩ := copy.blockIndex.back found
    rw [agree.id, linked.blockId inIndex]
  fileId {path f'} found := by
    obtain ⟨f, inIndex, agree⟩ := copy.fileIndex.back found
    rw [agree.id, linked.fileId inIndex]
  listed {path f'} found b' member := by
    obtain ⟨f, inIndex, agree⟩ := copy.fileIndex.back found
    rw [agree.blockList] at member
    obtain ⟨b, listed, rfl⟩ := List.mem_map.mp member
    obtain ⟨c, image, rfl, same⟩ := copy.blockIndex.forth (linked.listed inIndex b listed)
    rw [same.id]
    exact image

end Store

/-! ## What an operation leaves alone -/

/-- `u` differs from `t` in the block index and the block heap only. -/
structure OutsideBlocks (t u : Store) : Prop where
  fileIndex : u.fileIndex = t.fileIndex
  files : u.files = t.files
  nextFile : u.nextFile = t.nextFile
  freeList : u.freeList = t.freeList
  backend_fd : u.backend_fd = t.backend_fd
  next_free_offset : u.next_free_offset = t.next_free_offset
  sysdata : u.sysdata = t.sysdata

theorem OutsideBlocks.refl (t : Store) : OutsideBlocks t t := ⟨rfl, rfl, rfl, rfl, rfl, rfl, rfl⟩

theorem OutsideBlocks.trans {t u v : Store} (first : OutsideBlocks t u)
    (second : OutsideBlocks u v) : OutsideBlocks t v :=
  ⟨second.fileIndex.trans first.fileIndex, second.files.trans first.files,
    second.nextFile.trans first.nextFile, second.freeList.trans first.freeList,
    second.backend_fd.trans first.backend_fd,
    second.next_free_offset.trans first.next_free_offset, second.sysdata.trans first.sysdata⟩

/-- `u` differs from `t` in the file index and the file heap only. -/
structure OutsideFiles (t u : Store) : Prop where
  blockIndex : u.blockIndex = t.blockIndex
  blocks : u.blocks = t.blocks
  nextBlock : u.nextBlock = t.nextBlock
  freeList : u.freeList = t.freeList
  backend_fd : u.backend_fd = t.backend_fd
  next_free_offset : u.next_free_offset = t.next_free_offset
  sysdata : u.sysdata = t.sysdata

theorem OutsideFiles.refl (t : Store) : OutsideFiles t t := ⟨rfl, rfl, rfl, rfl, rfl, rfl, rfl⟩

theorem OutsideFiles.trans {t u v : Store} (first : OutsideFiles t u)
    (second : OutsideFiles u v) : OutsideFiles t v :=
  ⟨second.blockIndex.trans first.blockIndex, second.blocks.trans first.blocks,
    second.nextBlock.trans first.nextBlock, second.freeList.trans first.freeList,
    second.backend_fd.trans first.backend_fd,
    second.next_free_offset.trans first.next_free_offset, second.sysdata.trans first.sysdata⟩

end ProjetoTSO.Codededup
