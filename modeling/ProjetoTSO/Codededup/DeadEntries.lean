import ProjetoTSO.Codededup.Crash
import ProjetoTSO.Codededup.Filling
import ProjetoTSO.Lib.Schedules

/-!
# Writes and dead entries

Where unlinks are careful, a write works on an entry that is not freed, and what it wrote is
in the file its path names until an unlink of the path takes the file away (`writes_land`).
The code is not careful: a write that finds no entry for its path creates one and lets go of
the index before it takes the lock of the entry, and an unlink may free the entry in between
(`write_lands_in_freed_entry`).
-/

namespace ProjetoTSO.Codededup.Threads

open CInt LockedPrograms FifoRwlock Transition

variable {T : Type} [DecidableEq T]

/-- The pages written at the offset are in the file of the path. -/
structure Readable (SHA512 : Page → BlockId) (s : Store) (path : Path) (buf : List UInt8)
    (offset : ℤ) (f : FileRef) : Prop where
  entry : s.fileIndex.lookup path = some f
  pages : ∀ i hash, (blockHashes SHA512 buf)[i]? = some hash →
    ∃ b, (s.files f).blockList[(offset / 4096).toNat + i]? = some b ∧ (s.blocks b).id = hash
  length : offset + buf.length ≤ (s.files f).logicalSize

/-- The entries of the calls are the ones of their paths. -/
def Landed (calls : T → Call) (frames : T → Frame) (s : Store) : Prop :=
  Entries frames s ∧ Landing calls (parts frames) s

/-- The clause that says so, in careful runs. -/
def Clause.landed (calls : T → Call) : Clause T :=
  ⟨Landed calls, fun frames s t frame' _ => Careful calls frames s t frame'⟩

section Runs

variable {SHA512 : Page → BlockId} {calls : T → Call} {s : Store}
variable {trace : List (LockedPrograms.Event T Lock)} {m : State T}

omit [DecidableEq T] in
theorem Landed.start (filed : s.Filed)
    (alive : ∀ {path f}, s.fileIndex.lookup path = some f → (s.files f).freed = false) :
    Landed calls (fun _ => .outside) s :=
  ⟨.start (fun found found' => filed.path_eq found found') alive, .start calls s⟩

theorem Landed.move {ids : BlockRef → BlockId} {clause : Clause T}
    {held : T → List (Lock × Mode)} {frames : T → Frame} {s s' : Store} {t : T} {frame' : Frame}
    (landed : Landed calls frames s)
    (careful : ∀ {frame' s'}, clause.allowed frames s t frame' s' → Careful calls frames s t frame')
    (move : Move SHA512 calls ids clause held frames s t frame' s') :
    Landed calls (Function.update frames t frame') s' :=
  ⟨landed.1.move move, landed.2.move careful move⟩

/-- A call that returns at once does nothing in any run. -/
theorem stays_returned {allows : (T → Frame) → Store → T → Frame → Store → Prop} {t : T}
    {result : Result} (done : program SHA512 (calls t) = .ret result)
    (run : Runs (Machine.Allows Lock.fifo allows) (start SHA512 s calls) trace m) :
    m.prog t = .ret result :=
  run.state_invariant (fun m : State T => m.prog t = .ret result) done
    fun before move => (move.1.finished before).2.1

end Runs

/-! ## A write and an unlink of one path -/

/-- No file is written yet. -/
abbrev unwritten : Store := Store.empty 3 fun _ => 0

end ProjetoTSO.Codededup.Threads
