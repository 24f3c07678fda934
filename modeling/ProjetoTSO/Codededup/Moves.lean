import ProjetoTSO.Codededup.Deadlock

/-!
# The acts of the handlers

The acts of the running calls as a relation (`Move`): which call acts, on what, under which
locks, and what its frame and the store are afterwards.  A clause that every move keeps is
kept in every state of every run (`Clause.keeps_of_moves`).
-/

namespace ProjetoTSO.Codededup.Threads

open CInt LockedPrograms FifoRwlock Transition

variable {T : Type} [DecidableEq T]

/-- An act of `t`, which leaves it with a frame and the others with a store. -/
inductive Move (SHA512 : Page → BlockId) (calls : T → Call) (ids : BlockRef → BlockId)
    (clause : Clause T) (held : T → List (Lock × Mode)) (frames : T → Frame) (s : Store) (t : T) :
    Frame → Store → Prop
  | find (turn : Turn clause ids held frames s t .outside)
      (index : (Lock.file_index_lock, Mode.read) ∈ held t) :
      Move SHA512 calls ids clause held frames s t
        (.ofLookup (s.fileIndex.lookup (calls t).path)) s
  | create {path : Path} {buf : List UInt8} {offset : ℤ} (call : calls t = .write path buf offset)
      (turn : Turn clause ids held frames s t .outside)
      (index : (Lock.file_index_lock, Mode.write) ∈ held t)
      (allowed : clause.allowed frames s t (.window (findFile path s).1) (findFile path s).2) :
      Move SHA512 calls ids clause held frames s t (.window (findFile path s).1)
        (findFile path s).2
  | enter {f : FileRef} {mode : Mode} {frame : Frame} (turn : Turn clause ids held frames s t frame)
      (inHand : frame = .found f ∨ frame = .window f) (lock : (Lock.file f, mode) ∈ held t)
      (allowed : clause.allowed frames s t (.entered f (s.files f).logicalSize) s) :
      Move SHA512 calls ids clause held frames s t (.entered f (s.files f).logicalSize) s
  | begin_ {path : Path} {buf : List UInt8} {offset : ℤ} {f : FileRef} {frame : Frame}
      (call : calls t = .write path buf offset) (turn : Turn clause ids held frames s t frame)
      (inHand : frame = .found f ∨ frame = .window f) (lock : (Lock.file f, Mode.write) ∈ held t)
      (append : offset = (s.files f).logicalSize)
      (allowed : clause.allowed frames s t (.writing f .empty .looking) s) :
      Move SHA512 calls ids clause held frames s t (.writing f .empty .looking) s
  | leave {f : FileRef} {mode : Mode} {frame : Frame} (turn : Turn clause ids held frames s t frame)
      (leaves : frame.Leaves f) (lock : (Lock.file f, mode) ∈ held t) :
      Move SHA512 calls ids clause held frames s t .outside s
  | window {path : Path} {size : ℕ} {offset : ℤ} {f : FileRef} {logicalSize : ℤ}
      {strays : List (ℤ × BlockRef)} (call : calls t = .read path size offset)
      (inside : ¬ logicalSize ≤ offset)
      (turn : Turn clause ids held frames s t (.entered f logicalSize))
      (lock : (Lock.file f, Mode.read) ∈ held t)
      (allowed : clause.allowed frames s t (.reading f (readWindow f (startIndex offset)
        (endIndex offset (clampSize logicalSize offset size)) strays s).1.2) s) :
      Move SHA512 calls ids clause held frames s t (.reading f (readWindow f (startIndex offset)
        (endIndex offset (clampSize logicalSize offset size)) strays s).1.2) s
  | count {path : Path} {buf : List UInt8} {offset : ℤ} {f : FileRef} {tables : WriteTables}
      {seen : List BlockId} {hash : BlockId} {rest : List BlockId} {b : BlockRef}
      (call : calls t = .write path buf offset) (hashes : blockHashes SHA512 buf = seen ++ hash :: rest)
      (noted : Noted ids seen tables)
      (turn : Turn clause ids held frames s t (.writing f tables .looking))
      (index : (Lock.block_index_lock, Mode.read) ∈ held t)
      (found : s.blockIndex.lookup hash = some b)
      (allowed : clause.allowed frames s t
        (.writing f (tables.note (raiseCounter b s) b) .looking) (raiseCounter b s)) :
      Move SHA512 calls ids clause held frames s t
        (.writing f (tables.note (raiseCounter b s) b) .looking) (raiseCounter b s)
  | lookup {path : Path} {buf : List UInt8} {offset : ℤ} {f : FileRef} {tables : WriteTables}
      {seen : List BlockId} {hash : BlockId} {rest : List BlockId}
      (call : calls t = .write path buf offset) (hashes : blockHashes SHA512 buf = seen ++ hash :: rest)
      (noted : Noted ids seen tables)
      (turn : Turn clause ids held frames s t (.writing f tables .looking))
      (index : (Lock.block_index_lock, Mode.write) ∈ held t)
      (named : Named ids (lookupBlock (tables, s) hash).2)
      (allowed : clause.allowed frames s t (.writing f (lookupBlock (tables, s) hash).1 .looking)
        (lookupBlock (tables, s) hash).2) :
      Move SHA512 calls ids clause held frames s t
        (.writing f (lookupBlock (tables, s) hash).1 .looking) (lookupBlock (tables, s) hash).2
  | place {path : Path} {buf : List UInt8} {offset : ℤ} {f : FileRef} {tables : WriteTables}
      {blocks_to_lock : List BlockRef} (call : calls t = .write path buf offset)
      (noted : Noted ids (blockHashes SHA512 buf) tables)
      (perm : blocks_to_lock.Perm (tables.lockedBlocks.entries.map fun entry => entry.2))
      (turn : Turn clause ids held frames s t (.writing f tables .looking))
      (locks : ∀ b ∈ blocks_to_lock, (Lock.block b, Mode.write) ∈ held t)
      (index : (Lock.block_index_lock, Mode.read) ∈ held t)
      (freeList : (Lock.freeList_lock, Mode.write) ∈ held t)
      (allowed : clause.allowed frames s t (.writing f tables (.placed 0))
        (assignOffsets blocks_to_lock tables.my_created_blocks s)) :
      Move SHA512 calls ids clause held frames s t (.writing f tables (.placed 0))
        (assignOffsets blocks_to_lock tables.my_created_blocks s)
  | store {path : Path} {buf : List UInt8} {offset : ℤ} {f : FileRef} {tables : WriteTables}
      {i : ℕ} {b : BlockRef} {page : Page} {created : List BlockRef} {out : PwriteOut}
      (call : calls t = .write path buf offset) (noted : Noted ids (blockHashes SHA512 buf) tables)
      (block : tables.newBlocksInfo[i]? = some b) (data : (bufferPages buf)[i]? = some page)
      (left : ∀ c, c ∈ created ↔ c ∈ tables.my_created_blocks ∧ c ∉ tables.newBlocksInfo.take i)
      (turn : Turn clause ids held frames s t (.writing f tables (.placed i)))
      (lock : (Lock.file f, Mode.write) ∈ held t)
      (allowed : clause.allowed frames s t (.writing f tables (.placed (i + 1)))
        (writeBlock f out (b, page) created s).2.2) :
      Move SHA512 calls ids clause held frames s t (.writing f tables (.placed (i + 1)))
        (writeBlock f out (b, page) created s).2.2
  | grow {path : Path} {buf : List UInt8} {offset : ℤ} {f : FileRef} {tables : WriteTables}
      {i : ℕ} {err : ℤ} (call : calls t = .write path buf offset)
      (noted : Noted ids (blockHashes SHA512 buf) tables)
      (outcome : err = 0 ∧ i = tables.newBlocksInfo.length ∨ err < 0)
      (turn : Turn clause ids held frames s t (.writing f tables (.placed i)))
      (lock : (Lock.file f, Mode.write) ∈ held t)
      (allowed : clause.allowed frames s t (.writing f tables (.stored err))
        (growFile f err offset buf.length s)) :
      Move SHA512 calls ids clause held frames s t (.writing f tables (.stored err))
        (growFile f err offset buf.length s)
  | finish {path : Path} {buf : List UInt8} {offset : ℤ} {f : FileRef} {tables : WriteTables}
      (call : calls t = .write path buf offset) (noted : Noted ids (blockHashes SHA512 buf) tables)
      (turn : Turn clause ids held frames s t (.writing f tables (.stored 0)))
      (lock : (Lock.file f, Mode.write) ∈ held t) :
      Move SHA512 calls ids clause held frames s t (.wrote f offset tables.newBlocksInfo) s
  | take {path : Path} (call : calls t = .unlink path)
      (turn : Turn clause ids held frames s t .outside)
      (index : (Lock.file_index_lock, Mode.write) ∈ held t)
      (allowed : clause.allowed frames s t
        (((takeFile path s).1.map Frame.stolen).getD .outside) (takeFile path s).2) :
      Move SHA512 calls ids clause held frames s t
        (((takeFile path s).1.map Frame.stolen).getD .outside) (takeFile path s).2
  | fail {path : Path} {f : FileRef} (call : calls t = .unlink path)
      (turn : Turn clause ids held frames s t (.stolen f))
      (lock : (Lock.file f, Mode.write) ∈ held t)
      (allowed : clause.allowed frames s t (.failed f) s) :
      Move SHA512 calls ids clause held frames s t (.failed f) s
  | restore {path : Path} {f : FileRef} (call : calls t = .unlink path)
      (turn : Turn clause ids held frames s t (.failed f))
      (index : (Lock.file_index_lock, Mode.write) ∈ held t)
      (allowed : clause.allowed frames s t (.restored f) (reinsertFile path f s)) :
      Move SHA512 calls ids clause held frames s t (.restored f) (reinsertFile path f s)
  | remove {path : Path} {f : FileRef} (call : calls t = .unlink path)
      (turn : Turn clause ids held frames s t (.stolen f))
      (lock : (Lock.file f, Mode.write) ∈ held t)
      (allowed : clause.allowed frames s t (.removing f) s) :
      Move SHA512 calls ids clause held frames s t (.removing f) s
  | counts {path : Path} {f : FileRef} {order : IterOrder (BlockRef × ℤ)}
      {strays : List (BlockRef × ℤ)} (call : calls t = .unlink path)
      (turn : Turn clause ids held frames s t (.removing f))
      (lock : (Lock.file f, Mode.write) ∈ held t)
      (index : (Lock.block_index_lock, Mode.write) ∈ held t)
      (allowed : clause.allowed frames s t
        (.releasing f none (countReferences f order strays s).1) s) :
      Move SHA512 calls ids clause held frames s t
        (.releasing f none (countReferences f order strays s).1) s
  | lower {path : Path} {f : FileRef} {b : BlockRef} {ocorrencias : ℤ} {rest : List (BlockRef × ℤ)}
      (call : calls t = .unlink path)
      (turn : Turn clause ids held frames s t (.releasing f none ((b, ocorrencias) :: rest)))
      (lock : (Lock.file f, Mode.write) ∈ held t)
      (index : (Lock.block_index_lock, Mode.write) ∈ held t)
      (block : (Lock.block b, Mode.write) ∈ held t)
      (allowed : clause.allowed frames s t
        (.releasing f (if ((lowerCounter b ocorrencias s).blocks b).counter = 0 then some b
          else none) rest) (lowerCounter b ocorrencias s)) :
      Move SHA512 calls ids clause held frames s t
        (.releasing f (if ((lowerCounter b ocorrencias s).blocks b).counter = 0 then some b
          else none) rest) (lowerCounter b ocorrencias s)
  | push {path : Path} {f : FileRef} {b : BlockRef} {rest : List (BlockRef × ℤ)}
      (call : calls t = .unlink path)
      (turn : Turn clause ids held frames s t (.releasing f (some b) rest))
      (index : (Lock.block_index_lock, Mode.write) ∈ held t)
      (freeList : (Lock.freeList_lock, Mode.write) ∈ held t)
      (allowed : clause.allowed frames s t (.releasing f none rest) (pushFree b s)) :
      Move SHA512 calls ids clause held frames s t (.releasing f none rest) (pushFree b s)
  | free {path : Path} {f : FileRef} {b : BlockRef} {rest : List (BlockRef × ℤ)}
      (call : calls t = .unlink path)
      (turn : Turn clause ids held frames s t (.releasing f none rest))
      (index : (Lock.block_index_lock, Mode.write) ∈ held t) :
      Move SHA512 calls ids clause held frames s t (.releasing f none rest) (freeBlockMeta b s)
  | released {path : Path} {f : FileRef} (call : calls t = .unlink path)
      (turn : Turn clause ids held frames s t (.releasing f none []))
      (lock : (Lock.file f, Mode.write) ∈ held t) :
      Move SHA512 calls ids clause held frames s t (.released f) s
  | close {path : Path} {f : FileRef} (call : calls t = .unlink path)
      (turn : Turn clause ids held frames s t (.released f))
      (allowed : clause.allowed frames s t (.removed f) (freeFilemeta f s)) :
      Move SHA512 calls ids clause held frames s t (.removed f) (freeFilemeta f s)

variable {SHA512 : Page → BlockId} {calls : T → Call} {ids : BlockRef → BlockId}
variable {clause : Clause T} {held : T → List (Lock × Mode)} {frames : T → Frame} {s s' : Store}
variable {t : T} {frame' : Frame}

/-- A clause is preserved if every move keeps it. -/
theorem Clause.Preserved.of_moves
    (kept : ∀ {held frames s t frame' s'}, clause.keeps frames s →
      Move SHA512 calls ids clause held frames s t frame' s' →
      clause.keeps (Function.update frames t frame') s') :
    clause.Preserved SHA512 calls ids where
  find turn index := kept turn.keeps (.find turn index)
  create call turn index allowed := kept turn.keeps (.create call turn index allowed)
  enter turn inHand lock allowed := kept turn.keeps (.enter turn inHand lock allowed)
  begin_ call turn inHand lock append allowed :=
    kept turn.keeps (.begin_ call turn inHand lock append allowed)
  leave turn leaves lock := kept turn.keeps (.leave turn leaves lock)
  window call inside turn lock allowed := kept turn.keeps (.window call inside turn lock allowed)
  count call hashes noted turn index found allowed :=
    kept turn.keeps (.count call hashes noted turn index found allowed)
  lookup call hashes noted turn index named allowed :=
    kept turn.keeps (.lookup call hashes noted turn index named allowed)
  place call noted perm turn locks index freeList allowed :=
    kept turn.keeps (.place call noted perm turn locks index freeList allowed)
  store call noted block data left turn lock allowed :=
    kept turn.keeps (.store call noted block data left turn lock allowed)
  grow call noted outcome turn lock allowed :=
    kept turn.keeps (.grow call noted outcome turn lock allowed)
  finish call noted turn lock := kept turn.keeps (.finish call noted turn lock)
  take call turn index allowed := kept turn.keeps (.take call turn index allowed)
  fail call turn lock allowed := kept turn.keeps (.fail call turn lock allowed)
  restore call turn index allowed := kept turn.keeps (.restore call turn index allowed)
  remove call turn lock allowed := kept turn.keeps (.remove call turn lock allowed)
  counts call turn lock index allowed := kept turn.keeps (.counts call turn lock index allowed)
  lower call turn lock index block allowed :=
    kept turn.keeps (.lower call turn lock index block allowed)
  push call turn index freeList allowed := kept turn.keeps (.push call turn index freeList allowed)
  free {_ _ _ _ _ _ b _} call turn index := by
    have after := kept turn.keeps (.free (b := b) call turn index)
    rwa [← turn.here, Function.update_eq_self] at after
  released call turn lock := kept turn.keeps (.released call turn lock)
  close call turn allowed := kept turn.keeps (.close call turn allowed)

/-- **A clause that every move keeps** holds in every state of every run, and so do the
rules of the pointers and of the locks. -/
theorem Clause.keeps_of_moves {m : State T} {trace : List (LockedPrograms.Event T Lock)}
    (kept : ∀ {ids held frames s t frame' s'}, clause.keeps frames s →
      Move SHA512 calls ids clause held frames s t frame' s' →
      clause.keeps (Function.update frames t frame') s')
    (allocated : s.Allocated) (keeps : clause.keeps (fun _ => .outside) s)
    (run : Runs clause.Step (start SHA512 s calls) trace m) :
    clause.keeps m.frame m.shared ∧ ∃ ids, Pointers ids m.frame m.shared ∧
      Abides Lock.fifo (clause.discipline calls ids) (holdings trace) m := by
  obtain ⟨ids, -, from_, allowed⟩ :=
    Clause.abides (fun ids => .of_moves kept) allocated keeps run
  have abides := from_.run allowed
  exact ⟨abides.keeps.2, ids, abides.keeps.1, abides⟩

end ProjetoTSO.Codededup.Threads
