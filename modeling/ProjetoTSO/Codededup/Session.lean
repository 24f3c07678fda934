import ProjetoTSO.Codededup.Persistance
import ProjetoTSO.Codededup.References
import ProjetoTSO.Lib.Transition

/-!
# Sessions

A session is a sequence of calls, one at a time.  An event is a call with the
reply it got; `exec` runs a call, and `Step admitted` is the transition relation
of a file system whose environment and callers keep to `admitted`.

`content` is what the file system is for, read off the events alone: a file holds
what was written to it since it was last removed.

## Design notes

* A step leads to a store that `Fits`: its numbers are values of their C types.
  GLib ends the process before an array or a table outgrows `guint`.
* A remount is an unmount followed by a mount over the metadata file it left.
-/

namespace ProjetoTSO.Codededup

open CInt ByteStream Transition

inductive Call
  | write (path : Path) (buf : Bytes) (offset : ℤ) (env : WriteEnv)
  | read (path : Path) (size : ℕ) (offset : ℤ) (env : ReadEnv)
  | getattr (path : Path) (lstat : LstatOut)
  | unlink (path : Path) (unlink : UnlinkOut) (order : IterOrder (BlockRef × ℤ))
  | remount (blockOrder : IterOrder BlockRef) (fileOrder : IterOrder FileRef) (room : ℕ)
      (out : OpenOut)

inductive Reply
  | code (ret : ℤ)
  | data (ret : ℤ) (buf : Bytes)
  | stat (stbuf : Stat)
  /-- Whether all of the metadata file was written. -/
  | saved (complete : Bool)

abbrev Event := Call × Reply

section Exec

variable (SHA512 : Page → BlockId)

def exec : Call → Store → Option (Reply × Store)
  | .write path buf offset env, s =>
      (xmp_write SHA512 path buf offset env s).map fun out => (.code out.1, out.2)
  | .read path size offset env, s =>
      (xmp_read path size offset env s).map fun out => (.data out.1 out.2, s)
  | .getattr path lstat, s => some (.stat (xmp_getattr path lstat s), s)
  | .unlink path unlink order, s =>
      (xmp_unlink path unlink order s).map fun out => (.code out.1, out.2)
  | .remount blockOrder fileOrder room out, s =>
      let (complete, metadata) := xmp_destroy blockOrder fileOrder room s
      some (.saved complete, xmp_init out (some metadata) s.sysdata)

/-- One call, with a caller and an environment that keep to `admitted`. -/
structure Step (admitted : Store → Call → Prop) (s : Store) (event : Event) (t : Store) :
    Prop where
  runs : exec SHA512 event.1 s = some (event.2, t)
  fits : t.Fits
  admitted : admitted s event.1

end Exec

/-! ## What was written -/

/-- What an event does to the contents of a path. -/
def written (path : Path) (bytes : Bytes) : Event → Bytes
  | (.write p buf _ _, .code ret) => if p = path ∧ 0 ≤ ret then bytes ++ buf else bytes
  | (.unlink p _ _, .code ret) => if p = path ∧ ret = 0 then [] else bytes
  | _ => bytes

/-- The concatenation of the buffers successfully written to a path since it was
last successfully removed. -/
def content (history : List Event) (path : Path) : Bytes := history.foldl (written path) []

@[simp] theorem content_nil (path : Path) : content [] path = [] := rfl

@[simp] theorem content_snoc (history : List Event) (event : Event) (path : Path) :
    content (history ++ [event]) path = written path (content history path) event := by
  simp [content]

namespace Store

/-! ## What a store holds -/

/-- The bytes the file at a path consists of, read from the backing file. -/
def contents (s : Store) (path : Path) : Bytes :=
  (s.listAt path).flatMap fun b => (s.pageOf b).toList

/-- The `logicalSize` of the file at a path; a path without an entry is empty. -/
def sizeAt (s : Store) (path : Path) : ℤ :=
  match s.fileIndex.lookup path with
  | some f => (s.files f).logicalSize
  | none => 0

/-- The counter of the block indexed under a hash. -/
def counterOf (s : Store) (hash : BlockId) : ℤ :=
  match s.blockIndex.lookup hash with
  | some b => (s.blocks b).counter
  | none => 0

/-- A write of these blocks takes no counter to `2 ^ 31`. -/
def HasRoom (s : Store) (hashes : List BlockId) : Prop :=
  ∀ hash ∈ hashes, s.counterOf hash + hashes.count hash < 2 ^ 31

theorem counterOf_of_lookup {s : Store} {hash : BlockId} {b : BlockRef}
    (found : s.blockIndex.lookup hash = some b) : s.counterOf hash = (s.blocks b).counter := by
  simp [counterOf, found]

theorem counterOf_of_none {s : Store} {hash : BlockId}
    (absent : s.blockIndex.lookup hash = none) : s.counterOf hash = 0 := by
  simp [counterOf, absent]

end Store

end ProjetoTSO.Codededup
