import ProjetoTSO.Codededup.Passthrough
import ProjetoTSO.Lib.ByteStream
import ProjetoTSO.Lib.Chunks
import ProjetoTSO.Lib.PathTree

/-!
# The backend directory tree

The handlers work on the tree of the system they run on, which also holds the
placeholders of the written files and the store's own files.  `Backend` is that tree:
a path leads to an inode, and several paths may lead to one.  `Syscall.Runs` is what the
operating system does for a handler.

## Design notes

* A call may fail at any time (permissions, quotas, I/O) and then changes nothing; it
  succeeds only when it is `Allowed`, with the effect `effect`.
* The kernel has walked a path before a handler gets it, so its ancestors are
  directories and not symbolic links.  Calls that follow a symbolic link in the last
  component do so through the parameter `follow`.
* A descriptor stands for the inode it was opened on.
* A transfer to or from a file that succeeds is complete.
-/

namespace ProjetoTSO.Codededup

open ByteStream Chunks PathTree

/-! ## Inodes and entries -/

inductive FileKind where
  | regular
  | directory
  | symlink
  /-- A named pipe, a socket or a device. -/
  | special
deriving DecidableEq

/-- `data` is what the file consists of; for a symbolic link, its target. -/
structure Inode where
  kind : FileKind
  mode : ℕ
  uid : ℕ
  gid : ℕ
  data : Bytes
  st_blocks : ℤ
deriving DecidableEq

/-- Every inode that an entry leads to has been allocated. -/
structure Backend where
  entries : Bytes → Option ℕ
  inodes : ℕ → Inode
  nextInode : ℕ
  allocated : ∀ path i, entries path = some i → i < nextInode

/-- The separator of path components, `/`. -/
def slash : UInt8 := 47

/-- The directory a path is in. -/
def parent (path : Bytes) : Bytes :=
  match ((path.reverse.dropWhile (· ≠ slash)).drop 1).reverse with
  | [] => [slash]
  | dir => dir

namespace Backend

variable (b : Backend)

/-- What `lstat` on a path finds. -/
def lstat (path : Path) : LstatOut :=
  match b.entries path.bytes with
  | some i => .ok (b.inodes i).data.length (b.inodes i).st_blocks
  | none => .fail Errno.ENOENT

def IsDirectory (path : Bytes) : Prop :=
  ∃ i, b.entries path = some i ∧ (b.inodes i).kind = .directory

/-- Nothing lies below a path. -/
def Childless (path : Bytes) : Prop :=
  ∀ below, Under slash path below → below ≠ path → b.entries below = none

/-- An entry can be made at a path. -/
def Vacant (path : Bytes) : Prop := b.entries path = none ∧ b.IsDirectory (parent path)

/-! ## What system calls do to the tree -/

/-- A new file appears at a path. -/
def add (path : Bytes) (inode : Inode) : Backend where
  entries := Function.update b.entries path (some b.nextInode)
  inodes := Function.update b.inodes b.nextInode inode
  nextInode := b.nextInode + 1
  allocated p i found := by
    by_cases here : p = path
    · rw [here, Function.update_self] at found
      cases found
      exact Nat.lt_succ_self _
    · rw [Function.update_of_ne here] at found
      exact (b.allocated p i found).trans (Nat.lt_succ_self _)

/-- An entry goes away. -/
def remove (path : Bytes) : Backend where
  entries := Function.update b.entries path none
  inodes := b.inodes
  nextInode := b.nextInode
  allocated p i found := by
    by_cases here : p = path
    · rw [here, Function.update_self] at found
      cases found
    · rw [Function.update_of_ne here] at found
      exact b.allocated p i found

/-- Everything under a path moves to another. -/
def relocate (from_ to_ : Bytes) : Backend where
  entries := PathTree.relocate slash from_ to_ b.entries
  inodes := b.inodes
  nextInode := b.nextInode
  allocated p i found := by
    unfold PathTree.relocate at found
    split at found
    · exact b.allocated _ i found
    · split at found
      · cases found
      · exact b.allocated p i found

/-- A second entry for a file. -/
def hardlink (from_ to_ : Bytes) : Backend where
  entries := Function.update b.entries to_ (b.entries from_)
  inodes := b.inodes
  nextInode := b.nextInode
  allocated p i found := by
    by_cases here : p = to_
    · rw [here, Function.update_self] at found
      exact b.allocated from_ i found
    · rw [Function.update_of_ne here] at found
      exact b.allocated p i found

/-- A file changes. -/
def change (i : ℕ) (change : Inode → Inode) : Backend :=
  { b with inodes := Function.update b.inodes i (change (b.inodes i)) }

/-- The file at a path changes. -/
def changeAt (path : Bytes) (change : Inode → Inode) : Backend :=
  match b.entries path with
  | some i => b.change i change
  | none => b

section Projections

variable {b} {path p from_ to_ : Bytes} {inode : Inode} {i j : ℕ} {change : Inode → Inode}

@[simp] theorem add_entries_self : (b.add path inode).entries path = some b.nextInode :=
  Function.update_self _ _ _

theorem add_entries_ne (other : p ≠ path) : (b.add path inode).entries p = b.entries p :=
  Function.update_of_ne other _ _

@[simp] theorem add_inodes_self : (b.add path inode).inodes b.nextInode = inode :=
  Function.update_self _ _ _

theorem add_inodes_of_lt (old : i < b.nextInode) : (b.add path inode).inodes i = b.inodes i :=
  Function.update_of_ne old.ne _ _

@[simp] theorem remove_entries_self : (b.remove path).entries path = none :=
  Function.update_self _ _ _

theorem remove_entries_ne (other : p ≠ path) : (b.remove path).entries p = b.entries p :=
  Function.update_of_ne other _ _

@[simp] theorem remove_inodes : (b.remove path).inodes = b.inodes := rfl

@[simp] theorem relocate_entries :
    (b.relocate from_ to_).entries = PathTree.relocate slash from_ to_ b.entries := rfl

@[simp] theorem relocate_inodes : (b.relocate from_ to_).inodes = b.inodes := rfl

@[simp] theorem hardlink_entries_self : (b.hardlink from_ to_).entries to_ = b.entries from_ :=
  Function.update_self _ _ _

theorem hardlink_entries_ne (other : p ≠ to_) :
    (b.hardlink from_ to_).entries p = b.entries p :=
  Function.update_of_ne other _ _

@[simp] theorem hardlink_inodes : (b.hardlink from_ to_).inodes = b.inodes := rfl

@[simp] theorem change_entries : (b.change i change).entries = b.entries := rfl

@[simp] theorem change_inodes_self : (b.change i change).inodes i = change (b.inodes i) :=
  Function.update_self _ _ _

theorem change_inodes_ne (other : j ≠ i) : (b.change i change).inodes j = b.inodes j :=
  Function.update_of_ne other _ _

end Projections

end Backend

/-! ## System calls -/

/-- The flags of `open` that matter here. -/
structure OpenFlags where
  creat : Bool
  excl : Bool
  trunc : Bool
deriving DecidableEq

/-- The file type in a `mode_t`. -/
inductive FileFormat where
  | S_IFREG
  | S_IFDIR
  | S_IFLNK
  | S_IFIFO
  | other
deriving DecidableEq

inductive Syscall where
  | lstat (path : Path)
  | access (path : Path) (mask : ℕ)
  | readlink (path : Path) (size : ℕ)
  | readdir (path : Path)
  | statvfs (path : Path)
  | open_ (path : Path) (flags : OpenFlags) (mode : ℕ)
  | close (fd : ℕ)
  | fsync (fd : ℕ)
  | fdatasync (fd : ℕ)
  | lseek (fd : ℕ) (off : ℤ) (whence : ℕ)
  | pread (fd : ℕ) (size : ℕ) (offset : ℤ)
  | pwrite (fd : ℕ) (buf : Bytes) (offset : ℤ)
  | mkdir (path : Path) (mode : ℕ)
  | mkfifo (path : Path) (mode : ℕ)
  | mknod (path : Path) (format : FileFormat) (mode : ℕ)
  | symlink (target path : Path)
  | link (from_ to_ : Path)
  | unlink (path : Path)
  | rmdir (path : Path)
  | rename (from_ to_ : Path)
  | chmod (path : Path) (mode : ℕ)
  | lchown (path : Path) (uid gid : ℕ)
  | truncate (path : Path) (size : ℤ)
  | ftruncate (fd : ℕ) (size : ℤ)

/-- What a call returned. -/
inductive Outcome where
  | fail (errno : Errno)
  | stat (st_size st_blocks : ℤ)
  | data (bytes : Bytes)
  /-- A number that is not negative. -/
  | ok (res : ℕ)

/-- A regular file with nothing in it. -/
def Inode.empty (mode : ℕ) : Inode := ⟨.regular, mode, 0, 0, [], 0⟩

/-- `ftruncate`: cut, or filled up with zeros. -/
def Inode.resize (size : ℕ) (inode : Inode) : Inode :=
  { inode with data := inode.data.take size ++ List.replicate (size - inode.data.length) 0 }

/-- `pwrite`: the bytes from `offset` on become those of the buffer. -/
def Inode.splice (offset : ℕ) (buf : Bytes) (inode : Inode) : Inode :=
  { inode with data := inode.data.take offset ++ List.replicate (offset - inode.data.length) 0 ++
      buf ++ inode.data.drop (offset + buf.length) }

namespace Syscall

variable (follow : Backend → Bytes → Bytes) (b : Backend)

/-- The path `open` works on: with `O_CREAT` and `O_EXCL` a symbolic link is not followed. -/
def opens (path : Path) (flags : OpenFlags) : Bytes :=
  if flags.creat ∧ flags.excl then path.bytes else follow b path.bytes

/-- When a call can succeed. -/
def Allowed : Syscall → Prop
  | .lstat path | .lchown path _ _ => (b.entries path.bytes).isSome
  | .access path _ | .readdir path | .chmod path _ => (b.entries (follow b path.bytes)).isSome
  | .readlink path _ => ∃ i, b.entries path.bytes = some i ∧ (b.inodes i).kind = .symlink
  | .open_ path flags _ =>
      match b.entries (opens follow b path flags) with
      | some i => ¬ (flags.creat ∧ flags.excl) ∧ (b.inodes i).kind ≠ .directory
      | none => flags.creat ∧ b.IsDirectory (parent (opens follow b path flags))
  | .mkdir path _ | .mkfifo path _ | .symlink _ path => b.Vacant path.bytes
  | .mknod path format _ => format ≠ .S_IFLNK ∧ b.Vacant path.bytes
  | .link from_ to_ => (∃ i, b.entries from_.bytes = some i ∧ (b.inodes i).kind ≠ .directory) ∧
      b.Vacant to_.bytes
  | .unlink path => ∃ i, b.entries path.bytes = some i ∧ (b.inodes i).kind ≠ .directory
  | .rmdir path => path.bytes ≠ [slash] ∧ b.IsDirectory path.bytes ∧ b.Childless path.bytes
  | .rename from_ to_ => from_.bytes ≠ [slash] ∧ to_.bytes ≠ [slash] ∧
      (b.entries from_.bytes).isSome ∧
      (b.entries from_.bytes = b.entries to_.bytes ∨
        ¬ Under slash from_.bytes to_.bytes ∧ ¬ Under slash to_.bytes from_.bytes ∧
        b.IsDirectory (parent to_.bytes) ∧
        ((b.entries to_.bytes).isSome → (b.IsDirectory from_.bytes ↔ b.IsDirectory to_.bytes)) ∧
        b.Childless to_.bytes)
  | .truncate path size => 0 ≤ size ∧
      ∃ i, b.entries (follow b path.bytes) = some i ∧ (b.inodes i).kind = .regular
  | .ftruncate fd size => 0 ≤ size ∧ (b.inodes fd).kind = .regular
  | .pread fd _ offset | .pwrite fd _ offset => 0 ≤ offset ∧ (b.inodes fd).kind = .regular
  | _ => True

/-- What a call that succeeds does.  A rename of one entry of a file to another entry of
the same file does nothing. -/
def effect : Syscall → Backend
  | .open_ path flags mode =>
      match b.entries (opens follow b path flags) with
      | some i =>
          if flags.trunc ∧ (b.inodes i).kind = .regular then b.change i (Inode.resize 0) else b
      | none => b.add (opens follow b path flags) (.empty mode)
  | .mkdir path mode => b.add path.bytes ⟨.directory, mode, 0, 0, [], 0⟩
  | .mkfifo path mode | .mknod path _ mode => b.add path.bytes ⟨.special, mode, 0, 0, [], 0⟩
  | .symlink target path => b.add path.bytes ⟨.symlink, 0, 0, 0, target.bytes, 0⟩
  | .link from_ to_ => b.hardlink from_.bytes to_.bytes
  | .unlink path | .rmdir path => b.remove path.bytes
  | .rename from_ to_ =>
      if b.entries from_.bytes = b.entries to_.bytes then b
      else b.relocate from_.bytes to_.bytes
  | .chmod path mode => b.changeAt (follow b path.bytes) fun inode => { inode with mode := mode }
  | .lchown path uid gid =>
      b.changeAt path.bytes fun inode => { inode with uid := uid, gid := gid }
  | .truncate path size => b.changeAt (follow b path.bytes) (Inode.resize size.toNat)
  | .ftruncate fd size => b.change fd (Inode.resize size.toNat)
  | .pwrite fd buf offset => b.change fd (Inode.splice offset.toNat buf)
  | _ => b

/-- What a call that succeeds returns: `open` a descriptor, and the calls that only look
at the tree any number. -/
def Returns : Syscall → Outcome → Prop
  | .lstat path, out => ∃ i, b.entries path.bytes = some i ∧
      out = .stat (b.inodes i).data.length (b.inodes i).st_blocks
  | .open_ path flags _, out =>
      out = .ok ((b.entries (opens follow b path flags)).getD b.nextInode)
  | .readlink _ _, out | .lseek _ _ _, out => ∃ res, out = .ok res
  | .pread fd size offset, out => out = .data (slice (b.inodes fd).data offset.toNat size)
  | .pwrite _ buf _, out => out = .ok buf.length
  | _, out => out = .ok 0

section Open

variable {follow b} {path : Path} {flags : OpenFlags} {mode i : ℕ}

theorem effect_open_of_some (found : b.entries (opens follow b path flags) = some i) :
    (open_ path flags mode).effect follow b =
      if flags.trunc ∧ (b.inodes i).kind = .regular then b.change i (Inode.resize 0) else b := by
  show (match b.entries (opens follow b path flags) with | some i => _ | none => _) = _
  rw [found]

theorem effect_open_of_none (absent : b.entries (opens follow b path flags) = none) :
    (open_ path flags mode).effect follow b = b.add (opens follow b path flags) (.empty mode) := by
  show (match b.entries (opens follow b path flags) with | some i => _ | none => _) = _
  rw [absent]

theorem creat_of_allowed (absent : b.entries (opens follow b path flags) = none)
    (allowed : (open_ path flags mode).Allowed follow b) : flags.creat := by
  replace allowed : (match b.entries (opens follow b path flags) with
    | some i => ¬ (flags.creat ∧ flags.excl) ∧ (b.inodes i).kind ≠ .directory
    | none => flags.creat ∧ b.IsDirectory (parent (opens follow b path flags))) := allowed
  rw [absent] at allowed
  exact allowed.1

end Open

/-- What the operating system does. -/
inductive Runs : Syscall → Outcome → Backend → Prop
  | fail (call : Syscall) (errno : Errno) : Runs call (.fail errno) b
  | done {call : Syscall} {out : Outcome} (allowed : call.Allowed follow b)
      (returns : call.Returns follow b out) : Runs call out (call.effect follow b)

end Syscall

/-! ## Programs -/

/-- A handler: it makes system calls, one after the other, and returns. -/
inductive Prog (α : Type) where
  | ret (value : α)
  | sys (call : Syscall) (next : Outcome → Prog α)

def Prog.map {α β : Type} (f : α → β) : Prog α → Prog β
  | .ret value => .ret (f value)
  | .sys call next => .sys call fun out => (next out).map f

/-- A run of a handler in which no system call fails. -/
inductive Prog.Succeeds {α : Type} (follow : Backend → Bytes → Bytes) :
    Prog α → Backend → α → Backend → Prop
  | ret {value : α} {b : Backend} : Succeeds follow (.ret value) b value b
  | sys {call : Syscall} {next : Outcome → Prog α} {out : Outcome} {value : α} {b b' : Backend}
      (allowed : call.Allowed follow b) (returns : call.Returns follow b out)
      (rest : Succeeds follow (next out) (call.effect follow b) value b') :
      Succeeds follow (.sys call next) b value b'

/-- A run of a handler. -/
inductive Prog.Runs {α : Type} (follow : Backend → Bytes → Bytes) :
    Prog α → Backend → α → Backend → Prop
  | ret {value : α} {b : Backend} : Runs follow (.ret value) b value b
  | sys {call : Syscall} {next : Outcome → Prog α} {out : Outcome} {value : α}
      {b b' b'' : Backend} (made : call.Runs follow b out b')
      (rest : Runs follow (next out) b' value b'') : Runs follow (.sys call next) b value b''

end ProjetoTSO.Codededup
