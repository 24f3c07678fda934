import ProjetoTSO.Codededup.Backend
import ProjetoTSO.Codededup.Session

/-!
# The handlers of `xmp_oper` on the backend tree

Every handler that names a file, as the system calls it makes.  Most of them hand their
arguments to one call (`passthrough`); the store takes part in `xmp_getattr`,
`xmp_unlink`, `xmp_read` and `xmp_write`.

A request is what libfuse hands to a handler, and `Mount.Step` a request being served: by
`xmp_oper`, on a store, a backend tree and the descriptors that are open.
-/

namespace ProjetoTSO.Codededup

open ByteStream

def EACCES : ℤ := 13

/-! ## What handlers do with an outcome -/

namespace Outcome

/-- `if (res == -1) return -errno; return 0;` -/
def status : Outcome → ℤ
  | .fail errno => -(errno : ℤ)
  | _ => 0

def toLstat : Outcome → LstatOut
  | .fail errno => .fail errno
  | .stat st_size st_blocks => .ok st_size st_blocks
  | _ => .ok 0 0

def toUnlink : Outcome → UnlinkOut
  | .fail errno => if errno = Errno.ENOENT then .enoent else .fail errno
  | _ => .ok

end Outcome

namespace Handlers

def passthrough (call : Syscall) : Prog ℤ := .sys call fun out => .ret out.status

/-! ## The handlers -/

def xmp_getattr (path : Path) (s : Store) : Prog Stat :=
  if reserved path then .ret ⟨-ENOENT, 0, 0⟩
  else .sys (.lstat path) fun out => .ret (Codededup.xmp_getattr path out.toLstat s)

def xmp_access (path : Path) (mask : ℕ) : Prog ℤ := passthrough (.access path mask)

def xmp_readlink (path : Path) (size : ℕ) : Prog ℤ := passthrough (.readlink path (size - 1))

def xmp_readdir (path : Path) : Prog ℤ := passthrough (.readdir path)

/-- `mknod_wrapper(AT_FDCWD, path, NULL, mode, rdev)`. -/
def mknod_wrapper (path : Path) (format : FileFormat) (mode : ℕ) : Prog ℤ :=
  match format with
  | .S_IFREG =>
      .sys (.open_ path ⟨true, true, false⟩ mode) fun
        | .ok res => passthrough (.close res)
        | out => .ret out.status
  | .S_IFDIR => passthrough (.mkdir path mode)
  | .S_IFIFO => passthrough (.mkfifo path mode)
  | format => passthrough (.mknod path format mode)

def xmp_mknod (path : Path) (format : FileFormat) (mode : ℕ) : Prog ℤ :=
  mknod_wrapper path format mode

def xmp_unlink (path : Path) (order : IterOrder (BlockRef × ℤ)) (s : Store) :
    Prog (Option (ℤ × Store)) :=
  if reserved path then .ret (some (-EPERM, s))
  else
    match s.fileIndex.lookup path with
    | none => .ret (some (-ENOENT, s))
    | some _ =>
        .sys (.unlink path) fun out => .ret (Codededup.xmp_unlink path out.toUnlink order s)

def xmp_symlink (from_ to_ : Path) : Prog ℤ := passthrough (.symlink from_ to_)

def xmp_rename (from_ to_ : Path) (flags : ℕ) : Prog ℤ :=
  if reserved from_ ∨ reserved to_ then .ret (-EPERM)
  else if flags ≠ 0 then .ret (-EINVAL)
  else passthrough (.rename from_ to_)

def xmp_link (from_ to_ : Path) : Prog ℤ := passthrough (.link from_ to_)

def xmp_chmod (path : Path) (mode : ℕ) : Prog ℤ := passthrough (.chmod path mode)

def xmp_chown (path : Path) (uid gid : ℕ) : Prog ℤ := passthrough (.lchown path uid gid)

def xmp_truncate (path : Path) (size : ℤ) : Option ℕ → Prog ℤ
  | some fh => passthrough (.ftruncate fh size)
  | none => passthrough (.truncate path size)

/-- The value returned, and `fi->fh`. -/
def xmp_create (path : Path) (flags : OpenFlags) (mode : ℕ) : Prog (ℤ × Option ℕ) :=
  if reserved path then .ret (-EACCES, none)
  else .sys (.open_ path flags mode) fun
    | .ok res => .ret (0, some res)
    | out => .ret (out.status, none)

def xmp_mkdir (path : Path) (mode : ℕ) : Prog ℤ := passthrough (.mkdir path mode)

def xmp_rmdir (path : Path) : Prog ℤ := passthrough (.rmdir path)

def xmp_open (path : Path) (flags : OpenFlags) : Prog (ℤ × Option ℕ) :=
  if reserved path then .ret (-EACCES, none)
  else .sys (.open_ path flags 0) fun
    | .ok res => .ret (0, some res)
    | out => .ret (out.status, none)

def xmp_statfs (path : Path) : Prog ℤ := passthrough (.statvfs path)

/-- `return close(fi->fh);` -/
def xmp_release (fh : ℕ) : Prog ℤ :=
  .sys (.close fh) fun
    | .fail _ => .ret (-1)
    | _ => .ret 0

def xmp_fsync (isdatasync : ℕ) (fh : ℕ) : Prog ℤ :=
  .sys (if isdatasync = 0 then .fsync fh else .fdatasync fh) fun
    | .fail _ => .ret (-1)
    | _ => .ret 0

/-- `lseek`, and `close` when the handler has opened the file itself. -/
def seekIn (fd : ℕ) (off : ℤ) (whence : ℕ) (opened : Bool) : Prog ℤ :=
  .sys (.lseek fd off whence) fun out =>
    let res : ℤ := match out with
      | .ok res => res
      | out => out.status
    if opened then .sys (.close fd) fun _ => .ret res else .ret res

def xmp_lseek (path : Path) (off : ℤ) (whence : ℕ) : Option ℕ → Prog ℤ
  | some fh => seekIn fh off whence false
  | none =>
      .sys (.open_ path ⟨false, false, false⟩ 0) fun
        | .ok fd => seekIn fd off whence true
        | out => .ret out.status

end Handlers

/-! ## What `xmp_getattr` finds -/

section Getattr

variable {s : Store} {path : Path} {b : Backend}

theorem lstat_of_some {i : ℕ} (found : b.entries path.bytes = some i) :
    b.lstat path = .ok (b.inodes i).data.length (b.inodes i).st_blocks := by
  rw [Backend.lstat, found]

theorem lstat_of_none (absent : b.entries path.bytes = none) : b.lstat path = .fail Errno.ENOENT := by
  rw [Backend.lstat, absent]

theorem xmp_getattr_hidden (hidden : reserved path) (lstat : LstatOut) :
    xmp_getattr path lstat s = ⟨-ENOENT, 0, 0⟩ := by
  unfold xmp_getattr
  rw [if_pos hidden]

theorem xmp_getattr_fail (visible : ¬ reserved path) (errno : Errno) :
    xmp_getattr path (.fail errno) s = ⟨-(errno : ℤ), 0, 0⟩ := by
  unfold xmp_getattr
  rw [if_neg visible]

theorem xmp_getattr_absent (absent : b.entries path.bytes = none) :
    xmp_getattr path (b.lstat path) s = ⟨-ENOENT, 0, 0⟩ := by
  by_cases hidden : reserved path
  · exact xmp_getattr_hidden hidden _
  · have errno : -(((2 : ℕ+) : ℕ) : ℤ) = -ENOENT := by
      rw [PNat.val_ofNat, ENOENT]
      rfl
    rw [lstat_of_none absent, xmp_getattr_fail hidden]
    exact congrArg (Stat.mk · 0 0) errno

theorem xmp_getattr_present (visible : ¬ reserved path) {i : ℕ}
    (found : b.entries path.bytes = some i) :
    xmp_getattr path (b.lstat path) s =
      overrideStat s path (b.inodes i).data.length (b.inodes i).st_blocks := by
  unfold xmp_getattr
  rw [if_neg visible, lstat_of_some found]

theorem overrideStat_ret (st_size st_blocks : ℤ) :
    (overrideStat s path st_size st_blocks).ret = 0 := by
  unfold overrideStat
  cases s.fileIndex.lookup path <;> rfl

theorem overrideStat_unwritten (absent : s.fileIndex.lookup path = none) (st_size st_blocks : ℤ) :
    overrideStat s path st_size st_blocks = ⟨0, st_size, st_blocks⟩ := by
  rw [overrideStat, absent]

end Getattr

/-! ## Requests -/

/-- What libfuse hands to a handler of `xmp_oper`, with what the call meets in the
system. -/
inductive Request where
  | getattr (path : Path)
  | access (path : Path) (mask : ℕ)
  | readlink (path : Path) (size : ℕ)
  | readdir (path : Path)
  | mknod (path : Path) (format : FileFormat) (mode : ℕ)
  | symlink (from_ to_ : Path)
  | unlink (path : Path) (order : IterOrder (BlockRef × ℤ))
  | rename (from_ to_ : Path) (flags : ℕ)
  | link (from_ to_ : Path)
  | chmod (path : Path) (mode : ℕ)
  | mkdir (path : Path) (mode : ℕ)
  | rmdir (path : Path)
  | chown (path : Path) (uid gid : ℕ)
  | truncate (path : Path) (size : ℤ) (fh : Option ℕ)
  | open_ (path : Path) (flags : OpenFlags)
  | create (path : Path) (flags : OpenFlags) (mode : ℕ)
  | read (path : Path) (size : ℕ) (offset : ℤ) (env : ReadEnv)
  | write (path : Path) (buf : Bytes) (offset : ℤ) (env : WriteEnv)
  | statfs (path : Path)
  | release (path : Path) (fh : ℕ)
  | fsync (path : Path) (isdatasync : ℕ) (fh : ℕ)
  | lseek (path : Path) (off : ℤ) (whence : ℕ) (fh : Option ℕ)

/-- What a request leaves: the reply, `fi->fh` if the handler set it, and the store. -/
structure Served where
  reply : Reply
  fh : Option ℕ
  store : Store

namespace Request

/-- A handler that returns a code and leaves the store alone. -/
def coded (s : Store) (handler : Prog ℤ) : Prog (Option Served) :=
  handler.map fun ret => some ⟨.code ret, none, s⟩

/-- A handler that sets `fi->fh`. -/
def opening (s : Store) (handler : Prog (ℤ × Option ℕ)) : Prog (Option Served) :=
  handler.map fun out => some ⟨.code out.1, out.2, s⟩

/-- The handler of a request. -/
def serve (SHA512 : Page → BlockId) (s : Store) : Request → Prog (Option Served)
  | getattr path => (Handlers.xmp_getattr path s).map fun stbuf => some ⟨.stat stbuf, none, s⟩
  | access path mask => coded s (Handlers.xmp_access path mask)
  | readlink path size => coded s (Handlers.xmp_readlink path size)
  | readdir path => coded s (Handlers.xmp_readdir path)
  | mknod path format mode => coded s (Handlers.xmp_mknod path format mode)
  | symlink from_ to_ => coded s (Handlers.xmp_symlink from_ to_)
  | unlink path order =>
      (Handlers.xmp_unlink path order s).map fun out => out.map fun out => ⟨.code out.1, none, out.2⟩
  | rename from_ to_ flags => coded s (Handlers.xmp_rename from_ to_ flags)
  | link from_ to_ => coded s (Handlers.xmp_link from_ to_)
  | chmod path mode => coded s (Handlers.xmp_chmod path mode)
  | mkdir path mode => coded s (Handlers.xmp_mkdir path mode)
  | rmdir path => coded s (Handlers.xmp_rmdir path)
  | chown path uid gid => coded s (Handlers.xmp_chown path uid gid)
  | truncate path size fh => coded s (Handlers.xmp_truncate path size fh)
  | open_ path flags => opening s (Handlers.xmp_open path flags)
  | create path flags mode => opening s (Handlers.xmp_create path flags mode)
  | read path size offset env =>
      .ret ((xmp_read path size offset env s).map fun out => ⟨.data out.1 out.2, none, s⟩)
  | write path buf offset env =>
      .ret ((xmp_write SHA512 path buf offset env s).map fun out => ⟨.code out.1, none, out.2⟩)
  | statfs path => coded s (Handlers.xmp_statfs path)
  | release _ fh => coded s (Handlers.xmp_release fh)
  | fsync _ isdatasync fh => coded s (Handlers.xmp_fsync isdatasync fh)
  | lseek path off whence fh => coded s (Handlers.xmp_lseek path off whence fh)

/-- The existing object a handler needs. -/
def object : Request → Option Path
  | access path _ | readlink path _ | readdir path | unlink path _ | chmod path _ | rmdir path
  | chown path _ _ | truncate path _ _ | open_ path _ | read path _ _ _ | write path _ _ _
  | statfs path | lseek path _ _ _ => some path
  | rename from_ _ _ | link from_ _ => some from_
  | _ => none

/-- The descriptors that stay open. -/
def keepOpen : Request → List ℕ → List ℕ
  | release _ fh, opened => opened.erase fh
  | _, opened => opened

/-- The descriptor a request comes with. -/
def handle : Request → Option ℕ
  | truncate _ _ fh | lseek _ _ _ fh => fh
  | release _ fh | fsync _ _ fh => some fh
  | _ => none

end Request

/-! ## The mounted file system -/

/-- The store, the tree, and the descriptors that are open. -/
structure Mount where
  store : Store
  backend : Backend
  opened : List ℕ

/-- A request is served.  The kernel has looked up the object it is about, and the
descriptor it comes with is open. -/
inductive Mount.Step (follow : Backend → Bytes → Bytes) (SHA512 : Page → BlockId) (m : Mount) :
    Request → Mount → Prop
  | serve {request : Request} {served : Served} {b : Backend}
      (seen : ∀ path, request.object = some path →
        (xmp_getattr path (m.backend.lstat path) m.store).ret = 0)
      (held : ∀ fh, request.handle = some fh → fh ∈ m.opened)
      (runs : (request.serve SHA512 m.store).Runs follow m.backend (some served) b) :
      Step follow SHA512 m request ⟨served.store, b, served.fh.toList ++ request.keepOpen m.opened⟩

end ProjetoTSO.Codededup
