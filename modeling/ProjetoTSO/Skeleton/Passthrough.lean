import ProjetoTSO.Codededup.Handlers

/-!
# The plain passthrough (`codebase/skeleton/passthrough.c`)

The handlers of the file system that codededup was made from: every one hands its
arguments to the backend, and file contents are in the backend files themselves.
-/

namespace ProjetoTSO.Skeleton

open CInt ByteStream
open Codededup

/-- What `xmp_read` and `xmp_write` find out about their descriptor and buffer: whether the
descriptor has `O_DIRECT`, the alignment it asks for, whether the buffer has it, and whether
`posix_memalign` gives one that does. -/
structure IoEnv where
  odirect : Bool
  align : ℕ
  aligned : Bool
  memalign : Bool

/-! ## Names -/

def xmp_mknod (path : Path) (format : FileFormat) (mode : ℕ) : Prog ℤ :=
  Handlers.mknod_wrapper path format mode

def xmp_unlink (path : Path) : Prog ℤ := Handlers.passthrough (.unlink path)

def xmp_symlink (from_ to_ : Path) : Prog ℤ := Handlers.passthrough (.symlink from_ to_)

def xmp_create (path : Path) (flags : OpenFlags) (mode : ℕ) : Prog (ℤ × Option ℕ) :=
  .sys (.open_ path flags mode) fun
    | .ok res => .ret (0, some res)
    | out => .ret (out.status, none)

/-! ## Contents -/

/-- `if (fi == NULL) close(fd);` -/
def closeOwn {α : Type} (fi : Option ℕ) (fd : ℕ) (value : α) : Prog α :=
  match fi with
  | some _ => .ret value
  | none => .sys (.close fd) fun _ => .ret value

/-- The common text of `xmp_read` and `xmp_write`: the transfer is made on the descriptor,
through a buffer of its own where the alignment asks for one, or on a second descriptor
without `O_DIRECT`. -/
def transfer {α : Type} (path : Path) (size : ℕ) (offset : ℤ) (env : IoEnv) (fi : Option ℕ)
    (call : ℕ → Syscall) (result : Outcome → α) (error : Outcome → α) : Prog α :=
  let direct (fd : ℕ) : Prog α := .sys (call fd) fun out => closeOwn fi fd (result out)
  let body (fd : ℕ) : Prog α :=
    if env.odirect then
      if size % env.align = 0 ∧ offset % env.align = 0 then
        -- `aligned_buf` takes part in the same transfer as the buffer would
        if env.aligned = false ∧ env.memalign = true then direct fd else direct fd
      else
        .sys (.open_ path ⟨false, false, false⟩ 0) fun
          | .ok fd2 =>
              .sys (call fd2) fun out => .sys (.close fd2) fun _ => closeOwn fi fd (result out)
          | out => closeOwn fi fd (error out)
    else direct fd
  match fi with
  | some fh => body fh
  | none =>
      .sys (.open_ path ⟨false, false, false⟩ 0) fun
        | .ok fd => body fd
        | out => .ret (error out)

/-- The value returned, an `int`, and the bytes put into the caller's buffer. -/
def xmp_read (path : Path) (size : ℕ) (offset : ℤ) (env : IoEnv) (fi : Option ℕ) :
    Prog (ℤ × Bytes) :=
  transfer path size offset env fi (fun fd => .pread fd size offset)
    (fun
      | .data bytes => (int32 bytes.length, bytes)
      | out => (out.status, []))
    fun out => (out.status, [])

def xmp_write (path : Path) (buf : Bytes) (offset : ℤ) (env : IoEnv) (fi : Option ℕ) : Prog ℤ :=
  transfer path buf.length offset env fi (fun fd => .pwrite fd buf offset)
    (fun
      | .ok res => int32 res
      | out => out.status)
    Outcome.status

end ProjetoTSO.Skeleton
