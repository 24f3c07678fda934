import ProjetoTSO.Codededup.Rename
import ProjetoTSO.Codededup.ReservedFiles
import ProjetoTSO.Codededup.Transparency
import ProjetoTSO.Skeleton.Passthrough

/-!
# The deduplicating file system beside the plain one

The same operations, one at a time, on codededup and on the skeleton, which start over the
same tree.  The two trees keep the same entries (`Agrees`); a file that was written holds
its bytes in the skeleton's tree and in codededup's store.

Existence is a matter of the tree for the skeleton.  In codededup it is one for `xmp_create`,
`xmp_mknod` and `xmp_symlink`, but `xmp_unlink` and `xmp_read` ask `fileIndex`, where only
a write makes an entry: a file that was created and never written can neither be
unlinked nor read.

## Design notes

* No system call fails, on either side.
* A read or a write is of a regular file, and its descriptor, if it has one, is open on
  that file.
-/

namespace ProjetoTSO.Skeleton

open CInt ByteStream Chunks Transition
open Codededup
open Codededup.Handlers (mknod_wrapper)

/-! ## Operations -/

inductive Op where
  | create (path : Path) (flags : OpenFlags) (mode : ℕ)
  | mknod (path : Path) (format : FileFormat) (mode : ℕ)
  | symlink (from_ to_ : Path)
  | write (path : Path) (buf : Bytes) (offset : ℤ) (env : WriteEnv) (io : IoEnv) (fi : Option ℕ)
  | read (path : Path) (size : ℕ) (offset : ℤ) (env : ReadEnv) (io : IoEnv) (fi : Option ℕ)
  | unlink (path : Path) (order : IterOrder (BlockRef × ℤ))

namespace Op

/-- The operation as codededup gets it. -/
def request : Op → Request
  | create path flags mode => .create path flags mode
  | mknod path format mode => .mknod path format mode
  | symlink from_ to_ => .symlink from_ to_
  | write path buf offset env _ _ => .write path buf offset env
  | read path size offset env _ _ => .read path size offset env
  | unlink path order => .unlink path order

/-- The call on the store it leads to. -/
def call : Op → Option Call
  | write path buf offset env _ _ => some (.write path buf offset env)
  | read path size offset env _ _ => some (.read path size offset env)
  | unlink path order => some (.unlink path .ok order)
  | _ => none

/-- The operation as the skeleton serves it. -/
def plain : Op → Prog Reply
  | create path flags mode => (xmp_create path flags mode).map fun out => .code out.1
  | mknod path format mode => (xmp_mknod path format mode).map .code
  | symlink from_ to_ => (xmp_symlink from_ to_).map .code
  | write path buf offset _ io fi => (xmp_write path buf offset io fi).map .code
  | read path size offset _ io fi =>
      (xmp_read path size offset io fi).map fun out => .data out.1 out.2
  | unlink path _ => (xmp_unlink path).map .code

/-- A regular file at a path, and the descriptor a request may come with. -/
def Opened (b : Backend) (path : Path) (fi : Option ℕ) (i : ℕ) : Prop :=
  b.entries path.bytes = some i ∧ (b.inodes i).kind = .regular ∧ ∀ fh ∈ fi, fh = i

/-- What is asked of the file systems: nothing about the store's own files, and of writes
that they append whole blocks. -/
def Asked (b : Backend) : Op → Prop
  | create path _ _ | unlink path _ => ¬ reserved path
  | write path buf offset _ _ fi => ∃ i, Opened b path fi i ∧ buf.length % 4096 = 0 ∧
      offset = (b.inodes i).data.length
  | read path _ _ _ _ fi => ∃ i, Opened b path fi i
  | _ => True

end Op

/-- codededup's store and tree, and the skeleton's tree. -/
structure Pair where
  store : Store
  backend : Backend
  plain : Backend

/-- Both file systems serve an operation; the event has both replies. -/
structure Pair.Step (follow : Backend → Bytes → Bytes) (SHA512 : Page → BlockId) (data : Set Page)
    (pair : Pair) (event : Op × Reply × Reply) (next : Pair) : Prop where
  asked : event.1.Asked pair.plain
  undisturbed : ∀ call ∈ event.1.call, Undisturbed SHA512 data pair.store call
  fits : next.store.Fits
  dedup : ∃ fh, (event.1.request.serve SHA512 pair.store).Succeeds follow pair.backend
    (some ⟨event.2.1, fh, next.store⟩) next.backend
  skeleton : event.1.plain.Succeeds follow pair.plain event.2.2 next.plain

/-! ## Handlers that succeed -/

section Succeeds

variable {follow : Backend → Bytes → Bytes} {b b' : Backend} {path : Path} {i : ℕ}

theorem succeeds_of_map {α β : Type} {f : α → β} {handler : Prog α} {out : β}
    (runs : (handler.map f).Succeeds follow b out b') :
    ∃ value, out = f value ∧ handler.Succeeds follow b value b' := by
  induction handler generalizing b with
  | ret value =>
      cases runs
      exact ⟨value, rfl, .ret⟩
  | sys call next ih =>
      cases runs with
      | sys allowed returns rest =>
          obtain ⟨value, same, earlier⟩ := ih _ rest
          exact ⟨value, same, .sys allowed returns earlier⟩

theorem ret_succeeds {α : Type} {value out : α}
    (runs : Prog.Succeeds follow (.ret value) b out b') : out = value ∧ b' = b := by
  cases runs
  exact ⟨rfl, rfl⟩

/-- A handler that makes no system call of its own. -/
theorem ret_map_succeeds {α : Type} {f : α → Served} {result : Option α} {reply : Reply}
    {fh : Option ℕ} {t : Store}
    (runs : Prog.Succeeds follow (.ret (result.map f)) b (some ⟨reply, fh, t⟩) b') :
    ∃ value, result = some value ∧
      (reply = (f value).reply ∧ fh = (f value).fh ∧ t = (f value).store) ∧ b' = b := by
  obtain ⟨same, rfl⟩ := ret_succeeds runs
  obtain ⟨value, found, served⟩ := Option.map_eq_some_iff.mp same.symm
  refine ⟨value, found, ?_, rfl⟩
  rw [served]
  exact ⟨rfl, rfl, rfl⟩

theorem returns_status {call : Syscall} {out : Outcome} (returns : call.Returns follow b out) :
    out.status = 0 := by
  cases call with
  | lstat path =>
      obtain ⟨i, -, rfl⟩ := returns
      rfl
  | readlink path size =>
      obtain ⟨res, rfl⟩ := returns
      rfl
  | lseek fd off whence =>
      obtain ⟨res, rfl⟩ := returns
      rfl
  | _ =>
      cases returns
      rfl

theorem passthrough_succeeds {call : Syscall} {ret : ℤ}
    (runs : (Handlers.passthrough call).Succeeds follow b ret b') :
    call.Allowed follow b ∧ ret = 0 ∧ b' = call.effect follow b := by
  cases runs with
  | sys allowed returns rest =>
      cases rest
      exact ⟨allowed, returns_status returns, rfl⟩

/-- The file `mknod_wrapper` makes. -/
def made (mode : ℕ) : FileFormat → Inode
  | .S_IFREG => .empty mode
  | .S_IFDIR => ⟨.directory, mode, 0, 0, [], 0⟩
  | _ => ⟨.special, mode, 0, 0, [], 0⟩

theorem mknod_wrapper_succeeds {format : FileFormat} {mode : ℕ} {ret : ℤ}
    (runs : (mknod_wrapper path format mode).Succeeds follow b ret b') :
    ret = 0 ∧ b.entries path.bytes = none ∧ b' = b.add path.bytes (made mode format) := by
  cases format with
  | S_IFREG =>
      have opens : Syscall.opens follow b path ⟨true, true, false⟩ = path.bytes :=
        if_pos ⟨rfl, rfl⟩
      cases runs with
      | sys allowed returns rest =>
          have absent : b.entries path.bytes = none := by
            rw [Syscall.Allowed, opens] at allowed
            cases found : b.entries path.bytes with
            | none => rfl
            | some i =>
                rw [found] at allowed
                exact absurd ⟨rfl, rfl⟩ allowed.1
          cases returns
          obtain ⟨-, rfl, rfl⟩ := passthrough_succeeds rest
          refine ⟨rfl, absent, ?_⟩
          have absent' : b.entries (Syscall.opens follow b path ⟨true, true, false⟩) = none := by
            rw [opens, absent]
          show (Syscall.open_ path ⟨true, true, false⟩ mode).effect follow b = _
          rw [Syscall.effect_open_of_none absent', opens]
          rfl
  | S_IFDIR =>
      obtain ⟨vacant, rfl, rfl⟩ := passthrough_succeeds runs
      exact ⟨rfl, vacant.1, rfl⟩
  | S_IFIFO =>
      obtain ⟨vacant, rfl, rfl⟩ := passthrough_succeeds runs
      exact ⟨rfl, vacant.1, rfl⟩
  | S_IFLNK =>
      obtain ⟨allowed, -, -⟩ := passthrough_succeeds runs
      exact absurd rfl allowed.1
  | other =>
      obtain ⟨allowed, rfl, rfl⟩ := passthrough_succeeds runs
      exact ⟨rfl, allowed.2.1, rfl⟩

theorem create_succeeds {flags : OpenFlags} {mode : ℕ} {out : ℤ × Option ℕ}
    (runs : (xmp_create path flags mode).Succeeds follow b out b') :
    out.1 = 0 ∧ b' = (Syscall.open_ path flags mode).effect follow b := by
  cases runs with
  | sys allowed returns rest =>
      cases returns
      cases rest
      exact ⟨rfl, rfl⟩

/-- An entry of a regular file is opened as it is. -/
theorem reopen_succeeds {α : Type} {next : Outcome → Prog α} {value : α}
    (stays : ∀ (b : Backend) path, (∀ i, b.entries path = some i → (b.inodes i).kind ≠ .symlink) →
      follow b path = path) {fi : Option ℕ} (opened : Op.Opened b path fi i)
    (runs : Prog.Succeeds follow (.sys (.open_ path ⟨false, false, false⟩ 0) next) b value b') :
    (next (.ok i)).Succeeds follow b value b' := by
  obtain ⟨found, regular, -⟩ := opened
  have here : b.entries (Syscall.opens follow b path ⟨false, false, false⟩) = some i := by
    have notLink : ∀ j, b.entries path.bytes = some j → (b.inodes j).kind ≠ .symlink := by
      intro j again
      rw [found] at again
      cases again
      rw [regular]
      decide
    rw [Syscall.opens, stays b path.bytes notLink, ite_self, found]
  cases runs with
  | sys allowed returns rest =>
      rw [Syscall.effect_open_of_some here, if_neg fun both => absurd both.1 (by decide)] at rest
      rw [Syscall.Returns, here] at returns
      rw [returns] at rest
      exact rest

theorem closeOwn_succeeds {α : Type} {fi : Option ℕ} {fd : ℕ} {value out : α}
    (runs : (closeOwn fi fd value).Succeeds follow b out b') : out = value ∧ b' = b := by
  cases fi with
  | some fh =>
      cases runs
      exact ⟨rfl, rfl⟩
  | none =>
      cases runs with
      | sys allowed returns rest =>
          cases rest
          exact ⟨rfl, rfl⟩

/-- **A transfer** is one `pread` or `pwrite` on the file, whatever descriptor and buffer
it goes through. -/
theorem transfer_succeeds {α : Type} {size : ℕ} {offset : ℤ} {io : IoEnv} {fi : Option ℕ}
    {call : ℕ → Syscall} {result error : Outcome → α} {value : α}
    (stays : ∀ (b : Backend) path, (∀ i, b.entries path = some i → (b.inodes i).kind ≠ .symlink) →
      follow b path = path) (opened : Op.Opened b path fi i)
    (runs : (transfer path size offset io fi call result error).Succeeds follow b value b') :
    ∃ out, (call i).Returns follow b out ∧ value = result out ∧ b' = (call i).effect follow b := by
  have direct : ∀ {c c' : Backend}, Prog.Succeeds follow
      (.sys (call i) fun out => closeOwn fi i (result out)) c value c' →
      ∃ out, (call i).Returns follow c out ∧ value = result out ∧
        c' = (call i).effect follow c := by
    intro c c' runs
    cases runs with
    | sys allowed returns rest =>
        obtain ⟨same, rfl⟩ := closeOwn_succeeds rest
        exact ⟨_, returns, same, rfl⟩
  have body : ∀ {c' : Backend} {next : Outcome → Prog α},
      (next (.ok i) = .sys (call i) fun out => .sys (.close i) fun _ => closeOwn fi i (result out)) →
      Prog.Succeeds follow
      (if io.odirect then
        if size % io.align = 0 ∧ offset % io.align = 0 then
          if io.aligned = false ∧ io.memalign = true then
            .sys (call i) fun out => closeOwn fi i (result out)
          else .sys (call i) fun out => closeOwn fi i (result out)
        else .sys (.open_ path ⟨false, false, false⟩ 0) next
      else .sys (call i) fun out => closeOwn fi i (result out)) b value c' →
      ∃ out, (call i).Returns follow b out ∧ value = result out ∧
        c' = (call i).effect follow b := by
    intro c' next reopened runs
    rw [ite_self] at runs
    split_ifs at runs
    · exact direct runs
    · -- the second descriptor is open on the same file
      have second := reopen_succeeds stays opened runs
      rw [reopened] at second
      cases second with
      | sys allowed returns rest =>
          cases rest with
          | sys _ _ rest =>
              obtain ⟨same, rfl⟩ := closeOwn_succeeds rest
              exact ⟨_, returns, same, rfl⟩
    · exact direct runs
  cases fi with
  | some fh =>
      have same : fh = i := opened.2.2 fh rfl
      subst same
      exact body rfl runs
  | none => exact body rfl (reopen_succeeds stays opened runs)

theorem read_succeeds {size : ℕ} {offset : ℤ} {io : IoEnv} {fi : Option ℕ} {out : ℤ × Bytes}
    (stays : ∀ (b : Backend) path, (∀ i, b.entries path = some i → (b.inodes i).kind ≠ .symlink) →
      follow b path = path) (opened : Op.Opened b path fi i)
    (runs : (xmp_read path size offset io fi).Succeeds follow b out b') :
    out = (int32 (slice (b.inodes i).data offset.toNat size).length,
      slice (b.inodes i).data offset.toNat size) ∧ b' = b := by
  obtain ⟨res, returns, same, rfl⟩ := transfer_succeeds stays opened runs
  cases returns
  exact ⟨same, rfl⟩

theorem write_succeeds {buf : Bytes} {offset : ℤ} {io : IoEnv} {fi : Option ℕ} {ret : ℤ}
    (stays : ∀ (b : Backend) path, (∀ i, b.entries path = some i → (b.inodes i).kind ≠ .symlink) →
      follow b path = path) (opened : Op.Opened b path fi i)
    (runs : (xmp_write path buf offset io fi).Succeeds follow b ret b') :
    ret = int32 buf.length ∧ b' = b.change i (Inode.splice offset.toNat buf) := by
  obtain ⟨res, returns, same, rfl⟩ := transfer_succeeds stays opened runs
  cases returns
  exact ⟨same, rfl⟩

end Succeeds

/-! ## What the store's calls do to `fileIndex` -/

section Index

variable {SHA512 : Page → BlockId} {s t : Store} {path : Path}

/-- A write of whole blocks makes an entry for its path. -/
theorem write_indexed (accounted : Accounted s) {buf : Bytes} {offset : ℤ} {env : WriteEnv}
    {ret : ℤ} (whole : buf.length % 4096 = 0)
    (room : Accepted s path buf offset → s.HasRoom (blockHashes SHA512 buf))
    (runs : Codededup.xmp_write SHA512 path buf offset env s = some (ret, t)) (p : Path) :
    (t.fileIndex.lookup p).isSome ↔ p = path ∨ (s.fileIndex.lookup p).isSome := by
  have filed := accounted.filed
  have same : t.fileIndex = (findFile path s).2.fileIndex := by
    rcases xmp_write_cases filed runs with ⟨odd, -, -⟩ | ⟨-, -, -, rfl⟩ | ⟨accepted, -, outcome⟩
    · exact absurd whole odd
    · rfl
    · have found := findFile_found filed path
      have prepared := placeBlocks_prepared (accounted.findFile path).ledger
        (found.hasRoom (room accepted))
      rw [appendBlocks_eq] at outcome
      generalize placeBlocks (blockHashes SHA512 buf) (findFile path s).2 = placed
        at prepared outcome
      obtain ⟨tables, u⟩ := placed
      obtain ⟨added, -, appended, -⟩ := writeOut_appended (f := (findFile path s).1) prepared env
      obtain ⟨logicalSize, assigned⟩ := growFile_eq (findFile path s).1
        (writeOut (findFile path s).1 buf env tables u).1 offset buf.length
        (writeOut (findFile path s).1 buf env tables u).2
      have storeEq := congrArg Prod.snd outcome
      simp only at storeEq
      rw [storeEq, assigned, Store.setFile_fileIndex, appended.fileIndex, prepared.fileIndex]
  rw [same]
  unfold findFile
  cases found : s.fileIndex.lookup path with
  | some f =>
      refine ⟨Or.inr, fun either => either.elim (fun here => ?_) id⟩
      rw [here, found]
      rfl
  | none =>
      show ((s.fileIndex.insert path s.nextFile).lookup p).isSome ↔ _
      by_cases here : p = path
      · rw [here, AList.lookup_insert]
        exact ⟨fun _ => Or.inl rfl, fun _ => rfl⟩
      · rw [AList.lookup_insert_ne here]
        exact ⟨Or.inr, fun either => either.resolve_left here⟩

/-- A removal of a path that has an entry takes the entry away. -/
theorem unlink_indexed {order : IterOrder (BlockRef × ℤ)} {ret : ℤ} (visible : ¬ reserved path)
    (indexed : (s.fileIndex.lookup path).isSome)
    (runs : Codededup.xmp_unlink path .ok order s = some (ret, t)) :
    ret = 0 ∧ ∀ p, (t.fileIndex.lookup p).isSome ↔ p ≠ path ∧ (s.fileIndex.lookup p).isSome := by
  obtain ⟨f, found⟩ := Option.isSome_iff_exists.mp indexed
  unfold Codededup.xmp_unlink at runs
  rw [if_neg visible, found] at runs
  simp only at runs
  split at runs
  · cases runs
  · cases runs
    refine ⟨rfl, fun p => ?_⟩
    have frame := foldl_releaseBlock_released
      (releaseOrder order ((stealFile path s).files f).blockList) (stealFile path s)
    show (((releaseOrder order ((stealFile path s).files f).blockList).foldl releaseBlock
      (stealFile path s)).fileIndex.lookup p).isSome ↔ _
    rw [frame.fileIndex, Option.isSome_iff_exists, Option.isSome_iff_exists]
    constructor
    · rintro ⟨g, entry⟩
      obtain ⟨other, before⟩ := stealFile_lookup.mp entry
      exact ⟨other, g, before⟩
    · rintro ⟨other, g, before⟩
      exact ⟨g, stealFile_lookup.mpr ⟨other, before⟩⟩

end Index

/-! ## The two trees -/

namespace Pair

/-- A written file: its bytes are in the skeleton's tree and in codededup's store, and
codededup's placeholder is empty.  A file with bytes has no second name. -/
structure Written (pair : Pair) (path : Path) (i : ℕ) : Prop where
  found : pair.backend.entries path.bytes = some i
  placeholder : (pair.backend.inodes i).data = []
  data : (pair.plain.inodes i).data = pair.store.contents path
  sole : pair.store.contents path = [] ∨ ∀ p, pair.backend.entries p = some i → p = path.bytes

/-- The trees have the same entries, and they differ in the data of written files only. -/
structure Agrees (pair : Pair) : Prop where
  entries : pair.plain.entries = pair.backend.entries
  nextInode : pair.plain.nextInode = pair.backend.nextInode
  kinds : ∀ p i, pair.backend.entries p = some i →
    (pair.plain.inodes i).kind = (pair.backend.inodes i).kind
  symlinks : ∀ p i, pair.backend.entries p = some i → (pair.backend.inodes i).kind = .symlink →
    (pair.plain.inodes i).data = (pair.backend.inodes i).data
  written : ∀ path, (pair.store.fileIndex.lookup path).isSome → ∃ i, pair.Written path i
  unwritten : ∀ p i, pair.backend.entries p = some i →
    (∀ path, (pair.store.fileIndex.lookup path).isSome →
      pair.backend.entries path.bytes ≠ some i) →
    (pair.plain.inodes i).data = (pair.backend.inodes i).data

namespace Agrees

variable {s t : Store} {backend plain : Backend} {path : Path} {i : ℕ}

theorem start (fd : ℕ) (sysdata : ByteDisk.Disk) (b : Backend) :
    Agrees ⟨Store.empty fd sysdata, b, b⟩ where
  entries := rfl
  nextInode := rfl
  kinds _ _ _ := rfl
  symlinks _ _ _ _ := rfl
  written path indexed := by cases indexed
  unwritten _ _ _ _ := rfl

/-- A placeholder without bytes of its own stands for what the store holds. -/
theorem plain_data (agrees : Agrees ⟨s, backend, plain⟩)
    (found : backend.entries path.bytes = some i)
    (fresh : (s.fileIndex.lookup path).isSome ∨ (backend.inodes i).data = []) :
    (backend.inodes i).data = [] ∧ (plain.inodes i).data = s.contents path := by
  by_cases indexed : (s.fileIndex.lookup path).isSome
  · obtain ⟨j, here, placeholder, data, -⟩ := agrees.written path indexed
    cases found.symm.trans here
    exact ⟨placeholder, data⟩
  · have empty := fresh.resolve_left indexed
    have nothing : s.contents path = [] := by
      rw [Store.contents, Store.listAt_of_none (Option.not_isSome_iff_eq_none.mp indexed)]
      rfl
    refine ⟨empty, ?_⟩
    rw [nothing]
    by_cases other : ∃ p, (s.fileIndex.lookup p).isSome ∧ backend.entries p.bytes = some i
    · obtain ⟨p, indexed', here⟩ := other
      obtain ⟨j, here', -, data, alone⟩ := agrees.written p indexed'
      cases here.symm.trans here'
      rcases alone with hollow | sole
      · exact data.trans hollow
      · have same : path = p := CString.ext (sole _ found)
        exact absurd (same ▸ indexed') indexed
    · rw [← empty]
      exact agrees.unwritten _ i found fun p indexed' here => other ⟨p, indexed', here⟩

/-- A new file appears on both sides. -/
theorem add (agrees : Agrees ⟨s, backend, plain⟩) {p : Bytes}
    (absent : backend.entries p = none) (inode : Inode) :
    Agrees ⟨s, backend.add p inode, plain.add p inode⟩ := by
  have old : ∀ {q j}, (backend.add p inode).entries q = some j →
      q = p ∧ j = backend.nextInode ∨ q ≠ p ∧ backend.entries q = some j ∧ j < backend.nextInode := by
    intro q j found
    by_cases here : q = p
    · rw [here, Backend.add_entries_self] at found
      exact Or.inl ⟨here, (Option.some.inj found).symm⟩
    · rw [Backend.add_entries_ne here] at found
      exact Or.inr ⟨here, found, backend.allocated q j found⟩
  have kept : ∀ {q j}, backend.entries q = some j → (backend.add p inode).entries q = some j := by
    intro q j found
    have differ : q ≠ p := by
      rintro rfl
      rw [absent] at found
      cases found
    rw [Backend.add_entries_ne differ, found]
  have next : plain.nextInode = backend.nextInode := agrees.nextInode
  have inodes : ∀ {j}, j < backend.nextInode → (backend.add p inode).inodes j = backend.inodes j ∧
      (plain.add p inode).inodes j = plain.inodes j := by
    intro j below
    exact ⟨Backend.add_inodes_of_lt below, Backend.add_inodes_of_lt (next ▸ below)⟩
  have new : (plain.add p inode).inodes backend.nextInode = inode := by
    rw [← next, Backend.add_inodes_self]
  have new' : (backend.add p inode).inodes backend.nextInode = inode := Backend.add_inodes_self
  refine ⟨?_, ?_, fun q j found => ?_, fun q j found link => ?_, fun path indexed => ?_,
    fun q j found others => ?_⟩
  · show Function.update plain.entries p (some plain.nextInode) = Function.update _ _ _
    rw [next, show plain.entries = backend.entries from agrees.entries]
  · exact congrArg (· + 1) next
  · show ((plain.add p inode).inodes j).kind = ((backend.add p inode).inodes j).kind
    rcases old found with ⟨-, rfl⟩ | ⟨-, before, below⟩
    · rw [new, new']
    · rw [(inodes below).1, (inodes below).2]
      exact agrees.kinds q j before
  · show ((plain.add p inode).inodes j).data = ((backend.add p inode).inodes j).data
    replace link : ((backend.add p inode).inodes j).kind = .symlink := link
    rcases old found with ⟨-, rfl⟩ | ⟨-, before, below⟩
    · rw [new, new']
    · rw [(inodes below).1] at link ⊢
      rw [(inodes below).2]
      exact agrees.symlinks q j before link
  · obtain ⟨j, here, placeholder, data, sole⟩ := agrees.written path indexed
    have below := backend.allocated _ j here
    refine ⟨j, kept here, ?_, ?_, sole.imp_right fun alone q found => ?_⟩
    · exact (congrArg Inode.data (inodes below).1).trans placeholder
    · exact (congrArg Inode.data (inodes below).2).trans data
    · rcases old found with ⟨-, rfl⟩ | ⟨-, before, -⟩
      · exact absurd below (lt_irrefl _)
      · exact alone q before
  · show ((plain.add p inode).inodes j).data = ((backend.add p inode).inodes j).data
    rcases old found with ⟨-, rfl⟩ | ⟨-, before, below⟩
    · rw [new, new']
    · rw [(inodes below).1, (inodes below).2]
      exact agrees.unwritten q j before fun path indexed here => others path indexed (kept here)

/-- A file is cut on both sides, and the store holds nothing of it. -/
theorem truncate (agrees : Agrees ⟨s, backend, plain⟩)
    (hollow : ∀ path, (s.fileIndex.lookup path).isSome → backend.entries path.bytes = some i →
      s.contents path = []) (file : (backend.inodes i).kind = .regular) :
    Agrees ⟨s, backend.change i (Inode.resize 0), plain.change i (Inode.resize 0)⟩ := by
  have cut : ∀ b : Backend, ((b.change i (Inode.resize 0)).inodes i).data = [] := by
    intro b
    rw [Backend.change_inodes_self]
    simp [Inode.resize]
  have kind : ∀ (b : Backend) j,
      ((b.change i (Inode.resize 0)).inodes j).kind = (b.inodes j).kind := by
    intro b j
    by_cases here : j = i
    · rw [here, Backend.change_inodes_self]
      rfl
    · rw [Backend.change_inodes_ne here]
  have others : ∀ (b : Backend) {j}, j ≠ i →
      (b.change i (Inode.resize 0)).inodes j = b.inodes j :=
    fun b j differ => Backend.change_inodes_ne differ
  refine ⟨agrees.entries, agrees.nextInode, fun q j found => ?_, fun q j found link => ?_,
    fun path indexed => ?_, fun q j found apart => ?_⟩
  · rw [kind, kind]
    exact agrees.kinds q j found
  · have before : (backend.inodes j).kind = .symlink := (kind backend j).symm.trans link
    have differ : j ≠ i := by
      rintro rfl
      rw [file] at before
      cases before
    rw [others _ differ, others _ differ]
    exact agrees.symlinks q j found before
  · obtain ⟨j, here, placeholder, data, sole⟩ := agrees.written path indexed
    refine ⟨j, here, ?_, ?_, sole⟩
    · by_cases same : j = i
      · rw [same]
        exact cut backend
      · exact (congrArg Inode.data (others backend same)).trans placeholder
    · by_cases same : j = i
      · subst same
        exact (cut plain).trans (hollow path indexed here).symm
      · exact (congrArg Inode.data (others plain same)).trans data
  · by_cases same : j = i
    · rw [same]
      exact (cut plain).trans (cut backend).symm
    · rw [others _ same, others _ same]
      exact agrees.unwritten q j found apart

/-- A write goes into the file on one side, and into the store on the other. -/
theorem append (agrees : Agrees ⟨s, backend, plain⟩)
    (found : backend.entries path.bytes = some i) (file : (plain.inodes i).kind = .regular)
    (fresh : (s.fileIndex.lookup path).isSome ∨ (backend.inodes i).data = []) {buf : Bytes}
    (alone : buf = [] ∨ ∀ p, backend.entries p = some i → p = path.bytes)
    (indexed : ∀ p, (t.fileIndex.lookup p).isSome ↔ p = path ∨ (s.fileIndex.lookup p).isSome)
    (contents : ∀ p, t.contents p = if p = path then s.contents p ++ buf else s.contents p) :
    Agrees ⟨t, backend, plain.change i (Inode.splice (plain.inodes i).data.length buf)⟩ := by
  obtain ⟨hollow, data⟩ := agrees.plain_data found fresh
  have longer : ((plain.change i (Inode.splice (plain.inodes i).data.length buf)).inodes i).data =
      (plain.inodes i).data ++ buf := by
    rw [Backend.change_inodes_self]
    simp [Inode.splice]
  have others : ∀ {j}, j ≠ i → (plain.change i
      (Inode.splice (plain.inodes i).data.length buf)).inodes j = plain.inodes j :=
    fun differ => Backend.change_inodes_ne differ
  refine ⟨agrees.entries, agrees.nextInode, fun q j here => ?_, fun q j here link => ?_,
    fun p present => ?_, fun q j here apart => ?_⟩
  · rw [← agrees.kinds q j here]
    by_cases same : j = i
    · rw [same, Backend.change_inodes_self]
      rfl
    · rw [others same]
  · have differ : j ≠ i := by
      rintro rfl
      have kind := agrees.kinds q j here
      simp only at kind link
      rw [file, link] at kind
      cases kind
    rw [others differ]
    exact agrees.symlinks q j here link
  · by_cases own : p = path
    · subst own
      refine ⟨i, found, hollow, ?_, ?_⟩
      · rw [longer, data, contents, if_pos rfl]
      · show t.contents p = [] ∨ _
        rw [contents, if_pos rfl]
        rcases alone with rfl | alone
        · rw [List.append_nil]
          by_cases before : (s.fileIndex.lookup p).isSome
          · obtain ⟨j, here, -, -, sole⟩ := agrees.written p before
            cases found.symm.trans here
            exact sole
          · refine Or.inl ?_
            rw [Store.contents, Store.listAt_of_none (Option.not_isSome_iff_eq_none.mp before)]
            rfl
        · exact Or.inr alone
    · have before := ((indexed p).mp present).resolve_left own
      obtain ⟨j, here, placeholder, same, sole⟩ := agrees.written p before
      have kept : t.contents p = s.contents p := (contents p).trans (if_neg own)
      refine ⟨j, here, placeholder, ?_, ?_⟩
      · show _ = t.contents p
        rw [kept]
        by_cases shared : j = i
        · subst shared
          rcases alone with rfl | alone
          · rw [longer, List.append_nil]
            exact same
          · exact absurd (CString.ext (alone _ here)) own
        · rw [others shared]
          exact same
      · show t.contents p = [] ∨ _
        rw [kept]
        exact sole
  · have differ : j ≠ i := by
      rintro rfl
      exact apart path ((indexed path).mpr (Or.inl rfl)) found
    rw [others differ]
    exact agrees.unwritten q j here fun p before => apart p ((indexed p).mpr (Or.inr before))

/-- An entry goes away on both sides, and with it the store's. -/
theorem remove (agrees : Agrees ⟨s, backend, plain⟩)
    (before : (s.fileIndex.lookup path).isSome)
    (indexed : ∀ p, (t.fileIndex.lookup p).isSome ↔ p ≠ path ∧ (s.fileIndex.lookup p).isSome)
    (contents : ∀ p, t.contents p = if p = path then [] else s.contents p) :
    Agrees ⟨t, backend.remove path.bytes, plain.remove path.bytes⟩ := by
  have old : ∀ {q j}, (backend.remove path.bytes).entries q = some j →
      q ≠ path.bytes ∧ backend.entries q = some j := by
    intro q j found
    have differ : q ≠ path.bytes := by
      rintro rfl
      rw [Backend.remove_entries_self] at found
      cases found
    rw [Backend.remove_entries_ne differ] at found
    exact ⟨differ, found⟩
  have kept : ∀ {p : Path}, p ≠ path →
      (backend.remove path.bytes).entries p.bytes = backend.entries p.bytes :=
    fun differ => Backend.remove_entries_ne fun same => differ (CString.ext same)
  refine ⟨?_, agrees.nextInode, fun q j found => ?_, fun q j found => ?_, fun p present => ?_,
    fun q j found apart => ?_⟩
  · show Function.update plain.entries _ _ = Function.update backend.entries _ _
    rw [show plain.entries = backend.entries from agrees.entries]
  · exact agrees.kinds q j (old found).2
  · exact agrees.symlinks q j (old found).2
  · obtain ⟨other, earlier⟩ := (indexed p).mp present
    obtain ⟨j, here, placeholder, data, sole⟩ := agrees.written p earlier
    have same : t.contents p = s.contents p := (contents p).trans (if_neg other)
    refine ⟨j, (kept other).trans here, placeholder, ?_, ?_⟩
    · exact data.trans same.symm
    · exact sole.imp same.trans fun alone q found => alone q (old found).2
  · obtain ⟨differ, here⟩ := old found
    by_cases shared : backend.entries path.bytes = some j
    · -- a second name of the removed file
      obtain ⟨k, found', placeholder, data, sole⟩ := agrees.written path before
      cases shared.symm.trans found'
      rcases sole with hollow | alone
      · exact (data.trans hollow).trans placeholder.symm
      · exact absurd (alone q here) differ
    · refine agrees.unwritten q j here fun p present found' => ?_
      have other : p ≠ path := by
        rintro rfl
        exact shared found'
      exact apart p ((indexed p).mpr ⟨other, present⟩) ((kept other).trans found')

end Agrees

end Pair

/-! ## One operation -/

/-- When codededup serves an operation as the skeleton does: a removal is of a path that has
an entry in `fileIndex`, and so is a read, which asks for whole blocks; a write is to a
path that has an entry, or whose placeholder is empty, and leaves other names of the file
alone; and no file the store holds bytes of is truncated. -/
def Op.Known (follow : Backend → Bytes → Bytes) (pair : Pair) : Op → Prop
  | create path flags _ => flags.trunc → ∀ p i,
      pair.backend.entries (Syscall.opens follow pair.backend path flags) = some i →
      (pair.store.fileIndex.lookup p).isSome → pair.backend.entries p.bytes = some i →
      pair.store.contents p = []
  | write path buf _ _ _ _ => ∀ i, pair.backend.entries path.bytes = some i →
      ((pair.store.fileIndex.lookup path).isSome ∨ (pair.backend.inodes i).data = []) ∧
      (buf = [] ∨ ∀ p, pair.backend.entries p = some i → p = path.bytes)
  | read path size _ _ _ _ => size % 4096 = 0 ∧ (pair.store.fileIndex.lookup path).isSome
  | unlink path _ => (pair.store.fileIndex.lookup path).isSome
  | _ => True

/-- The store has been through an undisturbed session. -/
def Undamaged (SHA512 : Page → BlockId) (data : Set Page) (s : Store) : Prop :=
  ∃ fd sysdata history, Runs (Codededup.Step SHA512 (Undisturbed SHA512 data))
    (Store.empty (fd : ℕ) sysdata) history s

section Step

variable {follow : Backend → Bytes → Bytes} {SHA512 : Page → BlockId} {data : Set Page}
variable {pair next : Pair} {op : Op} {reply reply' : Reply}

/-- A call on the store that an operation makes. -/
theorem Undamaged.step {s t : Store} (undamaged : Undamaged SHA512 data s) {call : Call}
    (runs : exec SHA512 call s = some (reply, t)) (undisturbed : Undisturbed SHA512 data s call)
    (fits : t.Fits) : Undamaged SHA512 data t := by
  obtain ⟨fd, sysdata, history, session⟩ := undamaged
  have move : Codededup.Step SHA512 (Undisturbed SHA512 data) s (call, reply) t :=
    ⟨runs, fits, undisturbed⟩
  exact ⟨fd, sysdata, _, session.snoc move⟩

/-- The store serves a call as the history of its contents says. -/
theorem Undamaged.served {s : Store} (undamaged : Undamaged SHA512 data s)
    (injective : Set.InjOn SHA512 data) {call : Call}
    (undisturbed : Undisturbed SHA512 data s call) :
    (∃ reply t, exec SHA512 call s = some (reply, t)) ∧
      ∀ reply t, exec SHA512 call s = some (reply, t) → Transparent s.contents s call reply ∧
        ∀ p, t.contents p = written p (s.contents p) (call, reply) := by
  obtain ⟨fd, sysdata, history, session⟩ := undamaged
  have faithful := Codededup.Runs.faithful injective (fun _ _ admitted => admitted.exposed)
    (fun _ _ admitted => admitted.traceless) session
  have contents : content history = s.contents := (funext faithful.contents).symm
  obtain ⟨reply, t, runs, transparent⟩ := exec_transparent injective session undisturbed
  refine ⟨⟨reply, t, runs⟩, fun reply' t' runs' => ?_⟩
  obtain ⟨rfl, rfl⟩ := Prod.mk.inj (Option.some.inj (runs.symm.trans runs'))
  refine ⟨contents ▸ transparent, fun p => ?_⟩
  have later := faithful.step injective (Runs.fits session) undisturbed.exposed
    undisturbed.traceless runs
  rw [later.contents, content_snoc, contents]

theorem Undamaged.accounted {s : Store} (undamaged : Undamaged SHA512 data s)
    (injective : Set.InjOn SHA512 data) : Accounted s := by
  obtain ⟨fd, sysdata, history, session⟩ := undamaged
  have faithful := Codededup.Runs.faithful injective (fun _ _ admitted => admitted.exposed)
    (fun _ _ admitted => admitted.traceless) session
  exact faithful.accounted

/-- Both sides open the same path. -/
theorem opens_agree
    (respects : ∀ (b b' : Backend) path, b.entries = b'.entries →
      (∀ p i, b.entries p = some i → (b.inodes i).kind = (b'.inodes i).kind) →
      (∀ p i, b.entries p = some i → (b'.inodes i).kind = .symlink →
        (b.inodes i).data = (b'.inodes i).data) → follow b path = follow b' path)
    (agrees : pair.Agrees) (path : Path) (flags : OpenFlags) :
    Syscall.opens follow pair.plain path flags = Syscall.opens follow pair.backend path flags := by
  have same := agrees.entries
  rw [Syscall.opens, Syscall.opens, respects pair.plain pair.backend path.bytes same
    (fun p i found => agrees.kinds p i (same ▸ found))
    (fun p i found => agrees.symlinks p i (same ▸ found))]

/-- `open` makes a file, cuts one, or leaves the tree alone, the same on both sides. -/
theorem create_agrees
    (respects : ∀ (b b' : Backend) path, b.entries = b'.entries →
      (∀ p i, b.entries p = some i → (b.inodes i).kind = (b'.inodes i).kind) →
      (∀ p i, b.entries p = some i → (b'.inodes i).kind = .symlink →
        (b.inodes i).data = (b'.inodes i).data) → follow b path = follow b' path)
    (agrees : pair.Agrees) {path : Path} {flags : OpenFlags} {mode : ℕ}
    (known : Op.Known follow pair (.create path flags mode)) :
    Pair.Agrees ⟨pair.store, (Syscall.open_ path flags mode).effect follow pair.backend,
      (Syscall.open_ path flags mode).effect follow pair.plain⟩ := by
  have opens := opens_agree respects agrees path flags
  have entries := agrees.entries
  cases found : pair.backend.entries (Syscall.opens follow pair.backend path flags) with
  | none =>
      have found' : pair.plain.entries (Syscall.opens follow pair.plain path flags) = none := by
        rw [opens, entries, found]
      rw [Syscall.effect_open_of_none found, Syscall.effect_open_of_none found', opens]
      exact agrees.add found _
  | some i =>
      have found' : pair.plain.entries (Syscall.opens follow pair.plain path flags) = some i := by
        rw [opens, entries, found]
      rw [Syscall.effect_open_of_some found, Syscall.effect_open_of_some found',
        agrees.kinds _ i found]
      split_ifs with cut
      · exact agrees.truncate (fun p indexed here => known cut.1 p i found indexed here) cut.2
      · exact agrees

/-- **One operation.**  The replies are equal, and the trees go on agreeing. -/
theorem Pair.Step.agrees
    (stays : ∀ (b : Backend) path, (∀ i, b.entries path = some i → (b.inodes i).kind ≠ .symlink) →
      follow b path = path)
    (respects : ∀ (b b' : Backend) path, b.entries = b'.entries →
      (∀ p i, b.entries p = some i → (b.inodes i).kind = (b'.inodes i).kind) →
      (∀ p i, b.entries p = some i → (b'.inodes i).kind = .symlink →
        (b.inodes i).data = (b'.inodes i).data) → follow b path = follow b' path)
    (injective : Set.InjOn SHA512 data) (step : pair.Step follow SHA512 data (op, reply, reply') next)
    (known : op.Known follow pair) (agrees : pair.Agrees)
    (undamaged : Undamaged SHA512 data pair.store) :
    reply = reply' ∧ next.Agrees ∧ Undamaged SHA512 data next.store := by
  obtain ⟨asked, undisturbed, fits, ⟨fh, dedup⟩, skeleton⟩ := step
  obtain ⟨s, backend, plain⟩ := pair
  obtain ⟨t, backend', plain'⟩ := next
  have entries : plain.entries = backend.entries := agrees.entries
  simp only at asked undisturbed fits dedup skeleton undamaged
  cases op with
  | create path flags mode =>
      obtain ⟨out, same, runs⟩ := succeeds_of_map skeleton
      obtain ⟨out', same', runs'⟩ := succeeds_of_map dedup
      obtain ⟨rfl, rfl, rfl⟩ := Served.mk.inj (Option.some.inj same')
      have visible : ¬ reserved path := asked
      rw [show Handlers.xmp_create path flags mode = xmp_create path flags mode from
        if_neg visible] at runs'
      obtain ⟨zero, rfl⟩ := create_succeeds runs
      obtain ⟨zero', rfl⟩ := create_succeeds runs'
      refine ⟨?_, create_agrees respects agrees known, undamaged⟩
      rw [same, zero, zero']
  | mknod path format mode =>
      obtain ⟨out, same, runs⟩ := succeeds_of_map skeleton
      obtain ⟨out', same', runs'⟩ := succeeds_of_map dedup
      obtain ⟨rfl, rfl, rfl⟩ := Served.mk.inj (Option.some.inj same')
      obtain ⟨rfl, -, rfl⟩ := mknod_wrapper_succeeds runs
      obtain ⟨rfl, absent, rfl⟩ := mknod_wrapper_succeeds runs'
      exact ⟨same.symm, agrees.add absent _, undamaged⟩
  | symlink from_ to_ =>
      obtain ⟨out, same, runs⟩ := succeeds_of_map skeleton
      obtain ⟨out', same', runs'⟩ := succeeds_of_map dedup
      obtain ⟨rfl, rfl, rfl⟩ := Served.mk.inj (Option.some.inj same')
      obtain ⟨-, rfl, rfl⟩ := passthrough_succeeds runs
      obtain ⟨vacant, rfl, rfl⟩ := passthrough_succeeds runs'
      exact ⟨same.symm, agrees.add vacant.1 _, undamaged⟩
  | write path buf offset env io fi =>
      obtain ⟨i, opened, whole, rfl⟩ := asked
      obtain ⟨out, same, runs⟩ := succeeds_of_map skeleton
      obtain ⟨res, rfl⟩ := write_succeeds stays opened runs
      have found : backend.entries path.bytes = some i := entries ▸ opened.1
      obtain ⟨fresh, alone⟩ := known i found
      obtain ⟨-, size⟩ := agrees.plain_data found fresh
      have calm := undisturbed _ rfl
      obtain ⟨⟨ret, u⟩, ran, served⟩ := ret_map_succeeds dedup
      obtain ⟨⟨rfl, -, rfl⟩, rfl⟩ := served
      have runs' : exec SHA512 (.write path buf _ env) s = some (.code ret, t) :=
        Option.map_eq_some_iff.mpr ⟨_, ran, rfl⟩
      obtain ⟨transparent, contents⟩ := (undamaged.served injective calm).2 _ _ runs'
      have value : Reply.code ret = .code buf.length := by
        rw [transparent whole, size, if_pos rfl]
      obtain rfl := Reply.code.inj value
      refine ⟨?_, ?_, undamaged.step runs' calm fits⟩
      · have short : int32 buf.length = buf.length :=
          int32_eq (by omega) (by exact_mod_cast calm.1)
        rw [same, res, short]
      · have indexed := write_indexed (undamaged.accounted injective) whole
          (fun accepted => (calm.2.2.2.2 accepted).1) ran
        refine agrees.append found opened.2.1 fresh alone indexed fun p => ?_
        rw [contents]
        simp only [written]
        by_cases own : p = path
        · rw [if_pos own, if_pos ⟨own.symm, Int.natCast_nonneg _⟩]
        · rw [if_neg own, if_neg fun both => own both.1.symm]
  | read path size offset env io fi =>
      obtain ⟨i, opened⟩ := asked
      obtain ⟨out, same, runs⟩ := succeeds_of_map skeleton
      obtain ⟨res, rfl⟩ := read_succeeds stays opened runs
      obtain ⟨whole, indexed⟩ := known
      have found : backend.entries path.bytes = some i := entries ▸ opened.1
      obtain ⟨-, bytes⟩ := agrees.plain_data found (Or.inl indexed)
      have calm := undisturbed _ rfl
      obtain ⟨⟨ret, buf⟩, ran, served⟩ := ret_map_succeeds dedup
      obtain ⟨⟨rfl, -, rfl⟩, rfl⟩ := served
      have runs' : exec SHA512 (.read path size offset env) t = some (.data ret buf, t) :=
        Option.map_eq_some_iff.mpr ⟨_, ran, rfl⟩
      obtain ⟨transparent, -⟩ := (undamaged.served injective calm).2 _ _ runs'
      have some_ : t.fileIndex.lookup path ≠ none := Option.isSome_iff_ne_none.mp indexed
      refine ⟨?_, agrees, undamaged⟩
      have short : (slice (t.contents path) offset.toNat size).length ≤ size := by
        rw [length_slice]
        exact min_le_left _ _
      have bound : size < 2 ^ 31 := calm.1
      have value : int32 (slice (t.contents path) offset.toNat size).length =
          (slice (t.contents path) offset.toNat size).length := int32_eq (by omega) (by omega)
      rw [same, res, bytes]
      simp only
      rw [value]
      exact transparent whole some_
  | unlink path order =>
      obtain ⟨out, same, runs⟩ := succeeds_of_map skeleton
      obtain ⟨-, rfl, rfl⟩ := passthrough_succeeds runs
      obtain ⟨out', same', runs'⟩ := succeeds_of_map dedup
      obtain ⟨⟨ret, u⟩, rfl, served⟩ := Option.map_eq_some_iff.mp same'.symm
      obtain ⟨rfl, -, rfl⟩ := Served.mk.inj served
      obtain ⟨f, found⟩ := Option.isSome_iff_exists.mp known
      have visible : ¬ reserved path := asked
      unfold Handlers.xmp_unlink at runs'
      rw [if_neg visible, found] at runs'
      cases runs' with
      | sys allowed returns rest =>
          cases returns
          obtain ⟨ran, rfl⟩ := ret_succeeds rest
          have runs' : exec SHA512 (.unlink path .ok order) s = some (.code ret, u) :=
            Option.map_eq_some_iff.mpr ⟨_, ran.symm, rfl⟩
          obtain ⟨rfl, indexed⟩ := unlink_indexed visible known ran.symm
          have calm : Undisturbed SHA512 data s (.unlink path .ok order) := trivial
          obtain ⟨-, contents⟩ := (undamaged.served injective calm).2 _ _ runs'
          refine ⟨same.symm, ?_, undamaged.step runs' calm fits⟩
          refine agrees.remove known indexed fun p => ?_
          rw [contents]
          simp only [written]
          by_cases own : p = path
          · rw [if_pos own, if_pos ⟨own.symm, trivial⟩]
          · rw [if_neg own, if_neg fun both => own both.1.symm]

/-! ## Whole sessions -/

/-- **Names agree.**  In a session of known operations both sides give the same replies and
keep the same entries.  There, a file that exists can be unlinked if and only if its path is
in `fileIndex`, and a regular file with no data is read as such if and only if its path is
and whole blocks are asked for. -/
theorem agrees_on_names {fd : ℕ} {sysdata : ByteDisk.Disk} {b : Backend}
    {history : List (Op × Reply × Reply)}
    (stays : ∀ (b : Backend) path, (∀ i, b.entries path = some i → (b.inodes i).kind ≠ .symlink) →
      follow b path = path)
    (respects : ∀ (b b' : Backend) path, b.entries = b'.entries →
      (∀ p i, b.entries p = some i → (b.inodes i).kind = (b'.inodes i).kind) →
      (∀ p i, b.entries p = some i → (b'.inodes i).kind = .symlink →
        (b.inodes i).data = (b'.inodes i).data) → follow b path = follow b' path)
    (injective : Set.InjOn SHA512 data)
    (run : Runs (fun pair event next => pair.Step follow SHA512 data event next ∧
      event.1.Known follow pair) ⟨Store.empty fd sysdata, b, b⟩ history pair) :
    (∀ op reply reply' next, pair.Step follow SHA512 data (op, reply, reply') next →
      op.Known follow pair → reply = reply' ∧ next.plain.entries = next.backend.entries) ∧
    (∀ path order i, ¬ reserved path → pair.backend.entries path.bytes = some i →
      (pair.backend.inodes i).kind ≠ .directory →
      ((∃ s' b', (Handlers.xmp_unlink path order pair.store).Succeeds follow pair.backend
          (some (0, s')) b' ∧ b'.entries path.bytes = none) ↔
        (pair.store.fileIndex.lookup path).isSome)) ∧
    ∀ path size offset env i, pair.plain.entries path.bytes = some i →
      (pair.plain.inodes i).kind = .regular → (pair.plain.inodes i).data = [] →
      Undisturbed SHA512 data pair.store (.read path size offset env) →
      (Codededup.xmp_read path size offset env pair.store = some (0, []) ↔
        size % 4096 = 0 ∧ (pair.store.fileIndex.lookup path).isSome) := by
  obtain ⟨agrees, undamaged⟩ : pair.Agrees ∧ Undamaged SHA512 data pair.store := by
    refine run.state_invariant (fun pair => pair.Agrees ∧ Undamaged SHA512 data pair.store)
      ⟨.start fd sysdata b, fd, sysdata, [], .nil⟩ fun before move => ?_
    exact (move.1.agrees stays respects injective move.2 before.1 before.2).2
  refine ⟨fun op reply reply' next step known => ?_, fun path order i visible found file => ?_,
    fun path size offset env i found regular hollow calm => ?_⟩
  · obtain ⟨same, after, -⟩ := step.agrees stays respects injective known agrees undamaged
    exact ⟨same, after.entries⟩
  · constructor
    · rintro ⟨s', b', runs, -⟩
      by_contra absent
      unfold Handlers.xmp_unlink at runs
      rw [if_neg visible, Option.not_isSome_iff_eq_none.mp absent] at runs
      obtain ⟨same, -⟩ := ret_succeeds runs
      have value : (0 : ℤ) = -ENOENT := congrArg Prod.fst (Option.some.inj same)
      exact absurd value (by decide)
    · intro indexed
      have calm : Undisturbed SHA512 data pair.store (.unlink path .ok order) := trivial
      obtain ⟨⟨reply, t, ran⟩, -⟩ := undamaged.served injective calm
      obtain ⟨⟨ret, t'⟩, ran, -⟩ := Option.map_eq_some_iff.mp ran
      obtain ⟨rfl, -⟩ := unlink_indexed visible indexed ran
      obtain ⟨f, entry⟩ := Option.isSome_iff_exists.mp indexed
      refine ⟨t', pair.backend.remove path.bytes, ?_, Backend.remove_entries_self⟩
      unfold Handlers.xmp_unlink
      rw [if_neg visible, entry, ← ran]
      exact .sys ⟨i, found, file⟩ rfl .ret
  · constructor
    · intro ran
      by_cases whole : size % 4096 = 0
      · refine ⟨whole, ?_⟩
        by_contra absent
        rw [xmp_read_unwritten (Option.not_isSome_iff_eq_none.mp absent),
          if_neg (not_not.mpr whole)] at ran
        exact absurd (congrArg Prod.fst (Option.some.inj ran)) (by decide)
      · rw [Codededup.xmp_read, if_pos whole] at ran
        exact absurd (congrArg Prod.fst (Option.some.inj ran)) (by decide)
    · rintro ⟨whole, indexed⟩
      have found' : pair.backend.entries path.bytes = some i := by
        rw [← agrees.entries, found]
      obtain ⟨-, bytes⟩ := agrees.plain_data found' (Or.inl indexed)
      obtain ⟨⟨reply, t, ran⟩, served⟩ := undamaged.served injective calm
      have transparent := (served reply t ran).1 whole (Option.isSome_iff_ne_none.mp indexed)
      obtain ⟨⟨ret, buf⟩, ran, same⟩ := Option.map_eq_some_iff.mp ran
      have nothing : slice (pair.store.contents path) offset.toNat size = [] := by
        rw [← bytes, hollow]
        simp [slice]
      rw [nothing, ← (Prod.mk.inj same).1] at transparent
      obtain ⟨rfl, rfl⟩ := Reply.data.inj transparent
      exact ran

end Step

/-! ## A file `/a` -/

/-- A descriptor without `O_DIRECT`. -/
def IoEnv.plain : IoEnv := ⟨false, 0, false, false⟩

/-- A first write is served on both sides. -/
theorem write_step : Pair.Step (fun _ path => path) (fun _ => digestOfA) {pageOfA}
    ⟨.empty (3 : ℕ) fun _ => 0, onlyA, onlyA⟩
    (.write (CString.lit "/a") pageOfA.toList 0 .fine .plain (some 1), .code 4096, .code 4096)
    ⟨holdsA, onlyA, onlyA.change 1 (Inode.splice 0 pageOfA.toList)⟩ := by
  have length : pageOfA.toList.length = 4096 := length_page pageOfA
  have first : Runs (Codededup.Step (fun _ => digestOfA) (Undisturbed (fun _ => digestOfA) {pageOfA}))
      (.empty (3 : ℕ) fun _ => 0)
      ([] ++ [(.write (CString.lit "/a") pageOfA.toList 0 .fine, .code 4096)]) holdsA :=
    runs_first _ .fine (by decide) rfl rfl (undisturbed_first (Set.mem_singleton pageOfA))
  obtain ⟨before, earlier, move⟩ := first.of_snoc
  obtain rfl := earlier.of_nil
  have regular : (onlyA.inodes 1).kind = .regular := by decide
  refine ⟨⟨1, ⟨by decide, regular, ?_⟩, ?_, ?_⟩, ?_, move.fits, ⟨none, ?_⟩, ?_⟩
  · rintro fh ⟨⟩
    rfl
  · rw [length]
  · decide
  · rintro call ⟨⟩
    exact move.admitted
  · show Prog.Succeeds _ (.ret ((Codededup.xmp_write _ _ _ _ _ _).map _)) _ _ _
    rw [xmp_write_first rfl rfl]
    exact .ret
  · have value : int32 pageOfA.toList.length = 4096 := by
      rw [length]
      decide
    rw [← value]
    exact .sys ⟨le_rfl, regular⟩ rfl .ret

/-- A file that was written can be unlinked. -/
theorem agrees_on_names_written : ∃ s' b',
    (Handlers.xmp_unlink (CString.lit "/a") (IterOrder.id _) holdsA).Succeeds (fun _ path => path)
      onlyA (some (0, s')) b' ∧ b'.entries (CString.lit "/a").bytes = none := by
  have known : Op.Known (fun _ path => path) ⟨.empty (3 : ℕ) fun _ => 0, onlyA, onlyA⟩
      (.write (CString.lit "/a") pageOfA.toList 0 .fine .plain (some 1)) := by
    intro i found
    have here : onlyA.entries (CString.lit "/a").bytes = some 1 := by decide
    cases found.symm.trans here
    refine ⟨Or.inr (by decide), Or.inr fun p named => ?_⟩
    have named : (if p = [slash] then some 0
      else if p = (CString.lit "/a").bytes then some 1 else none) = some 1 := named
    split_ifs at named with root same
    · cases named
    · exact same
  have run : Runs (fun pair event next =>
      Pair.Step (fun _ path => path) (fun _ => digestOfA) {pageOfA} pair event next ∧
        event.1.Known (fun _ path => path) pair) _ _ _ := Runs.nil.snoc ⟨write_step, known⟩
  exact ((agrees_on_names (fun _ _ _ => rfl) (fun _ _ _ _ _ _ => rfl)
    (Set.injOn_singleton _ pageOfA) run).2.1 (CString.lit "/a") (IterOrder.id _) 1 (by decide)
    (by decide) (by decide)).mpr (by decide)

/-- A file is created and unlinked: codededup does not find it. -/
theorem created_not_unlinked :
    ¬ ∀ (follow : Backend → Bytes → Bytes) (SHA512 : Page → BlockId) (data : Set Page) (fd : ℕ)
      (sysdata : ByteDisk.Disk) (b : Backend) (history : List (Op × Reply × Reply)) (pair next : Pair)
      (op : Op) (reply reply' : Reply), Set.InjOn SHA512 data →
      (∀ (b : Backend) path, (∀ i, b.entries path = some i → (b.inodes i).kind ≠ .symlink) →
        follow b path = path) →
      (∀ (b b' : Backend) path, b.entries = b'.entries →
        (∀ p i, b.entries p = some i → (b.inodes i).kind = (b'.inodes i).kind) →
        (∀ p i, b.entries p = some i → (b'.inodes i).kind = .symlink →
          (b.inodes i).data = (b'.inodes i).data) → follow b path = follow b' path) →
      Runs (Pair.Step follow SHA512 data) ⟨Store.empty fd sysdata, b, b⟩ history pair →
      pair.Step follow SHA512 data (op, reply, reply') next → reply = reply' := by
  intro claim
  have visible : ¬ reserved (CString.lit "/a") := by decide
  have fits := Store.empty_fits (3 : ℕ) fun _ => 0
  have allowed : (Syscall.open_ (CString.lit "/a") ⟨true, true, false⟩ 420).Allowed
      (fun _ path => path) firstMount := ⟨rfl, 0, by decide, by decide⟩
  have create : Pair.Step (fun _ path => path) (fun _ => digestOfA) {pageOfA}
      ⟨.empty (3 : ℕ) fun _ => 0, firstMount, firstMount⟩
      (.create (CString.lit "/a") ⟨true, true, false⟩ 420, .code 0, .code 0)
      ⟨.empty (3 : ℕ) fun _ => 0, firstMount.add (CString.lit "/a").bytes (.empty 420),
        firstMount.add (CString.lit "/a").bytes (.empty 420)⟩ := by
    refine ⟨visible, fun call made => ?_, fits, ⟨some 3, ?_⟩, .sys allowed rfl .ret⟩
    · cases made
    · show Prog.Succeeds _ (Request.opening _ (Handlers.xmp_create _ _ _)) _ _ _
      rw [Handlers.xmp_create, if_neg visible]
      exact .sys allowed rfl .ret
  have unlink : Pair.Step (fun _ path => path) (fun _ => digestOfA) {pageOfA}
      ⟨.empty (3 : ℕ) fun _ => 0, firstMount.add (CString.lit "/a").bytes (.empty 420),
        firstMount.add (CString.lit "/a").bytes (.empty 420)⟩
      (.unlink (CString.lit "/a") (IterOrder.id _), .code (-ENOENT), .code 0)
      ⟨.empty (3 : ℕ) fun _ => 0, firstMount.add (CString.lit "/a").bytes (.empty 420),
        (firstMount.add (CString.lit "/a").bytes (.empty 420)).remove (CString.lit "/a").bytes⟩ := by
    refine ⟨visible, fun call made => ?_, fits, ⟨none, ?_⟩, ?_⟩
    · cases made
      trivial
    · show Prog.Succeeds _ ((Handlers.xmp_unlink _ _ _).map _) _ _ _
      rw [Handlers.xmp_unlink, if_neg visible]
      exact .ret
    · exact .sys ⟨3, Backend.add_entries_self, by decide⟩ rfl .ret
  have same := claim _ _ _ _ _ _ _ _ _ _ _ _ (Set.injOn_singleton _ pageOfA) (fun _ _ _ => rfl)
    (fun _ _ _ _ _ _ => rfl) (Runs.nil.snoc create) unlink
  exact absurd (Reply.code.inj same) (by decide)

end ProjetoTSO.Skeleton
