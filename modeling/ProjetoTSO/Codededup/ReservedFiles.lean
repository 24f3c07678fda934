import ProjetoTSO.Codededup.Handlers

/-!
# The store's own files

`xmp_create`, `xmp_open`, `xmp_unlink`, `xmp_rename` and `xmp_getattr` refuse the paths
of the metadata file and of the backing file; the other handlers that make an entry do
not, and while the metadata file does not exist nothing stops them.  `Harmless` is what
a request has to keep to for the store's own files to stay as they are
(`own_files_untouched`).
-/

namespace ProjetoTSO.Codededup

open ByteStream PathTree Transition

/-! ## Keeping the store's own files -/

/-- `/backend/.sysdata` -/
def sysdataPath : Path := CString.lit "/backend/.sysdata"

/-- `/backend` -/
def backendPath : Path := CString.lit "/backend"

/-- An inode of the store's own files. -/
def Backend.Own (b : Backend) (i : ℕ) : Prop :=
  ∃ path, reserved path ∧ b.entries path.bytes = some i

/-- The directory of the store's own files is there, and the backing file in it. -/
structure Backend.Home (b : Backend) : Prop where
  directory : b.IsDirectory backendPath.bytes
  sysdata : (b.entries sysdataPath.bytes).isSome

/-- The store's own files have no other names. -/
def Backend.Unlinked (b : Backend) : Prop :=
  ∀ name i, b.Own i → b.entries name = some i → ∃ path, reserved path ∧ path.bytes = name

/-- The store's own files are as they were: no entry for them was made, removed or
replaced, none was linked to, and they are unchanged. -/
structure OwnFilesKept (b b' : Backend) : Prop where
  entries : ∀ path, reserved path → b'.entries path.bytes = b.entries path.bytes
  unlinked : b.Unlinked → b'.Unlinked
  inodes : ∀ i, b.Own i → b'.inodes i = b.inodes i
  home : b.Home → b'.Home

namespace OwnFilesKept

variable {b b' b'' : Backend}

theorem refl (b : Backend) : OwnFilesKept b b :=
  ⟨fun _ _ => rfl, id, fun _ _ => rfl, id⟩

theorem own_congr (entries : ∀ path, reserved path → b'.entries path.bytes = b.entries path.bytes)
    {i : ℕ} : b'.Own i ↔ b.Own i := by
  refine exists_congr fun path => and_congr_right fun hidden => ?_
  rw [entries path hidden]

theorem own (kept : OwnFilesKept b b') {i : ℕ} : b'.Own i ↔ b.Own i := own_congr kept.entries

theorem trans (first : OwnFilesKept b b') (second : OwnFilesKept b' b'') : OwnFilesKept b b'' where
  entries path hidden := (second.entries path hidden).trans (first.entries path hidden)
  unlinked before := second.unlinked (first.unlinked before)
  inodes i own := (second.inodes i (first.own.mpr own)).trans (first.inodes i own)
  home there := second.home (first.home there)

end OwnFilesKept

/-! ## What single system calls keep -/

section Effects

variable {b : Backend} {path from_ to_ : Bytes} {i : ℕ}

theorem Backend.Own.allocated (own : b.Own i) : i < b.nextInode := by
  obtain ⟨path, -, found⟩ := own
  exact b.allocated _ _ found

/-- The file `/backend/.sysdata` is below `/backend`. -/
theorem sysdata_under (under : Under slash path backendPath.bytes) :
    Under slash path sysdataPath.bytes := by
  obtain ⟨rest, tail, same⟩ := under_iff.mp under
  have long : sysdataPath.bytes = path ++ (rest ++ (CString.lit "/.sysdata").bytes) := by
    rw [← List.append_assoc, ← same]
    decide
  rw [long]
  refine under_append ?_
  rcases tail with rfl | starts
  · exact Or.inr rfl
  · refine Or.inr ?_
    cases rest with
    | nil => cases starts
    | cons symbol rest => exact starts

theorem untouched_add (visible : ∀ p, reserved p → p.bytes ≠ path) (absent : b.entries path = none)
    (inode : Inode) : OwnFilesKept b (b.add path inode) where
  entries p hidden := Backend.add_entries_ne (visible p hidden)
  unlinked before name i own found := by
    have own := (OwnFilesKept.own_congr fun p hidden => Backend.add_entries_ne (visible p hidden)).mp own
    by_cases here : name = path
    · rw [here, Backend.add_entries_self] at found
      exact absurd own.allocated (by rw [← Option.some.inj found]; exact lt_irrefl _)
    · rw [Backend.add_entries_ne here] at found
      exact before name i own found
  inodes i own := Backend.add_inodes_of_lt own.allocated
  home there := by
    obtain ⟨⟨i, found, kind⟩, some_⟩ := there
    have elsewhere : backendPath.bytes ≠ path := by
      rintro rfl
      rw [absent] at found
      cases found
    refine ⟨⟨i, (Backend.add_entries_ne elsewhere).trans found, ?_⟩, ?_⟩
    · rw [Backend.add_inodes_of_lt (b.allocated _ _ found)]
      exact kind
    · rw [Backend.add_entries_ne (visible sysdataPath (Or.inr rfl))]
      exact some_

theorem untouched_remove (visible : ∀ p, reserved p → p.bytes ≠ path)
    (elsewhere : b.Home → backendPath.bytes ≠ path) : OwnFilesKept b (b.remove path) where
  entries p hidden := Backend.remove_entries_ne (visible p hidden)
  unlinked before name i own found := by
    have own :=
      (OwnFilesKept.own_congr fun p hidden => Backend.remove_entries_ne (visible p hidden)).mp own
    by_cases here : name = path
    · rw [here, Backend.remove_entries_self] at found
      cases found
    · rw [Backend.remove_entries_ne here] at found
      exact before name i own found
  inodes i own := rfl
  home there := by
    obtain ⟨⟨i, found, kind⟩, some_⟩ := there
    refine ⟨⟨i, ?_, kind⟩, ?_⟩
    · exact (Backend.remove_entries_ne (elsewhere ⟨⟨i, found, kind⟩, some_⟩)).trans found
    · rw [Backend.remove_entries_ne (visible sysdataPath (Or.inr rfl))]
      exact some_

theorem untouched_hardlink (visible : ∀ p, reserved p → p.bytes ≠ to_)
    (absent : b.entries to_ = none) (other : ∀ i, b.entries from_ = some i → ¬ b.Own i) :
    OwnFilesKept b (b.hardlink from_ to_) where
  entries p hidden := Backend.hardlink_entries_ne (visible p hidden)
  unlinked before name i own found := by
    have own :=
      (OwnFilesKept.own_congr fun p hidden => Backend.hardlink_entries_ne (visible p hidden)).mp own
    by_cases here : name = to_
    · rw [here, Backend.hardlink_entries_self] at found
      exact absurd own (other i found)
    · rw [Backend.hardlink_entries_ne here] at found
      exact before name i own found
  inodes i own := rfl
  home there := by
    obtain ⟨⟨i, found, kind⟩, some_⟩ := there
    have elsewhere : backendPath.bytes ≠ to_ := by
      rintro rfl
      rw [absent] at found
      cases found
    refine ⟨⟨i, (Backend.hardlink_entries_ne elsewhere).trans found, kind⟩, ?_⟩
    rw [Backend.hardlink_entries_ne (visible sysdataPath (Or.inr rfl))]
    exact some_

theorem untouched_change {change : Inode → Inode} (other : ¬ b.Own i)
    (kind : ∀ inode, (change inode).kind = inode.kind) : OwnFilesKept b (b.change i change) where
  entries p hidden := rfl
  unlinked before := before
  inodes j own := Backend.change_inodes_ne fun same => other (by rwa [← same])
  home there := by
    obtain ⟨⟨j, found, directory⟩, some_⟩ := there
    refine ⟨⟨j, found, ?_⟩, some_⟩
    by_cases here : j = i
    · rw [here, Backend.change_inodes_self, kind, ← here]
      exact directory
    · rw [Backend.change_inodes_ne here]
      exact directory

/-- A rename that does not move the store's own files, nor puts anything in their place. -/
theorem untouched_relocate (apart : ¬ Under slash from_ to_) (apart' : ¬ Under slash to_ from_)
    (childless : b.Childless to_) (visible : ∀ p, reserved p → p.bytes ≠ to_)
    (still : ∀ p, reserved p → Under slash from_ p.bytes → b.entries p.bytes = none)
    (spared : ∀ (p : Path) rest, reserved p → Tail slash rest → p.bytes = to_ ++ rest →
      b.entries (from_ ++ rest) = none) : OwnFilesKept b (b.relocate from_ to_) := by
  have entries : ∀ p : Path, reserved p →
      (b.relocate from_ to_).entries p.bytes = b.entries p.bytes := by
    intro p hidden
    rw [Backend.relocate_entries]
    by_cases below : Under slash to_ p.bytes
    · have before := childless p.bytes below (visible p hidden)
      obtain ⟨rest, tail, same⟩ := under_iff.mp below
      rw [before, same, relocate_moved tail]
      exact spared p rest hidden tail same
    · by_cases moving : Under slash from_ p.bytes
      · obtain ⟨rest, tail, same⟩ := under_iff.mp moving
        rw [still p hidden moving, same]
        exact relocate_gone apart apart' tail
      · exact relocate_other moving below
  refine ⟨entries, fun before name i own found => ?_, fun i own => rfl, fun there => ?_⟩
  · replace own := (OwnFilesKept.own_congr entries).mp own
    rw [Backend.relocate_entries, PathTree.relocate] at found
    split at found
    next moved =>
        obtain ⟨p, hidden, same⟩ := before _ i own found
        obtain ⟨rest, tail, split⟩ := under_iff.mp moved
        rw [split, List.drop_left] at same found
        have gone := still p hidden (same ▸ under_append tail)
        rw [same, found] at gone
        cases gone
    next elsewhere =>
        split at found
        · cases found
        · exact before name i own found
  · obtain ⟨⟨i, found, kind⟩, some_⟩ := there
    have outside : ¬ Under slash from_ backendPath.bytes := fun under => by
      rw [still sysdataPath (Or.inr rfl) (sysdata_under under)] at some_
      cases some_
    have outside' : ¬ Under slash to_ backendPath.bytes := fun under => by
      rw [childless _ (sysdata_under under) (visible _ (Or.inr rfl))] at some_
      cases some_
    refine ⟨⟨i, (relocate_other outside outside').trans found, kind⟩, ?_⟩
    rw [entries sysdataPath (Or.inr rfl)]
    exact some_

end Effects

/-! ## System calls -/

section Syscalls

variable {follow : Backend → Bytes → Bytes} {b b' : Backend}

/-- A system call that, if it succeeds, leaves the store's own files alone. -/
def Syscall.Spares (follow : Backend → Bytes → Bytes) (b : Backend) : Syscall → Prop
  | .open_ path flags _ =>
      (flags.creat → b.entries (opens follow b path flags) = none →
        ∀ p, reserved p → p.bytes ≠ opens follow b path flags) ∧
      (flags.trunc → ∀ i, b.entries (opens follow b path flags) = some i → ¬ b.Own i)
  | .mkdir path _ | .mkfifo path _ | .mknod path _ _ | .symlink _ path =>
      reserved path → (b.entries path.bytes).isSome
  | .link from_ to_ => (reserved to_ → (b.entries to_.bytes).isSome) ∧
      ∀ i, b.entries from_.bytes = some i → ¬ b.Own i
  | .unlink path | .rmdir path => ¬ reserved path
  | .rename from_ to_ => ¬ reserved to_ ∧
      (∀ p, reserved p → Under slash from_.bytes p.bytes → b.entries p.bytes = none) ∧
      ∀ (p : Path) rest, reserved p → Tail slash rest → p.bytes = to_.bytes ++ rest →
        b.entries (from_.bytes ++ rest) = none
  | .chmod path _ | .truncate path _ =>
      ∀ i, b.entries (follow b path.bytes) = some i → ¬ b.Own i
  | .lchown path _ _ => ∀ i, b.entries path.bytes = some i → ¬ b.Own i
  | .ftruncate fd _ | .pwrite fd _ _ => ¬ b.Own fd
  | _ => True

theorem bytes_ne_of_vacant {path : Path} (vacant : b.Vacant path.bytes)
    (spares : reserved path → (b.entries path.bytes).isSome) :
    ∀ p, reserved p → p.bytes ≠ path.bytes := by
  intro p hidden same
  rw [CString.ext same] at hidden
  have some_ := spares hidden
  rw [vacant.1] at some_
  cases some_

theorem bytes_ne_of_visible {path : Path} (visible : ¬ reserved path) :
    ∀ p, reserved p → p.bytes ≠ path.bytes :=
  fun _ hidden same => visible (CString.ext same ▸ hidden)

theorem untouched_changeAt {path : Bytes} {change : Inode → Inode}
    (other : ∀ i, b.entries path = some i → ¬ b.Own i)
    (kind : ∀ inode, (change inode).kind = inode.kind) : OwnFilesKept b (b.changeAt path change) := by
  unfold Backend.changeAt
  cases found : b.entries path with
  | none => exact .refl b
  | some i => exact untouched_change (other i found) kind

/-- **What a system call keeps.** -/
theorem Syscall.untouched {call : Syscall} {out : Outcome} (spares : call.Spares follow b)
    (runs : call.Runs follow b out b') : OwnFilesKept b b' := by
  cases runs with
  | fail errno => exact .refl b
  | done allowed returns =>
      cases call with
      | open_ path flags mode =>
          obtain ⟨creates, truncates⟩ := spares
          cases found : b.entries (opens follow b path flags) with
          | some i =>
              rw [effect_open_of_some found]
              by_cases cut : flags.trunc ∧ (b.inodes i).kind = .regular
              · rw [if_pos cut]
                exact untouched_change (truncates cut.1 i found) fun _ => rfl
              · rw [if_neg cut]
                exact .refl b
          | none =>
              rw [effect_open_of_none found]
              exact untouched_add (creates (creat_of_allowed found allowed) found) found _
      | mkdir path mode => exact untouched_add (bytes_ne_of_vacant allowed spares) allowed.1 _
      | mkfifo path mode => exact untouched_add (bytes_ne_of_vacant allowed spares) allowed.1 _
      | mknod path format mode =>
          exact untouched_add (bytes_ne_of_vacant allowed.2 spares) allowed.2.1 _
      | symlink target path => exact untouched_add (bytes_ne_of_vacant allowed spares) allowed.1 _
      | link from_ to_ =>
          exact untouched_hardlink (bytes_ne_of_vacant allowed.2 spares.1) allowed.2.1 spares.2
      | unlink path =>
          refine untouched_remove (bytes_ne_of_visible spares) fun home same => ?_
          obtain ⟨i, found, file⟩ := allowed
          obtain ⟨j, found', directory⟩ := home.directory
          rw [same, found] at found'
          cases found'
          exact file directory
      | rmdir path =>
          refine untouched_remove (bytes_ne_of_visible spares) fun home same => ?_
          have inside : Under slash path.bytes sysdataPath.bytes :=
            sysdata_under (same ▸ under_refl slash _)
          have empty := allowed.2.2 _ inside (bytes_ne_of_visible spares _ (Or.inr rfl))
          have some_ := home.sysdata
          rw [empty] at some_
          cases some_
      | rename from_ to_ =>
          obtain ⟨visible, still, spared⟩ := spares
          obtain ⟨-, -, -, differ⟩ := allowed
          show OwnFilesKept b (if _ then _ else _)
          by_cases same : b.entries from_.bytes = b.entries to_.bytes
          · rw [if_pos same]
            exact .refl b
          · obtain ⟨apart, apart', -, -, childless⟩ := differ.resolve_left same
            rw [if_neg same]
            exact untouched_relocate apart apart' childless (bytes_ne_of_visible visible) still
              spared
      | chmod path mode => exact untouched_changeAt spares fun _ => rfl
      | lchown path uid gid => exact untouched_changeAt spares fun _ => rfl
      | truncate path size => exact untouched_changeAt spares fun _ => rfl
      | ftruncate fd size => exact untouched_change spares fun _ => rfl
      | pwrite fd buf offset => exact untouched_change spares fun _ => rfl
      | _ => exact .refl b

end Syscalls

/-! ## Handlers -/

section Programs

variable {follow : Backend → Bytes → Bytes} {b b' : Backend} {α β : Type}

/-- Every system call a handler makes leaves the store's own files alone. -/
def Prog.Safe (follow : Backend → Bytes → Bytes) : Prog α → Backend → Prop
  | .ret _, _ => True
  | .sys call next, b => call.Spares follow b ∧
      ∀ out b', call.Runs follow b out b' → (next out).Safe follow b'

theorem Prog.untouched {handler : Prog α} {value : α} (safe : handler.Safe follow b)
    (runs : handler.Runs follow b value b') : OwnFilesKept b b' := by
  induction runs with
  | ret => exact .refl _
  | sys made rest ih =>
      obtain ⟨spares, later⟩ := safe
      exact (Syscall.untouched spares made).trans (ih (later _ _ made))

theorem Prog.Safe.map {handler : Prog α} (f : α → β) (safe : handler.Safe follow b) :
    (handler.map f).Safe follow b := by
  induction handler generalizing b with
  | ret value => trivial
  | sys call next ih => exact ⟨safe.1, fun out b' made => ih out (safe.2 out b' made)⟩

theorem passthrough_safe {call : Syscall} (spares : call.Spares follow b) :
    (Handlers.passthrough call).Safe follow b :=
  ⟨spares, fun _ _ _ => trivial⟩

end Programs

/-! ## Requests -/

/-- What a request has to keep to.  A new entry is not made at a reserved path, unless
there is one already, which makes the handler fail; a rename does not move a directory
with the store's own files, nor put other files in their place; and a handler that works
on a file it is given by name is not given another name of one of the store's own. -/
def Harmless (follow : Backend → Bytes → Bytes) (b : Backend) : Request → Prop
  | .mknod path _ _ | .mkdir path _ | .symlink _ path =>
      reserved path → (b.entries path.bytes).isSome
  | .link from_ to_ => (reserved to_ → (b.entries to_.bytes).isSome) ∧
      ∀ i, b.entries from_.bytes = some i → ¬ b.Own i
  | .rename from_ to_ _ =>
      (∀ p, reserved p → Under slash from_.bytes p.bytes → b.entries p.bytes = none) ∧
      ∀ (p : Path) rest, reserved p → Tail slash rest → p.bytes = to_.bytes ++ rest →
        b.entries (from_.bytes ++ rest) = none
  | .open_ path flags | .create path flags _ =>
      (∀ p, reserved p → p.bytes ≠ Syscall.opens follow b path flags) ∧
      ∀ i, b.entries (Syscall.opens follow b path flags) = some i → ¬ b.Own i
  | .chmod path _ | .truncate path _ none =>
      ∀ i, b.entries (follow b path.bytes) = some i → ¬ b.Own i
  | .chown path _ _ => ∀ i, b.entries path.bytes = some i → ¬ b.Own i
  | _ => True

section Requests

variable {follow : Backend → Bytes → Bytes} {SHA512 : Page → BlockId} {s : Store}
variable {b b' : Backend} {request : Request} {served : Served}

open Handlers

theorem seekIn_safe (fd : ℕ) (off : ℤ) (whence : ℕ) (opened : Bool) :
    (seekIn fd off whence opened).Safe follow b := by
  refine ⟨trivial, fun out b' made => ?_⟩
  cases opened with
  | false => exact trivial
  | true => exact ⟨trivial, fun _ _ _ => trivial⟩

/-- The handler of a harmless request leaves the store's own files alone. -/
theorem serve_safe (seen : ∀ path, request.object = some path → ¬ reserved path)
    (held : ∀ fh, request.handle = some fh → ¬ b.Own fh) (harmless : Harmless follow b request) :
    (request.serve SHA512 s).Safe follow b := by
  cases request with
  | getattr path =>
      refine Prog.Safe.map _ ?_
      unfold Handlers.xmp_getattr
      split
      · trivial
      · exact ⟨trivial, fun _ _ _ => trivial⟩
  | mknod path format mode =>
      refine Prog.Safe.map _ ?_
      cases format with
      | S_IFREG =>
          refine ⟨⟨fun _ absent p hidden same => ?_, nofun⟩, fun out b' made => ?_⟩
          · have some_ := harmless (CString.ext same ▸ hidden)
            rw [show Syscall.opens follow b path ⟨true, true, false⟩ = path.bytes from rfl]
              at absent
            rw [absent] at some_
            cases some_
          · cases out with
            | ok res => exact passthrough_safe trivial
            | fail errno => exact trivial
            | stat st_size st_blocks => exact trivial
            | data bytes => exact trivial
      | S_IFDIR => exact passthrough_safe harmless
      | S_IFLNK => exact passthrough_safe harmless
      | S_IFIFO => exact passthrough_safe harmless
      | other => exact passthrough_safe harmless
  | symlink from_ to_ => exact Prog.Safe.map _ (passthrough_safe harmless)
  | unlink path order =>
      refine Prog.Safe.map _ ?_
      unfold Handlers.xmp_unlink
      split
      · trivial
      · split
        · trivial
        · exact ⟨seen path rfl, fun _ _ _ => trivial⟩
  | rename from_ to_ flags =>
      refine Prog.Safe.map _ ?_
      unfold xmp_rename
      split
      · trivial
      next visible =>
        split
        · trivial
        · exact passthrough_safe ⟨(not_or.mp visible).2, harmless⟩
  | link from_ to_ => exact Prog.Safe.map _ (passthrough_safe harmless)
  | chmod path mode => exact Prog.Safe.map _ (passthrough_safe harmless)
  | mkdir path mode => exact Prog.Safe.map _ (passthrough_safe harmless)
  | rmdir path => exact Prog.Safe.map _ (passthrough_safe (seen path rfl))
  | chown path uid gid => exact Prog.Safe.map _ (passthrough_safe harmless)
  | truncate path size fh =>
      refine Prog.Safe.map _ ?_
      cases fh with
      | none => exact passthrough_safe harmless
      | some fh => exact passthrough_safe (held fh rfl)
  | open_ path flags =>
      refine Prog.Safe.map _ ?_
      unfold xmp_open
      split
      · trivial
      · refine ⟨⟨fun _ _ => harmless.1, fun _ => harmless.2⟩, fun out b' made => ?_⟩
        cases out <;> exact trivial
  | create path flags mode =>
      refine Prog.Safe.map _ ?_
      unfold xmp_create
      split
      · trivial
      · refine ⟨⟨fun _ _ => harmless.1, fun _ => harmless.2⟩, fun out b' made => ?_⟩
        cases out <;> exact trivial
  | lseek path off whence fh =>
      refine Prog.Safe.map _ ?_
      cases fh with
      | some fh => exact seekIn_safe fh off whence false
      | none =>
          refine ⟨⟨nofun, nofun⟩, fun out b' made => ?_⟩
          cases out with
          | ok fd => exact seekIn_safe fd off whence true
          | fail errno => exact trivial
          | stat st_size st_blocks => exact trivial
          | data bytes => exact trivial
  | fsync path isdatasync fh =>
      refine Prog.Safe.map _ ?_
      refine ⟨?_, fun out b' made => by cases out <;> exact trivial⟩
      split <;> trivial
  | release path fh =>
      exact Prog.Safe.map _ ⟨trivial, fun out b' made => by cases out <;> exact trivial⟩
  | read path size offset env => trivial
  | write path buf offset env => trivial
  | access path mask => exact Prog.Safe.map _ (passthrough_safe trivial)
  | readlink path size => exact Prog.Safe.map _ (passthrough_safe trivial)
  | readdir path => exact Prog.Safe.map _ (passthrough_safe trivial)
  | statfs path => exact Prog.Safe.map _ (passthrough_safe trivial)

theorem Prog.Runs.of_map {α β : Type} {f : α → β} {handler : Prog α} {out : β}
    (runs : (handler.map f).Runs follow b out b') :
    ∃ value, out = f value ∧ handler.Runs follow b value b' := by
  induction handler generalizing b with
  | ret value =>
      cases runs
      exact ⟨value, rfl, .ret⟩
  | sys call next ih =>
      cases runs with
      | sys made rest =>
          obtain ⟨value, same, earlier⟩ := ih _ rest
          exact ⟨value, same, .sys made earlier⟩

theorem coded_fh {handler : Prog ℤ}
    (runs : (Request.coded s handler).Runs follow b (some served) b') : served.fh = none := by
  obtain ⟨ret, same, -⟩ := runs.of_map
  cases same
  rfl

/-- A descriptor that `open` returned. -/
theorem other_of_open {path : Path} {flags : OpenFlags} {mode fh : ℕ}
    (other : ∀ i, b.entries (Syscall.opens follow b path flags) = some i → ¬ b.Own i)
    (made : (Syscall.open_ path flags mode).Runs follow b (.ok fh) b') : ¬ b.Own fh := by
  cases made with
  | done allowed returns =>
      replace returns := Outcome.ok.inj returns
      cases found : b.entries (Syscall.opens follow b path flags) with
      | some i =>
          rw [found] at returns
          rw [returns]
          exact other i found
      | none =>
          rw [found] at returns
          rw [returns]
          exact fun own => absurd own.allocated (lt_irrefl _)

/-- The common text of `xmp_open` and `xmp_create`. -/
theorem guarded_open {path : Path} {flags : OpenFlags} {mode fh : ℕ} {out : ℤ × Option ℕ}
    (runs : Prog.Runs follow (if reserved path then .ret (-EACCES, none)
      else .sys (.open_ path flags mode) fun
        | .ok res => .ret (0, some res)
        | out => .ret (out.status, none)) b out b')
    (given : out.2 = some fh) : (Syscall.open_ path flags mode).Runs follow b (.ok fh) b' := by
  split at runs
  · cases runs
    cases given
  · cases runs with
    | @sys _ _ answer _ _ _ _ made rest =>
        cases answer with
        | ok res =>
            cases rest
            cases given
            exact made
        | fail errno =>
            cases rest
            cases given
        | stat st_size st_blocks =>
            cases rest
            cases given
        | data bytes =>
            cases rest
            cases given

/-- A request does not hand out a descriptor of the store's own files. -/
theorem serve_fh (harmless : Harmless follow b request)
    (runs : (request.serve SHA512 s).Runs follow b (some served) b') {fh : ℕ}
    (given : served.fh = some fh) : ¬ b.Own fh := by
  have none_ : served.fh = none → ¬ b.Own fh := fun nothing => by
    rw [nothing] at given
    cases given
  cases request with
  | open_ path flags =>
      obtain ⟨out, same, inner⟩ := runs.of_map
      cases same
      exact other_of_open harmless.2 (guarded_open inner given)
  | create path flags mode =>
      obtain ⟨out, same, inner⟩ := runs.of_map
      cases same
      exact other_of_open harmless.2 (guarded_open inner given)
  | getattr path =>
      obtain ⟨stbuf, same, -⟩ := runs.of_map
      cases same
      cases given
  | unlink path order =>
      obtain ⟨out, same, -⟩ := runs.of_map
      obtain ⟨value, -, same⟩ := Option.map_eq_some_iff.mp same.symm
      cases same
      cases given
  | read path size offset env =>
      generalize value : some served = out at runs
      cases runs
      obtain ⟨value, -, same⟩ := Option.map_eq_some_iff.mp value.symm
      cases same
      cases given
  | write path buf offset env =>
      generalize value : some served = out at runs
      cases runs
      obtain ⟨value, -, same⟩ := Option.map_eq_some_iff.mp value.symm
      cases same
      cases given
  | _ => exact none_ (coded_fh runs)

end Requests

/-! ## Sessions -/

section Sessions

variable {follow : Backend → Bytes → Bytes} {SHA512 : Page → BlockId} {m m' : Mount}
variable {request : Request} {requests : List Request}

/-- No descriptor of the store's own files is open. -/
def Mount.Shut (m : Mount) : Prop := ∀ fh ∈ m.opened, ¬ m.backend.Own fh

theorem mem_keepOpen {fh : ℕ} (member : fh ∈ request.keepOpen m.opened) : fh ∈ m.opened := by
  cases request with
  | release path closed => exact List.mem_of_mem_erase member
  | _ => exact member

/-- What `xmp_getattr` has found is not one of the store's own files. -/
theorem visible_of_seen {path : Path}
    (seen : (xmp_getattr path (m.backend.lstat path) m.store).ret = 0) : ¬ reserved path := by
  intro hidden
  rw [xmp_getattr_hidden hidden] at seen
  exact absurd seen (by decide)

/-- **What a harmless request keeps.** -/
theorem Mount.Step.untouched (step : m.Step follow SHA512 request m')
    (harmless : Harmless follow m.backend request) (shut : m.Shut) :
    OwnFilesKept m.backend m'.backend ∧ m'.Shut := by
  cases step with
  | serve seen held runs =>
      have untouched := Prog.untouched
        (serve_safe (fun path object => visible_of_seen (seen path object))
          (fun fh handle => shut fh (held fh handle)) harmless) runs
      refine ⟨untouched, fun fh member => ?_⟩
      rw [untouched.own]
      rcases List.mem_append.mp member with new | old
      · exact serve_fh harmless runs (Option.mem_toList.mp new)
      · exact shut fh (mem_keepOpen old)

end Sessions

/-! ## A first session -/

/-- The tree when the file system is mounted for the first time. -/
def firstMount : Backend where
  entries path :=
    if path = [slash] then some 0
    else if path = backendPath.bytes then some 1
    else if path = sysdataPath.bytes then some 2
    else none
  inodes i := if i = 2 then .empty 420 else ⟨.directory, 493, 0, 0, [], 0⟩
  nextInode := 3
  allocated path i found := by
    split at found
    · cases found
      decide
    · split at found
      · cases found
        decide
      · split at found
        · cases found
          decide
        · cases found

end ProjetoTSO.Codededup
