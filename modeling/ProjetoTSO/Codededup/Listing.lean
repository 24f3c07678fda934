import ProjetoTSO.Codededup.ReservedFiles

/-!
# Listing a directory

`xmp_readdir` leaves out the entries named `.metadata` and `.sysdata`, in whatever
directory they are; `xmp_getattr` hides two paths.  The two agree on `/backend`, and on a
directory without entries of these names (`listing_agrees_iff`).

## Design notes

The kernel hands a handler paths without `.` and `..`, so these two names of a directory
stream are looked up apart (`Backend.entryAt`).
-/

namespace ProjetoTSO.Codededup

open ByteStream PathTree

/-! ## Names in a directory -/

/-- The path of an entry of a directory. -/
def childPath (dir name : Path) : Path where
  bytes := (if dir.bytes = [slash] then [] else dir.bytes) ++ slash :: name.bytes
  nulFree := by
    have inDir : (0 : UInt8) ∉ if dir.bytes = [slash] then [] else dir.bytes := by
      split_ifs
      · exact List.not_mem_nil
      · exact dir.nulFree
    rw [List.mem_append, List.mem_cons]
    rintro (before | here | after)
    · exact inDir before
    · exact absurd here (by decide)
    · exact name.nulFree after

namespace Backend

variable (b : Backend)

/-- What a name in a directory leads to. -/
def entryAt (dir name : Path) : Option ℕ :=
  if name = CString.lit "." then b.entries dir.bytes
  else if name = CString.lit ".." then b.entries (parent dir.bytes)
  else if name.bytes = [] ∨ slash ∈ name.bytes then none
  else b.entries (childPath dir name).bytes

/-- What `lstat` finds under a name in a directory. -/
def lstatAt (dir name : Path) : LstatOut :=
  match b.entryAt dir name with
  | some i => .ok (b.inodes i).data.length (b.inodes i).st_blocks
  | none => .fail Errno.ENOENT

end Backend

/-! ## `xmp_readdir` -/

/-- `struct dirent`. -/
structure Dirent where
  d_name : CString
  d_ino : ℕ
  d_type : UInt8

/-- A stream that has every entry of the directory. -/
def Backend.Streams (b : Backend) (dir : Path) (stream : List Dirent) : Prop :=
  ∀ name, name ∈ stream.map Dirent.d_name ↔ (b.entryAt dir name).isSome

/-- What the filler is offered: a name, with the fields of `st` that are set. -/
structure Filling where
  name : CString
  st_ino : ℕ
  st_mode : ℕ

/-- The names `xmp_readdir` leaves out. -/
def HiddenName (name : CString) : Prop :=
  name = CString.lit ".metadata" ∨ name = CString.lit ".sysdata"

instance (name : CString) : Decidable (HiddenName name) := inferInstanceAs (Decidable (_ ∨ _))

/-- The loop over the stream.  The filler knows what it was offered so far, and answers
whether there is no room. -/
def fillLoop (filler : List Filling → Filling → Bool) : List Dirent → List Filling → List Filling
  | [], offered => offered
  | de :: stream, offered =>
      if HiddenName de.d_name then fillLoop filler stream offered
      else
        let st : Filling := ⟨de.d_name, de.d_ino, de.d_type.toNat * 2 ^ 12⟩
        if filler offered st then offered ++ [st] else fillLoop filler stream (offered ++ [st])

/-- The value returned, and what the filler was offered. -/
def xmp_readdir (path : Path) (opendir : Path → Except Errno (List Dirent))
    (filler : List Filling → Filling → Bool) : ℤ × List Filling :=
  match opendir path with
  | .error errno => (-(errno : ℤ), [])
  | .ok stream => (0, fillLoop filler stream [])

/-- A filler with room for everything offers all that is not hidden. -/
theorem fillLoop_names {filler : List Filling → Filling → Bool}
    (accepts : ∀ offered st, filler offered st = false) (stream : List Dirent)
    (offered : List Filling) (name : CString) :
    name ∈ (fillLoop filler stream offered).map Filling.name ↔
      name ∈ offered.map Filling.name ∨ name ∈ stream.map Dirent.d_name ∧ ¬ HiddenName name := by
  induction stream generalizing offered with
  | nil => simp [fillLoop]
  | cons de stream ih =>
      rw [fillLoop]
      by_cases hidden : HiddenName de.d_name
      · rw [if_pos hidden, ih, List.map_cons, List.mem_cons]
        refine or_congr_right ⟨fun ⟨later, shown⟩ => ⟨Or.inr later, shown⟩, ?_⟩
        rintro ⟨rfl | later, shown⟩
        · exact absurd hidden shown
        · exact ⟨later, shown⟩
      · rw [if_neg hidden]
        simp only [accepts, Bool.false_eq_true, if_false]
        rw [ih, List.map_append, List.mem_append, List.map_singleton, List.mem_singleton, or_assoc,
          List.map_cons, List.mem_cons]
        refine or_congr_right ⟨?_, ?_⟩
        · rintro (rfl | ⟨later, shown⟩)
          · exact ⟨Or.inl rfl, hidden⟩
          · exact ⟨Or.inr later, shown⟩
        · rintro ⟨rfl | later, shown⟩
          · exact Or.inl rfl
          · exact Or.inr ⟨later, shown⟩

/-! ## The two ways to hide -/

theorem HiddenName.plain {name : CString} (hidden : HiddenName name) : slash ∉ name.bytes := by
  rcases hidden with rfl | rfl
  · decide
  · decide

/-- A reserved path is that of a hidden name in `/backend`. -/
theorem reserved_iff {path : Path} :
    reserved path ↔ ∃ name, HiddenName name ∧ path.bytes = backendPath.bytes ++ slash :: name.bytes := by
  constructor
  · rintro (rfl | rfl)
    · exact ⟨CString.lit ".metadata", Or.inl rfl, by decide⟩
    · exact ⟨CString.lit ".sysdata", Or.inr rfl, by decide⟩
  · rintro ⟨name, rfl | rfl, same⟩
    · refine Or.inl (CString.ext ?_)
      rw [same]
      decide
    · refine Or.inr (CString.ext ?_)
      rw [same]
      decide

/-- In a directory, `xmp_getattr` hides what has a hidden name if it is `/backend`. -/
theorem reserved_childPath {dir name : Path} (plain : slash ∉ name.bytes) :
    reserved (childPath dir name) ↔ dir = backendPath ∧ HiddenName name := by
  have apart : backendPath.bytes ≠ [slash] := by decide
  rw [reserved_iff]
  constructor
  · rintro ⟨name', hidden, same⟩
    obtain ⟨inDir, names⟩ := last_component plain hidden.plain same
    rw [CString.ext names]
    refine ⟨CString.ext ?_, hidden⟩
    split_ifs at inDir with root
    · exact absurd inDir.symm (by decide)
    · exact inDir
  · rintro ⟨rfl, hidden⟩
    refine ⟨name, hidden, ?_⟩
    show (if _ then _ else _) ++ _ = _
    rw [if_neg apart]

namespace Backend

variable {b : Backend} {dir name : Path}

theorem entryAt_plain (found : (b.entryAt dir name).isSome) : slash ∉ name.bytes := by
  unfold entryAt at found
  split_ifs at found with here above bad
  · rw [here]
    decide
  · rw [above]
    decide
  · exact absurd found (by simp)
  · exact fun member => bad (Or.inr member)

/-- A file of a directory is found unless its path is reserved. -/
theorem getattr_found (b : Backend) (dir name : Path) (s : Store) :
    (b.entryAt dir name).isSome ∧
        (xmp_getattr (childPath dir name) (b.lstatAt dir name) s).ret ≠ -ENOENT ↔
      (b.entryAt dir name).isSome ∧ ¬ reserved (childPath dir name) := by
  refine and_congr_right fun found => ?_
  obtain ⟨i, entry⟩ := Option.isSome_iff_exists.mp found
  have lstat : b.lstatAt dir name = .ok (b.inodes i).data.length (b.inodes i).st_blocks := by
    rw [lstatAt, entry]
  by_cases hidden : reserved (childPath dir name)
  · rw [xmp_getattr_hidden hidden]
    exact iff_of_false (fun visible => visible rfl) fun visible => visible hidden
  · refine iff_of_true ?_ hidden
    rw [lstat, xmp_getattr, if_neg hidden]
    show (overrideStat s (childPath dir name) _ _).ret ≠ -ENOENT
    rw [overrideStat_ret]
    decide

end Backend

/-- `xmp_readdir` offers a name, when the filler has room for all. -/
def Offers (dir : Path) (stream : List Dirent) (name : CString) : Prop :=
  name ∈ (xmp_readdir dir (fun _ => .ok stream) fun _ _ => false).2.map Filling.name

theorem offers_iff {b : Backend} {dir : Path} {stream : List Dirent} (streams : b.Streams dir stream)
    (name : CString) :
    Offers dir stream name ↔ (b.entryAt dir name).isSome ∧ ¬ HiddenName name := by
  show name ∈ (fillLoop (fun _ _ => false) stream []).map Filling.name ↔ _
  rw [fillLoop_names (fun _ _ => rfl), streams name]
  simp

/-- **When listing and lookup agree.**  `xmp_readdir` offers the names of the files that
`xmp_getattr` finds if and only if the directory is `/backend`, or has no entry named
`.metadata` or `.sysdata`. -/
theorem listing_agrees_iff {b : Backend} {dir : Path} {stream : List Dirent}
    (streams : b.Streams dir stream) (s : Store) :
    (∀ name, Offers dir stream name ↔ (b.entryAt dir name).isSome ∧
        (xmp_getattr (childPath dir name) (b.lstatAt dir name) s).ret ≠ -ENOENT) ↔
      dir = backendPath ∨ ∀ name, HiddenName name → b.entryAt dir name = none := by
  simp only [offers_iff streams, Backend.getattr_found]
  constructor
  · intro agrees
    by_contra neither
    obtain ⟨elsewhere, some_⟩ := not_or.mp neither
    push Not at some_
    obtain ⟨name, hidden, there⟩ := some_
    have found : (b.entryAt dir name).isSome := Option.isSome_iff_ne_none.mpr there
    refine ((agrees name).mpr ⟨found, fun reserved => ?_⟩).2 hidden
    exact elsewhere ((reserved_childPath hidden.plain).mp reserved).1
  · intro fits name
    refine and_congr_right fun found => not_congr ?_
    rw [reserved_childPath (Backend.entryAt_plain found)]
    refine ⟨fun hidden => ⟨?_, hidden⟩, fun both => both.2⟩
    rcases fits with here | none_
    · exact here
    · rw [none_ name hidden] at found
      cases found

/-- A tree whose root directory has one file in it, named `.metadata`. -/
def dotfile : Backend where
  entries path :=
    if path = [slash] then some 0
    else if path = slash :: (CString.lit ".metadata").bytes then some 1
    else none
  inodes i := if i = 0 then ⟨.directory, 493, 0, 0, [], 0⟩ else .empty 420
  nextInode := 2
  allocated path i found := by
    split_ifs at found with root file
    · cases found
      decide
    · cases found
      decide

/-- What `readdir` returns for the root directory of `dotfile`. -/
def dotfileStream : List Dirent :=
  [⟨CString.lit ".", 0, 4⟩, ⟨CString.lit "..", 0, 4⟩, ⟨CString.lit ".metadata", 1, 8⟩]

theorem dotfile_streams : dotfile.Streams (CString.lit "/") dotfileStream := by
  intro name
  have listed : name ∈ dotfileStream.map Dirent.d_name ↔ name = CString.lit "." ∨
      name = CString.lit ".." ∨ name = CString.lit ".metadata" := by
    simp [dotfileStream]
  rw [listed]
  unfold Backend.entryAt
  by_cases here : name = CString.lit "."
  · exact iff_of_true (Or.inl here) (by rw [if_pos here]; decide)
  by_cases above : name = CString.lit ".."
  · exact iff_of_true (Or.inr (Or.inl above)) (by rw [if_neg here, if_pos above]; decide)
  rw [if_neg here, if_neg above]
  by_cases file : name = CString.lit ".metadata"
  · refine iff_of_true (Or.inr (Or.inr file)) ?_
    rw [file]
    decide
  refine iff_of_false (by simp [here, above, file]) ?_
  have root : (CString.lit "/").bytes = [slash] := by decide
  split_ifs with bad
  · simp
  · have path : (childPath (CString.lit "/") name).bytes = slash :: name.bytes := by
      show (if _ then _ else _) ++ _ = _
      rw [if_pos root, List.nil_append]
    have nonempty : slash :: name.bytes ≠ [slash] := fun same =>
      bad (Or.inl (List.cons.inj same).2)
    have other : slash :: name.bytes ≠ slash :: (CString.lit ".metadata").bytes := fun same =>
      file (CString.ext (List.cons.inj same).2)
    show ¬ (if _ then some 0 else if _ then some 1 else none : Option ℕ).isSome
    rw [path, if_neg nonempty, if_neg other]
    simp

theorem listing_agrees_iff_dotfile :
    (∀ name, Offers (CString.lit "/") dotfileStream name ↔
        (dotfile.entryAt (CString.lit "/") name).isSome ∧
        (xmp_getattr (childPath (CString.lit "/") name) (dotfile.lstatAt (CString.lit "/") name)
          (.empty 3 fun _ => 0)).ret ≠ -ENOENT) ↔
      CString.lit "/" = backendPath ∨
        ∀ name, HiddenName name → dotfile.entryAt (CString.lit "/") name = none :=
  listing_agrees_iff dotfile_streams _

/-- A file `.metadata` outside `/backend` is found and not listed. -/
theorem dotfile_not_listed :
    dotfile.Streams (CString.lit "/") dotfileStream ∧
      ¬ ∀ name, Offers (CString.lit "/") dotfileStream name ↔
        (dotfile.entryAt (CString.lit "/") name).isSome ∧
        (xmp_getattr (childPath (CString.lit "/") name) (dotfile.lstatAt (CString.lit "/") name)
          (.empty 3 fun _ => 0)).ret ≠ -ENOENT := by
  refine ⟨dotfile_streams, fun agrees => ?_⟩
  have hidden : HiddenName (CString.lit ".metadata") := Or.inl rfl
  have visible : ¬ reserved (childPath (CString.lit "/") (CString.lit ".metadata")) := by decide
  have offered := (agrees (CString.lit ".metadata")).mpr
    ((dotfile.getattr_found _ _ _).mpr ⟨by decide, visible⟩)
  exact ((offers_iff dotfile_streams _).mp offered).2 hidden

end ProjetoTSO.Codededup
