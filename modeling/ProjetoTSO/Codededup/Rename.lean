import ProjetoTSO.Codededup.Counts
import ProjetoTSO.Codededup.Handlers

/-!
# Renaming

The content of a file is found by its path in `fileIndex`, and `xmp_rename` moves only
the placeholder.  So a rename carries the data if and only if there is none to carry:
no path in `fileIndex` is under either of the two names (`rename_carries_iff`).
-/

namespace ProjetoTSO.Codededup

open ByteStream PathTree Transition
open Handlers (xmp_rename xmp_create)

/-! ## The backend -/

section Backend

variable {b b' : Backend} {follow : Backend → Bytes → Bytes} {path from_ to_ : Path}

/-- A rename that returns 0 has been made, and was allowed. -/
theorem xmp_rename_runs (runs : (xmp_rename from_ to_ 0).Runs follow b 0 b') :
    ¬ reserved from_ ∧ ¬ reserved to_ ∧ (Syscall.rename from_ to_).Allowed follow b ∧
      b' = (Syscall.rename from_ to_).effect follow b := by
  unfold xmp_rename at runs
  split at runs
  next guarded => cases runs
  next visible =>
    rw [if_neg (by decide)] at runs
    obtain ⟨source, dest⟩ := not_or.mp visible
    generalize value : (0 : ℤ) = ret at runs
    cases runs with
    | sys made rest =>
        cases made with
        | fail errno =>
            cases rest
            have positive := errno.pos
            simp only [Outcome.status] at value
            omega
        | done allowed returns =>
            cases rest
            exact ⟨source, dest, allowed, rfl⟩

/-- Two names of one file are left as they are; everything else moves. -/
theorem rename_relocates (allowed : (Syscall.rename from_ to_).Allowed follow b)
    (differ : b.entries from_.bytes ≠ b.entries to_.bytes) :
    ¬ Under slash from_.bytes to_.bytes ∧ ¬ Under slash to_.bytes from_.bytes ∧
      (Syscall.rename from_ to_).effect follow b = b.relocate from_.bytes to_.bytes := by
  obtain ⟨-, -, -, same | ⟨apart, apart', -⟩⟩ := allowed
  · exact absurd same differ
  · exact ⟨apart, apart', if_neg differ⟩

/-- A file that was not there is created empty. -/
theorem xmp_create_fresh {flags : OpenFlags} {mode fh : ℕ}
    (stays : ∀ (b : Backend) path, (∀ i, b.entries path = some i → (b.inodes i).kind ≠ .symlink) →
      follow b path = path) (absent : b.entries path.bytes = none)
    (runs : (xmp_create path flags mode).Runs follow b (0, some fh) b') :
    ¬ reserved path ∧ b' = b.add path.bytes (.empty mode) := by
  unfold xmp_create at runs
  split at runs
  next hidden =>
      generalize value : ((0 : ℤ), some fh) = out at runs
      cases runs
      cases value
  next visible =>
    refine ⟨visible, ?_⟩
    have notLink : ∀ i, b.entries path.bytes = some i → (b.inodes i).kind ≠ .symlink := by
      intro i found
      rw [absent] at found
      cases found
    have opens : Syscall.opens follow b path flags = path.bytes := by
      rw [Syscall.opens, stays b path.bytes notLink, ite_self]
    generalize value : ((0 : ℤ), some fh) = result at runs
    cases runs with
    | sys made rest =>
        cases made with
        | fail errno =>
            cases rest
            cases congrArg Prod.snd value
        | done allowed returns =>
            rw [Syscall.Returns, opens, absent] at returns
            rw [returns] at rest
            cases rest
            rw [Syscall.effect, opens, absent]

end Backend

/-! ## A path without an entry in `fileIndex` -/

section Unwritten

variable {s : Store} {path : Path} {b : Backend}

theorem xmp_read_unwritten (absent : s.fileIndex.lookup path = none) (size : ℕ) (offset : ℤ)
    (env : ReadEnv) : xmp_read path size offset env s =
      if size % 4096 ≠ 0 then some (-EINVAL, []) else some (-ENOENT, []) := by
  rw [xmp_read, absent]

/-- Reading nothing at the end of a file that has an entry succeeds. -/
theorem xmp_read_written {f : FileRef} (found : s.fileIndex.lookup path = some f)
    (env : ReadEnv) : xmp_read path 0 (s.files f).logicalSize env s = some (0, []) := by
  rw [xmp_read, if_neg (by decide), found]
  exact if_pos le_rfl

end Unwritten

/-! ## What a rename should do -/

/-- A rename carries the data: what was at and below `from_` is read and found at and
below `to_`, and not where it was any more; a file created at `from_` is new; the blocks
of a file that was at `to_` are released as `xmp_unlink` does it; the rest is unchanged. -/
structure CarriesData (follow : Backend → Bytes → Bytes) (from_ to_ : Path) (s : Store)
    (b : Backend) (s' : Store) (b' : Backend) : Prop where
  carried : ∀ rest p p', Tail slash rest → p.bytes = from_.bytes ++ rest →
    p'.bytes = to_.bytes ++ rest →
    (∀ size offset env, xmp_read p' size offset env s' = xmp_read p size offset env s) ∧
      xmp_getattr p' (b'.lstat p') s' = xmp_getattr p (b.lstat p) s
  gone : ∀ p, Under slash from_.bytes p.bytes →
    (xmp_getattr p (b'.lstat p) s').ret = -ENOENT ∧
      ∀ offset env, xmp_read p 0 offset env s' = some (-ENOENT, [])
  renewed : ∀ flags mode fh b'', (xmp_create from_ flags mode).Runs follow b' (0, some fh) b'' →
    (xmp_getattr from_ (b''.lstat from_) s').st_size = 0 ∧
      ∀ buf : Bytes, buf.length % 4096 = 0 → Accepted s' from_ buf 0
  released : ∀ f, s.fileIndex.lookup to_ = some f →
    ∃ order t, xmp_unlink to_ .ok order s = some (0, t) ∧ s'.freeList = t.freeList ∧
      ∀ hash, s'.counterOf hash = t.counterOf hash
  others : ∀ p, ¬ Under slash from_.bytes p.bytes → ¬ Under slash to_.bytes p.bytes →
    (∀ size offset env, xmp_read p size offset env s' = xmp_read p size offset env s) ∧
      xmp_getattr p (b'.lstat p) s' = xmp_getattr p (b.lstat p) s

section Rename

variable {follow : Backend → Bytes → Bytes} {from_ to_ : Path} {s : Store} {b b' : Backend}

/-- What the names of the store's own files have in common at their ends is not a tail. -/
theorem common_tail {p p' : Path} (hidden : reserved p) (hidden' : reserved p') (differ : p ≠ p')
    {rest : Bytes} (tail : Tail slash rest) (first : rest <:+ p.bytes)
    (second : rest <:+ p'.bytes) : rest = [] := by
  have apart : ∀ rest ∈ (CString.lit "/backend/.metadata").bytes.tails,
      rest ∈ (CString.lit "/backend/.sysdata").bytes.tails → rest.head? ≠ some slash := by
    decide
  rcases tail with empty | starts
  · exact empty
  · exfalso
    rcases hidden with rfl | rfl <;> rcases hidden' with rfl | rfl
    · exact differ rfl
    · exact apart rest ((List.mem_tails _ _).mpr first) ((List.mem_tails _ _).mpr second) starts
    · exact apart rest ((List.mem_tails _ _).mpr second) ((List.mem_tails _ _).mpr first) starts
    · exact differ rfl

/-- **When a rename carries the data.**  It does if and only if `from_` and `to_` are not
two names of one file, `fileIndex` has no path at or below either of them, and neither
does a reserved file move nor a file to a reserved path. -/
theorem rename_carries_iff
    (stays : ∀ (b : Backend) path, (∀ i, b.entries path = some i → (b.inodes i).kind ≠ .symlink) →
      follow b path = path)
    (runs : (xmp_rename from_ to_ 0).Runs follow b 0 b') :
    CarriesData follow from_ to_ s b s b' ↔
      b.entries from_.bytes ≠ b.entries to_.bytes ∧
      (∀ p : Path, Under slash from_.bytes p.bytes ∨ Under slash to_.bytes p.bytes →
        s.fileIndex.lookup p = none) ∧
      ∀ rest (p p' : Path), Tail slash rest → p.bytes = from_.bytes ++ rest →
        p'.bytes = to_.bytes ++ rest → (b.entries p.bytes).isSome →
        ¬ reserved p ∧ ¬ reserved p' := by
  obtain ⟨source, dest, allowed, rfl⟩ := xmp_rename_runs runs
  constructor
  · intro carries
    have unread : ∀ p : Path, Under slash from_.bytes p.bytes → s.fileIndex.lookup p = none := by
      intro p under
      by_contra found
      obtain ⟨f, found⟩ := Option.ne_none_iff_exists'.mp found
      have read := (carries.gone p under).2 (s.files f).logicalSize ⟨fun _ => true, fun _ =>
        .fail 1⟩
      rw [xmp_read_written found] at read
      exact absurd (congrArg Prod.fst (Option.some.inj read)) (by decide)
    have differ : b.entries from_.bytes ≠ b.entries to_.bytes := by
      intro same
      obtain ⟨i, found⟩ := Option.isSome_iff_exists.mp allowed.2.2.1
      have gone := (carries.gone from_ (under_refl _ _)).1
      rw [show (Syscall.rename from_ to_).effect follow b = b from if_pos same,
        xmp_getattr_present source found, overrideStat_ret] at gone
      exact absurd gone (by decide)
    obtain ⟨-, -, moved⟩ := rename_relocates allowed differ
    rw [moved] at carries
    refine ⟨differ, fun p under => ?_, fun rest p p' tail first second found => ?_⟩
    · refine under.elim (unread p) fun below => ?_
      obtain ⟨rest, tail, same⟩ := under_iff.mp below
      have nulFree : (0 : UInt8) ∉ from_.bytes ++ rest := fun member =>
        (List.mem_append.mp member).elim from_.nulFree fun later =>
          p.nulFree (same ▸ List.mem_append_right _ later)
      have origin := unread ⟨from_.bytes ++ rest, nulFree⟩ (under_append tail)
      by_contra found
      obtain ⟨f, found⟩ := Option.ne_none_iff_exists'.mp found
      have read := (carries.carried rest ⟨_, nulFree⟩ p tail rfl same).1 0 (s.files f).logicalSize
        ⟨fun _ => true, fun _ => .fail 1⟩
      rw [xmp_read_written found, xmp_read_unwritten origin] at read
      exact absurd (congrArg Prod.fst (Option.some.inj read)) (by decide)
    · obtain ⟨i, found⟩ := Option.isSome_iff_exists.mp found
      have found' : (b.relocate from_.bytes to_.bytes).entries p'.bytes = some i := by
        rw [second, ← found, first]
        exact relocate_moved tail
      have same := congrArg Stat.ret (carries.carried rest p p' tail first second).2
      by_cases hidden : reserved p <;> by_cases hidden' : reserved p'
      · exfalso
        have apart : p ≠ p' := fun same => differ <| congrArg _ <|
          List.append_cancel_right (first.symm.trans ((congrArg _ same).trans second))
        have empty := common_tail hidden hidden' apart tail ⟨_, first.symm⟩ ⟨_, second.symm⟩
        rw [empty, List.append_nil] at first
        exact source (CString.ext first ▸ hidden)
      · rw [xmp_getattr_hidden hidden, xmp_getattr_present hidden' found', overrideStat_ret] at same
        exact absurd same (by decide)
      · rw [xmp_getattr_hidden hidden', xmp_getattr_present hidden found, overrideStat_ret] at same
        exact absurd same (by decide)
      · exact ⟨hidden, hidden'⟩
  · rintro ⟨differ, unwritten, visible⟩
    obtain ⟨apart, apart', moved⟩ := rename_relocates allowed differ
    rw [moved]
    refine ⟨fun rest p p' tail first second => ⟨fun size offset env => ?_, ?_⟩,
      fun p under => ⟨?_, fun offset env => ?_⟩, fun flags mode fh b'' created => ?_,
      fun f found => ?_, fun p outside outside' => ⟨fun _ _ _ => rfl, ?_⟩⟩
    · rw [xmp_read_unwritten (unwritten p (Or.inl (first ▸ under_append tail))),
        xmp_read_unwritten (unwritten p' (Or.inr (second ▸ under_append tail)))]
    · have same : (b.relocate from_.bytes to_.bytes).entries p'.bytes = b.entries p.bytes := by
        rw [first, second]
        exact relocate_moved tail
      cases found : b.entries p.bytes with
      | none => rw [xmp_getattr_absent found, xmp_getattr_absent (same.trans found)]
      | some i =>
          obtain ⟨hidden, hidden'⟩ := visible rest p p' tail first second (by rw [found]; rfl)
          rw [xmp_getattr_present hidden found, xmp_getattr_present hidden' (same.trans found),
            overrideStat_unwritten (unwritten p (Or.inl (first ▸ under_append tail))),
            overrideStat_unwritten (unwritten p' (Or.inr (second ▸ under_append tail)))]
          rfl
    · obtain ⟨rest, tail, same⟩ := under_iff.mp under
      have gone : (b.relocate from_.bytes to_.bytes).entries p.bytes = none :=
        same ▸ relocate_gone apart apart' tail
      rw [xmp_getattr_absent gone]
    · rw [xmp_read_unwritten (unwritten p (Or.inl under))]
      rfl
    · have absent : (b.relocate from_.bytes to_.bytes).entries from_.bytes = none := by
        have gone : (b.relocate from_.bytes to_.bytes).entries (from_.bytes ++ []) = none :=
          relocate_gone apart apart' (Or.inl rfl)
        rwa [List.append_nil] at gone
      have unindexed := unwritten from_ (Or.inl (under_refl _ _))
      obtain ⟨-, rfl⟩ := xmp_create_fresh stays absent created
      refine ⟨?_, fun buf whole => ⟨whole, ?_⟩⟩
      · rw [xmp_getattr_present source (Function.update_self _ _ _),
          overrideStat_unwritten unindexed]
        show ((Function.update _ _ _ : ℕ → Inode) _).data.length = (0 : ℤ)
        rw [Function.update_self]
        rfl
      · rw [Store.sizeAt, unindexed]
    · rw [unwritten to_ (Or.inr (under_refl _ _))] at found
      cases found
    · have same : (b.relocate from_.bytes to_.bytes).entries p.bytes = b.entries p.bytes :=
        relocate_other outside outside'
      have looked : (b.relocate from_.bytes to_.bytes).lstat p = b.lstat p := by
        rw [Backend.lstat, Backend.lstat, same]
        rfl
      rw [looked]

end Rename

/-! ## A file `/a` -/

/-- A tree in which there is nothing but a file `/a`. -/
def onlyA : Backend where
  entries path :=
    if path = [slash] then some 0 else if path = (CString.lit "/a").bytes then some 1 else none
  inodes i := if i = 0 then ⟨.directory, 0, 0, 0, [], 0⟩ else .empty 0
  nextInode := 2
  allocated path i found := by
    split at found
    · cases found
      decide
    · split at found
      · cases found
        decide
      · cases found

/-- The file `/a` can be renamed to `/b`. -/
theorem onlyA_renames : (xmp_rename (CString.lit "/a") (CString.lit "/b") 0).Runs
    (fun _ path => path) onlyA 0
    (onlyA.relocate (CString.lit "/a").bytes (CString.lit "/b").bytes) := by
  have childless : onlyA.Childless (CString.lit "/b").bytes := by
    intro below under differ
    have notRoot : below ≠ [slash] := by
      rintro rfl
      exact absurd under (by decide)
    have notA : below ≠ (CString.lit "/a").bytes := by
      rintro rfl
      exact absurd under (by decide)
    exact (if_neg notRoot).trans (if_neg notA)
  have allowed : (Syscall.rename (CString.lit "/a") (CString.lit "/b")).Allowed
      (fun _ path => path) onlyA :=
    ⟨by decide, by decide, by decide, Or.inr ⟨by decide, by decide, ⟨0, by decide, by decide⟩,
      fun found => absurd found (by decide), childless⟩⟩
  obtain ⟨-, -, effect⟩ := rename_relocates allowed (by decide)
  have visible : ¬ (reserved (CString.lit "/a") ∨ reserved (CString.lit "/b")) := by decide
  rw [xmp_rename, if_neg visible, if_neg (by decide), ← effect]
  exact .sys (.done allowed rfl) .ret

/-- A file that was never written can be renamed. -/
theorem rename_carries_iff_unwritten :
    CarriesData (fun _ path => path) (CString.lit "/a") (CString.lit "/b")
      (Store.empty 3 fun _ => 0) onlyA (Store.empty 3 fun _ => 0)
      (onlyA.relocate (CString.lit "/a").bytes (CString.lit "/b").bytes) := by
  refine (rename_carries_iff (fun _ _ _ => rfl) onlyA_renames).mpr ⟨by decide, fun _ _ => rfl, ?_⟩
  intro rest p p' tail first second found
  -- only `/a` itself is there
  have root : p.bytes ≠ [slash] := by
    rw [first]
    rintro ⟨⟩
  have here : p.bytes = (CString.lit "/a").bytes := by
    by_contra other
    rw [show onlyA.entries p.bytes = none from (if_neg root).trans (if_neg other)] at found
    cases found
  have nothing : rest = [] := List.append_right_eq_self.mp (first.symm.trans here)
  rw [nothing, List.append_nil] at second
  rw [CString.ext here, CString.ext second]
  exact ⟨by decide, by decide⟩

/-- A file is written and renamed: it is read under its old name and not under the new one. -/
theorem rename_leaves_data :
    ¬ ∀ (SHA512 : Page → BlockId) (data : Set Page) (fd : ℕ) (sysdata : ByteDisk.Disk)
      (history : List Event) (s : Store) (follow : Backend → Bytes → Bytes) (b b' : Backend)
      (from_ to_ : Path), Set.InjOn SHA512 data →
      Runs (Step SHA512 (Undisturbed SHA512 data)) (Store.empty fd sysdata) history s →
      (∀ path, (s.fileIndex.lookup path).isSome →
        ∃ i, b.entries path.bytes = some i ∧ (b.inodes i).kind = .regular) →
      (xmp_rename from_ to_ 0).Runs follow b 0 b' →
      CarriesData follow from_ to_ s b s b' := by
  intro claim
  have run : Runs (Step (fun _ => digestOfA) (Undisturbed (fun _ => digestOfA) {pageOfA}))
      (Store.empty (3 : ℕ) fun _ => 0) _ holdsA :=
    runs_first _ .fine (by decide) rfl rfl (undisturbed_first (Set.mem_singleton pageOfA))
  have found : holdsA.fileIndex.lookup (CString.lit "/a") = some 0 := by decide
  have placeholder : ∀ path, (holdsA.fileIndex.lookup path).isSome →
      ∃ i, onlyA.entries path.bytes = some i ∧ (onlyA.inodes i).kind = .regular := by
    intro path some_
    have here : path = CString.lit "/a" :=
      List.mem_singleton.mp (AList.mem_keys.mp (AList.lookup_isSome.mp some_))
    exact ⟨1, by rw [here]; decide, by decide⟩
  have carries := claim _ _ _ _ _ _ _ _ _ _ _ (Set.injOn_singleton _ pageOfA) run placeholder
    onlyA_renames
  have gone := (carries.gone _ (under_refl slash _)).2 (holdsA.files 0).logicalSize
    ⟨fun _ => true, fun _ => .fail 1⟩
  rw [xmp_read_written found] at gone
  exact absurd (congrArg Prod.fst (Option.some.inj gone)) (by decide)

end ProjetoTSO.Codededup
