import Mathlib.Data.List.Infix

/-!
# Trees keyed by paths

A path is a list of symbols in which a separator starts every component.  A tree gives
each path its node, if it has one.  `Under sep dir path` says that `path` is `dir` or
lies below it, and `relocate` moves everything under one path to another.

* `under_iff` — what lies under a path is the path followed by nothing, or by a separator.
* `under_total` — two paths above a third are above one another.
* `last_component` — a path is split at its last separator in one way only.
* `relocate_moved`, `relocate_gone`, `relocate_other` — the three places a path can be.
-/

universe u v

namespace PathTree

variable {α : Type u} {ν : Type v} {sep : α} {dir path rest source target : List α}
variable {tree : List α → Option ν}

/-- What may follow a directory in a path. -/
def Tail (sep : α) (rest : List α) : Prop := rest = [] ∨ rest.head? = some sep

theorem Tail.left (tail : Tail sep (path ++ rest)) : Tail sep path := by
  cases path with
  | nil => exact Or.inl rfl
  | cons symbol path =>
      rcases tail with empty | starts
      · cases empty
      · exact Or.inr starts

/-- `path` is `dir`, or lies below it. -/
def Under (sep : α) (dir path : List α) : Prop :=
  dir <+: path ∧ Tail sep (path.drop dir.length)

instance [DecidableEq α] (sep : α) (dir path : List α) : Decidable (Under sep dir path) :=
  inferInstanceAs (Decidable (_ ∧ (_ ∨ _)))

theorem under_append (tail : Tail sep rest) : Under sep dir (dir ++ rest) := by
  refine ⟨List.prefix_append dir rest, ?_⟩
  rwa [List.drop_left]

theorem under_iff : Under sep dir path ↔ ∃ rest, Tail sep rest ∧ path = dir ++ rest := by
  constructor
  · rintro ⟨⟨rest, rfl⟩, tail⟩
    rw [List.drop_left] at tail
    exact ⟨rest, tail, rfl⟩
  · rintro ⟨rest, tail, rfl⟩
    exact under_append tail

theorem under_refl (sep : α) (dir : List α) : Under sep dir dir := by
  have here : Under sep dir (dir ++ []) := under_append (Or.inl rfl)
  rwa [List.append_nil] at here

/-- Of two paths that a third one is under, one is under the other. -/
theorem under_total (first : Under sep source path) (second : Under sep target path) :
    Under sep source target ∨ Under sep target source := by
  obtain ⟨rest, tail, rfl⟩ := under_iff.mp first
  obtain ⟨rest', tail', same⟩ := under_iff.mp second
  rcases List.append_eq_append_iff.mp same with ⟨more, rfl, rfl⟩ | ⟨more, rfl, rfl⟩
  · exact Or.inl (under_append tail.left)
  · exact Or.inr (under_append tail'.left)

/-- A path is split at its last separator in one way only. -/
theorem last_component {dir dir' name name' : List α} (plain : sep ∉ name) (plain' : sep ∉ name')
    (same : dir ++ sep :: name = dir' ++ sep :: name') : dir = dir' ∧ name = name' := by
  induction dir generalizing dir' with
  | nil =>
      cases dir' with
      | nil => exact ⟨rfl, (List.cons.inj same).2⟩
      | cons symbol dir' =>
          rw [(List.cons.inj same).2] at plain
          exact absurd (List.mem_append_right _ List.mem_cons_self) plain
  | cons symbol dir ih =>
      cases dir' with
      | nil =>
          rw [← (List.cons.inj same).2] at plain'
          exact absurd (List.mem_append_right _ List.mem_cons_self) plain'
      | cons symbol' dir' =>
          obtain ⟨rfl, rest⟩ := List.cons.inj same
          obtain ⟨rfl, rfl⟩ := ih rest
          exact ⟨rfl, rfl⟩

section Relocate

variable [DecidableEq α]

/-- Everything under `source` is moved to `target`; what was under `target` is gone. -/
def relocate (sep : α) (source target : List α) (tree : List α → Option ν) :
    List α → Option ν := fun path =>
  if Under sep target path then tree (source ++ path.drop target.length)
  else if Under sep source path then none
  else tree path

theorem relocate_moved (tail : Tail sep rest) :
    relocate sep source target tree (target ++ rest) = tree (source ++ rest) := by
  rw [relocate, if_pos (under_append tail), List.drop_left]

theorem relocate_target : relocate sep source target tree target = tree source := by
  have moved : relocate sep source target tree (target ++ []) = tree (source ++ []) :=
    relocate_moved (Or.inl rfl)
  rwa [List.append_nil, List.append_nil] at moved

theorem relocate_gone (apart : ¬ Under sep source target) (apart' : ¬ Under sep target source)
    (tail : Tail sep rest) : relocate sep source target tree (source ++ rest) = none := by
  have inside : Under sep source (source ++ rest) := under_append tail
  have outside : ¬ Under sep target (source ++ rest) := fun under =>
    (under_total inside under).elim apart apart'
  rw [relocate, if_neg outside, if_pos inside]

theorem relocate_other (outside : ¬ Under sep source path) (outside' : ¬ Under sep target path) :
    relocate sep source target tree path = tree path := by
  rw [relocate, if_neg outside', if_neg outside]

end Relocate

end PathTree
