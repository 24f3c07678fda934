import Mathlib.Data.List.Basic
import Mathlib.Data.List.DropRight
import Mathlib.Data.List.Infix
import Mathlib.Data.UInt
import Mathlib.Tactic.Common

/-!
# Text

Bytes and characters, lines and words.

* `decode` reads bytes as UTF-8; a text in which byte strings and ASCII parts alternate is
  valid if and only if the byte strings are (`decode_pieces`).
* `readlines` cuts at line breaks, which are `\n`, `\r\n` and a lone `\r`.
* `words` cuts at white space.  Columns padded to a width are read back as long as every
  column but the last leaves room for a blank (`words_columns`).
-/

namespace Text

/-! ## Deciding about the characters of a text

A statement about the members of a list is decided along the list: there is also an instance
that goes through all characters, which no evaluation survives. -/

instance (priority := high) decidableForallMem (P : Char → Prop) [DecidablePred P] (cs : List Char) :
    Decidable (∀ c ∈ cs, P c) := List.decidableBAll P cs

instance (priority := high) decidableExistsMem (P : Char → Prop) [DecidablePred P] (cs : List Char) :
    Decidable (∃ c ∈ cs, P c) := List.decidableBEx P cs

/-! ## UTF-8 -/

def encode (cs : List Char) : List UInt8 := cs.flatMap String.utf8EncodeChar

def decode (bytes : List UInt8) : Option (List Char) :=
  bytes.toByteArray.utf8Decode?.map Array.toList

/-- A character that is one byte. -/
def IsAscii (c : Char) : Prop := c.toNat < 128

instance (c : Char) : Decidable (IsAscii c) := inferInstanceAs (Decidable (_ < _))

/-- The bytes of ASCII characters. -/
def ascii (cs : List Char) : List UInt8 := cs.map fun c => UInt8.ofNat c.toNat

section Utf8

variable {bytes : List UInt8} {cs ds : List Char} {c : Char}

@[simp] theorem encode_nil : encode [] = [] := rfl

theorem encode_append (cs ds : List Char) : encode (cs ++ ds) = encode cs ++ encode ds :=
  List.flatMap_append

theorem encode_cons (c : Char) (cs : List Char) :
    encode (c :: cs) = String.utf8EncodeChar c ++ encode cs := List.flatMap_cons

@[simp] theorem ascii_append (cs ds : List Char) : ascii (cs ++ ds) = ascii cs ++ ascii ds :=
  List.map_append

theorem decode_encode (cs : List Char) : decode (encode cs) = some cs := by
  have bytes : (encode cs).toByteArray = cs.utf8Encode := rfl
  rw [decode, bytes, List.utf8Decode?_utf8Encode]
  rfl

theorem decode_eq_some : decode bytes = some cs ↔ bytes = encode cs := by
  constructor
  · intro decoded
    obtain ⟨chars, found, rfl⟩ := Option.map_eq_some_iff.mp decoded
    have present : bytes.toByteArray.utf8Decode?.isSome := by rw [found]; rfl
    have back := ByteArray.utf8Encode_get_utf8Decode? (h := present)
    simp only [found, Option.get_some] at back
    exact (List.toByteArray_inj.mp back).symm
  · rintro rfl
    exact decode_encode cs

theorem decode_isSome : (decode bytes).isSome ↔ ∃ cs, bytes = encode cs := by
  rw [Option.isSome_iff_exists]
  exact exists_congr fun cs => decode_eq_some

theorem utf8EncodeChar_ascii (small : IsAscii c) :
    String.utf8EncodeChar c = [UInt8.ofNat c.toNat] := by
  have bound : c.val.toNat ≤ 127 := Nat.lt_succ_iff.mp small
  unfold String.utf8EncodeChar
  simp only
  rw [if_pos bound]
  rfl

theorem encode_ascii (small : ∀ c ∈ cs, IsAscii c) : encode cs = ascii cs := by
  induction cs with
  | nil => rfl
  | cons c cs ih =>
      rw [encode_cons, utf8EncodeChar_ascii (small c List.mem_cons_self),
        ih fun d member => small d (List.mem_cons_of_mem _ member)]
      rfl

/-- The bytes of a longer character are not ASCII. -/
theorem eq_singleton_of_small {b : UInt8} (member : b ∈ String.utf8EncodeChar c) (small : b < 128) :
    String.utf8EncodeChar c = [b] := by
  have bound : b.toNat < 128 := UInt8.lt_iff_toNat_lt.mp small
  unfold String.utf8EncodeChar at member ⊢
  simp only at member ⊢
  split_ifs at member ⊢ with one two three
  · rw [List.mem_singleton.mp member]
  all_goals
    exfalso
    simp only [List.mem_cons, List.not_mem_nil, or_false] at member
    rcases member with rfl | rfl | rfl | rfl <;>
      · rw [UInt8.toNat_ofNat'] at bound
        omega

/-- A text is cut at an ASCII byte into two texts. -/
theorem encode_eq_append_cons {left right : List UInt8} {b : UInt8} (small : b < 128)
    (whole : encode cs = left ++ b :: right) :
    ∃ before after, left = encode before ∧ right = encode after := by
  induction cs generalizing left with
  | nil => simp at whole
  | cons c cs ih =>
      rw [encode_cons] at whole
      by_cases inside : left.length < (String.utf8EncodeChar c).length
      · -- the byte is one of the first character's, so it is that character
        have member : b ∈ String.utf8EncodeChar c := by
          have at_ := congrArg (fun l => l[left.length]?) whole
          simp only [List.getElem?_append_left inside, List.getElem?_append_right le_rfl,
            Nat.sub_self, List.getElem?_cons_zero] at at_
          exact List.mem_of_getElem? at_
        have single := eq_singleton_of_small member small
        rw [single] at inside whole
        have empty : left = [] := List.length_eq_zero_iff.mp (Nat.lt_one_iff.mp inside)
        subst empty
        exact ⟨[], cs, rfl, (List.cons.inj whole).2.symm⟩
      · obtain ⟨rest, split⟩ : String.utf8EncodeChar c <+: left :=
          List.prefix_of_prefix_length_le ⟨_, whole⟩ (List.prefix_append _ _) (not_lt.mp inside)
        rw [← split, List.append_assoc] at whole
        obtain ⟨before, after, first, second⟩ := ih (List.append_cancel_left whole)
        exact ⟨c :: before, after, by rw [← split, first, encode_cons], second⟩

/-- What follows and what precedes an ASCII part that is not empty are texts. -/
theorem encode_eq_append_ascii {left right : List UInt8} (part : ds ≠ [])
    (small : ∀ d ∈ ds, IsAscii d) (whole : encode cs = left ++ ascii ds ++ right) :
    ∃ before after, left = encode before ∧ right = encode after := by
  induction ds generalizing left cs with
  | nil => exact absurd rfl part
  | cons d ds ih =>
      have byte : UInt8.ofNat d.toNat < 128 := by
        have bound : d.toNat < 128 := small d List.mem_cons_self
        rw [UInt8.lt_iff_toNat_lt, UInt8.toNat_ofNat']
        show d.toNat % 256 < 128
        omega
      rw [List.append_assoc] at whole
      obtain ⟨before, after, first, second⟩ := encode_eq_append_cons byte whole
      refine ⟨before, ?_⟩
      by_cases last : ds = []
      · subst last
        exact ⟨after, first, second⟩
      · have rest : encode after = [] ++ ascii ds ++ right := second.symm
        obtain ⟨-, after', -, second'⟩ :=
          ih last (fun e member => small e (List.mem_cons_of_mem _ member)) rest
        exact ⟨after', first, second'⟩

/-- **Byte strings between ASCII parts.**  They are texts if the whole is one. -/
theorem decode_pieces (pieces : List (List UInt8 × List Char))
    (parts : ∀ piece ∈ pieces, piece.2 ≠ [] ∧ ∀ d ∈ piece.2, IsAscii d) :
    (decode (pieces.flatMap fun piece => piece.1 ++ ascii piece.2)).isSome ↔
      ∀ piece ∈ pieces, (decode piece.1).isSome := by
  simp only [decode_isSome]
  induction pieces with
  | nil => exact ⟨fun _ piece member => absurd member List.not_mem_nil, fun _ => ⟨[], rfl⟩⟩
  | cons piece pieces ih =>
      have later := ih fun other member => parts other (List.mem_cons_of_mem _ member)
      obtain ⟨nonempty, small⟩ := parts piece List.mem_cons_self
      rw [List.forall_mem_cons, ← later, List.flatMap_cons]
      constructor
      · rintro ⟨cs, whole⟩
        obtain ⟨before, after, first, second⟩ := encode_eq_append_ascii nonempty small whole.symm
        exact ⟨⟨before, first⟩, after, second⟩
      · rintro ⟨⟨before, first⟩, after, second⟩
        refine ⟨before ++ (piece.2 ++ after), ?_⟩
        rw [encode_append, encode_append, encode_ascii small, ← first, ← second,
          List.append_assoc]

/-- The text of which the byte strings are the parts between. -/
theorem decode_flatMap {α : Type} (l : List α) (first second : α → List Char)
    (small : ∀ a ∈ l, ∀ d ∈ second a, IsAscii d) :
    decode (l.flatMap fun a => encode (first a) ++ ascii (second a)) =
      some (l.flatMap fun a => first a ++ second a) := by
  rw [decode_eq_some]
  induction l with
  | nil => rfl
  | cons a l ih =>
      rw [List.flatMap_cons, List.flatMap_cons, encode_append, encode_append,
        encode_ascii (small a List.mem_cons_self),
        ih fun b member => small b (List.mem_cons_of_mem _ member)]

end Utf8

/-! ## Lines -/

/-- The characters that end a line. -/
def IsBreak (c : Char) : Prop := c = '\n' ∨ c = '\r'

instance (c : Char) : Decidable (IsBreak c) := inferInstanceAs (Decidable (_ ∨ _))

/-- The lines of a text, each with `\n` at its end, whatever line break it had; the last
may have none. -/
def readlines : List Char → List (List Char)
  | [] => []
  | '\r' :: '\n' :: rest => ['\n'] :: readlines rest
  | c :: rest =>
      if IsBreak c then ['\n'] :: readlines rest
      else
        match readlines rest with
        | [] => [[c]]
        | line :: lines => (c :: line) :: lines

section Lines

variable {c : Char} {line rest : List Char}

theorem readlines_break (mark : IsBreak c) (apart : c = '\r' → rest.head? ≠ some '\n') :
    readlines (c :: rest) = ['\n'] :: readlines rest := by
  rw [readlines, if_pos mark]
  rintro tail ⟨⟩ rfl
  exact apart rfl rfl

theorem readlines_cons (inner : ¬ IsBreak c) : readlines (c :: rest) =
    match readlines rest with
    | [] => [[c]]
    | line :: lines => (c :: line) :: lines := by
  rw [readlines, if_neg inner]
  rintro tail ⟨⟩
  exact absurd (Or.inr rfl) inner

theorem readlines_ne_nil (nonempty : rest ≠ []) : readlines rest ≠ [] := by
  induction rest using readlines.induct with
  | case1 => exact absurd rfl nonempty
  | case2 rest =>
      rw [readlines]
      exact List.cons_ne_nil _ _
  | case3 c rest apart mark =>
      rw [readlines, if_pos mark]
      · exact List.cons_ne_nil _ _
      · exact apart
  | case4 c rest apart inner lines =>
      rw [readlines_cons inner, lines]
      exact List.cons_ne_nil _ _
  | case5 c rest apart inner line more lines =>
      rw [readlines_cons inner, lines]
      exact List.cons_ne_nil _ _

/-- A text that has no line break is one line. -/
theorem readlines_line (nonempty : line ≠ []) (inner : ∀ c ∈ line, ¬ IsBreak c) :
    readlines line = [line] ∧ readlines (line ++ ['\n']) = [line ++ ['\n']] := by
  induction line with
  | nil => exact absurd rfl nonempty
  | cons c line ih =>
      have first := inner c List.mem_cons_self
      rw [List.cons_append, readlines_cons first, readlines_cons first]
      by_cases last : line = []
      · subst last
        exact ⟨rfl, rfl⟩
      · obtain ⟨bare, ended⟩ := ih last fun d member => inner d (List.mem_cons_of_mem _ member)
        rw [bare, ended]
        exact ⟨rfl, rfl⟩

/-- A line break `\n` separates what is before from what is after. -/
theorem readlines_append (cs rest : List Char) :
    readlines (cs ++ '\n' :: rest) = readlines (cs ++ ['\n']) ++ readlines rest := by
  induction cs using readlines.induct with
  | case1 =>
      have mark : IsBreak '\n' := Or.inl rfl
      have apart : ∀ {l : List Char}, '\n' = '\r' → l.head? ≠ some '\n' := fun same =>
        absurd same (by decide)
      rw [List.nil_append, List.nil_append, readlines_break mark apart, readlines_break mark apart]
      rfl
  | case2 tail ih =>
      rw [List.cons_append, List.cons_append, List.cons_append, List.cons_append, readlines, readlines,
        ih]
      rfl
  | case3 c tail apart mark ih =>
      by_cases pair : c = '\r' ∧ tail = []
      · obtain ⟨rfl, rfl⟩ := pair
        rfl
      · have apart' : ∀ more : List Char, c = '\r' → (tail ++ '\n' :: more).head? ≠ some '\n' := by
          rintro more rfl
          cases tail with
          | nil => exact absurd ⟨rfl, rfl⟩ pair
          | cons d tail =>
              rintro ⟨⟩
              exact apart tail rfl rfl
        rw [List.cons_append, List.cons_append, readlines_break mark (apart' rest),
          readlines_break mark (apart' []), ih]
        rfl
  | case4 c tail apart inner ended ih =>
      rw [List.cons_append, List.cons_append, readlines_cons inner, readlines_cons inner, ih]
      cases lines : readlines (tail ++ ['\n']) with
      | nil => exact absurd lines (readlines_ne_nil (List.append_ne_nil_of_right_ne_nil _ (by simp)))
      | cons line more => rfl
  | case5 c tail apart inner line more ended ih =>
      rw [List.cons_append, List.cons_append, readlines_cons inner, readlines_cons inner, ih]
      cases lines : readlines (tail ++ ['\n']) with
      | nil => exact absurd lines (readlines_ne_nil (List.append_ne_nil_of_right_ne_nil _ (by simp)))
      | cons line more => rfl

/-- Whatever a text is, what is added without a line break goes on its last line. -/
theorem readlines_extend (cs : List Char) : ∃ init last,
    (∀ line ∈ init, line.getLast? = some '\n') ∧
    ∀ more ≠ [], (∀ c ∈ more, ¬ IsBreak c) → readlines (cs ++ more) = init ++ [last ++ more] ∧
      readlines (cs ++ more ++ ['\n']) = init ++ [last ++ more ++ ['\n']] := by
  induction cs using readlines.induct with
  | case1 =>
      refine ⟨[], [], fun line member => absurd member List.not_mem_nil, fun more nonempty inner => ?_⟩
      exact readlines_line nonempty inner
  | case2 tail ih =>
      obtain ⟨init, last, ended, extend⟩ := ih
      refine ⟨['\n'] :: init, last, List.forall_mem_cons.mpr ⟨rfl, ended⟩,
        fun more nonempty inner => ?_⟩
      obtain ⟨bare, closed⟩ := extend more nonempty inner
      simp only [List.cons_append, readlines, bare, closed, and_self]
  | case3 c tail apart mark ih =>
      obtain ⟨init, last, ended, extend⟩ := ih
      refine ⟨['\n'] :: init, last, List.forall_mem_cons.mpr ⟨rfl, ended⟩,
        fun more nonempty inner => ?_⟩
      obtain ⟨bare, closed⟩ := extend more nonempty inner
      have apart' : ∀ more', c = '\r' → (tail ++ more ++ more').head? ≠ some '\n' := by
        rintro more' rfl
        cases tail with
        | nil =>
            cases more with
            | nil => exact absurd rfl nonempty
            | cons d more =>
                rintro ⟨⟩
                exact inner '\n' List.mem_cons_self (Or.inl rfl)
        | cons d tail =>
            rintro ⟨⟩
            exact apart tail rfl rfl
      have first := apart' []
      rw [List.append_nil] at first
      simp only [List.cons_append]
      rw [readlines_break mark first, readlines_break mark (apart' ['\n']), bare, closed]
      exact ⟨rfl, rfl⟩
  | case4 c tail apart inner' nothing ih =>
      obtain ⟨init, last, ended, extend⟩ := ih
      refine ⟨[], c :: tail, fun line member => absurd member List.not_mem_nil,
        fun more nonempty inner => ?_⟩
      have empty : tail = [] := by
        by_contra something
        exact readlines_ne_nil something nothing
      subst empty
      have whole : ∀ d ∈ c :: more, ¬ IsBreak d := List.forall_mem_cons.mpr ⟨inner', inner⟩
      exact readlines_line (List.cons_ne_nil c more) whole
  | case5 c tail apart inner' line more' lines ih =>
      obtain ⟨init, last, ended, extend⟩ := ih
      cases init with
      | nil =>
          refine ⟨[], c :: last, ended, fun more nonempty inner => ?_⟩
          obtain ⟨bare, closed⟩ := extend more nonempty inner
          simp only [List.cons_append]
          rw [readlines_cons inner', readlines_cons inner', bare, closed]
          exact ⟨rfl, rfl⟩
      | cons head init =>
          obtain ⟨first, rest⟩ := List.forall_mem_cons.mp ended
          refine ⟨(c :: head) :: init, last, List.forall_mem_cons.mpr ⟨?_, rest⟩,
            fun more nonempty inner => ?_⟩
          · cases head with
            | nil => cases first
            | cons d head => exact first
          · obtain ⟨bare, closed⟩ := extend more nonempty inner
            simp only [List.cons_append]
            rw [readlines_cons inner', readlines_cons inner', bare, closed]
            exact ⟨rfl, rfl⟩

/-- Parts that end with `\n` are cut into lines one by one. -/
theorem readlines_flatMap {α : Type} (l : List α) (part : α → List Char)
    (ended : ∀ a ∈ l, ∃ body, part a = body ++ ['\n']) (rest : List Char) :
    readlines (l.flatMap part ++ rest) = (l.flatMap fun a => readlines (part a)) ++ readlines rest := by
  induction l with
  | nil => rfl
  | cons a l ih =>
      obtain ⟨body, whole⟩ := ended a List.mem_cons_self
      have cut := readlines_append body (l.flatMap part ++ rest)
      rw [ih fun b member => ended b (List.mem_cons_of_mem _ member)] at cut
      rw [List.flatMap_cons, List.flatMap_cons, whole, List.append_assoc, List.append_assoc,
        List.append_assoc]
      exact cut

end Lines

/-! ## Words -/

/-- The characters Unicode counts as white space, and the four separators before the
blank. -/
def IsSpace (c : Char) : Prop :=
  c.toNat ∈ [9, 10, 11, 12, 13, 28, 29, 30, 31, 32, 133, 160, 5760, 8192, 8193, 8194, 8195, 8196,
    8197, 8198, 8199, 8200, 8201, 8202, 8232, 8233, 8239, 8287, 12288]

instance (c : Char) : Decidable (IsSpace c) := inferInstanceAs (Decidable (_ ∈ _))

/-- A word ends before this text. -/
def EndsWord : List Char → Prop
  | [] => True
  | c :: _ => IsSpace c

instance : (cs : List Char) → Decidable (EndsWord cs)
  | [] => inferInstanceAs (Decidable True)
  | c :: _ => inferInstanceAs (Decidable (IsSpace c))

theorem endsWord_cons {c : Char} (blank : IsSpace c) (rest : List Char) : EndsWord (c :: rest) := blank

/-- The first word gets a character. -/
def glue (c : Char) : List (List Char) → List (List Char)
  | [] => [[c]]
  | w :: ws => (c :: w) :: ws

/-- The words of a text: what is between white space. -/
def words : List Char → List (List Char)
  | [] => []
  | c :: rest =>
      if IsSpace c then words rest
      else if EndsWord rest then [c] :: words rest
      else glue c (words rest)

section Words

variable {c d : Char} {w rest : List Char}

theorem words_space (blank : IsSpace c) : words (c :: rest) = words rest := by
  rw [words, if_pos blank]

theorem words_last (inner : ¬ IsSpace c) (ends : EndsWord rest) :
    words (c :: rest) = [c] :: words rest := by
  rw [words, if_neg inner, if_pos ends]

theorem words_spaces (blank : ∀ c ∈ w, IsSpace c) (rest : List Char) : words (w ++ rest) = words rest := by
  induction w with
  | nil => rfl
  | cons c w ih =>
      rw [List.cons_append, words_space (blank c List.mem_cons_self)]
      exact ih fun d member => blank d (List.mem_cons_of_mem _ member)

theorem words_blank (blank : ∀ c ∈ w, IsSpace c) : words w = [] := by
  have all := words_spaces blank []
  rwa [List.append_nil] at all

theorem words_ne_nil (inner : ¬ IsSpace c) (rest : List Char) : words (c :: rest) ≠ [] := by
  by_cases ends : EndsWord rest
  · rw [words_last inner ends]
    exact List.cons_ne_nil _ _
  · rw [words, if_neg inner, if_neg ends]
    cases words rest <;> exact List.cons_ne_nil _ _

/-- The first character of a word of which there is more. -/
theorem words_cons (inner : ¬ IsSpace c) (next : ¬ IsSpace d) (rest : List Char) :
    ∃ w ws, words (d :: rest) = w :: ws ∧ words (c :: d :: rest) = (c :: w) :: ws := by
  obtain ⟨w, ws, found⟩ := List.exists_cons_of_ne_nil (words_ne_nil next rest)
  refine ⟨w, ws, found, ?_⟩
  have goes : ¬ EndsWord (d :: rest) := next
  rw [words, if_neg inner, if_neg goes, found]
  rfl

/-- A word that white space ends. -/
theorem words_word (nonempty : w ≠ []) (inner : ∀ c ∈ w, ¬ IsSpace c) (blank : IsSpace d) :
    words (w ++ d :: rest) = w :: words rest := by
  induction w with
  | nil => exact absurd rfl nonempty
  | cons c w ih =>
      have first := inner c List.mem_cons_self
      cases w with
      | nil =>
          show words (c :: d :: rest) = _
          rw [words_last first (show EndsWord (d :: rest) from blank), words_space blank]
      | cons e w =>
          have later := ih (List.cons_ne_nil _ _) fun x member =>
            inner x (List.mem_cons_of_mem _ member)
          obtain ⟨v, vs, found, joined⟩ := words_cons first
            (inner e (List.mem_cons_of_mem _ List.mem_cons_self)) (w ++ d :: rest)
          show words (c :: e :: (w ++ d :: rest)) = _
          rw [joined]
          have same : words (e :: (w ++ d :: rest)) = (e :: w) :: words rest := later
          obtain ⟨rfl, rfl⟩ := List.cons.inj (found.symm.trans same)
          rfl

/-- White space separates the words before it from those after. -/
theorem words_append (cs : List Char) (blank : IsSpace d) :
    words (cs ++ d :: rest) = words cs ++ words rest := by
  induction cs with
  | nil => exact words_space blank
  | cons c cs ih =>
      rw [List.cons_append]
      by_cases space : IsSpace c
      · rw [words_space space, words_space space, ih]
      · cases cs with
        | nil =>
            rw [List.nil_append, words_last space (show EndsWord (d :: rest) from blank),
              words_space blank, words_last space (show EndsWord [] from trivial)]
            rfl
        | cons e cs =>
            by_cases ends : IsSpace e
            · rw [words_last space (show EndsWord (e :: cs ++ d :: rest) from ends),
                words_last space (show EndsWord (e :: cs) from ends), ih]
              rfl
            · obtain ⟨w, ws, found, joined⟩ := words_cons space ends cs
              obtain ⟨v, vs, found', joined'⟩ := words_cons space ends (cs ++ d :: rest)
              rw [List.cons_append, joined', joined]
              rw [found, List.cons_append, List.cons_append, found'] at ih
              obtain ⟨rfl, rfl⟩ := List.cons.inj ih
              rfl

/-- White space at the end adds no word. -/
theorem words_append_blank (cs : List Char) (blank : ∀ c ∈ w, IsSpace c) :
    words (cs ++ w) = words cs := by
  cases w with
  | nil => rw [List.append_nil]
  | cons d rest =>
      obtain ⟨first, later⟩ := List.forall_mem_cons.mp blank
      rw [words_append cs first, words_blank later, List.append_nil]

/-- A word put right before another is lost. -/
theorem length_words_glued (inner : ∀ c ∈ w, ¬ IsSpace c) (next : ¬ IsSpace d) :
    (words (w ++ d :: rest)).length = (words (d :: rest)).length := by
  induction w with
  | nil => rfl
  | cons c w ih =>
      have first := inner c List.mem_cons_self
      have later := ih fun x member => inner x (List.mem_cons_of_mem _ member)
      rw [← later]
      cases w with
      | nil =>
          obtain ⟨v, vs, found, joined⟩ := words_cons first next rest
          show (words (c :: d :: rest)).length = (words (d :: rest)).length
          rw [found, joined]
          rfl
      | cons e w =>
          obtain ⟨v, vs, found, joined⟩ := words_cons first
            (inner e (List.mem_cons_of_mem _ List.mem_cons_self)) (w ++ d :: rest)
          show (words (c :: e :: (w ++ d :: rest))).length = (words (e :: (w ++ d :: rest))).length
          rw [found, joined]
          rfl

/-- Words are made of the characters of the text that are not white space. -/
theorem mem_words {cs : List Char} (member : w ∈ words cs) :
    w ≠ [] ∧ ∀ c ∈ w, c ∈ cs ∧ ¬ IsSpace c := by
  induction cs generalizing w with
  | nil => cases member
  | cons c rest ih =>
      by_cases blank : IsSpace c
      · rw [words_space blank] at member
        obtain ⟨nonempty, chars⟩ := ih member
        exact ⟨nonempty, fun d inside => (chars d inside).imp (List.mem_cons_of_mem _) id⟩
      · have single : [c] ≠ [] ∧ ∀ d ∈ [c], d ∈ c :: rest ∧ ¬ IsSpace d := by
          refine ⟨List.cons_ne_nil _ _, fun d inside => ?_⟩
          rw [List.mem_singleton.mp inside]
          exact ⟨List.mem_cons_self, blank⟩
        have later : ∀ v ∈ words rest, v ≠ [] ∧ ∀ d ∈ v, d ∈ c :: rest ∧ ¬ IsSpace d := by
          intro v inside
          obtain ⟨nonempty, chars⟩ := ih inside
          exact ⟨nonempty, fun d inside' => (chars d inside').imp (List.mem_cons_of_mem _) id⟩
        by_cases ends : EndsWord rest
        · rw [words_last blank ends] at member
          rcases List.mem_cons.mp member with rfl | member
          · exact single
          · exact later w member
        · rw [words, if_neg blank, if_neg ends] at member
          cases found : words rest with
          | nil =>
              rw [found] at member
              rw [List.mem_singleton.mp member]
              exact single
          | cons v vs =>
              rw [found] at member later
              rcases List.mem_cons.mp member with rfl | member
              · refine ⟨List.cons_ne_nil _ _, fun e inside => ?_⟩
                rcases List.mem_cons.mp inside with rfl | inside
                · exact ⟨List.mem_cons_self, blank⟩
                · exact (later v List.mem_cons_self).2 e inside
              · exact later w (List.mem_cons_of_mem _ member)

/-! ## Columns -/

/-- `printf("%-*s", width, cs)`. -/
def padTo (width : ℕ) (cs : List Char) : List Char :=
  cs ++ List.replicate (width - cs.length) ' '

/-- The columns of a line of a table. -/
def columns (width : ℕ) (cells : List (List Char)) : List Char :=
  cells.flatMap (padTo width) ++ ['\n']

/-- A word without white space, which is not empty. -/
def IsWord (w : List Char) : Prop := w ≠ [] ∧ ∀ c ∈ w, ¬ IsSpace c

variable {width : ℕ} {cells : List (List Char)}

theorem columns_cons (cell : List Char) (cells : List (List Char)) :
    columns width (cell :: cells) = padTo width cell ++ columns width cells := by
  rw [columns, columns, List.flatMap_cons, List.append_assoc]

theorem isSpace_blank : IsSpace ' ' := by decide

theorem isSpace_newline : IsSpace '\n' := by decide

/-- A column that leaves room for a blank is a word of the line. -/
theorem words_padTo {cell : List Char} (word : IsWord cell) (short : cell.length < width) :
    words (padTo width cell ++ rest) = cell :: words rest := by
  obtain ⟨k, room⟩ : ∃ k, width - cell.length = k + 1 :=
    Nat.exists_eq_succ_of_ne_zero (by omega)
  rw [padTo, room, List.replicate_succ, List.append_assoc, List.cons_append,
    words_word word.1 word.2 isSpace_blank, words_spaces]
  intro c member
  rw [List.eq_of_mem_replicate member]
  exact isSpace_blank

/-- A word at whose end there is white space, or nothing. -/
theorem words_ends (word : IsWord w) (ends : EndsWord rest) : words (w ++ rest) = w :: words rest := by
  cases rest with
  | nil =>
      have ended : words (w ++ [' ']) = w :: words [] := words_word word.1 word.2 isSpace_blank
      have blank : ∀ c ∈ [' '], IsSpace c := List.forall_mem_singleton.mpr isSpace_blank
      rw [words_append_blank w blank] at ended
      rwa [List.append_nil]
  | cons d rest => rw [words_word word.1 word.2 ends, words_space ends]

/-- A column of any length, if there is white space behind it. -/
theorem words_padTo_ends (word : IsWord w) (ends : EndsWord rest) :
    words (padTo width w ++ rest) = w :: words rest := by
  have blank : ∀ c ∈ List.replicate (width - w.length) ' ', IsSpace c := by
    intro c member
    rw [List.eq_of_mem_replicate member]
    exact isSpace_blank
  have ends' : EndsWord (List.replicate (width - w.length) ' ' ++ rest) := by
    cases room : width - w.length with
    | zero => exact ends
    | succ k => exact isSpace_blank
  rw [padTo, List.append_assoc, words_ends word ends', words_spaces blank]

/-- A line with columns has words. -/
theorem words_columns_ne_nil (some_ : cells ≠ []) (all : ∀ cell ∈ cells, IsWord cell) :
    words (columns width cells) ≠ [] := by
  obtain ⟨cell, cells, rfl⟩ := List.exists_cons_of_ne_nil some_
  obtain ⟨nonempty, inner⟩ := all cell List.mem_cons_self
  obtain ⟨c, rest, rfl⟩ := List.exists_cons_of_ne_nil nonempty
  rw [columns_cons]
  exact words_ne_nil (inner c List.mem_cons_self) _

/-- **Columns are read back** if all but the last leave room for a blank. -/
theorem words_columns (all : ∀ cell ∈ cells, IsWord cell)
    (short : ∀ cell ∈ cells.dropLast, cell.length < width) :
    words (columns width cells) = cells := by
  induction cells with
  | nil =>
      refine words_blank (w := ['\n']) fun c member => ?_
      rw [List.mem_singleton.mp member]
      exact isSpace_newline
  | cons cell cells ih =>
      have word := all cell List.mem_cons_self
      have later := fun other member => all other (List.mem_cons_of_mem _ member)
      rw [columns_cons]
      cases cells with
      | nil =>
          by_cases room : cell.length < width
          · rw [words_padTo word room, ih later fun _ member => absurd member List.not_mem_nil]
          · have full : width - cell.length = 0 := by omega
            rw [padTo, full, List.replicate_zero, List.append_nil, columns, List.flatMap_nil,
              List.nil_append, words_word word.1 word.2 isSpace_newline]
            rfl
      | cons next cells =>
          rw [List.dropLast_cons_cons, List.forall_mem_cons] at short
          rw [words_padTo word short.1, ih later short.2]

/-- Otherwise some are missing. -/
theorem short_of_length_words (width : ℕ) (all : ∀ cell ∈ cells, IsWord cell) :
    (words (columns width cells)).length ≤ cells.length ∧
      ((words (columns width cells)).length = cells.length →
        ∀ cell ∈ cells.dropLast, cell.length < width) := by
  induction cells with
  | nil =>
      rw [words_columns all fun _ member => absurd member List.not_mem_nil]
      exact ⟨le_rfl, fun _ _ member => absurd member List.not_mem_nil⟩
  | cons cell cells ih =>
      have word := all cell List.mem_cons_self
      obtain ⟨bound, complete⟩ := ih fun other member => all other (List.mem_cons_of_mem _ member)
      cases cells with
      | nil =>
          rw [words_columns all fun _ member => absurd member List.not_mem_nil]
          exact ⟨le_rfl, fun _ _ member => absurd member List.not_mem_nil⟩
      | cons next cells =>
          rw [columns_cons]
          by_cases room : cell.length < width
          · rw [words_padTo word room, List.length_cons, List.length_cons, List.dropLast_cons_cons,
              List.forall_mem_cons]
            exact ⟨Nat.succ_le_succ bound, fun equal => ⟨room, complete (Nat.succ.inj equal)⟩⟩
          · -- the column runs into the next one
            have full : width - cell.length = 0 := by omega
            have nextWord := all next (List.mem_cons_of_mem _ List.mem_cons_self)
            obtain ⟨d, rest, starts⟩ : ∃ d rest, columns width (next :: cells) = d :: rest ∧
                ¬ IsSpace d := by
              obtain ⟨nonempty, inner⟩ := nextWord
              obtain ⟨d, rest, rfl⟩ := List.exists_cons_of_ne_nil nonempty
              rw [columns_cons]
              exact ⟨d, _, rfl, inner d List.mem_cons_self⟩
            have glued : (words (padTo width cell ++ columns width (next :: cells))).length =
                (words (columns width (next :: cells))).length := by
              rw [padTo, full, List.replicate_zero, List.append_nil, starts.1]
              exact length_words_glued word.2 starts.2
            rw [glued, List.length_cons]
            exact ⟨bound.trans (Nat.le_succ _), fun equal => absurd equal (by omega)⟩

/-! ## Parts of words -/

/-- `str.strip`. -/
def strip (cs : List Char) : List Char :=
  (cs.dropWhile (IsSpace ·)).rdropWhile (IsSpace ·)

theorem words_strip (cs : List Char) : words (strip cs) = words cs := by
  have behind : words (strip cs) = words (cs.dropWhile (IsSpace ·)) := by
    have whole := List.rdropWhile_append_rtakeWhile (p := (IsSpace ·))
      (l := cs.dropWhile (IsSpace ·))
    conv_rhs => rw [← whole]
    refine (words_append_blank _ fun c member => ?_).symm
    exact of_decide_eq_true (List.mem_rtakeWhile_imp (p := (IsSpace ·)) member)
  have blank : ∀ c ∈ cs.takeWhile (IsSpace ·), IsSpace c := fun c member =>
    of_decide_eq_true (List.mem_takeWhile_imp (p := (IsSpace ·)) member)
  rw [behind, ← words_spaces blank, List.takeWhile_append_dropWhile]

/-- A text that is stripped does not start with white space. -/
theorem strip_cons {c : Char} {rest cs : List Char} (stripped : strip cs = c :: rest) :
    ¬ IsSpace c := by
  obtain ⟨more, whole⟩ := List.rdropWhile_prefix (IsSpace ·) (l := cs.dropWhile (IsSpace ·))
  have first : (cs.dropWhile (IsSpace ·)).head? = some c := by
    rw [← whole]
    show (strip cs ++ more).head? = _
    rw [stripped]
    rfl
  have kept := List.head?_dropWhile_not (IsSpace ·) cs
  rw [first] at kept
  exact of_decide_eq_false kept

/-- The first word of a text that starts with it, and the others. -/
theorem words_first (inner : ¬ IsSpace c) : words (c :: rest) =
    (c :: rest).takeWhile (¬ IsSpace ·) :: words ((c :: rest).dropWhile (¬ IsSpace ·)) := by
  have word : ∀ d ∈ (c :: rest).takeWhile (¬ IsSpace ·), ¬ IsSpace d := fun d member =>
    of_decide_eq_true (List.mem_takeWhile_imp (p := (¬ IsSpace ·)) member)
  have nonempty : (c :: rest).takeWhile (¬ IsSpace ·) ≠ [] := by
    rw [List.takeWhile_cons_of_pos (p := (¬ IsSpace ·)) (decide_eq_true inner)]
    exact List.cons_ne_nil _ _
  have ends : EndsWord ((c :: rest).dropWhile (¬ IsSpace ·)) := by
    have mark := List.head?_dropWhile_not (¬ IsSpace ·) (c :: rest)
    cases behind : (c :: rest).dropWhile (¬ IsSpace ·) with
    | nil => exact trivial
    | cons d more =>
        rw [behind] at mark
        exact not_not.mp (of_decide_eq_false mark)
  rw [← words_ends ⟨nonempty, word⟩ ends, List.takeWhile_append_dropWhile]

theorem IsWord.isPrefix_takeWhile {p : List Char} (word : IsWord p) (more : List Char) :
    p <+: (p ++ more).takeWhile (¬ IsSpace ·) := by
  rw [List.takeWhile_append_of_pos fun c member => decide_eq_true (word.2 c member)]
  exact List.prefix_append _ _

/-- A text starts with a word's beginning if its first word does. -/
theorem prefix_strip {p : List Char} (word : IsWord p) (cs : List Char) :
    p <+: strip cs ↔ ∃ w ∈ (words cs).head?, p <+: w := by
  rw [← words_strip]
  cases stripped : strip cs with
  | nil =>
      refine ⟨fun starts => absurd (List.prefix_nil.mp starts) word.1, ?_⟩
      rintro ⟨w, ⟨⟩, -⟩
  | cons c rest =>
      rw [words_first (strip_cons stripped)]
      constructor
      · rintro ⟨more, whole⟩
        refine ⟨_, rfl, ?_⟩
        rw [← whole]
        exact word.isPrefix_takeWhile more
      · rintro ⟨w, ⟨⟩, starts⟩
        exact starts.trans (List.takeWhile_prefix _)

/-- What is in a word of a text's tail is in one of the text's. -/
theorem infix_words_cons (c : Char) {p : List Char} (inside : ∃ w ∈ words rest, p <:+: w) :
    ∃ w ∈ words (c :: rest), p <:+: w := by
  obtain ⟨w, member, here⟩ := inside
  by_cases blank : IsSpace c
  · rw [words_space blank]
    exact ⟨w, member, here⟩
  · by_cases ends : EndsWord rest
    · rw [words_last blank ends]
      exact ⟨w, List.mem_cons_of_mem _ member, here⟩
    · rw [words, if_neg blank, if_neg ends]
      cases found : words rest with
      | nil =>
          rw [found] at member
          exact absurd member List.not_mem_nil
      | cons v vs =>
          rw [found] at member
          rcases List.mem_cons.mp member with rfl | member
          · exact ⟨c :: w, List.mem_cons_self, here.trans (List.suffix_cons c w).isInfix⟩
          · exact ⟨w, List.mem_cons_of_mem _ member, here⟩

theorem infix_of_mem_words {cs : List Char} (member : w ∈ words cs) : w <:+: cs := by
  induction cs generalizing w with
  | nil => cases member
  | cons c rest ih =>
      by_cases blank : IsSpace c
      · rw [words_space blank] at member
        exact (ih member).trans (List.suffix_cons c rest).isInfix
      · by_cases ends : EndsWord rest
        · rw [words_last blank ends] at member
          rcases List.mem_cons.mp member with rfl | member
          · exact ⟨[], rest, rfl⟩
          · exact (ih member).trans (List.suffix_cons c rest).isInfix
        · cases rest with
          | nil => exact absurd trivial ends
          | cons e more =>
              have goes : ¬ IsSpace e := ends
              rw [words, if_neg blank, if_neg ends, words_first goes] at member
              rw [words_first goes] at ih
              rcases List.mem_cons.mp member with rfl | member
              · exact ((List.prefix_cons_inj c).mpr (List.takeWhile_prefix _)).isInfix
              · exact (ih (List.mem_cons_of_mem _ member)).trans (List.suffix_cons c _).isInfix

/-- A text has a word in it if one of its words has. -/
theorem infix_iff_words {p cs : List Char} (word : IsWord p) :
    p <:+: cs ↔ ∃ w ∈ words cs, p <:+: w := by
  constructor
  · rintro ⟨front, behind, rfl⟩
    induction front with
    | nil =>
        obtain ⟨c, rest, rfl⟩ := List.exists_cons_of_ne_nil word.1
        refine ⟨_, ?_, (word.isPrefix_takeWhile behind).isInfix⟩
        rw [List.nil_append, List.cons_append, words_first (word.2 c List.mem_cons_self)]
        exact List.mem_cons_self
    | cons c front ih => exact infix_words_cons c ih
  · rintro ⟨w, member, inside⟩
    exact inside.trans (infix_of_mem_words member)

end Words

end Text
