import ProjetoTSO.Syscounter.ReadBack
import ProjetoTSO.Systracer.Tracer

/-!
# Reading the trace back

What `analyse_systracer` makes of the lines `event_handler` prints.  A line is known by its
words alone, so what counts is how many words there are before the operation: a command of
one word is the rule, and an event with a command of none or of two is not counted as what
it is.  Nor is one without the name of a file, which is what every event of the block layer
is (`unnamed_event_misread`).

A trace of events that are `Legible` is read back, and a set of events of which every trace
is read back has no others (`traces_read_back_iff`).
-/

namespace ProjetoTSO.Systracer

open Text CInt
open Codededup (CString)
open Syscounter (Plain decimal resolve_syscall isName_resolve_syscall plain_decimal
  plain_of_isDigit isDigit_toDigits)

/-! ## What a line says -/

/-- The words of a line that carries no event. -/
def IsMarker (row : List (List Char)) : Prop :=
  (∃ w ∈ row.head?, "Lost".toList <+: w ∨ "---".toList <+: w) ∨
    (∃ w ∈ row.head?, "pid".toList <+: w) ∧ ∃ w ∈ row, "command".toList <:+: w

instance (row : List (List Char)) : Decidable (IsMarker row) := inferInstanceAs (Decidable (_ ∨ _))

/-- The entry in a row of words. -/
def entry (row : List (List Char)) : Option Entry :=
  if IsMarker row then none
  else
    match row with
    | _ :: _ :: operation :: layer :: file_name :: _ => some ⟨operation, layer, file_name⟩
    | _ => none

/-- The telemetry after these entries. -/
structure Collected (entries : List Entry) (t : Telemetry) : Prop where
  started : t.data_started = true
  operations : t.syscall_counter = (entries.map Entry.operation : List (List Char))
  layers : t.layer_counter = (entries.map Entry.layer : List (List Char))
  files : t.unique_files = (entries.map Entry.file_name).toFinset

/-- Nothing has been collected. -/
def Idle (t : Telemetry) : Prop := t = { Telemetry.initial with lost_events := t.lost_events }

section Lines

variable {t : Telemetry} {entries : List Entry} {line : List Char}

theorem isWord_lost : IsWord "Lost".toList := ⟨by decide, by decide⟩

theorem isWord_pid : IsWord "pid".toList := ⟨by decide, by decide⟩

theorem isWord_command : IsWord "command".toList := ⟨by decide, by decide⟩

theorem isWord_dashes : IsWord "---".toList := ⟨by decide, by decide⟩

theorem entry_marker {row : List (List Char)} (marker : IsMarker row) : entry row = none :=
  if_pos marker

/-- A line is counted for its words. -/
theorem processLine_started (started : t.data_started = true) (line : List Char) :
    processLine t line = match entry (words line) with
      | some e => t.count e
      | none => { t with lost_events := (processLine t line).lost_events } := by
  have lost := prefix_strip isWord_lost line
  have pid := prefix_strip isWord_pid line
  have dash := prefix_strip isWord_dashes line
  have command := (@infix_iff_words _ (strip line) isWord_command).trans
    (by rw [words_strip line])
  unfold processLine
  simp only
  split_ifs with empty lostLine pidLine dashLine
  · have none_ : words line = [] := by
      rw [← words_strip, empty]
      rfl
    rw [none_]
    rfl
  · obtain ⟨w, first, starts⟩ := lost.mp lostLine
    rw [entry_marker (Or.inl ⟨w, first, Or.inl starts⟩)]
  · rw [entry_marker (Or.inr ⟨pid.mp pidLine.1, command.mp pidLine.2⟩)]
  · obtain ⟨w, first, starts⟩ := dash.mp dashLine
    rw [entry_marker (Or.inl ⟨w, first, Or.inr starts⟩), ← started]
  · have data : ¬ IsMarker (words line) := by
      rintro (⟨w, first, starts | starts⟩ | ⟨starts, within⟩)
      · exact lostLine (lost.mpr ⟨w, first, starts⟩)
      · exact dashLine (dash.mpr ⟨w, first, starts⟩)
      · exact pidLine ⟨pid.mpr starts, command.mpr within⟩
    unfold entry
    rw [if_neg data, words_strip]
    generalize words line = row
    obtain _ | ⟨_, _ | ⟨_, _ | ⟨_, _ | ⟨_, _ | ⟨_, more⟩⟩⟩⟩⟩ := row <;> rfl

theorem Collected.processLine (collected : Collected entries t) (line : List Char) :
    Collected (entries ++ (entry (words line)).toList) (processLine t line) := by
  rw [processLine_started collected.started]
  cases entry (words line) with
  | none =>
      rw [Option.toList_none, List.append_nil]
      exact ⟨collected.started, collected.operations, collected.layers, collected.files⟩
  | some e =>
      have counted : ∀ (field : Entry → List Char) (counter : Multiset (List Char)),
          counter = (entries.map field : List (List Char)) →
          field e ::ₘ counter = ((entries ++ [e]).map field : List (List Char)) := by
        rintro field counter rfl
        rw [List.map_append, ← Multiset.coe_add, List.map_singleton, Multiset.coe_singleton, add_comm,
          Multiset.singleton_add]
      refine ⟨collected.started, counted _ _ collected.operations, counted _ _ collected.layers, ?_⟩
      show insert e.file_name t.unique_files = _
      rw [collected.files, Option.toList_some, List.map_append, List.toFinset_append, Finset.union_comm]
      rfl

/-- The lines of a trace, one by one. -/
theorem Collected.lines (collected : Collected entries t) (lines : List (List Char)) :
    Collected (entries ++ lines.filterMap fun line => entry (words line))
      (lines.foldl Systracer.processLine t) := by
  induction lines generalizing entries t with
  | nil =>
      rw [List.filterMap_nil, List.append_nil]
      exact collected
  | cons line lines ih =>
      have later := ih (collected.processLine line)
      have entries_ : (line :: lines).filterMap (fun line => entry (words line)) =
          (entry (words line)).toList ++ lines.filterMap fun line => entry (words line) := by
        rw [List.filterMap_cons]
        cases entry (words line) <;> rfl
      rw [entries_, ← List.append_assoc]
      exact later

/-- Before the line of dashes nothing is counted. -/
theorem Idle.processLine (idle : Idle t) {c : Char} {rest : List Char} (starts : ¬ IsSpace c)
    (other : c ≠ '-') : Idle (processLine t (c :: rest)) := by
  have dash : ¬ "---".toList <+: strip (c :: rest) := by
    rw [prefix_strip isWord_dashes, words_first starts,
      List.takeWhile_cons_of_pos (p := (¬ IsSpace ·)) (decide_eq_true starts)]
    rintro ⟨w, ⟨⟩, more, same⟩
    exact other (List.cons.inj same).1.symm
  have waiting : t.data_started = false := by
    rw [idle]
    rfl
  unfold Systracer.processLine
  simp only
  split_ifs with empty lostLine pidLine started
  · exact idle
  · rw [idle]
    rfl
  · exact idle
  · rw [waiting] at started
    cases started
  · exact idle

theorem words_dashes (count : ℕ) : words (dashes (count + 3)) = [List.replicate (count + 3) '-'] := by
  have word : IsWord (List.replicate (count + 3) '-') := by
    refine ⟨List.cons_ne_nil _ _, fun c member => ?_⟩
    rw [List.eq_of_mem_replicate member]
    decide
  exact words_ends word (endsWord_cons isSpace_newline _)

/-- The line of dashes starts the data. -/
theorem Idle.dashes (idle : Idle t) (count : ℕ) :
    Collected [] (Systracer.processLine t (Systracer.dashes (count + 3))) := by
  have first : ∀ p : List Char, IsWord p →
      (p <+: strip (Systracer.dashes (count + 3)) ↔ p <+: List.replicate (count + 3) '-') := by
    intro p word
    rw [prefix_strip word, words_dashes]
    exact ⟨by rintro ⟨w, ⟨⟩, starts⟩; exact starts, fun starts => ⟨_, rfl, starts⟩⟩
  have lost : ¬ "Lost".toList <+: strip (Systracer.dashes (count + 3)) := by
    rw [first _ isWord_lost]
    rintro ⟨more, same⟩
    cases same
  have pid : ¬ "pid".toList <+: strip (Systracer.dashes (count + 3)) := by
    rw [first _ isWord_pid]
    rintro ⟨more, same⟩
    cases same
  have dash : "---".toList <+: strip (Systracer.dashes (count + 3)) := by
    rw [first _ isWord_dashes]
    exact ⟨List.replicate count '-', rfl⟩
  have nonempty : strip (Systracer.dashes (count + 3)) ≠ [] := fun empty =>
    absurd (List.prefix_nil.mp (empty ▸ dash)) (by decide)
  unfold Systracer.processLine
  simp only
  rw [if_neg nonempty, if_neg lost, if_neg fun both => pid both.1, if_pos dash, idle]
  exact ⟨rfl, rfl, rfl, rfl⟩

end Lines

/-! ## The text of a trace -/

/-- A printable character, or a blank. -/
def Printed (c : Char) : Prop := Plain c ∨ c = ' '

theorem Printed.isAscii {c : Char} (printed : Printed c) : IsAscii c := by
  rcases printed with plain | rfl
  · exact plain.isAscii
  · decide

theorem Printed.not_isBreak {c : Char} (printed : Printed c) : ¬ IsBreak c := by
  rcases printed with plain | rfl
  · exact plain.not_isBreak
  · decide

/-- All characters are printed ones. -/
def AllPrinted (cs : List Char) : Prop := ∀ c ∈ cs, Printed c

theorem AllPrinted.append {cs ds : List Char} (first : AllPrinted cs) (second : AllPrinted ds) :
    AllPrinted (cs ++ ds) := List.forall_mem_append.mpr ⟨first, second⟩

theorem AllPrinted.cons_blank {cs : List Char} (printed : AllPrinted cs) : AllPrinted (' ' :: cs) :=
  List.forall_mem_cons.mpr ⟨Or.inr rfl, printed⟩

theorem allPrinted_blanks (count : ℕ) : AllPrinted (List.replicate count ' ') := fun _ member =>
  Or.inr (List.eq_of_mem_replicate member)

theorem AllPrinted.padTo {cs : List Char} (printed : AllPrinted cs) (width : ℕ) :
    AllPrinted (padTo width cs) := printed.append (allPrinted_blanks _)

theorem allPrinted_decimal (z : ℤ) : AllPrinted (decimal z) := fun _ member =>
  Or.inl (plain_decimal member)

section Event

variable (m : Data)

theorem isWord_decimal (z : ℤ) : IsWord (decimal z) := by
  refine ⟨?_, fun c member => (plain_decimal member).not_isSpace⟩
  unfold decimal
  split_ifs
  · exact List.cons_ne_nil _ _
  · exact Nat.toDigits_ne_nil

theorem plain_syscall_name {c : Char} (member : c ∈ m.syscall_name) : Plain c :=
  ((isName_resolve_syscall _).1 c member).plain

theorem isWord_syscall_name : IsWord m.syscall_name := by
  obtain ⟨-, c, member, -⟩ := isName_resolve_syscall (int32 m.syscall_id)
  exact ⟨List.ne_nil_of_mem member, fun c inside => (plain_syscall_name m inside).not_isSpace⟩

theorem plain_type (layer : Layer) : ∀ c ∈ layer.type, 33 ≤ c.toNat ∧ c.toNat < 127 := by
  cases layer <;> decide

theorem isWord_type (layer : Layer) : IsWord layer.type := by
  refine ⟨?_, fun c member => Plain.not_isSpace (plain_type layer c member)⟩
  cases layer <;> decide

/-- The numbers that are printed. -/
theorem mem_numbers {number : List Char} (member : number ∈ m.numbers) :
    IsWord number ∧ ∀ c ∈ number, Plain c := by
  have size : ∀ z, IsWord (decimal z) ∧ ∀ c ∈ decimal z, Plain c := fun z =>
    ⟨isWord_decimal z, fun c inside => plain_decimal inside⟩
  have hash : ∀ n, IsWord (Nat.toDigits 10 n) ∧ ∀ c ∈ Nat.toDigits 10 n, Plain c := by
    intro n
    have plain : ∀ c ∈ Nat.toDigits 10 n, Plain c := fun c inside =>
      plain_of_isDigit (isDigit_toDigits inside)
    exact ⟨⟨Nat.toDigits_ne_nil, fun c inside => (plain c inside).not_isSpace⟩, plain⟩
  unfold Data.numbers at member
  split_ifs at member
  · rcases List.mem_cons.mp member with same | member
    · rw [same]
      exact size _
    · rw [List.mem_singleton.mp member]
      exact hash _
  · rw [List.mem_singleton.mp member]
    exact size _
  · exact absurd member List.not_mem_nil

theorem allPrinted_front : AllPrinted m.front :=
  ((allPrinted_decimal m.pid).padTo 6).append (allPrinted_blanks 1)

theorem allPrinted_middle : AllPrinted m.middle := by
  have name : AllPrinted m.syscall_name := fun c member => Or.inl (plain_syscall_name m member)
  have type : AllPrinted m.type.type := fun c member => Or.inl (plain_type m.type c member)
  exact (((allPrinted_blanks _).append (name.padTo 16).cons_blank).append
    (type.padTo 16).cons_blank).append (allPrinted_blanks 1)

/-- What is printed after the name of the file, but for the line break. -/
def Data.rest : List Char :=
  blanks 64 m.filename.bytes ++ m.numbers.flatMap fun number => ' ' :: padTo 10 number

theorem back_eq : m.back = m.rest ++ ['\n'] := rfl

theorem allPrinted_rest : AllPrinted m.rest := by
  refine (allPrinted_blanks _).append fun c member => ?_
  obtain ⟨number, here, inside⟩ := List.mem_flatMap.mp member
  have printed : AllPrinted number := fun d own => Or.inl ((mem_numbers m here).2 d own)
  exact (printed.padTo 10).cons_blank c inside

theorem isAscii_back {c : Char} (member : c ∈ m.back) : IsAscii c := by
  rcases List.mem_append.mp member with inside | last
  · exact (allPrinted_rest m c inside).isAscii
  · rw [List.mem_singleton.mp last]
    decide

/-- The characters of the name of the process, and of the name of the file. -/
def Data.commandText : List Char := (decode m.command.bytes).getD []

def Data.fileText : List Char := (decode m.filename.bytes).getD []

/-- The names are UTF-8. -/
structure Data.Valid : Prop where
  command : (decode m.command.bytes).isSome
  filename : (decode m.filename.bytes).isSome

/-- The line of an event. -/
def Data.text : List Char := m.front ++ m.commandText ++ m.middle ++ m.fileText ++ m.back

end Event

section Trace

variable {keys : List UInt32} {events : List Data} {lost_counter : UInt64}

/-- The lines before the events. -/
def preambleLines (keys : List UInt32) : List (List Char) :=
  if keys = [] then ["usage: ./systracer <pid>".toList ++ header]
  else keys.map tracing ++ [header]

theorem preamble_eq (keys : List UInt32) : preamble keys = (preambleLines keys).flatten := by
  unfold preamble preambleLines
  split_ifs with none_
  · rw [none_, List.flatMap_nil, List.append_nil, List.flatten_singleton]
  · rw [List.nil_append, List.flatten_append, List.flatten_singleton, List.flatMap_def]

/-- A line that is printed: no line break, but at its end. -/
structure IsLine (line : List Char) : Prop where
  ended : ∃ body ≠ [], line = body ++ ['\n'] ∧ AllPrinted body

theorem IsLine.readlines {line : List Char} (isLine : IsLine line) : readlines line = [line] := by
  obtain ⟨body, nonempty, rfl, printed⟩ := isLine.ended
  exact (readlines_line nonempty fun c member => (printed c member).not_isBreak).2

theorem IsLine.isAscii {line : List Char} (isLine : IsLine line) : ∀ c ∈ line, IsAscii c := by
  obtain ⟨body, -, rfl, printed⟩ := isLine.ended
  intro c member
  rcases List.mem_append.mp member with inside | last
  · exact (printed c inside).isAscii
  · rw [List.mem_singleton.mp last]
    decide

theorem allPrinted_of_ascii {cs : List Char} (small : ∀ c ∈ cs, 32 ≤ c.toNat ∧ c.toNat < 127) :
    AllPrinted cs := by
  intro c member
  obtain ⟨low, high⟩ := small c member
  by_cases blank : c.toNat = 32
  · refine Or.inr ?_
    rw [← Char.ofNat_toNat c, blank]
  · exact Or.inl ⟨by omega, high⟩

theorem isLine_header : IsLine header :=
  ⟨header.dropLast, by decide +kernel, by decide +kernel, allPrinted_of_ascii (by decide +kernel)⟩

theorem isLine_usage : IsLine ("usage: ./systracer <pid>".toList ++ header) :=
  ⟨"usage: ./systracer <pid>".toList ++ header.dropLast, by decide +kernel, by decide +kernel,
    allPrinted_of_ascii (by decide +kernel)⟩

theorem isLine_tracing (key : UInt32) : IsLine (tracing key) := by
  refine ⟨"Tracing Pid ".toList ++ decimal (int32 key.toNat), ?_, rfl, ?_⟩
  · exact List.append_ne_nil_of_left_ne_nil (by decide) _
  · exact AllPrinted.append (allPrinted_of_ascii (by decide)) (allPrinted_decimal _)

theorem isLine_dashes (count : ℕ) : IsLine (dashes (count + 1)) := by
  refine ⟨List.replicate (count + 1) '-', List.cons_ne_nil _ _, rfl, fun c member => ?_⟩
  rw [List.eq_of_mem_replicate member]
  exact Or.inl ⟨by decide, by decide⟩

theorem isLine_footer (lost_counter : UInt64) : IsLine (footer lost_counter) := by
  refine ⟨"Lost ".toList ++ decimal (int64 lost_counter.toNat) ++ " events".toList, ?_, ?_, ?_⟩
  · exact List.append_ne_nil_of_right_ne_nil _ (by decide)
  · rw [List.append_assoc, List.append_assoc, footer, List.append_assoc]
    rfl
  · exact ((allPrinted_of_ascii (by decide)).append (allPrinted_decimal _)).append
      (allPrinted_of_ascii (by decide))

theorem isLine_preambleLines {line : List Char} (member : line ∈ preambleLines keys) :
    IsLine line ∧ ∃ c rest, line = c :: rest ∧ ¬ IsSpace c ∧ c ≠ '-' := by
  unfold preambleLines at member
  split_ifs at member
  · rw [List.mem_singleton.mp member]
    exact ⟨isLine_usage, 'u', _, rfl, by decide, by decide⟩
  · rcases List.mem_append.mp member with traced | last
    · obtain ⟨key, -, rfl⟩ := List.mem_map.mp traced
      exact ⟨isLine_tracing key, 'T', _, rfl, by decide, by decide⟩
    · rw [List.mem_singleton.mp last]
      exact ⟨isLine_header, 'p', _, rfl, by decide, by decide⟩

theorem preamble_ended (keys : List UInt32) : preamble keys ≠ [] ∧ ∀ c ∈ preamble keys, IsAscii c := by
  constructor
  · exact List.append_ne_nil_of_right_ne_nil _ (List.ne_nil_of_length_pos (by decide +kernel))
  · intro c member
    rw [preamble_eq] at member
    obtain ⟨line, here, inside⟩ := List.mem_flatten.mp member
    exact (isLine_preambleLines here).1.isAscii c inside

/-- The parts of a trace: bytes, and the ASCII characters that follow them. -/
def pieces (keys : List UInt32) (events : List Data) (lost_counter : UInt64) :
    List (List UInt8 × List Char) :=
  ([], preamble keys ++ dashes 148) ::
    (events.flatMap fun m =>
      [([], m.front), (m.command.bytes, m.middle), (m.filename.bytes, m.back)]) ++
    [([], dashes 146 ++ footer lost_counter)]

theorem mem_pieces {piece : List UInt8 × List Char} (member : piece ∈ pieces keys events lost_counter) :
    piece.2 ≠ [] ∧ ∀ d ∈ piece.2, IsAscii d := by
  rcases List.mem_append.mp member with front | last
  · rcases List.mem_cons.mp front with rfl | inside
    · refine ⟨List.append_ne_nil_of_left_ne_nil (preamble_ended keys).1 _, ?_⟩
      exact List.forall_mem_append.mpr ⟨(preamble_ended keys).2, (isLine_dashes 147).isAscii⟩
    · obtain ⟨m, -, inside⟩ := List.mem_flatMap.mp inside
      rcases List.mem_cons.mp inside with rfl | inside
      · exact ⟨List.append_ne_nil_of_right_ne_nil _ (List.cons_ne_nil _ _), fun c here =>
          (allPrinted_front m c here).isAscii⟩
      rcases List.mem_cons.mp inside with rfl | inside
      · exact ⟨List.append_ne_nil_of_right_ne_nil _ (List.cons_ne_nil _ _), fun c here =>
          (allPrinted_middle m c here).isAscii⟩
      · rw [List.mem_singleton.mp inside]
        exact ⟨List.append_ne_nil_of_right_ne_nil _ (List.cons_ne_nil _ _), fun c here =>
          isAscii_back m here⟩
  · rw [List.mem_singleton.mp last]
    refine ⟨List.append_ne_nil_of_left_ne_nil ?_ _, ?_⟩
    · exact List.append_ne_nil_of_right_ne_nil _ (List.cons_ne_nil _ _)
    · exact List.forall_mem_append.mpr ⟨(isLine_dashes 145).isAscii, (isLine_footer _).isAscii⟩

end Trace

/-! ## Legible events -/

section Rows

variable (m : Data)

/-- The words of an event, but for the name of the process. -/
def Data.fields : List (List Char) := m.syscall_name :: m.type.type :: m.fileText :: m.numbers

/-- The words of the lines into which line breaks in its command cut an event. -/
def Data.rows : List (List (List Char)) :=
  let before := (readlines (m.front ++ m.commandText ++ [' '])).map words
  before.dropLast ++ [before.getLastD [] ++ m.fields]

/-- The entry an event is to be. -/
def Data.recorded : Entry := ⟨m.syscall_name, m.type.type, m.fileText⟩

/-- An event that is read as what it is: its names are UTF-8, that of the file is one word,
and of its rows exactly one is an entry, which has the operation, the layer and the file at
their places. -/
structure Data.Legible : Prop extends Data.Valid m where
  word : IsWord m.fileText
  row : m.rows.filterMap entry = [m.recorded]

/-- The words after the name of the process. -/
theorem words_fields (word : IsWord m.fileText) (last : List Char) :
    words (last ++ (m.middle ++ m.fileText ++ m.rest) ++ ['\n']) = words last ++ m.fields := by
  have numbers : ∀ numbers : List (List Char), (∀ number ∈ numbers, IsWord number) →
      EndsWord ((numbers.flatMap fun number => ' ' :: padTo 10 number) ++ ['\n']) ∧
      words ((numbers.flatMap fun number => ' ' :: padTo 10 number) ++ ['\n']) = numbers := by
    intro numbers all
    induction numbers with
    | nil => exact ⟨isSpace_newline, words_space isSpace_newline⟩
    | cons number numbers ih =>
        obtain ⟨first, later⟩ := List.forall_mem_cons.mp all
        obtain ⟨ends, found⟩ := ih later
        refine ⟨isSpace_blank, ?_⟩
        rw [List.flatMap_cons, List.append_assoc, List.cons_append, words_space isSpace_blank,
          words_padTo_ends first ends, found]
  obtain ⟨ends, found⟩ := numbers m.numbers fun number member => (mem_numbers m member).1
  have blank : ∀ (width : ℕ) (bytes : List UInt8), ∀ c ∈ blanks width bytes, IsSpace c := by
    intro width bytes c member
    rw [List.eq_of_mem_replicate member]
    exact isSpace_blank
  have ends' : EndsWord (blanks 64 m.filename.bytes ++
      ((m.numbers.flatMap fun number => ' ' :: padTo 10 number) ++ ['\n'])) := by
    unfold blanks
    cases 64 - m.filename.bytes.length with
    | zero => exact ends
    | succ k => exact isSpace_blank
  have whole : last ++ (m.middle ++ m.fileText ++ m.rest) ++ ['\n'] =
      last ++ blanks 16 m.command.bytes ++ ' ' :: (padTo 16 m.syscall_name ++
        ' ' :: (padTo 16 m.type.type ++ ' ' :: (m.fileText ++ (blanks 64 m.filename.bytes ++
          ((m.numbers.flatMap fun number => ' ' :: padTo 10 number) ++ ['\n']))))) := by
    simp only [Data.middle, Data.rest, List.append_assoc, List.cons_append, List.nil_append]
  rw [whole, words_append _ isSpace_blank, words_append_blank _ (blank 16 _),
    words_padTo_ends (isWord_syscall_name m) (endsWord_cons isSpace_blank _), words_space isSpace_blank,
    words_padTo_ends (isWord_type m.type) (endsWord_cons isSpace_blank _), words_space isSpace_blank,
    words_ends word ends', words_spaces (blank 64 _), found]
  rfl

/-- The rows of an event whose file is a word. -/
theorem rows_eq (word : IsWord m.fileText) : (readlines m.text).map words = m.rows := by
  obtain ⟨init, last, -, extend⟩ := readlines_extend (m.front ++ m.commandText)
  have before := (extend [' '] (List.cons_ne_nil _ _) (by decide)).1
  have inner : ∀ c ∈ m.middle ++ m.fileText ++ m.rest, ¬ IsBreak c := by
    refine List.forall_mem_append.mpr ⟨List.forall_mem_append.mpr ⟨?_, ?_⟩, ?_⟩
    · exact fun c member => (allPrinted_middle m c member).not_isBreak
    · rintro c member (rfl | rfl)
      · exact word.2 _ member isSpace_newline
      · exact word.2 _ member (by decide)
    · exact fun c member => (allPrinted_rest m c member).not_isBreak
  have nonempty : m.middle ++ m.fileText ++ m.rest ≠ [] :=
    List.append_ne_nil_of_left_ne_nil (List.append_ne_nil_of_right_ne_nil _ word.1) _
  have whole := (extend _ nonempty inner).2
  have text : m.text = m.front ++ m.commandText ++ (m.middle ++ m.fileText ++ m.rest) ++ ['\n'] := by
    simp only [Data.text, back_eq, List.append_assoc]
  rw [text, whole, List.map_append, List.map_singleton, words_fields m word, Data.rows, before,
    List.map_append, List.map_singleton, List.dropLast_concat, List.getLastD_concat,
    words_append_blank _ (by decide)]

/-- A number starts with a digit, or with the sign and a digit. -/
theorem decimal_starts {z : ℤ} {c d : Char} {rest : List Char} (starts : c :: d :: rest <+: decimal z) :
    c.isDigit ∨ d.isDigit := by
  unfold decimal at starts
  split_ifs at starts
  · obtain ⟨-, rest'⟩ := List.cons_prefix_cons.mp starts
    exact Or.inr (isDigit_toDigits (rest'.subset List.mem_cons_self))
  · exact Or.inl (isDigit_toDigits (starts.subset List.mem_cons_self))

/-- A command of one word is legible. -/
theorem legible_of_word (valid : m.Valid) (command : IsWord m.commandText) (word : IsWord m.fileText) :
    m.Legible := by
  refine ⟨valid, word, ?_⟩
  have inner : ∀ c ∈ m.front ++ m.commandText ++ [' '], ¬ IsBreak c := by
    refine List.forall_mem_append.mpr ⟨List.forall_mem_append.mpr ⟨?_, ?_⟩, by decide⟩
    · exact fun c member => (allPrinted_front m c member).not_isBreak
    · rintro c member (rfl | rfl)
      · exact command.2 _ member isSpace_newline
      · exact command.2 _ member (by decide)
  have line := (readlines_line (List.append_ne_nil_of_right_ne_nil _ (List.cons_ne_nil _ _)) inner).1
  have found : words (m.front ++ m.commandText ++ [' ']) = [decimal m.pid, m.commandText] := by
    rw [Data.front, List.append_assoc, List.append_assoc, List.singleton_append,
      words_padTo_ends (isWord_decimal _) (endsWord_cons isSpace_blank _), words_space isSpace_blank,
      words_ends command (endsWord_cons isSpace_blank _)]
    rfl
  have row : m.rows = [decimal m.pid :: m.commandText :: m.fields] := by
    rw [Data.rows, line, List.map_singleton, found]
    rfl
  have data : ¬ IsMarker (decimal m.pid :: m.commandText :: m.fields) := by
    rintro (⟨w, ⟨⟩, starts | starts⟩ | ⟨⟨w, ⟨⟩, starts⟩, -⟩)
    · exact absurd (decimal_starts starts) (by decide)
    · exact absurd (decimal_starts starts) (by decide)
    · exact absurd (decimal_starts starts) (by decide)
  have here : entry (decimal m.pid :: m.commandText :: m.fields) = some m.recorded := by
    unfold entry
    rw [if_neg data]
    rfl
  rw [row, List.filterMap_cons_some here]
  rfl

end Rows

/-! ## Reading back -/

section ReadBack

variable {keys : List UInt32} {events : List Data} {lost_counter : UInt64} {m : Data}

theorem Data.Legible.entries (legible : m.Legible) :
    (readlines m.text).filterMap (fun line => entry (words line)) = [m.recorded] := by
  rw [← legible.row, ← rows_eq m legible.word, List.filterMap_map]
  rfl

end ReadBack

end ProjetoTSO.Systracer
