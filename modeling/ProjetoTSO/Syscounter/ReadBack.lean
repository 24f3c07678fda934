import Mathlib.Algebra.BigOperators.Group.List.Basic
import ProjetoTSO.Syscounter.Report

/-!
# Reading the report back

What `analyse_syscounter` makes of the text `print_results` writes.  Rows and columns have
no separator but blanks, and a line is known by how it starts.  The totals and the headers
are therefore read back if no column but the last fills its 24 characters, and if no
process has a name that looks like the header line (`Readable`).

The line of totals is always found: it is the last line that starts with `Total`.
-/

namespace ProjetoTSO.Syscounter

open Text

/-! ## What is printed -/

/-- The rows: the processes, each once. -/
def processes (entries : List Entry) : List (List UInt8) :=
  (entries.map fun entry => comm entry.key).foldl addUnique []

/-- The columns: the operations, each once. -/
def opColumns (entries : List Entry) : List ℤ :=
  (entries.map fun entry => entry.key.op).foldl addUnique []

/-- The calls and the bytes of an operation, over all entries. -/
def opTotal (entries : List Entry) (op : ℤ) : CounterVal where
  calls := (entries.map fun entry => if entry.key.op = op then entry.val.calls else 0).sum
  bytes := (entries.map fun entry => if entry.key.op = op then entry.val.bytes else 0).sum

section Lists

variable {α : Type} [DecidableEq α] {list values : List α} {value : α}

theorem mem_addUnique {other : α} : other ∈ addUnique list value ↔ other ∈ list ∨ other = value := by
  unfold addUnique
  split_ifs with known
  · refine ⟨Or.inl, fun either => either.elim id fun same => ?_⟩
    rw [same]
    exact known
  · rw [List.mem_append, List.mem_singleton]

theorem mem_foldl_addUnique {other : α} :
    other ∈ values.foldl addUnique list ↔ other ∈ list ∨ other ∈ values := by
  induction values generalizing list with
  | nil => simp
  | cons value values ih => rw [List.foldl_cons, ih, mem_addUnique, List.mem_cons, or_assoc]

theorem nodup_foldl_addUnique (nodup : list.Nodup) : (values.foldl addUnique list).Nodup := by
  induction values generalizing list with
  | nil => exact nodup
  | cons value values ih =>
      refine ih ?_
      unfold addUnique
      split_ifs with known
      · exact nodup
      · exact List.nodup_append.mpr ⟨nodup, List.nodup_singleton _, fun a member b single => by
          rw [List.mem_singleton.mp single]
          rintro rfl
          exact known member⟩

end Lists

section Printed

variable {entries : List Entry} {op : ℤ}

theorem mem_processes {pid : List UInt8} :
    pid ∈ processes entries ↔ ∃ entry ∈ entries, comm entry.key = pid := by
  rw [processes, mem_foldl_addUnique, List.mem_map]
  simp

theorem mem_opColumns : op ∈ opColumns entries ↔ ∃ entry ∈ entries, entry.key.op = op := by
  rw [opColumns, mem_foldl_addUnique, List.mem_map]
  simp

/-- No name is cut. -/
theorem length_comm (entry : Entry) : (comm entry.key).length ≤ 27 := by
  have short := entry.key.command.short
  have digits : (Nat.toDigits 10 entry.key.pid.natAbs).length ≤ 10 := by
    have := entry.pid_int
    exact (Nat.length_toDigits_le_iff (by decide) (by decide)).mpr (by omega)
  have sign : (decimal entry.key.pid).length ≤ 11 := by
    unfold decimal
    split_ifs
    · exact Nat.succ_le_succ digits
    · omega
  rw [comm, List.length_append, ascii, List.length_map, List.length_cons]
  omega

theorem get_unique_pid_values_eq : get_unique_pid_values entries =
    if (processes entries).length ≤ MAX_PIDS then some (processes entries) else none := by
  have uncut : (entries.map fun entry => (comm entry.key).take 29) =
      entries.map fun entry => comm entry.key :=
    List.map_congr_left fun entry _ => List.take_of_length_le ((length_comm entry).trans (by decide))
  unfold get_unique_pid_values
  rw [uncut]
  rfl

theorem get_unique_op_values_eq : get_unique_op_values entries =
    if (opColumns entries).length ≤ MAX_OPS then some (opColumns entries) else none := rfl

theorem report_eq : report entries =
    if (processes entries).length ≤ MAX_PIDS ∧ (opColumns entries).length ≤ MAX_OPS then
      some (print_results entries (processes entries) (opColumns entries))
    else none := by
  rw [report, get_unique_pid_values_eq, get_unique_op_values_eq]
  by_cases few : (processes entries).length ≤ MAX_PIDS
  · by_cases few' : (opColumns entries).length ≤ MAX_OPS
    · rw [if_pos few, if_pos few', if_pos ⟨few, few'⟩]
      rfl
    · have notBoth : ¬ ((processes entries).length ≤ MAX_PIDS ∧
          (opColumns entries).length ≤ MAX_OPS) := fun both => few' both.2
      rw [if_pos few, if_neg few', if_neg notBoth]
      rfl
  · have notBoth : ¬ ((processes entries).length ≤ MAX_PIDS ∧
        (opColumns entries).length ≤ MAX_OPS) := fun both => few both.1
    rw [if_neg few, if_neg notBoth]
    rfl

/-! ### Totals -/

/-- What the entries of a process add to the total of an operation. -/
theorem countCell_total (entries : List Entry) (pid : List UInt8) (op : ℤ) (total : CounterVal) :
    (countCell entries pid op total).2 =
      ⟨total.calls + (entries.map fun entry =>
          if comm entry.key = pid ∧ entry.key.op = op then entry.val.calls else 0).sum,
        total.bytes + (entries.map fun entry =>
          if comm entry.key = pid ∧ entry.key.op = op then entry.val.bytes else 0).sum⟩ := by
  unfold countCell
  generalize (⟨0, 0⟩ : CounterVal) = val
  induction entries generalizing val total with
  | nil => simp
  | cons entry entries ih =>
      rw [List.foldl_cons]
      split_ifs with here
      · rw [ih]
        simp only [CounterVal.add, List.map_cons, if_pos here, List.sum_cons, add_assoc]
      · rw [ih]
        simp only [List.map_cons, if_neg here, List.sum_cons, zero_add]

/-- The value in a cell does not depend on the total so far. -/
theorem countCell_val (entries : List Entry) (pid : List UInt8) (op : ℤ) (total total' : CounterVal) :
    (countCell entries pid op total).1 = (countCell entries pid op total').1 := by
  unfold countCell
  generalize (⟨0, 0⟩ : CounterVal) = val
  induction entries generalizing val total total' with
  | nil => rfl
  | cons entry entries ih =>
      rw [List.foldl_cons, List.foldl_cons]
      split_ifs with here
      · exact ih _ _ _
      · exact ih _ _ _

/-- The cells of a row. -/
def rowCells (entries : List Entry) (op_list : List ℤ) (pid : List UInt8) : List (List Char) :=
  op_list.map fun op => cell (countCell entries pid op ⟨0, 0⟩).1

/-- The rows, and for each column the total over the processes printed. -/
theorem printRows_eq (entries : List Entry) (op_list : List ℤ) (pid_list : List (List UInt8)) :
    ∀ totals : List CounterVal, totals.length = op_list.length →
      printRows entries op_list pid_list totals =
        (pid_list.flatMap fun pid => tableLine pid (rowCells entries op_list pid),
          (op_list.zip totals).map fun column =>
            pid_list.foldl (fun total pid => (countCell entries pid column.1 total).2) column.2) := by
  induction pid_list with
  | nil =>
      intro totals length
      have same : (op_list.zip totals).map (fun column => column.2) = totals :=
        List.map_snd_zip length.le
      show ([], totals) = ([], (op_list.zip totals).map fun column => column.2)
      rw [same]
  | cons pid pid_list ih =>
      intro totals length
      have columns : (op_list.zip totals).length = op_list.length := by
        rw [List.length_zip, length, min_self]
      have cells : ((op_list.zip totals).map fun column =>
          countCell entries pid column.1 column.2).map (fun counted => cell counted.1) =
          rowCells entries op_list pid := by
        rw [List.map_map, rowCells]
        conv_rhs => rw [← List.map_fst_zip length.ge, List.map_map]
        exact List.map_congr_left fun column _ => congrArg cell (countCell_val _ _ _ _ _)
      have next : op_list.zip (((op_list.zip totals).map fun column =>
          countCell entries pid column.1 column.2).map Prod.snd) =
          (op_list.zip totals).map fun column =>
            (column.1, (countCell entries pid column.1 column.2).2) := by
        have firsts : (op_list.zip totals).map Prod.fst = op_list := List.map_fst_zip length.ge
        calc _ = ((op_list.zip totals).map Prod.fst).zip (((op_list.zip totals).map fun column =>
                countCell entries pid column.1 column.2).map Prod.snd) := by rw [firsts]
          _ = _ := by
            rw [List.map_map]
            exact List.zip_map'
      rw [printRows, ih _ (by rw [List.length_map, List.length_map, columns]), cells, next, List.map_map]
      rfl

/-- **Totals.**  Every entry is counted once, in the row of its process. -/
theorem total_eq (entries : List Entry) (op : ℤ) :
    (processes entries).foldl (fun total pid => (countCell entries pid op total).2) ⟨0, 0⟩ =
      opTotal entries op := by
  have sums : ∀ (pid_list : List (List UInt8)) (total : CounterVal), pid_list.Nodup →
      pid_list.foldl (fun total pid => (countCell entries pid op total).2) total =
        ⟨total.calls + (entries.map fun entry =>
            if comm entry.key ∈ pid_list ∧ entry.key.op = op then entry.val.calls else 0).sum,
          total.bytes + (entries.map fun entry =>
            if comm entry.key ∈ pid_list ∧ entry.key.op = op then entry.val.bytes else 0).sum⟩ := by
    intro pid_list
    induction pid_list with
    | nil =>
        intro total _
        simp
    | cons pid pid_list ih =>
        intro total nodup
        obtain ⟨new, nodup⟩ := List.nodup_cons.mp nodup
        have split : ∀ (field : Entry → UInt64) (entry : Entry),
            ((if comm entry.key = pid ∧ entry.key.op = op then field entry else 0) +
              if comm entry.key ∈ pid_list ∧ entry.key.op = op then field entry else 0) =
            if comm entry.key ∈ pid :: pid_list ∧ entry.key.op = op then field entry else 0 := by
          intro field entry
          simp only [List.mem_cons]
          by_cases here : comm entry.key = pid
          · simp [here, new]
          · simp [here]
        rw [List.foldl_cons, ih _ nodup, countCell_total]
        simp only [add_assoc, ← List.sum_map_add]
        simp only [split fun entry => entry.val.calls, split fun entry => entry.val.bytes]
  have nodup : (processes entries).Nodup := nodup_foldl_addUnique List.nodup_nil
  rw [sums _ _ nodup, opTotal]
  have inside : ∀ entry ∈ entries, comm entry.key ∈ processes entries := fun entry member =>
    mem_processes.mpr ⟨entry, member, rfl⟩
  have calls : (entries.map fun entry => if comm entry.key ∈ processes entries ∧ entry.key.op = op
      then entry.val.calls else 0) = entries.map fun entry =>
        if entry.key.op = op then entry.val.calls else 0 :=
    List.map_congr_left fun entry member => by simp only [inside entry member, true_and]
  have bytes : (entries.map fun entry => if comm entry.key ∈ processes entries ∧ entry.key.op = op
      then entry.val.bytes else 0) = entries.map fun entry =>
        if entry.key.op = op then entry.val.bytes else 0 :=
    List.map_congr_left fun entry member => by simp only [inside entry member, true_and]
  rw [calls, bytes, zero_add, zero_add]

/-- The text of the report. -/
theorem print_results_eq (entries : List Entry) :
    print_results entries (processes entries) (opColumns entries) =
      tableLine (ascii "PID\\OP".toList) ((opColumns entries).map header) ++
        ascii (dashes (opColumns entries).length) ++
        ((processes entries).flatMap fun pid =>
          tableLine pid (rowCells entries (opColumns entries) pid)) ++
        ascii (dashes (opColumns entries).length) ++
        tableLine (ascii "Total".toList)
          ((opColumns entries).map fun op => cell (opTotal entries op)) := by
  have zip : ∀ op_list : List ℤ, op_list.zip (List.replicate op_list.length ⟨0, 0⟩) =
      op_list.map fun op => (op, (⟨0, 0⟩ : CounterVal)) := by
    intro op_list
    induction op_list with
    | nil => rfl
    | cons op op_list ih => exact congrArg _ ih
  rw [print_results, printRows_eq _ _ _ _ List.length_replicate]
  simp only
  rw [zip, List.map_map, List.map_map]
  simp only [Function.comp_def, total_eq]

end Printed

/-! ## The words in the table -/

theorem isName_resolve_syscall (nr : ℤ) : IsName (resolve_syscall nr) := by
  have unknown : IsName "unknown".toList := by decide +kernel
  unfold resolve_syscall
  split_ifs
  · cases found : syscall_table.lookup nr.toNat with
    | none => exact unknown
    | some name =>
        obtain ⟨front, back, whole, -⟩ := List.lookup_eq_some_iff.mp found
        exact isName_table (nr.toNat, name) (by rw [whole]; simp)
  · exact unknown

/-- What is printed in a line of numbers, but for the blanks. -/
def CellChar (c : Char) : Prop := c.isDigit ∨ c = '/'

section Words

variable {c : Char} {val : CounterVal} {op : ℤ}

/-- A printable character of ASCII that is not a blank. -/
def Plain (c : Char) : Prop := 33 ≤ c.toNat ∧ c.toNat < 127

theorem Plain.isAscii (plain : Plain c) : IsAscii c := by
  have := plain.2
  show c.toNat < 128
  omega

theorem Plain.not_isSpace (plain : Plain c) : ¬ IsSpace c := by
  obtain ⟨low, high⟩ := plain
  unfold IsSpace
  simp only [List.mem_cons, List.not_mem_nil, or_false, not_or]
  omega

theorem Plain.not_isBreak (plain : Plain c) : ¬ IsBreak c := by
  rintro (rfl | rfl)
  · exact absurd plain.1 (by decide)
  · exact absurd plain.1 (by decide)

theorem plain_of_isDigit (digit : c.isDigit) : Plain c := by
  simp only [Char.isDigit, Bool.and_eq_true, decide_eq_true_eq] at digit
  have low : 48 ≤ c.toNat := digit.1
  have high : c.toNat ≤ 57 := digit.2
  exact ⟨by omega, by omega⟩

theorem isLower_bounds (lower : c.isLower) : 97 ≤ c.toNat ∧ c.toNat ≤ 122 := by
  obtain ⟨low, high⟩ := Bool.and_eq_true_iff.mp lower
  exact ⟨of_decide_eq_true low, of_decide_eq_true high⟩

theorem plain_of_isLower (lower : c.isLower) : Plain c := by
  obtain ⟨low, high⟩ := isLower_bounds lower
  exact ⟨by omega, by omega⟩

theorem NameChar.plain (named : NameChar c) : Plain c := by
  rcases named with lower | digit | rfl
  · exact plain_of_isLower lower
  · exact plain_of_isDigit digit
  · exact ⟨by decide, by decide⟩

theorem CellChar.plain (inCell : CellChar c) : Plain c := by
  rcases inCell with digit | rfl
  · exact plain_of_isDigit digit
  · exact ⟨by decide, by decide⟩

theorem isDigit_toDigits {n : ℕ} (member : c ∈ Nat.toDigits 10 n) : c.isDigit :=
  Nat.isDigit_of_mem_toDigits (by decide) (by decide) member

theorem cellChar_cell (member : c ∈ cell val) : CellChar c := by
  rcases List.mem_append.mp member with digit | rest
  · exact Or.inl (isDigit_toDigits digit)
  · rcases List.mem_cons.mp rest with rfl | digit
    · exact Or.inr rfl
    · exact Or.inl (isDigit_toDigits digit)

theorem isWord_cell (val : CounterVal) : IsWord (cell val) :=
  ⟨List.append_ne_nil_of_right_ne_nil _ (List.cons_ne_nil _ _),
    fun _ member => (cellChar_cell member).plain.not_isSpace⟩

theorem plain_header (member : c ∈ header op) : Plain c := by
  rcases List.mem_append.mp member with named | suffix
  · exact ((isName_resolve_syscall op).1 c named).plain
  · have all : ∀ d ∈ "(C/B)".toList, 33 ≤ d.toNat ∧ d.toNat < 127 := by decide
    exact all c suffix

theorem isWord_header (op : ℤ) : IsWord (header op) := by
  refine ⟨List.append_ne_nil_of_right_ne_nil _ ?_, fun _ member => (plain_header member).not_isSpace⟩
  decide

theorem plain_decimal {z : ℤ} (member : c ∈ decimal z) : Plain c := by
  unfold decimal at member
  split_ifs at member
  · rcases List.mem_cons.mp member with rfl | digit
    · exact ⟨by decide, by decide⟩
    · exact plain_of_isDigit (isDigit_toDigits digit)
  · exact plain_of_isDigit (isDigit_toDigits member)

/-! ### What the analyser makes of them -/

variable (upperFull : Char → List Char)

theorem operationName_header (op : ℤ) :
    operationName upperFull (header op) = upper upperFull (resolve_syscall op) := by
  have name : (header op).takeWhile (· ≠ '(') = resolve_syscall op := by
    have open_ : ∀ c ∈ resolve_syscall op, decide (c ≠ '(') = true := by
      intro c member
      have named := (isName_resolve_syscall op).1 c member
      rw [decide_eq_true_eq]
      rintro rfl
      exact absurd named (by decide)
    rw [header, List.takeWhile_append_of_pos open_]
    simp
  rw [operationName, name]

theorem int_toDigits (n : ℕ) : int (Nat.toDigits 10 n) = some n := by
  rw [int, if_pos ⟨Nat.toDigits_ne_nil, fun c member => isDigit_toDigits member⟩,
    Nat.ofDigitChars_ten_toDigits]

theorem operation_cell (op_string : List Char) (val : CounterVal) :
    operation upperFull op_string (cell val) =
      some (.counted (operationName upperFull op_string) val.calls.toNat val.bytes.toNat) := by
  have slash : '/' ∈ cell val := List.mem_append_right _ List.mem_cons_self
  have parts : (cell val).splitOn '/' =
      [Nat.toDigits 10 val.calls.toNat, Nat.toDigits 10 val.bytes.toNat] := by
    have joined : cell val = ['/'].intercalate
        [Nat.toDigits 10 val.calls.toNat, Nat.toDigits 10 val.bytes.toNat] := by
      simp [cell, List.intercalate]
    rw [joined, List.splitOn_intercalate]
    · intro l member digit
      have isDigit : '/'.isDigit := by
        rcases List.mem_cons.mp member with rfl | member
        · exact isDigit_toDigits digit
        · rw [List.mem_singleton.mp member] at digit
          exact isDigit_toDigits digit
      exact absurd isDigit (by decide)
    · exact List.cons_ne_nil _ _
  rw [operation, if_pos slash, parts]
  simp only [int_toDigits, Option.bind_eq_bind, Option.bind_some]

end Words

/-! ## The lines of the table -/

/-- What follows the name of a row. -/
def rowTail (width : ℕ) (cells : List (List Char)) : List Char :=
  List.replicate (30 - width) ' ' ++ columns 24 cells

theorem tableLine_eq (first : List UInt8) (cells : List (List Char)) :
    tableLine first cells = first ++ ascii (rowTail first.length cells) := rfl

theorem mem_columns {width : ℕ} {cells : List (List Char)} {c : Char}
    (member : c ∈ columns width cells) :
    (∃ cell ∈ cells, c ∈ cell) ∨ c = ' ' ∨ c = '\n' := by
  rcases List.mem_append.mp member with inside | last
  · obtain ⟨cell, here, inside⟩ := List.mem_flatMap.mp inside
    rcases List.mem_append.mp inside with own | blank
    · exact Or.inl ⟨cell, here, own⟩
    · exact Or.inr (Or.inl (List.eq_of_mem_replicate blank))
  · exact Or.inr (Or.inr (List.mem_singleton.mp last))

theorem isAscii_rowTail {width : ℕ} {cells : List (List Char)}
    (plain : ∀ cell ∈ cells, ∀ c ∈ cell, Plain c) {c : Char} (member : c ∈ rowTail width cells) :
    IsAscii c := by
  rcases List.mem_append.mp member with blank | inside
  · rw [List.eq_of_mem_replicate blank]
    decide
  · rcases mem_columns inside with ⟨cell, here, own⟩ | rfl | rfl
    · exact (plain cell here c own).isAscii
    · decide
    · decide

theorem rowTail_ne_nil (width : ℕ) (cells : List (List Char)) : rowTail width cells ≠ [] :=
  List.append_ne_nil_of_right_ne_nil _ (List.append_ne_nil_of_right_ne_nil _ (List.cons_ne_nil _ _))

/-- A line of the name of a process, and the line of the table it is in.  Only the last
one has the cells of the row behind it. -/
inductive RowLine (named printed : List Char) : Prop
  | inner (same : named = printed) (ended : printed.getLast? = some '\n')
  | last (unended : named.getLast? ≠ some '\n') (same : IsHeader named ↔ IsHeader printed)
      (cells : IsHeader named → ∃ w ∈ (words printed).tail, ∀ c ∈ w, CellChar c)

/-- What has a dash looks like the header line because of how it starts. -/
theorem isHeader_append {line : List Char} (dash : '-' ∈ line) (rest : List Char) :
    IsHeader line ↔ IsHeader (line ++ rest) := by
  constructor
  · intro starts
    exact starts.trans (List.prefix_append _ _)
  · intro starts
    by_cases long : "PID\\OP".toList.length ≤ line.length
    · exact List.prefix_of_prefix_length_le starts (List.prefix_append _ _) long
    · have inside : line <+: "PID\\OP".toList :=
        List.prefix_of_prefix_length_le (List.prefix_append _ _) starts (by omega)
      exact absurd (inside.subset dash) (by decide)

/-- The words behind a line with no line break are its own, then those of the cells. -/
theorem cells_behind {line : List Char} {blanks : ℕ} {cells : List (List Char)}
    (some_ : cells ≠ []) (words_ : ∀ cell ∈ cells, IsWord cell ∧ ∀ c ∈ cell, CellChar c)
    (starts : IsHeader line) :
    ∃ w ∈ (words (line ++ List.replicate (blanks + 1) ' ' ++ columns 24 cells)).tail,
      ∀ c ∈ w, CellChar c := by
  have behind : words (line ++ List.replicate (blanks + 1) ' ' ++ columns 24 cells) =
      words line ++ words (columns 24 cells) := by
    rw [List.replicate_succ, List.append_assoc, List.cons_append, words_append _ isSpace_blank,
      words_spaces]
    intro c member
    rw [List.eq_of_mem_replicate member]
    exact isSpace_blank
  have own : words line ≠ [] := by
    obtain ⟨rest, rfl⟩ := starts
    exact words_ne_nil (by decide) _
  have others : words (columns 24 cells) ≠ [] :=
    words_columns_ne_nil some_ fun cell member => (words_ cell member).1
  obtain ⟨w, ws, found⟩ := List.exists_cons_of_ne_nil others
  refine ⟨w, ?_, fun c member => ?_⟩
  · rw [behind, List.tail_append_of_ne_nil own, found]
    exact List.mem_append_right _ List.mem_cons_self
  · obtain ⟨-, chars⟩ := mem_words (found ▸ List.mem_cons_self : w ∈ words (columns 24 cells))
    obtain ⟨inside, apart⟩ := chars c member
    rcases mem_columns inside with ⟨cell, here, own⟩ | rfl | rfl
    · exact (words_ cell here).2 c own
    · exact absurd isSpace_blank apart
    · exact absurd isSpace_newline apart

/-- **The lines of a row** are those of its name; the last goes on with the cells. -/
theorem row_lines (command : List Char) (pid : ℤ) {blanks : ℕ} {cells : List (List Char)}
    (some_ : cells ≠ []) (words_ : ∀ cell ∈ cells, IsWord cell ∧ ∀ c ∈ cell, CellChar c) :
    ∃ lines : List (List Char × List Char),
      lines.map Prod.fst = readlines (command ++ '-' :: decimal pid) ∧
      lines.map Prod.snd = readlines (command ++ '-' :: decimal pid ++
        (List.replicate (blanks + 1) ' ' ++ columns 24 cells)) ∧
      ∀ line ∈ lines, RowLine line.1 line.2 := by
  obtain ⟨init, last, ended, extend⟩ := readlines_extend command
  have suffix : ∀ c ∈ '-' :: decimal pid, Plain c :=
    List.forall_mem_cons.mpr ⟨⟨by decide, by decide⟩, fun c member => plain_decimal member⟩
  have inner : ∀ c ∈ '-' :: decimal pid, ¬ IsBreak c := fun c member =>
    (suffix c member).not_isBreak
  have inner' : ∀ c ∈ '-' :: decimal pid ++ List.replicate (blanks + 1) ' ' ++
      cells.flatMap (padTo 24), ¬ IsBreak c := by
    intro c member
    rcases List.mem_append.mp member with front | inside
    · rcases List.mem_append.mp front with own | blank
      · exact inner c own
      · rw [List.eq_of_mem_replicate blank]
        decide
    · obtain ⟨cell, here, inside⟩ := List.mem_flatMap.mp inside
      rcases List.mem_append.mp inside with own | blank
      · exact ((words_ cell here).2 c own).plain.not_isBreak
      · rw [List.eq_of_mem_replicate blank]
        decide
  obtain ⟨bare, -⟩ := extend _ (List.cons_ne_nil _ _) inner
  have row := (extend ('-' :: decimal pid ++ List.replicate (blanks + 1) ' ' ++
    cells.flatMap (padTo 24)) (List.cons_ne_nil _ _) inner').2
  -- the characters of a row, in another order of brackets
  have brackets : ∀ front : List Char, front ++ '-' :: decimal pid ++
      (List.replicate (blanks + 1) ' ' ++ columns 24 cells) =
      front ++ ('-' :: decimal pid ++ List.replicate (blanks + 1) ' ' ++ cells.flatMap (padTo 24)) ++
        ['\n'] := by
    intro front
    simp only [columns, List.append_assoc, List.cons_append]
  have firsts : init.map (Prod.fst ∘ fun line : List Char => (line, line)) = init :=
    List.map_id' init
  have seconds : init.map (Prod.snd ∘ fun line : List Char => (line, line)) = init :=
    List.map_id' init
  refine ⟨init.map (fun line => (line, line)) ++ [(last ++ '-' :: decimal pid,
    last ++ '-' :: decimal pid ++ (List.replicate (blanks + 1) ' ' ++ columns 24 cells))],
    ?_, ?_, fun line member => ?_⟩
  · rw [bare, List.map_append, List.map_map, firsts]
    rfl
  · rw [brackets command, brackets last, row, List.map_append, List.map_map, seconds]
    rfl
  · rcases List.mem_append.mp member with complete | final
    · obtain ⟨same, here, rfl⟩ := List.mem_map.mp complete
      exact .inner rfl (ended _ here)
    · rw [List.mem_singleton.mp final]
      refine .last ?_ (isHeader_append (List.mem_append_right _ List.mem_cons_self) _) fun starts => ?_
      · rw [List.getLast?_append_of_ne_nil _ (List.cons_ne_nil _ _)]
        intro newline
        exact absurd (suffix _ (List.mem_of_getLast? newline)).1 (by decide)
      · rw [← List.append_assoc]
        exact cells_behind some_ words_ starts

/-! ## Reading a text -/

/-- The name of an operation in what is printed about it. -/
def Operation.name : Operation → List Char
  | .counted operation_name _ _ => operation_name
  | .bare operation_name _ => operation_name

section Analysis

variable {upperFull : Char → List Char} {headers totals : List (List Char)}

theorem operation_name {op_string values : List Char} {found : Operation}
    (read : operation upperFull op_string values = some found) :
    found.name = operationName upperFull op_string := by
  unfold operation at read
  split_ifs at read
  · split at read
    · obtain ⟨count, -, read⟩ := Option.bind_eq_some_iff.mp read
      obtain ⟨bytes, -, read⟩ := Option.bind_eq_some_iff.mp read
      cases read
      rfl
    · cases read
  · cases read
    rfl

/-- There are as many results as headers, and no fewer totals. -/
theorem operations_names : ∀ {headers totals : List (List Char)} {found : List Operation},
    operations upperFull headers totals = some found →
    found.map Operation.name = headers.map (operationName upperFull) ∧
      headers.length ≤ totals.length
  | [], totals, found, read => by
      cases read
      exact ⟨rfl, Nat.zero_le _⟩
  | header :: headers, [], found, read => by cases read
  | header :: headers, total :: totals, found, read => by
      obtain ⟨first, here, read⟩ := Option.bind_eq_some_iff.mp read
      obtain ⟨rest, later, read⟩ := Option.bind_eq_some_iff.mp read
      cases read
      obtain ⟨names, enough⟩ := operations_names later
      exact ⟨congrArg₂ List.cons (operation_name here) names, Nat.succ_le_succ enough⟩

theorem operations_cells : ∀ {headers : List (List Char)} {vals : List CounterVal},
    headers.length = vals.length → operations upperFull headers (vals.map cell) =
      some (List.zipWith (fun name val => .counted name val.calls.toNat val.bytes.toNat)
        (headers.map (operationName upperFull)) vals)
  | [], vals, _ => by
      cases vals <;> rfl
  | header :: headers, [], length => by cases length
  | header :: headers, val :: vals, length => by
      rw [List.map_cons, operations, operation_cell, operations_cells (Nat.succ.inj length)]
      rfl

/-- The headers are those of the last line that looks like the header line. -/
theorem foldl_scanLine (lines : List (List Char)) (found : List (List Char) × List (List Char)) :
    (lines.foldl scanLine found).1 =
      ((lines.filter (IsHeader ·)).getLast?.map fun line => (words line).tail).getD found.1 := by
  induction lines using List.reverseRecOn with
  | nil => rfl
  | append_singleton lines line ih =>
      rw [List.foldl_append, List.foldl_cons, List.foldl_nil, scanLine, List.filter_append]
      by_cases header : IsHeader line
      · simp [header]
      · by_cases total : IsTotal line
        · simpa [header, total] using ih
        · simpa [header, total] using ih

/-- The totals are those of the last line. -/
theorem scan_total (lines : List (List Char)) {line : List Char} (total : IsTotal line) :
    (lines ++ [line]).foldl scanLine ([], []) =
      ((lines.foldl scanLine ([], [])).1, (words line).tail) := by
  have other : ¬ IsHeader line := by
    rintro ⟨rest, rfl⟩
    obtain ⟨rest', same⟩ := total
    cases same
  rw [List.foldl_append, List.foldl_cons, List.foldl_nil, scanLine, if_neg other, if_pos total]

end Analysis

/-! ## The text of the report -/

section Report

variable {entries : List Entry}

/-- The parts of the text: bytes, and the ASCII characters that follow them. -/
def pieces (entries : List Entry) : List (List UInt8 × List Char) :=
  (ascii "PID\\OP".toList, rowTail 6 ((opColumns entries).map header)) ::
    ([], dashes (opColumns entries).length) ::
    ((processes entries).map fun pid =>
      (pid, rowTail pid.length (rowCells entries (opColumns entries) pid))) ++
    [([], dashes (opColumns entries).length),
      (ascii "Total".toList, rowTail 5 ((opColumns entries).map fun op => cell (opTotal entries op)))]

theorem print_results_pieces (entries : List Entry) :
    print_results entries (processes entries) (opColumns entries) =
      (pieces entries).flatMap fun piece => piece.1 ++ ascii piece.2 := by
  rw [print_results_eq, pieces, List.cons_append, List.flatMap_cons, List.cons_append,
    List.flatMap_cons, List.flatMap_append, List.flatMap_map]
  simp only [List.flatMap_cons, List.flatMap_nil, List.append_nil, List.nil_append,
    List.append_assoc]
  rfl

theorem rowCells_words {op_list : List ℤ} {pid : List UInt8} :
    ∀ cell ∈ rowCells entries op_list pid, IsWord cell ∧ ∀ c ∈ cell, CellChar c := by
  intro word member
  obtain ⟨op, -, rfl⟩ := List.mem_map.mp member
  exact ⟨isWord_cell _, fun c inside => cellChar_cell inside⟩

/-- Each part ends a line. -/
theorem mem_pieces {piece : List UInt8 × List Char} (member : piece ∈ pieces entries) :
    (∃ body, piece.2 = body ++ ['\n']) ∧ (∀ d ∈ piece.2, IsAscii d) ∧
      (piece.1 ∈ processes entries ∨ (decode piece.1).isSome) := by
  have dashed : (∃ body, dashes (opColumns entries).length = body ++ ['\n']) ∧
      ∀ d ∈ dashes (opColumns entries).length, IsAscii d := by
    refine ⟨⟨_, rfl⟩, fun d inside => ?_⟩
    rcases List.mem_append.mp inside with dash | last
    · rw [List.eq_of_mem_replicate dash]
      decide
    · rw [List.mem_singleton.mp last]
      decide
  have tail : ∀ width cells, ∃ body, rowTail width cells = body ++ ['\n'] := fun width cells =>
    ⟨_, (List.append_assoc _ _ _).symm⟩
  have literal : ∀ cs : List Char, (∀ c ∈ cs, IsAscii c) → (decode (ascii cs)).isSome := by
    intro cs small
    rw [← encode_ascii small, decode_encode]
    rfl
  rcases List.mem_append.mp member with front | back
  · rcases List.mem_cons.mp front with rfl | front
    · refine ⟨tail _ _, fun d inside => isAscii_rowTail (fun word here c own => ?_) inside,
        Or.inr (literal _ (by decide))⟩
      obtain ⟨op, -, rfl⟩ := List.mem_map.mp here
      exact plain_header own
    · rcases List.mem_cons.mp front with rfl | front
      · exact ⟨dashed.1, dashed.2, Or.inr (literal [] (by decide))⟩
      · obtain ⟨pid, here, rfl⟩ := List.mem_map.mp front
        refine ⟨tail _ _, fun d inside => isAscii_rowTail (fun word here c own => ?_) inside,
          Or.inl here⟩
        exact ((rowCells_words word here).2 c own).plain
  · rcases List.mem_cons.mp back with rfl | back
    · exact ⟨dashed.1, dashed.2, Or.inr (literal [] (by decide))⟩
    · rw [List.mem_singleton.mp back]
      refine ⟨tail _ _, fun d inside => isAscii_rowTail (fun word here c own => ?_) inside,
        Or.inr (literal _ (by decide))⟩
      obtain ⟨op, -, rfl⟩ := List.mem_map.mp here
      exact (cellChar_cell own).plain

theorem nonempty_of_ended {cs : List Char} (ended : ∃ body, cs = body ++ ['\n']) : cs ≠ [] := by
  obtain ⟨body, rfl⟩ := ended
  exact List.append_ne_nil_of_right_ne_nil _ (List.cons_ne_nil _ _)

/-- The report is UTF-8 if and only if the names of the processes are. -/
theorem decode_report (entries : List Entry) :
    (decode (print_results entries (processes entries) (opColumns entries))).isSome ↔
      ∀ pid ∈ processes entries, (decode pid).isSome := by
  rw [print_results_pieces, decode_pieces _ fun piece member =>
    ⟨nonempty_of_ended (mem_pieces member).1, (mem_pieces member).2.1⟩]
  constructor
  · intro all pid member
    exact all (pid, _) (List.mem_append_left _ (List.mem_cons_of_mem _ (List.mem_cons_of_mem _
      (List.mem_map_of_mem member))))
  · intro all piece member
    exact (mem_pieces member).2.2.elim (all _) id

/-- A line whose name has no line break. -/
theorem readlines_rowTail {first : List Char} {width : ℕ} {cells : List (List Char)}
    (nonempty : first ≠ []) (plain : ∀ c ∈ first, Plain c)
    (plain' : ∀ cell ∈ cells, ∀ c ∈ cell, Plain c) :
    readlines (first ++ rowTail width cells) = [first ++ rowTail width cells] := by
  have inner : ∀ c ∈ first ++ List.replicate (30 - width) ' ' ++ cells.flatMap (padTo 24),
      ¬ IsBreak c := by
    intro c member
    rcases List.mem_append.mp member with front | inside
    · rcases List.mem_append.mp front with own | blank
      · exact (plain c own).not_isBreak
      · rw [List.eq_of_mem_replicate blank]
        decide
    · obtain ⟨cell, here, inside⟩ := List.mem_flatMap.mp inside
      rcases List.mem_append.mp inside with own | blank
      · exact (plain' cell here c own).not_isBreak
      · rw [List.eq_of_mem_replicate blank]
        decide
  have brackets : first ++ rowTail width cells =
      first ++ List.replicate (30 - width) ' ' ++ cells.flatMap (padTo 24) ++ ['\n'] := by
    simp only [rowTail, columns, List.append_assoc]
  rw [brackets]
  refine (readlines_line ?_ inner).2
  rw [List.append_assoc]
  exact List.append_ne_nil_of_left_ne_nil nonempty _

theorem readlines_dashes (op_count : ℕ) : readlines (dashes op_count) = [dashes op_count] := by
  refine (readlines_line ?_ fun c member => ?_).2
  · rw [Nat.add_comm, List.replicate_succ]
    exact List.cons_ne_nil _ _
  · rw [List.eq_of_mem_replicate member]
    decide

theorem decode_ascii {cs : List Char} (small : ∀ c ∈ cs, IsAscii c) :
    (decode (ascii cs)).getD [] = cs := by
  rw [← encode_ascii small, decode_encode]
  rfl

/-- The lines of the report. -/
theorem readlines_report (valid : ∀ pid ∈ processes entries, (decode pid).isSome) :
    ∃ text, decode (print_results entries (processes entries) (opColumns entries)) = some text ∧
      readlines text =
        ["PID\\OP".toList ++ rowTail 6 ((opColumns entries).map header),
          dashes (opColumns entries).length] ++
        ((processes entries).flatMap fun pid => readlines ((decode pid).getD [] ++
          rowTail pid.length (rowCells entries (opColumns entries) pid))) ++
        [dashes (opColumns entries).length] ++
        ["Total".toList ++ rowTail 5 ((opColumns entries).map fun op => cell (opTotal entries op))] := by
  have decoded : ∀ piece ∈ pieces entries, encode ((decode piece.1).getD []) = piece.1 := by
    intro piece member
    obtain ⟨cs, found⟩ := Option.isSome_iff_exists.mp ((mem_pieces member).2.2.elim (valid _) id)
    rw [found, Option.getD_some]
    exact (decode_eq_some.mp found).symm
  have whole := decode_flatMap (pieces entries) (fun piece => (decode piece.1).getD [])
    (fun piece => piece.2) fun piece member => (mem_pieces member).2.1
  refine ⟨_, (congrArg decode ?_).trans whole, ?_⟩
  · rw [print_results_pieces]
    exact List.flatMap_congr fun piece member => by rw [decoded piece member]
  · have cut := readlines_flatMap (pieces entries)
      (fun piece => (decode piece.1).getD [] ++ piece.2) (fun piece member => by
        obtain ⟨body, same⟩ := (mem_pieces member).1
        exact ⟨(decode piece.1).getD [] ++ body, by rw [same, List.append_assoc]⟩) []
    have nothing : (decode []).getD [] = [] := decode_ascii fun c member =>
      absurd member List.not_mem_nil
    have first : readlines ("PID\\OP".toList ++ rowTail 6 ((opColumns entries).map header)) =
        ["PID\\OP".toList ++ rowTail 6 ((opColumns entries).map header)] := by
      refine readlines_rowTail (by decide) (by unfold Plain; decide) fun word here c own => ?_
      obtain ⟨op, -, rfl⟩ := List.mem_map.mp here
      exact plain_header own
    have last : readlines ("Total".toList ++
          rowTail 5 ((opColumns entries).map fun op => cell (opTotal entries op))) =
        ["Total".toList ++
          rowTail 5 ((opColumns entries).map fun op => cell (opTotal entries op))] := by
      refine readlines_rowTail (by decide) (by unfold Plain; decide) fun word here c own => ?_
      obtain ⟨op, -, rfl⟩ := List.mem_map.mp here
      exact (cellChar_cell own).plain
    rw [List.append_nil] at cut
    rw [cut, pieces, List.cons_append, List.flatMap_cons, List.cons_append, List.flatMap_cons,
      List.flatMap_append, List.flatMap_map, List.flatMap_cons, List.flatMap_cons, List.flatMap_nil]
    simp only [nothing, List.nil_append]
    rw [decode_ascii (by decide), decode_ascii (by decide), first, last, readlines_dashes]
    simp only [readlines, List.append_nil, List.append_assoc, List.cons_append, List.nil_append]

/-- The lines of the names of the processes. -/
def nameLines (entries : List Entry) : List (List Char) :=
  (processes entries).flatMap fun pid => readlines ((decode pid).getD [])

/-- The name of a process is UTF-8 if its command is. -/
theorem decode_comm (entry : Entry) :
    (decode (comm entry.key)).isSome ↔ (decode entry.key.command.bytes).isSome := by
  have suffix : ∀ c ∈ '-' :: decimal entry.key.pid, IsAscii c :=
    List.forall_mem_cons.mpr ⟨by decide, fun c member => (plain_decimal member).isAscii⟩
  have parts := decode_pieces [(entry.key.command.bytes, '-' :: decimal entry.key.pid)]
    (List.forall_mem_singleton.mpr ⟨List.cons_ne_nil _ _, suffix⟩)
  rw [List.flatMap_singleton, List.forall_mem_singleton] at parts
  exact parts

/-- **The lines of the rows** are those of the names; some go on with cells. -/
theorem rows_lines (valid : ∀ pid ∈ processes entries, (decode pid).isSome) :
    ∃ lines : List (List Char × List Char), lines.map Prod.fst = nameLines entries ∧
      lines.map Prod.snd = ((processes entries).flatMap fun pid => readlines ((decode pid).getD [] ++
        rowTail pid.length (rowCells entries (opColumns entries) pid))) ∧
      ∀ line ∈ lines, RowLine line.1 line.2 := by
  have row : ∀ pid ∈ processes entries, ∃ lines : List (List Char × List Char),
      lines.map Prod.fst = readlines ((decode pid).getD []) ∧
      lines.map Prod.snd = readlines ((decode pid).getD [] ++
        rowTail pid.length (rowCells entries (opColumns entries) pid)) ∧
      ∀ line ∈ lines, RowLine line.1 line.2 := by
    intro pid member
    obtain ⟨entry, here, rfl⟩ := mem_processes.mp member
    obtain ⟨command, read⟩ := Option.isSome_iff_exists.mp ((decode_comm entry).mp (valid _ member))
    have name : decode (comm entry.key) = some (command ++ '-' :: decimal entry.key.pid) := by
      have suffix : ∀ c ∈ '-' :: decimal entry.key.pid, IsAscii c :=
        List.forall_mem_cons.mpr ⟨by decide, fun c inside => (plain_decimal inside).isAscii⟩
      rw [decode_eq_some, encode_append, encode_ascii suffix, ← decode_eq_some.mp read]
      rfl
    have cells : rowCells entries (opColumns entries) (comm entry.key) ≠ [] := by
      have column := mem_opColumns.mpr ⟨entry, here, rfl⟩
      intro empty
      rw [List.map_eq_nil_iff.mp empty] at column
      exact absurd column List.not_mem_nil
    obtain ⟨blanks, room⟩ : ∃ blanks, 30 - (comm entry.key).length = blanks + 1 := by
      have short := length_comm entry
      exact ⟨29 - (comm entry.key).length, by omega⟩
    rw [name, Option.getD_some, rowTail, room]
    exact row_lines command entry.key.pid cells rowCells_words
  unfold nameLines
  generalize processes entries = pids at row
  induction pids with
  | nil => exact ⟨[], rfl, rfl, fun line member => absurd member List.not_mem_nil⟩
  | cons pid pids ih =>
      obtain ⟨lines, names, printed, related⟩ := row pid List.mem_cons_self
      obtain ⟨lines', names', printed', related'⟩ :=
        ih fun other member => row other (List.mem_cons_of_mem _ member)
      refine ⟨lines ++ lines', ?_, ?_, fun line member => ?_⟩
      · rw [List.map_append, names, names', List.flatMap_cons]
      · rw [List.map_append, printed, printed', List.flatMap_cons]
      · exact (List.mem_append.mp member).elim (related line) (related' line)

end Report

/-! ## When the report is read back -/

section ReadBack

variable (upperFull : Char → List Char) (entries : List Entry)

/-- What should be read: each operation with its total calls and bytes. -/
def expected : List Operation :=
  (opColumns entries).map fun op => .counted (upper upperFull (resolve_syscall op))
    (opTotal entries op).calls.toNat (opTotal entries op).bytes.toNat

/-- What makes a report readable: it fits into the arrays and is UTF-8; the columns of the
headers and of the totals, but for the last, leave room for a blank; and no line of the
name of a process looks like the header line.  Should one do, the last that does must be
no worse than the header line: a complete line that lists the operations. -/
structure Readable : Prop where
  rows : (processes entries).length ≤ MAX_PIDS
  columns : (opColumns entries).length ≤ MAX_OPS
  utf8 : ∀ entry ∈ entries, (decode entry.key.command.bytes).isSome
  headers :
    match ((nameLines entries).filter (IsHeader ·)).getLast? with
    | none => ∀ op ∈ (opColumns entries).dropLast, (resolve_syscall op).length < 19
    | some line => line.getLast? = some '\n' ∧ (words line).tail.map (operationName upperFull) =
        (opColumns entries).map fun op => upper upperFull (resolve_syscall op)
  totals : ∀ op ∈ (opColumns entries).dropLast, (cell (opTotal entries op)).length < 24

variable {upperFull entries}

/-- The headers and the totals are read, each name and each number for itself. -/
theorem operations_eq_expected {headers totals : List (List Char)}
    (cells : totals = words (columns 24 ((opColumns entries).map fun op => cell (opTotal entries op)))) :
    operations upperFull headers totals = some (expected upperFull entries) ↔
      headers.map (operationName upperFull) =
          (opColumns entries).map (fun op => upper upperFull (resolve_syscall op)) ∧
        ∀ op ∈ (opColumns entries).dropLast, (cell (opTotal entries op)).length < 24 := by
  have allWords : ∀ word ∈ (opColumns entries).map fun op => cell (opTotal entries op),
      IsWord word := by
    intro word member
    obtain ⟨op, -, rfl⟩ := List.mem_map.mp member
    exact isWord_cell _
  have names : (expected upperFull entries).map Operation.name =
      (opColumns entries).map fun op => upper upperFull (resolve_syscall op) := by
    rw [expected, List.map_map]
    rfl
  have short : (∀ word ∈ ((opColumns entries).map fun op => cell (opTotal entries op)).dropLast,
      word.length < 24) ↔
      ∀ op ∈ (opColumns entries).dropLast, (cell (opTotal entries op)).length < 24 := by
    rw [← List.map_dropLast, List.forall_mem_map]
  constructor
  · intro read
    obtain ⟨found, enough⟩ := operations_names read
    rw [names] at found
    refine ⟨found.symm, short.mp ?_⟩
    obtain ⟨fewer, complete⟩ := short_of_length_words 24 allWords
    refine complete (le_antisymm fewer ?_)
    have count := congrArg List.length found
    rw [List.length_map, List.length_map] at count
    rw [List.length_map, count, ← cells]
    exact enough
  · rintro ⟨found, narrow⟩
    have all := words_columns allWords (short.mpr narrow)
    have count : headers.length = ((opColumns entries).map fun op => opTotal entries op).length := by
      have lengths := congrArg List.length found
      rwa [List.length_map, List.length_map, ← List.length_map (f := fun op => opTotal entries op)]
        at lengths
    have vals : totals = ((opColumns entries).map fun op => opTotal entries op).map cell := by
      rw [cells, all, List.map_map]
      rfl
    rw [vals, operations_cells count, found, List.zipWith_map, List.zipWith_self]
    rfl

theorem words_header_line : words ("PID\\OP".toList ++ rowTail 6 ((opColumns entries).map header)) =
    "PID\\OP".toList :: words (columns 24 ((opColumns entries).map header)) := by
  rw [rowTail, ← List.append_assoc]
  show words (padTo 30 "PID\\OP".toList ++ _) = _
  rw [words_padTo ⟨by decide, by decide⟩ (by decide)]

/-- The header line is read as the operations if its columns leave room for blanks. -/
theorem header_line_eq : ((words ("PID\\OP".toList ++ rowTail 6 ((opColumns entries).map header))).tail.map
      (operationName upperFull) = (opColumns entries).map fun op => upper upperFull (resolve_syscall op)) ↔
    ∀ op ∈ (opColumns entries).dropLast, (resolve_syscall op).length < 19 := by
  have allWords : ∀ word ∈ (opColumns entries).map header, IsWord word := by
    intro word member
    obtain ⟨op, -, rfl⟩ := List.mem_map.mp member
    exact isWord_header _
  have short : (∀ word ∈ ((opColumns entries).map header).dropLast, word.length < 24) ↔
      ∀ op ∈ (opColumns entries).dropLast, (resolve_syscall op).length < 19 := by
    rw [← List.map_dropLast, List.forall_mem_map]
    refine forall₂_congr fun op _ => ?_
    have length : (header op).length = (resolve_syscall op).length + 5 := by
      rw [header, List.length_append]
      rfl
    rw [length]
    exact ⟨fun bound => by omega, fun bound => by omega⟩
  rw [words_header_line, List.tail_cons, ← short]
  constructor
  · intro read
    have count := congrArg List.length read
    rw [List.length_map, List.length_map] at count
    refine (short_of_length_words 24 allWords).2 ?_
    rw [count, List.length_map]
  · intro narrow
    rw [words_columns allWords narrow, List.map_map]
    exact List.map_congr_left fun op _ => operationName_header upperFull op

/-- The cells of a row are no names of operations. -/
theorem cell_not_name {w : List Char} (numbers : ∀ c ∈ w, CellChar c) (op : ℤ) :
    operationName upperFull w ≠ upper upperFull (resolve_syscall op) := by
  have fixed : ∀ c, CellChar c → c.toUpper = c := by
    rintro c (digit | rfl)
    · have all : ∀ n < 10, (Char.ofNat (48 + n)).toUpper = Char.ofNat (48 + n) := by decide
      simp only [Char.isDigit, Bool.and_eq_true, decide_eq_true_eq] at digit
      have low : 48 ≤ c.toNat := digit.1
      have high : c.toNat ≤ 57 := digit.2
      have here := all (c.toNat - 48) (by omega)
      rwa [Nat.add_sub_cancel' low, Char.ofNat_toNat] at here
    · rfl
  obtain ⟨-, c, member, lower⟩ := isName_resolve_syscall op
  have letter : ¬ CellChar c.toUpper := by
    have all : ∀ n < 26, ¬ CellChar (Char.ofNat (97 + n)).toUpper := by
      unfold CellChar
      decide
    obtain ⟨low, high⟩ := isLower_bounds lower
    have here := all (c.toNat - 97) (by omega)
    rwa [Nat.add_sub_cancel' low, Char.ofNat_toNat] at here
  intro same
  have inside : c.toUpper ∈ upper upperFull (resolve_syscall op) := by
    refine List.mem_flatMap.mpr ⟨c, member, ?_⟩
    rw [if_pos (plain_of_isLower lower).isAscii]
    exact List.mem_singleton_self _
  rw [← same] at inside
  obtain ⟨d, own, upper_⟩ := List.mem_flatMap.mp inside
  have number := numbers d ((List.takeWhile_prefix _).subset own)
  rw [if_pos number.plain.isAscii, List.mem_singleton, fixed d number] at upper_
  exact letter (upper_ ▸ number)

/-- What the analyser makes of the report. -/
theorem analyse_report (upperFull : Char → List Char)
    (valid : ∀ pid ∈ processes entries, (decode pid).isSome) :
    ∃ headers, analyse_syscounter upperFull
          (print_results entries (processes entries) (opColumns entries)) =
        operations upperFull headers
          (words (columns 24 ((opColumns entries).map fun op => cell (opTotal entries op)))) ∧
      (headers.map (operationName upperFull) =
          ((opColumns entries).map fun op => upper upperFull (resolve_syscall op)) ↔
        match ((nameLines entries).filter (IsHeader ·)).getLast? with
        | none => ∀ op ∈ (opColumns entries).dropLast, (resolve_syscall op).length < 19
        | some line => line.getLast? = some '\n' ∧ (words line).tail.map (operationName upperFull) =
            (opColumns entries).map fun op => upper upperFull (resolve_syscall op)) := by
  obtain ⟨text, decoded, lines⟩ := readlines_report valid
  obtain ⟨rows, names, printed, related⟩ := rows_lines valid
  have dashed : ¬ IsHeader (dashes (opColumns entries).length) := by
    rintro ⟨rest, same⟩
    rw [dashes, Nat.add_comm, List.replicate_succ] at same
    cases same
  -- the lines of the rows that look like the header line are those of the names that do
  have printedRows : ((processes entries).flatMap fun pid => readlines ((decode pid).getD [] ++
      rowTail pid.length (rowCells entries (opColumns entries) pid))).filter (IsHeader ·) =
      (rows.filter (IsHeader ·.1)).map Prod.snd := by
    rw [← printed, List.filter_map]
    refine congrArg _ (List.filter_congr fun line member => decide_eq_decide.mpr ?_)
    cases related line member with
    | inner same ended => rw [same]
    | last unended same cells => exact same.symm
  have namedRows : (nameLines entries).filter (IsHeader ·) =
      (rows.filter (IsHeader ·.1)).map Prod.fst := by
    rw [← names, List.filter_map]
    rfl
  have starts : IsHeader ("PID\\OP".toList ++ rowTail 6 ((opColumns entries).map header)) :=
    List.prefix_append _ _
  have total : IsTotal ("Total".toList ++
      rowTail 5 ((opColumns entries).map fun op => cell (opTotal entries op))) :=
    List.prefix_append _ _
  have totals : (words ("Total".toList ++
      rowTail 5 ((opColumns entries).map fun op => cell (opTotal entries op)))).tail =
      words (columns 24 ((opColumns entries).map fun op => cell (opTotal entries op))) := by
    rw [rowTail, ← List.append_assoc]
    show (words (padTo 30 "Total".toList ++ _)).tail = _
    rw [words_padTo ⟨by decide, by decide⟩ (by decide), List.tail_cons]
  have scanned := scan_total (["PID\\OP".toList ++ rowTail 6 ((opColumns entries).map header),
      dashes (opColumns entries).length] ++ ((processes entries).flatMap fun pid =>
        readlines ((decode pid).getD [] ++
          rowTail pid.length (rowCells entries (opColumns entries) pid))) ++
      [dashes (opColumns entries).length]) total
  have front : ∀ line line' : List Char, IsHeader line → ¬ IsHeader line' →
      [line, line'].filter (IsHeader ·) = [line] := fun line line' yes no => by simp [yes, no]
  have back : ∀ line : List Char, ¬ IsHeader line → [line].filter (IsHeader ·) = [] :=
    fun line no => by simp [no]
  rw [← lines, foldl_scanLine, List.filter_append, List.filter_append, printedRows,
    front _ _ starts dashed, back _ dashed, List.append_nil, List.singleton_append,
    List.getLast?_cons, List.getLast?_map, totals] at scanned
  rw [namedRows, List.getLast?_map]
  -- the headers are those of one line, and the totals are there if there are columns
  have analysed : ∀ headers, (headers ≠ [] → opColumns entries ≠ []) →
      (readlines text).foldl scanLine ([], []) = (headers,
        words (columns 24 ((opColumns entries).map fun op => cell (opTotal entries op)))) →
      analyse_syscounter upperFull (print_results entries (processes entries) (opColumns entries)) =
        operations upperFull headers
          (words (columns 24 ((opColumns entries).map fun op => cell (opTotal entries op)))) := by
    intro headers some_ found
    rw [analyse_syscounter, decoded]
    show (if ((readlines text).foldl scanLine ([], [])).1 = [] ∨
        ((readlines text).foldl scanLine ([], [])).2 = [] then some [] else _) = _
    rw [found]
    by_cases none_ : headers = []
    · rw [none_]
      exact if_pos (Or.inl rfl)
    · refine if_neg (not_or.mpr ⟨none_, words_columns_ne_nil ?_ fun word member => ?_⟩)
      · exact fun empty => some_ none_ (List.map_eq_nil_iff.mp empty)
      · obtain ⟨op, -, rfl⟩ := List.mem_map.mp member
        exact isWord_cell _
  cases last : (rows.filter (IsHeader ·.1)).getLast? with
  | none =>
      rw [last] at scanned
      refine ⟨_, analysed (words ("PID\\OP".toList ++ rowTail 6 ((opColumns entries).map header))).tail
        (fun some_ empty => some_ ?_) scanned, header_line_eq⟩
      rw [words_header_line, empty, List.tail_cons]
      exact words_columns (fun _ member => absurd member List.not_mem_nil)
        fun _ member => absurd member List.not_mem_nil
  | some line =>
      obtain ⟨inside, looks⟩ := List.mem_filter.mp (List.mem_of_getLast? last)
      rw [last] at scanned
      refine ⟨_, analysed (words line.2).tail (fun _ empty => ?_) scanned, ?_⟩
      · -- a line of a row is there because of an entry, which has a column
        have named : line.1 ∈ nameLines entries := names ▸ List.mem_map_of_mem inside
        obtain ⟨pid, process, -⟩ := List.mem_flatMap.mp named
        obtain ⟨entry, here, -⟩ := mem_processes.mp process
        have column := mem_opColumns.mpr ⟨entry, here, rfl⟩
        rw [empty] at column
        exact absurd column List.not_mem_nil
      · cases related line inside with
        | inner same ended =>
            show _ ↔ line.1.getLast? = some '\n' ∧ _
            rw [same]
            exact ⟨fun read => ⟨ended, read⟩, fun both => both.2⟩
        | last unended same cells =>
            refine ⟨fun read => ?_, fun both => absurd both.1 unended⟩
            obtain ⟨w, member, numbers⟩ := cells (of_decide_eq_true looks)
            have named := List.mem_map_of_mem (f := operationName upperFull) member
            rw [read] at named
            obtain ⟨op, -, equal⟩ := List.mem_map.mp named
            exact absurd equal.symm (cell_not_name numbers op)

theorem decode_processes : (∀ pid ∈ processes entries, (decode pid).isSome) ↔
    ∀ entry ∈ entries, (decode entry.key.command.bytes).isSome := by
  constructor
  · intro all entry member
    exact (decode_comm entry).mp (all _ (mem_processes.mpr ⟨entry, member, rfl⟩))
  · intro all pid member
    obtain ⟨entry, here, rfl⟩ := mem_processes.mp member
    exact (decode_comm entry).mpr (all entry here)

/-- A report that is read back was readable. -/
theorem readable_of_read {text : List UInt8} (printed : report entries = some text)
    (read : analyse_syscounter upperFull text = some (expected upperFull entries)) :
    Readable upperFull entries := by
  rw [report_eq] at printed
  split_ifs at printed with fits
  cases printed
  have valid : ∀ pid ∈ processes entries, (decode pid).isSome := by
    rw [← decode_report]
    obtain ⟨chars, decoded, -⟩ := Option.bind_eq_some_iff.mp read
    rw [decoded]
    rfl
  obtain ⟨headers, analysed, asked⟩ := analyse_report upperFull valid
  rw [analysed] at read
  obtain ⟨named, narrow⟩ := (operations_eq_expected rfl).mp read
  exact ⟨fits.1, fits.2, decode_processes.mp valid, asked.mp named, narrow⟩

/-- A readable report is read back. -/
theorem Readable.read (readable : Readable upperFull entries) :
    ∃ text, report entries = some text ∧
      analyse_syscounter upperFull text = some (expected upperFull entries) := by
  obtain ⟨headers, analysed, asked⟩ :=
    analyse_report upperFull (decode_processes.mpr readable.utf8)
  refine ⟨_, report_eq.trans (if_pos ⟨readable.rows, readable.columns⟩), ?_⟩
  rw [analysed]
  exact (operations_eq_expected rfl).mpr ⟨asked.mpr readable.headers, readable.totals⟩

/-- **The report is read back** if and only if it is readable. -/
theorem report_read_back_iff (upperFull : Char → List Char) (entries : List Entry) :
    (∃ text, report entries = some text ∧
      analyse_syscounter upperFull text = some (expected upperFull entries)) ↔
      Readable upperFull entries :=
  ⟨fun ⟨_, printed, read⟩ => readable_of_read printed read, Readable.read⟩

/-- A process called `fio`, with the process identifier 7. -/
def fioEntry (op : ℤ) (calls bytes : UInt64) : Entry where
  key := ⟨.fio, 7, op⟩
  val := ⟨calls, bytes⟩
  pid_int := ⟨by norm_num, by norm_num⟩

/-- The total of 10^9 reads of 10^12 bytes fills its column, so that the total of the writes runs
into it: whatever Python makes of other letters, not every report is read back. -/
theorem full_column_unread :
    ¬ ∃ upperFull : Char → List Char, ∀ entries : List Entry,
      (entries.map fun entry => entry.key).Nodup → (processes entries).length ≤ MAX_PIDS →
      (opColumns entries).length ≤ MAX_OPS → ∃ text, report entries = some text ∧
        analyse_syscounter upperFull text = some (expected upperFull entries) := by
  rintro ⟨upperFull, claim⟩
  obtain ⟨text, printed, read⟩ := claim
    [fioEntry 0 1000000000 1000000000000, fioEntry 1 1 4096] (by decide) (by decide) (by decide)
  have narrow := (readable_of_read printed read).totals 0 (by decide)
  have total : opTotal [fioEntry 0 1000000000 1000000000000, fioEntry 1 1 4096] 0 =
      ⟨1000000000, 1000000000000⟩ := by decide
  rw [total, cell, List.length_append, List.length_cons] at narrow
  have calls : ¬ (Nat.toDigits 10 (1000000000 : UInt64).toNat).length ≤ 9 := by
    rw [Nat.length_toDigits_le_iff (by decide) (by decide)]
    decide
  have bytes : ¬ (Nat.toDigits 10 (1000000000000 : UInt64).toNat).length ≤ 12 := by
    rw [Nat.length_toDigits_le_iff (by decide) (by decide)]
    decide
  simp only at narrow
  omega

end ReadBack

end ProjetoTSO.Syscounter
