import ProjetoTSO.Lib.Text
import ProjetoTSO.Syscounter.Counter
import ProjetoTSO.Syscounter.SyscallTable

/-!
# The report of the counter

`print_results` in `syscounter.c` prints the counters as a table, a row for each process
and a column for each operation, with a line of totals; `analyse_syscounter` in
`syscounter_analyser.py` reads the table back.

## Design notes

* What `printf` puts out is bytes: the name of a process is any bytes but NUL.  The other
  parts of the text are ASCII and written as characters.
* Python reads a text file as UTF-8, strictly, and turns every line break into `\n`.
* `str.upper` maps the characters outside ASCII by a table of Unicode's, here `upperFull`.
* An exception ends the analysis; what it printed before is no result.
-/

namespace ProjetoTSO.Syscounter

open Text

/-! ## The table -/

def MAX_SYSCALLS : ℕ := 512

def resolve_syscall (nr : ℤ) : List Char :=
  if 0 ≤ nr ∧ nr < MAX_SYSCALLS then
    match syscall_table.lookup nr.toNat with
    | some name => name.toList
    | none => "unknown".toList
  else "unknown".toList

/-- An entry of the arrays `keys` and `values`. -/
structure Entry where
  key : CounterKey
  val : CounterVal
  pid_int : -2 ^ 31 ≤ key.pid ∧ key.pid < 2 ^ 31

/-- `%d`. -/
def decimal (z : ℤ) : List Char :=
  if z < 0 then '-' :: Nat.toDigits 10 z.natAbs else Nat.toDigits 10 z.natAbs

/-- `sprintf(comm, "%s-%d", command, pid)`. -/
def comm (key : CounterKey) : List UInt8 := key.command.bytes ++ ascii ('-' :: decimal key.pid)

/-- The loop of the two functions below: a value goes to the end of the list unless it
is in it. -/
def addUnique {α : Type} [DecidableEq α] (list : List α) (value : α) : List α :=
  if value ∈ list then list else list ++ [value]

/-- `snprintf` cuts a name at 29 bytes.  There is room for `MAX_PIDS` names. -/
def get_unique_pid_values (entries : List Entry) : Option (List (List UInt8)) :=
  let pid_list := (entries.map fun entry => (comm entry.key).take 29).foldl addUnique []
  if pid_list.length ≤ MAX_PIDS then some pid_list else none

/-- There is room for `MAX_OPS` operations. -/
def get_unique_op_values (entries : List Entry) : Option (List ℤ) :=
  let op_list := (entries.map fun entry => entry.key.op).foldl addUnique []
  if op_list.length ≤ MAX_OPS then some op_list else none

/-- `total_op_list[i].calls += values[k].calls`, and the bytes. -/
def CounterVal.add (total val : CounterVal) : CounterVal :=
  ⟨total.calls + val.calls, total.bytes + val.bytes⟩

/-- The loop over the entries for a row and a column: the value of the cell, and the total
of the column. -/
def countCell (entries : List Entry) (pid : List UInt8) (op : ℤ) (total : CounterVal) :
    CounterVal × CounterVal :=
  entries.foldl (fun acc entry =>
    if comm entry.key = pid ∧ entry.key.op = op then (entry.val, acc.2.add entry.val) else acc)
    (⟨0, 0⟩, total)

/-- `"%llu/%llu"`. -/
def cell (val : CounterVal) : List Char :=
  Nat.toDigits 10 val.calls.toNat ++ '/' :: Nat.toDigits 10 val.bytes.toNat

/-- `"%s(C/B)"`. -/
def header (op : ℤ) : List Char := resolve_syscall op ++ "(C/B)".toList

/-- A line of the table: `"%-30s"`, and `"%-24s"` for each column. -/
def tableLine (first : List UInt8) (cells : List (List Char)) : List UInt8 :=
  first ++ ascii (List.replicate (30 - first.length) ' ' ++ columns 24 cells)

/-- The line of dashes. -/
def dashes (op_count : ℕ) : List Char := List.replicate (30 + op_count * 24) '-' ++ ['\n']

/-- The loop over the rows, with the totals it leaves. -/
def printRows (entries : List Entry) (op_list : List ℤ) :
    List (List UInt8) → List CounterVal → List UInt8 × List CounterVal
  | [], totals => ([], totals)
  | pid :: pid_list, totals =>
      let out := (op_list.zip totals).map fun column =>
        countCell entries pid column.1 column.2
      let rest := printRows entries op_list pid_list (out.map Prod.snd)
      (tableLine pid (out.map fun counted => cell counted.1) ++ rest.1, rest.2)

def print_results (entries : List Entry) (pid_list : List (List UInt8)) (op_list : List ℤ) :
    List UInt8 :=
  let rows := printRows entries op_list pid_list (List.replicate op_list.length ⟨0, 0⟩)
  tableLine (ascii "PID\\OP".toList) (op_list.map header) ++ ascii (dashes op_list.length) ++
    rows.1 ++ ascii (dashes op_list.length) ++ tableLine (ascii "Total".toList) (rows.2.map cell)

/-- The report of these entries, if they fit into the arrays. -/
def report (entries : List Entry) : Option (List UInt8) := do
  let pid_list ← get_unique_pid_values entries
  let op_list ← get_unique_op_values entries
  some (print_results entries pid_list op_list)

/-! ## The analyser -/

section Analyser

variable (upperFull : Char → List Char)

def upper (word : List Char) : List Char :=
  word.flatMap fun c => if IsAscii c then [c.toUpper] else upperFull c

/-- `int` of a word of digits; the words of a `Total` line have no others. -/
def int (word : List Char) : Option ℕ :=
  if word ≠ [] ∧ ∀ c ∈ word, c.isDigit then some (Nat.ofDigitChars 10 word 0) else none

/-- What is printed about an operation. -/
inductive Operation
  | counted (operation_name : List Char) (count bytes_val : ℕ)
  | bare (operation_name values : List Char)
deriving DecidableEq

/-- `op_string.split('(')[0].upper()`. -/
def operationName (op_string : List Char) : List Char :=
  upper upperFull (op_string.takeWhile (· ≠ '('))

/-- An iteration of the loop over the operations; `none` is a `ValueError`. -/
def operation (op_string values : List Char) : Option Operation :=
  if '/' ∈ values then
    match values.splitOn '/' with
    | [count_str, bytes_str] => do
        let count ← int count_str
        let bytes_val ← int bytes_str
        some (.counted (operationName upperFull op_string) count bytes_val)
    | _ => none
  else some (.bare (operationName upperFull op_string) values)

/-- The loop over the operations; `none` is a `ValueError`, or an `IndexError` where there
are more headers than totals. -/
def operations : List (List Char) → List (List Char) → Option (List Operation)
  | [], _ => some []
  | _ :: _, [] => none
  | op_string :: headers, values :: totals => do
      let first ← operation upperFull op_string values
      let rest ← operations headers totals
      some (first :: rest)

/-- The two lines the analyser looks for. -/
def IsHeader (line : List Char) : Prop := "PID\\OP".toList <+: line

def IsTotal (line : List Char) : Prop := "Total".toList <+: line

instance (line : List Char) : Decidable (IsHeader line) := inferInstanceAs (Decidable (_ <+: _))

instance (line : List Char) : Decidable (IsTotal line) := inferInstanceAs (Decidable (_ <+: _))

/-- An iteration of the loop over the lines. -/
def scanLine (found : List (List Char) × List (List Char)) (line : List Char) :
    List (List Char) × List (List Char) :=
  if IsHeader line then ((words line).tail, found.2)
  else if IsTotal line then (found.1, (words line).tail)
  else found

/-- The operations `analyse_syscounter` prints about a file: none at all where it does not
find the table. -/
def analyse_syscounter (file : List UInt8) : Option (List Operation) := do
  let text ← decode file
  let (headers, totals) := (readlines text).foldl scanLine ([], [])
  if headers = [] ∨ totals = [] then some [] else operations upperFull headers totals

end Analyser

end ProjetoTSO.Syscounter
