import Mathlib.Data.Finset.Card
import ProjetoTSO.Syscounter.ReadBack

/-!
# What the table says

The rows of the table are known by the text `command-pid` only, and a command may hold dashes
and digits itself.  With process identifiers that are not negative the last dash is the one
before the identifier, so that a text names one process (`rowName_injOn`).  Every cell is
then the value of one entry, and every total counts each entry once (`table_exact`).
-/

namespace ProjetoTSO.Syscounter

open Text

/-! ## Rows -/

/-- What a row stands for: a command and a process identifier. -/
abbrev Process := Comm × ℤ

def CounterKey.process (key : CounterKey) : Process := (key.command, key.pid)

/-- The text of a row. -/
def rowName (process : Process) : List UInt8 :=
  process.1.bytes ++ ascii ('-' :: decimal process.2)

/-- The processes of the entries, each once. -/
def rows (entries : List Entry) : List Process :=
  (entries.map fun entry => entry.key.process).foldl addUnique []

section Names

variable {α : Type} {x y z w : List α} {a : α}

/-- What precedes and what follows the last occurrence of an element. -/
theorem last_occurrence (inZ : a ∉ z) (inW : a ∉ w) (same : x ++ a :: z = y ++ a :: w) :
    x = y ∧ z = w := by
  have shorter : ∀ {x y z w : List α}, a ∉ z → x ++ a :: z = y ++ a :: w →
      ∀ between, y = x ++ between → between = [] := by
    rintro x y z w inZ same between rfl
    rw [List.append_assoc] at same
    cases between with
    | nil => rfl
    | cons b between =>
        rw [List.cons_append] at same
        have tail := (List.cons_eq_cons.mp (List.append_cancel_left same)).2
        exact absurd (tail ▸ List.mem_append_right between List.mem_cons_self) inZ
  have equal : x = y := by
    rcases List.append_eq_append_iff.mp same with ⟨between, longer, -⟩ | ⟨between, longer, -⟩
    · rw [longer, shorter inZ same between longer, List.append_nil]
    · rw [longer, shorter inW same.symm between longer, List.append_nil]
  rw [equal] at same
  exact ⟨equal, (List.cons_eq_cons.mp (List.append_cancel_left same)).2⟩

/-- The digits of a process identifier. -/
theorem decimal_of_nonneg {z : ℤ} (nonneg : 0 ≤ z) : decimal z = Nat.toDigits 10 z.toNat := by
  have same : z.natAbs = z.toNat := by omega
  rw [decimal, if_neg (not_lt.mpr nonneg), same]

theorem dash_notMem_digits (n : ℕ) : UInt8.ofNat '-'.toNat ∉ ascii (Nat.toDigits 10 n) := by
  intro member
  obtain ⟨c, inDigits, same⟩ := List.mem_map.mp member
  have digit := isDigit_toDigits inDigits
  have range : 48 ≤ c.toNat ∧ c.toNat ≤ 57 := by
    simpa [Char.isDigit, UInt32.le_iff_toNat_le] using digit
  have number := congrArg UInt8.toNat same
  simp only [UInt8.toNat_ofNat'] at number
  have dash : '-'.toNat % 2 ^ 8 = 45 := by decide
  omega

theorem ascii_digits_inj {m n : ℕ}
    (same : ascii (Nat.toDigits 10 m) = ascii (Nat.toDigits 10 n)) : m = n := by
  have decoded : ∀ k : ℕ, (decode (ascii (Nat.toDigits 10 k))).getD [] = Nat.toDigits 10 k :=
    fun k => decode_ascii fun c member => (plain_of_isDigit (isDigit_toDigits member)).isAscii
  have digits : Nat.toDigits 10 m = Nat.toDigits 10 n := by rw [← decoded m, ← decoded n, same]
  have value := congrArg int digits
  rw [int_toDigits, int_toDigits] at value
  exact Option.some.inj value

/-- **A text names one process**, if process identifiers are not negative. -/
theorem rowName_injOn : Set.InjOn rowName {process | 0 ≤ process.2} := by
  rintro ⟨command, pid⟩ nonneg ⟨command', pid'⟩ nonneg' same
  simp only [Set.mem_ofPred_eq] at nonneg nonneg'
  simp only [rowName, decimal_of_nonneg nonneg, decimal_of_nonneg nonneg', ascii,
    List.map_cons] at same
  obtain ⟨bytes, digits⟩ := last_occurrence (dash_notMem_digits _) (dash_notMem_digits _) same
  have commands : command = command' := by
    obtain ⟨⟨bytes, nulFree⟩, short⟩ := command
    obtain ⟨⟨bytes', nulFree'⟩, short'⟩ := command'
    simp only at bytes
    subst bytes
    rfl
  have pids := ascii_digits_inj digits
  have pids : pid = pid' := by omega
  rw [commands, pids]

end Names

/-! ## Cells -/

/-- The value of a key, zero when no entry has it. -/
def valueOf (entries : List Entry) (key : CounterKey) : CounterVal :=
  match entries.find? fun entry => entry.key = key with
  | some entry => entry.val
  | none => ⟨0, 0⟩

/-- The calls and the bytes of all entries of an operation, modulo `2 ^ 64`. -/
def sumOf (entries : List Entry) (op : ℤ) : CounterVal where
  calls := UInt64.ofNat ((entries.filter (·.key.op = op)).map (·.val.calls.toNat)).sum
  bytes := UInt64.ofNat ((entries.filter (·.key.op = op)).map (·.val.bytes.toNat)).sum

section Cells

variable {entries : List Entry} {key : CounterKey} {op : ℤ}

theorem valueOf_absent (absent : ∀ entry ∈ entries, entry.key ≠ key) :
    valueOf entries key = ⟨0, 0⟩ := by
  have none_ : entries.find? (fun entry => entry.key = key) = none :=
    List.find?_eq_none.mpr fun entry member => by simpa using absent entry member
  rw [valueOf, none_]

theorem valueOf_cons (entry : Entry) : valueOf (entry :: entries) key =
    if entry.key = key then entry.val else valueOf entries key := by
  rw [valueOf, List.find?_cons]
  by_cases here : entry.key = key
  · simp [here]
  · simp only [here, decide_false, if_false]
    rfl

/-- Keys that differ are told apart. -/
theorem valueOf_mem (distinct : (entries.map fun entry => entry.key).Nodup) {entry : Entry}
    (member : entry ∈ entries) : valueOf entries entry.key = entry.val := by
  induction entries with
  | nil => cases member
  | cons first entries ih =>
      rw [List.map_cons, List.nodup_cons] at distinct
      rw [valueOf_cons]
      rcases List.mem_cons.mp member with rfl | later
      · rw [if_pos rfl]
      · have differ : first.key ≠ entry.key := fun same =>
          distinct.1 (same ▸ List.mem_map_of_mem later)
        rw [if_neg differ, ih distinct.2 later]

/-- Entries of other rows and columns leave a cell alone. -/
theorem foldl_countCell_unselected {pid : List UInt8} (acc : CounterVal × CounterVal)
    (unselected : ∀ entry ∈ entries, ¬ (comm entry.key = pid ∧ entry.key.op = op)) :
    entries.foldl (fun acc entry =>
      if comm entry.key = pid ∧ entry.key.op = op then (entry.val, acc.2.add entry.val) else acc)
      acc = acc := by
  induction entries with
  | nil => rfl
  | cons first entries ih =>
      rw [List.foldl_cons, if_neg (unselected first List.mem_cons_self)]
      exact ih fun entry member => unselected entry (List.mem_cons_of_mem _ member)

/-- **A cell holds the value of its key.** -/
theorem countCell_eq (distinct : (entries.map fun entry => entry.key).Nodup)
    (pids : ∀ entry ∈ entries, 0 ≤ entry.key.pid) (nonneg : 0 ≤ key.pid) (total : CounterVal) :
    (countCell entries (rowName key.process) key.op total).1 = valueOf entries key := by
  have selects : ∀ entry ∈ entries,
      (comm entry.key = rowName key.process ∧ entry.key.op = key.op) ↔ entry.key = key := by
    intro entry member
    have named : rowName entry.key.process = rowName key.process ↔
        entry.key.process = key.process :=
      rowName_injOn.eq_iff (x := entry.key.process) (y := key.process) (pids entry member) nonneg
    have text : comm entry.key = rowName entry.key.process := rfl
    rw [text, named, CounterKey.ext_iff, CounterKey.process, CounterKey.process, Prod.mk.injEq,
      and_assoc]
  unfold countCell
  by_cases present : ∃ entry ∈ entries, entry.key = key
  · obtain ⟨entry, member, rfl⟩ := present
    rw [valueOf_mem distinct member]
    obtain ⟨before, after, rfl⟩ := List.append_of_mem member
    rw [List.map_append, List.map_cons, List.nodup_append] at distinct
    have others : ∀ later ∈ after,
        ¬ (comm later.key = rowName entry.key.process ∧ later.key.op = entry.key.op) := by
      intro later inAfter same
      have equal := (selects later (List.mem_append_right _ (List.mem_cons_of_mem _ inAfter))).mp same
      exact (List.nodup_cons.mp distinct.2.1).1 (equal ▸ List.mem_map_of_mem inAfter)
    rw [List.foldl_append, List.foldl_cons, if_pos ((selects entry member).mpr rfl),
      foldl_countCell_unselected _ others]
  · have absent : ∀ entry ∈ entries, entry.key ≠ key := fun entry member same =>
      present ⟨entry, member, same⟩
    rw [valueOf_absent absent, foldl_countCell_unselected _ fun entry member same =>
      absent entry member ((selects entry member).mp same)]

/-- A total is a sum modulo `2 ^ 64`. -/
theorem opTotal_eq_sumOf (entries : List Entry) (op : ℤ) : opTotal entries op = sumOf entries op := by
  have sums : ∀ field : Entry → UInt64,
      (entries.map fun entry => if entry.key.op = op then field entry else 0).sum =
        UInt64.ofNat ((entries.filter (·.key.op = op)).map fun entry => (field entry).toNat).sum := by
    intro field
    induction entries with
    | nil => rfl
    | cons first entries ih =>
        rw [List.map_cons, List.sum_cons, ih]
        by_cases here : first.key.op = op
        · rw [if_pos here, List.filter_cons_of_pos (by simpa using here), List.map_cons,
            List.sum_cons, UInt64.ofNat_add, UInt64.ofNat_toNat]
        · rw [if_neg here, List.filter_cons_of_neg (by simpa using here), UInt64.zero_add]
  rw [opTotal, sumOf, sums fun entry => entry.val.calls, sums fun entry => entry.val.bytes]

end Cells

/-! ## The whole table -/

/-- The rows, as the table has them. -/
theorem processes_eq {entries : List Entry} (pids : ∀ entry ∈ entries, 0 ≤ entry.key.pid) :
    processes entries = (rows entries).map rowName := by
  have mapped : ∀ (values list : List Process), (∀ p ∈ values, 0 ≤ p.2) → (∀ p ∈ list, 0 ≤ p.2) →
      (values.map rowName).foldl addUnique (list.map rowName) =
        (values.foldl addUnique list).map rowName := by
    intro values
    induction values with
    | nil => exact fun _ _ _ => rfl
    | cons p values ih =>
        intro list nonneg nonneg'
        have own : 0 ≤ p.2 := nonneg p List.mem_cons_self
        have known : rowName p ∈ list.map rowName ↔ p ∈ list := by
          rw [List.mem_map]
          constructor
          · rintro ⟨q, member, same⟩
            exact rowName_injOn (nonneg' q member) own same ▸ member
          · exact fun member => ⟨p, member, rfl⟩
        have added : addUnique (list.map rowName) (rowName p) = (addUnique list p).map rowName := by
          unfold addUnique
          by_cases here : p ∈ list
          · rw [if_pos here, if_pos (known.mpr here)]
          · rw [if_neg here, if_neg fun inside => here (known.mp inside), List.map_append,
              List.map_singleton]
        rw [List.map_cons, List.foldl_cons, List.foldl_cons, added]
        refine ih _ (fun q member => nonneg q (List.mem_cons_of_mem _ member)) fun q member => ?_
        rcases mem_addUnique.mp member with earlier | rfl
        · exact nonneg' q earlier
        · exact own
  have texts : entries.map (fun entry => comm entry.key) =
      (entries.map fun entry => entry.key.process).map rowName := by
    rw [List.map_map]
    rfl
  rw [processes, rows, texts]
  refine mapped _ [] (fun p member => ?_) fun p member => absurd member List.not_mem_nil
  obtain ⟨entry, inEntries, rfl⟩ := List.mem_map.mp member
  exact pids entry inEntries

/-- What the table of some entries is to be. -/
structure ExactTable (entries : List Entry) : Prop where
  rowsOnce : (rows entries).Nodup
  mem_rows : ∀ process, process ∈ rows entries ↔ ∃ entry ∈ entries, entry.key.process = process
  fewRows : (rows entries).length ≤ MAX_PIDS
  /-- The names fit into `char[30]`, with their NUL. -/
  shortNames : ∀ process ∈ rows entries, (rowName process).length < 30
  pid_list : get_unique_pid_values entries = some ((rows entries).map rowName)
  columnsOnce : (opColumns entries).Nodup
  mem_columns : ∀ op, op ∈ opColumns entries ↔ ∃ entry ∈ entries, entry.key.op = op
  fewColumns : (opColumns entries).length ≤ MAX_OPS
  op_list : get_unique_op_values entries = some (opColumns entries)
  counted : ∀ entry ∈ entries, valueOf entries entry.key = entry.val
  uncounted : ∀ key, (∀ entry ∈ entries, entry.key ≠ key) → valueOf entries key = ⟨0, 0⟩
  printed : print_results entries ((rows entries).map rowName) (opColumns entries) =
    tableLine (ascii "PID\\OP".toList) ((opColumns entries).map header) ++
      ascii (dashes (opColumns entries).length) ++
      ((rows entries).flatMap fun process => tableLine (rowName process)
        ((opColumns entries).map fun op => cell (valueOf entries ⟨process.1, process.2, op⟩))) ++
      ascii (dashes (opColumns entries).length) ++
      tableLine (ascii "Total".toList) ((opColumns entries).map fun op => cell (sumOf entries op))

/-- **The table is exact**: every process and every operation is in it once, every cell is the
value of its key, and every total counts each entry of its operation once. -/
theorem table_exact {entries : List Entry} (few : entries.length ≤ MAX_PIDS)
    (distinct : (entries.map fun entry => entry.key).Nodup)
    (pids : ∀ entry ∈ entries, 0 ≤ entry.key.pid) {ops : Finset ℤ} (fewOps : ops.card ≤ MAX_OPS)
    (inOps : ∀ entry ∈ entries, entry.key.op ∈ ops) : ExactTable entries := by
  have same := processes_eq pids
  have rowsOnce : (rows entries).Nodup := nodup_foldl_addUnique List.nodup_nil
  have mem_rows : ∀ process, process ∈ rows entries ↔
      ∃ entry ∈ entries, entry.key.process = process := by
    intro process
    rw [rows, mem_foldl_addUnique, List.mem_map]
    simp
  have fewRows : (rows entries).length ≤ MAX_PIDS := by
    have inside : rows entries ⊆ entries.map fun entry => entry.key.process := fun p member =>
      List.mem_map.mpr ((mem_rows p).mp member)
    have most := (rowsOnce.subperm inside).length_le
    rw [List.length_map] at most
    exact most.trans few
  have columnsOnce : (opColumns entries).Nodup := nodup_foldl_addUnique List.nodup_nil
  have fewColumns : (opColumns entries).length ≤ MAX_OPS := by
    have inside : (opColumns entries).toFinset ⊆ ops := by
      intro op member
      obtain ⟨entry, inEntries, rfl⟩ := mem_opColumns.mp (List.mem_toFinset.mp member)
      exact inOps entry inEntries
    rw [← List.toFinset_card_of_nodup columnsOnce]
    exact (Finset.card_le_card inside).trans fewOps
  have fewNames : (processes entries).length ≤ MAX_PIDS := by
    rwa [same, List.length_map]
  have cells : ∀ process ∈ rows entries, ∀ op,
      (countCell entries (rowName process) op ⟨0, 0⟩).1 =
        valueOf entries ⟨process.1, process.2, op⟩ := by
    intro process member op
    obtain ⟨entry, inEntries, rfl⟩ := (mem_rows process).mp member
    have nonneg : 0 ≤ (⟨entry.key.command, entry.key.pid, op⟩ : CounterKey).pid :=
      pids entry inEntries
    exact countCell_eq distinct pids nonneg _
  constructor
  · exact rowsOnce
  · exact mem_rows
  · exact fewRows
  · intro process member
    obtain ⟨entry, -, rfl⟩ := (mem_rows process).mp member
    exact (length_comm entry).trans_lt (by norm_num)
  · rw [get_unique_pid_values_eq, if_pos fewNames, same]
  · exact columnsOnce
  · exact fun op => mem_opColumns
  · exact fewColumns
  · rw [get_unique_op_values_eq, if_pos fewColumns]
  · exact fun entry member => valueOf_mem distinct member
  · exact fun key absent => valueOf_absent absent
  · rw [← same, print_results_eq, same, List.flatMap_map]
    simp only [opTotal_eq_sumOf, rowCells]
    have lines : (rows entries).flatMap (fun process => tableLine (rowName process)
        ((opColumns entries).map fun op =>
          cell (countCell entries (rowName process) op ⟨0, 0⟩).1)) =
        (rows entries).flatMap fun process => tableLine (rowName process)
          ((opColumns entries).map fun op =>
            cell (valueOf entries ⟨process.1, process.2, op⟩)) :=
      List.flatMap_congr fun process member => by simp only [cells process member]
    rw [lines]

/-- Two operations of one process. -/
theorem table_exact_fio : ExactTable [fioEntry 0 3 4096, fioEntry 1 1 512] :=
  @table_exact _ (by decide) (by decide) (by decide) {0, 1} (by decide) (by decide)

end ProjetoTSO.Syscounter
