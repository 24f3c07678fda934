import Mathlib.Data.List.Basic
import Mathlib.Data.List.Infix
import Mathlib.Data.Option.Basic
import Mathlib.Data.Nat.Basic
import Mathlib.Tactic.Linarith
import Mathlib.Tactic.Ring

/-!
# Length-prefixed records in a byte stream

A writer appends bytes to a file that may refuse them at any point;
`Emits writer bytes` says that it appends exactly `bytes`, or that part of them
for which there was room, and then stops.

A reader consumes bytes from the front of a stream and fails when the stream is
too short.  `Reads reader bytes value` is the two-sided specification every
record format needs:

* on a stream that starts with `bytes`, the reader returns `value` and leaves
  the rest untouched;
* on a stream that ends inside `bytes`, the reader fails.

The second half is what makes a truncated file harmless: a record cut short is
never mistaken for a shorter record.  `Reads` composes along `bind`, so a record
read field by field is specified by its fields.  `readEach` is the
count-driven loop of a loader that stores each record as soon as it is complete;
`readEach_full` and `readEach_cut` say what is stored after a complete and after
a truncated section.  `Recovers` is the specification of a reader that may also
reject what was written, and `readSection_recovers` its invariant rule.
-/

universe u v w

namespace ByteStream

abbrev Bytes := List UInt8

/-! ## Little-endian words -/

/-- The `width` low bytes of a number, least significant first. -/
def leBytes : ℕ → ℕ → Bytes
  | 0, _ => []
  | width + 1, n => UInt8.ofNat (n % 256) :: leBytes width (n / 256)

/-- The number a little-endian byte string denotes. -/
def leValue : Bytes → ℕ
  | [] => 0
  | byte :: bytes => byte.toNat + 256 * leValue bytes

@[simp] theorem length_leBytes (width n : ℕ) : (leBytes width n).length = width := by
  induction width generalizing n with
  | zero => rfl
  | succ width ih => simp [leBytes, ih]

theorem leValue_leBytes {width n : ℕ} (fits : n < 256 ^ width) :
    leValue (leBytes width n) = n := by
  induction width generalizing n with
  | zero =>
      have : n = 0 := by simpa using fits
      simp [leBytes, leValue, this]
  | succ width ih =>
      have quotient : n / 256 < 256 ^ width := by
        rw [pow_succ] at fits
        exact Nat.div_lt_of_lt_mul (by linarith)
      have low : (UInt8.ofNat (n % 256)).toNat = n % 256 :=
        UInt8.toNat_ofNat_of_lt' (Nat.mod_lt n (by norm_num))
      rw [leBytes, leValue, ih quotient, low]
      exact Nat.mod_add_div n 256

/-- A file being written: its contents, and how many more bytes it will take. -/
structure Sink where
  written : Bytes
  room : ℕ

/-- A writer appends to a file and reports whether everything went in. -/
abbrev Writer := Sink → Bool × Sink

/-- Append as many of the bytes as there is room for. -/
def put (bytes : Bytes) : Writer := fun sink =>
  (bytes.length ≤ sink.room, ⟨sink.written ++ bytes.take sink.room, sink.room - bytes.length⟩)

/-- Go on only if the first writer succeeded. -/
def andThen (first second : Writer) : Writer := fun sink =>
  match first sink with
  | (true, sink) => second sink
  | (false, sink) => (false, sink)

/-- One writer per element, in order. -/
def putEach {α : Type u} (writer : α → Writer) : List α → Writer
  | [] => put []
  | item :: items => andThen (writer item) (putEach writer items)

/-- The writer appends exactly these bytes, or as many as there is room for. -/
def Emits (writer : Writer) (bytes : Bytes) : Prop := ∀ sink, writer sink = put bytes sink

theorem emits_put (bytes : Bytes) : Emits (put bytes) bytes := fun _ => rfl

theorem Emits.andThen {first second : Writer} {bytes more : Bytes}
    (firstEmits : Emits first bytes) (secondEmits : Emits second more) :
    Emits (andThen first second) (bytes ++ more) := by
  intro sink
  rw [ByteStream.andThen, firstEmits sink]
  by_cases fits : bytes.length ≤ sink.room
  · have split : (bytes ++ more).take sink.room = bytes ++ more.take (sink.room - bytes.length) := by
      rw [List.take_append, List.take_of_length_le fits]
    have enough : more.length ≤ sink.room - bytes.length ↔
        bytes.length + more.length ≤ sink.room := by omega
    simp only [put, fits, decide_true, secondEmits _, List.take_of_length_le fits, split,
      List.length_append, List.append_assoc, enough, Nat.sub_add_eq]
  · have short : ¬ bytes.length + more.length ≤ sink.room := by omega
    have inside : (bytes ++ more).take sink.room = bytes.take sink.room :=
      List.take_append_of_le_length (by omega)
    have none : sink.room - (bytes.length + more.length) = sink.room - bytes.length := by omega
    simp only [put, fits, List.length_append, short, decide_false, inside, none]

theorem emits_putEach {α : Type u} {writer : α → Writer} {encode : α → Bytes}
    (emits : ∀ item, Emits (writer item) (encode item)) (items : List α) :
    Emits (putEach writer items) (items.flatMap encode) := by
  induction items with
  | nil => exact emits_put []
  | cons item items ih =>
      rw [List.flatMap_cons]
      exact (emits item).andThen ih

/-- A writer that ran out of room left a prefix of what it meant to write. -/
theorem Emits.interrupted {writer : Writer} {bytes : Bytes} (emits : Emits writer bytes) (room : ℕ) :
    (writer ⟨[], room⟩).2.written <+: bytes := by
  rw [emits, put]
  exact List.take_prefix room bytes

/-- A writer that reports success wrote everything. -/
theorem Emits.complete {writer : Writer} {bytes : Bytes} (emits : Emits writer bytes) {room : ℕ}
    (success : (writer ⟨[], room⟩).1 = true) : (writer ⟨[], room⟩).2.written = bytes := by
  rw [emits, put] at success ⊢
  exact List.take_of_length_le (by simpa using success)

/-! ## Readers -/

/-- A reader takes a value off the front of a stream, or fails. -/
abbrev Reader (α : Type) := StateT Bytes Option α

/-- Exactly `n` bytes. -/
def take (n : ℕ) : Reader Bytes := fun stream =>
  if n ≤ stream.length then some (stream.take n, stream.drop n) else none

/-- The reader returns `value` from `bytes`, and fails on every proper prefix of
`bytes`. -/
structure Reads {α : Type} (reader : Reader α) (bytes : Bytes) (value : α) : Prop where
  full : ∀ rest, reader (bytes ++ rest) = some (value, rest)
  cut : ∀ stream, stream <+: bytes → stream ≠ bytes → reader stream = none

/-- A prefix of a concatenation ends inside the first part or contains it. -/
theorem ends_inside_or_past {α : Type u} {stream left right : List α}
    (isPrefix : stream <+: left ++ right) :
    (stream <+: left ∧ stream ≠ left) ∨ ∃ rest, stream = left ++ rest ∧ rest <+: right := by
  by_cases past : left <+: stream
  · obtain ⟨rest, rfl⟩ := past
    exact Or.inr ⟨rest, rfl, (List.prefix_append_right_inj left).mp isPrefix⟩
  · have inside : stream <+: left :=
      (List.prefix_or_prefix_of_prefix isPrefix (List.prefix_append left right)).resolve_right past
    exact Or.inl ⟨inside, fun whole => past (whole ▸ List.prefix_rfl)⟩

namespace Reads

variable {α β : Type} {reader : Reader α} {bytes more : Bytes} {value : α}

theorem take {n : ℕ} (length : bytes.length = n) : Reads (take n) bytes bytes where
  full rest := by simp [ByteStream.take, ← length]
  cut stream isPrefix proper := by
    have shorter : stream.length < n := by
      have bound := isPrefix.length_le
      have differ : stream.length ≠ bytes.length := fun same => proper (isPrefix.eq_of_length same)
      omega
    simp [ByteStream.take, shorter]

theorem pure (value : α) : Reads (pure value : Reader α) [] value where
  full _ := rfl
  cut _ isPrefix proper := absurd (List.prefix_nil.mp isPrefix) proper

/-- Consecutive fields: the second reader may depend on what the first one
returned. -/
theorem bind {next : α → Reader β} {result : β} (first : Reads reader bytes value)
    (second : Reads (next value) more result) :
    Reads (reader >>= next) (bytes ++ more) result where
  full rest := by
    simp [StateT.bind, Bind.bind, List.append_assoc, first.full, second.full]
  cut stream isPrefix proper := by
    rcases ends_inside_or_past isPrefix with ⟨inside, differs⟩ | ⟨rest, rfl, inside⟩
    · simp [StateT.bind, Bind.bind, first.cut stream inside differs]
    · have differs : rest ≠ more := fun same => proper (by rw [same])
      simp [StateT.bind, Bind.bind, first.full, second.cut rest inside differs]

theorem map {f : α → β} (reads : Reads reader bytes value) :
    Reads (f <$> reader) bytes (f value) := by
  have fields : Reads (reader >>= fun a => Pure.pure (f a)) (bytes ++ []) (f value) :=
    reads.bind (Reads.pure (f value))
  rw [List.append_nil] at fields
  rwa [map_eq_pure_bind]

end Reads

/-- The reader returns from `bytes` something `ok` if it returns anything, and fails on
every proper prefix of `bytes`. -/
structure Recovers {α : Type} (reader : Reader α) (bytes : Bytes) (ok : α → Prop) : Prop where
  full : ∀ {rest value left}, reader (bytes ++ rest) = some (value, left) → ok value ∧ left = rest
  cut : ∀ stream, stream <+: bytes → stream ≠ bytes → reader stream = none

namespace Recovers

variable {α β : Type} {reader : Reader α} {bytes more : Bytes} {ok : α → Prop} {fine : β → Prop}

theorem of_reads {value : α} (reads : Reads reader bytes value) :
    Recovers reader bytes fun read => read = value where
  full read := by
    rw [reads.full] at read
    cases read
    exact ⟨rfl, rfl⟩
  cut := reads.cut

theorem mono {fine : α → Prop} (recovers : Recovers reader bytes ok)
    (weaker : ∀ value, ok value → fine value) : Recovers reader bytes fine where
  full read := ⟨weaker _ (recovers.full read).1, (recovers.full read).2⟩
  cut := recovers.cut

theorem reject : Recovers (fun _ => none : Reader α) bytes ok where
  full read := by cases read
  cut _ _ _ := rfl

theorem pure {value : α} (holds : ok value) : Recovers (pure value : Reader α) [] ok where
  full read := by
    cases read
    exact ⟨holds, rfl⟩
  cut _ isPrefix proper := absurd (List.prefix_nil.mp isPrefix) proper

theorem bind {next : α → Reader β} (first : Recovers reader bytes ok)
    (second : ∀ value, ok value → Recovers (next value) more fine) :
    Recovers (reader >>= next) (bytes ++ more) fine where
  full {rest value left} read := by
    rw [List.append_assoc] at read
    obtain ⟨⟨field, stream⟩, here, later⟩ := Option.bind_eq_some_iff.mp read
    obtain ⟨holds, rfl⟩ := first.full here
    exact (second field holds).full later
  cut stream isPrefix proper := by
    rcases ends_inside_or_past isPrefix with ⟨inside, differs⟩ | ⟨rest, rfl, inside⟩
    · simp [StateT.bind, Bind.bind, first.cut stream inside differs]
    · have differs : rest ≠ more := fun same => proper (by rw [same])
      show (reader (bytes ++ rest)).bind (fun out => next out.1 out.2) = none
      cases here : reader (bytes ++ rest) with
      | none => rfl
      | some out =>
          obtain ⟨holds, rest'⟩ := first.full (show _ = some (out.1, out.2) from here)
          rw [Option.bind_some, rest']
          exact (second out.1 holds).cut rest inside differs

end Recovers

/-! ## Count-driven sections -/

/-- Read `count` records one after the other, storing each as soon as it has been
read.  What was stored before a failure stays. -/
def readEach {α : Type} {σ : Type v} (reader : Reader α) (store : σ → α → σ) :
    ℕ → Bytes → σ → σ × Option Bytes
  | 0, stream, state => (state, some stream)
  | count + 1, stream, state =>
      match reader stream with
      | none => (state, none)
      | some (value, rest) => readEach reader store count rest (store state value)

section Section

variable {α : Type} {σ : Type v} {ι : Type w}
variable {reader : Reader α} {store : σ → α → σ} {encode : ι → Bytes} {value : ι → α}

/-- A complete section stores every record in order. -/
theorem readEach_full {records : List ι}
    (reads : ∀ record ∈ records, Reads reader (encode record) (value record))
    (rest : Bytes) (state : σ) :
    readEach reader store records.length (records.flatMap encode ++ rest) state =
      ((records.map value).foldl store state, some rest) := by
  induction records generalizing state with
  | nil => simp [readEach]
  | cons record records ih =>
      have head := (reads record (by simp)).full (records.flatMap encode ++ rest)
      have tail := ih (fun r member => reads r (by simp [member])) (store state (value record))
      simp only [List.flatMap_cons, List.append_assoc, List.length_cons, readEach, head,
        List.map_cons, List.foldl_cons]
      exact tail

/-- A section cut short stores a prefix of its records and then fails. -/
theorem readEach_cut {records : List ι}
    (reads : ∀ record ∈ records, Reads reader (encode record) (value record))
    {stream : Bytes} (isPrefix : stream <+: records.flatMap encode)
    (proper : stream ≠ records.flatMap encode) (state : σ) :
    ∃ k, k < records.length ∧
      readEach reader store records.length stream state =
        (((records.take k).map value).foldl store state, none) := by
  induction records generalizing stream state with
  | nil => exact absurd (List.prefix_nil.mp isPrefix) proper
  | cons record records ih =>
      have head := reads record (by simp)
      rw [List.flatMap_cons] at isPrefix proper
      rcases ends_inside_or_past isPrefix with ⟨inside, differs⟩ | ⟨rest, rfl, inside⟩
      · refine ⟨0, by simp, ?_⟩
        simp [readEach, head.cut stream inside differs]
      · have differs : rest ≠ records.flatMap encode := fun same => proper (by rw [same])
        obtain ⟨k, below, stored⟩ :=
          ih (fun r member => reads r (by simp [member])) inside differs (store state (value record))
        refine ⟨k + 1, by simpa using below, ?_⟩
        simp only [List.length_cons, readEach, head.full, stored, List.take_succ_cons,
          List.map_cons, List.foldl_cons]

variable {count : Reader ℕ} {countBytes : Bytes}

/-- A section is a count followed by that many records; what comes after it is
read by `next`.  How a record is read may depend on what the earlier sections
stored. -/
def readSection (count : Reader ℕ) (select : σ → Reader α) (store : σ → α → σ)
    (next : Bytes → σ → σ) (stream : Bytes) (state : σ) : σ :=
  match count stream with
  | none => state
  | some (n, stream) =>
      match readEach (select state) store n stream state with
      | (state, none) => state
      | (state, some stream) => next stream state

/-- A complete section hands over to what follows it. -/
theorem readSection_full {records : List ι} (select : σ → Reader α) (store : σ → α → σ)
    (next : Bytes → σ → σ) (state : σ) (countReads : Reads count countBytes records.length)
    (reads : ∀ record ∈ records, Reads (select state) (encode record) (value record))
    (rest : Bytes) :
    readSection count select store next (countBytes ++ (records.flatMap encode ++ rest)) state =
      next rest ((records.map value).foldl store state) := by
  simp only [readSection, countReads.full, readEach_full reads]

/-- A section read from a prefix of the stream either stops inside, with some of
its records stored, or hands the rest of the prefix over. -/
theorem readSection_of_prefix {records : List ι} {tail stream : Bytes} (select : σ → Reader α)
    (store : σ → α → σ) (next : Bytes → σ → σ) (state : σ) (countReads : Reads count countBytes records.length)
    (reads : ∀ record ∈ records, Reads (select state) (encode record) (value record))
    (isPrefix : stream <+: countBytes ++ (records.flatMap encode ++ tail)) :
    (∃ k ≤ records.length, readSection count select store next stream state =
        ((records.take k).map value).foldl store state) ∨
      ∃ rest, rest <+: tail ∧ readSection count select store next stream state =
        next rest ((records.map value).foldl store state) := by
  rcases ends_inside_or_past isPrefix with ⟨inside, differs⟩ | ⟨body, rfl, bodyPrefix⟩
  · refine Or.inl ⟨0, Nat.zero_le _, ?_⟩
    simp [readSection, countReads.cut _ inside differs]
  rcases ends_inside_or_past bodyPrefix with ⟨inside, differs⟩ | ⟨rest, rfl, tailPrefix⟩
  · obtain ⟨k, below, stored⟩ : ∃ k, k < records.length ∧
        readEach (select state) store records.length body state =
          (((records.take k).map value).foldl store state, none) :=
      readEach_cut reads inside differs state
    refine Or.inl ⟨k, below.le, ?_⟩
    simp only [readSection, countReads.full, stored]
  · refine Or.inr ⟨rest, tailPrefix, ?_⟩
    simp only [readSection, countReads.full, readEach_full reads]

/-- What storing a record and reading the later sections preserve, a section
preserves, whatever the stream. -/
theorem readSection_invariant (holds : σ → Prop) {select : σ → Reader α} {store : σ → α → σ}
    {next : Bytes → σ → σ} {stream : Bytes} {state : σ}
    (stores : ∀ {state} value, holds state → holds (store state value))
    (later : ∀ stream state, holds state → holds (next stream state)) (before : holds state) :
    holds (readSection count select store next stream state) := by
  have each : ∀ (reader : Reader α) (n : ℕ) (stream : Bytes) (state : σ), holds state →
      holds (readEach reader store n stream state).1 := by
    intro reader n
    induction n with
    | zero => exact fun _ _ before => before
    | succ n ih =>
        intro stream state before
        rw [readEach]
        cases reader stream with
        | none => exact before
        | some record => exact ih _ _ (stores record.1 before)
  unfold readSection
  cases count stream with
  | none => exact before
  | some read =>
      obtain ⟨n, rest⟩ := read
      have stored := each (select state) n rest state before
      simp only
      generalize readEach (select state) store n rest state = outcome at stored
      obtain ⟨state', stream'⟩ := outcome
      cases stream' with
      | none => exact stored
      | some stream' => exact later _ _ stored

/-- **The invariant rule for recovered sections.**  What storing an `ok` record and
reading the later sections preserve, a section read from a prefix of the stream preserves. -/
theorem readSection_recovers (holds : σ → Prop) (ok : α → Prop) {records : List ι}
    {tail stream : Bytes} {select : σ → Reader α} {store : σ → α → σ} {next : Bytes → σ → σ}
    {state : σ} (countReads : Reads count countBytes records.length)
    (recovers : ∀ record ∈ records, Recovers (select state) (encode record) ok)
    (stores : ∀ {state value}, ok value → holds state → holds (store state value))
    (later : ∀ {rest state}, rest <+: tail → holds state → holds (next rest state))
    (isPrefix : stream <+: countBytes ++ (records.flatMap encode ++ tail))
    (before : holds state) : holds (readSection count select store next stream state) := by
  have each : ∀ (reader : Reader α) {records : List ι} {stream : Bytes} {state : σ},
      (∀ record ∈ records, Recovers reader (encode record) ok) →
      stream <+: records.flatMap encode ++ tail → holds state →
      holds (readEach reader store records.length stream state).1 ∧
        ∀ rest, (readEach reader store records.length stream state).2 = some rest →
          rest <+: tail := by
    intro reader records
    induction records with
    | nil =>
        intro stream state _ isPrefix before
        refine ⟨before, fun rest same => ?_⟩
        cases same
        exact isPrefix
    | cons record records ih =>
        intro stream state recovers isPrefix before
        have head := recovers record List.mem_cons_self
        rw [List.flatMap_cons, List.append_assoc] at isPrefix
        rw [List.length_cons, readEach]
        rcases ends_inside_or_past isPrefix with ⟨inside, differs⟩ | ⟨rest, rfl, inside⟩
        · rw [head.cut stream inside differs]
          exact ⟨before, fun rest same => by cases same⟩
        · cases here : reader (encode record ++ rest) with
          | none => exact ⟨before, fun rest same => by cases same⟩
          | some out =>
              obtain ⟨value, left⟩ := out
              obtain ⟨fine, rfl⟩ := head.full here
              exact ih (fun r member => recovers r (List.mem_cons_of_mem _ member)) inside
                (stores fine before)
  unfold readSection
  rcases ends_inside_or_past isPrefix with ⟨inside, differs⟩ | ⟨body, rfl, bodyPrefix⟩
  · rw [countReads.cut _ inside differs]
    exact before
  · rw [countReads.full]
    obtain ⟨stored, handed⟩ := each (select state) recovers bodyPrefix before
    simp only
    generalize readEach (select state) store records.length body state = outcome at stored handed
    obtain ⟨state', stream'⟩ := outcome
    cases stream' with
    | none => exact stored
    | some stream' => exact later (handed stream' rfl) stored

end Section

end ByteStream
