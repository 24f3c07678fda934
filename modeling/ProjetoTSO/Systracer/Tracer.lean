import Mathlib.Data.Finset.Insert
import ProjetoTSO.Lib.CInt
import ProjetoTSO.Lib.Text
import ProjetoTSO.Syscounter.Report

/-!
# The trace

`event_handler` in `systracer.c` prints a line for each event, and `main` what is before
and after them; `analyse_systracer` in `systracer_analyser.py` reads the trace back.

## Design notes

* `printf` pads by bytes.  The name of a process and a file name are any bytes but NUL;
  the other parts of the text are ASCII and written as characters.
* The two programs of the repository have one `syscalls_table.h`, so `resolve_syscall` is
  that of the counter.
* A `Counter` is a multiset of its keys.
* The analysis of a text that is not UTF-8 ends in an exception.
-/

namespace ProjetoTSO.Systracer

open Text CInt
open Codededup (CString)
open Syscounter (Comm resolve_syscall decimal)

/-! ## The printer -/

/-- The layers of the kernel. -/
inductive Layer where
  | L_SYSCALL
  | L_VFS
  | L_EXT4
  | L_FUSE
  | L_BIO
deriving DecidableEq

/-- `type`, as `event_handler` translates it. -/
def Layer.type : Layer → List Char
  | L_SYSCALL => "syscall".toList
  | L_VFS => "VFS".toList
  | L_EXT4 => "EXT4".toList
  | L_FUSE => "FUSE".toList
  | L_BIO => "BIO".toList

/-- The name of a file, a `char[128]` with its NUL. -/
structure FileName extends CString where
  short : bytes.length ≤ 127
deriving DecidableEq

/-- What `event_handler` reads of a `struct data_t`. -/
structure Data where
  pid : ℤ
  command : Comm
  syscall_id : ℤ
  type : Layer
  filename : FileName
  hash : UInt32
  size : UInt64
deriving DecidableEq

/-- `resolve_syscall(m->syscall_id)`: the `long` becomes an `int`. -/
def Data.syscall_name (m : Data) : List Char := resolve_syscall (int32 m.syscall_id)

/-- The operations of which size and hash are printed. -/
def sized : List (List Char) :=
  ["write".toList, "pwrite".toList, "read".toList, "pread".toList]

/-- `"%-10ld"` and `"%-10u"`, for those that are printed. -/
def Data.numbers (m : Data) : List (List Char) :=
  if m.syscall_name ∈ sized then
    if m.hash ≠ 0 then [decimal (int64 m.size.toNat), Nat.toDigits 10 m.hash.toNat]
    else [decimal (int64 m.size.toNat)]
  else []

/-- The blanks `"%-*s"` puts behind a string. -/
def blanks (width : ℕ) (bytes : List UInt8) : List Char := List.replicate (width - bytes.length) ' '

/-- What is printed before the name of the process, -/
def Data.front (m : Data) : List Char := padTo 6 (decimal m.pid) ++ [' ']

/-- between it and the name of the file, -/
def Data.middle (m : Data) : List Char :=
  blanks 16 m.command.bytes ++ ' ' :: padTo 16 m.syscall_name ++ ' ' :: padTo 16 m.type.type ++ [' ']

/-- and after that. -/
def Data.back (m : Data) : List Char :=
  blanks 64 m.filename.bytes ++ (m.numbers.flatMap fun number => ' ' :: padTo 10 number) ++ ['\n']

def event_handler (m : Data) : List UInt8 :=
  ascii m.front ++ m.command.bytes ++ ascii m.middle ++ m.filename.bytes ++ ascii m.back

/-- `printf("Tracing Pid %d\n", key)`. -/
def tracing (key : UInt32) : List Char :=
  "Tracing Pid ".toList ++ decimal (int32 key.toNat) ++ ['\n']

def header : List Char :=
  padTo 6 "pid".toList ++ ' ' :: padTo 16 "command".toList ++ ' ' :: padTo 16 "syscall".toList ++
    ' ' :: padTo 16 "type".toList ++ ' ' :: padTo 64 "filename".toList ++
    ' ' :: padTo 10 "size".toList ++ ' ' :: padTo 10 "hash".toList ++ ['\n']

/-- A line of dashes. -/
def dashes (count : ℕ) : List Char := List.replicate count '-' ++ ['\n']

/-- What `main` prints before the line of dashes: without arguments there is no line break
after `usage`. -/
def preamble (keys : List UInt32) : List Char :=
  (if keys = [] then "usage: ./systracer <pid>".toList else []) ++ keys.flatMap tracing ++ header

/-- `printf("Lost %lld events\n", lost_counter)`. -/
def footer (lost_counter : UInt64) : List Char :=
  "Lost ".toList ++ decimal (int64 lost_counter.toNat) ++ " events\n".toList

/-- What `main` prints: the arguments, the events, how many were lost. -/
def trace (keys : List UInt32) (events : List Data) (lost_counter : UInt64) : List UInt8 :=
  ascii (preamble keys ++ dashes 148) ++ events.flatMap event_handler ++
    ascii (dashes 146 ++ footer lost_counter)

/-! ## The analyser -/

/-- What `analyse_systracer` collects. -/
structure Telemetry where
  lost_events : List Char
  syscall_counter : Multiset (List Char)
  layer_counter : Multiset (List Char)
  unique_files : Finset (List Char)
  total_processed_lines : ℕ
  data_started : Bool

def Telemetry.initial : Telemetry where
  lost_events := "Unknown".toList
  syscall_counter := 0
  layer_counter := 0
  unique_files := ∅
  total_processed_lines := 0
  data_started := false

/-- `operation`, `layer` and `file_name`. -/
structure Entry where
  operation : List Char
  layer : List Char
  file_name : List Char
deriving DecidableEq

/-- The four updates for a data line. -/
def Telemetry.count (t : Telemetry) (entry : Entry) : Telemetry :=
  { t with
    syscall_counter := entry.operation ::ₘ t.syscall_counter
    layer_counter := entry.layer ::ₘ t.layer_counter
    unique_files := insert entry.file_name t.unique_files
    total_processed_lines := t.total_processed_lines + 1 }

/-- An iteration of the loop over the lines. -/
def processLine (t : Telemetry) (line : List Char) : Telemetry :=
  let line := strip line
  if line = [] then t
  else if "Lost".toList <+: line then { t with lost_events := line }
  else if "pid".toList <+: line ∧ "command".toList <:+: line then t
  else if "---".toList <+: line then { t with data_started := true }
  else if t.data_started then
    match words line with
    | _ :: _ :: operation :: layer :: file_name :: _ => t.count ⟨operation, layer, file_name⟩
    | _ => t
  else t

end ProjetoTSO.Systracer
