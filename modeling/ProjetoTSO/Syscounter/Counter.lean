import Mathlib.Data.UInt
import Mathlib.Data.List.AList
import Mathlib.Algebra.BigOperators.Group.Multiset.Basic
import ProjetoTSO.Lib.CInt
import ProjetoTSO.Lib.Transition
import ProjetoTSO.Codededup.MetaInfo

/-!
# The system call counter

Model of `update_counter` in `syscounter.bpf.c` and of the hash map it works on, as any
number of CPUs execute it at the same time.  A call is a sequence of atomic steps: the
lookup, then either the two atomic additions to the element found, or the insertion of a
new one.  Elements are never deleted, so the pointer of a lookup stays good.
-/

namespace ProjetoTSO.Syscounter

open CInt Transition
open Codededup (CString)

/-! ## The map -/

def MAX_OPS : ℕ := 6

def MAX_PIDS : ℕ := 100

/-- The name of a process, a `char[16]` with its NUL. -/
structure Comm extends CString where
  short : bytes.length ≤ 15
deriving DecidableEq

/-- The benchmark's own name. -/
def Comm.fio : Comm := ⟨⟨[102, 105, 111], by decide⟩, by decide⟩

@[ext]
structure CounterKey where
  command : Comm
  pid : ℤ
  op : ℤ
deriving DecidableEq

@[ext]
structure CounterVal where
  calls : UInt64
  bytes : UInt64
deriving DecidableEq

abbrev CounterMap := AList fun _ : CounterKey => CounterVal

/-- `max_entries` of the map `counter`. -/
def max_entries : ℕ := MAX_PIDS

/-- `bpf_map_update_elem` with `BPF_NOEXIST`: a key that is present, or a map that is
full, makes it fail. -/
def bpf_map_update_elem (counter : CounterMap) (key : CounterKey) (value : CounterVal) :
    CounterMap :=
  if (counter.lookup key).isSome ∨ max_entries ≤ counter.entries.length then counter
  else counter.insert key value

/-- The element of a key is updated in place. -/
def modify (counter : CounterMap) (key : CounterKey) (change : CounterVal → CounterVal) :
    CounterMap :=
  match counter.lookup key with
  | some val => counter.replace key (change val)
  | none => counter

/-! ## The program -/

/-- The arguments of `update_counter`, and the name of the process that runs. -/
structure UpdateCall where
  pid : UInt32
  op : ℤ
  bytes : UInt64
  current_comm : Comm
deriving DecidableEq

/-- The key `update_counter` builds. -/
def UpdateCall.key (call : UpdateCall) : CounterKey where
  command := call.current_comm
  pid := int32 call.pid.toNat
  op := call.op

/-- Where a call of `update_counter` is: the step it does next. -/
inductive Phase where
  | lookup
  | addCalls
  | addBytes
  | insert
deriving DecidableEq

/-- One step of `update_counter`: the map after it, and the step that follows, if the
call does not return. -/
def update_counter (call : UpdateCall) (counter : CounterMap) :
    Phase → CounterMap × Option Phase
  | .lookup =>
      if (counter.lookup call.key).isSome then (counter, some .addCalls)
      else (counter, some .insert)
  | .addCalls =>
      (modify counter call.key fun val => { val with calls := val.calls + 1 }, some .addBytes)
  | .addBytes =>
      (modify counter call.key fun val => { val with bytes := val.bytes + call.bytes }, none)
  | .insert => (bpf_map_update_elem counter call.key ⟨1, call.bytes⟩, none)

/-! ## The CPUs -/

/-- The map, and the calls being executed, each by a CPU of its own. -/
structure State where
  counter : CounterMap
  running : Multiset (UpdateCall × Phase)

/-- Nothing has been counted. -/
def State.empty : State := ⟨∅, 0⟩

inductive Event where
  | enter (call : UpdateCall)
  | advance (call : UpdateCall) (phase : Phase)

/-- A CPU enters `update_counter`, or one that is in it does a step. -/
inductive Step (s : State) : Event → State → Prop
  | enter (call : UpdateCall) :
      Step s (.enter call) { s with running := (call, .lookup) ::ₘ s.running }
  | advance {call : UpdateCall} {phase : Phase} (runs : (call, phase) ∈ s.running) :
      Step s (.advance call phase)
        { counter := (update_counter call s.counter phase).1
          running := ((update_counter call s.counter phase).2.map (call, ·)).toList +
            s.running.erase (call, phase) }

/-- The calls of a history. -/
def entered (history : List Event) : Multiset UpdateCall :=
  history.filterMap fun
    | .enter call => some call
    | .advance _ _ => none

/-- The calls made for a key. -/
def callsFor (key : CounterKey) (history : List Event) : Multiset UpdateCall :=
  (entered history).filter (·.key = key)

/-- The value of a key, zero when it is not in the map. -/
def State.valueOf (s : State) (key : CounterKey) : CounterVal :=
  (s.counter.lookup key).getD ⟨0, 0⟩

end ProjetoTSO.Syscounter
