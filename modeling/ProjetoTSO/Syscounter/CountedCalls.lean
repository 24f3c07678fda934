import Mathlib.Tactic.Abel
import ProjetoTSO.Syscounter.Counter

/-!
# Which calls the counter loses

A call that does not find its key inserts it with `BPF_NOEXIST` and does not look at the
result.  The insertion fails when another call has inserted the key meanwhile, and when
the map is full; then the call is not counted.  The counters are exact if and only if
every lookup was `Uncontended` (`counters_exact_iff`).
-/

namespace ProjetoTSO.Syscounter

open CInt Transition
open Codededup (CString)

/-! ## Values as amounts -/

namespace CounterVal

instance : Zero CounterVal := ⟨⟨0, 0⟩⟩

instance : Add CounterVal := ⟨fun v w => ⟨v.calls + w.calls, v.bytes + w.bytes⟩⟩

@[simp] theorem zero_calls : (0 : CounterVal).calls = 0 := rfl

@[simp] theorem zero_bytes : (0 : CounterVal).bytes = 0 := rfl

@[simp] theorem add_calls (v w : CounterVal) : (v + w).calls = v.calls + w.calls := rfl

@[simp] theorem add_bytes (v w : CounterVal) : (v + w).bytes = v.bytes + w.bytes := rfl

instance : AddCommMonoid CounterVal where
  add_assoc u v w := by ext <;> simp [add_assoc]
  zero_add v := by ext <;> simp
  add_zero v := by ext <;> simp
  add_comm v w := by ext <;> simp [add_comm]
  nsmul := nsmulRec

end CounterVal

/-- What a call has to add to the value of its key. -/
def UpdateCall.amount (call : UpdateCall) : CounterVal := ⟨1, call.bytes⟩

/-- What a call still has to add, at the step it does next. -/
def owes : UpdateCall × Phase → CounterVal
  | (call, .addBytes) => ⟨0, call.bytes⟩
  | (call, _) => call.amount

/-- The amounts of some calls for a key. -/
def due (key : CounterKey) (calls : Multiset UpdateCall) : CounterVal :=
  ((calls.filter (·.key = key)).map UpdateCall.amount).sum

/-- What the calls being executed still have to add to a key. -/
def owed (key : CounterKey) (running : Multiset (UpdateCall × Phase)) : CounterVal :=
  ((running.filter (·.1.key = key)).map owes).sum

section Amounts

variable {key : CounterKey} {call : UpdateCall} {calls : Multiset UpdateCall}
variable {running : Multiset (UpdateCall × Phase)} {phase : Phase}

theorem due_cons : due key (call ::ₘ calls) =
    (if call.key = key then call.amount else 0) + due key calls := by
  rw [due, Multiset.filter_cons, Multiset.map_add, Multiset.sum_add]
  split <;> simp [due]

theorem owed_cons : owed key ((call, phase) ::ₘ running) =
    (if call.key = key then owes (call, phase) else 0) + owed key running := by
  rw [owed, Multiset.filter_cons, Multiset.map_add, Multiset.sum_add]
  split <;> simp [owed]

/-- The calls counted modulo `2 ^ 64`. -/
theorem due_calls : (due key calls).calls = UInt64.ofNat (calls.filter (·.key = key)).card := by
  unfold due
  induction calls.filter (·.key = key) using Multiset.induction with
  | empty => rfl
  | cons call calls ih =>
      rw [Multiset.map_cons, Multiset.sum_cons, CounterVal.add_calls, ih, Multiset.card_cons,
        UInt64.ofNat_add]
      exact add_comm _ _

theorem due_bytes :
    (due key calls).bytes = ((calls.filter (·.key = key)).map UpdateCall.bytes).sum := by
  unfold due
  induction calls.filter (·.key = key) using Multiset.induction with
  | empty => rfl
  | cons call calls ih =>
      rw [Multiset.map_cons, Multiset.sum_cons, CounterVal.add_bytes, ih, Multiset.map_cons,
        Multiset.sum_cons]
      rfl

end Amounts

/-! ## The map -/

section Map

variable {counter : CounterMap} {key key' : CounterKey} {val : CounterVal}
variable {change : CounterVal → CounterVal}

theorem keys_modify : (modify counter key change).keys = counter.keys := by
  unfold modify
  cases counter.lookup key with
  | none => rfl
  | some val => exact AList.keys_replace _ _ _

theorem lookup_modify (found : counter.lookup key = some val) :
    (modify counter key change).lookup key' =
      if key' = key then some (change val) else counter.lookup key' := by
  have replaced : modify counter key change = counter.replace key (change val) := by
    rw [modify, found]
  rw [replaced]
  obtain ⟨entries, distinct⟩ := counter
  show (List.kreplace key (change val) entries).dlookup key' =
    if key' = key then _ else entries.dlookup key'
  replace found : entries.dlookup key = some val := found
  clear replaced
  induction entries with
  | nil => cases found
  | cons entry entries ih =>
      obtain ⟨first, value⟩ := entry
      obtain ⟨-, distinct⟩ := List.nodupKeys_cons.mp distinct
      by_cases here : key = first
      · subst here
        have front : List.kreplace key (change val) (⟨key, value⟩ :: entries) =
            ⟨key, change val⟩ :: entries := List.lookmap_cons_some _ _ (if_pos rfl)
        rw [front]
        split
        next same =>
            subst same
            exact List.dlookup_cons_eq _ _ _
        next other => rw [List.dlookup_cons_ne _ ⟨_, _⟩ other, List.dlookup_cons_ne _ ⟨_, _⟩ other]
      · have later : List.kreplace key (change val) (⟨first, value⟩ :: entries) =
            ⟨first, value⟩ :: List.kreplace key (change val) entries :=
          List.lookmap_cons_none _ _ (if_neg here)
        rw [List.dlookup_cons_ne _ ⟨_, _⟩ here] at found
        rw [later]
        by_cases asked : key' = first
        · subst asked
          rw [if_neg fun same => here same.symm, List.dlookup_cons_eq, List.dlookup_cons_eq]
        · rw [List.dlookup_cons_ne _ ⟨_, _⟩ asked, List.dlookup_cons_ne _ ⟨_, _⟩ asked]
          exact ih distinct found

theorem bpf_map_update_elem_refused
    (refused : (counter.lookup key).isSome ∨ max_entries ≤ counter.entries.length) :
    bpf_map_update_elem counter key val = counter :=
  if_pos refused

theorem bpf_map_update_elem_done
    (done : ¬ ((counter.lookup key).isSome ∨ max_entries ≤ counter.entries.length)) :
    bpf_map_update_elem counter key val = counter.insert key val :=
  if_neg done

end Map

/-! ## The ledger -/

/-- The keys that were not found and are about to be inserted. -/
def State.pending (s : State) : Multiset CounterKey :=
  (s.running.filter (·.2 = .insert)).map (·.1.key)

/-- The keys of the map, and those that are about to be inserted. -/
def State.expected (s : State) : Multiset CounterKey :=
  s.pending + s.counter.keys

/-- There is room for every key, and none is inserted twice. -/
def State.Reserved (s : State) : Prop :=
  s.expected.Nodup ∧ s.expected.card ≤ max_entries

/-- A lookup that fails does so for no other call that has not inserted the key yet, and
leaves room in the map for every key that is about to be inserted. -/
def Uncontended (s : State) : Event → Prop
  | .advance call .lookup => s.counter.lookup call.key = none →
      call.key ∉ s.pending ∧ s.pending.card + s.counter.entries.length < max_entries
  | _ => True

/-- What the map holds, what the calls being executed still have to add, and what the
calls in `lost` did not add are together what the calls of the history have to add. -/
structure Ledger (history : List Event) (s : State) (lost : Multiset UpdateCall) : Prop where
  balanced : ∀ key, s.valueOf key + owed key s.running + due key lost = due key (entered history)
  found : ∀ call phase, (call, phase) ∈ s.running → phase = .addCalls ∨ phase = .addBytes →
    (s.counter.lookup call.key).isSome
  part : lost + s.running.map Prod.fst ≤ entered history
  room : s.counter.keys.length ≤ max_entries

theorem entered_enter (history : List Event) (call : UpdateCall) :
    entered (history ++ [.enter call]) = call ::ₘ entered history := by
  rw [entered, List.filterMap_append, ← Multiset.coe_add, add_comm]
  rfl

theorem entered_advance (history : List Event) (call : UpdateCall) (phase : Phase) :
    entered (history ++ [.advance call phase]) = entered history := by
  rw [entered, List.filterMap_append, ← Multiset.coe_add]
  exact add_zero _

namespace Ledger

variable {history : List Event} {s : State} {lost lost' : Multiset UpdateCall}
variable {call : UpdateCall} {phase : Phase} {counter' : CounterMap} {next : Option Phase}

theorem enter (ledger : Ledger history s lost) (call : UpdateCall) :
    Ledger (history ++ [.enter call]) { s with running := (call, .lookup) ::ₘ s.running } lost where
  balanced key := by
    have before := ledger.balanced key
    have same : owes (call, .lookup) = call.amount := rfl
    rw [entered_enter, due_cons, owed_cons, ← before, same]
    show s.valueOf key + _ + _ = _
    abel
  found other phase member which := by
    rcases Multiset.mem_cons.mp member with here | earlier
    · cases here
      rcases which with wrong | wrong <;> cases wrong
    · exact ledger.found other phase earlier which
  part := by
    rw [entered_enter, Multiset.map_cons, Multiset.add_cons]
    exact Multiset.cons_le_cons _ ledger.part
  room := ledger.room

/-- A call that does a step pays what it does not owe any more, or is lost. -/
theorem advance (ledger : Ledger history s lost) (runs : (call, phase) ∈ s.running)
    (pays : ∀ key, (⟨counter', s.running⟩ : State).valueOf key +
        (if call.key = key then next.elim 0 fun after => owes (call, after) else 0) +
        due key lost' =
      s.valueOf key + (if call.key = key then owes (call, phase) else 0) + due key lost)
    (kept : ∀ key, (s.counter.lookup key).isSome → (counter'.lookup key).isSome)
    (found : next = some .addCalls ∨ next = some .addBytes → (counter'.lookup call.key).isSome)
    (part : lost' + next.elim 0 (fun _ => {call}) ≤ call ::ₘ lost)
    (room : counter'.keys.length ≤ max_entries) :
    Ledger (history ++ [.advance call phase])
      ⟨counter', (next.map (call, ·)).toList + s.running.erase (call, phase)⟩ lost' where
  balanced key := by
    have before := ledger.balanced key
    have paid := pays key
    rw [← Multiset.cons_erase runs, owed_cons] at before
    have moved : owed key ((next.map (call, ·)).toList + s.running.erase (call, phase)) =
        (if call.key = key then next.elim 0 fun after => owes (call, after) else 0) +
          owed key (s.running.erase (call, phase)) := by
      cases next with
      | none => simp
      | some after => exact owed_cons
    rw [entered_advance, ← before, moved]
    calc _ = (⟨counter', s.running⟩ : State).valueOf key +
          (if call.key = key then next.elim 0 fun after => owes (call, after) else 0) +
          due key lost' + owed key (s.running.erase (call, phase)) := by
            show State.valueOf ⟨counter', s.running⟩ key + _ + _ = _
            abel
      _ = _ := by
            rw [paid]
            abel
  found other after member which := by
    rcases Multiset.mem_add.mp member with here | earlier
    · cases next with
      | none => cases here
      | some step =>
          obtain ⟨rfl, rfl⟩ := Prod.ext_iff.mp (List.mem_singleton.mp here)
          exact found (which.imp (congrArg some) (congrArg some))
    · exact kept _ (ledger.found other after (Multiset.mem_of_mem_erase earlier) which)
  part := by
    have before := ledger.part
    rw [← Multiset.cons_erase runs, Multiset.map_cons, Multiset.add_cons, ← Multiset.cons_add]
      at before
    rw [entered_advance]
    refine le_trans ?_ before
    rw [Multiset.map_add, ← add_assoc]
    refine add_le_add ?_ le_rfl
    cases next with
    | none => exact part
    | some after => exact part
  room := room

theorem returned (ledger : Ledger history s lost) (returned : s.running = 0) (key : CounterKey) :
    s.valueOf key + due key lost = due key (entered history) := by
  rw [← ledger.balanced key, returned]
  exact congrArg (· + _) (add_zero _).symm

theorem reserved (ledger : Ledger history s lost) (returned : s.running = 0) : s.Reserved := by
  have keys : s.expected = s.counter.keys := by
    rw [State.expected, State.pending, returned]
    exact zero_add _
  rw [State.Reserved, keys]
  exact ⟨s.counter.keys_nodup, ledger.room⟩

/-- No call for a key whose counter is right is lost. -/
theorem not_lost (ledger : Ledger history s lost) (returned : s.running = 0)
    (exact_ : (s.valueOf call.key).calls.toNat = (callsFor call.key history).card) :
    call ∉ lost := by
  intro member
  have positive : 0 < (lost.filter (·.key = call.key)).card :=
    Multiset.card_pos_iff_exists_mem.mpr ⟨call, Multiset.mem_filter.mpr ⟨member, rfl⟩⟩
  have most : (lost.filter (·.key = call.key)).card ≤ (callsFor call.key history).card :=
    Multiset.card_le_card (Multiset.filter_le_filter _
      ((Multiset.le_add_right _ _).trans ledger.part))
  have balanced := congrArg (·.calls.toNat) (ledger.returned returned call.key)
  simp only [CounterVal.add_calls, due_calls, UInt64.toNat_add, UInt64.toNat_ofNat'] at balanced
  have small := UInt64.toNat_lt (s.valueOf call.key).calls
  rw [exact_] at balanced small
  rw [callsFor] at balanced small most
  omega

end Ledger

/-! ## The steps -/

section Steps

variable {history : List Event} {s t : State} {lost : Multiset UpdateCall} {event : Event}
variable {call : UpdateCall} {phase : Phase} {counter' : CounterMap} {next : Option Phase}

/-- What a step of a call does to the keys that are about to be inserted. -/
theorem pending_advance (counter' : CounterMap) (next : Option Phase)
    (runs : (call, phase) ∈ s.running) :
    (if phase = .insert then {call.key} else 0) +
        (⟨counter', (next.map (call, ·)).toList + s.running.erase (call, phase)⟩ : State).pending =
      (if next = some .insert then {call.key} else 0) + s.pending := by
  have before : s.pending = (if phase = .insert then {call.key} else 0) +
      (⟨counter', s.running.erase (call, phase)⟩ : State).pending := by
    rw [State.pending]
    nth_rewrite 1 [← Multiset.cons_erase runs]
    rw [Multiset.filter_cons, Multiset.map_add]
    split <;> rfl
  have after : (⟨counter', (next.map (call, ·)).toList + s.running.erase (call, phase)⟩ :
      State).pending = (if next = some .insert then {call.key} else 0) +
        (⟨counter', s.running.erase (call, phase)⟩ : State).pending := by
    rw [State.pending, Multiset.filter_add, Multiset.map_add]
    congr 1
    rcases next with _ | _ | _ | _ | _ <;> rfl
  rw [after, before]
  abel

theorem expected_card (s : State) :
    s.expected.card = s.pending.card + s.counter.entries.length := by
  rw [State.expected, Multiset.card_add, Multiset.coe_card]
  exact congrArg _ (List.length_map _)

theorem reserved_kept (same : t.expected = s.expected) (free : Uncontended s event) :
    t.Reserved ↔ s.Reserved ∧ Uncontended s event := by
  rw [State.Reserved, State.Reserved, same]
  exact ⟨fun reserved => ⟨reserved, free⟩, And.left⟩

/-- A key that is not in the map and is about to be inserted. -/
theorem reserved_cons (absent : s.counter.lookup call.key = none)
    (more : t.expected = call.key ::ₘ s.expected) :
    t.Reserved ↔ s.Reserved ∧ Uncontended s (.advance call .lookup) := by
  have unknown : call.key ∉ (s.counter.keys : Multiset CounterKey) :=
    fun member => AList.lookup_eq_none.mp absent (AList.mem_keys.mpr member)
  rw [State.Reserved, State.Reserved, more, Multiset.nodup_cons, Multiset.card_cons,
    State.expected, Multiset.mem_add, not_or, ← State.expected, expected_card, Uncontended]
  constructor
  · rintro ⟨⟨⟨new, -⟩, nodup⟩, room⟩
    exact ⟨⟨nodup, by omega⟩, fun _ => ⟨new, by omega⟩⟩
  · rintro ⟨⟨nodup, -⟩, uncontended⟩
    obtain ⟨new, room⟩ := uncontended absent
    exact ⟨⟨⟨new, unknown⟩, nodup⟩, by omega⟩

/-- An insertion that is refused comes after a failed lookup that was contended. -/
theorem not_reserved_of_refused (runs : (call, .insert) ∈ s.running)
    (refused : (s.counter.lookup call.key).isSome ∨ max_entries ≤ s.counter.entries.length) :
    ¬ s.Reserved := by
  rintro ⟨nodup, room⟩
  have waiting : call.key ∈ s.pending :=
    Multiset.mem_map.mpr ⟨(call, .insert), Multiset.mem_filter.mpr ⟨runs, rfl⟩, rfl⟩
  rcases refused with present | full
  · have member : call.key ∈ s.counter.keys := AList.mem_keys.mp (AList.lookup_isSome.mp present)
    exact Multiset.disjoint_left.mp (Multiset.nodup_add.mp nodup).2.2 waiting member
  · have positive : 0 < s.pending.card := Multiset.card_pos_iff_exists_mem.mpr ⟨_, waiting⟩
    rw [expected_card] at room
    omega

/-- An addition to the element of a key that is in the map. -/
theorem modify_ledger (ledger : Ledger history s lost) (runs : (call, phase) ∈ s.running)
    (adds : phase = .addCalls ∨ phase = .addBytes) (change : CounterVal → CounterVal)
    (next : Option Phase) (notInsert : next ≠ some .insert)
    (pays : ∀ val, change val + next.elim 0 (fun after => owes (call, after)) =
      val + owes (call, phase)) :
    let t : State := ⟨modify s.counter call.key change,
      (next.map (call, ·)).toList + s.running.erase (call, phase)⟩
    Ledger (history ++ [.advance call phase]) t lost ∧
      (t.Reserved ↔ s.Reserved ∧ Uncontended s (.advance call phase)) := by
  intro t
  obtain ⟨val, present⟩ := Option.isSome_iff_exists.mp (ledger.found call phase runs adds)
  have looked : ∀ key, (modify s.counter call.key change).lookup key =
      if key = call.key then some (change val) else s.counter.lookup key :=
    fun key => lookup_modify present
  have trivial_ : Uncontended s (.advance call phase) := by
    rcases adds with rfl | rfl <;> trivial
  refine ⟨ledger.advance runs (fun key => ?_) (fun key some_ => ?_) (fun _ => ?_) ?_
    (keys_modify.symm ▸ ledger.room), ?_⟩
  · by_cases here : call.key = key
    · subst here
      have paid := pays val
      rw [if_pos rfl, if_pos rfl, State.valueOf, State.valueOf, looked, if_pos rfl, present]
      exact congrArg (· + due call.key lost) paid
    · rw [if_neg here, if_neg here, State.valueOf, State.valueOf, looked,
        if_neg fun same => here same.symm]
  · rw [looked]
    split
    · rfl
    · exact some_
  · rw [looked, if_pos rfl]
    rfl
  · refine le_trans ?_ (Multiset.singleton_add call lost).le
    rw [add_comm]
    refine add_le_add ?_ le_rfl
    rcases next with _ | after
    · exact Multiset.zero_le _
    · exact le_rfl
  · have pending := pending_advance (modify s.counter call.key change) next runs
    rw [if_neg (by rcases adds with rfl | rfl <;> simp), if_neg notInsert, zero_add, zero_add]
      at pending
    refine reserved_kept ?_ trivial_
    show t.pending + _ = s.pending + _
    rw [pending, keys_modify]

theorem lookup_ledger (ledger : Ledger history s lost) (runs : (call, .lookup) ∈ s.running) :
    let t : State := ⟨(update_counter call s.counter .lookup).1,
      ((update_counter call s.counter .lookup).2.map (call, ·)).toList +
        s.running.erase (call, .lookup)⟩
    Ledger (history ++ [.advance call .lookup]) t lost ∧
      (t.Reserved ↔ s.Reserved ∧ Uncontended s (.advance call .lookup)) := by
  have moved : ∀ after, owes (call, .lookup) = owes (call, after) → (after = .addCalls ∨
      after = .addBytes → (s.counter.lookup call.key).isSome) →
      Ledger (history ++ [.advance call .lookup]) ⟨s.counter,
        ((some after).map (call, ·)).toList + s.running.erase (call, .lookup)⟩ lost := by
    intro after same found
    refine ledger.advance runs (fun key => ?_) (fun key => id) (fun which => found ?_) ?_
      ledger.room
    · rw [same]
      rfl
    · exact which.imp (Option.some.inj) (Option.some.inj)
    · exact (add_comm _ _).trans_le (Multiset.singleton_add call lost).le
  cases looked : s.counter.lookup call.key with
  | some val =>
      have outcome : update_counter call s.counter .lookup = (s.counter, some .addCalls) := by
        rw [update_counter, looked]
        rfl
      rw [outcome]
      refine ⟨moved .addCalls rfl fun _ => by rw [looked]; rfl, ?_⟩
      have pending := pending_advance s.counter (some .addCalls) runs
      rw [if_neg (by simp), if_neg (by simp), zero_add, zero_add] at pending
      refine reserved_kept ?_ fun absent => ?_
      · show _ + _ = _
        rw [pending]
        rfl
      · rw [looked] at absent
        cases absent
  | none =>
      have outcome : update_counter call s.counter .lookup = (s.counter, some .insert) := by
        rw [update_counter, looked]
        rfl
      rw [outcome]
      refine ⟨moved .insert rfl (Or.rec nofun nofun), ?_⟩
      have pending := pending_advance s.counter (some .insert) runs
      rw [if_neg (by simp), if_pos rfl, zero_add] at pending
      refine reserved_cons looked ?_
      show _ + _ = _
      rw [pending, add_assoc]
      rfl

theorem insert_ledger (ledger : Ledger history s lost) (runs : (call, .insert) ∈ s.running) :
    let t : State := ⟨bpf_map_update_elem s.counter call.key ⟨1, call.bytes⟩,
      ((none : Option Phase).map (call, ·)).toList + s.running.erase (call, .insert)⟩
    ∃ lost', Ledger (history ++ [.advance call .insert]) t lost' ∧
      (lost' = lost ∧ (t.Reserved ↔ s.Reserved ∧ Uncontended s (.advance call .insert)) ∨
        lost' ≠ 0 ∧ ¬ s.Reserved) := by
  intro t
  by_cases refused : (s.counter.lookup call.key).isSome ∨ max_entries ≤ s.counter.entries.length
  · refine ⟨call ::ₘ lost, ?_, Or.inr ⟨Multiset.cons_ne_zero, not_reserved_of_refused runs refused⟩⟩
    rw [show t = ⟨s.counter, _⟩ from congrArg (State.mk · _) (bpf_map_update_elem_refused refused)]
    refine ledger.advance runs (fun key => ?_) (fun key => id) (fun which => ?_) (add_zero _).le
      ledger.room
    · rw [due_cons]
      show State.valueOf s key + (if call.key = key then (0 : CounterVal) else 0) + _ = _
      rw [ite_self, add_zero, ← add_assoc]
      rfl
    · exact which.elim nofun nofun
  · have inserted : bpf_map_update_elem s.counter call.key ⟨1, call.bytes⟩ = _ :=
      bpf_map_update_elem_done refused
    obtain ⟨absent, free⟩ := not_or.mp refused
    rw [Option.not_isSome_iff_eq_none] at absent
    have unknown : call.key ∉ s.counter.keys :=
      fun member => AList.lookup_eq_none.mp absent (AList.mem_keys.mpr member)
    rw [show t = ⟨s.counter.insert call.key ⟨1, call.bytes⟩, _⟩ from congrArg (State.mk · _) inserted]
    refine ⟨lost, ledger.advance runs (fun key => ?_) (fun key some_ => ?_) (fun which => ?_) ?_ ?_,
      Or.inl ⟨rfl, ?_⟩⟩
    · by_cases here : call.key = key
      · subst here
        rw [if_pos rfl, if_pos rfl, State.valueOf, State.valueOf, AList.lookup_insert, absent]
        show (⟨1, call.bytes⟩ : CounterVal) + 0 + _ = 0 + call.amount + _
        rw [add_zero, zero_add]
        rfl
      · rw [if_neg here, if_neg here, State.valueOf, State.valueOf,
          AList.lookup_insert_ne fun same => here same.symm]
    · by_cases here : key = call.key
      · rw [here, AList.lookup_insert]
        rfl
      · rwa [AList.lookup_insert_ne here]
    · exact which.elim nofun nofun
    · exact (add_zero _).trans_le (Multiset.le_cons_self lost call)
    · have length : s.counter.keys.length = s.counter.entries.length := List.length_map _
      rw [AList.keys_insert, List.erase_of_not_mem unknown, List.length_cons]
      omega
    · have pending := pending_advance (s.counter.insert call.key ⟨1, call.bytes⟩) none runs
      rw [if_pos rfl, if_neg (by simp), zero_add] at pending
      refine reserved_kept ?_ trivial
      -- the key moves from those that are about to be inserted to those of the map
      show _ + _ = s.pending + _
      rw [← pending, AList.keys_insert, List.erase_of_not_mem unknown, ← Multiset.cons_coe,
        ← Multiset.singleton_add]
      abel

/-- **What a step does.**  It keeps the ledger, and loses a call only when an earlier
lookup was contended. -/
theorem Step.ledger (step : Step s event t) (ledger : Ledger history s lost) :
    ∃ lost', Ledger (history ++ [event]) t lost' ∧
      (lost' = lost ∧ (t.Reserved ↔ s.Reserved ∧ Uncontended s event) ∨
        lost' ≠ 0 ∧ ¬ s.Reserved) := by
  cases step with
  | enter call =>
      refine ⟨lost, ledger.enter call, Or.inl ⟨rfl, reserved_kept ?_ trivial⟩⟩
      rw [State.expected, State.pending, Multiset.filter_cons_of_neg _ (by simp)]
      rfl
  | @advance call phase runs =>
      cases phase with
      | lookup => exact ⟨lost, (lookup_ledger ledger runs).imp_right fun r => Or.inl ⟨rfl, r⟩⟩
      | addCalls =>
          have paid : ∀ val : CounterVal, (⟨val.calls + 1, val.bytes⟩ : CounterVal) +
              owes (call, .addBytes) = val + owes (call, .addCalls) := fun val =>
            CounterVal.ext ((add_zero _).trans rfl) rfl
          exact ⟨lost, (modify_ledger ledger runs (Or.inl rfl) _ (some .addBytes) (by simp)
            paid).imp_right fun r => Or.inl ⟨rfl, r⟩⟩
      | addBytes =>
          have paid : ∀ val : CounterVal, (⟨val.calls, val.bytes + call.bytes⟩ : CounterVal) + 0 =
              val + owes (call, .addBytes) := fun val =>
            CounterVal.ext rfl (add_zero _)
          exact ⟨lost, (modify_ledger ledger runs (Or.inr rfl) _ none (by simp)
            paid).imp_right fun r => Or.inl ⟨rfl, r⟩⟩
      | insert => exact insert_ledger ledger runs

end Steps

/-! ## The runs -/

section Runs

variable {history : List Event} {s : State}

/-- In a run with no contended lookup no call is lost. -/
theorem Runs.reserved
    (run : Runs (fun s event t => Step s event t ∧ Uncontended s event) .empty history s) :
    Ledger history s 0 ∧ s.Reserved := by
  induction run with
  | nil =>
      refine ⟨⟨fun key => rfl, ?_, le_rfl, Nat.zero_le _⟩, ?_⟩
      · intro call phase member
        cases member
      · exact ⟨Multiset.nodup_zero, Nat.zero_le _⟩
  | snoc earlier move ih =>
      obtain ⟨ledger, reserved⟩ := ih
      obtain ⟨step, uncontended⟩ := move
      obtain ⟨lost, next, ⟨rfl, kept⟩ | ⟨-, wrong⟩⟩ := step.ledger ledger
      · exact ⟨next, kept.mpr ⟨reserved, uncontended⟩⟩
      · exact absurd reserved wrong

/-- A run in which some lookup was contended has lost a call, or is going to. -/
theorem Runs.contended (run : Runs Step .empty history s) :
    ∃ lost, Ledger history s lost ∧ (lost ≠ 0 ∨ ¬ s.Reserved ∨
      Runs (fun s event t => Step s event t ∧ Uncontended s event) .empty history s) := by
  induction run with
  | nil => exact ⟨0, (Runs.reserved .nil).1, Or.inr (Or.inr .nil)⟩
  | @snoc history s t event earlier step ih =>
      obtain ⟨lost, ledger, outcome⟩ := ih
      obtain ⟨lost', next, ⟨rfl, kept⟩ | ⟨short, -⟩⟩ := step.ledger ledger
      · refine ⟨lost', next, ?_⟩
        rcases outcome with short | missing | fine
        · exact Or.inl short
        · exact Or.inr (Or.inl fun reserved => missing (kept.mp reserved).1)
        · by_cases uncontended : Uncontended s event
          · exact Or.inr (Or.inr (fine.snoc ⟨step, uncontended⟩))
          · exact Or.inr (Or.inl fun reserved => uncontended (kept.mp reserved).2)
      · exact ⟨lost', next, Or.inl short⟩

/-- The map holds for every key the number of calls made for it, and the sum of their
bytes modulo `2 ^ 64`. -/
def Exact (history : List Event) (s : State) : Prop :=
  ∀ key, (s.valueOf key).calls.toNat = (callsFor key history).card ∧
    (s.valueOf key).bytes = ((callsFor key history).map UpdateCall.bytes).sum

/-- **When the counters are exact.**  After all calls have returned, the counters are
exact if and only if no lookup was contended: whenever a call did not find its key, no
other call was about to insert it, and there was room in the map; and no key has had
`2 ^ 64` calls. -/
theorem counters_exact_iff (run : Runs Step .empty history s) (returned : s.running = 0) :
    Exact history s ↔
      Runs (fun s event t => Step s event t ∧ Uncontended s event) .empty history s ∧
        ∀ key, (callsFor key history).card < 2 ^ 64 := by
  constructor
  · intro exact_
    have few : ∀ key, (callsFor key history).card < 2 ^ 64 := fun key =>
      (exact_ key).1 ▸ UInt64.toNat_lt _
    obtain ⟨lost, ledger, short | missing | fine⟩ := Runs.contended run
    · obtain ⟨call, member⟩ := Multiset.exists_mem_of_ne_zero short
      exact absurd member (ledger.not_lost returned (exact_ call.key).1)
    · exact absurd (ledger.reserved returned) missing
    · exact ⟨fine, few⟩
  · rintro ⟨fine, few⟩ key
    have balanced := (Runs.reserved fine).1.returned returned key
    rw [show due key 0 = 0 from rfl, add_zero] at balanced
    rw [balanced, due_calls, due_bytes]
    exact ⟨UInt64.toNat_ofNat_of_lt (few key), rfl⟩

end Runs

/-- A `write` of 10 bytes by a process named `sh`. -/
def writeOfSh : UpdateCall where
  pid := 7
  op := 1
  bytes := 10
  current_comm := ⟨CString.lit "sh", by decide⟩

theorem counters_exact_iff_once :
    Exact [.enter writeOfSh, .advance writeOfSh .lookup, .advance writeOfSh .insert]
      ⟨bpf_map_update_elem ∅ writeOfSh.key ⟨1, 10⟩, 0⟩ := by
  have entering : Step .empty (.enter writeOfSh) ⟨∅, {(writeOfSh, .lookup)}⟩ := .enter writeOfSh
  have looking : Step ⟨∅, {(writeOfSh, .lookup)}⟩ (.advance writeOfSh .lookup)
      ⟨∅, {(writeOfSh, .insert)}⟩ := .advance (Multiset.mem_singleton_self _)
  have inserting : Step ⟨∅, {(writeOfSh, .insert)}⟩ (.advance writeOfSh .insert)
      ⟨bpf_map_update_elem ∅ writeOfSh.key ⟨1, 10⟩, 0⟩ :=
    .advance (Multiset.mem_singleton_self _)
  have run := ((Runs.nil.snoc entering).snoc looking).snoc inserting
  refine (counters_exact_iff run rfl).mpr ⟨?_, fun key => ?_⟩
  · refine ((Runs.nil.snoc ⟨entering, trivial⟩).snoc ⟨looking, fun _ => ?_⟩).snoc
      ⟨inserting, trivial⟩
    exact ⟨Multiset.notMem_zero _, by decide⟩
  · exact (Multiset.card_le_card (Multiset.filter_le _ _)).trans_lt
      (by decide : (1 : ℕ) < 2 ^ 64)

/-- Two CPUs look the same key up before either has inserted it: the second insertion is
refused, and one of the two calls is not counted. -/
theorem first_calls_race :
    ¬ ∀ (history : List Event) (s : State), Runs Step .empty history s → s.running = 0 →
      ((entered history).map fun call => (call.key.command, call.key.pid)).toFinset.card
        ≤ MAX_PIDS →
      ((entered history).map fun call => call.key.op).toFinset.card ≤ MAX_OPS →
      Exact history s := by
  intro claim
  have entering : Runs Step .empty ([] ++ [.enter writeOfSh] ++ [.enter writeOfSh]) _ :=
    (Runs.nil.snoc (.enter writeOfSh)).snoc (.enter writeOfSh)
  have looking := (entering.snoc (.advance (by decide : (writeOfSh, Phase.lookup) ∈ _))).snoc
    (.advance (by decide : (writeOfSh, Phase.lookup) ∈ _))
  have run := (looking.snoc (.advance (by decide : (writeOfSh, Phase.insert) ∈ _))).snoc
    (.advance (by decide : (writeOfSh, Phase.insert) ∈ _))
  have counted := (claim _ _ run (by decide) (by decide) (by decide) writeOfSh.key).1
  exact absurd counted (by decide)

end ProjetoTSO.Syscounter
