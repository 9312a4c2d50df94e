import WireFormat.Proofs.Nesting

namespace WireFormat

-- A syntax error stands at the first token at which it could be found.

-- A reading that has taken some tokens and stopped at the next one.
structure Stopped (taken : List Token) (token stop : Token) (error : SyntaxError) : Prop where
  found : error.token = token
  viable : ∃ more, (∀ token ∈ more, token.kind ≠ .eof) ∧ (parse (taken ++ more ++ [stop])).error = none
  final : token.kind ≠ .eof → ∀ more, (parse (taken ++ token :: more)).error ≠ none
  tooDeep : error.refusal = .tooDeep ↔ (token.kind = .structWord ∨ token.kind = .selectWord) ∧
    openBodies taken = 256 ∧ Startable taken token
  unexpected : error.refusal ≠ .tooDeep → ∃ expected, error.refusal = .unexpected expected

theorem refusal_deep {reader : Reader} : reader.refusal token = .tooDeep ↔
    reader.focus = .idle ∧ maxNesting ≤ reader.bodies.length ∧
      (token.kind = .structWord ∨ token.kind = .selectWord) := by
  obtain ⟨decls, bodies, focus⟩ := reader
  cases focus <;> simp [Reader.refusal, Reader.isIdle, Reader.isFull, or_iff_not_imp_left]

theorem bodies_bounded (held : BodiesHeld bodies tokens) : bodies.length ≤ maxNesting := by
  cases held with
  | none => exact Nat.zero_le _
  | body _ room _ _ _ => exact room

theorem feed_stopped {reader : Reader} (stops : (reader.feed tokens).2 = token :: rest) :
    (reader.feed tokens).1.advance token = none := by
  induction tokens generalizing reader with
  | nil => cases stops
  | cons first others ih =>
    cases next : reader.advance first with
    | none =>
      simp only [Reader.feed, next, List.cons.injEq] at stops ⊢
      exact stops.1 ▸ next
    | some middle =>
      simp only [Reader.feed, next] at stops ⊢
      exact ih stops

theorem parse_error (stops : (Reader.initial.feed tokens).2 = token :: rest)
    (failed : (parse tokens).error = some error) :
    error = ⟨token, (Reader.initial.feed tokens).1.refusal token⟩ := by
  simp only [parse, stops, List.headD_cons] at failed
  split at failed
  · cases failed
  · exact (Option.some.inj failed).symm

theorem viable_taken {reader : Reader} (takes : Takes Reader.advance .initial taken reader) (ended : stop.kind = .eof) :
    ∃ more, (∀ token ∈ more, token.kind ≠ .eof) ∧ (parse (taken ++ more ++ [stop])).error = none := by
  obtain ⟨more, last, further, ends⟩ := reader.reader_finishes
  have whole := takes.append further
  have done := (parse_takes (Reader.takes_plain whole) ended).mpr ⟨last, whole, ends, rfl⟩
  exact ⟨more, Reader.takes_plain further, congrArg Parsed.error done⟩

theorem refused_final {reader : Reader} (takes : Takes Reader.advance .initial taken reader)
    (refused : reader.advance token = none) (other : token.kind ≠ .eof) (more : List Token) :
    (parse (taken ++ token :: more)).error ≠ none := by
  have all := Reader.feed_taken takes
  have stops : Reader.initial.feed (taken ++ token :: more) = (reader, token :: more) := by
    rw [Reader.feed_append .initial taken _ (by rw [all]), all]
    simp [Reader.feed, refused]
  simp [parse, stops, other]

theorem refused_deep {reader : Reader} (takes : Takes Reader.advance .initial taken reader)
    (refused : reader.advance token = none) : reader.refusal token = .tooDeep ↔
      (token.kind = .structWord ∨ token.kind = .selectWord) ∧ openBodies taken = 256 ∧ Startable taken token := by
  constructor
  · intro deep
    obtain ⟨idle, full, nested⟩ := refusal_deep.mp deep
    have held := takes_held initial_held takes
    have startable := idle_startable held idle nested
    obtain ⟨_, inner, _⟩ := held
    have all : _ = maxNesting := Nat.le_antisymm (bodies_bounded inner) full
    refine ⟨nested, ?_, by simpa using startable⟩
    rw [idle_balance takes idle]
    exact congrArg Nat.cast all
  · intro given
    exact Reader.startable_refused takes refused given.2.2

-- The tokens before the error are the start of some schema, and with the token of the
-- error they are the start of none. The error is about nesting exactly where a struct
-- or a select may stand but for the limit, and all the bodies that it allows are open.
theorem parse_earliest (ended : stop.kind = .eof) (failed : (parse (tokens ++ [stop])).error = some error) :
    ∃ taken token rest, tokens ++ [stop] = taken ++ token :: rest ∧
      (Reader.initial.feed (tokens ++ [stop])).2 = token :: rest ∧ Stopped taken token stop error := by
  have last : ∃ token ∈ tokens ++ [stop], token.kind = .eof := ⟨stop, List.mem_concat_self, ended⟩
  obtain ⟨token, rest, stops⟩ := Reader.feed_refuses last
  obtain ⟨taken, split, takes⟩ := Reader.feed_parts .initial (tokens ++ [stop])
  have refused := feed_stopped stops
  have error := parse_error stops failed
  generalize (Reader.initial.feed (tokens ++ [stop])).1 = reader at takes refused error
  obtain rfl := error
  refine ⟨taken, token, rest, stops ▸ split, stops, rfl, viable_taken takes ended, refused_final takes refused,
    refused_deep takes refused, fun other => ?_⟩
  cases shown : reader.refusal token with
  | unexpected expected => exact ⟨expected, rfl⟩
  | tooDeep => exact absurd shown other

-- One struct more than may be open.
def nestedStructs : List Token := (List.replicate 257 [Token.of .structWord, Token.of .lBrace]).flatten

theorem parse_earliest_nested : (Token.endAt 1).kind = .eof ∧
    (parse (nestedStructs ++ [.endAt 1])).error = some ⟨.of .structWord, .tooDeep⟩ ∧
    ∃ taken token rest, nestedStructs ++ [.endAt 1] = taken ++ token :: rest ∧
      (Reader.initial.feed (nestedStructs ++ [.endAt 1])).2 = token :: rest ∧
        Stopped taken token (.endAt 1) ⟨.of .structWord, .tooDeep⟩ := by
  have ended : (Token.endAt 1).kind = .eof := rfl
  have failed : (parse (nestedStructs ++ [.endAt 1])).error = some ⟨.of .structWord, .tooDeep⟩ := by
    decide +kernel
  exact ⟨ended, failed, parse_earliest ended failed⟩

end WireFormat
