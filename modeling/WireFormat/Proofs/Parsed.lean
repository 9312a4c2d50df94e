import WireFormat.Proofs.Derived
import WireFormat.Proofs.HeldSchema
import WireFormat.Proofs.TakenSchema
import WireFormat.Proofs.Written

namespace WireFormat

-- A whole parse: it succeeds on what spells a schema and on nothing else, with that
-- schema for its result.

namespace Reader

theorem feed_taken (takes : Takes advance reader tokens after) : reader.feed tokens = (after, []) := by
  induction tokens generalizing reader with
  | nil => rw [takes_nil.mp takes, feed]
  | cons first rest ih =>
    obtain ⟨middle, next, takes⟩ := takes_cons.mp takes
    simpa [feed, next] using ih takes

theorem feed_stops (takes : Takes advance reader tokens after) (refused : after.advance token = none) :
    reader.feed (tokens ++ [token]) = (after, [token]) := by
  have all := feed_taken takes
  rw [feed_append reader tokens [token] (by rw [all]), all]
  simp [feed, refused]

theorem feed_refused (plain : ∀ token ∈ tokens, token.kind ≠ .eof) (unread : List Token)
    (refused : ∀ after, ¬ Takes advance reader tokens after) :
    ∃ after token rest, reader.feed (tokens ++ unread) = (after, token :: rest) ∧ token.kind ≠ .eof := by
  induction tokens generalizing reader with
  | nil => exact absurd (takes_nil.mpr rfl) (refused reader)
  | cons first rest ih =>
    cases next : reader.advance first with
    | none => exact ⟨reader, first, rest ++ unread, by simp [feed, next], plain first List.mem_cons_self⟩
    | some middle =>
      obtain ⟨after, token, others, stops, other⟩ := ih (fun token member => plain token (.tail _ member))
        fun after takes => refused after (.cons next takes)
      exact ⟨after, token, others, by simpa [feed, next] using stops, other⟩

theorem mayEnd_iff {reader : Reader} :
    reader.mayEnd ↔ reader.focus = .idle ∧ reader.bodies = [] ∧ reader.decls ≠ #[] := by
  obtain ⟨decls, bodies, focus⟩ := reader
  cases focus <;> simp [mayEnd, isIdle]

end Reader

theorem parse_takes (plain : ∀ token ∈ tokens, token.kind ≠ .eof) (ended : stop.kind = .eof) :
    parse (tokens ++ [stop]) = ⟨decls, none⟩ ↔
      ∃ reader, Takes Reader.advance .initial tokens reader ∧ reader.mayEnd ∧ reader.decls.toList = decls := by
  constructor
  · intro done
    by_cases taken : ∃ reader, Takes Reader.advance .initial tokens reader
    · obtain ⟨reader, takes⟩ := taken
      have stops := Reader.feed_stops takes (reader.advance_eof stop ended)
      simp only [parse, stops, Parsed.mk.injEq] at done
      obtain ⟨same, error⟩ := done
      exact ⟨reader, takes, by simpa [ended] using error, same⟩
    · obtain ⟨reader, token, rest, stops, other⟩ := Reader.feed_refused plain [stop] (not_exists.mp taken)
      simp [parse, stops, other] at done
  · intro given
    obtain ⟨reader, takes, ends, rfl⟩ := given
    have stops := Reader.feed_stops takes (reader.advance_eof stop ended)
    simp [parse, stops, ended, ends]

theorem parse_spelt (plain : ∀ token ∈ tokens, token.kind ≠ .eof) (ended : stop.kind = .eof) :
    parse (tokens ++ [stop]) = ⟨decls, none⟩ ↔ SchemaSpelt decls tokens := by
  rw [parse_takes plain ended]
  constructor
  · intro given
    obtain ⟨reader, takes, ends, rfl⟩ := given
    obtain ⟨idle, closed, some⟩ := Reader.mayEnd_iff.mp ends
    have held := takes_held initial_held takes
    obtain ⟨all, inner, inside⟩ := held
    obtain rfl : _ = Focus.idle := idle
    obtain rfl : _ = [] := closed
    cases inner
    cases inside
    exact ⟨by simpa using some, by simpa using all⟩
  · intro given
    obtain ⟨some, all⟩ := given
    have takes := Reader.decls_inside all #[]
    refine ⟨_, takes, Reader.mayEnd_iff.mpr ⟨rfl, rfl, ?_⟩, ?_⟩
    · simpa using some
    · simp

-- A tree and the tokens it was read from: they spell it and no other, and writing it
-- back restores them.
structure TreeOf (tokens : List Token) (decls : List Decl) : Prop where
  spelt : SchemaSpelt decls tokens
  unique : ∀ other, SchemaSpelt other tokens → other = decls
  written : Restores (decls.flatMap Decl.marks) tokens

theorem parsed_whole {parsed : Parsed} (done : parsed.error = none) : parsed = ⟨parsed.decls, none⟩ := by
  obtain ⟨decls, error⟩ := parsed
  rw [show error = none from done]

-- What is accepted is the language of the grammar, and what is built is the tree.
theorem parse_exact (plain : ∀ token ∈ tokens, token.kind ≠ .eof) (ended : stop.kind = .eof) :
    ((parse (tokens ++ [stop])).error = none ↔ tokens.map Token.kind ∈ Grammar.schema) ∧
      ((parse (tokens ++ [stop])).error = none → TreeOf tokens (parse (tokens ++ [stop])).decls) := by
  have accepts : (parse (tokens ++ [stop])).error = none ↔ ∃ decls, SchemaSpelt decls tokens := by
    constructor
    · exact fun done => ⟨_, (parse_spelt plain ended).mp (parsed_whole done)⟩
    · intro given
      obtain ⟨decls, spelt⟩ := given
      rw [(parse_spelt plain ended).mpr spelt]
  refine ⟨accepts.trans (derives_schema tokens).symm, fun done => ?_⟩
  have spelt := (parse_spelt plain ended).mp (parsed_whole done)
  refine ⟨spelt, fun other same => ?_, schema_restored spelt⟩
  rw [(parse_spelt plain ended).mpr same]

def headerStruct : List Token :=
  [⟨.structWord, "struct", 1⟩, ⟨.lBrace, "\x7b", 1⟩, ⟨.scalar .uint8, "uint8", 2⟩, ⟨.ident, "kind", 2⟩,
   ⟨.semi, ";", 2⟩, ⟨.rBrace, "\x7d", 3⟩, ⟨.ident, "Header", 3⟩, ⟨.semi, ";", 3⟩]

theorem parse_exact_struct : headerStruct.map Token.kind ∈ Grammar.schema ∧
    TreeOf headerStruct [.struct [.field ⟨.scalar .uint8, ⟨.ident, "kind", 2⟩, none, ⟨.semi, ";", 2⟩⟩]
      ⟨.ident, "Header", 3⟩ ⟨.semi, ";", 3⟩] := by
  have plain : ∀ token ∈ headerStruct, token.kind ≠ .eof := by decide
  have ended : (Token.endAt 4).kind = .eof := rfl
  have done : (parse (headerStruct ++ [.endAt 4])).error = none := rfl
  have result := parse_exact plain ended
  exact ⟨result.1.mp done, result.2 done⟩

end WireFormat
