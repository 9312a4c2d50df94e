import WireFormat.Proofs.Parted

namespace WireFormat

-- A schema can be read in pieces: where a declaration ends, the reading starts afresh.

@[simps]
def Reader.past (reader : Reader) (prior : Array Decl) : Reader := { reader with decls := prior ++ reader.decls }

namespace Reader

variable (prior : Array Decl)

theorem declare_past (reader : Reader) (decl : Decl) :
    (reader.past prior).declare decl = (reader.declare decl).past prior := by
  simp [declare, past]

theorem add_past (reader : Reader) (member : Member) :
    (reader.past prior).add member = (reader.add member).past prior := by
  obtain ⟨decls, bodies, focus⟩ := reader
  cases bodies with
  | nil => exact declare_past prior ⟨decls, [], focus⟩ member.toDecl
  | cons body outer => rfl

theorem start_past (reader : Reader) (token : Token) :
    (reader.past prior).start token = (reader.start token).map (·.past prior) := by
  have full : (reader.past prior).isFull = reader.isFull := rfl
  obtain ⟨kind, text, line⟩ := token
  obtain ⟨decls, bodies, focus⟩ := reader
  cases kind with
  | structWord | selectWord =>
    simp only [start, full]
    split <;> rfl
  | _ => cases bodies <;> rfl

theorem advance_past (reader : Reader) (token : Token) :
    (reader.past prior).advance token = (reader.advance token).map (·.past prior) := by
  obtain ⟨decls, bodies, focus⟩ := reader
  cases focus with
  | idle => exact start_past prior ⟨decls, bodies, .idle⟩ token
  | externWord | structWord | structClosed =>
    simp only [advance, past]
    split <;> rfl
  | external name =>
    have ends := declare_past prior ⟨decls, bodies, .external name⟩ (.external name token)
    simp only [advance, past]
    split
    · exact congrArg some ends
    · rfl
  | structNamed members name =>
    have ends := add_past prior ⟨decls, bodies, .structNamed members name⟩ (.struct members name token)
    simp only [advance, past]
    split
    · exact congrArg some ends
    · rfl
  | line line =>
    have ends (entry : Field) := add_past prior ⟨decls, bodies, .line line⟩ (.field entry)
    simp only [advance, past]
    cases line.field? token with
    | some entry => exact congrArg some (ends entry)
    | none => cases line.advance token <;> rfl
  | enum listing =>
    have ends (decl : EnumDecl) := declare_past prior ⟨decls, bodies, .enum listing⟩ (.enum decl)
    simp only [advance, past]
    cases listing.decl? token with
    | some decl => exact congrArg some (ends decl)
    | none => cases listing.advance token <;> rfl
  | select choice =>
    have ends (decl : Select) := add_past prior ⟨decls, bodies, .select choice⟩ (.select decl)
    simp only [advance, past]
    cases choice.select? token with
    | some decl => exact congrArg some (ends decl)
    | none => cases choice.advance token <;> rfl

theorem feed_past (reader : Reader) (tokens : List Token) :
    (reader.past prior).feed tokens = ((reader.feed tokens).1.past prior, (reader.feed tokens).2) := by
  induction tokens generalizing reader with
  | nil => rfl
  | cons token rest ih =>
    rw [feed, feed, advance_past]
    cases reader.advance token with
    | none => rfl
    | some next => exact ih next

theorem feed_ended (reader : Reader) (tokens : List Token) (ended : stop.kind = .eof) :
    reader.feed (tokens ++ [stop]) = ((reader.feed tokens).1, (reader.feed tokens).2 ++ [stop]) := by
  induction tokens generalizing reader with
  | nil => simp [feed, reader.advance_eof stop ended]
  | cons token rest ih =>
    rw [List.cons_append, feed, feed]
    cases reader.advance token with
    | none => rfl
    | some next => exact ih next

-- What a parse comes to when the reading stops before a token.
def parsed (reader : Reader) (token : Token) : Parsed :=
  ⟨reader.decls.toList,
    if token.kind = .eof && reader.mayEnd then none else some ⟨token, reader.refusal token⟩⟩

end Reader

theorem parse_fed (tokens : List Token) :
    parse tokens = (Reader.initial.feed tokens).1.parsed ((Reader.initial.feed tokens).2.headD (.endAt 1)) := rfl

theorem parse_ended (tokens : List Token) : parse (tokens ++ [.endAt 1]) = parse tokens := by
  rw [parse_fed, parse_fed, Reader.feed_ended .initial tokens rfl]
  cases (Reader.initial.feed tokens).2 <;> rfl

-- Tokens that are a schema, with no end of the input among them.
structure Accepted (tokens : List Token) (decls : List Decl) : Prop where
  plain : ∀ token ∈ tokens, token.kind ≠ .eof
  parsed : parse tokens = ⟨decls, none⟩

theorem accepted_spelt : Accepted tokens decls ↔ SchemaSpelt decls tokens := by
  constructor
  · intro given
    obtain ⟨plain, parsed⟩ := given
    rw [← parse_ended] at parsed
    exact (parse_spelt plain rfl).mp parsed
  · intro spelt
    have plain := Reader.takes_plain (Reader.decls_inside spelt.2 #[])
    refine ⟨plain, ?_⟩
    rw [← parse_ended]
    exact (parse_spelt plain rfl).mpr spelt

def Continues (tokens : List Token) : Prop := ∃ token ∈ tokens.head?, token.kind ≠ .eof

theorem untaken {reader : Reader} (takes : Takes Reader.advance .initial taken reader) (idle : reader.focus = .idle)
    (closed : reader.bodies = []) (none : reader.decls = #[]) : taken = [] := by
  have held := takes_held initial_held takes
  obtain @⟨front, bodies, middle, focus, back, all, read, inner, inside⟩ := held
  obtain rfl : focus = .idle := idle
  obtain rfl : bodies = [] := closed
  obtain rfl : all = #[] := none
  cases read
  cases inner
  cases inside
  rfl

theorem past_mayEnd {reader : Reader} (takes : Takes Reader.advance .initial taken reader) (some : prior ≠ #[])
    (continues : Continues (taken ++ unread)) (ended : (unread.headD (.endAt 1)).kind = .eof) :
    (reader.past prior).mayEnd = reader.mayEnd := by
  rw [Bool.eq_iff_iff, Reader.mayEnd_iff, Reader.mayEnd_iff]
  refine and_congr_right fun idle => and_congr_right fun closed => iff_of_true ?_ fun none => ?_
  · simp [some]
  · obtain rfl := untaken takes idle closed none
    obtain ⟨token, head, other⟩ := continues
    rw [List.nil_append, Option.mem_def] at head
    rw [List.headD_eq_head?_getD, head] at ended
    exact other ended

theorem parsed_past (prior : Array Decl) (some : prior ≠ #[]) (continues : Continues tokens) :
    ((Reader.initial.feed tokens).1.past prior).parsed ((Reader.initial.feed tokens).2.headD (.endAt 1)) =
      ⟨prior.toList ++ (parse tokens).decls, (parse tokens).error⟩ := by
  obtain ⟨taken, split, takes⟩ := Reader.feed_parts .initial tokens
  rw [parse_fed]
  rw [split] at continues
  generalize (Reader.initial.feed tokens).1 = reader at takes
  generalize (Reader.initial.feed tokens).2 = unread at continues
  have refusal (token : Token) : (reader.past prior).refusal token = reader.refusal token := rfl
  rw [Reader.parsed, Reader.parsed, refusal, Reader.past_decls, Array.toList_append]
  congr 2
  by_cases ended : (unread.headD (.endAt 1)).kind = .eof
  · rw [past_mayEnd takes some continues ended]
  · rw [decide_eq_false ended, Bool.false_and, Bool.false_and]

theorem accepted_feed (accepted : Accepted front decls) :
    Reader.initial.feed front = (Reader.initial.past decls.toArray, []) := by
  have takes := Reader.decls_inside (accepted_spelt.mp accepted).2 #[]
  simpa [Reader.past, Reader.initial] using Reader.feed_taken takes

theorem accepted_past (accepted : Accepted front decls) (back : List Token) :
    parse (front ++ back) = ((Reader.initial.feed back).1.past decls.toArray).parsed
      ((Reader.initial.feed back).2.headD (.endAt 1)) := by
  have fed := accepted_feed accepted
  rw [parse_fed, Reader.feed_append .initial front back (congrArg Prod.snd fed), fed, Reader.feed_past]

theorem accepted_some (accepted : Accepted front decls) : decls.toArray ≠ #[] := by
  simpa using (accepted_spelt.mp accepted).1

theorem parse_continued (accepted : Accepted front decls) (continues : Continues back) :
    parse (front ++ back) = ⟨decls ++ (parse back).decls, (parse back).error⟩ := by
  rw [accepted_past accepted back]
  exact parsed_past decls.toArray (accepted_some accepted) continues

theorem error_continues (accepted : Accepted front decls) (failed : (parse (front ++ back)).error = some error) :
    Continues back := by
  cases back with
  | nil =>
    rw [List.append_nil, accepted.parsed] at failed
    cases failed
  | cons token rest =>
    refine ⟨token, rfl, fun ended => ?_⟩
    have stops : Reader.initial.feed (token :: rest) = (.initial, token :: rest) := by
      rw [Reader.feed, Reader.advance_eof _ token ended]
    have ends : (Reader.initial.past decls.toArray).mayEnd :=
      Reader.mayEnd_iff.mpr ⟨rfl, rfl, by simpa [Reader.initial] using accepted_some accepted⟩
    rw [accepted_past accepted, stops] at failed
    simp [Reader.parsed, ended, ends] at failed

-- No declaration looks past its own end, and an error takes back none before it: the
-- tokens fall into those of the declarations that were completed and a rest without any.
theorem parse_composed :
    (∀ front back decls, Accepted front decls → Continues back →
      parse (front ++ back) = ⟨decls ++ (parse back).decls, (parse back).error⟩) ∧
    ∀ tokens error, (parse tokens).error = some error → (parse tokens).decls ≠ [] →
      ∃ front back, tokens = front ++ back ∧ Accepted front (parse tokens).decls ∧ Continues back ∧
        parse back = ⟨[], some error⟩ := by
  refine ⟨fun _ _ _ => parse_continued, fun tokens error failed nonempty => ?_⟩
  obtain ⟨taken, split, takes⟩ := Reader.feed_parts .initial tokens
  have held := takes_held initial_held takes
  have decls := parse_decls tokens
  rw [List.nil_append] at held
  generalize (Reader.initial.feed tokens).1 = reader at held decls
  generalize (Reader.initial.feed tokens).2 = unread at split
  obtain @⟨front, bodies, middle, focus, back, all, read, _, _⟩ := held
  rw [decls] at nonempty ⊢
  have accepted : Accepted front all.toList := accepted_spelt.mpr ⟨nonempty, read⟩
  rw [List.append_assoc, List.append_assoc] at split
  generalize middle ++ (back ++ unread) = rest at split
  subst split
  have continues := error_continues accepted failed
  have whole := parse_continued accepted continues
  rw [whole] at failed decls
  refine ⟨front, rest, rfl, accepted, continues, ?_⟩
  have none : (parse rest).decls = [] := by simpa using decls
  calc parse rest = ⟨(parse rest).decls, (parse rest).error⟩ := rfl
    _ = ⟨[], some error⟩ := by rw [none, show (parse rest).error = some error from failed]

-- A line, and a struct whose body does not end.
def lengthLine : List Token := [⟨.scalar .uint16, "uint16", 1⟩, ⟨.ident, "length", 1⟩, ⟨.semi, ";", 1⟩]
def lengthDecl : Decl := .field ⟨.scalar .uint16, ⟨.ident, "length", 1⟩, none, ⟨.semi, ";", 1⟩⟩
def openStruct : List Token := [⟨.structWord, "struct", 2⟩, ⟨.lBrace, "\x7b", 2⟩, .endAt 3]
def openError : SyntaxError :=
  ⟨.endAt 3, .unexpected (.rBrace :: Token.Kind.scalars ++ [.ident, .structWord, .selectWord])⟩

theorem parse_composed_open : Accepted lengthLine [lengthDecl] ∧ Continues openStruct ∧
    parse (lengthLine ++ openStruct) = ⟨[lengthDecl] ++ (parse openStruct).decls, (parse openStruct).error⟩ ∧
    (parse (lengthLine ++ openStruct)).error = some openError ∧ (parse (lengthLine ++ openStruct)).decls ≠ [] ∧
    ∃ front back, lengthLine ++ openStruct = front ++ back ∧
      Accepted front (parse (lengthLine ++ openStruct)).decls ∧ Continues back ∧
        parse back = ⟨[], some openError⟩ := by
  have accepted : Accepted lengthLine [lengthDecl] := ⟨by decide, rfl⟩
  have continues : Continues openStruct := ⟨_, rfl, by decide⟩
  have failed : (parse (lengthLine ++ openStruct)).error = some openError := rfl
  have nonempty : (parse (lengthLine ++ openStruct)).decls ≠ [] := List.cons_ne_nil lengthDecl []
  obtain ⟨composed, broken⟩ := parse_composed
  exact ⟨accepted, continues, composed _ _ _ accepted continues, failed, nonempty, broken _ _ failed nonempty⟩

end WireFormat
