import WireFormat.Proofs.Earliest

namespace WireFormat

-- What a syntax error offers is taken: with any token of the listed kinds in place of the
-- refused one, the reading goes on.

theorem inSize_offered (other : closer ≠ .dot) (stay : SizeReading → LineReading) (leave : SizeExpr → LineReading)
    (size : SizeReading) (listed : token.kind ∈ size.expected closer) :
    ∃ next, LineReading.inSize size token closer stay leave = some next := by
  cases size with
  | wanted =>
    have kinds : token.kind = .number ∨ token.kind = .power ∨ token.kind = .ident := by
      simpa [SizeReading.expected] using listed
    rcases kinds with kind | kind | kind <;> simp [LineReading.inSize, SizeReading.advance, kind]
  | complete whole =>
    have closes : token.kind = closer := by simpa [SizeReading.expected] using listed
    have shut := size_shut closer other whole token closes
    simp [LineReading.inSize, shut, closes, SizeReading.complete?]
  | dotted name =>
    have ident : token.kind = .ident := by simpa [SizeReading.expected] using listed
    simp [LineReading.inSize, SizeReading.advance, ident]

theorem line_offered (line : LineReading) (listed : token.kind ∈ line.expected afterType) :
    (∃ next, line.advance token = some next) ∨
      ((∃ entry, line.field? token = some entry) ∧ ∃ item, line.item? token = some item) ∨
        ∃ type, line = .typed type ∧ token.kind ∈ afterType := by
  cases line with
  | typed type => exact .inr (.inr ⟨type, rfl, listed⟩)
  | typeDotted name =>
    have ident : token.kind = .ident := by simpa [LineReading.expected] using listed
    exact .inl ⟨_, if_pos ident⟩
  | named type name =>
    have kinds : token.kind = .semi ∨ token.kind = .lBracket ∨ token.kind = .less := by
      simpa [LineReading.expected] using listed
    rcases kinds with kind | kind | kind
    · exact .inr (.inl (by simp [LineReading.field?, LineReading.item?, kind]))
    · exact .inl (by simp [LineReading.advance, kind])
    · exact .inl (by simp [LineReading.advance, kind])
  | fixed type name size => exact .inl (inSize_offered (by decide) _ _ size listed)
  | low type name size => exact .inl (inSize_offered (by decide) _ _ size listed)
  | high type name least size => exact .inl (inSize_offered (by decide) _ _ size listed)
  | bounded type name bounds =>
    have ends : token.kind = .semi := by simpa [LineReading.expected] using listed
    exact .inr (.inl (by simp [LineReading.field?, LineReading.item?, ends]))

theorem typed_named (type : TypeRef) (ident : token.kind = .ident) :
    (LineReading.typed type).advance token = some (.named type token) := by
  cases type <;> simp [LineReading.advance, ident]

theorem field_offered (line : LineReading) (listed : token.kind ∈ line.expected [.ident]) :
    (∃ entry, line.field? token = some entry) ∨ ∃ next, line.advance token = some next := by
  rcases line_offered line listed with next | ⟨entry, _⟩ | ⟨type, rfl, ident⟩
  · exact .inr next
  · exact .inl entry
  · exact .inr ⟨_, typed_named type (List.mem_singleton.mp ident)⟩

theorem item_offered (line : LineReading) (listed : token.kind ∈ line.expected [.ident, .semi]) :
    (∃ item, line.item? token = some item) ∨ ∃ next, line.advance token = some next := by
  rcases line_offered line listed with next | ⟨_, item⟩ | ⟨type, rfl, follows⟩
  · exact .inr next
  · exact .inl item
  · have kinds : token.kind = .ident ∨ token.kind = .semi := by simpa using follows
    rcases kinds with ident | ends
    · exact .inr ⟨_, typed_named type ident⟩
    · exact .inl (by simp [LineReading.item?, ends])

theorem enum_offered (listing : EnumReading) (listed : token.kind ∈ listing.expected) :
    (∃ decl, listing.decl? token = some decl) ∨ ∃ next, listing.advance token = some next := by
  cases listing with
  | firstNamed | entered =>
    have kinds : token.kind = .comma ∨ token.kind = .rBrace := by simpa [EnumReading.expected] using listed
    rcases kinds with kind | kind <;> exact .inr (by simp [EnumReading.advance, kind])
  | separated withValues entries =>
    have kinds : token.kind = .ident ∨ token.kind = .lParen := by simpa [EnumReading.expected] using listed
    cases withValues with
    | false | true => rcases kinds with kind | kind <;> exact .inr (by simp [EnumReading.advance, kind])
  | finished =>
    have ends : token.kind = .semi := by simpa [EnumReading.expected] using listed
    exact .inl (by simp [EnumReading.decl?, ends])
  | _ =>
    have kind := by simpa [EnumReading.expected] using listed
    exact .inr (by simp [EnumReading.advance, kind])

theorem start_offered (listed : token.kind ∈ Token.Kind.scalars ∨ token.kind = .ident) :
    ∃ line, LineReading.start? token = some line := by
  rcases listed with scalar | ident
  · obtain ⟨type, _, kind⟩ := List.mem_map.mp scalar
    simp [LineReading.start?, ← kind]
  · simp [LineReading.start?, ident]

theorem arm_offered (arm : ArmReading) (listed : token.kind ∈ arm.expected) :
    (∃ next, arm.advance token = some next) ∨
      (∃ whole, arm.arm? token = some whole) ∧ (token.kind = .caseWord ∨ token.kind = .rBrace) := by
  cases arm with
  | coloned labels =>
    simp only [ArmReading.expected, List.mem_append, List.mem_cons, List.not_mem_nil, or_false] at listed
    rcases listed with (kinds | scalar) | ident
    · rcases kinds with kind | kind | kind <;> exact .inl (by simp [ArmReading.advance, kind])
    · obtain ⟨line, starts⟩ := start_offered (.inl scalar)
      exact .inl ⟨_, coloned_start labels starts⟩
    · obtain ⟨line, starts⟩ := start_offered (.inr ident)
      exact .inl ⟨_, coloned_start labels starts⟩
  | item labels items line =>
    rcases item_offered line listed with ⟨item, ends⟩ | ⟨next, goes⟩
    · exact .inl (by simp [ArmReading.advance, ends])
    · cases ends : line.item? token with
      | some item => exact .inl (by simp [ArmReading.advance, ends])
      | none => exact .inl (by simp [ArmReading.advance, ends, goes])
  | clause | complete => exact .inr ⟨⟨_, rfl⟩, by simpa [ArmReading.expected] using listed⟩
  | _ =>
    have kind := by simpa [ArmReading.expected] using listed
    exact .inl (by simp [ArmReading.advance, kind])

theorem select_offered (choice : SelectReading) (listed : token.kind ∈ choice.expected) :
    (∃ decl, choice.select? token = some decl) ∨ ∃ next, choice.advance token = some next := by
  cases choice with
  | inArm selector opening arms arm =>
    refine .inr ?_
    cases whole : arm.arm? token with
    | none =>
      rcases arm_offered arm listed with ⟨next, goes⟩ | ⟨⟨other, same⟩, _⟩
      · simp [SelectReading.advance, whole, goes]
      · rw [whole] at same
        cases same
    | some decl =>
      rcases arm_offered arm listed with ⟨next, goes⟩ | ⟨_, kind | kind⟩
      · simp only [SelectReading.advance, whole, goes]
        split <;> simp
      · simp [SelectReading.advance, whole, kind]
      · simp [SelectReading.advance, whole, kind]
  | closed =>
    have kinds : token.kind = .ident ∨ token.kind = .semi := by simpa [SelectReading.expected] using listed
    rcases kinds with ident | ends
    · exact .inr (by simp [SelectReading.advance, ident])
    · exact .inl (by simp [SelectReading.select?, ends])
  | named =>
    have ends : token.kind = .semi := by simpa [SelectReading.expected] using listed
    exact .inl (by simp [SelectReading.select?, ends])
  | _ =>
    have kind := by simpa [SelectReading.expected] using listed
    exact .inr (by simp [SelectReading.advance, kind])

namespace Reader

variable (reader : Reader)

theorem nested_offered (room : reader.isFull = false) (nested : token.kind = .structWord ∨ token.kind = .selectWord) :
    ∃ next, reader.start token = some next := by
  rcases nested with kind | kind <;> simp [start, kind, room]

theorem idle_offered (listed : token.kind ∈ (reader.moveTo .idle).expected) :
    (∃ next, reader.start token = some next) ∨
      reader.isFull = true ∧ (token.kind = .structWord ∨ token.kind = .selectWord) := by
  have nested (kind : token.kind = .structWord ∨ token.kind = .selectWord) : (∃ next, reader.start token = some next) ∨
      reader.isFull = true ∧ (token.kind = .structWord ∨ token.kind = .selectWord) := by
    cases room : reader.isFull with
    | false => exact .inl (reader.nested_offered room kind)
    | true => exact .inr ⟨rfl, kind⟩
  have line (kind : token.kind ∈ Token.Kind.scalars ∨ token.kind = .ident) :
      ∃ next, reader.start token = some next := by
    obtain ⟨line, starts⟩ := start_offered kind
    exact ⟨_, reader.start_line starts⟩
  cases bodies : reader.bodies with
  | nil =>
    have kinds : token.kind = .externWord ∨ token.kind = .enumWord ∨
        (token.kind ∈ Token.Kind.scalars ∨ token.kind = .ident) ∨
          token.kind = .structWord ∨ token.kind = .selectWord := by
      simp only [expected, moveTo, bodies, List.isEmpty_nil, if_true, List.mem_cons, List.mem_append,
        List.not_mem_nil, or_false] at listed
      tauto
    rcases kinds with kind | kind | kind | kind
    · exact .inl (by simp [start, bodies, kind])
    · exact .inl (by simp [start, bodies, kind])
    · exact .inl (line kind)
    · exact nested kind
  | cons body outer =>
    have kinds : token.kind = .rBrace ∨ (token.kind ∈ Token.Kind.scalars ∨ token.kind = .ident) ∨
        token.kind = .structWord ∨ token.kind = .selectWord := by
      simp only [expected, moveTo, bodies, List.isEmpty_cons, Bool.false_eq_true, if_false, List.mem_cons,
        List.mem_append, List.not_mem_nil, or_false] at listed
      tauto
    rcases kinds with kind | kind | kind
    · exact .inl (by simp [start, bodies, kind])
    · exact .inl (line kind)
    · exact nested kind

theorem offered (listed : token.kind ∈ reader.expected) : (∃ next, reader.advance token = some next) ∨
    reader.focus = .idle ∧ reader.isFull = true ∧ (token.kind = .structWord ∨ token.kind = .selectWord) := by
  obtain ⟨decls, bodies, focus⟩ := reader
  cases focus with
  | idle =>
    rcases idle_offered ⟨decls, bodies, .idle⟩ listed with next | deep
    · exact .inl next
    · exact .inr ⟨rfl, deep⟩
  | line line =>
    rcases field_offered line listed with ⟨entry, ends⟩ | ⟨next, goes⟩
    · exact .inl (by simp [advance, ends])
    · cases ends : line.field? token <;> exact .inl (by simp [advance, ends, goes])
  | enum listing =>
    rcases enum_offered listing listed with ⟨decl, ends⟩ | ⟨next, goes⟩
    · exact .inl (by simp [advance, ends])
    · cases ends : listing.decl? token <;> exact .inl (by simp [advance, ends, goes])
  | select choice =>
    rcases select_offered choice listed with ⟨decl, ends⟩ | ⟨next, goes⟩
    · exact .inl (by simp [advance, ends])
    · cases ends : choice.select? token <;> exact .inl (by simp [advance, ends, goes])
  | externWord | external | structWord | structClosed | structNamed =>
    have kind := List.mem_singleton.mp listed
    exact .inl ⟨_, if_pos kind⟩

theorem feed_suffix (tokens : List Token) : (reader.feed tokens).2 <:+ tokens := by
  obtain ⟨taken, split, _⟩ := reader.feed_parts tokens
  exact ⟨taken, split.symm⟩

end Reader

-- What a token brings about where a reading has taken some tokens, whatever comes after it:
-- it is taken too, or it would open one body more than may be open.
inductive Resumes (taken : List Token) (token : Token) (more : List Token) : Prop where
  | passed (further : (Reader.initial.feed (taken ++ token :: more)).2 <:+ more)
  | tooDeep (nested : token.kind = .structWord ∨ token.kind = .selectWord) (full : openBodies taken = 256)
      (stops : (Reader.initial.feed (taken ++ token :: more)).2 = token :: more)
      (deep : (parse (taken ++ token :: more)).error = some ⟨token, .tooDeep⟩)

theorem taken_feed {reader : Reader} (takes : Takes Reader.advance .initial taken reader) (others : List Token) :
    Reader.initial.feed (taken ++ others) = reader.feed others := by
  have all := Reader.feed_taken takes
  rw [Reader.feed_append .initial taken others (by rw [all]), all]

theorem offered_resumes {reader : Reader} (takes : Takes Reader.advance .initial taken reader)
    (listed : token.kind ∈ reader.expected) (more : List Token) : Resumes taken token more := by
  rcases reader.offered listed with ⟨next, step⟩ | ⟨idle, full, nested⟩
  · refine .passed ?_
    rw [taken_feed takes, Reader.feed, step]
    exact next.feed_suffix more
  · have refused : reader.advance token = none := by
      rcases nested with kind | kind <;> simp [Reader.advance, idle, Reader.start, kind, full]
    have deep : reader.refusal token = .tooDeep := refusal_deep.mpr ⟨idle, by simpa [Reader.isFull] using full, nested⟩
    have stops : Reader.initial.feed (taken ++ token :: more) = (reader, token :: more) := by
      rw [taken_feed takes, Reader.feed, refused]
    have other : token.kind ≠ .eof := by
      rcases nested with kind | kind <;> simp [kind]
    refine .tooDeep nested ((refused_deep takes refused).mp deep).2.1 (by rw [stops]) ?_
    simp [parse, stops, other, deep]

theorem head_refused (tokens : List Token) :
    (Reader.initial.feed tokens).1.advance ((Reader.initial.feed tokens).2.headD (.endAt 1)) = none := by
  cases stops : (Reader.initial.feed tokens).2 with
  | nil => exact Reader.advance_eof _ _ rfl
  | cons token rest => exact feed_stopped stops

theorem parse_refusal (failed : (parse tokens).error = some error) :
    error = ⟨(Reader.initial.feed tokens).2.headD (.endAt 1),
      (Reader.initial.feed tokens).1.refusal ((Reader.initial.feed tokens).2.headD (.endAt 1))⟩ := by
  simp only [parse] at failed
  split at failed
  · cases failed
  · exact (Option.some.inj failed).symm

-- Every kind that an error lists would do: the reading goes past any token of it in the
-- place of the refused one, or at the end, unless the token opens one body too many. The
-- kind of the refused token itself is not listed.
theorem offers_resume (failed : (parse tokens).error = some ⟨found, .unexpected expected⟩) :
    ∃ taken rest, tokens = taken ++ rest ∧ (Reader.initial.feed tokens).2 = rest ∧ found = rest.headD (.endAt 1) ∧
      found.kind ∉ expected ∧ ∀ token, token.kind ∈ expected → ∀ more, Resumes taken token more := by
  obtain ⟨taken, split, takes⟩ := Reader.feed_parts .initial tokens
  have refused := head_refused tokens
  have error := parse_refusal failed
  refine ⟨taken, _, split, rfl, ?_⟩
  generalize (Reader.initial.feed tokens).1 = reader at takes refused error
  obtain ⟨rfl, refusal⟩ := SyntaxError.mk.inj error
  have shown : expected = reader.expected := by
    simp only [Reader.refusal] at refusal
    split at refusal
    · cases refusal
    · exact Refusal.unexpected.inj refusal
  refine ⟨rfl, fun listed => ?_, fun token listed more => offered_resumes takes (shown ▸ listed) more⟩
  rcases reader.offered (shown ▸ listed) with ⟨next, step⟩ | ⟨idle, full, nested⟩
  · rw [refused] at step
    cases step
  · have deep := refusal_deep.mpr ⟨idle, by simpa [Reader.isFull] using full, nested⟩
    rw [deep] at refusal
    cases refusal

-- A semicolon inside of as many structs as may be open, where one more is offered.
def fullBodies : List Token := (List.replicate 256 [Token.of .structWord, Token.of .lBrace]).flatten
def memberKinds : List Token.Kind := .rBrace :: Token.Kind.scalars ++ [.ident, .structWord, .selectWord]

theorem offers_resume_full : (parse (fullBodies ++ [.of .semi])).error = some ⟨.of .semi, .unexpected memberKinds⟩ ∧
    ∃ taken rest, fullBodies ++ [.of .semi] = taken ++ rest ∧
      (Reader.initial.feed (fullBodies ++ [.of .semi])).2 = rest ∧ Token.of .semi = rest.headD (.endAt 1) ∧
      (Token.of .semi).kind ∉ memberKinds ∧
      ∀ token, token.kind ∈ memberKinds → ∀ more, Resumes taken token more := by
  have failed : (parse (fullBodies ++ [.of .semi])).error = some ⟨.of .semi, .unexpected memberKinds⟩ := by
    decide +kernel
  exact ⟨failed, offers_resume failed⟩

end WireFormat
