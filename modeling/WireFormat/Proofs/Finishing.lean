import WireFormat.Proofs.Parted

namespace WireFormat

-- Wherever a reading stands, it can still be finished. The tokens given here are one way
-- to do so; their texts make no difference to any step.

def Finishes (step : σ → Token → Option σ) (goal : σ → Prop) (state : σ) : Prop :=
  ∃ tokens final, Takes step state tokens final ∧ goal final

def Token.of (kind : Token.Kind) : Token := ⟨kind, "", 1⟩

@[simp] theorem Token.of_kind (kind : Token.Kind) : (Token.of kind).kind = kind := rfl

section Finishes

variable {step : σ → Token → Option σ} {goal : σ → Prop}

theorem Finishes.here (done : goal state) : Finishes step goal state := ⟨[], state, takes_nil.mpr rfl, done⟩

theorem Finishes.next (kind : Token.Kind) (next : step state (.of kind) = some after) (more : Finishes step goal after) :
    Finishes step goal state := by
  obtain ⟨tokens, final, takes, done⟩ := more
  exact ⟨.of kind :: tokens, final, .cons next takes, done⟩

theorem Finishes.after (takes : Takes step state tokens middle) (more : Finishes step goal middle) :
    Finishes step goal state := by
  obtain ⟨others, final, further, done⟩ := more
  exact ⟨tokens ++ others, final, takes.append further, done⟩

end Finishes

theorem size_finishes (size : SizeReading) :
    Finishes SizeReading.advance (fun final => ∃ whole, final = .complete whole) size := by
  cases size with
  | wanted => exact .next .number rfl (.here ⟨_, rfl⟩)
  | complete whole => exact .here ⟨whole, rfl⟩
  | dotted name => exact .next .ident rfl (.here ⟨_, rfl⟩)

-- A construct that its semicolon would complete.
def LineReading.IsWhole (line : LineReading) : Prop :=
  ∀ close, close.kind = .semi → (∃ entry, line.field? close = some entry) ∧ ∃ item, line.item? close = some item

def EnumReading.IsWhole (listing : EnumReading) : Prop :=
  ∀ close, close.kind = .semi → ∃ decl, listing.decl? close = some decl

def SelectReading.IsWhole (choice : SelectReading) : Prop :=
  ∀ close, close.kind = .semi → ∃ decl, choice.select? close = some decl

def ArmReading.IsWhole (reading : ArmReading) : Prop := ∀ follow, ∃ arm, reading.arm? follow = some arm

theorem inSize_finishes (closer : Token.Kind) (other : closer ≠ .dot) (stay : SizeReading → LineReading)
    (leave : SizeExpr → LineReading)
    (steps : ∀ size token, (stay size).advance token = LineReading.inSize size token closer stay leave)
    (left : ∀ whole, Finishes LineReading.advance LineReading.IsWhole (leave whole)) (size : SizeReading) :
    Finishes LineReading.advance LineReading.IsWhole (stay size) := by
  obtain ⟨tokens, _, takes, whole, rfl⟩ := size_finishes size
  have inside : Takes LineReading.advance (stay size) tokens (stay (.complete whole)) := by
    apply takes.lift stay
    intro size token next step
    simp [steps, LineReading.inSize, step]
  have closes : (stay (.complete whole)).advance (.of closer) = some (leave whole) := by
    have shut := size_shut closer other whole (.of closer) rfl
    rw [steps, LineReading.inSize, shut]
    exact if_pos rfl
  exact .after (inside.snoc closes) (left whole)

theorem line_finishes (line : LineReading) : Finishes LineReading.advance LineReading.IsWhole line := by
  have named (type : TypeRef) (name : Token) : Finishes LineReading.advance LineReading.IsWhole (.named type name) :=
    .here fun close ends => by simp [LineReading.field?, LineReading.item?, ends]
  have bounded (type : TypeRef) (name : Token) (bounds : Bounds) :
      Finishes LineReading.advance LineReading.IsWhole (.bounded type name bounds) :=
    .here fun close ends => by simp [LineReading.field?, LineReading.item?, ends]
  have typed (type : TypeRef) : Finishes LineReading.advance LineReading.IsWhole (.typed type) := by
    cases type with
    | scalar | named => exact .next .ident rfl (named _ _)
  have high (type : TypeRef) (name : Token) (least : SizeExpr) := inSize_finishes .greater (by decide)
    (.high type name least) _ (fun _ _ => rfl) fun most => bounded type name (.range least most)
  cases line with
  | typed type => exact typed type
  | typeDotted name => exact .next .ident rfl (typed _)
  | named type name => exact named type name
  | fixed type name size =>
    exact inSize_finishes .rBracket (by decide) (.fixed type name) _ (fun _ _ => rfl)
      (fun whole => bounded type name (.fixed whole)) size
  | low type name size =>
    exact inSize_finishes .dots (by decide) (.low type name) _ (fun _ _ => rfl)
      (fun least => high type name least .wanted) size
  | high type name least size => exact high type name least size
  | bounded type name bounds => exact bounded type name bounds

theorem enum_finishes (listing : EnumReading) : Finishes EnumReading.advance EnumReading.IsWhole listing := by
  have finished (entries : Array EnumEntry) (max : Option Number) (name : Token) :
      Finishes EnumReading.advance EnumReading.IsWhole (.finished entries max name) :=
    .here fun close ends => by simp [EnumReading.decl?, ends]
  have closed (entries : Array EnumEntry) (max : Option Number) :
      Finishes EnumReading.advance EnumReading.IsWhole (.closed entries max) := .next .ident rfl (finished _ _ _)
  have maxOpened (entries : Array EnumEntry) :
      Finishes EnumReading.advance EnumReading.IsWhole (.maxOpened entries) :=
    .next .number rfl (.next .rParen rfl (.next .rBrace rfl (closed _ _)))
  have valueOpened (entries : Array EnumEntry) (name : Token) :
      Finishes EnumReading.advance EnumReading.IsWhole (.valueOpened entries name) :=
    .next .number rfl (.next .rParen rfl (.next .rBrace rfl (closed _ _)))
  cases listing with
  | wanted => exact .next .lBrace rfl (.next .ident rfl (.next .rBrace rfl (closed _ _)))
  | opened => exact .next .ident rfl (.next .rBrace rfl (closed _ _))
  | firstNamed name => exact .next .rBrace rfl (closed _ _)
  | named entries name => exact .next .lParen rfl (valueOpened _ _)
  | valueOpened entries name => exact valueOpened entries name
  | valued entries name value => exact .next .rParen rfl (.next .rBrace rfl (closed _ _))
  | entered withValues entries => exact .next .rBrace rfl (closed _ _)
  | separated withValues entries =>
    cases withValues with
    | false | true => exact .next .lParen rfl (maxOpened entries)
  | maxOpened entries => exact maxOpened entries
  | maxRead entries max => exact .next .rParen rfl (.next .rBrace rfl (closed _ _))
  | maxClosed entries max => exact .next .rBrace rfl (closed _ _)
  | closed entries max => exact closed entries max
  | finished entries max name => exact finished entries max name

theorem arm_finishes (arm : ArmReading) : Finishes ArmReading.advance ArmReading.IsWhole arm := by
  have complete (labels : Array Label) (items : List Item) :
      Finishes ArmReading.advance ArmReading.IsWhole (.complete labels items) := .here fun _ => ⟨_, rfl⟩
  have coloned (labels : Array Label) : Finishes ArmReading.advance ArmReading.IsWhole (.coloned labels) :=
    .next .semi rfl (complete _ _)
  have signed (labels : Array Label) (name : Name) :
      Finishes ArmReading.advance ArmReading.IsWhole (.signed labels name) :=
    .next .semi rfl (.here fun _ => ⟨_, rfl⟩)
  cases arm with
  | cased labels => exact .next .ident rfl (.next .colon rfl (coloned _))
  | labelled labels name => exact .next .colon rfl (coloned _)
  | coloned labels => exact coloned labels
  | signing labels => exact .next .ident rfl (signed _ _)
  | signed labels name => exact signed labels name
  | signedDotted labels name => exact .next .ident rfl (signed _ _)
  | clause labels signature => exact .here fun _ => ⟨_, rfl⟩
  | item labels items line =>
    obtain ⟨tokens, last, takes, whole⟩ := line_finishes line
    obtain ⟨item, done⟩ := (whole (.of .semi) rfl).2
    have ends : (ArmReading.item labels items last).advance (.of .semi) =
        some (.complete labels (items ++ [item])) := by simp [ArmReading.advance, done]
    exact .after (line_inside labels items takes) (.next .semi ends (complete _ _))
  | complete labels items => exact complete labels items

theorem select_finishes (choice : SelectReading) : Finishes SelectReading.advance SelectReading.IsWhole choice := by
  have closed (selector : Name) (opening : Token) (arms : Array Arm) :
      Finishes SelectReading.advance SelectReading.IsWhole (.closed selector opening arms) :=
    .here fun close ends => by simp [SelectReading.select?, ends]
  have inArm (selector : Name) (opening : Token) (arms : Array Arm) (reading : ArmReading) :
      Finishes SelectReading.advance SelectReading.IsWhole (.inArm selector opening arms reading) := by
    obtain ⟨tokens, last, takes, whole⟩ := arm_finishes reading
    obtain ⟨arm, done⟩ := whole (.of .rBrace)
    have closes : (SelectReading.inArm selector opening arms last).advance (.of .rBrace) =
        some (.closed selector opening (arms.push arm)) := by simp [SelectReading.advance, done]
    exact .after (arm_inside selector opening arms takes) (.next .rBrace closes (closed _ _ _))
  have selected (selector : Name) : Finishes SelectReading.advance SelectReading.IsWhole (.selected selector) :=
    .next .lBrace rfl (.next .caseWord rfl (inArm _ _ _ _))
  cases choice with
  | wanted => exact .next .lParen rfl (.next .ident rfl (.next .rParen rfl (selected _)))
  | opened => exact .next .ident rfl (.next .rParen rfl (selected _))
  | choosing name => exact .next .rParen rfl (selected _)
  | choosingDotted name => exact .next .ident rfl (.next .rParen rfl (selected _))
  | selected selector => exact selected selector
  | braced selector opening => exact .next .caseWord rfl (inArm _ _ _ _)
  | inArm selector opening arms reading => exact inArm selector opening arms reading
  | closed selector opening arms => exact closed selector opening arms
  | named selector opening arms name => exact .here fun close ends => by simp [SelectReading.select?, ends]

namespace Reader

theorem top_finishes (decls : Array Decl) : Finishes advance (mayEnd ·) ⟨decls, [], .idle⟩ := by
  by_cases none : decls = #[]
  · refine .next .externWord rfl (.next .ident rfl (.next .semi rfl (.here ?_)))
    exact mayEnd_iff.mpr ⟨rfl, rfl, by simp [declare, moveTo]⟩
  · exact .here (mayEnd_iff.mpr ⟨rfl, rfl, none⟩)

theorem body_finishes (decls : Array Decl) (body : Array Member) (outer : List (Array Member)) :
    Finishes advance (mayEnd ·) ⟨decls, body :: outer, .idle⟩ := by
  induction outer generalizing body with
  | nil => exact .next .rBrace rfl (.next .ident rfl (.next .semi rfl (top_finishes _)))
  | cons next outer ih => exact .next .rBrace rfl (.next .ident rfl (.next .semi rfl (ih _)))

theorem idle_finishes (decls : Array Decl) (bodies : List (Array Member)) :
    Finishes advance (mayEnd ·) ⟨decls, bodies, .idle⟩ := by
  cases bodies with
  | nil => exact top_finishes decls
  | cons body outer => exact body_finishes decls body outer

theorem add_finishes (reader : Reader) (member : Member) : Finishes advance (mayEnd ·) (reader.add member) := by
  obtain ⟨decls, bodies, focus⟩ := reader
  cases bodies with
  | nil => exact top_finishes _
  | cons body outer => exact body_finishes _ _ _

-- No state of the reader is a dead end: some tokens lead from it to the end of a schema.
theorem reader_finishes (reader : Reader) : Finishes advance (mayEnd ·) reader := by
  obtain ⟨decls, bodies, focus⟩ := reader
  cases focus with
  | idle => exact idle_finishes decls bodies
  | externWord => exact .next .ident rfl (.next .semi rfl (idle_finishes _ _))
  | external name => exact .next .semi rfl (idle_finishes _ _)
  | line line =>
    obtain ⟨tokens, last, takes, whole⟩ := line_finishes line
    obtain ⟨entry, done⟩ := (whole (.of .semi) rfl).1
    have ends : (Reader.mk decls bodies (.line last)).advance (.of .semi) =
        some (Reader.add ⟨decls, bodies, .line last⟩ (.field entry)) := by simp [advance, done]
    exact .after (line_inside ⟨decls, bodies, .idle⟩ takes) (.next .semi ends (add_finishes _ _))
  | enum listing =>
    obtain ⟨tokens, last, takes, whole⟩ := enum_finishes listing
    obtain ⟨decl, done⟩ := whole (.of .semi) rfl
    have ends : (Reader.mk decls bodies (.enum last)).advance (.of .semi) =
        some (Reader.declare ⟨decls, bodies, .enum last⟩ (.enum decl)) := by simp [advance, done]
    exact .after (enum_takes ⟨decls, bodies, .idle⟩ takes) (.next .semi ends (idle_finishes _ _))
  | structWord => exact .next .lBrace rfl (idle_finishes _ _)
  | structClosed members => exact .next .ident rfl (.next .semi rfl (add_finishes _ _))
  | structNamed members name => exact .next .semi rfl (add_finishes _ _)
  | select choice =>
    obtain ⟨tokens, last, takes, whole⟩ := select_finishes choice
    obtain ⟨decl, done⟩ := whole (.of .semi) rfl
    have ends : (Reader.mk decls bodies (.select last)).advance (.of .semi) =
        some (Reader.add ⟨decls, bodies, .select last⟩ (.select decl)) := by simp [advance, done]
    exact .after (select_takes ⟨decls, bodies, .idle⟩ takes) (.next .semi ends (add_finishes _ _))

end Reader

end WireFormat
