import Mathlib.Tactic.Simps.Basic
import WireFormat.Reading

namespace WireFormat

-- The same tokens on other lines: what is read of them is the same but for the lines
-- that it keeps. `lines` says where each line comes to stand.

variable (lines : Nat → Nat)

@[simps]
def Token.reline (token : Token) : Token := { token with line := lines token.line }

@[simps]
def Name.reline (name : Name) : Name := { name with token := name.token.reline lines }

def TypeRef.reline : TypeRef → TypeRef
  | .scalar type => .scalar type
  | .named name => .named (name.reline lines)

@[simps]
def Number.reline (number : Number) : Number := { number with token := number.token.reline lines }

def SizeExpr.reline : SizeExpr → SizeExpr
  | .literal number => .literal (number.reline lines)
  | .power number => .power (number.reline lines)
  | .reference name => .reference (name.reline lines)

def Bounds.reline : Bounds → Bounds
  | .fixed size => .fixed (size.reline lines)
  | .range low high => .range (low.reline lines) (high.reline lines)

@[simps]
def Field.reline (entry : Field) : Field :=
  ⟨entry.type.reline lines, entry.name.reline lines, entry.bounds.map (Bounds.reline lines), entry.close.reline lines⟩

@[simps]
def EnumEntry.reline (entry : EnumEntry) : EnumEntry :=
  ⟨entry.name.reline lines, entry.value.map (Number.reline lines)⟩

@[simps]
def EnumDecl.reline (listing : EnumDecl) : EnumDecl :=
  ⟨listing.entries.map (EnumEntry.reline lines), listing.max.map (Number.reline lines), listing.name.reline lines,
    listing.close.reline lines⟩

@[simps]
def Label.reline (label : Label) : Label := ⟨label.name.reline lines, label.colon.reline lines⟩

@[simps]
def Item.reline (item : Item) : Item :=
  ⟨item.signed, item.type.reline lines, item.name.map (Token.reline lines), item.bounds.map (Bounds.reline lines),
    item.close.reline lines⟩

@[simps]
def Arm.reline (arm : Arm) : Arm :=
  ⟨arm.labels.map (Label.reline lines), arm.items.map (Item.reline lines), arm.follow.reline lines⟩

@[simps]
def Select.reline (choice : Select) : Select :=
  ⟨choice.selector.reline lines, choice.opening.reline lines, choice.arms.map (Arm.reline lines),
    choice.name.map (Token.reline lines), choice.close.reline lines⟩

mutual

def Member.reline : Member → Member
  | .field entry => .field (entry.reline lines)
  | .struct members name close => .struct (Member.relineAll members) (name.reline lines) (close.reline lines)
  | .select choice => .select (choice.reline lines)

def Member.relineAll : List Member → List Member
  | [] => []
  | member :: rest => member.reline :: Member.relineAll rest

end

theorem relineAll_map (members : List Member) : Member.relineAll lines members = members.map (Member.reline lines) := by
  induction members with
  | nil => rfl
  | cons member rest ih => rw [Member.relineAll, ih, List.map_cons]

def Decl.reline : Decl → Decl
  | .field entry => .field (entry.reline lines)
  | .external name close => .external (name.reline lines) (close.reline lines)
  | .enum listing => .enum (listing.reline lines)
  | .struct members name close =>
    .struct (members.map (Member.reline lines)) (name.reline lines) (close.reline lines)
  | .select choice => .select (choice.reline lines)

-- The parts of a construct that is being read.
def SizeReading.reline : SizeReading → SizeReading
  | .wanted => .wanted
  | .complete size => .complete (size.reline lines)
  | .dotted name => .dotted (name.reline lines)

def LineReading.reline : LineReading → LineReading
  | .typed type => .typed (type.reline lines)
  | .typeDotted name => .typeDotted (name.reline lines)
  | .named type name => .named (type.reline lines) (name.reline lines)
  | .fixed type name size => .fixed (type.reline lines) (name.reline lines) (size.reline lines)
  | .low type name size => .low (type.reline lines) (name.reline lines) (size.reline lines)
  | .high type name least size =>
    .high (type.reline lines) (name.reline lines) (least.reline lines) (size.reline lines)
  | .bounded type name bounds => .bounded (type.reline lines) (name.reline lines) (bounds.reline lines)

def relineEntries (entries : Array EnumEntry) : Array EnumEntry := entries.map (EnumEntry.reline lines)

def EnumReading.reline : EnumReading → EnumReading
  | .wanted => .wanted
  | .opened => .opened
  | .firstNamed name => .firstNamed (name.reline lines)
  | .named entries name => .named (relineEntries lines entries) (name.reline lines)
  | .valueOpened entries name => .valueOpened (relineEntries lines entries) (name.reline lines)
  | .valued entries name value =>
    .valued (relineEntries lines entries) (name.reline lines) (value.reline lines)
  | .entered withValues entries => .entered withValues (relineEntries lines entries)
  | .separated withValues entries => .separated withValues (relineEntries lines entries)
  | .maxOpened entries => .maxOpened (relineEntries lines entries)
  | .maxRead entries max => .maxRead (relineEntries lines entries) (max.reline lines)
  | .maxClosed entries max => .maxClosed (relineEntries lines entries) (max.reline lines)
  | .closed entries max => .closed (relineEntries lines entries) (max.map (Number.reline lines))
  | .finished entries max name =>
    .finished (relineEntries lines entries) (max.map (Number.reline lines)) (name.reline lines)

def ArmReading.reline : ArmReading → ArmReading
  | .cased labels => .cased (labels.map (Label.reline lines))
  | .labelled labels name => .labelled (labels.map (Label.reline lines)) (name.reline lines)
  | .coloned labels => .coloned (labels.map (Label.reline lines))
  | .signing labels => .signing (labels.map (Label.reline lines))
  | .signed labels name => .signed (labels.map (Label.reline lines)) (name.reline lines)
  | .signedDotted labels name => .signedDotted (labels.map (Label.reline lines)) (name.reline lines)
  | .clause labels signature => .clause (labels.map (Label.reline lines)) (signature.reline lines)
  | .item labels items line =>
    .item (labels.map (Label.reline lines)) (items.map (Item.reline lines)) (line.reline lines)
  | .complete labels items => .complete (labels.map (Label.reline lines)) (items.map (Item.reline lines))

def SelectReading.reline : SelectReading → SelectReading
  | .wanted => .wanted
  | .opened => .opened
  | .choosing name => .choosing (name.reline lines)
  | .choosingDotted name => .choosingDotted (name.reline lines)
  | .selected selector => .selected (selector.reline lines)
  | .braced selector opening => .braced (selector.reline lines) (opening.reline lines)
  | .inArm selector opening arms arm =>
    .inArm (selector.reline lines) (opening.reline lines) (arms.map (Arm.reline lines)) (arm.reline lines)
  | .closed selector opening arms =>
    .closed (selector.reline lines) (opening.reline lines) (arms.map (Arm.reline lines))
  | .named selector opening arms name =>
    .named (selector.reline lines) (opening.reline lines) (arms.map (Arm.reline lines)) (name.reline lines)

def Focus.reline : Focus → Focus
  | .idle => .idle
  | .externWord => .externWord
  | .external name => .external (name.reline lines)
  | .line reading => .line (reading.reline lines)
  | .enum reading => .enum (reading.reline lines)
  | .structWord => .structWord
  | .structClosed members => .structClosed (members.map (Member.reline lines))
  | .structNamed members name => .structNamed (members.map (Member.reline lines)) (name.reline lines)
  | .select reading => .select (reading.reline lines)

@[simps]
def Reader.reline (reader : Reader) : Reader :=
  ⟨reader.decls.map (Decl.reline lines), reader.bodies.map (Array.map (Member.reline lines)),
    reader.focus.reline lines⟩

@[simps]
def SyntaxError.reline (error : SyntaxError) : SyntaxError := { error with token := error.token.reline lines }

@[simps]
def Parsed.reline (parsed : Parsed) : Parsed :=
  ⟨parsed.decls.map (Decl.reline lines), parsed.error.map (SyntaxError.reline lines)⟩

theorem size_relined (size : SizeReading) (token : Token) :
    (size.reline lines).advance (token.reline lines) = (size.advance token).map (SizeReading.reline lines) := by
  obtain ⟨kind, text, line⟩ := token
  cases size with
  | wanted | dotted => cases kind <;> rfl
  | complete size => cases size <;> cases kind <;> rfl

theorem complete_relined (size : SizeReading) :
    (size.reline lines).complete? = size.complete?.map (SizeExpr.reline lines) := by
  cases size <;> rfl

theorem start_relined (token : Token) :
    LineReading.start? (token.reline lines) = (LineReading.start? token).map (LineReading.reline lines) := by
  obtain ⟨kind, text, line⟩ := token
  cases kind <;> rfl

theorem inSize_relined (size : SizeReading) (token : Token) (closer : Token.Kind)
    (stay stayed : SizeReading → LineReading) (leave left : SizeExpr → LineReading)
    (stays : ∀ size, stayed (size.reline lines) = (stay size).reline lines)
    (leaves : ∀ size, left (size.reline lines) = (leave size).reline lines) :
    LineReading.inSize (size.reline lines) (token.reline lines) closer stayed left =
      (LineReading.inSize size token closer stay leave).map (LineReading.reline lines) := by
  unfold LineReading.inSize
  rw [size_relined, complete_relined]
  cases size.advance token with
  | some next => exact congrArg some (stays next)
  | none =>
    simp only [Option.map_none, Token.reline_kind]
    by_cases closes : token.kind = closer
    · rw [if_pos closes, if_pos closes, Option.map_map, Option.map_map]
      exact congrArg (Option.map · _) (funext leaves)
    · rw [if_neg closes, if_neg closes, Option.map_none]

theorem line_relined (line : LineReading) (token : Token) :
    (line.reline lines).advance (token.reline lines) = (line.advance token).map (LineReading.reline lines) := by
  cases line with
  | typed type =>
    obtain ⟨kind, text, line⟩ := token
    cases type <;> cases kind <;> rfl
  | typeDotted | named =>
    obtain ⟨kind, text, line⟩ := token
    cases kind <;> rfl
  | fixed | low | high => exact inSize_relined lines _ token _ _ _ _ _ (fun _ => rfl) (fun _ => rfl)
  | bounded => rfl

theorem field_relined (line : LineReading) (close : Token) :
    (line.reline lines).field? (close.reline lines) = (line.field? close).map (Field.reline lines) := by
  unfold LineReading.field?
  rw [Token.reline_kind]
  split
  · rfl
  · cases line <;> rfl

theorem item_relined (line : LineReading) (close : Token) :
    (line.reline lines).item? (close.reline lines) = (line.item? close).map (Item.reline lines) := by
  unfold LineReading.item?
  rw [Token.reline_kind]
  split
  · rfl
  · cases line <;> rfl

@[simp] theorem entries_relined (entries : Array EnumEntry) (entry : EnumEntry) :
    relineEntries lines (entries.push entry) = (relineEntries lines entries).push (entry.reline lines) :=
  Array.map_push ..

theorem enum_relined (listing : EnumReading) (token : Token) :
    (listing.reline lines).advance (token.reline lines) = (listing.advance token).map (EnumReading.reline lines) := by
  obtain ⟨kind, text, line⟩ := token
  cases listing with
  | separated withValues entries =>
    cases withValues <;> cases kind <;> simp [EnumReading.advance, EnumReading.reline, EnumEntry.reline]
  | valued => cases kind <;> simp [EnumReading.advance, EnumReading.reline, EnumEntry.reline]
  | firstNamed =>
    cases kind <;> simp [EnumReading.advance, EnumReading.reline, EnumEntry.reline, relineEntries]
  | _ => cases kind <;> rfl

theorem enum_end_relined (listing : EnumReading) (close : Token) :
    (listing.reline lines).decl? (close.reline lines) = (listing.decl? close).map (EnumDecl.reline lines) := by
  obtain ⟨kind, text, line⟩ := close
  cases listing with
  | finished entries max name =>
    cases kind <;> simp [EnumReading.decl?, EnumReading.reline, EnumDecl.reline, relineEntries]
  | _ => rfl

theorem arm_relined (arm : ArmReading) (token : Token) :
    (arm.reline lines).advance (token.reline lines) = (arm.advance token).map (ArmReading.reline lines) := by
  cases arm with
  | item labels items line =>
    simp only [ArmReading.reline, ArmReading.advance, item_relined, line_relined]
    cases line.item? token with
    | some last => simp [ArmReading.reline]
    | none => cases line.advance token <;> simp [ArmReading.reline]
  | coloned labels =>
    have starts := start_relined lines token
    obtain ⟨kind, text, line⟩ := token
    cases kind <;> rfl
  | labelled labels name =>
    obtain ⟨kind, text, line⟩ := token
    cases kind <;> simp [ArmReading.advance, ArmReading.reline, Label.reline]
  | _ =>
    obtain ⟨kind, text, line⟩ := token
    cases kind <;> rfl

theorem arm_end_relined (arm : ArmReading) (follow : Token) :
    (arm.reline lines).arm? (follow.reline lines) = (arm.arm? follow).map (Arm.reline lines) := by
  cases arm <;> simp [ArmReading.arm?, ArmReading.reline, Arm.reline]

theorem select_relined (choice : SelectReading) (token : Token) :
    (choice.reline lines).advance (token.reline lines) = (choice.advance token).map (SelectReading.reline lines) := by
  cases choice with
  | inArm selector opening arms arm =>
    simp only [SelectReading.reline, SelectReading.advance, arm_end_relined, arm_relined, Token.reline_kind]
    cases arm.arm? token with
    | none => cases arm.advance token <;> rfl
    | some whole =>
      cases token.kind <;> cases arm.advance token <;> simp [SelectReading.reline, ArmReading.reline]
  | braced selector opening =>
    obtain ⟨kind, text, line⟩ := token
    cases kind <;> simp [SelectReading.advance, SelectReading.reline, ArmReading.reline]
  | _ =>
    obtain ⟨kind, text, line⟩ := token
    cases kind <;> rfl

theorem select_end_relined (choice : SelectReading) (close : Token) :
    (choice.reline lines).select? (close.reline lines) = (choice.select? close).map (Select.reline lines) := by
  unfold SelectReading.select?
  rw [Token.reline_kind]
  split
  · rfl
  · cases choice <;> simp [SelectReading.reline, Select.reline]

theorem toDecl_relined (member : Member) : (member.reline lines).toDecl = member.toDecl.reline lines := by
  cases member with
  | field | select => rfl
  | struct members name close => simp [Member.reline, Member.toDecl, Decl.reline, relineAll_map]

namespace Reader

theorem declare_relined (reader : Reader) (decl : Decl) :
    (reader.reline lines).declare (decl.reline lines) = (reader.declare decl).reline lines := by
  simp [declare, Reader.reline, Focus.reline]

theorem add_relined (reader : Reader) (member : Member) :
    (reader.reline lines).add (member.reline lines) = (reader.add member).reline lines := by
  obtain ⟨decls, bodies, focus⟩ := reader
  cases bodies with
  | nil =>
    have top := declare_relined lines ⟨decls, [], focus⟩ member.toDecl
    rwa [← toDecl_relined] at top
  | cons body outer => simp [add, Reader.reline, Focus.reline]

theorem isFull_relined (reader : Reader) : (reader.reline lines).isFull = reader.isFull := by
  simp [isFull]

theorem start_relined (reader : Reader) (token : Token) :
    (reader.reline lines).start (token.reline lines) = (reader.start token).map (Reader.reline lines) := by
  have full := isFull_relined lines reader
  obtain ⟨kind, text, line⟩ := token
  obtain ⟨decls, bodies, focus⟩ := reader
  cases kind with
  | structWord | selectWord =>
    simp only [start, full, Token.reline_kind]
    split <;> rfl
  | rBrace =>
    cases bodies with
    | nil => rfl
    | cons body outer => simp [start, Reader.reline, Focus.reline]
  | _ => cases bodies <;> rfl

theorem advance_relined (reader : Reader) (token : Token) :
    (reader.reline lines).advance (token.reline lines) = (reader.advance token).map (Reader.reline lines) := by
  obtain ⟨decls, bodies, focus⟩ := reader
  cases focus with
  | idle => exact start_relined lines ⟨decls, bodies, .idle⟩ token
  | externWord | structWord | structClosed =>
    simp only [advance, Reader.reline, Focus.reline, Token.reline_kind]
    split <;> simp [moveTo, Reader.reline, Focus.reline]
  | external name =>
    have ends := declare_relined lines ⟨decls, bodies, .external name⟩ (.external name token)
    simp only [advance, Reader.reline, Focus.reline, Token.reline_kind]
    split
    · exact congrArg some ends
    · rfl
  | structNamed members name =>
    have ends := add_relined lines ⟨decls, bodies, .structNamed members name⟩ (.struct members name token)
    rw [Member.reline, relineAll_map] at ends
    simp only [advance, Reader.reline, Focus.reline, Token.reline_kind]
    split
    · exact congrArg some ends
    · rfl
  | line line =>
    have ends (entry : Field) := add_relined lines ⟨decls, bodies, .line line⟩ (.field entry)
    simp only [advance, Reader.reline, Focus.reline, field_relined, line_relined]
    cases line.field? token with
    | some entry => exact congrArg some (ends entry)
    | none => cases line.advance token <;> rfl
  | enum listing =>
    have ends (decl : EnumDecl) := declare_relined lines ⟨decls, bodies, .enum listing⟩ (.enum decl)
    simp only [advance, Reader.reline, Focus.reline, enum_end_relined, enum_relined]
    cases listing.decl? token with
    | some decl => exact congrArg some (ends decl)
    | none => cases listing.advance token <;> rfl
  | select choice =>
    have ends (decl : Select) := add_relined lines ⟨decls, bodies, .select choice⟩ (.select decl)
    simp only [advance, Reader.reline, Focus.reline, select_end_relined, select_relined]
    cases choice.select? token with
    | some decl => exact congrArg some (ends decl)
    | none => cases choice.advance token <;> rfl

theorem feed_relined (reader : Reader) (tokens : List Token) :
    (reader.reline lines).feed (tokens.map (Token.reline lines)) =
      ((reader.feed tokens).1.reline lines, (reader.feed tokens).2.map (Token.reline lines)) := by
  induction tokens generalizing reader with
  | nil => rfl
  | cons token rest ih =>
    rw [List.map_cons, feed, feed, advance_relined]
    cases reader.advance token with
    | none => rfl
    | some next => exact ih next

end Reader

theorem size_offers (closer : Token.Kind) (size : SizeReading) :
    (size.reline lines).expected closer = size.expected closer := by
  cases size <;> rfl

theorem line_offers (afterType : List Token.Kind) (line : LineReading) :
    (line.reline lines).expected afterType = line.expected afterType := by
  cases line with
  | fixed _ _ size | low _ _ size | high _ _ _ size => exact size_offers lines _ size
  | _ => rfl

theorem arm_offers (arm : ArmReading) : (arm.reline lines).expected = arm.expected := by
  cases arm with
  | item labels items line => exact line_offers lines _ line
  | _ => rfl

theorem select_offers (choice : SelectReading) : (choice.reline lines).expected = choice.expected := by
  cases choice with
  | inArm selector opening arms arm => exact arm_offers lines arm
  | _ => rfl

namespace Reader

theorem offers_relined (reader : Reader) : (reader.reline lines).expected = reader.expected := by
  obtain ⟨decls, bodies, focus⟩ := reader
  cases focus with
  | idle => cases bodies <;> rfl
  | line line => exact line_offers lines _ line
  | enum listing => cases listing <;> rfl
  | select choice => exact select_offers lines choice
  | _ => rfl

theorem isIdle_relined (reader : Reader) : (reader.reline lines).isIdle = reader.isIdle := by
  obtain ⟨decls, bodies, focus⟩ := reader
  cases focus <;> rfl

theorem refusal_relined (reader : Reader) (token : Token) :
    (reader.reline lines).refusal (token.reline lines) = reader.refusal token := by
  simp only [refusal, isIdle_relined, isFull_relined, offers_relined, Token.reline_kind]

theorem mayEnd_relined (reader : Reader) : (reader.reline lines).mayEnd = reader.mayEnd := by
  simp [mayEnd, isIdle_relined, Array.isEmpty]

end Reader

theorem parse_relined (refuses : (Reader.initial.feed tokens).2 = token :: rest) :
    parse (tokens.map (Token.reline lines)) = (parse tokens).reline lines := by
  have fed := Reader.feed_relined lines .initial tokens
  have initial : Reader.initial.reline lines = .initial := by simp [Reader.reline, Reader.initial, Focus.reline]
  rw [initial] at fed
  simp only [parse, fed, refuses, List.map_cons, List.headD_cons, Reader.refusal_relined, Reader.mayEnd_relined,
    Token.reline_kind, Parsed.reline, Reader.reline_decls, Array.toList_map]
  split <;> rfl

end WireFormat
