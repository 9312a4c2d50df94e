import WireFormat.Schema

namespace WireFormat

-- A schema is read one token at a time. A reading says how far a construct has
-- come: `advance` takes the next token or refuses it, and `expected` lists the
-- kinds that a syntax error offers in its place.

-- A size. A reference may always grow by a dot, and after a dot it must grow.
inductive SizeReading where
  | wanted
  | complete (size : SizeExpr)
  | dotted (name : Name)
  deriving DecidableEq, Repr

namespace SizeReading

def advance (reading : SizeReading) (token : Token) : Option SizeReading :=
  match reading, token.kind with
  | .wanted, .number => some (.complete (.literal (.literal token)))
  | .wanted, .power => some (.complete (.power (.power token)))
  | .wanted, .ident => some (.complete (.reference (.simple token)))
  | .complete (.reference name), .dot => some (.dotted name)
  | .dotted name, .ident => some (.complete (.reference (name.extend token.text)))
  | _, _ => none

def complete? : SizeReading → Option SizeExpr
  | .complete size => some size
  | _ => none

-- The dot that could follow a reference is never offered.
def expected (closer : Token.Kind) : SizeReading → List Token.Kind
  | .wanted => [.number, .power, .ident]
  | .complete _ => [closer]
  | .dotted _ => [.ident]

end SizeReading

-- A line `type name bounds;`, up to but not including its semicolon.
inductive LineReading where
  | typed (type : TypeRef)
  | typeDotted (name : Name)
  | named (type : TypeRef) (name : Token)
  | fixed (type : TypeRef) (name : Token) (size : SizeReading)
  | low (type : TypeRef) (name : Token) (size : SizeReading)
  | high (type : TypeRef) (name : Token) (least : SizeExpr) (size : SizeReading)
  | bounded (type : TypeRef) (name : Token) (bounds : Bounds)
  deriving DecidableEq, Repr

namespace LineReading

-- A line starts with a built-in type or with the first segment of a name.
def start? (token : Token) : Option LineReading :=
  match token.kind with
  | .scalar type => some (.typed (.scalar type))
  | .ident => some (.typed (.named (.simple token)))
  | _ => none

-- Goes on with a size, or leaves it at its closer.
def inSize (size : SizeReading) (token : Token) (closer : Token.Kind)
    (stay : SizeReading → LineReading) (leave : SizeExpr → LineReading) : Option LineReading :=
  match size.advance token with
  | some next => some (stay next)
  | none => if token.kind = closer then size.complete?.map leave else none

def advance (reading : LineReading) (token : Token) : Option LineReading :=
  match reading with
  | .typed type =>
    match type, token.kind with
    | .named name, .dot => some (.typeDotted name)
    | _, .ident => some (.named type token)
    | _, _ => none
  | .typeDotted name =>
    if token.kind = .ident then some (.typed (.named (name.extend token.text))) else none
  | .named type name =>
    match token.kind with
    | .lBracket => some (.fixed type name .wanted)
    | .less => some (.low type name .wanted)
    | _ => none
  | .fixed type name size =>
    inSize size token .rBracket (.fixed type name) fun size => .bounded type name (.fixed size)
  | .low type name size =>
    inSize size token .dots (.low type name) fun size => .high type name size .wanted
  | .high type name least size =>
    inSize size token .greater (.high type name least) fun size =>
      .bounded type name (.range least size)
  | .bounded .. => none

-- What a semicolon completes. Only an item of an arm may leave out the name.
def field? (reading : LineReading) (close : Token) : Option Field :=
  if close.kind ≠ .semi then none
  else match reading with
    | .named type name => some ⟨type, name, none, close⟩
    | .bounded type name bounds => some ⟨type, name, some bounds, close⟩
    | _ => none

def item? (reading : LineReading) (close : Token) : Option Item :=
  if close.kind ≠ .semi then none
  else match reading with
    | .typed type => some ⟨false, type, none, none, close⟩
    | .named type name => some ⟨false, type, some name, none, close⟩
    | .bounded type name bounds => some ⟨false, type, some name, some bounds, close⟩
    | _ => none

-- `afterType` is what may follow the type: a name, or in an arm also the end.
def expected (afterType : List Token.Kind) : LineReading → List Token.Kind
  | .typed _ => afterType
  | .typeDotted _ => [.ident]
  | .named .. => [.semi, .lBracket, .less]
  | .fixed _ _ size => size.expected .rBracket
  | .low _ _ size => size.expected .dots
  | .high _ _ _ size => size.expected .greater
  | .bounded .. => [.semi]

theorem advance_eof (reading : LineReading) (token : Token) (ended : token.kind = .eof) :
    reading.advance token = none := by
  cases reading with
  | typed type => cases type <;> simp [advance, ended]
  | typeDotted => simp [advance, ended]
  | named => simp [advance, ended]
  | fixed _ _ size => cases size <;> simp [advance, inSize, SizeReading.advance, ended]
  | low _ _ size => cases size <;> simp [advance, inSize, SizeReading.advance, ended]
  | high _ _ _ size => cases size <;> simp [advance, inSize, SizeReading.advance, ended]
  | bounded => rfl

end LineReading

end WireFormat
