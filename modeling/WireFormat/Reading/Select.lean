import WireFormat.Reading.Line

namespace WireFormat

-- An arm after its first `case`: labels, then a lone semicolon, an item, or a
-- digitally-signed clause that one item with a named type may follow.
inductive ArmReading where
  | cased (labels : Array Label)
  | labelled (labels : Array Label) (name : Token)
  | coloned (labels : Array Label)
  | signing (labels : Array Label)
  | signed (labels : Array Label) (name : Name)
  | signedDotted (labels : Array Label) (name : Name)
  | clause (labels : Array Label) (item : Item)
  | item (labels : Array Label) (items : List Item) (line : LineReading)
  | complete (labels : Array Label) (items : List Item)
  deriving DecidableEq, Repr

namespace ArmReading

def advance (reading : ArmReading) (token : Token) : Option ArmReading :=
  match reading with
  | .cased labels => if token.kind = .ident then some (.labelled labels token) else none
  | .labelled labels name =>
    if token.kind = .colon then some (.coloned (labels.push ⟨name, token⟩)) else none
  | .coloned labels =>
    match token.kind with
    | .caseWord => some (.cased labels)
    | .semi => some (.complete labels [])
    | .signedWord => some (.signing labels)
    | _ => (LineReading.start? token).map (.item labels [])
  | .signing labels => if token.kind = .ident then some (.signed labels (.simple token)) else none
  | .signed labels name =>
    match token.kind with
    | .dot => some (.signedDotted labels name)
    | .semi => some (.clause labels ⟨true, .named name, none, none, token⟩)
    | _ => none
  | .signedDotted labels name =>
    if token.kind = .ident then some (.signed labels (name.extend token.text)) else none
  | .clause labels signature =>
    if token.kind = .ident then some (.item labels [signature] (.typed (.named (.simple token)))) else none
  | .item labels items line =>
    match line.item? token with
    | some last => some (.complete labels (items ++ [last]))
    | none => (line.advance token).map (.item labels items)
  | .complete .. => none

-- The arm, once its body is complete; the token after it belongs to it as well.
def arm? (reading : ArmReading) (follow : Token) : Option Arm :=
  match reading with
  | .clause labels signature => some ⟨labels.toList, [signature], follow⟩
  | .complete labels items => some ⟨labels.toList, items, follow⟩
  | _ => none

-- The item that may follow a digitally-signed clause is not offered.
def expected : ArmReading → List Token.Kind
  | .cased _ => [.ident]
  | .labelled .. => [.colon]
  | .coloned _ => [.caseWord, .semi, .signedWord] ++ Token.Kind.scalars ++ [.ident]
  | .signing _ => [.ident]
  | .signed .. => [.semi]
  | .signedDotted .. => [.ident]
  | .clause .. => [.caseWord, .rBrace]
  | .item _ _ line => line.expected [.ident, .semi]
  | .complete .. => [.caseWord, .rBrace]

theorem advance_eof (reading : ArmReading) (token : Token) (ended : token.kind = .eof) :
    reading.advance token = none := by
  cases reading with
  | item labels items line => simp [advance, LineReading.item?, line.advance_eof, ended]
  | _ => simp [advance, LineReading.start?, ended]

end ArmReading

-- A select after its keyword.
inductive SelectReading where
  | wanted
  | opened
  | choosing (name : Name)
  | choosingDotted (name : Name)
  | selected (selector : Name)
  | braced (selector : Name) (opening : Token)
  | inArm (selector : Name) (opening : Token) (arms : Array Arm) (arm : ArmReading)
  | closed (selector : Name) (opening : Token) (arms : Array Arm)
  | named (selector : Name) (opening : Token) (arms : Array Arm) (name : Token)
  deriving DecidableEq, Repr

namespace SelectReading

def advance (reading : SelectReading) (token : Token) : Option SelectReading :=
  match reading with
  | .wanted => if token.kind = .lParen then some .opened else none
  | .opened => if token.kind = .ident then some (.choosing (.simple token)) else none
  | .choosing name =>
    match token.kind with
    | .dot => some (.choosingDotted name)
    | .rParen => some (.selected name)
    | _ => none
  | .choosingDotted name =>
    if token.kind = .ident then some (.choosing (name.extend token.text)) else none
  | .selected selector => if token.kind = .lBrace then some (.braced selector token) else none
  | .braced selector opening =>
    if token.kind = .caseWord then some (.inArm selector opening #[] (.cased #[])) else none
  | .inArm selector opening arms reading =>
    match reading.arm? token, token.kind with
    | some arm, .caseWord => some (.inArm selector opening (arms.push arm) (.cased #[]))
    | some arm, .rBrace => some (.closed selector opening (arms.push arm))
    | _, _ => (reading.advance token).map (.inArm selector opening arms)
  | .closed selector opening arms =>
    if token.kind = .ident then some (.named selector opening arms token) else none
  | .named .. => none

def select? (reading : SelectReading) (close : Token) : Option Select :=
  if close.kind ≠ .semi then none
  else match reading with
    | .closed selector opening arms => some ⟨selector, opening, arms.toList, none, close⟩
    | .named selector opening arms name => some ⟨selector, opening, arms.toList, some name, close⟩
    | _ => none

def expected : SelectReading → List Token.Kind
  | .wanted => [.lParen]
  | .opened => [.ident]
  | .choosing _ => [.rParen]
  | .choosingDotted _ => [.ident]
  | .selected _ => [.lBrace]
  | .braced .. => [.caseWord]
  | .inArm _ _ _ arm => arm.expected
  | .closed .. => [.ident, .semi]
  | .named .. => [.semi]

theorem advance_eof (reading : SelectReading) (token : Token) (ended : token.kind = .eof) :
    reading.advance token = none := by
  cases reading with
  | inArm selector opening arms arm =>
    have refused := arm.advance_eof token ended
    cases complete : arm.arm? token <;> simp [advance, ended, complete, refused]
  | _ => simp [advance, ended]

end SelectReading

end WireFormat
