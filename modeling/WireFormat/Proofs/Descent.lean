import WireFormat.Proofs.Cursor

namespace WireFormat

-- A schema read by recursive descent: one function for each construct, all of which move
-- one cursor and count the bodies that are open. A reading has no answer where it does not
-- come to an end, and where it takes the count out of its range.

structure Descent extends Cursor where
  depth : Nat

namespace Descent

def left (descent : Descent) : Nat := descent.tokens.length - descent.pos

def next (descent : Descent) : Descent := { descent with toCursor := descent.bump }

def deeper (descent : Descent) : Option Descent :=
  if descent.depth < maxNesting then some { descent with depth := descent.depth + 1 } else none

def shallower (descent : Descent) : Option Descent :=
  if 0 < descent.depth then some { descent with depth := descent.depth - 1 } else none

end Descent

abbrev Descends := ExceptT SyntaxError (StateT Descent Option)

namespace Descends

def peek : Descends Token := return (← get).peek

-- Takes whatever token is there, and stays where none is.
def bump : Descends Token := do
  let token ← peek
  modify Descent.next
  return token

def eat (kind : Token.Kind) : Descends (Option Token) := do
  if (← peek).kind = kind then return some (← bump) else return none

def unexpected (expected : List Token.Kind) : Descends α := do throw ⟨← peek, .unexpected expected⟩

def expectIn (kind : Token.Kind) (expected : List Token.Kind) : Descends Token := do
  match ← eat kind with
  | some token => return token
  | none => unexpected expected

def expect (kind : Token.Kind) : Descends Token := expectIn kind [kind]

-- One body deeper, and back again also where the body could not be read.
def nested (body : Descends α) : Descends α := fun descent =>
  if maxNesting ≤ descent.depth then some (.error ⟨descent.peek, .tooDeep⟩, descent)
  else do
    let inner ← descent.deeper
    let (result, after) ← body inner
    return (result, ← after.shallower)

-- A turn of a loop goes on with what it has gathered, or leaves the loop.
inductive Turn (β α : Type) where
  | again (gathered : β)
  | leave (value : α)

def loopFor (turn : β → Descends (Turn β α)) : Nat → β → Descends α
  | 0, _ => fun _ => none
  | turns + 1, gathered => do
    match ← turn gathered with
    | .again more => loopFor turn turns more
    | .leave value => return value

-- More turns than there are tokens left: one of them takes no token, and so do all after it.
def loop (turn : β → Descends (Turn β α)) (gathered : β) : Descends α := fun descent =>
  loopFor turn (descent.left + 1) gathered descent

def nameTurn (name : Name) : Descends (Turn Name Name) := do
  match ← eat .dot with
  | none => return .leave name
  | some _ =>
    let segment ← expect .ident
    return .again (name.extend segment.text)

def name : Descends Name := do
  let first ← expect .ident
  loop nameTurn (.simple first)

def type : Descends TypeRef := do
  match (← peek).kind.scalar? with
  | some type =>
    let _ ← bump
    return .scalar type
  | none => return .named (← name)

def number : Descends Number := do
  let token ← expect .number
  return .literal token

def size : Descends SizeExpr := do
  match (← peek).kind with
  | .number => return .literal (← number)
  | .power => return .power (.power (← bump))
  | .ident => return .reference (← name)
  | _ => unexpected [.number, .power, .ident]

def bounds : Descends (Option Bounds) := do
  match ← eat .lBracket with
  | some _ =>
    let size ← size
    let _ ← expect .rBracket
    return some (.fixed size)
  | none =>
    match ← eat .less with
    | some _ =>
      let low ← size
      let _ ← expect .dots
      let high ← size
      let _ ← expect .greater
      return some (.range low high)
    | none => return none

-- The semicolon of a line with a name. Where there are no bounds, they are offered too.
def lineEnd : Option Bounds → Descends Token
  | some _ => expect .semi
  | none => expectIn .semi [.semi, .lBracket, .less]

def field : Descends Field := do
  let type ← type
  let name ← expect .ident
  let bounds ← bounds
  let close ← lineEnd bounds
  return ⟨type, name, bounds, close⟩

def external : Descends Decl := do
  let _ ← expect .externWord
  let name ← expect .ident
  let close ← expect .semi
  return .external name close

def paren : Descends Number := do
  let _ ← expect .lParen
  let number ← number
  let _ ← expect .rParen
  return number

def entry (withValues : Bool) (name : Token) : Descends EnumEntry := do
  if withValues then return ⟨name, some (← paren)⟩ else return ⟨name, none⟩

def entriesTurn (withValues : Bool) (entries : List EnumEntry) :
    Descends (Turn (List EnumEntry) (List EnumEntry × Option Number)) := do
  match ← eat .comma with
  | some _ =>
    if (← peek).kind = .lParen then
      let max ← paren
      let _ ← expect .rBrace
      return .leave (entries, some max)
    else
      let name ← expectIn .ident [.ident, .lParen]
      let one ← entry withValues name
      return .again (entries ++ [one])
  | none =>
    let _ ← expectIn .rBrace [.comma, .rBrace]
    return .leave (entries, none)

def enum : Descends EnumDecl := do
  let _ ← expect .enumWord
  let _ ← expect .lBrace
  let name ← expect .ident
  let withValues := (← peek).kind = .lParen
  let first ← entry withValues name
  let listed ← loop (entriesTurn withValues) [first]
  let name ← expect .ident
  let close ← expect .semi
  return ⟨listed.1, listed.2, name, close⟩

def itemEnd (type : TypeRef) : Option Token → Descends Item
  | none => do
    let close ← expectIn .semi [.ident, .semi]
    return ⟨false, type, none, none, close⟩
  | some name => do
    let bounds ← bounds
    let close ← lineEnd bounds
    return ⟨false, type, some name, bounds, close⟩

def item : Descends Item := do
  let type ← type
  let name ← eat .ident
  itemEnd type name

def labelsTurn (labels : List Label) : Descends (Turn (List Label) (List Label)) := do
  let _ ← expect .caseWord
  let name ← expect .ident
  let colon ← expect .colon
  if (← peek).kind = .caseWord then return .again (labels ++ [⟨name, colon⟩])
  else return .leave (labels ++ [⟨name, colon⟩])

def clause : Descends (List Item) := do
  let _ ← bump
  let name ← name
  let close ← expect .semi
  if (← peek).kind = .ident then return [⟨true, .named name, none, none, close⟩, ← item]
  else return [⟨true, .named name, none, none, close⟩]

def body : Descends (List Item) := do
  match (← peek).kind with
  | .semi =>
    let _ ← bump
    return []
  | .signedWord => clause
  | .ident => return [← item]
  | .scalar _ => return [← item]
  | _ => unexpected ([.caseWord, .semi, .signedWord] ++ Token.Kind.scalars ++ [.ident])

def arm : Descends Arm := do
  let labels ← loop labelsTurn []
  let items ← body
  return ⟨labels, items, ← peek⟩

def armsTurn (arms : List Arm) : Descends (Turn (List Arm) (List Arm)) := do
  let one ← arm
  match (← peek).kind with
  | .caseWord => return .again (arms ++ [one])
  | .rBrace => return .leave (arms ++ [one])
  | _ => unexpected [.caseWord, .rBrace]

def selectEnd : Option Token → Descends Token
  | some _ => expect .semi
  | none => expectIn .semi [.ident, .semi]

def selectBody : Descends Select := do
  let _ ← expect .selectWord
  let _ ← expect .lParen
  let selector ← name
  let _ ← expect .rParen
  let opening ← expect .lBrace
  let arms ← loop armsTurn []
  let _ ← expect .rBrace
  let name ← eat .ident
  let close ← selectEnd name
  return ⟨selector, opening, arms, name, close⟩

def select : Descends Select := nested selectBody

section Struct

-- How a member is read is left open here, because members are structs again.
variable (member : Descends Member)

def membersTurn (members : List Member) : Descends (Turn (List Member) (List Member)) := do
  if (← peek).kind = .rBrace then return .leave members
  else
    let one ← member
    return .again (members ++ [one])

def structBody : Descends Member := do
  let _ ← expect .structWord
  let _ ← expect .lBrace
  let members ← loop (membersTurn member) []
  let _ ← expect .rBrace
  let name ← expect .ident
  let close ← expect .semi
  return .struct members name close

end Struct

-- No answer where more structs than `levels` stand in each other.
def memberWithin : Nat → Descends Member
  | 0 => fun _ => none
  | levels + 1 => do
    match (← peek).kind with
    | .structWord => nested (structBody (memberWithin levels))
    | .selectWord => return .select (← select)
    | .ident => return .field (← field)
    | .scalar _ => return .field (← field)
    | _ => unexpected (.rBrace :: Token.Kind.scalars ++ [.ident, .structWord, .selectWord])

def member : Descends Member := memberWithin (maxNesting + 1)
def struct : Descends Member := nested (structBody member)

def decl : Descends Decl := do
  match (← peek).kind with
  | .externWord => external
  | .enumWord => return .enum (← enum)
  | .structWord => return (← struct).toDecl
  | .selectWord => return .select (← select)
  | .ident => return .field (← field)
  | .scalar _ => return .field (← field)
  | _ => unexpected (.externWord :: Token.Kind.scalars ++ [.ident, .enumWord, .structWord, .selectWord])

-- The first error ends the schema, and so does the end of the input after a declaration.
def declsTurn (decls : List Decl) : Descends (Turn (List Decl) Parsed) := fun descent => do
  let (result, after) ← decl descent
  match result with
  | .error error => return (.ok (.leave ⟨decls, some error⟩), after)
  | .ok one =>
    if after.peek.kind = .eof then return (.ok (.leave ⟨decls ++ [one], none⟩), after)
    else return (.ok (.again (decls ++ [one])), after)

end Descends

def descend (tokens : List Token) : Option (Except SyntaxError Parsed) :=
  (Descends.loop Descends.declsTurn [] ⟨⟨tokens, 0⟩, 0⟩).map Prod.fst

end WireFormat
