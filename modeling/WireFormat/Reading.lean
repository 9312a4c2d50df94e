import WireFormat.Reading.Enum
import WireFormat.Reading.Select

namespace WireFormat

-- What is being read inside the innermost open struct body, or at top level.
inductive Focus where
  | idle
  | externWord
  | external (name : Token)
  | line (reading : LineReading)
  | enum (reading : EnumReading)
  | structWord
  | structClosed (members : List Member)
  | structNamed (members : List Member) (name : Token)
  | select (reading : SelectReading)
  deriving Repr

-- A reader between two tokens: the declarations it has completed, the members of
-- each open struct body, innermost first, and the construct it is in.
structure Reader where
  decls : Array Decl
  bodies : List (Array Member)
  focus : Focus
  deriving Repr

-- How many struct and select bodies may be open at once.
def maxNesting : Nat := 256

-- Whatever may stand in a struct may also stand at top level.
def Member.toDecl : Member → Decl
  | .field entry => .field entry
  | .struct members name close => .struct members name close
  | .select choice => .select choice

namespace Reader

def initial : Reader := ⟨#[], [], .idle⟩

-- Selects hold no struct bodies, so open bodies are those of structs.
def isFull (reader : Reader) : Bool := maxNesting ≤ reader.bodies.length

def moveTo (reader : Reader) (focus : Focus) : Reader := { reader with focus }

def declare (reader : Reader) (decl : Decl) : Reader :=
  { reader with decls := reader.decls.push decl, focus := .idle }

-- A completed member goes to the innermost open body, or becomes a declaration.
def add (reader : Reader) (member : Member) : Reader :=
  match reader.bodies with
  | [] => reader.declare member.toDecl
  | body :: outer => { reader with bodies := body.push member :: outer, focus := .idle }

-- Externs and enums stand at top level only, a closing brace in a body only.
def start (reader : Reader) (token : Token) : Option Reader :=
  match token.kind, reader.bodies with
  | .externWord, [] => some (reader.moveTo .externWord)
  | .enumWord, [] => some (reader.moveTo (.enum .wanted))
  | .structWord, _ => if reader.isFull then none else some (reader.moveTo .structWord)
  | .selectWord, _ => if reader.isFull then none else some (reader.moveTo (.select .wanted))
  | .rBrace, body :: outer => some { reader with bodies := outer, focus := .structClosed body.toList }
  | _, _ => (LineReading.start? token).map fun line => reader.moveTo (.line line)

def advance (reader : Reader) (token : Token) : Option Reader :=
  match reader.focus with
  | .idle => reader.start token
  | .externWord => if token.kind = .ident then some (reader.moveTo (.external token)) else none
  | .external name => if token.kind = .semi then some (reader.declare (.external name token)) else none
  | .line line =>
    match line.field? token with
    | some entry => some (reader.add (.field entry))
    | none => (line.advance token).map fun line => reader.moveTo (.line line)
  | .enum listing =>
    match listing.decl? token with
    | some decl => some (reader.declare (.enum decl))
    | none => (listing.advance token).map fun listing => reader.moveTo (.enum listing)
  | .structWord =>
    if token.kind = .lBrace then some { reader with bodies := #[] :: reader.bodies, focus := .idle }
    else none
  | .structClosed members =>
    if token.kind = .ident then some (reader.moveTo (.structNamed members token)) else none
  | .structNamed members name =>
    if token.kind = .semi then some (reader.add (.struct members name token)) else none
  | .select choice =>
    match choice.select? token with
    | some decl => some (reader.add (.select decl))
    | none => (choice.advance token).map fun choice => reader.moveTo (.select choice)

-- The kinds offered in place of a refused token. Short lists are complete but for
-- the tokens that would only prolong what is already complete.
def expected (reader : Reader) : List Token.Kind :=
  match reader.focus with
  | .idle =>
    if reader.bodies.isEmpty then
      .externWord :: Token.Kind.scalars ++ [.ident, .enumWord, .structWord, .selectWord]
    else .rBrace :: Token.Kind.scalars ++ [.ident, .structWord, .selectWord]
  | .externWord => [.ident]
  | .external _ => [.semi]
  | .line line => line.expected [.ident]
  | .enum listing => listing.expected
  | .structWord => [.lBrace]
  | .structClosed _ => [.ident]
  | .structNamed .. => [.semi]
  | .select choice => choice.expected

def isIdle (reader : Reader) : Bool :=
  match reader.focus with
  | .idle => true
  | _ => false

-- The input may end between declarations, but not before the first.
def mayEnd (reader : Reader) : Bool :=
  reader.isIdle && reader.bodies.isEmpty && !reader.decls.isEmpty

-- No construct goes on past the end of the input, so nothing after it is looked at.
theorem advance_eof (reader : Reader) (token : Token) (ended : token.kind = .eof) :
    reader.advance token = none := by
  unfold advance
  split
  · simp [start, LineReading.start?, ended]
  all_goals simp [ended, LineReading.field?, LineReading.advance_eof, EnumReading.decl?,
    EnumReading.advance_eof, SelectReading.select?, SelectReading.advance_eof]

-- Takes tokens up to the first that is refused, and returns that one and the rest.
def feed (reader : Reader) : List Token → Reader × List Token
  | [] => (reader, [])
  | token :: rest =>
    match reader.advance token with
    | some next => next.feed rest
    | none => (reader, token :: rest)

theorem feed_append (reader : Reader) (taken unread : List Token)
    (all : (reader.feed taken).2 = []) :
    reader.feed (taken ++ unread) = (reader.feed taken).1.feed unread := by
  induction taken generalizing reader with
  | nil => rfl
  | cons token rest ih =>
    simp only [feed, List.cons_append] at all ⊢
    cases step : reader.advance token with
    | none => simp [step] at all
    | some next =>
      simp only [step] at all ⊢
      exact ih next all

end Reader

-- Why a token is refused: it does not fit, or it would open one body too many.
inductive Refusal where
  | unexpected (expected : List Token.Kind)
  | tooDeep
  deriving DecidableEq, Repr

structure SyntaxError where
  token : Token
  refusal : Refusal
  deriving DecidableEq, Repr

def Reader.refusal (reader : Reader) (token : Token) : Refusal :=
  if reader.isIdle && reader.isFull && (token.kind = .structWord || token.kind = .selectWord) then
    .tooDeep
  else .unexpected reader.expected

-- Above this many alternatives the message leaves them out.
def maxListed : Nat := 4

def SyntaxError.message (error : SyntaxError) : String :=
  match error.refusal with
  | .tooDeep => "syntax error, nesting deeper than " ++ toString maxNesting
  | .unexpected expected =>
    let offer :=
      if expected.isEmpty || maxListed < expected.length then ""
      else ", expecting " ++ " or ".intercalate (expected.map Token.Kind.grammarName)
    "syntax error, unexpected " ++ error.token.kind.grammarName ++ offer

-- The declarations completed before the end of the input or before the first
-- token that does not fit, and what was wrong with that token.
structure Parsed where
  decls : List Decl
  error : Option SyntaxError
  deriving Repr

-- Tokens that run out without an end of the input count as ending on line 1.
def parse (tokens : List Token) : Parsed :=
  let (reader, unread) := Reader.initial.feed tokens
  let token := unread.headD (Token.endAt 1)
  let error :=
    if token.kind = .eof && reader.mayEnd then none
    else some ⟨token, reader.refusal token⟩
  ⟨reader.decls.toList, error⟩

end WireFormat
