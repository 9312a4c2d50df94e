import WireFormat.Numeral
import WireFormat.Token

namespace WireFormat

-- The tree of a schema. Nodes keep the tokens at which findings are reported:
-- names, closing semicolons, a select's opening brace, the colon of a label.

-- One segment or several joined by dots. `token` is the first segment's.
structure Name where
  head : String
  tail : List String
  token : Token
  deriving DecidableEq, Repr

namespace Name

def simple (token : Token) : Name := ⟨token.text, [], token⟩
def extend (name : Name) (segment : String) : Name := { name with tail := name.tail ++ [segment] }
def segments (name : Name) : List String := name.head :: name.tail
def isDotted (name : Name) : Bool := !name.tail.isEmpty
def text (name : Name) : String := ".".intercalate name.segments

end Name

inductive TypeRef where
  | scalar (type : Scalar)
  | named (name : Name)
  deriving DecidableEq, Repr

def TypeRef.text : TypeRef → String
  | .scalar type => type.keyword
  | .named name => name.text

def TypeRef.name? : TypeRef → Option Name
  | .scalar _ => none
  | .named name => some name

structure Number where
  evaluated : Evaluated
  token : Token
  deriving DecidableEq, Repr

def Number.literal (token : Token) : Number := ⟨evaluateLiteral token.text, token⟩
def Number.power (token : Token) : Number := ⟨evaluatePower token.text, token⟩
def Number.value (number : Number) : UInt64 := number.evaluated.value

inductive SizeExpr where
  | literal (number : Number)
  | power (number : Number)
  | reference (name : Name)
  deriving DecidableEq, Repr

def SizeExpr.text : SizeExpr → String
  | .literal number => number.token.text
  | .power number => number.token.text
  | .reference name => name.text

-- `[size]` or `<low..high>`.
inductive Bounds where
  | fixed (size : SizeExpr)
  | range (low high : SizeExpr)
  deriving DecidableEq, Repr

structure Field where
  type : TypeRef
  name : Token
  bounds : Option Bounds
  close : Token
  deriving DecidableEq, Repr

structure EnumEntry where
  name : Token
  value : Option Number
  deriving DecidableEq, Repr

-- `max` is the number that a last entry without a name gives.
structure EnumDecl where
  entries : List EnumEntry
  max : Option Number
  name : Token
  close : Token
  deriving DecidableEq, Repr

structure Label where
  name : Token
  colon : Token
  deriving DecidableEq, Repr

-- One line of an arm. `signed` marks the digitally-signed clause.
structure Item where
  signed : Bool
  type : TypeRef
  name : Option Token
  bounds : Option Bounds
  close : Token
  deriving DecidableEq, Repr

-- Labels that share a body. An empty body is written as a lone semicolon.
-- `follow` is the token after the body.
structure Arm where
  labels : List Label
  items : List Item
  follow : Token
  deriving DecidableEq, Repr

structure Select where
  selector : Name
  opening : Token
  arms : List Arm
  name : Option Token
  close : Token
  deriving DecidableEq, Repr

inductive Member where
  | field (entry : Field)
  | struct (members : List Member) (name close : Token)
  | select (choice : Select)
  deriving Repr

inductive Decl where
  | field (entry : Field)
  | external (name close : Token)
  | enum (listing : EnumDecl)
  | struct (members : List Member) (name close : Token)
  | select (choice : Select)
  deriving Repr

-- Only a select may go without a name.
def Member.name? : Member → Option Token
  | .field entry => some entry.name
  | .struct _ name _ => some name
  | .select choice => choice.name

def Decl.name? : Decl → Option Token
  | .field entry => some entry.name
  | .external name _ => some name
  | .enum listing => some listing.name
  | .struct _ name _ => some name
  | .select choice => choice.name

def Decl.external? : Decl → Option String
  | .external name _ => some name.text
  | _ => none

end WireFormat
