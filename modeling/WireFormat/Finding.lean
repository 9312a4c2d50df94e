import WireFormat.Diagnostic
import WireFormat.Schema

namespace WireFormat

-- What analysis can find wrong. Names that did not resolve are kept whole,
-- because a dotted one earns a note.
inductive Cause where
  | failedLiteral (error : LiteralError)
  | duplicateSymbol (name : String)
  | duplicateEntry (name : String)
  | repeatedValue (name : String) (value : UInt64)
  | excessiveValue (name : String) (value max : UInt64)
  | duplicateItem (name owner : String)
  | duplicateLabel (name : String)
  | repeatedLabel (name owner : String)
  | emptySize (owner : String)
  | invertedRange (owner : String) (low high : UInt64)
  | unknownSize (name : Name)
  | unknownSelector (name : Name)
  | unknownType (name : Name)
  deriving DecidableEq, Repr

namespace Cause

def kind : Cause → Diagnostic.Kind
  | .failedLiteral _ => .literal
  | _ => .semantic

def quoted (name : String) : String := "``" ++ name ++ "''"

def message : Cause → String
  | .failedLiteral error => error.message
  | .duplicateSymbol name => "Duplicate symbol " ++ quoted name ++ " found"
  | .duplicateEntry name => "Duplicate " ++ quoted name ++ " in enum"
  | .repeatedValue name value => "Enum " ++ quoted name ++ " duplicates value " ++ toString value
  | .excessiveValue name value max =>
    "Value for " ++ quoted name ++ " is too big (" ++ toString value ++ " > " ++ toString max ++ ")"
  | .duplicateItem name owner => "Duplicate item " ++ quoted name ++ " in " ++ quoted owner
  | .duplicateLabel name => "Duplicate case " ++ quoted name
  | .repeatedLabel name owner => "Duplicate case " ++ quoted name ++ " in " ++ quoted owner
  | .emptySize owner => quoted owner ++ " size (0) is not positive"
  | .invertedRange owner low high =>
    quoted owner ++ " range " ++ toString low ++ " less than " ++ toString high
  | .unknownSize name => "Unknown size reference " ++ quoted name.text
  | .unknownSelector name => "Unknown variant selector " ++ quoted name.text
  | .unknownType name => "Unknown member type " ++ quoted name.text

def unresolved? : Cause → Option Name
  | .unknownSize name => some name
  | .unknownSelector name => some name
  | .unknownType name => some name
  | _ => none

def isDotted (cause : Cause) : Bool := cause.unresolved?.any Name.isDotted

end Cause

-- A cause and the token at which it is reported.
structure Finding where
  cause : Cause
  token : Token
  deriving DecidableEq, Repr

def dottedNote : String := "Note: cannot resolve dotted items."

def Finding.diagnostic (finding : Finding) (noted : Bool) : Diagnostic :=
  .reported finding.cause.kind finding.token finding.cause.message
    (if noted then some dottedNote else none)

-- Dotted names that did not resolve carry the note: all of them, or only the first
-- when `once` is set. `noted` says whether one has carried it already.
def report (once noted : Bool) : List Finding → List Diagnostic
  | [] => []
  | finding :: rest =>
    let withNote := finding.cause.isDotted && !(once && noted)
    finding.diagnostic withNote :: report once (noted || withNote) rest

end WireFormat
