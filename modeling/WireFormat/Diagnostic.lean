import WireFormat.Token

namespace WireFormat

-- What part of the language a diagnostic is about.
inductive Diagnostic.Kind where
  | lexical | grammar | literal | semantic
  deriving DecidableEq, Repr

-- One problem, at the line and the verbatim text of a token.
structure Diagnostic where
  kind : Diagnostic.Kind
  line : Nat
  near : String
  message : String
  note : Option String
  deriving DecidableEq, Repr

namespace Diagnostic

def reported (kind : Kind) (token : Token) (message : String) (note : Option String) : Diagnostic :=
  ⟨kind, token.line, token.text, message, note⟩

def writeLine (diagnostic : Diagnostic) (label text : String) : String :=
  label ++ ":" ++ toString diagnostic.line ++ ": error near ``" ++ diagnostic.near ++ "'': " ++ text ++ "\n"

-- The note repeats the place of its diagnostic.
def render (label : String) (diagnostic : Diagnostic) : String :=
  diagnostic.writeLine label diagnostic.message ++
    match diagnostic.note with
    | none => ""
    | some note => diagnostic.writeLine label note

-- Diagnostics are written in the order in which they were reported.
def renderAll (label : String) (diagnostics : List Diagnostic) : String :=
  String.join (diagnostics.map (render label))

end Diagnostic

end WireFormat
