namespace WireFormat

-- The built-in types. Their keywords are the only spellings they have.
inductive Scalar where
  | uint8 | uint16 | uint24 | uint32 | uint64 | bytes
  deriving DecidableEq, Repr

def Scalar.all : List Scalar := [.uint8, .uint16, .uint24, .uint32, .uint64, .bytes]

def Scalar.keyword : Scalar → String
  | .uint8 => "uint8"
  | .uint16 => "uint16"
  | .uint24 => "uint24"
  | .uint32 => "uint32"
  | .uint64 => "uint64"
  | .bytes => "opaque"

-- What a token is. The six built-in type keywords share one constructor, so a
-- grammar position that admits any of them needs one case only.
inductive Token.Kind where
  | ident | number | power
  | structWord | enumWord | selectWord | caseWord | externWord | signedWord
  | scalar (type : Scalar)
  | lBrace | rBrace | lParen | rParen | lBracket | rBracket | less | greater
  | semi | comma | caret | minus | dot | dots | colon
  | unknown | eof
  deriving DecidableEq, Repr

namespace Token.Kind

def scalars : List Kind := Scalar.all.map .scalar

def keywords : List (String × Kind) :=
  [("struct", .structWord), ("enum", .enumWord), ("select", .selectWord), ("case", .caseWord),
   ("extern", .externWord), ("digitally-signed", .signedWord)] ++
    Scalar.all.map fun type => (type.keyword, .scalar type)

def punctuation : List (String × Kind) :=
  [("\x7b", .lBrace), ("\x7d", .rBrace), ("(", .lParen), (")", .rParen), ("[", .lBracket),
   ("]", .rBracket), ("<", .less), (">", .greater), (";", .semi), (",", .comma), ("^", .caret),
   ("-", .minus), (".", .dot), ("..", .dots), (":", .colon)]

-- Both tables are read by exact spelling; case matters.
def keyword? (text : String) : Option Kind := keywords.lookup text
def punctuation? (text : String) : Option Kind := punctuation.lookup text

def scalar? : Kind → Option Scalar
  | .scalar type => some type
  | _ => none

-- The name under which a syntax error mentions a kind.
def grammarName : Kind → String
  | .ident => "tIDENT"
  | .number => "tNUMBER"
  | .power => "tPOWER"
  | .structWord => "tSTRUCT"
  | .enumWord => "tENUM"
  | .selectWord => "tSELECT"
  | .caseWord => "tCASE"
  | .externWord => "tEXTERN"
  | .signedWord => "tDIGITALLY_SIGNED"
  | .scalar .uint8 => "tUINT8"
  | .scalar .uint16 => "tUINT16"
  | .scalar .uint24 => "tUINT24"
  | .scalar .uint32 => "tUINT32"
  | .scalar .uint64 => "tUINT64"
  | .scalar .bytes => "tOPAQUE"
  | .lBrace => "'\x7b'"
  | .rBrace => "'\x7d'"
  | .lParen => "'('"
  | .rParen => "')'"
  | .lBracket => "'['"
  | .rBracket => "']'"
  | .less => "'<'"
  | .greater => "'>'"
  | .semi => "';'"
  | .comma => "','"
  | .caret => "'^'"
  | .minus => "'-'"
  | .dot => "'.'"
  | .dots => "tDOTDOT"
  | .colon => "':'"
  | .unknown => "$undefined"
  | .eof => "$end"

end Token.Kind

-- A lexeme, verbatim, and the line on which it starts (the first line is 1).
structure Token where
  kind : Token.Kind
  text : String
  line : Nat
  deriving DecidableEq, Repr

-- The end of the input has no text.
def Token.endAt (line : Nat) : Token := ⟨.eof, "", line⟩

end WireFormat
