import WireFormat.Schema

namespace WireFormat

-- An enum after its keyword. The first entry decides whether all entries carry
-- a value or none does, so `firstNamed` alone waits for either.
inductive EnumReading where
  | wanted
  | opened
  | firstNamed (name : Token)
  | named (entries : Array EnumEntry) (name : Token)
  | valueOpened (entries : Array EnumEntry) (name : Token)
  | valued (entries : Array EnumEntry) (name : Token) (value : Number)
  | entered (withValues : Bool) (entries : Array EnumEntry)
  | separated (withValues : Bool) (entries : Array EnumEntry)
  | maxOpened (entries : Array EnumEntry)
  | maxRead (entries : Array EnumEntry) (max : Number)
  | maxClosed (entries : Array EnumEntry) (max : Number)
  | closed (entries : Array EnumEntry) (max : Option Number)
  | finished (entries : Array EnumEntry) (max : Option Number) (name : Token)
  deriving DecidableEq, Repr

namespace EnumReading

def advance (reading : EnumReading) (token : Token) : Option EnumReading :=
  match reading, token.kind with
  | .wanted, .lBrace => some .opened
  | .opened, .ident => some (.firstNamed token)
  | .firstNamed name, .lParen => some (.valueOpened #[] name)
  | .firstNamed name, .comma => some (.separated false #[⟨name, none⟩])
  | .firstNamed name, .rBrace => some (.closed #[⟨name, none⟩] none)
  | .named entries name, .lParen => some (.valueOpened entries name)
  | .valueOpened entries name, .number => some (.valued entries name (.literal token))
  | .valued entries name value, .rParen => some (.entered true (entries.push ⟨name, some value⟩))
  | .entered withValues entries, .comma => some (.separated withValues entries)
  | .entered _ entries, .rBrace => some (.closed entries none)
  | .separated _ entries, .lParen => some (.maxOpened entries)
  | .separated true entries, .ident => some (.named entries token)
  | .separated false entries, .ident => some (.entered false (entries.push ⟨token, none⟩))
  | .maxOpened entries, .number => some (.maxRead entries (.literal token))
  | .maxRead entries max, .rParen => some (.maxClosed entries max)
  | .maxClosed entries max, .rBrace => some (.closed entries (some max))
  | .closed entries max, .ident => some (.finished entries max token)
  | _, _ => none

def decl? (reading : EnumReading) (close : Token) : Option EnumDecl :=
  match reading, close.kind with
  | .finished entries max name, .semi => some ⟨entries.toList, max, name, close⟩
  | _, _ => none

-- The parenthesis that would give the first entry a value is not offered.
def expected : EnumReading → List Token.Kind
  | .wanted => [.lBrace]
  | .opened => [.ident]
  | .firstNamed _ => [.comma, .rBrace]
  | .named .. => [.lParen]
  | .valueOpened .. => [.number]
  | .valued .. => [.rParen]
  | .entered .. => [.comma, .rBrace]
  | .separated .. => [.ident, .lParen]
  | .maxOpened _ => [.number]
  | .maxRead .. => [.rParen]
  | .maxClosed .. => [.rBrace]
  | .closed .. => [.ident]
  | .finished .. => [.semi]

theorem advance_eof (reading : EnumReading) (token : Token) (ended : token.kind = .eof) :
    reading.advance token = none := by
  cases reading <;> simp [advance, ended]

end EnumReading

end WireFormat
