import Mathlib.Computability.Language
import WireFormat.Reading

open scoped Computability

namespace WireFormat

-- The grammar of schemas, as a language over the kinds of tokens. `n` is how many
-- bodies may still be opened.
namespace Grammar

def tok (kind : Token.Kind) : Language Token.Kind := {[kind]}

def optional (part : Language Token.Kind) : Language Token.Kind := 1 + part

def scalar : Language Token.Kind := {kinds | ∃ type, kinds = [.scalar type]}

def name : Language Token.Kind := tok .ident * (tok .dot * tok .ident)∗

def size : Language Token.Kind := tok .number + tok .power + name

def bounds : Language Token.Kind :=
  tok .lBracket * size * tok .rBracket + tok .less * size * tok .dots * size * tok .greater

def type : Language Token.Kind := scalar + name

def line : Language Token.Kind := type * tok .ident * optional bounds * tok .semi

def external : Language Token.Kind := tok .externWord * tok .ident * tok .semi

def paren : Language Token.Kind := tok .lParen * tok .number * tok .rParen

def entry (withValues : Bool) : Language Token.Kind :=
  if withValues then tok .ident * paren else tok .ident

def entries (withValues : Bool) : Language Token.Kind :=
  entry withValues * (tok .comma * entry withValues)∗ * optional (tok .comma * paren)

def enum : Language Token.Kind :=
  tok .enumWord * tok .lBrace * (entries false + entries true) * tok .rBrace * tok .ident * tok .semi

def reference (head : Language Token.Kind) : Language Token.Kind :=
  head * optional (tok .ident * optional bounds) * tok .semi

def body : Language Token.Kind :=
  tok .semi + tok .signedWord * name * tok .semi * optional (reference name) + reference type

def label : Language Token.Kind := tok .caseWord * tok .ident * tok .colon

def arm : Language Token.Kind := label * label∗ * body

def select : Language Token.Kind :=
  tok .selectWord * tok .lParen * name * tok .rParen * tok .lBrace * (arm * arm∗) * tok .rBrace *
    optional (tok .ident) * tok .semi

def member : Nat → Language Token.Kind
  | 0 => line
  | n + 1 =>
    line + tok .structWord * tok .lBrace * (member n)∗ * tok .rBrace * tok .ident * tok .semi + select

def decl : Language Token.Kind := external + enum + member maxNesting

def schema : Language Token.Kind := decl * decl∗

end Grammar

end WireFormat
