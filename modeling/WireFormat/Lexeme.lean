import WireFormat.Token

namespace WireFormat

-- A lexeme at the front of a text: what it is and how many characters it takes.
structure Lexeme where
  kind : Token.Kind
  length : Nat
  deriving DecidableEq, Repr

namespace Lexeme

def isBlank (c : Char) : Bool := c = ' ' || c = '\t' || c = '\r' || c = '\n' || c = '\x0c'

def isHexDigit (c : Char) : Bool := c.isDigit || 'a' ≤ c && c ≤ 'f' || 'A' ≤ c && c ≤ 'F'

def isIdentStart (c : Char) : Bool := c.isAlpha || c = '_'

def isIdentChar (c : Char) : Bool := c.isAlphanum || c = '_'

-- How many characters of a class the text starts with.
def run (inside : Char → Bool) (text : List Char) : Nat := (text.takeWhile inside).length

-- Each of the following is the length of the longest lexeme of its form at the
-- front of the text, and zero when there is none.

-- `digits^digits`, then `-digits` if that stands there without a gap.
def powerLength (text : List Char) : Nat :=
  let base := run Char.isDigit text
  match text.drop base with
  | '^' :: raised =>
    let exponent := run Char.isDigit raised
    if base = 0 || exponent = 0 then 0
    else match raised.drop exponent with
      | '-' :: less =>
        let taken := run Char.isDigit less
        base + 1 + exponent + (if taken = 0 then 0 else 1 + taken)
      | _ => base + 1 + exponent
  | _ => 0

-- A lone `0x` is the number 0 before a name.
def numberLength (text : List Char) : Nat :=
  match text with
  | '0' :: x :: digits =>
    if (x = 'x' || x = 'X') && run isHexDigit digits ≠ 0 then 2 + run isHexDigit digits
    else run Char.isDigit text
  | _ => run Char.isDigit text

def identLength : List Char → Nat
  | c :: rest => if isIdentStart c then 1 + run isIdentChar rest else 0
  | [] => 0

-- A keyword is not one when an identifier character follows it. No keyword is
-- the beginning of another, so the table's order does not matter.
def keyword? (text : List Char) : Option Lexeme :=
  Token.Kind.keywords.findSome? fun (word, kind) =>
    let rest := text.drop word.length
    if word.toList.isPrefixOf text && !rest.head?.any isIdentChar then some ⟨kind, word.length⟩
    else none

-- Takes at least one character: what starts no other lexeme is an unknown one.
def first (text : List Char) : Lexeme :=
  if powerLength text ≠ 0 then ⟨.power, powerLength text⟩
  else if numberLength text ≠ 0 then ⟨.number, numberLength text⟩
  else match keyword? text with
    | some lexeme => lexeme
    | none =>
      if identLength text ≠ 0 then ⟨.ident, identLength text⟩
      else match text with
        | '.' :: '.' :: _ => ⟨.dots, 2⟩
        | c :: _ => ⟨(Token.Kind.punctuation? (String.singleton c)).getD .unknown, 1⟩
        | [] => ⟨.unknown, 1⟩

theorem keyword_length_pos (text : List Char) (lexeme : Lexeme)
    (found : keyword? text = some lexeme) : 0 < lexeme.length := by
  obtain ⟨⟨word, kind⟩, listed, eq⟩ := List.exists_of_findSome?_eq_some found
  have nonempty : ∀ entry ∈ Token.Kind.keywords, 0 < entry.1.length := by decide
  simp only [Option.ite_none_right_eq_some, Option.some.injEq] at eq
  obtain ⟨_, rfl⟩ := eq
  exact nonempty _ listed

theorem first_length_pos (text : List Char) : 0 < (first text).length := by
  unfold first
  split
  · exact Nat.pos_of_ne_zero ‹_›
  · split
    · exact Nat.pos_of_ne_zero ‹_›
    · split
      · exact keyword_length_pos _ _ ‹_›
      · split
        · exact Nat.pos_of_ne_zero ‹_›
        · split <;> simp

end Lexeme

end WireFormat
