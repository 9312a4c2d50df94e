import WireFormat.Comment
import WireFormat.Lexeme

namespace WireFormat

inductive LexicalError where
  | unclosedComment (line : Nat)
  deriving DecidableEq, Repr

def LexicalError.message : LexicalError → String
  | .unclosedComment _ => "EOF in comment"

def LexicalError.line : LexicalError → Nat
  | .unclosedComment line => line

def lineAfter (line : Nat) (c : Char) : Nat := if c = '\n' then line + 1 else line

-- Cuts a masked text into tokens. Blanks and line comments stand between them;
-- only blanks hold newlines, so only they move the line.
def scan (line : Nat) (out : Array Token) (text : List Char) : Array Token :=
  match text with
  | [] => out.push (Token.endAt line)
  | c :: rest =>
    if Lexeme.isBlank c then scan (lineAfter line c) out rest
    else if c = '/' ∧ rest.head? = some '/' then scan line out (rest.dropWhile (· ≠ '\n'))
    else
      let lexeme := Lexeme.first (c :: rest)
      scan line (out.push ⟨lexeme.kind, String.ofList ((c :: rest).take lexeme.length), line⟩)
        ((c :: rest).drop lexeme.length)
termination_by text.length
decreasing_by
  · simp
  · have shorter := (List.dropWhile_sublist (l := rest) (fun x => decide (x ≠ '\n'))).length_le
    simp only [List.length_cons]
    omega
  · have positive := Lexeme.first_length_pos (c :: rest)
    simp only [List.length_drop, List.length_cons]
    omega

theorem scan_append (line : Nat) (before out : Array Token) (text : List Char) :
    scan line (before ++ out) text = before ++ scan line out text := by
  fun_induction scan line out text with
  | case1 => simp [scan]
  | case2 line out c rest blank ih => rw [scan, if_pos blank, ih]
  | case3 line out c rest blank comment ih => rw [scan, if_neg blank, if_pos comment, ih]
  | case4 line out c rest blank comment lexeme ih =>
    rw [scan, if_neg blank, if_neg comment, ← ih, ← Array.push_append]

-- All tokens of a source, the end of the input last.
def tokenize (source : String) : Except LexicalError (List Token) :=
  match mask? source.toList with
  | none => .error (.unclosedComment (lastLine source.toList))
  | some text => .ok (scan 1 #[] text).toList

end WireFormat
