import WireFormat.Check.Schema
import WireFormat.Reading
import WireFormat.Tokens

namespace WireFormat

-- `label` names the source in diagnostics. With `noteOnce`, only the first dotted
-- name that does not resolve carries the note.
structure Options where
  label : String := "<input>"
  noteOnce : Bool := true
  deriving DecidableEq, Repr

def LexicalError.diagnostic (error : LexicalError) : Diagnostic :=
  .reported .lexical (.endAt error.line) error.message none

def SyntaxError.diagnostic (error : SyntaxError) : Diagnostic :=
  .reported .grammar error.token error.message none

-- Declarations and what they resolve to are there unless the source has no tokens.
structure Compilation where
  label : String
  schema : Option (List Decl × Resolution)
  diagnostics : List Diagnostic
  deriving Repr

-- What could be read is analyzed in any case; a syntax error is reported last.
def compile (source : String) (options : Options) : Compilation :=
  match tokenize source with
  | .error error => ⟨options.label, none, [error.diagnostic]⟩
  | .ok tokens =>
    let parsed := parse tokens
    let (resolution, findings) := analyze parsed.decls
    ⟨options.label, some (parsed.decls, resolution),
      report options.noteOnce false findings ++ parsed.error.toList.map SyntaxError.diagnostic⟩

namespace Compilation

def isClean (compilation : Compilation) : Bool := compilation.diagnostics.isEmpty

def render (compilation : Compilation) : String :=
  Diagnostic.renderAll compilation.label compilation.diagnostics

end Compilation

theorem compile_label (source : String) (options : Options) : (compile source options).label = options.label := by
  unfold compile
  split <;> rfl

end WireFormat
