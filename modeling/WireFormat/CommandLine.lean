import WireFormat.Compile
import WireFormat.Outline

namespace WireFormat

-- Why a file gives no text.
inductive ReadError where
  | notFound | notADirectory | isADirectory | invalidText
  | other (text : String)
  deriving DecidableEq, Repr

def ReadError.message : ReadError → String
  | .notFound => "No such file or directory (os error 2)"
  | .notADirectory => "Not a directory (os error 20)"
  | .isADirectory => "Is a directory (os error 21)"
  | .invalidText => "stream did not contain valid UTF-8"
  | .other text => text

-- Text is UTF-8 without exception. A byte order mark is text like any other.
def decodeText (bytes : ByteArray) : Except ReadError String :=
  match String.fromUTF8? bytes with
  | some text => .ok text
  | none => .error .invalidText

-- A file that could not be read, with the path as it was given.
structure LoadError where
  path : String
  error : ReadError
  deriving DecidableEq, Repr

def LoadError.message (failure : LoadError) : String := failure.path ++ ": " ++ failure.error.message

-- Reads and compiles a file, which diagnostics call by its path.
def compileFile (read : String → Except ReadError ByteArray) (path : String) (options : Options) :
    Except LoadError Compilation :=
  match (read path).bind decodeText with
  | .error error => .error ⟨path, error⟩
  | .ok source => .ok (compile source { options with label := path })

-- What a command line asks for. Anything that is not a flag is a path.
structure Request where
  dump : Bool
  everyNote : Bool
  paths : List String
  deriving DecidableEq, Repr

-- Removes the first of some flags. A flag given again is a path.
def takeFlag (flags : List String) (arguments : List String) : Bool × List String :=
  (arguments.any flags.contains, arguments.eraseP flags.contains)

def Request.ofArguments (arguments : List String) : Request :=
  let (dump, arguments) := takeFlag ["--dump", "-d"] arguments
  let (everyNote, paths) := takeFlag ["--every-note"] arguments
  ⟨dump, everyNote, paths⟩

-- What a run writes, and whether everything was read and clean.
structure Outcome where
  clean : Bool
  output : String
  errors : String
  deriving DecidableEq, Repr

namespace Outcome

def exitCode (outcome : Outcome) : UInt32 := if outcome.clean then 0 else 1

-- One run after another.
def append (first second : Outcome) : Outcome :=
  ⟨first.clean && second.clean, first.output ++ second.output, first.errors ++ second.errors⟩

def nothing : Outcome := ⟨true, "", ""⟩

end Outcome

namespace Request

def options (request : Request) (label : String) : Options := ⟨label, !request.everyNote⟩

-- Diagnostics are written in any case, the outline only of a clean schema.
def report (request : Request) (compilation : Compilation) : Outcome :=
  let outlined :=
    match compilation.schema with
    | some (decls, _) => if request.dump && compilation.isClean then outline decls else ""
    | none => ""
  ⟨compilation.isClean, compilation.render ++ outlined, ""⟩

def runFile (request : Request) (read : String → Except ReadError ByteArray) (path : String) :
    Outcome :=
  match compileFile read path (request.options path) with
  | .ok compilation => request.report compilation
  | .error failure => ⟨false, "", failure.message ++ "\n"⟩

def runInput (request : Request) (input : ByteArray) : Outcome :=
  match decodeText input with
  | .ok source => request.report (compile source (request.options "<stdin>"))
  | .error error => ⟨false, "", "Error: " ++ error.message ++ "\n"⟩

-- Each path is a compilation of its own. The standard input counts only when no
-- path is given.
def run (request : Request) (read : String → Except ReadError ByteArray) (input : ByteArray) :
    Outcome :=
  if request.paths.isEmpty then request.runInput input
  else (request.paths.map (request.runFile read)).foldl .append .nothing

end Request

end WireFormat
