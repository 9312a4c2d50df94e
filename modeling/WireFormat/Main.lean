import WireFormat.CommandLine

namespace WireFormat

def ReadError.ofSystem : IO.Error → ReadError
  | .noFileOrDirectory .. => .notFound
  | .inappropriateType _ code _ => if code = 21 then .isADirectory else .notADirectory
  | error => .other (toString error)

def readFile (path : String) : IO (Except ReadError ByteArray) := do
  match ← (IO.FS.readBinFile path).toBaseIO with
  | .ok bytes => return .ok bytes
  | .error error => return .error (.ofSystem error)

partial def readAll (stream : IO.FS.Stream) (bytes : ByteArray) : IO ByteArray := do
  let more ← stream.read 65536
  if more.isEmpty then return bytes
  readAll stream (bytes ++ more)

end WireFormat

-- Checks the schema files at the given paths, or the standard input without one:
-- `[--dump | -d] [--every-note] [path ...]`.
def main (arguments : List String) : IO UInt32 := do
  let request := WireFormat.Request.ofArguments arguments
  let sources ← request.paths.mapM fun path => return (path, ← WireFormat.readFile path)
  let input ← if request.paths.isEmpty then WireFormat.readAll (← IO.getStdin) .empty
    else pure .empty
  let outcome := request.run (fun path => (sources.lookup path).getD (.error .notFound)) input
  let out ← IO.getStdout
  out.putStr outcome.output
  out.flush
  IO.eprint outcome.errors
  return outcome.exitCode
