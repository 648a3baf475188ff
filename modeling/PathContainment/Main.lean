import PathContainment.CommandLine.Outcome

/-!
# The program

Reads the settings and the pattern source from the system, and writes the outcome to it.
-/

namespace PathContainment.Program

/-- The bytes of a file, or why there are none. -/
def readFileBytes (name : String) : IO (Except ReadFault ByteArray) := do
  match ← (IO.FS.Handle.mk name .read).toBaseIO with
  | .error e => return .error (.unopened (toString e))
  | .ok handle =>
    match ← handle.readBinToEnd.toBaseIO with
    | .error e => return .error (.unread (toString e))
    | .ok bytes => return .ok bytes

/-- All bytes of the standard input. -/
partial def readInputBytes (input : IO.FS.Stream) (found : ByteArray) : IO ByteArray := do
  let chunk ← input.read 65536
  if chunk.isEmpty then return found
  readInputBytes input (found ++ chunk)

def readSource : Source → IO (Except ReadFault ByteArray)
  | .file name => readFileBytes name
  | .input => do
    try
      return .ok (← readInputBytes (← IO.getStdin) .empty)
    catch e =>
      return .error (.unread (toString e))

def readSettings : IO Settings := do
  match ← IO.getEnv "HOME" with
  | none => return {}
  | some home => return Settings.ofBytes (← readFileBytes (home ++ "/" ++ Settings.fileName)).toOption

/-- The exit status for the arguments, after what there is to write has been written. -/
def run (arguments : List String) : IO UInt32 := do
  let request := Request.ofArguments arguments
  let settings ← readSettings
  let found ← match request.source? settings with
    | some source => readSource source
    | none => pure (.ok .empty)
  let outcome := request.outcome settings found
  (← IO.getStdout).putStr outcome.output
  if let some error := outcome.error then (← IO.getStderr).putStr error.line
  return outcome.status.toUInt32

end PathContainment.Program

def main (arguments : List String) : IO UInt32 := PathContainment.Program.run arguments
