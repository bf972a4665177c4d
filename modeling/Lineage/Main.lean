import Lineage.CommandLine.Run
import Std.Time.Format

/-!
# The program

Runs the command of the argument list on the file system of the machine. Reports go to the standard
output, failures and arguments that are out of order to the standard error.
-/

namespace Lineage

/-- The failures that commands tell apart go by the codes of the system, which come with either
sign. -/
def FileError.ofSystem (e : IO.Error) : FileError :=
  match e with
  | .noFileOrDirectory .. => .notFound
  | .alreadyExists .. => .alreadyExists
  | .inappropriateType _ code _ =>
    if code = 21 || code = -21 then .isDirectory else .notDirectory
  | .invalidArgument _ code _ =>
    if code = 36 || code = -36 then .nameTooLong else .other (toString e)
  | _ => .other (toString e)

def attempt {α : Type} (path : String) (x : IO α) : IO (Except FileError α) := do
  if isPathText path then
    try
      return .ok (← x)
    catch e =>
      return .error (.ofSystem e)
  else return .error .invalidName

instance : Files IO where
  read path := attempt path (IO.FS.readFile path)
  write path text := attempt path (IO.FS.writeFile path text)
  createDirectories path :=
    if path.isEmpty then return .ok () else attempt path (IO.FS.createDirAll path)
  isPresent path := return (← attempt path (IO.FS.realPath path)).isOk
  workingDirectory := return (← IO.currentDir).toString

def timestamp : IO String := do
  let now ← Std.Time.Timestamp.now
  return (Std.Time.DateTime.ofTimestamp now .UTC).toISO8601String

end Lineage

open Lineage Lineage.CommandLine

def main (args : List String) : IO UInt32 := do
  match Invocation.parse args with
  | .error stop =>
    let out ← if stop = .usage then IO.getStderr else IO.getStdout
    stop.lines.forM out.putStrLn
    return stop.exitCode
  | .ok invocation =>
    let report ← invocation.run (← timestamp)
    report.output.forM fun line => IO.println line
    if let some reason := report.failure then IO.eprintln ("Error: " ++ reason)
    return report.exitCode
