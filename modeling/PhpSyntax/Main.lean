import PhpSyntax.Command

/-!
The command line: `parse [--tokens] [--no-tree] [--no-short-open-tag] [--plain] PATH`.
-/
namespace PhpSyntax

/-- Whether an error code, which may come negated, is a given number. -/
def isNumber (number code : UInt32) : Bool := code == number || code == 0 - number

def readError : IO.Error → ReadError
  | .noFileOrDirectory .. => .notFound
  | .permissionDenied .. => .permissionDenied
  | .inappropriateType _ code message =>
    if isNumber 20 code then .notADirectory
    else if isNumber 21 code then .isDirectory
    else .other message
  | .invalidArgument _ code message =>
    if isNumber 36 code then .nameTooLong else .other message
  | e => .other (toString e)

/-- Reads the file, runs the command and writes what it says. -/
def execute (c : Command) : IO UInt32 := do
  let input ← (Except.ok <$> IO.FS.readBinFile c.path).catchExceptions fun e =>
    return .error (readError e)
  let outcome := c.run input
  let stdout ← IO.getStdout
  for line in outcome.output do stdout.putStrLn line
  let stderr ← IO.getStderr
  for d in outcome.diagnostics do stderr.putStrLn d.render
  for line in outcome.closing do stderr.putStrLn line
  return outcome.exitCode.toUInt32

end PhpSyntax

def main (arguments : List String) : IO UInt32 := do
  let command? := match arguments with
    | "parse" :: rest => PhpSyntax.Command.ofArguments? rest
    | _ => none
  match command? with
  | some c => PhpSyntax.execute c
  | none =>
    (← IO.getStderr).putStrLn
      "usage: parse [--tokens] [--no-tree] [--no-short-open-tag] [--plain] PATH"
    return PhpSyntax.Outcome.misuse.exitCode.toUInt32
