import InputMask.CommandLine.Program

/-!
# The command's entry point

Reads the input where the plan asks for it, writes the report, and exits with its code.
-/

set_option autoImplicit false

namespace InputMask.CommandLine

/-- Reads a stream to its end. -/
partial def readToEnd (stream : IO.FS.Stream) (before : ByteArray) : IO ByteArray := do
  let chunk ← stream.read 65536
  if chunk.isEmpty then return before
  readToEnd stream (before ++ chunk)

/-- Writes a report and gives its exit code. -/
def Report.emit (r : Report) : IO UInt32 := do
  (← IO.getStdout).putStr (String.ofList r.output)
  (← IO.getStderr).putStr (String.ofList r.errors)
  return r.exitCode.toUInt32

end InputMask.CommandLine

open InputMask.CommandLine in
/-- Runs the command with its arguments. -/
def main (arguments : List String) : IO UInt32 := do
  match plan (arguments.map String.toList) with
  | .report r => r.emit
  | .readInput answer => (answer (← readToEnd (← IO.getStdin) .empty)).emit
