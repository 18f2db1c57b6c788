import InputMask.CommandLine.Arguments
import InputMask.Text.Lines
import InputMask.Mask

/-!
# The command

The command masks values, one line of output for each, or checks their characters one by one. Its
values are arguments, or the lines of its input if no argument gives one. The input is read only
once all else is in order: `plan` says what is reported without input, and what is made of the input
where it is needed. The command breaks off at a value that takes the selection out of the range of
its numbers.
-/

set_option autoImplicit false

namespace InputMask.CommandLine

/-- What the command leaves behind: its exit code, its output, and what it says of errors. -/
structure Report where
  exitCode : Nat
  output : List Char := []
  errors : List Char := []

/-- What the command does with its arguments. -/
inductive Plan where
  /-- It reports without reading its input. -/
  | report (r : Report)
  /-- It reads its input and then reports. -/
  | readInput (answer : ByteArray → Report)

/-- The options for fitting that the flags ask for. -/
def Invocation.options (i : Invocation) : Options where
  lookahead := !i.flags.contains .noLookahead
  discard := !i.flags.contains .noEatInvalid
  appendLiterals := i.flags.contains .appendLiterals

/-- A verdict as a word. -/
def verdictWord : Verdict → List Char
  | .accepted => "accepted".toList
  | .rejected => "rejected".toList
  | .deferred => "deferred".toList

/-- The line that says of each character of a value whether the value could start with it. -/
def verdictLine (m : Mask) (value : List Char) : List Char :=
  [' '].intercalate (value.map fun c => Quoted.ofChar c ++ '=' :: verdictWord (m.admission c))

/-- The line for one value. -/
def Invocation.line (i : Invocation) (m : Mask) (value : List Char) : List Char :=
  if i.flags.contains .check then verdictLine m value
  else (m.apply value i.cursor i.selectionEnd).line

/-- The output for some values: a line for each. -/
def Invocation.output (i : Invocation) (m : Mask) (values : List (List Char)) : List Char :=
  values.flatMap fun value => i.line m value ++ ['\n']

/-- Whether there is a line for a value: masking it must not take the selection out of range. -/
def Invocation.answers (i : Invocation) (m : Mask) (value : List Char) : Bool :=
  i.flags.contains .check || m.staysInRange value i.cursor i.selectionEnd

/-- The report for some values: their lines, up to the first value that has none. -/
def Invocation.report (i : Invocation) (m : Mask) (values : List (List Char)) : Report :=
  if values.all (i.answers m) then { exitCode := 0, output := i.output m values }
  else
    { exitCode := 101
      output := i.output m (values.takeWhile (i.answers m))
      errors := "attempt to add with overflow\n".toList }

/-- The report of a failure and its cause. -/
def failure (what cause : List Char) : Report where
  exitCode := 1
  errors := "Error: ".toList ++ what ++ "\n\nCaused by:\n    ".toList ++ cause ++ ['\n']

/-- The report when the pattern of the mask cannot be read. -/
def badMask (source : List Char) (e : Fault) : Report :=
  failure ("Invalid mask ".toList ++ Quoted.ofText source) e.message

/-- The report when the input is no text. -/
def badInput : Report :=
  failure "Failed to read stdin".toList "stream did not contain valid UTF-8".toList

/-- The report for input that was read. -/
def Invocation.answer (i : Invocation) (m : Mask) (input : ByteArray) : Report :=
  match String.fromUTF8? input with
  | some text => i.report m (lines text.toList)
  | none => badInput

/-- The text that the command shows on how it is used. -/
def usage : List Char :=
  ("Edit masking for text input: conform keystrokes to a compact mask grammar while tracking " ++
    "the cursor.\n\n" ++
    "Usage: editmask [OPTIONS] <MASK> [VALUE]...\n\n" ++
    "Arguments:\n" ++
    "  <MASK>      Mask to apply\n" ++
    "  [VALUE]...  Values to mask; read one per line from stdin if omitted\n\n" ++
    "Options:\n" ++
    "      --no-lookahead       Do not skip ahead to a later token on a mismatch\n" ++
    "      --no-eat-invalid     Stop at the first unmatched character instead of discarding it\n" ++
    "  -a, --append-literals    Keep inserting literals once the value runs out\n" ++
    "  -c, --cursor <N>         Cursor position (selection start) in the value [default: 0]\n" ++
    "  -e, --selection-end <N>  Selection end; defaults to the cursor position\n" ++
    "      --check              Report whether each character could start a value instead of " ++
    "masking\n" ++
    "  -v, --verbose...         Increase log verbosity (-v debug, -vv trace)\n" ++
    "  -h, --help               Print help\n" ++
    "  -V, --version            Print version\n").toList

/-- What the command does with some arguments. -/
def plan (arguments : List (List Char)) : Plan :=
  match Request.ofArguments arguments with
  | .help => .report { exitCode := 0, output := usage }
  | .version => .report { exitCode := 0, output := "editmask 0.1.0\n".toList }
  | .misuse => .report { exitCode := 2, errors := usage }
  | .mask i =>
    match Mask.ofSource i.mask i.options with
    | .error e => .report (badMask i.mask e)
    | .ok m =>
      if i.values.isEmpty then .readInput (i.answer m)
      else .report (i.report m i.values)

end InputMask.CommandLine
