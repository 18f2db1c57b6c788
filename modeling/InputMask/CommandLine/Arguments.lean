/-!
# The command's arguments

The command takes a mask, any number of values, and options in between. Arguments are read from left
to right, and the first one that asks for help, asks for the version or is wrong settles the matter.

A long option is two dashes and a name; a short one is a dash and a letter, and short ones can share
a dash. An option with a number takes it from the rest of its own argument, after an equals sign if
the option is long, or else from the next argument, which must not look like an option. A lone dash
is a plain argument, and after two dashes every argument is.
-/

set_option autoImplicit false

namespace InputMask.CommandLine

/-! ## Options -/

/-- An option that stands alone. -/
inductive Flag where
  | noLookahead
  | noEatInvalid
  | appendLiterals
  | check
  | verbose
  | help
  | version
  deriving DecidableEq

/-- An option that takes a number. -/
inductive Setting where
  | cursor
  | selectionEnd
  deriving DecidableEq

/-- The long names of the flags. -/
def longFlags : List (List Char × Flag) :=
  [("no-lookahead".toList, .noLookahead), ("no-eat-invalid".toList, .noEatInvalid),
   ("append-literals".toList, .appendLiterals), ("check".toList, .check),
   ("verbose".toList, .verbose), ("help".toList, .help), ("version".toList, .version)]

/-- The letters of the flags. -/
def shortFlags : List (Char × Flag) :=
  [('a', .appendLiterals), ('v', .verbose), ('h', .help), ('V', .version)]

/-- The long names of the settings. -/
def longSettings : List (List Char × Setting) :=
  [("cursor".toList, .cursor), ("selection-end".toList, .selectionEnd)]

/-- The letters of the settings. -/
def shortSettings : List (Char × Setting) := [('c', .cursor), ('e', .selectionEnd)]

/-! ## Numbers -/

/-- The greatest number that a setting takes. -/
def greatestNumber : Nat := 0xffffffffffffffff

/-- The value of some decimal digits. -/
def valueOfDigits (digits : List Char) : Nat :=
  digits.foldl (fun n c => 10 * n + (c.toNat - '0'.toNat)) 0

/-- Reads a number: decimal digits, at least one, after an optional plus sign. -/
def number? (text : List Char) : Option Nat :=
  let digits := match text with
    | '+' :: rest => rest
    | _ => text
  if !digits.isEmpty && digits.all Char.isDigit && valueOfDigits digits ≤ greatestNumber then
    some (valueOfDigits digits)
  else none

/-! ## Reading the arguments -/

/-- What the command is asked to do with values. -/
structure Invocation where
  mask : List Char
  values : List (List Char)
  flags : List Flag
  cursor : Nat
  selectionEnd : Nat

/-- What some arguments ask for. -/
inductive Request where
  | mask (i : Invocation)
  | help
  | version
  /-- The arguments do not make sense. -/
  | misuse

/-- How far the reading of the arguments has come. -/
structure ReadSoFar where
  /-- The plain arguments, in order. -/
  plain : List (List Char) := []
  flags : List Flag := []
  cursor : Option Nat := none
  selectionEnd : Option Nat := none
  /-- The setting that the next argument gives the number of. -/
  awaiting : Option Setting := none
  /-- Whether two dashes have come. -/
  onlyPlain : Bool := false

namespace ReadSoFar

/-- Takes a flag. Each can come once, only `verbose` any number of times. -/
def flag (p : ReadSoFar) : Flag → Except Request ReadSoFar
  | .help => .error .help
  | .version => .error .version
  | .verbose => .ok p
  | f => if p.flags.contains f then .error .misuse else .ok { p with flags := f :: p.flags }

/-- Takes a setting and the text of its number. Each can come once. -/
def setting (p : ReadSoFar) (s : Setting) (text : List Char) : Except Request ReadSoFar :=
  let p := { p with awaiting := none }
  match s, p.cursor, p.selectionEnd, number? text with
  | .cursor, none, _, some n => .ok { p with cursor := some n }
  | .selectionEnd, _, none, some n => .ok { p with selectionEnd := some n }
  | _, _, _, _ => .error .misuse

/-- Takes a long option, given what follows the two dashes. -/
def long (p : ReadSoFar) (text : List Char) : Except Request ReadSoFar :=
  let name := text.takeWhile (· != '=')
  match longFlags.lookup name, longSettings.lookup name, text.dropWhile (· != '=') with
  | some f, _, [] => p.flag f
  | _, some s, [] => .ok { p with awaiting := some s }
  | _, some s, _ :: number => p.setting s number
  | _, _, _ => .error .misuse

/-- Takes short options, given what follows the dash. -/
def short (p : ReadSoFar) : List Char → Except Request ReadSoFar
  | [] => .ok p
  | c :: cs =>
    match shortFlags.lookup c, shortSettings.lookup c, cs with
    | some f, _, _ => (p.flag f).bind fun p => p.short cs
    | _, some s, [] => .ok { p with awaiting := some s }
    | _, some s, '=' :: number => p.setting s number
    | _, some s, number => p.setting s number
    | none, none, _ => .error .misuse

/-- Takes a plain argument: the number of a setting that waits for it, or else a mask or value. -/
def plainArgument (p : ReadSoFar) (text : List Char) : Except Request ReadSoFar :=
  match p.awaiting with
  | some s => p.setting s text
  | none => .ok { p with plain := p.plain ++ [text] }

/-- Takes one argument. -/
def argument (p : ReadSoFar) (text : List Char) : Except Request ReadSoFar :=
  if p.onlyPlain then p.plainArgument text
  else
    match text with
    | '-' :: '-' :: rest =>
      if p.awaiting.isSome then .error .misuse
      else if rest.isEmpty then .ok { p with onlyPlain := true }
      else p.long rest
    | '-' :: c :: rest => if p.awaiting.isSome then .error .misuse else p.short (c :: rest)
    | _ => p.plainArgument text

/-- What the arguments ask for, when all were taken. -/
def request (p : ReadSoFar) : Request :=
  match p.awaiting, p.plain with
  | none, mask :: values =>
    .mask
      { mask, values
        flags := p.flags
        cursor := p.cursor.getD 0
        selectionEnd := p.selectionEnd.getD (p.cursor.getD 0) }
  | _, _ => .misuse

end ReadSoFar

/-- What some arguments ask for. -/
def Request.ofArguments (arguments : List (List Char)) : Request :=
  match arguments.foldlM ReadSoFar.argument {} with
  | .ok p => p.request
  | .error r => r

end InputMask.CommandLine
