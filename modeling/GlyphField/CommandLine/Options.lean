import GlyphField.Decimal.Numeral
import GlyphField.Vault.Path

/-!
# GlyphField.CommandLine.Options

Reading the arguments of the command line:

* an action is named once, and only `activate` takes further arguments, at least one;
* switches may stand before and behind the action; behind `--` nothing is a switch any more, and
  `--` must not stand before the action;
* a value follows its switch as the next argument, which must not look like a switch, or behind
  an equals sign;
* a switch is given at most once before the action and at most once behind it, `--file` as often
  as wanted; what is given behind the action counts over what is given before.
-/

namespace GlyphField

open GlyphField.Text (cut?)

/-! ## What is asked for -/

/-- What to do. -/
inductive Action where
  | list
  | activate (ids : List String)
  | status
  | selfTest
deriving DecidableEq, Repr

/-- The arguments, read. -/
structure Options where
  action : Action
  vault : Option Path := none
  files : List Path := []
  traceEnabled : Bool := true
  traceCapacity : Nat := 1024
deriving DecidableEq, Repr

/-- Why the arguments name nothing to do. -/
inductive UsageError where
  /-- Help is asked for. -/
  | help
  | unknownSwitch (argument : String)
  | missingValue (switch : String)
  | unexpectedValue (switch : String)
  | invalidValue (switch value : String)
  | repeated (switch : String)
  | missingAction
  | unknownAction (name : String)
  | unexpectedArgument (argument : String)
  | missingIds
deriving DecidableEq, Repr

namespace UsageError

/-- How the program is used. -/
def usage : String :=
  "usage: glyph [--vault DIR] [--file PATH]... [--verbose] [--no-trace] [--trace-capacity N]\n" ++
  "             list | activate ID... | status | selftest\n"

/-- The wording of an error. -/
def message : UsageError → String
  | .help => usage
  | .unknownSwitch argument => "unknown option `" ++ argument ++ "`"
  | .missingValue switch => "`" ++ switch ++ "` needs a value"
  | .unexpectedValue switch => "`" ++ switch ++ "` takes no value"
  | .invalidValue switch value => "`" ++ value ++ "` is no value of `" ++ switch ++ "`"
  | .repeated switch => "`" ++ switch ++ "` is given twice"
  | .missingAction => "no command is given"
  | .unknownAction name => "unknown command `" ++ name ++ "`"
  | .unexpectedArgument argument => "unexpected argument `" ++ argument ++ "`"
  | .missingIds => "no glyph id is given"

/-- The exit code of the program. -/
def exitCode : UsageError → UInt8
  | .help => 0
  | _ => 2

end UsageError

/-! ## Switches -/

/-- What can be switched. -/
inductive Switch where
  | vault
  | file
  | verbose
  | noTrace
  | traceCapacity
  | help
  | version
deriving DecidableEq, Repr

namespace Switch

/-- The long name. -/
def name : Switch → String
  | .vault => "--vault"
  | .file => "--file"
  | .verbose => "--verbose"
  | .noTrace => "--no-trace"
  | .traceCapacity => "--trace-capacity"
  | .help => "--help"
  | .version => "--version"

/-- The short names. -/
def shortNames : List (String × Switch) := [("-v", .verbose), ("-h", .help), ("-V", .version)]

/-- Every switch. -/
def all : List Switch := [.vault, .file, .verbose, .noTrace, .traceCapacity, .help, .version]

/-- The switch with this name. -/
def ofName? (s : String) : Option Switch :=
  (all.find? fun w => w.name = s).or (shortNames.lookup s)

/-- Whether a value belongs to the switch. -/
def takesValue : Switch → Bool
  | .vault => true
  | .file => true
  | .traceCapacity => true
  | _ => false

end Switch

/-- The greatest number that is read. -/
def maxNumber : Nat := 18446744073709551615

/-- The switches given in one place. -/
structure Given where
  vault : Option Path := none
  files : List Path := []
  verbose : Bool := false
  noTrace : Bool := false
  traceCapacity : Option Nat := none

namespace Given

/-- A path, which must not be empty. -/
def pathOf (w : Switch) (value : String) : Except UsageError Path :=
  if value.isEmpty then .error (.invalidValue w.name value) else .ok (Path.ofString value)

/-- A number. -/
def numberOf (w : Switch) (value : String) : Except UsageError Nat :=
  match Decimal.readNat? maxNumber value.toList with
  | some n => .ok n
  | none => .error (.invalidValue w.name value)

/-- Refuses a switch that has been given. -/
def once (w : Switch) (given : Bool) : Except UsageError Unit :=
  if given then .error (.repeated w.name) else .ok ()

/-- Adds a switch with its value. -/
def add (g : Given) (w : Switch) (value : String) : Except UsageError Given := do
  match w with
  | .vault => once w g.vault.isSome; return { g with vault := ← pathOf w value }
  | .file => return { g with files := g.files ++ [← pathOf w value] }
  | .verbose => once w g.verbose; return { g with verbose := true }
  | .noTrace => once w g.noTrace; return { g with noTrace := true }
  | .traceCapacity =>
    once w g.traceCapacity.isSome; return { g with traceCapacity := ← numberOf w value }
  | .help => .error .help
  | .version => .error .help

/-- What is given in two places: the later one counts, and switches without value add up. -/
def merge (earlier later : Given) : Given where
  vault := later.vault.or earlier.vault
  files := if later.files.isEmpty then earlier.files else later.files
  verbose := later.verbose || earlier.verbose
  noTrace := later.noTrace || earlier.noTrace
  traceCapacity := later.traceCapacity.or earlier.traceCapacity

end Given

/-! ## Arguments -/

/-- What an argument is. -/
inductive Argument where
  /-- Ends the switches. -/
  | terminator
  | switch (w : Switch) (value : Option String)
  | unknownSwitch
  | plain

namespace Argument

/-- Whether an argument looks like a switch. A single dash does not. -/
def looksLikeSwitch (s : String) : Bool := s.toList.head? = some '-' && s ≠ "-"

/-- The name in an argument, and the value behind an equals sign. Only long names have one. -/
def nameAndValue (s : String) : String × Option String :=
  match s.toList, cut? '=' s.toList with
  | '-' :: '-' :: _, some (name, value) => (String.ofList name, some (String.ofList value))
  | _, _ => (s, none)

/-- The kind of an argument. -/
def ofString (s : String) : Argument :=
  if s = "--" then .terminator
  else if looksLikeSwitch s then
    let (name, value) := nameAndValue s
    match Switch.ofName? name with
    | some w => .switch w value
    | none => .unknownSwitch
  else .plain

end Argument

/-! ## Reading -/

/-- The action with this name. -/
def Action.ofName? : String → Option Action
  | "list" => some .list
  | "activate" => some (.activate [])
  | "status" => some .status
  | "selftest" => some .selfTest
  | _ => none

/-- What has been read. -/
structure Scan where
  /-- The switches before the action. -/
  before : Given := {}
  action : Option Action := none
  /-- The switches behind the action. -/
  behind : Given := {}

namespace Scan

/-- Adds a switch. The version is asked for only before the action. -/
def give (s : Scan) (w : Switch) (value : String) : Except UsageError Scan :=
  match s.action, w with
  | none, w => (s.before.add w value).map fun g => { s with before := g }
  | some _, .version => .error (.unknownSwitch w.name)
  | some _, w => (s.behind.add w value).map fun g => { s with behind := g }

/-- Adds an argument that is no switch to the action. -/
def take (s : Scan) (argument : String) : Except UsageError Scan :=
  match s.action with
  | some (.activate ids) => .ok { s with action := some (.activate (ids ++ [argument])) }
  | _ => .error (.unexpectedArgument argument)

/-- Adds an argument that is no switch: the name of the action, or something for it. -/
def plain (s : Scan) (argument : String) : Except UsageError Scan :=
  match s.action with
  | some _ => s.take argument
  | none =>
    match Action.ofName? argument with
    | some a => .ok { s with action := some a }
    | none => .error (.unknownAction argument)

/-- What asking for help in words leads to: the name of one command may follow. -/
def helpOn : List String → UsageError
  | [] => .help
  | [topic] =>
    if topic = "help" || (Action.ofName? topic).isSome then .help else .unknownAction topic
  | _ :: argument :: _ => .unexpectedArgument argument

/-- Reads the arguments in order. -/
def read : List String → Scan → Except UsageError Scan
  | [], s => .ok s
  | argument :: rest, s =>
    match Argument.ofString argument with
    | .terminator => rest.foldlM take s
    | .unknownSwitch => .error (.unknownSwitch argument)
    | .plain =>
      if s.action.isNone && argument = "help" then .error (helpOn rest)
      else (s.plain argument).bind (read rest)
    | .switch w (some value) =>
      if w.takesValue then (s.give w value).bind (read rest)
      else .error (.unexpectedValue w.name)
    | .switch w none =>
      if w.takesValue then
        match rest with
        | [] => .error (.missingValue w.name)
        | value :: rest =>
          if Argument.looksLikeSwitch value then .error (.missingValue w.name)
          else (s.give w value).bind (read rest)
      else (s.give w "").bind (read rest)

/-- What the arguments ask for. -/
def finish (s : Scan) : Except UsageError Options :=
  match s.action with
  | none => .error .missingAction
  | some (.activate []) => .error .missingIds
  | some action =>
    let g := s.before.merge s.behind
    .ok
      { action
        vault := g.vault
        files := g.files
        traceEnabled := !g.noTrace
        traceCapacity := g.traceCapacity.getD 1024 }

end Scan

/-- Reads the arguments of the program. -/
def Options.ofArguments (arguments : List String) : Except UsageError Options :=
  (Scan.read arguments {}).bind Scan.finish

end GlyphField
