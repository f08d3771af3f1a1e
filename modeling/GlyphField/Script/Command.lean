import GlyphField.Decimal.Shortest

/-!
# GlyphField.Script.Command

The commands of an activation script. A piece of a script that cannot be used is still a
command, one without effect: `unknown` where the name is not known, `malformed` where the name is
known, or missing, and the rest does not fit it.

Every command has a label, its normal form in text.
-/

namespace GlyphField

/-- The names a command can have. -/
inductive Verb where
  | resonate
  | entangle
  | amplify
  | phaseShift
  | stabilize
  | decay
deriving DecidableEq, Repr

/-- What a command entangles its glyph with. -/
inductive Target where
  /-- The first declared parent. -/
  | parent
  /-- The glyph with this id. -/
  | glyph (id : String)
deriving DecidableEq, Repr

/-- What is wrong with a malformed command. -/
inductive CommandFault where
  | missingParenthesis
  | emptyName
  | missingArguments
  | notFinite
  | notANumber
  | negativeFactor
  | decayOutOfRange
  | unexpectedArgument
  | notAGlyphId
deriving DecidableEq, Repr

/-- A command of an activation script. -/
inductive Command where
  | resonate (factor : Float)
  | entangle (target : Target)
  | amplify (factor : Float)
  | phaseShift (degrees : Float)
  | stabilize
  | decay (fraction : Float)
  | unknown (name : String)
  | malformed (name : String) (argument : String) (fault : CommandFault)
deriving DecidableEq

namespace Verb

/-- The name in a script. -/
def name : Verb → String
  | .resonate => "resonate"
  | .entangle => "entangle"
  | .amplify => "amplify"
  | .phaseShift => "phase_shift"
  | .stabilize => "stabilize"
  | .decay => "decay"

/-- Every verb. -/
def all : List Verb := [.resonate, .entangle, .amplify, .phaseShift, .stabilize, .decay]

/-- The verb with this name. -/
def ofName? (s : String) : Option Verb := all.find? fun v => v.name = s

theorem ofName?_name (v : Verb) : ofName? v.name = some v := by
  cases v <;> decide

theorem name_of_ofName? {s : String} {v : Verb} (h : ofName? s = some v) : v.name = s := by
  simpa using List.find?_some h

end Verb

/-- The wording of a fault. -/
def CommandFault.reason : CommandFault → String
  | .missingParenthesis => "missing closing parenthesis"
  | .emptyName => "empty command name"
  | .missingArguments => "missing argument list"
  | .notFinite => "argument is not finite"
  | .notANumber => "argument is not a number"
  | .negativeFactor => "factor must be non-negative"
  | .decayOutOfRange => "decay factor must be in [0, 1]"
  | .unexpectedArgument => "takes no argument"
  | .notAGlyphId => "target is not a glyph id"

/-- The target as an argument. -/
def Target.text : Target → String
  | .parent => "parent"
  | .glyph id => id

namespace Command

/-- A call with an argument, in normal form. -/
def call (name argument : String) : String := name ++ "(" ++ argument ++ ")"

/-- The text of a command, in normal form. -/
def label : Command → String
  | .resonate x => call Verb.resonate.name (Decimal.shortest x)
  | .entangle t => call Verb.entangle.name t.text
  | .amplify x => call Verb.amplify.name (Decimal.shortest x)
  | .phaseShift x => call Verb.phaseShift.name (Decimal.shortest x)
  | .stabilize => call Verb.stabilize.name ""
  | .decay x => call Verb.decay.name (Decimal.shortest x)
  | .unknown name => "unknown:" ++ name
  | .malformed name argument _ => "malformed:" ++ call name argument

/-- Whether a command has an effect. -/
def isUsable : Command → Bool
  | .unknown _ => false
  | .malformed _ _ _ => false
  | _ => true

end Command

end GlyphField
