import GlyphField.Decimal.Numeral
import GlyphField.Glyph.Id
import GlyphField.Script.Command
import GlyphField.Text.Blank
import GlyphField.Text.Split

/-!
# GlyphField.Script.Reader

Reading an activation script: pieces between bars, each a name with an argument in parentheses.
The name stands before the first opening parenthesis, the argument between that and a closing
parenthesis at the very end of the piece; blanks around either do not count. Reading never
fails: an unusable piece becomes a command without effect.
-/

namespace GlyphField

open GlyphField.Text (trim split cut? dropLast?)

namespace Command

/-! ## Arguments -/

/-- A finite number. -/
def readNumber (argument : List Char) : Except CommandFault Float :=
  match Decimal.readFloat? argument with
  | none => .error .notANumber
  | some x => if x.isFinite then .ok x else .error .notFinite

/-- A finite number that is not negative. -/
def readFactor (argument : List Char) : Except CommandFault Float :=
  (readNumber argument).bind fun x => if x < 0 then .error .negativeFactor else .ok x

/-- A number from zero to one. -/
def readFraction (argument : List Char) : Except CommandFault Float :=
  (readNumber argument).bind fun x =>
    if 0 ≤ x ∧ x ≤ 1 then .ok x else .error .decayOutOfRange

/-- The first parent, or a glyph by its id. -/
def readTarget (argument : List Char) : Except CommandFault Target :=
  let s := String.ofList argument
  if s = "parent" then .ok .parent
  else if GlyphId.isValid s then .ok (.glyph s)
  else .error .notAGlyphId

/-- The command of a verb with this argument. -/
def ofVerb (v : Verb) (argument : List Char) : Except CommandFault Command :=
  match v with
  | .resonate => (readFactor argument).map .resonate
  | .entangle => (readTarget argument).map .entangle
  | .amplify => (readFactor argument).map .amplify
  | .phaseShift => (readNumber argument).map .phaseShift
  | .stabilize => if argument.isEmpty then .ok .stabilize else .error .unexpectedArgument
  | .decay => (readFraction argument).map .decay

/-! ## Pieces -/

/-- The command with this name and, between parentheses, this argument. -/
def ofCall (name : List Char) (argument? : Option (List Char)) : Command :=
  let fault := Command.malformed (String.ofList name) (String.ofList (argument?.getD []))
  if name.isEmpty then fault .emptyName
  else
    match Verb.ofName? (String.ofList name) with
    | none => .unknown (String.ofList name)
    | some v =>
      match argument? with
      | none => fault .missingArguments
      | some argument =>
        match ofVerb v argument with
        | .ok c => c
        | .error e => fault e

/-- The command that a piece of a script says. -/
def ofPiece (piece : List Char) : Command :=
  let text := trim piece
  match cut? '(' text with
  | none => ofCall text none
  | some (name, rest) =>
    match dropLast? ')' rest with
    | none => .malformed (String.ofList (trim name)) (String.ofList rest) .missingParenthesis
    | some argument => ofCall (trim name) (some (trim argument))

end Command

/-- The commands of a script: one for each piece between bars that is not blank. -/
def Script.commands (script : List Char) : List Command :=
  (((split '|' script).map trim).filter fun p => !p.isEmpty).map Command.ofPiece

end GlyphField
