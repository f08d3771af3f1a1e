import GlyphField.Decimal.Shortest
import GlyphField.Substrate.Grid
import GlyphField.Text.Column

/-!
# GlyphField.Substrate.Error

What can go wrong with a substrate, its superpositions and its snapshots.
-/

namespace GlyphField

/-- The most components of a superposition. -/
def maxComponents : Nat := 8

/-- The version of snapshots that is written and read. -/
def snapshotVersion : UInt16 := 1

/-- Why an operation on a substrate fails. -/
inductive SubstrateError where
  /-- A cell number outside of the grid. -/
  | outOfRange (index : Nat)
  /-- A checksum that does not fit the cells, or cells out of bounds. -/
  | parity (stored computed : UInt32) (invalidCells : Nat)
  /-- A wave whose frequency is not finite and positive. -/
  | invalidFrequency (x : Float)
  /-- A wave whose amplitude is not finite. -/
  | invalidAmplitude
  | tooManyComponents
  /-- A snapshot that does not hold one cell for each of the grid. -/
  | cellCountMismatch (found : Nat)
  | unsupportedVersion (found : UInt16)
deriving DecidableEq

/-- The wording of an error. -/
def SubstrateError.message : SubstrateError → String
  | .outOfRange index =>
    "cell index " ++ toString index ++ " out of range (max " ++ toString (cellCount - 1) ++ ")"
  | .parity stored computed invalidCells =>
    "parity error: stored checksum " ++ Text.hexWord stored ++ ", computed " ++
      Text.hexWord computed ++ ", " ++ toString invalidCells ++ " invalid cell(s)"
  | .invalidFrequency x =>
    "invalid argument `frequency`: " ++ Decimal.shortest x ++
      " is not a positive finite frequency"
  | .invalidAmplitude => "invalid argument `amplitude`: must be finite"
  | .tooManyComponents =>
    "superposition holds at most " ++ toString maxComponents ++ " components"
  | .cellCountMismatch found =>
    "snapshot holds " ++ toString found ++ " cells, expected " ++ toString cellCount
  | .unsupportedVersion found =>
    "snapshot format version " ++ toString found ++ " is not supported (expected " ++
      toString snapshotVersion ++ ")"

end GlyphField
