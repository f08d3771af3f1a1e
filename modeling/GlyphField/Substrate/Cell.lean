import GlyphField.Angle
import GlyphField.Quantity

/-!
# GlyphField.Substrate.Cell

One cell of the substrate: four quantities, the time of its latest write and its flags. A value
that is written is brought into bounds instead of being refused: magnitude and coherence into
`[0, 1000]`, the decay rate into `[0, 1]`, the phase into one turn.
-/

namespace GlyphField

/-- The greatest magnitude of a cell. -/
def maxMagnitude : Float := 1000

/-- The greatest coherence of a cell. -/
def maxCoherence : Float := 1000

/-- A field value. Two cells are `==` when their quantities are equal as floats, so that a zero
of either sign is the same. -/
structure Cell where
  magnitude : Float := 100
  /-- In radians. -/
  phase : Float := 0
  coherence : Float := 500
  /-- The share of the magnitude that is lost in one tick. -/
  decayRate : Float := 0.01
  /-- The time of the latest write. -/
  lastUpdate : UInt64 := 0
  flags : UInt8 := 0
deriving DecidableEq, BEq

/-- What a read of a cell returns. -/
structure Reading where
  magnitude : Float
  phase : Float
  coherence : Float
deriving DecidableEq

namespace Cell

/-- The cell of a new substrate. -/
def neutral : Cell := {}

/-- The flag of a cell that a superposition is stored beside. -/
def quantumFlag : UInt8 := 1

/-- Whether every quantity lies in its bounds. -/
def isValid (c : Cell) : Bool :=
  Quantity.within 0 maxMagnitude c.magnitude && Angle.isWrapped c.phase &&
    Quantity.within 0 maxCoherence c.coherence && Quantity.within 0 1 c.decayRate

/-- The values that a read returns. -/
def reading (c : Cell) : Reading := ⟨c.magnitude, c.phase, c.coherence⟩

/-- Writes values, brought into bounds, at a time. -/
def write (c : Cell) (now : UInt64) (v : Reading) : Cell :=
  { c with
    magnitude := Quantity.bounded maxMagnitude v.magnitude
    phase := Angle.wrap v.phase
    coherence := Quantity.bounded maxCoherence v.coherence
    lastUpdate := now }

/-- Sets the decay rate, brought into bounds. -/
def setDecayRate (c : Cell) (rate : Float) : Cell :=
  { c with decayRate := Quantity.bounded 1 rate }

/-- Loses a tick's share of the magnitude. -/
def decay (c : Cell) : Cell := { c with magnitude := c.magnitude * (1 - c.decayRate) }

/-- Marks the cell as one with a superposition. -/
def markQuantum (c : Cell) : Cell := { c with flags := c.flags ||| quantumFlag }

/-- Whether the cell is marked as one with a superposition. -/
def isQuantum (c : Cell) : Bool := c.flags &&& quantumFlag = quantumFlag

end Cell

end GlyphField
