import GlyphField.Decimal.Fixed
import GlyphField.Substrate.Basic
import GlyphField.Text.Column

/-!
# GlyphField.Substrate.Status

A summary of a substrate for those who watch it.
-/

namespace GlyphField

/-- Counters and mean values of a substrate. -/
structure Status where
  cellCount : Nat
  time : UInt64
  checksum : UInt32
  reads : UInt64
  writes : UInt64
  averageMagnitude : Float
  greatestMagnitude : Float
  averageCoherence : Float
  quantumCells : Nat

/-- The mean value of a quantity over the cells. -/
def Substrate.average (s : Substrate) (quantity : Cell → Float) : Float :=
  Quantity.total (s.cells.toList.map quantity) / Float.ofNat GlyphField.cellCount

/-- The greatest magnitude, at least zero. Where that is a zero, the last zero gives the sign. -/
def Substrate.greatestMagnitude (s : Substrate) : Float :=
  (s.cells.toList.map Cell.magnitude).foldl Quantity.larger 0

/-- The summary of a substrate. -/
def Substrate.status (s : Substrate) : Status where
  cellCount := GlyphField.cellCount
  time := s.time
  checksum := s.checksum
  reads := s.reads
  writes := s.writes
  averageMagnitude := s.average Cell.magnitude
  greatestMagnitude := s.greatestMagnitude
  averageCoherence := s.average Cell.coherence
  quantumCells := s.pouch.size

/-- The summary as lines. -/
def Status.text (t : Status) : String :=
  "\n".intercalate
    ["=== Substrate Status ===",
     "Cell Count:     " ++ toString t.cellCount,
     "Global Time:    " ++ toString t.time,
     "Checksum:       " ++ Text.hexWord t.checksum,
     "Read Ops:       " ++ toString t.reads,
     "Write Ops:      " ++ toString t.writes,
     "Avg Magnitude:  " ++ Decimal.fixed 2 t.averageMagnitude,
     "Max Magnitude:  " ++ Decimal.fixed 2 t.greatestMagnitude,
     "Avg Coherence:  " ++ Decimal.fixed 2 t.averageCoherence,
     "Quantum Cells:  " ++ toString t.quantumCells]

/-- The clock and the counters in one line. -/
def Substrate.outline (s : Substrate) : String :=
  "Substrate \x7b global_time: " ++ toString s.time ++
    ", checksum: " ++ Text.hexWord s.checksum ++
    ", read_ops: " ++ toString s.reads ++
    ", write_ops: " ++ toString s.writes ++
    ", quantum_cells: " ++ toString s.pouch.size ++ " \x7d"

end GlyphField
