import GlyphField.Substrate.Checksum
import GlyphField.Substrate.Superposition

/-!
# GlyphField.Substrate.Basic

The substrate: a grid of cells with a clock, a running checksum, counters of reads and writes and
the superpositions stored beside cells. Here are the changes that a cell of the grid can undergo;
none of them fails.

The checksum follows a write by the change of the cell's word alone, so that a checksum that does
not fit its cells stays wrong by the same bits. The decay rate and the mark of a superposition are
not part of the word, and to set them leaves the checksum as it is. Only a tick, which touches every
cell, computes it anew.
-/

namespace GlyphField

/-- A field-state memory. -/
structure Substrate where
  cells : Vector Cell cellCount
  /-- The ticks since the start; the count wraps around. -/
  time : UInt64 := 0
  checksum : UInt32
  reads : UInt64 := 0
  writes : UInt64 := 0
  pouch : Pouch := ∅
deriving DecidableEq

namespace Substrate

/-- The next count; the greatest one stays. -/
def countUp (n : UInt64) : UInt64 := if n + 1 = 0 then n else n + 1

/-- A substrate of these cells with a fitting checksum. -/
def ofCells (cells : Vector Cell cellCount) : Substrate :=
  { cells, checksum := Checksum.ofCells cells.toList }

/-- A substrate of neutral cells. -/
def initial : Substrate := ofCells (Vector.replicate cellCount Cell.neutral)

/-- A cell. -/
def cell (s : Substrate) (i : Index) : Cell := s.cells[i]

/-- What is stored beside a cell; no components if nothing is. -/
def superposition (s : Substrate) (i : Index) : Superposition :=
  (s.pouch.get? i).getD .empty

/-! ## Changes of one cell -/

/-- Replaces a cell; the checksum follows. -/
def setCell (s : Substrate) (i : Index) (c : Cell) : Substrate :=
  { s with
    cells := s.cells.set i c
    checksum := s.checksum ^^^ Checksum.shift i (Checksum.word (s.cell i) ^^^ Checksum.word c) }

/-- Reads a cell; the read is counted. -/
def read (s : Substrate) (i : Index) : Reading × Substrate :=
  ((s.cell i).reading, { s with reads := countUp s.reads })

/-- Writes a cell; the write is counted. -/
def write (s : Substrate) (i : Index) (v : Reading) : Substrate :=
  { s.setCell i ((s.cell i).write s.time v) with writes := countUp s.writes }

/-- Sets the decay rate of a cell. -/
def setDecayRate (s : Substrate) (i : Index) (rate : Float) : Substrate :=
  { s with cells := s.cells.set i ((s.cell i).setDecayRate rate) }

/-- Stores a superposition beside a cell and marks the cell. -/
def store (s : Substrate) (i : Index) (q : Superposition) : Substrate :=
  { s with cells := s.cells.set i (s.cell i).markQuantum, pouch := s.pouch.insert i q }

/-- A cell that is replaced by one of the same word leaves the checksum as it is. -/
theorem setCell_of_word_eq {s : Substrate} {i : Index} {c : Cell}
    (h : Checksum.word c = Checksum.word (s.cell i)) :
    s.setCell i c = { s with cells := s.cells.set i c } := by
  simp only [setCell, h, UInt32.xor_self, Checksum.shift_zero, UInt32.xor_zero]

theorem setDecayRate_eq_setCell (s : Substrate) (i : Index) (rate : Float) :
    s.setDecayRate i rate = s.setCell i ((s.cell i).setDecayRate rate) := by
  rw [setCell_of_word_eq (Checksum.word_setDecayRate (s.cell i) rate), setDecayRate]

theorem store_eq_setCell (s : Substrate) (i : Index) (q : Superposition) :
    s.store i q = { s.setCell i (s.cell i).markQuantum with pouch := s.pouch.insert i q } := by
  rw [setCell_of_word_eq (Checksum.word_markQuantum (s.cell i)), store]

/-! ## Time -/

/-- Lets a tick pass: every cell decays. -/
def tick (s : Substrate) : Substrate :=
  let cells := s.cells.map Cell.decay
  { s with cells, time := s.time + 1, checksum := Checksum.ofCells cells.toList }

/-! ## Parity -/

/-- How many cells have a quantity out of its bounds. -/
def invalidCells (s : Substrate) : Nat := s.cells.toList.countP fun c => !c.isValid

/-- Compares the checksum with the cells and checks their bounds; nothing is repaired. -/
def sync (s : Substrate) : Except SubstrateError Unit :=
  let computed := Checksum.ofCells s.cells.toList
  if computed ≠ s.checksum ∨ 0 < s.invalidCells then
    .error (.parity s.checksum computed s.invalidCells)
  else .ok ()

end Substrate

end GlyphField
