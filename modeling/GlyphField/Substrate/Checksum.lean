import GlyphField.Substrate.Cell
import GlyphField.Substrate.Grid

/-!
# GlyphField.Substrate.Checksum

The checksum over the cells: from zero, for each cell in order, the sum is rotated left by one bit
and the word of the cell is added without carry. Changing the word of one cell thus changes the
checksum by the change of the word, rotated once for every cell behind it.
-/

namespace GlyphField.Checksum

/-- Rotates the bits of a word to the left. -/
def rotate (w : UInt32) (n : Nat) : UInt32 := ⟨w.toBitVec.rotateLeft n⟩

/-- Thousandths of a quantity as a word: the fraction is cut off, and what is out of range goes
to the nearest bound. -/
def thousandths (x : Float) : UInt32 := (x * 1000).toUInt32

/-- The word of a cell. -/
def word (c : Cell) : UInt32 :=
  thousandths c.magnitude ^^^ thousandths c.phase ^^^ thousandths c.coherence

/-- Adds the word of the next cell. -/
def step (sum : UInt32) (c : Cell) : UInt32 := rotate sum 1 ^^^ word c

/-- The checksum of cells. -/
def ofCells (cells : List Cell) : UInt32 := cells.foldl step 0

/-- The change of the checksum over the grid when the word of a cell changes by `change`. -/
def shift (i : Index) (change : UInt32) : UInt32 := rotate change (cellCount - 1 - i.val)

/-! ## Laws -/

@[simp] theorem zero_rotate (n : Nat) : rotate 0 n = 0 := by
  have h : (0#32).rotateLeft n = 0#32 := by simp [BitVec.rotateLeft_def]
  exact congrArg UInt32.ofBitVec h

/-- A word that stays leaves the checksum as it is. -/
theorem shift_zero (i : Index) : shift i 0 = 0 := zero_rotate _

/-- Only magnitude, phase and coherence enter the word. -/
theorem word_setDecayRate (c : Cell) (rate : Float) : word (c.setDecayRate rate) = word c := rfl

theorem word_markQuantum (c : Cell) : word c.markQuantum = word c := rfl

end GlyphField.Checksum
