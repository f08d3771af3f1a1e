/-!
# GlyphField.Substrate.Grid

The grid of cells: 64 rows of 64, numbered row by row. A cell number that is in the grid is an
`Index`; distances are counted in steps along rows and columns.
-/

namespace GlyphField

/-- Cells in a row, and rows. -/
abbrev gridWidth : Nat := 64

/-- Cells in the grid. -/
abbrev cellCount : Nat := gridWidth * gridWidth

/-- The number of a cell in the grid. -/
abbrev Index := Fin cellCount

namespace Grid

/-- The index with this number, if it is in the grid. -/
def index? (n : Nat) : Option Index := if h : n < cellCount then some ⟨n, h⟩ else none

/-- The column of a cell number. -/
def column (n : Nat) : Nat := n % gridWidth

/-- The row of a cell number. -/
def row (n : Nat) : Nat := n / gridWidth

/-- The difference of two numbers. -/
def gap (a b : Nat) : Nat := (a - b) + (b - a)

/-- The steps from one cell to another along rows and columns. -/
def distance (a b : Nat) : Nat := gap (column a) (column b) + gap (row a) (row b)

/-- The cell to the left. -/
def left? (i : Index) : Option Index :=
  if 0 < column i.val then some ⟨i.val - 1, by omega⟩ else none

/-- The cell to the right. -/
def right? (i : Index) : Option Index :=
  if h : column i.val < gridWidth - 1 then
    some ⟨i.val + 1, by have := i.isLt; simp only [column, gridWidth, cellCount] at *; omega⟩
  else none

/-- The cell above. -/
def up? (i : Index) : Option Index :=
  if 0 < row i.val then some ⟨i.val - gridWidth, by omega⟩ else none

/-- The cell below. -/
def down? (i : Index) : Option Index :=
  if h : row i.val < gridWidth - 1 then
    some ⟨i.val + gridWidth, by have := i.isLt; simp only [row, gridWidth, cellCount] at *; omega⟩
  else none

/-- The cells one step away: left, right, up, down. -/
def neighbours (i : Index) : List Index :=
  (left? i).toList ++ (right? i).toList ++ (up? i).toList ++ (down? i).toList

theorem index?_eq_some_iff {n : Nat} {i : Index} : index? n = some i ↔ n = i.val := by
  unfold index?
  split
  · simp [Fin.ext_iff]
  · rename_i h
    simp only [reduceCtorEq, false_iff]
    exact fun he => h (he ▸ i.isLt)

theorem index?_val (i : Index) : index? i.val = some i := index?_eq_some_iff.2 rfl

theorem index?_of_le {n : Nat} (h : cellCount ≤ n) : index? n = none :=
  dif_neg (Nat.not_lt.2 h)

theorem left?_eq_some_iff {i j : Index} :
    left? i = some j ↔ 0 < column i.val ∧ i.val - 1 = j.val := by
  simp [left?, Option.ite_none_right_eq_some, Fin.ext_iff]

theorem right?_eq_some_iff {i j : Index} :
    right? i = some j ↔ column i.val < gridWidth - 1 ∧ i.val + 1 = j.val := by
  simp [right?, Option.dite_none_right_eq_some, Fin.ext_iff]

theorem up?_eq_some_iff {i j : Index} :
    up? i = some j ↔ 0 < row i.val ∧ i.val - gridWidth = j.val := by
  simp [up?, Option.ite_none_right_eq_some, Fin.ext_iff]

theorem down?_eq_some_iff {i j : Index} :
    down? i = some j ↔ row i.val < gridWidth - 1 ∧ i.val + gridWidth = j.val := by
  simp [down?, Option.dite_none_right_eq_some, Fin.ext_iff]

end Grid

end GlyphField
