import GlyphField.Proofs.Repetitions
import GlyphField.Substrate.Wave
import Mathlib.Data.List.Basic
import Mathlib.Data.List.FinRange
import Mathlib.Data.List.Perm.Basic

/-!
# GlyphField.Proofs.WaveFronts

The fronts of a wave are the spheres of the grid.  One step changes the distance from the origin by
one, and from every cell but the origin some step leads closer to it.  So the neighbours of a sphere
that have not been reached are the next sphere, at the edges of the grid as well as inside, and the
fronts up to a number of steps hold each cell within that distance once.

* `distance_step`, `exists_step_back` — single steps;
* `IsSphere.nextFront` — from one front to the next;
* `nodup_fronts`, `mem_fronts` — all fronts of a wave.
-/

namespace GlyphField.Grid

variable {o i j : Index} {k : Nat}

/-! ## rows and columns -/

/-- Numbers that follow each other. -/
def Adjacent (a b : Nat) : Prop := a + 1 = b ∨ b + 1 = a

theorem eq_of_column_row (hc : column i.val = column j.val) (hr : row i.val = row j.val) :
    i = j := by
  rw [Fin.ext_iff]
  simp only [column, row, gridWidth] at hc hr
  omega

theorem column_lt (i : Index) : column i.val < gridWidth := Nat.mod_lt _ (by decide)

theorem row_lt (i : Index) : row i.val < gridWidth := Nat.div_lt_of_lt_mul i.isLt

/-- Every row and column of the grid cross in a cell. -/
theorem exists_cell {c r : Nat} (hc : c < gridWidth) (hr : r < gridWidth) :
    ∃ i : Index, column i.val = c ∧ row i.val = r := by
  simp only [gridWidth] at hc hr
  refine ⟨⟨gridWidth * r + c, ?_⟩, ?_, ?_⟩ <;> simp only [column, row, gridWidth, cellCount] <;>
    omega

/-- Neighbours stand next to each other in a row or in a column; the end of a row is no neighbour
of the beginning of the next. -/
theorem mem_neighbours_iff : j ∈ neighbours i ↔
    row j.val = row i.val ∧ Adjacent (column i.val) (column j.val) ∨
      column j.val = column i.val ∧ Adjacent (row i.val) (row j.val) := by
  have hi := i.isLt
  have hj := j.isLt
  simp only [neighbours, List.mem_append, Option.mem_toList, left?_eq_some_iff,
    right?_eq_some_iff, up?_eq_some_iff, down?_eq_some_iff]
  simp only [Adjacent, column, row, gridWidth, cellCount] at *
  constructor
  · rintro (((h | h) | h) | h)
    · omega
    · omega
    · omega
    · omega
  · rintro (⟨hr, h | h⟩ | ⟨hc, h | h⟩)
    · omega
    · omega
    · omega
    · omega

/-! ## single steps -/

theorem gap_eq_zero_iff {a b : Nat} : gap a b = 0 ↔ a = b := by
  rw [gap]
  omega

theorem gap_of_adjacent {a b : Nat} (h : Adjacent a b) (n : Nat) :
    gap n b = gap n a + 1 ∨ gap n b + 1 = gap n a := by
  simp only [Adjacent, gap] at *
  omega

/-- Between two numbers one of the adjacent ones is closer. -/
theorem exists_closer {n a : Nat} (h : n ≠ a) :
    ∃ b, b ≤ max n a ∧ Adjacent b a ∧ gap n b + 1 = gap n a := by
  obtain hlt | hlt := Nat.lt_or_gt_of_ne h
  · exact ⟨a - 1, by omega, by rw [Adjacent]; omega, by simp only [gap]; omega⟩
  · exact ⟨a + 1, by omega, by rw [Adjacent]; omega, by simp only [gap]; omega⟩

theorem distance_eq_zero_iff : distance o.val i.val = 0 ↔ o = i := by
  rw [distance, Nat.add_eq_zero_iff, gap_eq_zero_iff, gap_eq_zero_iff]
  constructor
  · rintro ⟨hc, hr⟩
    exact eq_of_column_row hc hr
  · rintro rfl
    exact ⟨rfl, rfl⟩

/-- A step leads one cell farther from the origin or one cell closer. -/
theorem distance_step (h : j ∈ neighbours i) :
    distance o.val j.val = distance o.val i.val + 1 ∨
      distance o.val j.val + 1 = distance o.val i.val := by
  simp only [distance]
  obtain ⟨hr, hc⟩ | ⟨hc, hr⟩ := mem_neighbours_iff.1 h
  · have hgap := gap_of_adjacent hc (column o.val)
    rw [hr]
    omega
  · have hgap := gap_of_adjacent hr (row o.val)
    rw [hc]
    omega

/-- Every cell but the origin is the neighbour of one that is closer. -/
theorem exists_step_back (h : distance o.val j.val = k + 1) :
    ∃ i, j ∈ neighbours i ∧ distance o.val i.val = k := by
  have hj := j.isLt
  rw [distance] at h
  by_cases hc : column o.val = column j.val
  · have hr : row o.val ≠ row j.val := fun hr => by
      rw [hc, hr, gap_eq_zero_iff.2 rfl, gap_eq_zero_iff.2 rfl] at h
      cases h
    obtain ⟨r, hle, hadjacent, hgap⟩ := exists_closer hr
    obtain ⟨i, hic, hir⟩ := exists_cell (column_lt j) (hle.trans_lt (max_lt (row_lt o) (row_lt j)))
    refine ⟨i, mem_neighbours_iff.2 (.inr ⟨hic.symm, hir ▸ hadjacent⟩), ?_⟩
    rw [distance, hic, hir]
    omega
  · obtain ⟨c, hle, hadjacent, hgap⟩ := exists_closer hc
    obtain ⟨i, hic, hir⟩ :=
      exists_cell (hle.trans_lt (max_lt (column_lt o) (column_lt j))) (row_lt j)
    refine ⟨i, mem_neighbours_iff.2 (.inl ⟨hir.symm, hic ▸ hadjacent⟩), ?_⟩
    rw [distance, hic, hir]
    omega

/-! ## fronts -/

/-- The cells at one distance from the origin, each once. -/
structure IsSphere (o : Index) (k : Nat) (front : List Index) : Prop where
  nodup : front.Nodup
  mem_iff : ∀ i, i ∈ front ↔ distance o.val i.val = k

theorem isSphere_origin (o : Index) : IsSphere o 0 [o] where
  nodup := List.nodup_singleton o
  mem_iff i := by rw [distance_eq_zero_iff, List.mem_singleton, eq_comm]

/-- Behind a sphere, what has not been reached is the next sphere. -/
theorem IsSphere.nextFront {reached front : List Index} (h : IsSphere o k front)
    (hreached : ∀ i, i ∈ reached ↔ distance o.val i.val ≤ k) :
    IsSphere o (k + 1) (nextFront reached front) where
  nodup := nodup_eraseDups _
  mem_iff j := by
    simp only [Grid.nextFront, List.mem_eraseDups, List.mem_filter, List.mem_flatMap,
      Bool.not_eq_true', List.contains_eq_mem, decide_eq_false_iff_not, h.mem_iff, hreached]
    constructor
    · rintro ⟨⟨i, hi, hj⟩, hfar⟩
      have hstep := distance_step (o := o) hj
      omega
    · intro hj
      obtain ⟨i, hmem, hi⟩ := exists_step_back hj
      exact ⟨⟨i, hi, hmem⟩, by omega⟩

/-- Fronts that are the spheres from a distance on. -/
def Spheres (o : Index) : Nat → List (List Index) → Prop
  | _, [] => True
  | k, front :: fronts => IsSphere o k front ∧ Spheres o (k + 1) fronts

theorem spheres_frontsFrom {reached front : List Index} (steps : Nat) (h : IsSphere o k front)
    (hreached : ∀ i, i ∈ reached ↔ distance o.val i.val < k) :
    Spheres o k (frontsFrom reached front steps) := by
  induction steps generalizing reached front k with
  | zero => exact ⟨h, trivial⟩
  | succ steps ih =>
      have hnext : ∀ i, i ∈ front ++ reached ↔ distance o.val i.val ≤ k := fun i => by
        rw [List.mem_append, h.mem_iff, hreached]
        omega
      exact ⟨h, ih (h.nextFront hnext) fun i => (hnext i).trans Nat.lt_succ_iff.symm⟩

/-- The fronts of a wave are the spheres around its origin. -/
theorem spheres_fronts (o : Index) (steps : Nat) : Spheres o 0 (fronts o steps) :=
  spheres_frontsFrom steps (isSphere_origin o) (by simp)

theorem length_frontsFrom (reached front : List Index) (steps : Nat) :
    (frontsFrom reached front steps).length = steps + 1 := by
  induction steps generalizing reached front with
  | zero => rfl
  | succ steps ih => simp only [frontsFrom, List.length_cons, ih]

section Spheres

variable {fronts : List (List Index)}

theorem Spheres.mem_flatten (h : Spheres o k fronts) :
    i ∈ fronts.flatten ↔ k ≤ distance o.val i.val ∧ distance o.val i.val < k + fronts.length := by
  induction fronts generalizing k with
  | nil => simp
  | cons front fronts ih =>
      rw [List.flatten_cons, List.mem_append, h.1.mem_iff, ih h.2, List.length_cons]
      omega

/-- No cell stands in two spheres. -/
theorem Spheres.nodup_flatten (h : Spheres o k fronts) : fronts.flatten.Nodup := by
  induction fronts generalizing k with
  | nil => exact List.nodup_nil
  | cons front fronts ih =>
      rw [List.flatten_cons, List.nodup_append]
      refine ⟨h.1.nodup, ih h.2, fun i hi j hj => ?_⟩
      rintro rfl
      have hk := (h.1.mem_iff i).1 hi
      have hlt := (h.2.mem_flatten.1 hj).1
      omega

end Spheres

theorem nodup_fronts (o : Index) (steps : Nat) : (fronts o steps).flatten.Nodup :=
  (spheres_fronts o steps).nodup_flatten

theorem mem_fronts {steps : Nat} :
    i ∈ (fronts o steps).flatten ↔ distance o.val i.val ≤ steps := by
  have hlen : (fronts o steps).length = steps + 1 := length_frontsFrom _ _ _
  rw [(spheres_fronts o steps).mem_flatten, hlen]
  omega

/-- How many cells of the grid lie within a distance. -/
def countWithin (o : Index) (steps : Nat) : Nat :=
  (List.finRange cellCount).countP fun i => distance o.val i.val ≤ steps

theorem length_fronts (o : Index) (steps : Nat) :
    (fronts o steps).flatten.length = countWithin o steps := by
  rw [countWithin, List.countP_eq_length_filter]
  apply List.Perm.length_eq
  rw [List.perm_ext_iff_of_nodup (nodup_fronts o steps) ((List.nodup_finRange _).filter _)]
  intro i
  rw [mem_fronts]
  simp

end GlyphField.Grid
