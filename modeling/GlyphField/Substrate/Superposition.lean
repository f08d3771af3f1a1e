import GlyphField.Angle
import GlyphField.Keyed
import GlyphField.Quantity
import GlyphField.Substrate.Error

/-!
# GlyphField.Substrate.Superposition

Superpositions of up to eight components, and the pouch that holds those stored beside cells: a
finite map from cells, listed in the order of the grid.
-/

namespace GlyphField

/-! ## Superpositions -/

/-- One component. -/
structure Component where
  amplitude : Float
  /-- In radians. -/
  phase : Float
deriving DecidableEq, BEq

/-- Superposed components. -/
structure Superposition where
  components : List Component
  /-- Whether the state has collapsed to a single outcome. -/
  collapsed : Bool := false
  length_le : components.length ≤ maxComponents
deriving DecidableEq

/-- Compares amplitudes and phases as floats. -/
instance : BEq Superposition :=
  ⟨fun a b => a.components == b.components && a.collapsed == b.collapsed⟩

namespace Superposition

/-- No components. -/
def empty : Superposition := ⟨[], false, by decide⟩

/-- The state of these components, unless there are too many. -/
def ofComponents? (components : List Component) (collapsed : Bool) : Option Superposition :=
  if h : components.length ≤ maxComponents then some ⟨components, collapsed, h⟩ else none

/-- The state of pairs of an amplitude and a phase; the phases are brought into one turn. -/
def ofPairs (pairs : List (Float × Float)) : Except SubstrateError Superposition :=
  match ofComponents? (pairs.map fun p => ⟨p.1, Angle.wrap p.2⟩) false with
  | some q => .ok q
  | none => .error .tooManyComponents

/-- Whether there are no components. -/
def isEmpty (q : Superposition) : Bool := q.components.isEmpty

/-- The sum of the amplitudes. -/
def totalAmplitude (q : Superposition) : Float :=
  Quantity.total (q.components.map Component.amplitude)

/-- Pairs make a state exactly when there are at most eight. -/
theorem ofPairs_eq_error_iff {pairs : List (Float × Float)} {e : SubstrateError} :
    ofPairs pairs = .error e ↔ maxComponents < pairs.length ∧ e = .tooManyComponents := by
  unfold ofPairs ofComponents?
  by_cases h : pairs.length ≤ maxComponents
  · simp [h, Nat.not_lt.2 h]
  · simp [h, Nat.lt_of_not_le h, eq_comm]

end Superposition

/-! ## The pouch -/

/-- The superpositions stored beside cells. -/
structure Pouch where
  entries : List (Index × Superposition)
  sorted : Keyed.Sorted Prod.fst entries
deriving DecidableEq

namespace Pouch

/-- Nothing is stored. -/
def empty : Pouch := ⟨[], by simp [Keyed.Sorted]⟩

instance : EmptyCollection Pouch := ⟨empty⟩

/-- What is stored beside a cell. -/
def get? (p : Pouch) (i : Index) : Option Superposition :=
  (Keyed.find? Prod.fst i p.entries).map Prod.snd

/-- Stores a superposition beside a cell; an earlier one gives way. -/
def insert (p : Pouch) (i : Index) (q : Superposition) : Pouch :=
  ⟨Keyed.insert Prod.fst (i, q) p.entries, p.sorted.insert (i, q)⟩

/-- How many cells have one. -/
def size (p : Pouch) : Nat := p.entries.length

theorem get?_insert (p : Pouch) (i : Index) (q : Superposition) (j : Index) :
    (p.insert i q).get? j = if i = j then some q else p.get? j := by
  simp only [get?, insert, Keyed.find?_insert]
  split <;> rfl

end Pouch

end GlyphField
