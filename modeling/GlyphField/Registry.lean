import GlyphField.Glyph.Basic
import GlyphField.Keyed

/-!
# GlyphField.Registry

The registry: a finite map from ids to glyphs, listed in the order of ids and never larger than
its capacity. A glyph whose id is known replaces the earlier one, also in a full registry; only
a new id can be refused.
-/

namespace GlyphField

/-- The registered glyphs in the order of their ids. -/
structure Registry where
  glyphs : List Glyph
  sorted : Keyed.Sorted Glyph.id glyphs
  length_le : glyphs.length ≤ 256

/-- Why a glyph is refused. -/
inductive RegistryError where
  | full (id : String)
deriving DecidableEq, Repr

namespace Registry

/-- The most glyphs a registry holds. -/
def capacity : Nat := 256

/-- The registry without glyphs. -/
def empty : Registry := ⟨[], by simp [Keyed.Sorted], by simp⟩

instance : EmptyCollection Registry := ⟨empty⟩

instance : Inhabited Registry := ⟨empty⟩

/-- The glyph with this id. -/
def get? (r : Registry) (id : String) : Option Glyph := Keyed.find? Glyph.id id r.glyphs

/-- Whether an id is registered. -/
def contains (r : Registry) (id : String) : Bool := (r.get? id).isSome

/-- How many glyphs are registered. -/
def size (r : Registry) : Nat := r.glyphs.length

/-- The registered ids in increasing order. -/
def ids (r : Registry) : List String := r.glyphs.map Glyph.id

/-- Adding a glyph under a known id, or to a registry that is not full, stays in bounds. -/
theorem length_insert_le (r : Registry) (g : Glyph)
    (h : r.contains g.id = true ∨ r.size < capacity) :
    (Keyed.insert Glyph.id g r.glyphs).length ≤ 256 := by
  have hle := r.length_le
  rw [Keyed.length_insert r.sorted]
  rcases h with h | h
  · have h : (Keyed.find? Glyph.id g.id r.glyphs).isSome = true := h
    simpa [h] using hle
  · have h : r.glyphs.length < 256 := h
    split <;> omega

/-- Registers a glyph. The first part of the result is the glyph it replaces. -/
def insert (r : Registry) (g : Glyph) : Except RegistryError (Option Glyph × Registry) :=
  if h : r.contains g.id = true ∨ r.size < capacity then
    .ok (r.get? g.id,
      ⟨Keyed.insert Glyph.id g r.glyphs, r.sorted.insert g, r.length_insert_le g h⟩)
  else .error (.full g.id)

/-- The registry without this id. -/
def erase (r : Registry) (id : String) : Registry :=
  ⟨Keyed.erase Glyph.id id r.glyphs, r.sorted.erase id,
    Nat.le_trans List.filter_sublist.length_le r.length_le⟩

/-! ## Look-up after a change -/

@[simp] theorem get?_empty (id : String) : empty.get? id = none := rfl

/-- A glyph is found under its own id. -/
theorem id_of_get? {r : Registry} {id : String} {g : Glyph} (h : r.get? id = some g) : g.id = id :=
  Keyed.find?_some_key h

theorem get?_insert {r r' : Registry} {g : Glyph} {old : Option Glyph}
    (h : r.insert g = .ok (old, r')) (id : String) :
    r'.get? id = if g.id = id then some g else r.get? id := by
  unfold insert at h
  split at h
  · obtain ⟨-, rfl⟩ := Prod.mk.inj (Except.ok.inj h)
    exact Keyed.find?_insert Glyph.id g id r.glyphs
  · cases h

theorem get?_erase (r : Registry) (id id' : String) :
    (r.erase id').get? id = if id = id' then none else r.get? id :=
  Keyed.find?_erase Glyph.id id id' r.glyphs

end Registry

/-- The wording of a refusal. -/
def RegistryError.message : RegistryError → String
  | .full id =>
    "registry full (" ++ toString Registry.capacity ++ " glyphs), `" ++ id ++ "` refused"

end GlyphField
