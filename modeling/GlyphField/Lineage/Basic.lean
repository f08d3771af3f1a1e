import GlyphField.Registry

/-!
# GlyphField.Lineage.Basic

The lineage of a glyph: its ancestors through declared parents, each before its own ancestors, the
number of generations above it, and the parents that are declared without being registered. The
ways in which there is none: the glyph is unknown, a glyph is its own ancestor, or a chain of
parents is too long.
-/

namespace GlyphField

/-- A declared parent that is not registered. -/
structure DanglingParent where
  child : String
  parent : String
deriving DecidableEq, Repr

/-- The ancestry of a glyph. -/
structure Lineage where
  glyphId : String
  /-- Every registered ancestor once, a glyph before its own ancestors. -/
  ancestors : List String
  /-- The generations above the glyph. -/
  depth : Nat
  dangling : List DanglingParent
deriving DecidableEq, Repr

/-- Why a glyph has no lineage. -/
inductive LineageError where
  | unknownGlyph (id : String)
  /-- A chain of parents that comes back to its first glyph, that glyph at both ends. -/
  | circular (id : String) (cycle : List String)
  | tooDeep (id : String) (limit : Nat)
deriving DecidableEq, Repr

/-- The order in which declared fields are composed: ancestors from the oldest, then the glyph. -/
def Lineage.compositionOrder (l : Lineage) : List String := l.ancestors.reverse ++ [l.glyphId]

/-- The wording of an error. -/
def LineageError.message : LineageError → String
  | .unknownGlyph id => "glyph `" ++ id ++ "` not found"
  | .circular id cycle => "circular inheritance at `" ++ id ++ "`: " ++ " -> ".intercalate cycle
  | .tooDeep id limit =>
    "inheritance depth exceeded at `" ++ id ++ "` (limit " ++ toString limit ++ ")"

namespace Registry

/-- The parents a glyph declares that are registered, in the order of declaration. -/
def knownParents (r : Registry) (g : Glyph) : List String := g.parents.filter r.contains

/-- The parents a glyph declares that are not registered, each once. -/
def danglingParents (r : Registry) (g : Glyph) : List DanglingParent :=
  ((g.parents.filter fun p => !r.contains p).map (DanglingParent.mk g.id)).eraseDups

end Registry

end GlyphField
