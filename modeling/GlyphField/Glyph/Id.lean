import GlyphField.Substrate.Grid
import GlyphField.Text.Blank

/-!
# GlyphField.Glyph.Id

Glyph ids are texts. A valid one has one to 64 characters out of `A-Z`, `a-z`, `0-9`, `_` and
`-`; a path-like one could reach out of a directory and is treated as hostile. No id is both.

An id has a home cell in the grid: its 32-bit FNV-1a hash, reduced to the grid.
-/

namespace GlyphField.GlyphId

open GlyphField.Text (isControl)

/-! ## Hygiene -/

/-- The longest id, in bytes. -/
def maxBytes : Nat := 64

/-- Two points in a row. -/
def hasDoublePoint : List Char → Bool
  | '.' :: '.' :: _ => true
  | _ :: cs => hasDoublePoint cs
  | [] => false

/-- An id with a slash, a backslash, two points in a row or a control character. -/
def isPathLike (id : String) : Bool :=
  let cs := id.toList
  cs.contains '/' || cs.contains '\\' || hasDoublePoint cs || cs.any isControl

/-- A character that ids may have. -/
def isIdChar (c : Char) : Bool :=
  ('a' ≤ c && c ≤ 'z') || ('A' ≤ c && c ≤ 'Z') || ('0' ≤ c && c ≤ '9') || c = '_' || c = '-'

/-- An id of at least one and at most 64 bytes, all of them characters of ids. -/
def isValid (id : String) : Bool :=
  !id.isEmpty && id.utf8ByteSize ≤ maxBytes && id.toList.all isIdChar

/-! ## Home cell -/

/-- One step of the FNV-1a hash. -/
def hashStep (h : UInt32) (b : UInt8) : UInt32 := (h ^^^ b.toUInt32) * 16777619

/-- The 32-bit FNV-1a hash of the bytes of an id. -/
def hash (id : String) : UInt32 := id.toUTF8.data.foldl hashStep 2166136261

/-- The cell a glyph is projected onto. -/
def homeCell (id : String) : Index :=
  ⟨(hash id).toNat % cellCount, Nat.mod_lt _ (by decide)⟩

end GlyphField.GlyphId
