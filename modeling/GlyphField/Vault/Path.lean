import GlyphField.Text.Split
import GlyphField.Text.Utf8

/-!
# GlyphField.Vault.Path

Paths are bytes, with slashes between their pieces. An empty piece and the piece `.` say nothing,
except at the front: a leading slash is the root and a leading `.` the current directory.
Everything here looks at the path alone; whether it leads anywhere is for the file system to say.
-/

namespace GlyphField

open GlyphField.Text (split cutLast?)

/-- The name of a directory entry. -/
abbrev FileName := List UInt8

/-- A path. -/
structure Path where
  bytes : List UInt8
deriving DecidableEq, Repr

/-- A part of a path that says something. -/
inductive PathPart where
  | root
  | current
  | up
  | name (n : FileName)
deriving DecidableEq, Repr

namespace Path

/-- The byte between pieces. -/
def slash : UInt8 := 47

/-- The byte of a point. -/
def point : UInt8 := 46

/-- The path with this text. -/
def ofString (s : String) : Path := ⟨Text.encode s⟩

/-- The path as text; bytes that are not UTF-8 are shown as replacement characters. -/
def text (p : Path) : String := Text.decodeLossy p.bytes

/-! ## Parts -/

/-- The front of a path: a leading slash, a leading point that is a piece, or nothing. -/
def front (p : Path) : List UInt8 :=
  match p.bytes with
  | [] => []
  | b :: rest =>
    if b = slash then [slash]
    else if b = point ∧ (rest = [] ∨ rest.head? = some slash) then [point]
    else []

/-- The pieces behind the front. -/
def pieces (p : Path) : List (List UInt8) := split slash (p.bytes.drop p.front.length)

/-- Whether a piece says nothing. -/
def isSilent (piece : List UInt8) : Bool := piece = [] || piece = [point]

/-- What the front says. -/
def frontPart (p : Path) : Option PathPart :=
  if p.front = [slash] then some .root
  else if p.front = [point] then some .current
  else none

/-- What a piece says. -/
def piecePart (piece : List UInt8) : PathPart :=
  if piece = [point, point] then .up else .name piece

/-- All that the path says. -/
def parts (p : Path) : List PathPart :=
  p.frontPart.toList ++ (p.pieces.filter fun q => !isSilent q).map piecePart

/-- The last part, if it is a name. -/
def fileName? (p : Path) : Option FileName :=
  match p.parts.getLast? with
  | some (.name n) => some n
  | _ => none

/-- Whether a path starts with all parts of `root`. -/
def isUnder (root p : Path) : Bool := root.parts.isPrefixOf p.parts

/-! ## Going up and down -/

/-- The pieces up to the last one that says something. -/
def dropSilent (pieces : List (List UInt8)) : List (List UInt8) :=
  (pieces.reverse.dropWhile isSilent).reverse

/-- The path without its last part, written as before. A root and the empty path have
none. -/
def parent? (p : Path) : Option Path :=
  match p.parts.getLast? with
  | none => none
  | some .root => none
  | some .current => some ⟨[]⟩
  | some _ => some ⟨p.front ++ [slash].intercalate (dropSilent (dropSilent p.pieces).dropLast)⟩

/-- The path of an entry of a directory. -/
def join (p : Path) (n : FileName) : Path :=
  if p.bytes = [] ∨ p.bytes.getLast? = some slash then ⟨p.bytes ++ n⟩
  else ⟨p.bytes ++ slash :: n⟩

/-- What follows the last point of a name; none if there is no point, or only one in front. -/
def extension? (n : FileName) : Option (List UInt8) :=
  match cutLast? point n with
  | none => none
  | some (stem, extension) => if stem = [] then none else some extension

end Path

end GlyphField
