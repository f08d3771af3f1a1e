import GlyphField.Decimal.Numeral
import GlyphField.Decimal.Shortest
import GlyphField.Glyph.Field
import GlyphField.Glyph.Id
import GlyphField.Text.Blank
import GlyphField.Text.Split

/-!
# GlyphField.Glyph.Reader

Reading a glyph from a definition text, line by line:

* a line that is blank, starts with `#`, has no colon or an unknown key says nothing;
* any other line declares a field: the key stands before the first colon, the value is all that
  follows, both without the blanks around them;
* a value is checked where it stands, so the first bad line decides the error; only the glyph's
  own id is checked at the end;
* a field declared again takes the later value.

A line ends at a line feed. A carriage return before it is a blank at the end of the line.
-/

namespace GlyphField

open GlyphField.Text (trim split cut?)

/-! ## What can be wrong -/

/-- Why a text is no definition. -/
inductive ReadError where
  | missingId
  | invalidId (id : String)
  /-- An id that looks like a path: hostile input, not a slip. -/
  | pathLikeId (id : String)
  | notANumber (field : Field) (text : String)
  | notFinite (field : Field)
  | outOfRange (field : Field) (value lo hi : Float)
  | textTooLong (field : Field) (bytes max : Nat)
  | tooManyParents (count : Nat)
  | contentTooLarge (bytes : Nat)
  | notUtf8

/-- The most bytes a definition may have. -/
def maxDefinitionBytes : Nat := 1048576

/-- The wording of an error. -/
def ReadError.message : ReadError → String
  | .missingId => "missing glyph_id"
  | .invalidId id => "invalid glyph id `" ++ id ++ "`"
  | .pathLikeId id => "unsafe glyph id `" ++ id ++ "`"
  | .notANumber field text => "field `" ++ field.name ++ "`: `" ++ text ++ "` is not a number"
  | .notFinite field => "field `" ++ field.name ++ "` is not finite"
  | .outOfRange field value lo hi =>
    "field `" ++ field.name ++ "` = " ++ Decimal.shortest value ++ " outside [" ++
      Decimal.shortest lo ++ ", " ++ Decimal.shortest hi ++ "]"
  | .textTooLong field bytes max =>
    "field `" ++ field.name ++ "` is " ++ toString bytes ++ " bytes (max " ++ toString max ++ ")"
  | .tooManyParents count =>
    toString count ++ " parent glyphs declared (max " ++ toString Glyph.maxParents ++ ")"
  | .contentTooLarge bytes =>
    "content is " ++ toString bytes ++ " bytes (max " ++ toString maxDefinitionBytes ++ ")"
  | .notUtf8 => "content is not valid UTF-8"

/-! ## Values -/

/-- Accepts an id that is valid. -/
def GlyphId.check (id : String) : Except ReadError Unit :=
  if isPathLike id then .error (.pathLikeId id)
  else if isValid id then .ok ()
  else .error (.invalidId id)

/-- A finite number in the range of its field. -/
def NumberField.read (f : NumberField) (value : List Char) : Except ReadError Float :=
  match Decimal.readFloat? value with
  | none => .error (.notANumber (.number f) (String.ofList value))
  | some x =>
    if !x.isFinite then .error (.notFinite (.number f))
    else if x < f.range.1 || f.range.2 < x then
      .error (.outOfRange (.number f) x f.range.1 f.range.2)
    else .ok x

/-- A text that is not too long. -/
def TextField.read (f : TextField) (value : List Char) : Except ReadError String :=
  let s := String.ofList value
  if f.maxBytes < s.utf8ByteSize then .error (.textTooLong (.text f) s.utf8ByteSize f.maxBytes)
  else .ok s

namespace Glyph

/-- The greatest whole number of 64 bits with a sign: `2^63 - 1`. -/
def maxWhole : Nat := 9223372036854775807

/-- The size of a superposition: a whole number of 64 bits, from zero to eight. -/
def readQuantumState (value : List Char) : Except ReadError UInt8 :=
  match Decimal.readInt? maxWhole value with
  | none => .error (.notANumber .quantumState (String.ofList value))
  | some n =>
    if 0 ≤ n ∧ n ≤ maxQuantumState then .ok n.toNat.toUInt8
    else .error (.outOfRange .quantumState (Float.ofInt n) 0 (Float.ofNat maxQuantumState))

/-- The ids between the commas of a list of parents, blank ones left out. -/
def parentIds (value : List Char) : List String :=
  (((split ',' value).map trim).filter fun p => !p.isEmpty).map String.ofList

/-- A list of parents: not too many, and every id valid. -/
def readParents (value : List Char) : Except ReadError (List String) :=
  let ids := parentIds value
  if maxParents < ids.length then .error (.tooManyParents ids.length)
  else do
    ids.forM GlyphId.check
    return ids

/-! ## Lines -/

/-- A field and the text declared for it. -/
structure Entry where
  field : Field
  value : List Char

/-- What a line declares, if anything. -/
def Entry.ofLine? (line : List Char) : Option Entry :=
  let text := trim line
  if text.head? = some '#' then none
  else
    (cut? ':' text).bind fun (key, value) =>
      (Field.ofKey? (String.ofList (trim key))).map fun field => ⟨field, trim value⟩

/-- What the lines of a text declare, in order. -/
def entries (text : String) : List Entry := (split '\n' text.toList).filterMap Entry.ofLine?

/-- The glyph after one more declaration. -/
def declare (g : Glyph) (e : Entry) : Except ReadError Glyph :=
  match e.field with
  | .id => .ok { g with id := String.ofList e.value }
  | .parents => (readParents e.value).map fun ids => { g with parents := ids }
  | .number f => (f.read e.value).map (g.setNumber f)
  | .quantumState => (readQuantumState e.value).map fun n => { g with quantumState := some n }
  | .text f => (f.read e.value).map (g.setText f)

/-- Accepts a glyph that has declared a valid id. -/
def checkId (g : Glyph) : Except ReadError Glyph :=
  if g.id.isEmpty then .error .missingId
  else (GlyphId.check g.id).map fun _ => g

/-- Reads a definition. -/
def read (text : String) : Except ReadError Glyph :=
  if maxDefinitionBytes < text.utf8ByteSize then .error (.contentTooLarge text.utf8ByteSize)
  else do
    let g ← (entries text).foldlM declare { id := "" }
    g.checkId

/-- Reads a definition from bytes, which must be UTF-8. -/
def readBytes (bytes : ByteArray) : Except ReadError Glyph :=
  if maxDefinitionBytes < bytes.size then .error (.contentTooLarge bytes.size)
  else
    match String.fromUTF8? bytes with
    | none => .error .notUtf8
    | some text => read text

end Glyph

end GlyphField
