/-!
# GlyphField.Json.Basic

JSON documents as values, and the typed readings of them that records need.

A number is an integer when it is written without fraction and exponent, is not `-0` and fits
into 64 bits, signed or unsigned; any other number is a float. An integer may stand for a float,
a float never for an integer.
-/

namespace GlyphField

/-- A JSON document. -/
inductive Json where
  | null
  | bool (b : Bool)
  | integer (n : Int)
  | real (x : Float)
  | string (s : String)
  | array (items : List Json)
  | object (fields : List (String × Json))

namespace Json

/-! ## Typed readings -/

/-- A float, from any number. -/
def toFloat? : Json → Option Float
  | real x => some x
  | integer n => some (Float.ofInt n)
  | _ => none

/-- A natural number below `bound`. -/
def toNat? (bound : Nat) : Json → Option Nat
  | integer (.ofNat n) => if n < bound then some n else none
  | _ => none

/-- A truth value. -/
def toBool? : Json → Option Bool
  | bool b => some b
  | _ => none

/-- A text. -/
def toText? : Json → Option String
  | string s => some s
  | _ => none

/-- The items of an array. -/
def toItems? : Json → Option (List Json)
  | array items => some items
  | _ => none

/-- The value of a field. Of a repeated one the last counts, as documents are tables of fields here;
what reads records straight from a text may refuse the repetition. -/
def field? (name : String) : Json → Option Json
  | object fields => fields.reverse.lookup name
  | _ => none

/-- The values of a record with these fields: an object that has them all, others ignored, or an
array of exactly as many values in this order. -/
def toRecord? (names : List String) (j : Json) : Option (List Json) :=
  match j with
  | array items => if items.length = names.length then some items else none
  | object _ => names.mapM fun name => j.field? name
  | _ => none

/-! ## Writing -/

/-- A float; one that is not finite has no form in JSON and is written as `null`. -/
def ofFloat (x : Float) : Json := if x.isFinite then real x else null

/-- A natural number. -/
def ofNat (n : Nat) : Json := integer n

/-! ## Laws -/

/-- A float reads back exactly when it is finite. -/
theorem toFloat?_ofFloat (x : Float) :
    (ofFloat x).toFloat? = if x.isFinite then some x else none := by
  unfold ofFloat
  split <;> simp [toFloat?]

/-- A natural number reads back exactly when it is below the bound. -/
theorem toNat?_ofNat (bound n : Nat) :
    (ofNat n).toNat? bound = if n < bound then some n else none := rfl

end Json

end GlyphField
