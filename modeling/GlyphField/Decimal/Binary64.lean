/-!
# GlyphField.Decimal.Binary64

A float taken apart: not a number, infinite, or `±mantissa · 2^exponent` with whole mantissa
and exponent. `ofFloat` is exact; `toFloat` rounds to the nearest float, a tie to the even one.
-/

namespace GlyphField

/-- The kinds of floats; a finite one is `±mantissa · 2^exponent`. -/
inductive Binary64 where
  | nan
  | infinite (negative : Bool)
  | finite (negative : Bool) (mantissa : Nat) (exponent : Int)
deriving DecidableEq, Repr

namespace Binary64

open Float.Model (UnpackedFloat)
open Float.Model.UnpackedFloat (Sign)

/-- Whether a sign is the negative one. -/
def isNegative : Sign → Bool
  | .negative => true
  | .positive => false

/-- The sign of a negative or a positive number. -/
def signOf (negative : Bool) : Sign := if negative then .negative else .positive

/-- The least mantissa of a float whose exponent is not the least one: `2^52`. -/
def leastMantissa : Nat := 4503599627370496

/-- The parts of a float. A mantissa is below `2^53`, and at least `leastMantissa` unless the
exponent is the least one, `-1074`. -/
def ofFloat (x : Float) : Binary64 :=
  match x.toModel.unpack with
  | .notANumber => .nan
  | .infinity s => .infinite (isNegative s)
  | .zero s => .finite (isNegative s) 0 (-1074)
  | .finite s m e _ => .finite (isNegative s) m e

/-- The float nearest to `±mantissa · 2^exponent`. -/
def nearest (negative : Bool) (mantissa : Nat) (exponent : Int) : Float :=
  .ofModel <| .pack <|
    if mantissa = 0 then .zero (signOf negative)
    else UnpackedFloat.round Float.Model.Format.binary64 (signOf negative) mantissa exponent

/-- Not a number; there is one such float. -/
def notANumber : Float := .ofModel (.pack .notANumber)

/-- An infinite float. -/
def infinity (negative : Bool) : Float := .ofModel (.pack (.infinity (signOf negative)))

/-- The float with these parts. -/
def toFloat : Binary64 → Float
  | .nan => notANumber
  | .infinite negative => infinity negative
  | .finite negative m e => nearest negative m e

end Binary64

end GlyphField
