import GlyphField.Decimal.Binary64

/-!
# GlyphField.Decimal.Numeral

Reading numbers from text. Nothing but the number may be in the text: no blanks, no digit
separators.

* `readFloat?` takes an optional sign, then digits with an optional point (digits on one side
  suffice) and an optional exponent, or one of the words `inf`, `infinity` and `nan` in any
  case. The result is the nearest float, a tie going to the even one.
* `readNat?` and `readInt?` take digits, the first with an optional plus sign, the second with
  an optional sign, and refuse numbers beyond a given bound.
-/

namespace GlyphField.Decimal

/-! ## Digits -/

/-- An ASCII digit. -/
def isDigit (c : Char) : Bool := '0' ≤ c && c ≤ '9'

/-- The value of a digit. -/
def digitValue (c : Char) : Nat := c.toNat - 48

/-- The value of a row of digits. -/
def ofDigits (ds : List Char) : Nat := ds.foldl (fun n c => 10 * n + digitValue c) 0

/-- Takes an optional sign off the front; the flag says whether it was a minus. -/
def takeSign : List Char → Bool × List Char
  | '+' :: cs => (false, cs)
  | '-' :: cs => (true, cs)
  | cs => (false, cs)

/-! ## Whole numbers -/

/-- A row of at least one digit whose value is at most `bound`. Leading zeros do not count, and
more than twenty other digits exceed every bound in use. -/
def readDigits? (bound : Nat) (cs : List Char) : Option Nat :=
  if cs.isEmpty || !cs.all isDigit then none
  else
    let ds := cs.dropWhile (· = '0')
    if 20 < ds.length then none
    else if ofDigits ds ≤ bound then some (ofDigits ds) else none

/-- A natural number up to `bound`, with an optional plus sign. -/
def readNat? (bound : Nat) : List Char → Option Nat
  | '+' :: cs => readDigits? bound cs
  | cs => readDigits? bound cs

/-- A whole number from `-(bound + 1)` to `bound`, with an optional sign. -/
def readInt? (bound : Nat) (cs : List Char) : Option Int :=
  match takeSign cs with
  | (false, ds) => (readDigits? bound ds).map Int.ofNat
  | (true, ds) => (readDigits? (bound + 1) ds).map fun n => -(n : Int)

/-! ## Floats -/

/-- `significand · 10^exponent` as written, with its sign. -/
structure Literal where
  negative : Bool
  significand : Nat
  exponent : Int
deriving DecidableEq, Repr

/-- The float nearest to a literal. -/
def Literal.toFloat (l : Literal) : Float :=
  let x := Float.ofScientific l.significand (l.exponent < 0) l.exponent.natAbs
  if l.negative then -x else x

/-- How many significant digits are kept exactly. No float, and no number halfway between two
floats, has more than 767. -/
def keptDigits : Nat := 800

/-- The value of a row of digits up to a power of ten. Past the digits kept exactly it only
matters whether another digit differs from zero, so one digit stands for all of them. -/
def significand (ds : List Char) : Nat × Nat :=
  let ds := ds.dropWhile (· = '0')
  match ds.drop keptDigits with
  | [] => (ofDigits ds, 0)
  | lost =>
    (10 * ofDigits (ds.take keptDigits) + (if lost.all (· = '0') then 0 else 1), lost.length - 1)

/-- The value of the digits of an exponent. One that has reached `2^16` takes no further digits. -/
def exponentValue (ds : List Char) : Nat :=
  ds.foldl (fun n c => if n < 0x10000 then 10 * n + digitValue c else n) 0

/-- The exponent part: nothing, or `e`, an optional sign and at least one digit, up to the end. -/
def readExponent? : List Char → Option Int
  | [] => some 0
  | c :: cs =>
    if c = 'e' ∨ c = 'E' then
      match takeSign cs with
      | (negative, ds) =>
        if ds.isEmpty || !ds.all isDigit then none
        else some (if negative then -(exponentValue ds : Int) else exponentValue ds)
    else none

/-- Splits at an optional point after the leading digits: whole digits, fraction digits, rest. -/
def takeMantissa (cs : List Char) : List Char × List Char × List Char :=
  let whole := cs.takeWhile isDigit
  match cs.dropWhile isDigit with
  | '.' :: rest => (whole, rest.takeWhile isDigit, rest.dropWhile isDigit)
  | rest => (whole, [], rest)

/-- A decimal literal without its sign. -/
def readLiteral? (negative : Bool) (cs : List Char) : Option Literal :=
  match takeMantissa cs with
  | (whole, fraction, rest) =>
    if whole.isEmpty && fraction.isEmpty then none
    else
      let (m, dropped) := significand (whole ++ fraction)
      (readExponent? rest).map fun e =>
        ⟨negative, m, e - (fraction.length : Int) + (dropped : Int)⟩

/-- The text in lower case, as far as ASCII goes. -/
def lowerCase (cs : List Char) : List Char := cs.map Char.toLower

/-- A float in decimal notation, or a word for one that is not finite. -/
def readFloat? (cs : List Char) : Option Float :=
  match takeSign cs with
  | (negative, body) =>
    if body.length ≤ 8 && (lowerCase body = "inf".toList || lowerCase body = "infinity".toList) then
      some (Binary64.infinity negative)
    else if body.length ≤ 8 && lowerCase body = "nan".toList then some Binary64.notANumber
    else (readLiteral? negative body).map Literal.toFloat

end GlyphField.Decimal
