import GlyphField.Decimal.Binary64

/-!
# GlyphField.Decimal.Shortest

The shortest decimal text of a float: the fewest digits that read back as the same float, and
of those the nearest to it, an exact tie going up. The text is positional, without an exponent
and without a fraction when that would be zero.

A float stands for the interval of numbers that round to it. Its ends belong to it exactly when
the mantissa is even. The search goes through decimal grids `10^k`, coarsest first; on each grid
only the two neighbours of the value can be nearest, so the first grid with a neighbour inside
the interval carries the shortest digits.
-/

namespace GlyphField.Decimal

/-! ## The rounding interval -/

/-- The numbers that round to one positive float, as whole multiples of `2^exponent`. -/
structure Interval where
  lo : Nat
  value : Nat
  hi : Nat
  exponent : Int
  closed : Bool

/-- The interval of `m · 2^q`. Below the least mantissa of a binade the floats lie twice as
dense, so the lower end is nearer there. -/
def Interval.ofBinary (m : Nat) (q : Int) : Interval where
  lo := 4 * m - (if m = Binary64.leastMantissa ∧ -1074 < q then 1 else 2)
  value := 4 * m
  hi := 4 * m + 2
  exponent := q - 2
  closed := m % 2 == 0

/-- The weights of a step of the grid `10^k` and of a step of `2^e`, on a common scale. -/
def weights (k e : Int) : Nat × Nat :=
  (Nat.pow 10 k.toNat * Nat.pow 2 (-e).toNat, Nat.pow 2 e.toNat * Nat.pow 10 (-k).toNat)

/-- Whether `n` of weight `g` lies in the interval, whose units weigh `u`. -/
def Interval.holds (v : Interval) (g u n : Nat) : Bool :=
  if v.closed then v.lo * u ≤ n * g && n * g ≤ v.hi * u
  else v.lo * u < n * g && n * g < v.hi * u

/-- The point of the grid `10^k` in the interval that is nearest to the value, as a multiple of
`10^k`. -/
def Interval.onGrid? (v : Interval) (k : Int) : Option Nat :=
  let (g, u) := weights k v.exponent
  let below := v.value * u / g
  match v.holds g u below, v.holds g u (below + 1) with
  | true, true =>
    if v.value * u - below * g < (below + 1) * g - v.value * u then some below
    else some (below + 1)
  | true, false => some below
  | false, true => some (below + 1)
  | false, false => none

/-! ## Digits -/

/-- A whole number of units `10^exponent`. -/
structure Digits where
  value : Nat
  exponent : Int
deriving DecidableEq, Repr

/-- A grid at least as coarse as any that has a point in the interval of `m · 2^q`. The factor is
a little above the decimal logarithm of two. -/
def coarsest (m : Nat) (q : Int) : Int := ((m.log2 : Int) + 1 + q) * 30103 / 100000 + 2

/-- The shortest digits of `m · 2^q`, for a positive mantissa. Seventeen digits always suffice,
and the coarsest grid is at most two digits too coarse. -/
def Digits.ofBinary (m : Nat) (q : Int) : Digits :=
  let v := Interval.ofBinary m q
  let grids := (List.range 21).map fun (i : Nat) => coarsest m q - (i : Int)
  (grids.findSome? fun k => (v.onGrid? k).map (Digits.mk · k)).getD ⟨0, 0⟩

/-! ## Text -/

/-- The text of `n · 10^(-places)`, with exactly that many places. -/
def positional (n places : Nat) : String :=
  let ds := Nat.toDigits 10 n
  let padded := List.replicate (places + 1 - ds.length) '0' ++ ds
  let whole := padded.take (padded.length - places)
  let fraction := padded.drop (padded.length - places)
  if places = 0 then String.ofList whole else String.ofList (whole ++ '.' :: fraction)

/-- Puts a minus sign in front of a negative number. -/
def signed (negative : Bool) (s : String) : String := if negative then "-" ++ s else s

/-- The text of digits. -/
def Digits.text (d : Digits) : String :=
  if 0 ≤ d.exponent then positional (d.value * Nat.pow 10 d.exponent.toNat) 0
  else positional d.value (-d.exponent).toNat

/-- The shortest text of a float. -/
def shortest (x : Float) : String :=
  match Binary64.ofFloat x with
  | .nan => "NaN"
  | .infinite negative => signed negative "inf"
  | .finite negative 0 _ => signed negative "0"
  | .finite negative m e => signed negative (Digits.ofBinary m e).text

end GlyphField.Decimal
