/-!
# GlyphField.Quantity

Float arithmetic that the quantities of the field share: bringing a value into bounds, sums in
order, whole powers. A value that is not a number never wins a comparison.
-/

namespace GlyphField.Quantity

/-- Whether a value lies in `[lo, hi]`; not so for one that is not a number. -/
def within (lo hi x : Float) : Bool := lo ≤ x && x ≤ hi

/-- The nearest value in `[0, max]`; zero for one that is not a number. A negative zero stays. -/
def bounded (max x : Float) : Float :=
  if x.isNaN then 0
  else if x < 0 then 0
  else if max < x then max
  else x

/-- The larger of two values; of one that is not a number, the other. Of two equal values, such as
zeros of either sign, it is the second. -/
def larger (a b : Float) : Float :=
  if a.isNaN then b
  else if a ≤ b then b
  else a

/-- The smaller of two values; of one that is not a number, the other. Of two equal values it is
the second. -/
def smaller (a b : Float) : Float :=
  if a.isNaN then b
  else if b ≤ a then b
  else a

/-- The sum, taken from the left. The sum of nothing is `-0`, the only neutral element. -/
def total (xs : List Float) : Float := xs.foldl (· + ·) (-0.0)

/-- `acc · a^n` by repeated squaring, from the lowest binary digit of `n`. -/
def powerFrom (acc a : Float) (n : Nat) : Float :=
  let acc := if n % 2 = 1 then acc * a else acc
  if n / 2 = 0 then acc else powerFrom acc (a * a) (n / 2)
termination_by n
decreasing_by omega

/-- `a^n` by repeated squaring. -/
def power (a : Float) (n : Nat) : Float := powerFrom 1 a n

end GlyphField.Quantity
