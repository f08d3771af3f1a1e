import GlyphField.Decimal.Binary64

/-!
# GlyphField.Angle

Phases in radians. `wrap` brings a phase into one turn, `[0, 2π)`; it rests on `remainder`, the
exact remainder of two floats. Since the remainder of a tiny negative phase plus one turn rounds
to a full turn, that result is taken as zero.
-/

namespace GlyphField.Angle

/-! ## Exact remainders -/

/-- The remainder of `m · 2^e` by `m' · 2^e'`: a mantissa over the smaller exponent. -/
def remainderParts (m : Nat) (e : Int) (m' : Nat) (e' : Int) : Nat × Int :=
  if e' ≤ e then (m * Nat.pow 2 (e - e').toNat % m', e')
  else (m % (m' * Nat.pow 2 (e' - e).toNat), e)

/-- What is left of `x` after taking away a whole number of `y`, toward zero. It has the sign of
`x` and is exact. There is none for an infinite or undefined `x`, nor for a zero or undefined
`y`; an infinite `y` leaves `x`. -/
def remainder (x y : Float) : Float :=
  match Binary64.ofFloat x, Binary64.ofFloat y with
  | .finite negative m e, .finite _ m' e' =>
    if m' = 0 then Binary64.notANumber
    else
      let (r, k) := remainderParts m e m' e'
      Binary64.nearest negative r k
  | .finite _ _ _, .infinite _ => x
  | _, _ => Binary64.notANumber

/-- The remainder is smaller than what was divided by, on the same scale. -/
theorem remainderParts_lt {m' : Nat} (m : Nat) (e e' : Int) (h : 0 < m') :
    (remainderParts m e m' e').1 < m' * Nat.pow 2 (e' - e).toNat := by
  unfold remainderParts
  split
  · rename_i he
    have : (e' - e).toNat = 0 := by omega
    simpa [this] using Nat.mod_lt _ h
  · exact Nat.mod_lt _ (Nat.mul_pos h (Nat.pow_pos (by decide)))

/-! ## Turns and degrees -/

/-- One full turn, the float nearest to `2π`. -/
def turn : Float := Float.ofBits 0x401921FB54442D18

/-- One degree, the float nearest to `π/180`. -/
def degree : Float := Float.ofBits 0x3F91DF46A2529D39

/-- Degrees in radians. -/
def ofDegrees (x : Float) : Float := x * degree

/-- The non-negative remainder by one turn, except that rounding may give the turn itself. -/
def turnRemainder (x : Float) : Float :=
  let r := remainder x turn
  if r < 0 then r + turn else r

/-- Brings a phase into `[0, 2π)`; a phase that is not finite becomes zero. -/
def wrap (x : Float) : Float :=
  if x.isFinite then
    let r := turnRemainder x
    if turn ≤ r then 0 else r
  else 0

/-- Whether a phase lies in `[0, 2π)`. -/
def isWrapped (x : Float) : Bool := 0 ≤ x && x < turn

end GlyphField.Angle
