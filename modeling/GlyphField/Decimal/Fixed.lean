import GlyphField.Decimal.Shortest

/-!
# GlyphField.Decimal.Fixed

The text of a float with a given number of places. The exact value is rounded to the nearest
multiple of the last place, a tie to the even one; the sign of a negative number stays even where
all digits are zero.
-/

namespace GlyphField.Decimal

/-- The whole number nearest to `num / den`, a tie to the even one. -/
def roundHalfEven (num den : Nat) : Nat :=
  let q := num / den
  let r := num % den
  if 2 * r < den then q
  else if den < 2 * r then q + 1
  else q + q % 2

/-- The multiple of `10^(-places)` nearest to `m · 2^q`. -/
def scaled (places m : Nat) (q : Int) : Nat :=
  roundHalfEven (m * Nat.pow 10 places * Nat.pow 2 q.toNat) (Nat.pow 2 (-q).toNat)

/-- The text of a float with `places` places. -/
def fixed (places : Nat) (x : Float) : String :=
  match Binary64.ofFloat x with
  | .nan => "NaN"
  | .infinite negative => signed negative "inf"
  | .finite negative m e => signed negative (positional (scaled places m e) places)

end GlyphField.Decimal
