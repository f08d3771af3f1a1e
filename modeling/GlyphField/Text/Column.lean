/-!
# GlyphField.Text.Column

Padding to a column, counted in characters, and whole numbers in fixed columns.
A text wider than its column is kept whole.
-/

namespace GlyphField.Text

/-- `n` copies of a character. -/
def fill (n : Nat) (c : Char) : String := String.ofList (List.replicate n c)

/-- Pads with blanks on the right. -/
def padRight (width : Nat) (s : String) : String := s ++ fill (width - s.length) ' '

/-- Pads with `c` on the left. -/
def padLeft (width : Nat) (c : Char) (s : String) : String := fill (width - s.length) c ++ s

/-- A whole number in at least `width` columns, with leading zeros. -/
def zeroPadded (width n : Nat) : String := padLeft width '0' (toString n)

/-- A hexadecimal digit, upper case. -/
def hexDigit (n : Nat) : Char :=
  if n < 10 then Char.ofNat (48 + n) else Char.ofNat (55 + n)

/-- A word as `0x` and eight upper-case hexadecimal digits. -/
def hexWord (w : UInt32) : String :=
  String.ofList ('0' :: 'x' ::
    (List.range 8).map fun i => hexDigit ((w.toNat >>> (4 * (7 - i))) % 16))

end GlyphField.Text
