/-!
# GlyphField.Text.Utf8

Reading bytes as UTF-8: exactly (`decode?`), or with every ill-formed part shown as the
replacement character `U+FFFD` (`decodeLossy`). An ill-formed part is a longest run of
bytes that starts a well-formed sequence without ending one, or else a single byte.
-/

namespace GlyphField.Text

/-- The text these bytes are the UTF-8 form of. -/
def decode? (bytes : List UInt8) : Option String := String.fromUTF8? ⟨bytes.toArray⟩

/-- What the first byte of a sequence calls for: how many bytes follow, and the inclusive range
of the next one. -/
def sequenceShape (b : UInt8) : Option (Nat × UInt8 × UInt8) :=
  if b < 0x80 then some (0, 0x80, 0xBF)
  else if b < 0xC2 then none
  else if b < 0xE0 then some (1, 0x80, 0xBF)
  else if b = 0xE0 then some (2, 0xA0, 0xBF)
  else if b = 0xED then some (2, 0x80, 0x9F)
  else if b < 0xF0 then some (2, 0x80, 0xBF)
  else if b = 0xF0 then some (3, 0x90, 0xBF)
  else if b < 0xF4 then some (3, 0x80, 0xBF)
  else if b = 0xF4 then some (3, 0x80, 0x8F)
  else none

/-- The bits a first byte contributes. -/
def leadBits (following : Nat) (b : UInt8) : Nat :=
  match following with
  | 0 => b.toNat
  | 1 => b.toNat % 32
  | 2 => b.toNat % 16
  | _ => b.toNat % 8

/-- A sequence begun: the bytes still to come, the range of the next, the bits so far. -/
structure Pending where
  following : Nat
  lo : UInt8
  hi : UInt8
  bits : Nat

/-- The replacement character. -/
def replacement : Char := Char.ofNat 0xFFFD

/-- The outcome of a byte that starts afresh: a character to emit, or a sequence begun. -/
def startSequence (b : UInt8) : Option Char × Option Pending :=
  match sequenceShape b with
  | none => (some replacement, none)
  | some (0, _, _) => (some (Char.ofNat b.toNat), none)
  | some (n, lo, hi) => (none, some ⟨n, lo, hi, leadBits n b⟩)

/-- Decodes byte by byte; `pending` is the sequence under way. -/
def decodeLossyFrom : Option Pending → List UInt8 → List Char
  | none, [] => []
  | some _, [] => [replacement]
  | none, b :: bs =>
    match startSequence b with
    | (emitted, pending) => emitted.toList ++ decodeLossyFrom pending bs
  | some p, b :: bs =>
    if p.lo ≤ b ∧ b ≤ p.hi then
      let bits := p.bits * 64 + b.toNat % 64
      if p.following ≤ 1 then Char.ofNat bits :: decodeLossyFrom none bs
      else decodeLossyFrom (some ⟨p.following - 1, 0x80, 0xBF, bits⟩) bs
    else
      match startSequence b with
      | (emitted, pending) => replacement :: (emitted.toList ++ decodeLossyFrom pending bs)

/-- The bytes as text, ill-formed parts replaced. -/
def decodeLossy (bytes : List UInt8) : String := String.ofList (decodeLossyFrom none bytes)

/-- The UTF-8 form of a text. -/
def encode (s : String) : List UInt8 := s.toUTF8.data.toList

end GlyphField.Text
