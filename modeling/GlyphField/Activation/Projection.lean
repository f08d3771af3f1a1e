import GlyphField.Activation.Run
import GlyphField.Substrate.Basic

/-!
# GlyphField.Activation.Projection

The projection of an activation into a substrate: the home cell of the glyph takes the state,
with the coherence in thousandths instead of percent. A glyph that declares a number of components
also leaves a superposition of as many there, of equal amplitudes and with phases spread evenly
over a turn.

The cell is written before the superposition is built. One of too many components fails, and the
write then stays.
-/

namespace GlyphField

/-- How many units of a cell's coherence make up one percent. -/
def coherenceScale : Float := 10

/-- The superposition of `n` components of equal amplitude, their phases evenly spread from
`phase` on. -/
def Superposition.spread (n : Nat) (phase : Float) : Except SubstrateError Superposition :=
  let count := Float.ofNat n
  let amplitude := (1 / count).sqrt
  ofPairs ((List.range n).map fun k => (amplitude, phase + Angle.turn * Float.ofNat k / count))

namespace Activation

/-- The cell of the glyph. -/
def homeCell (a : Activation) : Index := GlyphId.homeCell a.glyphId

/-- What the home cell is to hold. -/
def cellValue (a : Activation) : Reading :=
  ⟨a.state.magnitude, a.state.phase, a.state.coherence * coherenceScale⟩

/-- How many components are declared; none and zero are the same. -/
def componentCount (a : Activation) : Nat := (a.quantumState.map UInt8.toNat).getD 0

/-- Projects the activation; returns the home cell as it is read afterwards. -/
def project (a : Activation) (s : Substrate) : Except SubstrateError Reading × Substrate :=
  let s := s.write a.homeCell a.cellValue
  let stored : Except SubstrateError Substrate :=
    if a.componentCount = 0 then .ok s
    else (Superposition.spread a.componentCount a.state.phase).map (s.store a.homeCell)
  match stored with
  | .error e => (.error e, s)
  | .ok s =>
    match s.read a.homeCell with
    | (r, s) => (.ok r, s)

end Activation

end GlyphField
