import GlyphField.Substrate.Basic

/-!
# GlyphField.Substrate.Force

A force on a cell. Its strength, less what the viscosity takes, raises the magnitude, and half of
it the coherence; its direction in the plane turns the phase by a tenth of its angle.
-/

namespace GlyphField

/-- A force by its three components. -/
structure Force where
  x : Float
  y : Float
  z : Float

namespace Force

/-- The share of a force that is lost. -/
def viscosity : Float := 0.1

/-- The length of the force. -/
def strength (f : Force) : Float := (f.x * f.x + f.y * f.y + f.z * f.z).sqrt

/-- The angle of the force in the plane. -/
def angle (f : Force) : Float := f.y.atan2 f.x

/-- What a cell is to hold under the force. -/
def apply (f : Force) (c : Cell) : Reading where
  magnitude := c.magnitude + f.strength * (1 - viscosity)
  phase := c.phase + f.angle * 0.1
  coherence := c.coherence + f.strength * 0.5

end Force

/-- Applies a force to a cell. -/
def Substrate.force (s : Substrate) (i : Index) (f : Force) : Substrate :=
  s.write i (f.apply (s.cell i))

end GlyphField
