import GlyphField.Angle
import GlyphField.Decimal.Fixed
import GlyphField.Lineage.Basic

/-!
# GlyphField.Activation.State

The field state of a glyph, and its composition from the declared fields of the glyph and its
ancestors. Composition goes from the oldest ancestor to the glyph itself; each declared number
overrides what older glyphs declared.
-/

namespace GlyphField

/-- The computed state of a glyph. -/
structure FieldState where
  /-- In hertz. -/
  resonance : Float := 440
  magnitude : Float := 1
  /-- In radians. -/
  phase : Float := 0
  /-- In percent. -/
  coherence : Float := 100
  entanglement : Float := 1
  /-- The generations above the glyph. -/
  depth : Nat := 0
deriving DecidableEq

namespace FieldState

/-- The state in one line. -/
def text (s : FieldState) : String :=
  "R=" ++ Decimal.fixed 2 s.resonance ++ "Hz M=" ++ Decimal.fixed 3 s.magnitude ++
    " P=" ++ Decimal.fixed 3 s.phase ++ " C=" ++ Decimal.fixed 1 s.coherence ++
    " E=" ++ Decimal.fixed 3 s.entanglement ++ " D=" ++ toString s.depth

end FieldState

/-- A state together with the coefficient that entanglements of the glyph work with. -/
structure Composed where
  state : FieldState := {}
  coefficient : Float := 1
deriving DecidableEq

namespace Composed

/-- Takes over a declared number. -/
def setNumber (c : Composed) (f : NumberField) (x : Float) : Composed :=
  match f with
  | .resonance => { c with state := { c.state with resonance := x } }
  | .magnitude => { c with state := { c.state with magnitude := x } }
  | .coherence => { c with state := { c.state with coherence := x } }
  | .phaseOffset => { c with state := { c.state with phase := Angle.wrap (Angle.ofDegrees x) } }
  | .entanglement =>
    { c with state := { c.state with entanglement := x }, coefficient := x }

/-- Takes over the declared number of one field, if there is one. -/
def setNumber? (c : Composed) (f : NumberField) (x : Option Float) : Composed :=
  match x with
  | none => c
  | some x => c.setNumber f x

/-- Takes over all declared numbers of a glyph. -/
def override (c : Composed) (g : Glyph) : Composed :=
  [NumberField.resonance, .magnitude, .coherence, .phaseOffset, .entanglement].foldl
    (fun c f => c.setNumber? f (g.number f)) c

end Composed

namespace Registry

/-- The composition of a lineage. Ids that are not registered contribute nothing. -/
def compose (r : Registry) (l : Lineage) : Composed :=
  let c := (l.compositionOrder.filterMap r.get?).foldl Composed.override {}
  { c with state := { c.state with depth := l.depth } }

end Registry

end GlyphField
