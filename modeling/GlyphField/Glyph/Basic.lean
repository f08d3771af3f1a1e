/-!
# GlyphField.Glyph.Basic

A glyph: an id, the ids of its parents, declared numbers, an activation script and texts that
only travel along. A number that is not declared is distinct from every declared one, since
inheritance passes declared numbers on.

The numeric and the textual fields are addressed by `NumberField` and `TextField`; each has its
range or its longest size, in bytes.
-/

namespace GlyphField

/-! ## Fields -/

/-- The numeric fields. -/
inductive NumberField where
  | resonance
  | magnitude
  | coherence
  | entanglement
  | phaseOffset
deriving DecidableEq, Repr

/-- The textual fields. -/
inductive TextField where
  | chronocode
  | contributor
  | material
  | frequencySignature
  | script
  | metadata
  | dependencies
  | outputs
  | constraints
deriving DecidableEq, Repr

/-- The least and the greatest value of a numeric field, both allowed. -/
def NumberField.range : NumberField → Float × Float
  | .resonance => (0, 100000)
  | .magnitude => (0, 1000)
  | .coherence => (0, 100)
  | .entanglement => (0, 100)
  | .phaseOffset => (-360, 360)

/-- The longest size of a textual field, in bytes. -/
def TextField.maxBytes : TextField → Nat
  | .chronocode => 32
  | .contributor => 64
  | .material => 256
  | .frequencySignature => 512
  | .script => 256
  | .metadata => 512
  | .dependencies => 512
  | .outputs => 512
  | .constraints => 512

/-! ## Glyphs -/

/-- A glyph definition. -/
structure Glyph where
  id : String
  parents : List String := []
  resonance : Option Float := none
  magnitude : Option Float := none
  coherence : Option Float := none
  entanglement : Option Float := none
  phaseOffset : Option Float := none
  /-- How many components the superposition at the home cell has. -/
  quantumState : Option UInt8 := none
  chronocode : String := ""
  contributor : String := ""
  material : String := ""
  frequencySignature : String := ""
  script : String := ""
  metadata : String := ""
  dependencies : String := ""
  outputs : String := ""
  constraints : String := ""
deriving DecidableEq

namespace Glyph

/-- The most parents a definition may declare. -/
def maxParents : Nat := 16

/-- The largest superposition a definition may declare. -/
def maxQuantumState : Nat := 8

/-- The value declared for a numeric field. -/
def number (g : Glyph) : NumberField → Option Float
  | .resonance => g.resonance
  | .magnitude => g.magnitude
  | .coherence => g.coherence
  | .entanglement => g.entanglement
  | .phaseOffset => g.phaseOffset

/-- The glyph with a numeric field declared anew. -/
def setNumber (g : Glyph) (f : NumberField) (x : Float) : Glyph :=
  match f with
  | .resonance => { g with resonance := some x }
  | .magnitude => { g with magnitude := some x }
  | .coherence => { g with coherence := some x }
  | .entanglement => { g with entanglement := some x }
  | .phaseOffset => { g with phaseOffset := some x }

/-- The text of a textual field. -/
def text (g : Glyph) : TextField → String
  | .chronocode => g.chronocode
  | .contributor => g.contributor
  | .material => g.material
  | .frequencySignature => g.frequencySignature
  | .script => g.script
  | .metadata => g.metadata
  | .dependencies => g.dependencies
  | .outputs => g.outputs
  | .constraints => g.constraints

/-- The glyph with a textual field declared anew. -/
def setText (g : Glyph) (f : TextField) (s : String) : Glyph :=
  match f with
  | .chronocode => { g with chronocode := s }
  | .contributor => { g with contributor := s }
  | .material => { g with material := s }
  | .frequencySignature => { g with frequencySignature := s }
  | .script => { g with script := s }
  | .metadata => { g with metadata := s }
  | .dependencies => { g with dependencies := s }
  | .outputs => { g with outputs := s }
  | .constraints => { g with constraints := s }

/-! ## Reading a field after a change -/

theorem number_setNumber (g : Glyph) (f f' : NumberField) (x : Float) :
    (g.setNumber f x).number f' = if f' = f then some x else g.number f' := by
  cases f <;> cases f' <;> rfl

theorem text_setText (g : Glyph) (f f' : TextField) (s : String) :
    (g.setText f s).text f' = if f' = f then s else g.text f' := by
  cases f <;> cases f' <;> rfl

@[simp] theorem text_setNumber (g : Glyph) (f : NumberField) (x : Float) (f' : TextField) :
    (g.setNumber f x).text f' = g.text f' := by
  cases f <;> cases f' <;> rfl

@[simp] theorem number_setText (g : Glyph) (f : TextField) (s : String) (f' : NumberField) :
    (g.setText f s).number f' = g.number f' := by
  cases f <;> cases f' <;> rfl

end Glyph

end GlyphField
