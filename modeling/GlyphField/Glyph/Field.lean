import GlyphField.Glyph.Basic

/-!
# GlyphField.Glyph.Field

The fields of a definition text and their keys. Every field has one canonical key, its `name`;
some have a short alias.
-/

namespace GlyphField

/-- A field of a definition text. -/
inductive Field where
  | id
  | parents
  | number (f : NumberField)
  | quantumState
  | text (f : TextField)
deriving DecidableEq, Repr

namespace Field

/-- The canonical key. -/
def name : Field → String
  | .id => "glyph_id"
  | .parents => "parent_glyphs"
  | .number .resonance => "resonance_freq"
  | .number .magnitude => "field_magnitude"
  | .number .coherence => "coherence"
  | .number .entanglement => "entanglement_coeff"
  | .number .phaseOffset => "phase_offset"
  | .quantumState => "quantum_state"
  | .text .chronocode => "chronocode"
  | .text .contributor => "contributor_inheritance"
  | .text .material => "material_spec"
  | .text .frequencySignature => "frequency_signature"
  | .text .script => "activation_simulation"
  | .text .metadata => "metadata"
  | .text .dependencies => "dependencies"
  | .text .outputs => "outputs"
  | .text .constraints => "constraints"

/-- Every field. -/
def all : List Field :=
  [.id, .text .chronocode, .parents, .number .resonance, .number .magnitude, .number .coherence,
   .text .contributor, .text .material, .text .frequencySignature, .text .script,
   .number .entanglement, .number .phaseOffset, .quantumState, .text .metadata,
   .text .dependencies, .text .outputs, .text .constraints]

/-- The short keys. -/
def aliases : List (String × Field) :=
  [("parent", .parents), ("resonance", .number .resonance), ("magnitude", .number .magnitude),
   ("contributor", .text .contributor), ("material", .text .material),
   ("freq_sig", .text .frequencySignature), ("activation", .text .script),
   ("entanglement", .number .entanglement), ("phase", .number .phaseOffset)]

/-- The field with this key. -/
def ofKey? (key : String) : Option Field :=
  (all.find? fun f => f.name = key).or (aliases.lookup key)

theorem mem_all (f : Field) : f ∈ all := by
  cases f with
  | id => decide
  | parents => decide
  | quantumState => decide
  | number f => cases f <;> decide
  | text f => cases f <;> decide

/-- The canonical key of a field is a key of that field. -/
theorem ofKey?_name (f : Field) : ofKey? f.name = some f := by
  cases f with
  | id => decide
  | parents => decide
  | quantumState => decide
  | number f => cases f <;> decide
  | text f => cases f <;> decide

end Field

end GlyphField
