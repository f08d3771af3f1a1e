import GlyphField.Quantity

/-!
# GlyphField.Settings

The settings of the vault and of activation, with their defaults. Each limit has a hard upper
bound: a setting may tighten a limit, never relax it. Settings are checked field by field, in
the order of declaration.
-/

namespace GlyphField

/-! ## Faults -/

/-- A field whose value is refused. -/
inductive SettingFault where
  | maxFileSize
  | extension
  | maxDepth
  | traceCapacity
  | stabilizeIncrement
  | entangleDamping
  | referenceResonance
deriving DecidableEq, Repr

namespace SettingFault

/-- The name of the field. -/
def field : SettingFault → String
  | .maxFileSize => "max_file_size"
  | .extension => "extension"
  | .maxDepth => "max_depth"
  | .traceCapacity => "trace_capacity"
  | .stabilizeIncrement => "stabilize_increment"
  | .entangleDamping => "entangle_damping"
  | .referenceResonance => "reference_resonance"

/-- What the field must be. -/
def reason : SettingFault → String
  | .maxFileSize => "must be in 1..=1048576"
  | .extension => "must be a bare, non-empty extension"
  | .maxDepth => "must be in 1..=32"
  | .traceCapacity => "must be in 1..=1024"
  | .stabilizeIncrement => "must be finite and non-negative"
  | .entangleDamping => "must be in [0, 1]"
  | .referenceResonance => "must be finite and positive"

/-- The wording of the fault. -/
def message (f : SettingFault) : String :=
  "invalid configuration `" ++ f.field ++ "`: " ++ f.reason

end SettingFault

/-! ## Vault -/

/-- What a vault accepts. -/
structure VaultSettings where
  /-- The largest file that is read, in bytes. -/
  maxFileSize : Nat := 1048576
  /-- The extension of definition files, without its point. -/
  extension : String := "gdf"
deriving DecidableEq, Repr

namespace VaultSettings

/-- Whether an extension is one part of a file name: not empty, without separators or points. -/
def isBareExtension (s : String) : Bool :=
  !s.isEmpty && !s.toList.any fun c => c = '/' || c = '\\' || c = '.'

/-- The first field whose value is refused. -/
def fault? (s : VaultSettings) : Option SettingFault :=
  if s.maxFileSize = 0 ∨ 1048576 < s.maxFileSize then some .maxFileSize
  else if !isBareExtension s.extension then some .extension
  else none

end VaultSettings

/-! ## Activation -/

/-- How glyphs are activated. -/
structure ActivationSettings where
  /-- The longest chain of parents, and of entanglements. -/
  maxDepth : Nat := 32
  /-- How many entries the trace keeps. -/
  traceCapacity : Nat := 1024
  /-- Whether a trace is recorded. -/
  traceEnabled : Bool := true
  /-- What stabilizing adds to the coherence. -/
  stabilizeIncrement : Float := 10
  /-- The share of a target's contribution that is kept. -/
  entangleDamping : Float := 0.95
  /-- The resonance at which a target contributes one. -/
  referenceResonance : Float := 440
deriving DecidableEq

namespace ActivationSettings

/-- The first field whose value is refused. -/
def fault? (s : ActivationSettings) : Option SettingFault :=
  if s.maxDepth = 0 ∨ 32 < s.maxDepth then some .maxDepth
  else if s.traceCapacity = 0 ∨ 1024 < s.traceCapacity then some .traceCapacity
  else if !s.stabilizeIncrement.isFinite || s.stabilizeIncrement < 0 then some .stabilizeIncrement
  else if !Quantity.within 0 1 s.entangleDamping then some .entangleDamping
  else if !s.referenceResonance.isFinite || s.referenceResonance ≤ 0 then some .referenceResonance
  else none

end ActivationSettings

end GlyphField
