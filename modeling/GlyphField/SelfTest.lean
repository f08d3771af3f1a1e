import GlyphField.Activation.Interpreter
import GlyphField.Activation.Projection
import GlyphField.Glyph.Reader
import GlyphField.Substrate.Wave

/-!
# GlyphField.SelfTest

The built-in self test: four reference glyphs are read, registered, activated and projected, and
every part that takes part in it is checked against what is known of them.
-/

namespace GlyphField

/-- The outcome of one check. -/
structure Check where
  name : String
  passed : Bool
  detail : String

/-- The outcome of all checks, in their order. -/
structure TestReport where
  checks : List Check

namespace TestReport

/-- How many checks pass. -/
def passed (r : TestReport) : Nat := r.checks.countP Check.passed

/-- How many checks fail. -/
def failed (r : TestReport) : Nat := r.checks.length - r.passed

/-- Whether every check passes. -/
def isSuccess (r : TestReport) : Bool := r.failed = 0

/-- The line of a check, given with its position. -/
def line (c : Check) (position : Nat) : String :=
  "[TEST " ++ Text.padLeft 2 ' ' (toString (position + 1)) ++ "] " ++ Text.padRight 32 c.name ++
    " " ++ (if c.passed then "PASS" else "FAIL") ++ ": " ++ c.detail ++ "\n"

/-- A line for each check, and the counts. -/
def text (r : TestReport) : String :=
  String.join (r.checks.zipIdx.map fun (c, n) => line c n) ++
    "Passed: " ++ toString r.passed ++ "  Failed: " ++ toString r.failed

end TestReport

namespace SelfTest

/-! ## Reference glyphs -/

/-- A glyph without parents. -/
def root : String :=
  "glyph_id: 000\n" ++
  "chronocode: 20250101_000000\n" ++
  "resonance_freq: 440.0\n" ++
  "field_magnitude: 1.0\n" ++
  "coherence: 100\n" ++
  "entanglement_coeff: 1.0\n" ++
  "phase_offset: 0.0\n" ++
  "activation_simulation: resonate(1.5) | stabilize()\n"

/-- A child of the root that is entangled with it. -/
def child : String :=
  "glyph_id: 001\n" ++
  "chronocode: 20250101_120000\n" ++
  "parent_glyphs: 000\n" ++
  "resonance_freq: 880.0\n" ++
  "field_magnitude: 1.2\n" ++
  "coherence: 95\n" ++
  "entanglement_coeff: 1.5\n" ++
  "phase_offset: 45.0\n" ++
  "activation_simulation: resonate(2.0) | entangle(000) | amplify(1.5)\n"

/-- A glyph with both as parents. -/
def grandchild : String :=
  "glyph_id: 002\n" ++
  "chronocode: 20250101_130000\n" ++
  "parent_glyphs: 001, 000\n" ++
  "resonance_freq: 1320.0\n" ++
  "field_magnitude: 0.8\n" ++
  "coherence: 85\n" ++
  "entanglement_coeff: 2.0\n" ++
  "phase_offset: 90.0\n" ++
  "activation_simulation: resonate(1.5) | entangle(001) | phase_shift(30) | stabilize()\n"

/-- A child of the root whose magnitude decays. -/
def decaying : String :=
  "glyph_id: 003\n" ++
  "chronocode: 20250101_140000\n" ++
  "parent_glyphs: 000\n" ++
  "resonance_freq: 220.0\n" ++
  "field_magnitude: 2.0\n" ++
  "coherence: 100\n" ++
  "entanglement_coeff: 1.0\n" ++
  "phase_offset: 0.0\n" ++
  "activation_simulation: amplify(3.0) | decay(0.2) | stabilize()\n"

/-- The reference glyphs. -/
def referenceTexts : List String := [root, child, grandchild, decaying]

/-- Registers the glyph of a text; one that is no definition, or is refused, counts as a
failure. -/
def register (r : Registry × Nat) (text : String) : Registry × Nat :=
  match Glyph.read text with
  | .error _ => (r.1, r.2 + 1)
  | .ok g =>
    match r.1.insert g with
    | .error _ => (r.1, r.2 + 1)
    | .ok (_, registry) => (registry, r.2)

/-- The registry of the reference glyphs, and how many failed. -/
def reference : Registry × Nat := referenceTexts.foldl register (∅, 0)

/-! ## Checks -/

/-- Names as a list of quoted texts. -/
def quotedList (names : List String) : String :=
  "[" ++ ", ".intercalate (names.map fun s => "\"" ++ s ++ "\"") ++ "]"

/-- The reference glyphs are read and registered. -/
def checkReading (r : Registry) (failures : Nat) : Check :=
  ⟨"GDF parser", failures = 0 && r.size = referenceTexts.length,
    toString r.size ++ " reference glyphs loaded"⟩

/-- A registered glyph is found. -/
def checkLookup (r : Registry) : Check :=
  ⟨"Registry lookup", (r.get? "001").map Glyph.id = some "001", "glyph 001"⟩

/-- All declared parents are kept. -/
def checkParents (r : Registry) : Check :=
  let count := ((r.get? "002").map fun g => g.parents.length).getD 0
  ⟨"Parent list", count = 2, "glyph 002 declares " ++ toString count ++ " parents"⟩

/-- The lineage of the grandchild is complete. -/
def checkLineage (r : Registry) : Check :=
  let name := "Inheritance resolution"
  match r.lineage Registry.maxDepth "002" with
  | .error e => ⟨name, false, e.message⟩
  | .ok l =>
    ⟨name, l.ancestors = ["001", "000"] ∧ l.depth = 2,
      "ancestors " ++ quotedList l.ancestors ++ ", depth " ++ toString l.depth⟩

/-- A command is read. -/
def checkCommand : Check :=
  ⟨"Command parsing", Command.ofPiece "resonate(2.5)".toList = .resonate 2.5, "resonate(2.5)"⟩

/-- An activation succeeds, and its state is as it must be. -/
def checkActivation (name : String) (result : Except ActivationError Activation)
    (passes : FieldState → Bool) (detail : FieldState → String) : Check :=
  match result with
  | .error e => ⟨name, false, e.message⟩
  | .ok a => ⟨name, passes a.state, detail a.state⟩

/-- The root has a field. -/
def checkRoot (result : Except ActivationError Activation) : Check :=
  checkActivation "Root activation" result (fun s => 0 < s.resonance && 0 < s.magnitude)
    FieldState.text

/-- The grandchild differs from the root it descends from. -/
def checkInherited (root result : Except ActivationError Activation) : Check :=
  let evolved (s : FieldState) : Bool :=
    match root with
    | .error _ => true
    | .ok a => a.state.resonance != s.resonance
  checkActivation "Inherited activation" result
    (fun s => s.depth = 2 && 0 < s.entanglement && evolved s) FieldState.text

/-- The child has gained from its entanglement. -/
def checkEntanglement (result : Except ActivationError Activation) : Check :=
  checkActivation "Entanglement" result (fun s => 1 < s.entanglement)
    fun s => "E=" ++ Decimal.fixed 3 s.entanglement

/-- A fifth of the magnitude is lost. -/
def checkDecay (result : Except ActivationError Activation) : Check :=
  checkActivation "Decay" result (fun s => (s.magnitude - 4.8).abs < 1e-9)
    fun s => "M=" ++ Decimal.fixed 3 s.magnitude

/-- The activations have left a trace. -/
def checkTrace (t : Trace) : Check :=
  ⟨"Trace", t.size ≠ 0, toString t.size ++ " entries"⟩

/-- Where the wave of the test starts. -/
def waveOrigin : Index := ⟨2080, by decide⟩

/-- The projection of an activation that has succeeded. -/
def projectResult (result : Except ActivationError Activation) (s : Substrate) :
    Bool × Substrate :=
  match result with
  | .error _ => (false, s)
  | .ok a =>
    match a.project s with
    | (r, s) => (r.isOk, s)

/-- A wave and a projection keep the parity of a substrate. -/
def checkParity (root : Except ActivationError Activation) : Check :=
  let start := Substrate.initial
  let (projected, s) := projectResult root (start.wave waveOrigin ⟨50, 1⟩).2
  ⟨"Substrate parity", start.sync.isOk && projected && s.sync.isOk,
    "checksum " ++ Text.hexWord s.checksum⟩

/-- Runs all checks. -/
def run : TestReport :=
  let (registry, failures) := reference
  let (root, i) := (Interpreter.new registry).activate "000"
  let (grandchild, i) := i.activate "002"
  let (child, i) := i.activate "001"
  let (decaying, i) := i.activate "003"
  ⟨[checkReading registry failures, checkLookup registry, checkParents registry,
    checkLineage registry, checkCommand, checkRoot root, checkInherited root grandchild,
    checkEntanglement child, checkDecay decaying, checkTrace i.trace, checkParity root]⟩

end SelfTest

end GlyphField
