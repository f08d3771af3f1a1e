import GlyphField.Activation.Trace
import GlyphField.Lineage.Walk
import GlyphField.Script.Reader
import GlyphField.Settings

/-!
# GlyphField.Activation.Run

One activation: a glyph's state is composed from its lineage, and its script is run on it. A
command that entangles the glyph with another one first activates that target, inside the same
run; every glyph is activated at most once in a run, later entanglements with it take the result
that is known.

A chain of entanglements must not come back to a glyph on it, and must not be longer than the
limit. A target that is known already brings its height, the longest chain below it, so that the
limit is checked without running it again.

A run keeps the steps it has done also when it fails.
-/

namespace GlyphField

/-! ## Results -/

/-- Why an activation fails. -/
inductive ActivationError where
  | lineage (e : LineageError)
  | unknownTarget (id target : String)
  | noParent (id : String)
deriving DecidableEq, Repr

/-- The wording of an error. -/
def ActivationError.message : ActivationError → String
  | .lineage e => e.message
  | .unknownTarget id target => "`" ++ id ++ "` entangles unknown target `" ++ target ++ "`"
  | .noParent id => "`" ++ id ++ "` entangles its parent but declares none"

/-- An activated glyph. -/
structure Activation where
  glyphId : String
  state : FieldState
  lineage : Lineage
  quantumState : Option UInt8
deriving DecidableEq

/-- The activation of a glyph and the longest chain of entanglements below it. -/
structure Finished where
  activation : Activation
  height : Nat
deriving DecidableEq

/-- What a run has done so far. -/
structure Run where
  /-- The glyphs activated, the latest first. -/
  finished : List (String × Finished) := []
  /-- The steps done, in order. -/
  steps : Array Step := #[]

/-- A run, and what came out of its latest part. -/
abbrev Outcome (α : Type) := Except ActivationError α × Run

namespace Run

/-- The result for a glyph that has been activated in this run. -/
def find? (run : Run) (id : String) : Option Finished := run.finished.lookup id

/-- Adds a step. -/
def record (run : Run) (id operation : String) (state : FieldState) : Run :=
  { run with steps := run.steps.push ⟨id, operation, state⟩ }

/-- Adds an activated glyph. -/
def finish (run : Run) (f : Finished) : Run :=
  { run with finished := (f.activation.glyphId, f) :: run.finished }

end Run

/-! ## Commands -/

namespace FieldState

/-- The greatest coherence. -/
def fullCoherence : Float := 100

/-- The effect of a command that concerns the glyph alone. -/
def apply (settings : ActivationSettings) (s : FieldState) : Command → FieldState
  | .resonate x => { s with resonance := s.resonance * x }
  | .amplify x => { s with magnitude := s.magnitude * x }
  | .phaseShift x => { s with phase := Angle.wrap (s.phase + Angle.ofDegrees x) }
  | .stabilize =>
    { s with
      coherence := Quantity.smaller (s.coherence + settings.stabilizeIncrement) fullCoherence }
  | .decay x => { s with magnitude := s.magnitude * (1 - x) }
  | .entangle _ => s
  | .unknown _ => s
  | .malformed _ _ _ => s

/-- The effect of entangling a glyph of this coefficient with an activated target. -/
def entangle (settings : ActivationSettings) (coefficient : Float) (s target : FieldState) :
    FieldState :=
  { s with
    entanglement := s.entanglement +
      target.resonance / settings.referenceResonance * settings.entangleDamping * coefficient
    resonance := s.resonance * (target.coherence / fullCoherence) }

end FieldState

/-- The id that a target names for this glyph. -/
def Glyph.targetName (g : Glyph) : Target → Except ActivationError String
  | .glyph id => .ok id
  | .parent =>
    match g.parents with
    | [] => .error (.noParent g.id)
    | p :: _ => .ok p

/-- The target of an entanglement of a glyph, which must be registered. -/
def Registry.targetId (r : Registry) (g : Glyph) (t : Target) : Except ActivationError String :=
  (g.targetName t).bind fun id =>
    if r.contains id then .ok id else .error (.unknownTarget g.id id)

/-- How a target is activated: its id and the run so far. -/
abbrev Activate := String → Run → Outcome Finished

/-- A glyph at work: its definition, its coefficient and how its targets are activated. -/
structure Worker where
  settings : ActivationSettings
  registry : Registry
  glyph : Glyph
  coefficient : Float
  activate : Activate

/-- A state and the longest chain of entanglements so far. -/
structure Progress where
  state : FieldState
  height : Nat := 0

namespace Worker

/-- Runs one command. -/
def runCommand (w : Worker) (p : Progress) (c : Command) (run : Run) : Outcome Progress :=
  match c with
  | .entangle t =>
    match w.registry.targetId w.glyph t with
    | .error e => (.error e, run)
    | .ok id =>
      match w.activate id run with
      | (.error e, run) => (.error e, run)
      | (.ok f, run) =>
        (.ok ⟨p.state.entangle w.settings w.coefficient f.activation.state,
          max p.height (f.height + 1)⟩, run)
  | c => (.ok { p with state := p.state.apply w.settings c }, run)

/-- Runs commands in order, a step for each. -/
def runCommands (w : Worker) (p : Progress) (run : Run) : List Command → Outcome Progress
  | [] => (.ok p, run)
  | c :: cs =>
    match w.runCommand p c run with
    | (.error e, run) => (.error e, run)
    | (.ok p, run) => w.runCommands p (run.record w.glyph.id c.label p.state) cs

end Worker

/-! ## Glyphs -/

/-- The commands of a glyph's script. -/
def Glyph.commands (g : Glyph) : List Command := Script.commands g.script.toList

namespace Registry

/-- The cycle closed by coming back to a glyph on the path, whose latest glyph stands first. -/
def cycleTo (path : List String) (id : String) : List String :=
  id :: ((path.takeWhile (· ≠ id)).reverse ++ [id])

/-- Activates a glyph that has not been activated in this run. -/
def activateNew (settings : ActivationSettings) (r : Registry) (activate : Activate) (id : String)
    (run : Run) : Outcome Finished :=
  match r.lineage settings.maxDepth id, r.get? id with
  | .error e, _ => (.error (.lineage e), run)
  | .ok _, none => (.error (.lineage (.unknownGlyph id)), run)
  | .ok l, some g =>
    let c := r.compose l
    let worker : Worker := ⟨settings, r, g, c.coefficient, activate⟩
    match worker.runCommands ⟨c.state, 0⟩ (run.record id "compose" c.state) g.commands with
    | (.error e, run) => (.error e, run)
    | (.ok p, run) =>
      let f : Finished := ⟨⟨id, p.state, l, g.quantumState⟩, p.height⟩
      (.ok f, run.finish f)

/-- Activates a glyph. `path` holds the glyphs whose scripts are running, the latest first, and
`levels` counts how many more may be opened. -/
def activateWithin (settings : ActivationSettings) (r : Registry) (levels : Nat)
    (path : List String) (id : String) (run : Run) : Outcome Finished :=
  if path.contains id then (.error (.lineage (.circular id (cycleTo path id))), run)
  else
    match levels with
    | 0 => (.error (.lineage (.tooDeep id settings.maxDepth)), run)
    | levels + 1 =>
      match run.find? id with
      | some f =>
        if levels < f.height then (.error (.lineage (.tooDeep id settings.maxDepth)), run)
        else (.ok f, run)
      | none =>
        r.activateNew settings (r.activateWithin settings levels (id :: path)) id run

/-- Activates a glyph in a run of its own. A chain of entanglements may have as many links as the
limit says. -/
def activate (settings : ActivationSettings) (r : Registry) (id : String) : Outcome Activation :=
  match r.activateWithin settings (settings.maxDepth + 1) [] id {} with
  | (.error e, run) => (.error e, run)
  | (.ok f, run) => (.ok f.activation, run)

end Registry

end GlyphField
