import GlyphField.Activation.Interpreter
import GlyphField.Activation.Projection
import GlyphField.CommandLine.Options
import GlyphField.SelfTest
import GlyphField.Substrate.Status
import GlyphField.Vault.Load

/-!
# GlyphField.CommandLine.Session

What the program does with its arguments: it loads the vault and the single files, in this order,
and then lists the glyphs, activates some of them, or activates all and shows the state of the
substrate. Files that are refused and glyphs that cannot be activated are reported and do not stop
the rest. The self test loads nothing.
-/

namespace GlyphField

/-! ## Outcomes -/

/-- Why the program fails. -/
inductive SessionError where
  | vault (e : VaultError)
  | setting (e : SettingFault)
  | substrate (e : SubstrateError)
  | activations (failed total : Nat)
  | checks (failed : Nat)

/-- The wording of an error. -/
def SessionError.message : SessionError → String
  | .vault e => e.message
  | .setting e => e.message
  | .substrate e => e.message
  | .activations failed total =>
    toString failed ++ " of " ++ toString total ++ " activation(s) failed"
  | .checks failed => toString failed ++ " self-test check(s) failed"

/-- What the program writes, and why it fails, if it does. -/
structure Transcript where
  output : String := ""
  /-- Reports on refused files and failed activations. -/
  reports : String := ""
  error : Option SessionError := none

namespace Transcript

/-- What goes to the error output: the reports, and at the end the error. -/
def errorOutput (t : Transcript) : String :=
  match t.error with
  | none => t.reports
  | some e => t.reports ++ "error: " ++ e.message ++ "\n"

/-- The exit code of the program. -/
def exitCode (t : Transcript) : UInt8 := if t.error.isSome then 1 else 0

end Transcript

/-- The settings of the interpreter. -/
def Options.activationSettings (o : Options) : ActivationSettings :=
  { traceEnabled := o.traceEnabled, traceCapacity := o.traceCapacity }

namespace Session

/-! ## Listing -/

/-- A glyph in one line. -/
def glyphLine (g : Glyph) : String :=
  let parents := if g.parents.isEmpty then "-" else ",".intercalate g.parents
  let resonance := (g.resonance.map fun x => Decimal.fixed 2 x ++ "Hz").getD "-"
  Text.padRight 16 g.id ++ " parents=" ++ Text.padRight 24 parents ++ " resonance=" ++
    Text.padRight 12 resonance ++ " script=" ++ g.script ++ "\n"

/-- The number of glyphs, and a line for each. -/
def listing (r : Registry) : String :=
  toString r.size ++ " glyph(s) loaded\n" ++ String.join (r.glyphs.map glyphLine)

/-! ## Projecting -/

/-- Activations being projected. -/
structure Progress where
  substrate : Substrate := .initial
  /-- A line for each projected activation. -/
  lines : String := ""
  /-- A line for each failed activation. -/
  reports : String := ""
  projected : Nat := 0
  failed : Nat := 0

/-- A projected activation in one line. -/
def activationLine (id : String) (a : Activation) (r : Reading) : String :=
  id ++ ": " ++ a.state.text ++ " -> cell " ++ toString a.homeCell.val ++ " (mag=" ++
    Decimal.fixed 3 r.magnitude ++ " phase=" ++ Decimal.fixed 3 r.phase ++ " coh=" ++
    Decimal.fixed 1 r.coherence ++ ")\n"

/-- A failed activation in one line. -/
def failureLine (id : String) (e : ActivationError) : String :=
  id ++ ": activation failed: " ++ e.message ++ "\n"

/-- Projects the activations in order, up to the first whose projection fails. -/
def project (p : Progress) :
    List (String × Except ActivationError Activation) → Progress × Option SubstrateError
  | [] => (p, none)
  | (id, .error e) :: rest =>
    project { p with reports := p.reports ++ failureLine id e, failed := p.failed + 1 } rest
  | (id, .ok a) :: rest =>
    match a.project p.substrate with
    | (.error e, substrate) => ({ p with substrate }, some e)
    | (.ok r, substrate) =>
      project
        { p with
          substrate
          lines := p.lines ++ activationLine id a r
          projected := p.projected + 1 }
        rest

/-- The error of a substrate that fails its parity check. -/
def parityError (s : Substrate) : Option SubstrateError :=
  match s.sync with
  | .ok _ => none
  | .error e => some e

/-! ## Actions -/

/-- Activates glyphs and shows each, then the trace. -/
def activate (o : Options) (r : Registry) (ids : List String) : Transcript :=
  match Interpreter.withSettings r o.activationSettings with
  | .error e => { error := some (.setting e) }
  | .ok i =>
    let (results, i) := i.activateAll ids
    match project {} results with
    | (p, some e) => { output := p.lines, reports := p.reports, error := some (.substrate e) }
    | (p, none) =>
      { output := p.lines ++ if o.traceEnabled then i.trace.text else ""
        reports := p.reports
        error :=
          match parityError p.substrate with
          | some e => some (.substrate e)
          | none => if p.failed = 0 then none else some (.activations p.failed ids.length) }

/-- Activates every glyph and shows the state of the substrate. -/
def status (o : Options) (r : Registry) : Transcript :=
  match Interpreter.withSettings r o.activationSettings with
  | .error e => { error := some (.setting e) }
  | .ok i =>
    match project {} (i.activateAll r.ids).1 with
    | (p, some e) => { reports := p.reports, error := some (.substrate e) }
    | (p, none) =>
      let shown := "Glyphs projected: " ++ toString p.projected ++ "/" ++ toString r.size ++
        "\n" ++ p.substrate.status.text ++ "\n"
      match parityError p.substrate with
      | some e => { output := shown, reports := p.reports, error := some (.substrate e) }
      | none => { output := shown ++ "Parity: OK\n", reports := p.reports }

/-- Runs the self test. -/
def selfTest : Transcript :=
  let report := SelfTest.run
  { output := report.text ++ "\n"
    error := if report.isSuccess then none else some (.checks report.failed) }

/-- What is done with the loaded glyphs. -/
def act (o : Options) (r : Registry) : Transcript :=
  match o.action with
  | .list => { output := listing r }
  | .activate ids => activate o r ids
  | .status => status o r
  | .selfTest => selfTest

/-! ## Loading -/

variable {m : Type → Type} [Monad m]

/-- Something to load. -/
inductive Source where
  | directory (p : Path)
  | file (p : Path)

/-- What the options name, in the order of loading. The self test needs nothing. -/
def sources (o : Options) : List Source :=
  match o.action with
  | .selfTest => []
  | _ => o.vault.toList.map .directory ++ o.files.map .file

/-- Loads a source. -/
def Source.load (fs : FileSystem m) (r : Registry) :
    Source → m (Except VaultError (Registry × LoadReport))
  | .directory p => Vault.standard.loadDirectory fs p r
  | .file p => Vault.standard.loadFile fs p r

/-- A refused file in one line. -/
def rejectionLine (j : Rejection) : String :=
  (if j.error.isSecurity then "security" else "rejected") ++ ": " ++ j.path.text ++ ": " ++
    j.error.message ++ "\n"

/-- Loads sources in order, up to the first that cannot be read; with the reports on files. -/
def load (fs : FileSystem m) (r : Registry) (reports : String) :
    List Source → m (Except VaultError Registry × String)
  | [] => return (.ok r, reports)
  | s :: rest => do
    match ← s.load fs r with
    | .error e => return (.error e, reports)
    | .ok (r, report) =>
      load fs r (reports ++ String.join (report.rejected.map rejectionLine)) rest

/-- Runs the program. -/
def run (fs : FileSystem m) (o : Options) : m Transcript := do
  match ← load fs .empty "" (sources o) with
  | (.error e, reports) => return { reports, error := some (.vault e) }
  | (.ok r, reports) =>
    let t := act o r
    return { t with reports := reports ++ t.reports }

end Session

end GlyphField
