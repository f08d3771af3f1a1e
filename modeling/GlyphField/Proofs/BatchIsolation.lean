import GlyphField.Proofs.ActivationLimit
import GlyphField.Proofs.ErrorCertificates

/-!
# GlyphField.Proofs.BatchIsolation

What one activation leaves to the next.  An activation works in a run of its own, and of the
settings that belong to the trace nothing in it depends; what is left behind is the trace, which
no activation reads.  So the results of a batch are those that each of its glyphs has alone, in an
interpreter with whatever trace, and the trace is that of all their steps in order.

* `activateWithin_withTrace` — the settings of the trace do not matter, for any nesting;
* `sameRuns_useAll` — uses of an interpreter change no later activation;
* `activateAll_isolated` — the items of a batch.
-/

namespace GlyphField

/-- The same settings with another trace. -/
def ActivationSettings.withTrace (settings : ActivationSettings) (enabled : Bool)
    (capacity : Nat) : ActivationSettings :=
  { settings with traceEnabled := enabled, traceCapacity := capacity }

/-! ## the settings of the trace -/

section WithTrace

variable {settings : ActivationSettings} {r : Registry} {enabled : Bool} {capacity : Nat}
  {g : Glyph} {coefficient : Float} {activate activate' : Activate}

theorem runCommand_withTrace (h : ∀ id run, activate' id run = activate id run) (p : Progress)
    (c : Command) (run : Run) :
    Worker.runCommand ⟨settings.withTrace enabled capacity, r, g, coefficient, activate'⟩ p c run =
      Worker.runCommand ⟨settings, r, g, coefficient, activate⟩ p c run := by
  cases c with
  | entangle t =>
      simp only [Worker.runCommand, h]
      rfl
  | _ => rfl

theorem runCommands_withTrace (h : ∀ id run, activate' id run = activate id run) (p : Progress)
    (run : Run) (cs : List Command) :
    Worker.runCommands ⟨settings.withTrace enabled capacity, r, g, coefficient, activate'⟩ p run
        cs =
      Worker.runCommands ⟨settings, r, g, coefficient, activate⟩ p run cs := by
  induction cs generalizing p run with
  | nil => rfl
  | cons c cs ih => simp only [Worker.runCommands, runCommand_withTrace h, ih]

theorem activateNew_withTrace (h : ∀ id run, activate' id run = activate id run) (id : String)
    (run : Run) :
    r.activateNew (settings.withTrace enabled capacity) activate' id run =
      r.activateNew settings activate id run := by
  simp only [Registry.activateNew, runCommands_withTrace h]
  rfl

/-- Nested activations, by induction on the levels left. -/
theorem activateWithin_withTrace (levels : Nat) (path : List String) (id : String) (run : Run) :
    r.activateWithin (settings.withTrace enabled capacity) levels path id run =
      r.activateWithin settings levels path id run := by
  induction levels generalizing path id run with
  | zero => rfl
  | succ levels ih =>
      simp only [Registry.activateWithin, activateNew_withTrace (ih (id :: path))]
      rfl

theorem activate_withTrace (id : String) :
    r.activate (settings.withTrace enabled capacity) id = r.activate settings id := by
  rw [Registry.activate, Registry.activate, activateWithin_withTrace]
  rfl

end WithTrace

/-! ## earlier uses -/

namespace Interpreter

/-- What an interpreter can be used for. -/
inductive Use where
  | activate (id : String)
  | activateAll (ids : List String)
  | clearTrace

/-- The interpreter after a use, one that fails included. -/
def use (i : Interpreter) : Use → Interpreter
  | .activate id => (i.activate id).2
  | .activateAll ids => (i.activateAll ids).2
  | .clearTrace => i.clearTrace

/-- The interpreter after uses in order. -/
def useAll (i : Interpreter) (us : List Use) : Interpreter := us.foldl use i

/-- Every glyph has the same activation in both interpreters, with the same steps. -/
def SameRuns (i j : Interpreter) : Prop :=
  ∀ id, (i.activate id).1 = (j.activate id).1 ∧ i.steps id = j.steps id

section Uses

variable {i j k : Interpreter} {enabled : Bool} {capacity : Nat}

theorem SameRuns.symm (h : SameRuns i j) : SameRuns j i := fun id =>
  ⟨(h id).1.symm, (h id).2.symm⟩

theorem SameRuns.trans (h : SameRuns i j) (h' : SameRuns j k) : SameRuns i k := fun id =>
  ⟨(h id).1.trans (h' id).1, (h id).2.trans (h' id).2⟩

/-- An activation sees the registry and the settings only. -/
theorem sameRuns_of_eq (hregistry : i.registry = j.registry) (hsettings : i.settings = j.settings) :
    SameRuns i j := by
  intro id
  simp only [activate, steps, hregistry, hsettings, and_self]

theorem activateAll_keeps (i : Interpreter) (ids : List String) :
    (i.activateAll ids).2.registry = i.registry ∧ (i.activateAll ids).2.settings = i.settings := by
  induction ids generalizing i with
  | nil => exact ⟨rfl, rfl⟩
  | cons id ids ih => exact ih (i.activate id).2

theorem sameRuns_use (i : Interpreter) (u : Use) : SameRuns (i.use u) i := by
  cases u with
  | activate id => exact sameRuns_of_eq rfl rfl
  | activateAll ids =>
      obtain ⟨hregistry, hsettings⟩ := i.activateAll_keeps ids
      exact sameRuns_of_eq hregistry hsettings
  | clearTrace => exact sameRuns_of_eq rfl rfl

theorem sameRuns_useAll (i : Interpreter) (us : List Use) : SameRuns (i.useAll us) i := by
  induction us generalizing i with
  | nil => exact sameRuns_of_eq rfl rfl
  | cons u us ih => exact (ih (i.use u)).trans (i.sameRuns_use u)

/-! ## batches -/

theorem withSettings_eq_ok {r : Registry} {settings : ActivationSettings}
    (h : withSettings r settings = .ok i) :
    i.registry = r ∧ i.settings = settings ∧ i.trace = emptyTrace settings := by
  unfold withSettings at h
  split at h
  · cases h
  · cases h
    exact ⟨rfl, rfl, rfl⟩

theorem sameRuns_withTrace
    (h : withSettings i.registry (i.settings.withTrace enabled capacity) = .ok j) :
    SameRuns i j := by
  obtain ⟨hregistry, hsettings, -⟩ := withSettings_eq_ok h
  intro id
  simp only [activate, steps, hregistry, hsettings, activate_withTrace, and_self]

theorem trace_activate (i : Interpreter) (id : String) :
    (i.activate id).2.trace = i.trace.recordAll (i.steps id) := rfl

/-- A batch, item by item: what remains of it finds an interpreter that only has another trace. -/
theorem SameRuns.activateAll (h : SameRuns i j) (ids : List String) :
    (i.activateAll ids).1 = ids.map (fun id => (id, (j.activate id).1)) ∧
      (i.activateAll ids).2.trace = i.trace.recordAll (ids.flatMap j.steps) := by
  induction ids generalizing i with
  | nil => exact ⟨rfl, rfl⟩
  | cons id ids ih =>
      have hnext : SameRuns (i.activate id).2 j := (i.sameRuns_use (.activate id)).trans h
      obtain ⟨hresults, htrace⟩ := ih hnext
      constructor
      · rw [List.map_cons, ← hresults, ← (h id).1]
        rfl
      · rw [List.flatMap_cons, Trace.recordAll_append, ← (h id).2]
        exact htrace

end Uses

/-- **The items of a batch are isolated.**  After any uses, each glyph of a batch has the result
that it has alone in a new interpreter, whose settings may differ in those of the trace.  The trace
has then recorded, behind what it held before, the steps that each of these activations records in
its own trace, in the order of the batch. -/
theorem activateAll_isolated (i fresh : Interpreter) (enabled : Bool) (capacity : Nat)
    (h : withSettings i.registry (i.settings.withTrace enabled capacity) = .ok fresh)
    (us : List Use) (ids : List String) :
    ((i.useAll us).activateAll ids).1 = ids.map (fun id => (id, (fresh.activate id).1)) ∧
      ((i.useAll us).activateAll ids).2.trace =
        (i.useAll us).trace.recordAll (ids.flatMap fresh.steps) ∧
      ∀ id, (fresh.activate id).2.trace =
        (emptyTrace (i.settings.withTrace enabled capacity)).recordAll (fresh.steps id) := by
  have hruns : SameRuns (i.useAll us) fresh := (i.sameRuns_useAll us).trans (sameRuns_withTrace h)
  obtain ⟨hresults, htrace⟩ := hruns.activateAll ids
  refine ⟨hresults, htrace, fun id => ?_⟩
  rw [trace_activate, (withSettings_eq_ok h).2.2]

theorem rings_isolated : ∃ fresh : Interpreter,
    withSettings rings (ActivationSettings.withTrace {} false 7) = .ok fresh ∧
      (((new rings).useAll [.activate "d", .clearTrace]).activateAll ["d", "z", "d"]).1 =
        [("d", (fresh.activate "d").1), ("z", (fresh.activate "z").1),
          ("d", (fresh.activate "d").1)] := by
  have hfault : (ActivationSettings.withTrace {} false 7).fault? = none := by decide +kernel
  have hfresh := withSettings_of_fault? (r := rings) hfault
  exact ⟨_, hfresh, (activateAll_isolated (new rings) _ false 7 hfresh _ _).1⟩

end Interpreter

end GlyphField
