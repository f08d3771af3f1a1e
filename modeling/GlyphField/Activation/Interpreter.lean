import GlyphField.Activation.Run

/-!
# GlyphField.Activation.Interpreter

An interpreter activates glyphs of one registry, under checked settings, and keeps a trace of
their steps. Activations do not depend on each other; all they share is the trace.
-/

namespace GlyphField

/-- A registry, settings and the trace of what has been activated. -/
structure Interpreter where
  registry : Registry
  settings : ActivationSettings
  /-- The settings have no fault. -/
  fault?_eq_none : settings.fault? = none
  trace : Trace

namespace Interpreter

/-- The trace that settings ask for. -/
def emptyTrace (settings : ActivationSettings) : Trace :=
  if settings.traceEnabled then Trace.ofCapacity settings.traceCapacity else Trace.disabled

/-- An interpreter under these settings, unless one of them is refused. -/
def withSettings (r : Registry) (settings : ActivationSettings) :
    Except SettingFault Interpreter :=
  match h : settings.fault? with
  | some fault => .error fault
  | none => .ok ⟨r, settings, h, emptyTrace settings⟩

/-- An interpreter under the default settings. -/
def new (r : Registry) : Interpreter :=
  ⟨r, {}, by decide +kernel, emptyTrace {}⟩

/-- The steps that an activation of this glyph records. -/
def steps (i : Interpreter) (id : String) : List Step :=
  (i.registry.activate i.settings id).2.steps.toList

/-- Activates a glyph and records its steps, those of a failed activation too. -/
def activate (i : Interpreter) (id : String) :
    Except ActivationError Activation × Interpreter :=
  match i.registry.activate i.settings id with
  | (result, run) => (result, { i with trace := i.trace.recordAll run.steps.toList })

/-- Activates glyphs one after the other; a failure does not stop the rest. -/
def activateAll (i : Interpreter) :
    List String → List (String × Except ActivationError Activation) × Interpreter
  | [] => ([], i)
  | id :: ids =>
    match i.activate id with
    | (result, i) =>
      match i.activateAll ids with
      | (results, i) => ((id, result) :: results, i)

/-- Forgets the trace. -/
def clearTrace (i : Interpreter) : Interpreter := { i with trace := i.trace.clear }

end Interpreter

end GlyphField
