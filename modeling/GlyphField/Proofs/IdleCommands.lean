import GlyphField.Activation.Interpreter
import GlyphField.Proofs.SameParents
import GlyphField.Proofs.ScriptPieces

/-!
# GlyphField.Proofs.IdleCommands

Commands without effect can be erased from all scripts.  A run with them and a run without them go
side by side: an idle command leaves the state and the height as they are and cannot fail, so that
both runs know of the same activated glyphs at every command, and their steps differ by those of
idle commands.  These are found again by their labels, which start like no other.

* `Step.isIdle_label` — labels tell idle commands from the others;
* `runCommands_usable`, `activateWithin_usable` — commands of one glyph, and nested activations;
* `Interpreter.idle_commands_erased` — an activation with and without idle commands.
-/

namespace GlyphField

/-! ## labels -/

/-- Whether a step is that of an idle command: its label says that the command is unknown or
malformed. -/
def Step.isIdle (s : Step) : Bool :=
  "unknown:".toList.isPrefixOf s.operation.toList || "malformed:".toList.isPrefixOf s.operation.toList

/-- The label of a command that can be used starts with its verb. -/
theorem Command.exists_label_eq {c : Command} (h : c.isUsable = true) :
    ∃ (v : Verb) (argument : String), c.label = call v.name argument := by
  cases c with
  | resonate x => exact ⟨.resonate, _, rfl⟩
  | entangle t => exact ⟨.entangle, _, rfl⟩
  | amplify x => exact ⟨.amplify, _, rfl⟩
  | phaseShift x => exact ⟨.phaseShift, _, rfl⟩
  | stabilize => exact ⟨.stabilize, _, rfl⟩
  | decay x => exact ⟨.decay, _, rfl⟩
  | unknown name => cases h
  | malformed name argument fault => cases h

namespace Step

theorem isIdle_compose (id : String) (s : FieldState) : isIdle ⟨id, "compose", s⟩ = false := by
  simp only [isIdle]
  decide

/-- Labels tell idle commands from the others. -/
theorem isIdle_label (id : String) (c : Command) (s : FieldState) :
    isIdle ⟨id, c.label, s⟩ = !c.isUsable := by
  cases h : c.isUsable with
  | true =>
      obtain ⟨v, argument, hlabel⟩ := Command.exists_label_eq h
      simp only [isIdle, hlabel, Command.call, String.toList_append]
      cases v <;> rfl
  | false =>
      cases c with
      | unknown name => simp [isIdle, Command.label]
      | malformed name argument fault => simp [isIdle, Command.label]
      | _ => cases h

end Step

/-- The glyph without the pieces of its script that cannot be used. -/
def Glyph.withUsableScript (g : Glyph) : Glyph :=
  { g with script := String.ofList (Script.usable g.script.toList) }

theorem Glyph.commands_withUsableScript (g : Glyph) :
    g.withUsableScript.commands = g.commands.filter Command.isUsable := by
  rw [commands, commands, withUsableScript, String.toList_ofList, Script.commands_usable]

/-! ## runs -/

namespace Run

/-- The run without the steps of idle commands. -/
def withoutIdle (run : Run) : Run := { run with steps := run.steps.filter fun s => !s.isIdle }

variable (run : Run) (id : String) (s : FieldState)

theorem withoutIdle_compose :
    (run.record id "compose" s).withoutIdle = run.withoutIdle.record id "compose" s := by
  simp [record, withoutIdle, Step.isIdle_compose]

theorem withoutIdle_usable {c : Command} (hc : c.isUsable = true) :
    (run.record id c.label s).withoutIdle = run.withoutIdle.record id c.label s := by
  simp [record, withoutIdle, Step.isIdle_label, hc]

theorem withoutIdle_idle {c : Command} (hc : c.isUsable = false) :
    (run.record id c.label s).withoutIdle = run.withoutIdle := by
  simp [record, withoutIdle, Step.isIdle_label, hc]

end Run

/-- What a part of a run comes to, without the steps of idle commands. -/
def Outcome.withoutIdle {α : Type} (o : Outcome α) : Outcome α := (o.1, o.2.withoutIdle)

/-! ## commands -/

/-- A worker that does the usable commands of another one: their targets are the same, and are
activated to the same results. -/
structure FollowsUsable (w w' : Worker) : Prop where
  settings : w'.settings = w.settings
  id : w'.glyph.id = w.glyph.id
  coefficient : w'.coefficient = w.coefficient
  targetId : ∀ t, w'.registry.targetId w'.glyph t = w.registry.targetId w.glyph t
  activate : ∀ id run, w'.activate id run.withoutIdle = (w.activate id run).withoutIdle

section Commands

variable {w w' : Worker}

theorem runCommand_idle {c : Command} (hc : c.isUsable = false) (p : Progress) (run : Run) :
    w.runCommand p c run = (.ok p, run) := by
  cases c with
  | unknown name => rfl
  | malformed name argument fault => rfl
  | _ => cases hc

theorem runCommand_usable (h : FollowsUsable w w') (p : Progress) (c : Command) (run : Run) :
    w'.runCommand p c run.withoutIdle = (w.runCommand p c run).withoutIdle := by
  cases c with
  | entangle t =>
      simp only [Worker.runCommand, h.targetId, h.settings, h.coefficient]
      cases w.registry.targetId w.glyph t with
      | error e => rfl
      | ok id =>
          simp only [h.activate]
          rcases w.activate id run with ⟨_ | f, run'⟩ <;> rfl
  | _ => simp only [Worker.runCommand, h.settings]; rfl

/-- **Commands of one glyph**, by induction on the commands: an idle one adds a step that does not
count, and nothing else. -/
theorem runCommands_usable (h : FollowsUsable w w') (p : Progress) (run : Run)
    (cs : List Command) :
    w'.runCommands p run.withoutIdle (cs.filter Command.isUsable) =
      (w.runCommands p run cs).withoutIdle := by
  induction cs generalizing p run with
  | nil => rfl
  | cons c cs ih =>
      cases hc : c.isUsable with
      | false =>
          rw [List.filter_cons_of_neg (by simp [hc])]
          simp only [Worker.runCommands, runCommand_idle hc]
          rw [← ih, Run.withoutIdle_idle _ _ _ hc]
      | true =>
          rw [List.filter_cons_of_pos hc]
          simp only [Worker.runCommands, runCommand_usable h]
          rcases w.runCommand p c run with ⟨_ | p', run'⟩
          · rfl
          · show w'.runCommands p' (run'.withoutIdle.record w'.glyph.id c.label p'.state) _ = _
            rw [h.id, ← Run.withoutIdle_usable _ _ _ hc, ih]

end Commands

/-! ## activations -/

namespace Registry

variable {settings : ActivationSettings} {r : Registry} {activate activate' : Activate}

/-- The registry without the pieces of scripts that cannot be used. -/
def withUsableScripts (r : Registry) : Registry :=
  r.mapGlyphs Glyph.withUsableScript fun _ => rfl

theorem contains_withUsableScripts (r : Registry) :
    r.withUsableScripts.contains = r.contains :=
  funext (contains_mapGlyphs _)

theorem get?_withUsableScripts (r : Registry) (id : String) :
    r.withUsableScripts.get? id = (r.get? id).map Glyph.withUsableScript :=
  get?_mapGlyphs _ id

theorem sameParents_withUsableScripts (r : Registry) :
    SameParents r r.withUsableScripts fun _ => true := by
  have hparents {id : String} {g g' : Glyph} (hg : r.get? id = some g)
      (hg' : r.withUsableScripts.get? id = some g') : g'.id = g.id ∧ g'.parents = g.parents := by
    rw [get?_withUsableScripts, hg] at hg'
    cases hg'
    exact ⟨rfl, rfl⟩
  refine ⟨congrFun r.contains_withUsableScripts, fun hg hg' => ?_, fun hg hg' => ?_⟩
  · rw [knownParents, knownParents, contains_withUsableScripts, (hparents hg hg').2]
  · rw [danglingParents, danglingParents, contains_withUsableScripts, (hparents hg hg').1,
      (hparents hg hg').2, List.filter_true]

theorem lineage_withUsableScripts (r : Registry) (limit : Nat) (id : String) :
    r.withUsableScripts.lineage limit id = r.lineage limit id := by
  rw [r.sameParents_withUsableScripts.lineage_eq]
  simp only [List.filter_true]
  cases r.lineage limit id <;> rfl

theorem compose_withUsableScripts (r : Registry) (l : Lineage) :
    r.withUsableScripts.compose l = r.compose l := by
  have hglyphs : r.withUsableScripts.get? = fun id => (r.get? id).map Glyph.withUsableScript :=
    funext r.get?_withUsableScripts
  have hoverride (c : Composed) (g : Glyph) : c.override g.withUsableScript = c.override g := rfl
  simp only [compose, hglyphs, ← List.map_filterMap, List.foldl_map, hoverride]

theorem activateNew_usable (id : String) (run : Run)
    (h : ∀ id run, activate' id run.withoutIdle = (activate id run).withoutIdle) :
    r.withUsableScripts.activateNew settings activate' id run.withoutIdle =
      (r.activateNew settings activate id run).withoutIdle := by
  unfold activateNew
  rw [lineage_withUsableScripts, get?_withUsableScripts]
  cases r.lineage settings.maxDepth id with
  | error e => rfl
  | ok l =>
      cases r.get? id with
      | none => rfl
      | some g =>
          have hworker : FollowsUsable ⟨settings, r, g, (r.compose l).coefficient, activate⟩
              ⟨settings, r.withUsableScripts, g.withUsableScript, (r.compose l).coefficient,
                activate'⟩ := by
            refine ⟨rfl, rfl, rfl, fun t => ?_, h⟩
            simp only [targetId, contains_withUsableScripts]
            cases t <;> rfl
          simp only [Option.map_some, compose_withUsableScripts, Glyph.commands_withUsableScript,
            ← Run.withoutIdle_compose, runCommands_usable hworker]
          rcases Worker.runCommands _ _ _ _ with ⟨_ | p, run'⟩ <;> rfl

/-- **Nested activations**, by induction on the levels left. -/
theorem activateWithin_usable (settings : ActivationSettings) (levels : Nat) (path : List String)
    (id : String) (run : Run) :
    r.withUsableScripts.activateWithin settings levels path id run.withoutIdle =
      (r.activateWithin settings levels path id run).withoutIdle := by
  induction levels generalizing path id run with
  | zero =>
      simp only [activateWithin]
      split <;> rfl
  | succ levels ih =>
      have hknown : run.withoutIdle.find? id = run.find? id := rfl
      simp only [activateWithin, hknown]
      split
      · rfl
      · cases run.find? id with
        | none => exact activateNew_usable id run (ih (id :: path))
        | some f =>
            simp only
            split <;> rfl

theorem activate_withUsableScripts (settings : ActivationSettings) (r : Registry) (id : String) :
    r.withUsableScripts.activate settings id = (r.activate settings id).withoutIdle := by
  have hrun := r.activateWithin_usable settings (settings.maxDepth + 1) [] id {}
  have hstart : Run.withoutIdle {} = {} := rfl
  rw [hstart] at hrun
  simp only [activate, hrun]
  rcases r.activateWithin settings (settings.maxDepth + 1) [] id {} with ⟨_ | f, run⟩ <;> rfl

end Registry

/-- **Commands without effect can be erased.**  If every script is cut down to its pieces that can
be used, the activation of a glyph has the same result, also where it fails, and is recorded with
the same steps but those of unknown and malformed commands. -/
theorem Interpreter.idle_commands_erased (i : Interpreter) (id : String) :
    let erased : Interpreter := { i with registry := i.registry.withUsableScripts }
    (erased.activate id).1 = (i.activate id).1 ∧
      erased.steps id = (i.steps id).filter (fun s => !s.isIdle) ∧
      (i.activate id).2.trace = i.trace.recordAll (i.steps id) ∧
      (erased.activate id).2.trace = i.trace.recordAll (erased.steps id) := by
  have hrun := i.registry.activate_withUsableScripts i.settings id
  refine ⟨?_, ?_, rfl, rfl⟩
  · simp only [activate, hrun]
    rfl
  · simp only [steps, hrun, Outcome.withoutIdle, Run.withoutIdle, Array.toList_filter]

end GlyphField
