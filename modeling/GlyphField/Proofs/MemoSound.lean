import GlyphField.Activation.Interpreter
import GlyphField.Proofs.MemoTable

/-!
# GlyphField.Proofs.MemoSound

An activation agrees with its replay.  Both are followed command by command: a target is either
taken from the table, of which `GlyphField.Proofs.MemoTable` knows that a replay gives the same, or
its script is run one level further in, where the same holds by induction on the levels left.

* `sound_activateWithin` — the induction over nested activations;
* `activate_eq_replay` — the outcome of a run is that of a replay;
* `Interpreter.activate_replays` — the same of an interpreter with checked settings.
-/

namespace GlyphField

open Relation (ReflTransGen)

/-! ## commands -/

section Commands

variable {settings : ActivationSettings} {r : Registry} {path : List String} {id : String}
  {run : Run} {p : Progress} {activate : Activate}

theorem agrees_runCommand (g : Glyph) (coefficient : Float)
    (hs : Sound settings r (id :: path) activate)
    (ht : Table settings r (id :: path) run) (hfits : path.length + p.height ≤ settings.maxDepth)
    (c : Command) :
    CommandsAgree settings r g coefficient path id p run [c]
      (Worker.runCommand ⟨settings, r, g, coefficient, activate⟩ p c run) := by
  cases c with
  | entangle t =>
      simp only [Worker.runCommand]
      cases hy : r.targetId g t with
      | error e =>
          refine .error ?_ (.inl rfl)
          rw [Registry.replayCommands_singleton, Registry.replayCommand, hy]
      | ok y =>
          have htarget := hs y run ht
          dsimp only
          generalize activate y run = out at htarget ⊢
          cases htarget with
          | ok h => exact .ok (.entangle h hy hfits)
          | error he hsame =>
              refine .error ?_ hsame
              rw [Registry.replayCommands_singleton, Registry.replayCommand, hy]
              simp only [he, Except.map]
  | _ => exact .ok (.apply ht hfits (by intro t heq; cases heq))

theorem agrees_runCommands (g : Glyph) (coefficient : Float)
    (hs : Sound settings r (id :: path) activate)
    (ht : Table settings r (id :: path) run) (hfits : path.length + p.height ≤ settings.maxDepth)
    (cs : List Command) :
    CommandsAgree settings r g coefficient path id p run cs
      (Worker.runCommands ⟨settings, r, g, coefficient, activate⟩ p run cs) := by
  induction cs generalizing p run with
  | nil => exact .ok (.nil ht hfits)
  | cons c cs ih =>
      have hc := agrees_runCommand g coefficient hs ht hfits c
      simp only [Worker.runCommands]
      generalize Worker.runCommand _ p c run = out at hc ⊢
      cases hc with
      | @ok p₁ run₁ h =>
          have hran := h.record g.id c.label p₁.state
          exact hran.append_agrees (ih hran.table hran.fits)
      | error he hsame =>
          refine .error ?_ hsame
          rw [← List.singleton_append, Registry.replayCommands_append, he]
          rfl

end Commands

/-! ## a glyph -/

section Glyph

variable {settings : ActivationSettings} {r : Registry} {path : List String} {id : String}
  {run run' : Run} {g : Glyph} {p : Progress} {l : Lineage} {activate : Activate}

/-- A glyph that is not finished may join the path. -/
theorem Table.enter (h : Table settings r path run) (hnew : run.find? id = none) :
    Table settings r (id :: path) run where
  known := h.known
  closed := h.closed
  apart := by
    intro x hx
    obtain rfl | hx := List.mem_cons.1 hx
    · exact hnew
    · exact h.apart x hx

/-- What the commands of a glyph are entangled with does not lead back to the glyph, nor to a
path that the glyph itself does not lead back to. -/
theorem Ran.clear {coefficient : Float} {p' : Progress} {q : List String}
    (h : Ran settings r g coefficient path id p run g.commands p' run') (hg : r.get? id = some g)
    (hq : ∀ x ∈ q, ¬ReflTransGen r.Entangles id x) :
    ∀ c ∈ g.commands, Clear r g (id :: q) c := by
  intro c hc t y ht hy x hx hyx
  obtain rfl | hx := List.mem_cons.1 hx
  -- the target is finished and reaches only finished glyphs, while this one still runs
  · exact h.table.not_reach (h.settled c hc t y ht hy) List.mem_cons_self hyx
  · have hlink : r.Entangles id y := ⟨g, t, hg, ht ▸ hc, hy⟩
    exact hq x hx (hyx.head hlink)

/-- A glyph all of whose commands have been run is known. -/
theorem Ran.known (h : Ran settings r g (r.compose l).coefficient path id
      ⟨(r.compose l).state, 0⟩ run g.commands p run')
    (hl : r.lineage settings.maxDepth id = .ok l) (hg : r.get? id = some g) :
    Known settings r id ⟨⟨id, p.state, l, g.quantumState⟩, p.height⟩ := by
  intro q hq
  have hid : id ∉ q := fun hmem => hq id hmem .refl
  by_cases hlong : settings.maxDepth < q.length
  · rw [Registry.replay_of_long hid hlong]
    exact capped_error (by omega)
  · have hlen : q.length ≤ settings.maxDepth := Nat.le_of_not_lt hlong
    rw [Registry.replay_of_lineage_ok hid hlen hl hg]
    have hcommands := h.replays q (h.clear hg hq) hlen
    exact hcommands.map fun s => (⟨id, s, l, g.quantumState⟩ : Activation)

/-- A glyph all of whose commands have been run is activated. -/
theorem Ran.activated (h : Ran settings r g (r.compose l).coefficient path id
      ⟨(r.compose l).state, 0⟩ run g.commands p run')
    (hl : r.lineage settings.maxDepth id = .ok l) (hg : r.get? id = some g) (hid : id ∉ path) :
    Activated settings r path id run ⟨⟨id, p.state, l, g.quantumState⟩, p.height⟩
      (run'.finish ⟨⟨id, p.state, l, g.quantumState⟩, p.height⟩) where
  table := by
    refine ⟨fun a f hf => ?_, fun a b ha hab => ?_, fun x hx => ?_⟩
    · rw [Run.find?_finish] at hf
      split at hf
      next heq =>
        cases hf
        rw [heq]
        exact h.known hl hg
      next => exact h.table.known a f hf
    · apply Run.isSome_find?_finish
      rw [Run.find?_finish] at ha
      split at ha
      next heq =>
        obtain ⟨g', t, hg', ht, hb⟩ := hab
        rw [heq, hg, Option.some.injEq] at hg'
        rw [← hg'] at ht hb
        exact h.settled _ ht t b rfl hb
      next => exact h.table.closed a b ha hab
    · have hne : x ≠ id := fun heq => hid (heq ▸ hx)
      rw [Run.find?_finish, if_neg hne]
      exact h.table.apart x (List.mem_cons_of_mem _ hx)
  grows := fun a ha => Run.isSome_find?_finish _ _ (h.grows a ha)
  found := by rw [Run.find?_finish, if_pos rfl]
  fits := h.fits

theorem agrees_activateNew (hs : Sound settings r (id :: path) activate)
    (ht : Table settings r path run) (hid : id ∉ path) (hnew : run.find? id = none)
    (hlen : path.length ≤ settings.maxDepth) :
    Agrees settings r path id run (r.activateNew settings activate id run) := by
  unfold Registry.activateNew
  cases hl : r.lineage settings.maxDepth id with
  | error e => exact .error (Registry.replay_of_lineage_error hid hlen hl) (.inl rfl)
  | ok l =>
      obtain ⟨g, hg⟩ := Option.isSome_iff_exists.1 (Registry.lineage_eq_ok_iff.1 hl).1
      simp only [hg]
      have htable := (ht.enter hnew).record id "compose" (r.compose l).state
      have hcommands := agrees_runCommands (p := ⟨(r.compose l).state, 0⟩) g
        (r.compose l).coefficient hs htable hlen g.commands
      generalize Worker.runCommands _ _ _ g.commands = out at hcommands ⊢
      cases hcommands with
      | ok h =>
          have hdone := h.activated hl hg hid
          exact .ok ⟨hdone.table, hdone.grows, hdone.found, hdone.fits⟩
      | error he hsame =>
          refine .error ?_ hsame
          rw [Registry.replayCommands] at he
          rw [Registry.replay_of_lineage_ok hid hlen hl hg, he]
          rfl

end Glyph

/-! ## nested activations -/

/-- A finished glyph is taken from the table if its height fits; otherwise its replay meets the
limit too. -/
theorem agrees_of_find? {settings : ActivationSettings} {r : Registry} {path : List String}
    {id : String} {run : Run} {f : Finished} (ht : Table settings r path run)
    (hf : run.find? id = some f) :
    Agrees settings r path id run
      (if settings.maxDepth < path.length + f.height then
        (.error (.lineage (.tooDeep id settings.maxDepth)), run)
      else (.ok f, run)) := by
  split
  next hlong =>
    obtain ⟨b, hb⟩ := (ht.capped_replay hf).eq_error hlong
    exact .error hb (.inr ⟨id, b, _, rfl, rfl⟩)
  next hfits => exact .ok ⟨ht, fun _ ha => ha, hf, Nat.le_of_not_lt hfits⟩

/-- **Nested activations.**  Activating from a path is sound, by induction on the levels left. -/
theorem sound_activateWithin (settings : ActivationSettings) (r : Registry) (levels : Nat)
    (path : List String) (hlevels : levels + path.length = settings.maxDepth + 1) :
    Sound settings r path (r.activateWithin settings levels path) := by
  induction levels generalizing path with
  | zero =>
      intro id run _
      rw [Registry.activateWithin]
      by_cases hid : id ∈ path
      · rw [if_pos (List.contains_iff_mem.2 hid)]
        exact .error (Registry.replay_of_mem hid) (.inl rfl)
      · rw [if_neg (fun hc => hid (List.contains_iff_mem.1 hc))]
        exact .error (Registry.replay_of_long hid (by omega)) (.inl rfl)
  | succ levels ih =>
      intro id run ht
      rw [Registry.activateWithin]
      by_cases hid : id ∈ path
      · rw [if_pos (List.contains_iff_mem.2 hid)]
        exact .error (Registry.replay_of_mem hid) (.inl rfl)
      · rw [if_neg (fun hc => hid (List.contains_iff_mem.1 hc))]
        have hnested := ih (id :: path) (by rw [List.length_cons]; omega)
        cases hf : run.find? id with
        | none => exact agrees_activateNew hnested ht hid hf (by omega)
        | some f =>
            -- the levels left are what the path may still grow by
            have hlimit : levels < f.height ↔ settings.maxDepth < path.length + f.height := by
              omega
            simp only [hlimit]
            exact agrees_of_find? ht hf

/-! ## whole runs -/

/-- Nothing is finished when a run starts. -/
theorem Table.empty (settings : ActivationSettings) (r : Registry) : Table settings r [] {} where
  known := by intro id f hf; cases hf
  closed := by intro a b ha; cases ha
  apart := by intro x _; rfl

theorem Registry.activate_eq_replay (settings : ActivationSettings) (r : Registry) (id : String) :
    SameOutcome (r.activate settings id).1 (r.replay settings [] id) := by
  have h := sound_activateWithin settings r (settings.maxDepth + 1) [] rfl id {}
    (Table.empty settings r)
  rw [activate]
  generalize r.activateWithin settings (settings.maxDepth + 1) [] id {} = out at h ⊢
  cases h with
  | ok h =>
      rw [(h.table.capped_replay h.found).eq_ok h.fits]
      rfl
  | error he hsame =>
      rw [he]
      exact hsame

/-- **Activating each glyph once agrees with replaying it.**  An interpreter, which takes a glyph
that it has activated from its table, succeeds exactly where an interpreter without a table does
that runs the script of a target anew at every entanglement, and with the same activation.  Where
both fail they give the same error, except that of a chain over the limit they may name different
glyphs. -/
theorem Interpreter.activate_replays (i : Interpreter) (id : String) :
    (∀ a, (i.activate id).1 = .ok a ↔ i.registry.replay i.settings [] id = .ok a) ∧
    ∀ e e', (i.activate id).1 = .error e → i.registry.replay i.settings [] id = .error e' →
      e = e' ∨ ∃ a b limit, e = .lineage (.tooDeep a limit) ∧ e' = .lineage (.tooDeep b limit) := by
  have h : SameOutcome (i.activate id).1 (i.registry.replay i.settings [] id) :=
    i.registry.activate_eq_replay i.settings id
  exact ⟨fun _ => h.eq_ok_iff, fun _ _ he he' => h.sameError he he'⟩

end GlyphField
