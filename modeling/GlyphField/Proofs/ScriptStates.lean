import GlyphField.Proofs.PreservedStates

/-!
# GlyphField.Proofs.ScriptStates

The states of a glyph, command by command.  The relation `StateAfter` knows of no run, no path and
no order in which glyphs activate each other: a glyph is composed, and each command of its script
makes the next state; the target of an entanglement has done all commands of its own.

There is one state after each number of commands, and an activation that succeeds records these
states of the glyphs that it reaches, and no others.

* `Registry.StateAfter` — the states of each glyph;
* `recorded_iff_stateAfter` — what an activation records of a glyph.
-/

namespace GlyphField

open Relation (ReflTransGen)

namespace Registry

/-- The state of a registered glyph after the first `k` commands of its script.  A target of an
entanglement has done all of its commands. -/
inductive StateAfter (settings : ActivationSettings) (r : Registry) :
    String → Nat → FieldState → Prop
  | composed {id : String} {g : Glyph} {l : Lineage} (hg : r.get? id = some g)
    (hl : r.lineage settings.maxDepth id = .ok l) : StateAfter settings r id 0 (r.compose l).state
  | apply {id : String} {g : Glyph} {k : Nat} {s : FieldState} {c : Command}
    (h : StateAfter settings r id k s) (hg : r.get? id = some g) (hc : g.commands[k]? = some c)
    (halone : ∀ t, c ≠ .entangle t) : StateAfter settings r id (k + 1) (s.apply settings c)
  | entangle {id y : String} {g g' : Glyph} {l : Lineage} {k : Nat} {s target : FieldState}
    {t : Target} (h : StateAfter settings r id k s) (hg : r.get? id = some g)
    (hl : r.lineage settings.maxDepth id = .ok l) (hc : g.commands[k]? = some (.entangle t))
    (hy : r.targetId g t = .ok y) (hg' : r.get? y = some g')
    (htarget : StateAfter settings r y g'.commands.length target) :
    StateAfter settings r id (k + 1) (s.entangle settings (r.compose l).coefficient target)

section StateAfter

variable {settings : ActivationSettings} {r : Registry} {id : String} {k : Nat}
  {s s' : FieldState}

theorem StateAfter.exists_get? (h : r.StateAfter settings id k s) : ∃ g l,
    r.get? id = some g ∧ r.lineage settings.maxDepth id = .ok l ∧ k ≤ g.commands.length := by
  induction h with
  | composed hg hl => exact ⟨_, _, hg, hl, Nat.zero_le _⟩
  | apply h hg hc halone ih =>
      obtain ⟨-, l, -, hl, -⟩ := ih
      exact ⟨_, l, hg, hl, (List.getElem?_eq_some_iff.1 hc).1⟩
  | entangle h hg hl hc hy hg' htarget ih ih' =>
      exact ⟨_, _, hg, hl, (List.getElem?_eq_some_iff.1 hc).1⟩

/-- A glyph has one state after each number of commands. -/
theorem StateAfter.unique (h : r.StateAfter settings id k s) (h' : r.StateAfter settings id k s') :
    s = s' := by
  induction h generalizing s' with
  | composed hg hl =>
      cases h' with
      | composed hg' hl' =>
          cases hl.symm.trans hl'
          rfl
  | apply h hg hc halone ih =>
      cases h' with
      | apply h' hg' hc' halone' =>
          cases hg.symm.trans hg'
          cases hc.symm.trans hc'
          rw [ih h']
      | entangle h' hg' hl' hc' hy' hg'' htarget' =>
          cases hg.symm.trans hg'
          cases hc.symm.trans hc'
          exact absurd rfl (halone _)
  | entangle h hg hl hc hy hg₁ htarget ih ih₁ =>
      cases h' with
      | apply h' hg' hc' halone' =>
          cases hg.symm.trans hg'
          cases hc.symm.trans hc'
          exact absurd rfl (halone' _)
      | entangle h' hg' hl' hc' hy' hg₁' htarget' =>
          cases hg.symm.trans hg'
          cases hl.symm.trans hl'
          cases hc.symm.trans hc'
          cases hy.symm.trans hy'
          cases hg₁.symm.trans hg₁'
          rw [ih h', ih₁ htarget']

/-- Replays go through these states. -/
theorem preserves_stateAfter (settings : ActivationSettings) (r : Registry) :
    r.Preserves settings fun id ds s => r.StateAfter settings id ds.length s where
  composed hl hg := .composed hg hl
  command {id l g ds c s s' path} hl hg hds h htargets hc := by
    obtain ⟨cs, hcs⟩ := hds
    have hget : g.commands[ds.length]? = some c := by simp [← hcs]
    rw [List.length_append, List.length_singleton]
    cases c with
    | entangle t =>
        obtain ⟨y, a, hy, ha, rfl⟩ := replayCommand_entangle_eq_ok_iff.1 hc
        obtain ⟨g', hg', htarget⟩ := htargets y a ha
        exact .entangle h hg hl hget hy hg' htarget
    | _ =>
        cases hc
        exact .apply h hg hget nofun

end StateAfter

end Registry

namespace Interpreter

variable {i : Interpreter} {id x : String} {s : FieldState} {a : Activation}

/-- What an activation that succeeds records of a glyph that is reached. -/
theorem recorded_iff_stateAfter (ha : (i.activate id).1 = .ok a)
    (hx : ReflTransGen i.registry.Entangles id x) :
    (∃ t ∈ i.steps id, t.glyphId = x ∧ t.state = s) ↔
      ∃ k, i.registry.StateAfter i.settings x k s := by
  have hpreserves := Registry.preserves_stateAfter i.settings i.registry
  constructor
  · rintro ⟨t, ht, rfl, rfl⟩
    obtain ⟨ds, hstate⟩ := preserved_steps hpreserves t ht
    exact ⟨_, hstate⟩
  · rintro ⟨k, hstate⟩
    obtain ⟨g, l, hg, -, hk⟩ := hstate.exists_get?
    obtain ⟨t, ht, htx, hshown⟩ :=
      preserved_shows hpreserves ha hx g (g.commands.take k) hg (List.take_prefix _ _)
    rw [List.length_take_of_le hk] at hshown
    exact ⟨t, ht, htx, hshown.unique hstate⟩

/-- The state at the end is the one after all commands. -/
theorem stateAfter_of_activate (ha : (i.activate id).1 = .ok a) :
    ∃ k, i.registry.StateAfter i.settings id k a.state := by
  obtain ⟨g, -, hstate⟩ :=
    preserved_activate (Registry.preserves_stateAfter i.settings i.registry) ha
  exact ⟨_, hstate⟩

end Interpreter

end GlyphField
