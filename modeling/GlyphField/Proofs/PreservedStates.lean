import GlyphField.Proofs.ActivationSteps
import GlyphField.Proofs.BatchIsolation

/-!
# GlyphField.Proofs.PreservedStates

What holds of every state that an activation goes through.  A state is either composed or comes from
another one of the same glyph by a command of its script; so a property that composed states have
and that commands keep holds of all states that are recorded, in whatever order glyphs activate each
other, and of the state at the end.

A property may say which commands have been done.  If the activation succeeds then all commands of
all glyphs are done, and some step that is recorded has the property for each part of each script.

* `Registry.Preserves` — properties of states that commands keep;
* `preserved_steps`, `preserved_activate` — they hold of all states of an activation;
* `preserved_shows` — every part of every script has its state;
* `mem_entries_useAll` — what a trace holds.
-/

namespace GlyphField

open Relation (ReflTransGen)

/-! ## properties of states -/

section DoneSteps

variable {es fs : List Listed} {e : Listed} {s : Step}

theorem mem_doneSteps_append (h : s ∈ doneSteps (es ++ fs)) :
    s ∈ doneSteps es ∨ s ∈ doneSteps fs := by
  by_cases hall : ∀ e ∈ es, e.done = true
  · rw [doneSteps_append hall] at h
    exact List.mem_append.1 h
  · rw [doneSteps_append_of_not_all hall] at h
    exact .inl h

theorem mem_doneSteps_cons (h : s ∈ doneSteps (e :: fs)) :
    e.done = true ∧ (s = e.step ∨ s ∈ doneSteps fs) := by
  cases hdone : e.done with
  | true =>
      rw [doneSteps_cons hdone] at h
      exact ⟨rfl, List.mem_cons.1 h⟩
  | false =>
      rw [← List.nil_append (e :: fs), doneSteps_stop hdone] at h
      cases h

end DoneSteps

namespace Registry

/-- All commands of the glyph have been done, and the property holds of its state. -/
def AtEnd (r : Registry) (P : String → List Command → FieldState → Prop) (id : String)
    (s : FieldState) : Prop :=
  ∃ g, r.get? id = some g ∧ P id g.commands s

/-- A property of the states of each glyph, together with the commands that it has done by then,
that composed states have and that commands keep.  For an entanglement it may be used that the
target has the property when all its commands are done. -/
structure Preserves (settings : ActivationSettings) (r : Registry)
    (P : String → List Command → FieldState → Prop) : Prop where
  composed : ∀ {id l g}, r.lineage settings.maxDepth id = .ok l → r.get? id = some g →
    P id [] (r.compose l).state
  command : ∀ {id l g ds c s s' path}, r.lineage settings.maxDepth id = .ok l →
    r.get? id = some g → ds ++ [c] <+: g.commands → P id ds s →
    (∀ y a, r.replay settings path y = .ok a → r.AtEnd P y a.state) →
    r.replayCommand settings g (r.compose l).coefficient (r.replay settings path) s c = .ok s' →
    P id (ds ++ [c]) s'

section Preserves

variable {settings : ActivationSettings} {r : Registry} {path ids : List String} {id : String}
  {g : Glyph} {l : Lineage} {s s' : FieldState} {ds cs : List Command}
  {P : String → List Command → FieldState → Prop}

theorem Preserves.commands (h : Preserves settings r P)
    (hl : r.lineage settings.maxDepth id = .ok l) (hg : r.get? id = some g)
    (htargets : ∀ y a, r.replay settings path y = .ok a → r.AtEnd P y a.state)
    (hds : ds ++ cs = g.commands) (hs : P id ds s)
    (hrun : cs.foldlM (r.replayCommand settings g (r.compose l).coefficient
      (r.replay settings path)) s = .ok s') : P id g.commands s' := by
  induction cs generalizing ds s with
  | nil =>
      obtain rfl : s = s' := Except.ok.inj hrun
      rw [← hds, List.append_nil]
      exact hs
  | cons c cs ih =>
      rw [List.append_cons] at hds
      rw [List.foldlM_cons] at hrun
      cases hc : r.replayCommand settings g (r.compose l).coefficient (r.replay settings path)
          s c with
      | error e =>
          rw [hc] at hrun
          cases hrun
      | ok s₁ =>
          rw [hc] at hrun
          exact ih hds (h.command hl hg ⟨cs, hds⟩ hs htargets hc) hrun

/-- The state at the end of a replay, by induction on how much longer the path may grow. -/
theorem Preserves.replay (h : Preserves settings r P) {a : Activation}
    (ha : r.replay settings path id = .ok a) : r.AtEnd P id a.state := by
  induction hk : settings.maxDepth + 1 - path.length generalizing path id a with
  | zero =>
      have hlen := (replay_eq_ok_iff.1 ha).2.1
      omega
  | succ k ih =>
      obtain ⟨-, -, l, g, s, hl, hg, hs, rfl⟩ := replay_eq_ok_iff.1 ha
      have htargets (y : String) (a : Activation) (ha : r.replay settings (id :: path) y = .ok a) :
          r.AtEnd P y a.state := ih ha (by rw [List.length_cons]; omega)
      exact ⟨g, hg, h.commands hl hg htargets (List.nil_append _) (h.composed hl hg) hs⟩

/-- What is done of the commands of a glyph. -/
theorem Preserves.listCommands (h : Preserves settings r P)
    (hl : r.lineage settings.maxDepth id = .ok l) (hg : r.get? id = some g)
    {list : List String → String → Listing}
    (hlist : ∀ ids y, ∀ s ∈ doneSteps (list ids y).entries, ∃ ds, P s.glyphId ds s.state)
    (hds : ds ++ cs = g.commands) (hs : P id ds s) :
    ∀ t ∈ doneSteps (g.listCommands list (r.replayCommand settings g (r.compose l).coefficient
      (r.replay settings path)) ids s cs).entries, ∃ ds, P t.glyphId ds t.state := by
  induction cs generalizing ids ds s with
  | nil => exact fun t ht => absurd ht List.not_mem_nil
  | cons c cs ih =>
      intro t ht
      rw [List.append_cons] at hds
      simp only [Glyph.listCommands] at ht
      obtain ht | ht := mem_doneSteps_append ht
      · cases c with
        | entangle target =>
            simp only [Glyph.listTarget] at ht
            split at ht
            · cases ht
            · exact hlist ids _ t ht
        | _ => cases ht
      · obtain ⟨hok, ht⟩ := mem_doneSteps_cons ht
        cases hc : r.replayCommand settings g (r.compose l).coefficient (r.replay settings path)
            s c with
        | error e =>
            rw [hc] at hok
            cases hok
        | ok s₁ =>
            rw [hc] at ht
            have hs₁ := h.command hl hg ⟨cs, hds⟩ hs (fun _ _ => h.replay) hc
            obtain rfl | ht := ht
            · rw [← id_of_get? hg] at hs₁
              exact ⟨_, hs₁⟩
            · exact ih hds hs₁ t ht

/-- **The step of the induction over nested listings** is on how much longer the path may grow. -/
theorem Preserves.listing (h : Preserves settings r P) :
    ∀ t ∈ doneSteps (r.listing settings path ids id).entries, ∃ ds, P t.glyphId ds t.state := by
  induction hk : settings.maxDepth + 1 - path.length generalizing path ids id with
  | zero =>
      rw [listing_of_long (by omega)]
      exact fun t ht => absurd ht List.not_mem_nil
  | succ k ih =>
      obtain hnone | ⟨-, -, -, l, g, hl, hg, hlisting⟩ := listing_cases settings r path ids id
      · rw [hnone]
        exact fun t ht => absurd ht List.not_mem_nil
      · intro t ht
        rw [hlisting, listGlyph] at ht
        obtain ⟨-, rfl | ht⟩ := mem_doneSteps_cons ht
        · have hcomposed := h.composed hl hg
          rw [← id_of_get? hg] at hcomposed
          exact ⟨_, hcomposed⟩
        · rw [id_of_get? hg] at ht
          refine h.listCommands hl hg (fun ids y => ?_) (List.nil_append _) (h.composed hl hg) t ht
          exact ih (by rw [List.length_cons]; omega)

/-! ## all states of a glyph -/

/-- An entanglement that succeeds has activated its target. -/
theorem replayCommand_entangle_eq_ok_iff {coefficient : Float}
    {activate : String → Except ActivationError Activation} {t : Target} :
    r.replayCommand settings g coefficient activate s (.entangle t) = .ok s' ↔
      ∃ y a, r.targetId g t = .ok y ∧ activate y = .ok a ∧
        s.entangle settings coefficient a.state = s' := by
  simp only [replayCommand]
  cases r.targetId g t with
  | error e => simp
  | ok y =>
      simp only [Except.ok.injEq, exists_and_left, exists_eq_left']
      cases activate y with
      | error e => simp [Except.map]
      | ok a => simp [Except.map]

/-- For every part of the script, one of these steps is of the glyph with that part done. -/
def ShowsAll (r : Registry) (P : String → List Command → FieldState → Prop) (steps : List Step)
    (id : String) : Prop :=
  ∀ g ds, r.get? id = some g → ds <+: g.commands → ∃ t ∈ steps, t.glyphId = id ∧ P id ds t.state

theorem ShowsAll.mono {xs ys : List Step} (h : r.ShowsAll P xs id) (hsub : xs ⊆ ys) :
    r.ShowsAll P ys id := by
  intro g ds hg hds
  obtain ⟨t, ht, hstate⟩ := h g ds hg hds
  exact ⟨t, hsub ht, hstate⟩

/-- What a command that succeeds puts in front of the steps of the rest. -/
theorem listCommands_cons_of_ok {list : List String → String → Listing}
    {after : FieldState → Command → Except ActivationError FieldState} {c : Command}
    (hc : after s c = .ok s') :
    (g.listCommands list after ids s (c :: cs)).steps = (g.listTarget list ids c).steps ++
      ⟨g.id, c.label, s'⟩ ::
        (g.listCommands list after (g.listTarget list ids c).ids s' cs).steps := by
  simp only [Glyph.listCommands, Listing.steps, hc, List.map_append, List.map_cons]
  rfl

/-- Commands that succeed list a state for each of them, and all states of whatever else they
list. -/
theorem shows_listCommands {list : List String → String → Listing}
    {after : FieldState → Command → Except ActivationError FieldState}
    (hafter : ∀ {ds c s s'}, ds ++ [c] <+: g.commands → P g.id ds s → after s c = .ok s' →
      P g.id (ds ++ [c]) s')
    (hlist : ∀ {ids c s s'}, after s c = .ok s' → ∀ x ∈ (g.listTarget list ids c).glyphs,
      r.ShowsAll P (g.listTarget list ids c).steps x)
    (hds : ds ++ cs = g.commands) (hs : P g.id ds s) (hrun : cs.foldlM after s = .ok s') :
    (∀ es, es ≠ [] → es <+: cs → ∃ t ∈ (g.listCommands list after ids s cs).steps,
      t.glyphId = g.id ∧ P g.id (ds ++ es) t.state) ∧
    ∀ x ∈ (g.listCommands list after ids s cs).glyphs, x ≠ g.id →
      r.ShowsAll P (g.listCommands list after ids s cs).steps x := by
  induction cs generalizing ids ds s with
  | nil =>
      refine ⟨fun es hne hes => absurd (List.prefix_nil.1 hes) hne, ?_⟩
      exact fun x hx => absurd hx List.not_mem_nil
  | cons c cs ih =>
      rw [List.append_cons] at hds
      rw [List.foldlM_cons] at hrun
      cases hc : after s c with
      | error e =>
          rw [hc] at hrun
          cases hrun
      | ok s₁ =>
          rw [hc] at hrun
          have hs₁ := hafter ⟨cs, hds⟩ hs hc
          obtain ⟨hown, hothers⟩ := @ih (g.listTarget list ids c).ids _ _ hds hs₁ hrun
          rw [Listing.glyphs, listCommands_cons_of_ok hc, List.map_append, List.map_cons]
          refine ⟨fun es hne hes => ?_, fun x hx hne => ?_⟩
          · obtain ⟨d, es, rfl⟩ := List.exists_cons_of_ne_nil hne
            obtain ⟨rfl, hrest⟩ := List.cons_prefix_cons.1 hes
            by_cases hnil : es = []
            · subst hnil
              exact ⟨_, List.mem_append_right _ List.mem_cons_self, rfl, hs₁⟩
            · obtain ⟨t, ht, hstate⟩ := hown es hnil hrest
              rw [← List.append_cons] at hstate
              exact ⟨t, List.mem_append_right _ (List.mem_cons_of_mem _ ht), hstate⟩
          · obtain hx | hx := List.mem_append.1 hx
            · exact (hlist hc x hx).mono (List.subset_append_left _ _)
            · have hrest := hothers x ((List.mem_cons.1 hx).resolve_left hne) hne
              exact hrest.mono fun t ht => List.mem_append_right _ (List.mem_cons_of_mem _ ht)

/-- All states of the glyph that a command has activated. -/
theorem shows_listTarget {list : List String → String → Listing} {coefficient : Float}
    {activate : String → Except ActivationError Activation} {c : Command}
    (hlist : ∀ ids y a, activate y = .ok a → ∀ x ∈ (list ids y).glyphs,
      r.ShowsAll P (list ids y).steps x)
    (hc : r.replayCommand settings g coefficient activate s c = .ok s') :
    ∀ x ∈ (g.listTarget list ids c).glyphs, r.ShowsAll P (g.listTarget list ids c).steps x := by
  cases c with
  | entangle t =>
      obtain ⟨y, a, hy, ha, -⟩ := replayCommand_entangle_eq_ok_iff.1 hc
      simp only [Glyph.listTarget, (targetId_eq_ok_iff.1 hy).1]
      exact hlist ids y a ha
  | _ => exact fun x hx => absurd hx List.not_mem_nil

/-- All states of all glyphs that are listed, if the activation succeeds. -/
theorem Preserves.shows (h : Preserves settings r P) {a : Activation}
    (ha : r.replay settings path id = .ok a) :
    ∀ x ∈ (r.listing settings path ids id).glyphs,
      r.ShowsAll P (r.listing settings path ids id).steps x := by
  induction hk : settings.maxDepth + 1 - path.length generalizing path ids id a with
  | zero =>
      have hlen := (replay_eq_ok_iff.1 ha).2.1
      omega
  | succ k ih =>
      obtain hnone | ⟨-, -, -, l, g, hl, hg, hlisting⟩ := listing_cases settings r path ids id
      · rw [hnone]
        exact fun x hx => absurd hx List.not_mem_nil
      obtain ⟨-, -, l', g', s, hl', hg', hs, -⟩ := replay_eq_ok_iff.1 ha
      cases hl.symm.trans hl'
      cases hg.symm.trans hg'
      obtain rfl := id_of_get? hg
      have htargets (ids : List String) (y : String) (b : Activation)
          (hb : r.replay settings (g.id :: path) y = .ok b) :
          ∀ x ∈ (r.listing settings (g.id :: path) ids y).glyphs,
            r.ShowsAll P (r.listing settings (g.id :: path) ids y).steps x :=
        ih hb (by rw [List.length_cons]; omega)
      obtain ⟨hown, hothers⟩ := @shows_listCommands r ids g _ _ [] _ P _ _
        (fun hds hs hc => h.command hl hg hds hs (fun _ _ => h.replay) hc)
        (shows_listTarget htargets) (List.nil_append _) (h.composed hl hg) hs
      rw [hlisting, listGlyph]
      intro x hx
      by_cases hx' : x = g.id
      · subst hx'
        intro g' ds hg' hds
        cases hg.symm.trans hg'
        by_cases hnil : ds = []
        · subst hnil
          exact ⟨_, List.mem_cons_self, rfl, h.composed hl hg⟩
        · obtain ⟨t, ht, hstate⟩ := hown ds hnil hds
          exact ⟨t, List.mem_cons_of_mem _ ht, hstate⟩
      · have hrest := hothers x ((List.mem_cons.1 hx).resolve_left hx') hx'
        exact hrest.mono (List.subset_cons_self _ _)

end Preserves

end Registry

/-! ## what is recorded -/

namespace Interpreter

variable {i : Interpreter} {id : String} {P : String → List Command → FieldState → Prop}

theorem preserved_steps (h : i.registry.Preserves i.settings P) :
    ∀ t ∈ i.steps id, ∃ ds, P t.glyphId ds t.state := by
  rw [steps_eq]
  exact Registry.Preserves.listing h

theorem preserved_activate (h : i.registry.Preserves i.settings P) {a : Activation}
    (ha : (i.activate id).1 = .ok a) :
    i.registry.AtEnd P id a.state :=
  Registry.Preserves.replay h (Registry.activate_eq_ok_iff.1 ha)

/-- The steps of an activation that succeeds are all steps of its listing. -/
theorem steps_eq_listing {a : Activation} (ha : (i.activate id).1 = .ok a) :
    i.steps id = (i.listing id).steps := by
  rw [steps_eq]
  exact doneSteps_of_all (Registry.done_of_replay (Registry.activate_eq_ok_iff.1 ha))

/-- If the activation succeeds then all states of all glyphs that are reached are recorded. -/
theorem preserved_shows (h : i.registry.Preserves i.settings P) {a : Activation}
    (ha : (i.activate id).1 = .ok a) {x : String} (hx : ReflTransGen i.registry.Entangles id x) :
    i.registry.ShowsAll P (i.steps id) x := by
  rw [steps_eq_listing ha]
  exact h.shows (Registry.activate_eq_ok_iff.1 ha) x (mem_glyphs_listing ha hx)

/-- Only glyphs that are reached have steps. -/
theorem reached_of_mem_steps {t : Step} (ht : t ∈ i.steps id) :
    ReflTransGen i.registry.Entangles id t.glyphId := by
  rw [steps_eq] at ht
  have htidy := tidy_listing i.settings i.registry [] [] id
  exact htidy.reached _ (List.mem_map_of_mem ((doneSteps_isPrefix _).subset ht))

/-- A trace holds what it held before or what has been recorded. -/
theorem mem_entries_recordAll {t : Trace} {steps : List Step} {e : TraceEntry}
    (h : e ∈ (t.recordAll steps).entries) : e ∈ t.entries ∨ e.step ∈ steps := by
  induction steps generalizing t with
  | nil => exact .inl h
  | cons s ss ih =>
      obtain h | h := ih h
      · rw [Trace.record] at h
        split at h
        · obtain h | h := List.mem_append.1 h
          · unfold Trace.makeRoom at h
            split at h
            · exact .inl (List.mem_of_mem_tail h)
            · exact .inl h
          · obtain rfl := List.mem_singleton.1 h
            exact .inr List.mem_cons_self
        · exact .inl h
      · exact .inr (List.mem_cons_of_mem s h)

theorem mem_entries_use {u : Use} {e : TraceEntry} (h : e ∈ (i.use u).trace.entries) :
    e ∈ i.trace.entries ∨ ∃ id, e.step ∈ i.steps id := by
  cases u with
  | activate id => exact (mem_entries_recordAll h).imp_right fun hmem => ⟨id, hmem⟩
  | activateAll ids =>
      have htrace := (SameRuns.activateAll (sameRuns_of_eq (j := i) rfl rfl) ids).2
      rw [use, htrace] at h
      refine (mem_entries_recordAll h).imp_right fun hmem => ?_
      obtain ⟨id, -, hid⟩ := List.mem_flatMap.1 hmem
      exact ⟨id, hid⟩
  | clearTrace => cases h

/-- **What a trace holds.**  After any uses an entry is an older one or a step of some
activation. -/
theorem mem_entries_useAll {us : List Use} {e : TraceEntry}
    (h : e ∈ (i.useAll us).trace.entries) : e ∈ i.trace.entries ∨ ∃ id, e.step ∈ i.steps id := by
  induction us generalizing i with
  | nil => exact .inl h
  | cons u us ih =>
      obtain h | ⟨id, hid⟩ := ih (i := i.use u) h
      · exact mem_entries_use h
      · exact .inr ⟨id, (i.sameRuns_use u id).2 ▸ hid⟩

theorem entries_emptyTrace (settings : ActivationSettings) :
    (emptyTrace settings).entries = [] := by
  unfold emptyTrace
  split <;> rfl

end Interpreter

end GlyphField
