import GlyphField.Proofs.CellBounds
import GlyphField.Proofs.DefinitionImage
import GlyphField.Proofs.OverrideOrder
import GlyphField.Proofs.PreservedStates

/-!
# GlyphField.Proofs.StateRanges

The ranges of states.  No command has any hold on the depth, only a shift changes the phase, and the
coherence only grows, by an amount that is not negative and not beyond its ceiling.  So the ranges
that a composed state has are kept.

* `FieldState.InRange` — the ranges;
* `Registry.IsRead` — registries of glyphs that texts define, whose declared numbers are in range;
* `states_in_range` — phase, coherence and depth of every state.
-/

namespace GlyphField

open Binary64

/-! ## ranges -/

/-- The ranges of a state. -/
structure FieldState.InRange (limit : Nat) (s : FieldState) : Prop where
  phase : 0 ≤ s.phase ∧ s.phase < Angle.turn
  coherence : 0 ≤ s.coherence ∧ s.coherence ≤ 100
  depth : s.depth ≤ limit

/-- Every glyph of the registry is one that some text defines. -/
def Registry.IsRead (r : Registry) : Prop :=
  ∀ id g, r.get? id = some g → ∃ text, Glyph.read text = .ok g

section Ranges

variable {settings : ActivationSettings} {r : Registry} {limit : Nat} {s s' : FieldState}
  {g : Glyph} {coefficient : Float} {activate : String → Except ActivationError Activation}

theorem Registry.IsRead.declared {f : NumberField} {id : String} {x : Float} (h : r.IsRead)
    (hx : r.declared? f id = some x) :
    x.isFinite = true ∧ f.range.1 ≤ x ∧ x ≤ f.range.2 := by
  obtain ⟨g, hg, hx⟩ := Option.bind_eq_some_iff.1 hx
  obtain ⟨text, htext⟩ := h id g hg
  exact (Glyph.isDefinition_of_read htext).number f x hx

/-- A number of a composed state is a declared one or neutral. -/
theorem Registry.number_compose_cases (f : NumberField) (l : Lineage) :
    (∃ id x, r.declared? f id = some x ∧ (r.compose l).number f = f.inState x) ∨
      (r.compose l).number f = f.neutral := by
  rw [number_compose]
  cases hfirst : (l.glyphId :: l.ancestors).findSome? (r.declared? f) with
  | none => exact .inr rfl
  | some x =>
      obtain ⟨id, -, hx⟩ := List.exists_of_findSome?_eq_some hfirst
      exact .inl ⟨id, x, hx, rfl⟩

theorem isWrapped_iff {x : Float} : Angle.isWrapped x = true ↔ 0 ≤ x ∧ x < Angle.turn := by
  simp [Angle.isWrapped]

theorem inRange_compose (hr : r.IsRead) {id : String} {l : Lineage}
    (hl : r.lineage limit id = .ok l) : (r.compose l).state.InRange limit where
  phase := by
    have hphase := Registry.number_compose_cases (r := r) .phaseOffset l
    change (∃ id x, _ ∧ (r.compose l).state.phase = _) ∨ (r.compose l).state.phase = 0 at hphase
    obtain ⟨id, x, -, hx⟩ | hx := hphase
    · rw [hx]
      exact isWrapped_iff.1 (Angle.isWrapped_wrap _)
    · rw [hx]
      decide
  coherence := by
    have hcoherence := Registry.number_compose_cases (r := r) .coherence l
    change (∃ id x, _ ∧ (r.compose l).state.coherence = _) ∨
      (r.compose l).state.coherence = 100 at hcoherence
    obtain ⟨id, x, hdeclared, hx⟩ | hx := hcoherence
    · rw [hx]
      exact (hr.declared hdeclared).2
    · rw [hx]
      decide
  depth := (Registry.isHeight_depth hl).1.trans (Nat.min_le_left _ _)

/-- The smaller one of a quantity and a ceiling. -/
theorem Quantity.within_smaller {x max : Float} (hfinite : max.isFinite = true) (hmax : 0 ≤ max)
    (hx : 0 ≤ x) : 0 ≤ smaller x max ∧ smaller x max ≤ max := by
  have hself : max ≤ max := (le_iff_toRat_le hfinite hfinite).2 le_rfl
  obtain ⟨-, hnumber⟩ := isNaN_eq_false_of_le hx
  rw [smaller, hnumber, if_neg Bool.false_ne_true]
  split
  · exact ⟨hmax, hself⟩
  · next hnot =>
    have hlt := not_not.1 (mt (not_lt_iff_le hnumber (isNaN_eq_false_of_isFinite hfinite)).1 hnot)
    exact ⟨hx, le_of_lt hlt⟩

/-- The numbers of settings that have no fault. -/
theorem ActivationSettings.numbers_of_fault? (h : settings.fault? = none) :
    (settings.stabilizeIncrement.isFinite = true ∧ 0 ≤ settings.stabilizeIncrement) ∧
    (0 ≤ settings.entangleDamping ∧ settings.entangleDamping ≤ 1) ∧
    settings.referenceResonance.isFinite = true ∧ ¬settings.referenceResonance ≤ 0 := by
  unfold fault? at h
  split at h
  · cases h
  · split at h
    · cases h
    · split at h
      · cases h
      · next hincrement =>
        split at h
        · cases h
        · next hdamping =>
          split at h
          · cases h
          · next hreference =>
            simp only [Bool.or_eq_true, Bool.not_eq_true', decide_eq_true_eq, not_or,
              Bool.not_eq_false] at hincrement hdamping hreference
            obtain ⟨hfinite, hnonneg⟩ := hincrement
            exact ⟨⟨hfinite, (not_lt_iff_le (isNaN_eq_false_of_isFinite hfinite) rfl).1 hnonneg⟩,
              Quantity.within_iff.1 hdamping, hreference⟩

/-- Commands that concern the glyph alone. -/
theorem FieldState.InRange.apply (h : s.InRange limit) (hsettings : settings.fault? = none)
    (c : Command) : (s.apply settings c).InRange limit := by
  cases c with
  | phaseShift x => exact ⟨isWrapped_iff.1 (Angle.isWrapped_wrap _), h.coherence, h.depth⟩
  | stabilize =>
      obtain ⟨hincrement, hnonneg⟩ := (ActivationSettings.numbers_of_fault? hsettings).1
      obtain ⟨hlow, hhigh⟩ := h.coherence
      have hfinite := isFinite_of_le_of_le rfl rfl hlow hhigh
      have hlow := (le_iff_toRat_le rfl hfinite).1 hlow
      have hnonneg := (le_iff_toRat_le rfl hincrement).1 hnonneg
      have hsum : 0 ≤ s.coherence + settings.stabilizeIncrement := by
        refine (rounds_add hfinite hincrement 0 rfl).2 ?_
        rw [toRat_zero] at hlow hnonneg ⊢
        exact add_nonneg hlow hnonneg
      exact ⟨h.phase, Quantity.within_smaller rfl (by decide) hsum, h.depth⟩
  | _ => exact ⟨h.phase, h.coherence, h.depth⟩

theorem FieldState.InRange.command (h : s.InRange limit) (hsettings : settings.fault? = none)
    {c : Command} (hc : r.replayCommand settings g coefficient activate s c = .ok s') :
    s'.InRange limit := by
  cases c with
  | entangle t =>
      obtain ⟨y, a, -, -, rfl⟩ := Registry.replayCommand_entangle_eq_ok_iff.1 hc
      exact ⟨h.phase, h.coherence, h.depth⟩
  | _ =>
      cases hc
      exact h.apply hsettings _

/-- The ranges are preserved. -/
theorem Registry.IsRead.preserves_inRange (hr : r.IsRead) (hsettings : settings.fault? = none) :
    r.Preserves settings fun _ _ s => s.InRange settings.maxDepth where
  composed hl _ := inRange_compose hr hl
  command _ _ _ h _ hc := h.command hsettings hc

end Ranges

namespace Interpreter

/-- **The ranges of states.**  Under settings that have been checked, and with glyphs that texts
define, every state that is recorded has its phase in one turn, its coherence between zero and 100
and its depth within the limit, whether the activation goes on to succeed or not; so has the state
of every activation that succeeds. -/
theorem states_in_range {r : Registry} {settings : ActivationSettings} {i : Interpreter}
    (h : withSettings r settings = .ok i) (hr : r.IsRead) (us : List Use) :
    (∀ e ∈ (i.useAll us).trace.entries, e.step.state.InRange settings.maxDepth) ∧
    ∀ id, (∀ t ∈ (i.useAll us).steps id, t.state.InRange settings.maxDepth) ∧
      ∀ a, ((i.useAll us).activate id).1 = .ok a → a.state.InRange settings.maxDepth := by
  obtain ⟨rfl, rfl, htrace⟩ := withSettings_eq_ok h
  have hpreserves := hr.preserves_inRange i.fault?_eq_none
  have hsteps (id : String) (t : Step) (ht : t ∈ i.steps id) :
      t.state.InRange i.settings.maxDepth := by
    obtain ⟨-, hrange⟩ := preserved_steps hpreserves t ht
    exact hrange
  refine ⟨fun e he => ?_, fun id => ?_⟩
  · obtain hold | ⟨id, hid⟩ := mem_entries_useAll he
    · rw [htrace, entries_emptyTrace] at hold
      cases hold
    · exact hsteps id _ hid
  · obtain ⟨hresult, hsame⟩ := i.sameRuns_useAll us id
    rw [hresult, hsame]
    refine ⟨hsteps id, fun a ha => ?_⟩
    obtain ⟨-, -, hrange⟩ := preserved_activate hpreserves ha
    exact hrange

/-- A glyph that is stabilized up to the ceiling and turned back over zero. -/
def ebb : Glyph where
  id := "b"
  coherence := some 95
  phaseOffset := some (-90)
  script := "stabilize()|phase_shift(-450)"

/-- The glyph `a` does as `ebb` and is then entangled with itself, which fails. -/
def tide : Glyph where
  id := "a"
  coherence := some 95
  phaseOffset := some (-90)
  script := "stabilize()|phase_shift(-450)|entangle(a)"

def tides : Registry where
  glyphs := [tide, ebb]
  sorted := by
    unfold Keyed.Sorted
    decide
  length_le := by decide

theorem isRead_tides : tides.IsRead := by
  have htide : Glyph.read ("glyph_id: a\ncoherence: 95\nphase: -90\n" ++
      "activation: stabilize()|phase_shift(-450)|entangle(a)") = .ok tide :=
    Glyph.eq_ok_of_toOption (by decide +kernel)
  have hebb : Glyph.read ("glyph_id: b\ncoherence: 95\nphase: -90\n" ++
      "activation: stabilize()|phase_shift(-450)") = .ok ebb :=
    Glyph.eq_ok_of_toOption (by decide +kernel)
  intro id g hg
  have hmem : g ∈ [tide, ebb] := Keyed.mem_of_find? hg
  simp only [List.mem_cons, List.not_mem_nil, or_false] at hmem
  obtain rfl | rfl := hmem
  · exact ⟨_, htide⟩
  · exact ⟨_, hebb⟩

theorem activate_ebb : ∃ a, ((new tides).activate "b").1 = .ok a := by
  have hcommands : ebb.commands = [.stabilize, .phaseShift (-450)] := by decide +kernel
  obtain ⟨a, ha⟩ : ∃ a, tides.replay {} [] "b" = .ok a :=
    Registry.exists_replay_of_parents_eq_nil (g := ebb) rfl rfl List.not_mem_nil (by decide)
      (by simp [hcommands])
  exact ⟨a, Registry.activate_eq_ok_iff.2 ha⟩

/-- After an activation that fails, one that succeeds. -/
theorem tides_in_range : withSettings tides {} = .ok (new tides) ∧ tides.IsRead ∧
    let i := (new tides).useAll [.activate "a"]
    (∀ e ∈ i.trace.entries, e.step.state.InRange 32) ∧
      ∃ a, (i.activate "b").1 = .ok a ∧ a.state.InRange 32 := by
  have hnew : withSettings tides {} = .ok (new tides) := withSettings_of_fault? rfl
  obtain ⟨hentries, hruns⟩ := states_in_range hnew isRead_tides [.activate "a"]
  obtain ⟨hresult, -⟩ := (new tides).sameRuns_useAll [.activate "a"] "b"
  obtain ⟨a, ha⟩ := activate_ebb
  rw [← hresult] at ha
  exact ⟨hnew, isRead_tides, hentries, a, ha, (hruns "b").2 a ha⟩

end Interpreter

end GlyphField
