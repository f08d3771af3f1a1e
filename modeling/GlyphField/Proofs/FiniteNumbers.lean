import GlyphField.Proofs.CommandGrammar
import GlyphField.Proofs.FloatOverflow
import GlyphField.Proofs.ScriptStates
import GlyphField.Proofs.StateRanges

/-!
# GlyphField.Proofs.FiniteNumbers

Which numbers of an activation are finite.  What texts declare is finite, and so is what commands
take as arguments; of the numbers of a state the phase and the coherence stay in their ranges.  The
resonance, the magnitude and the entanglement have no ceiling.  Their products and sums may be too
great for a float; such a number is infinite, and no command makes it finite again.

So the numbers of an activation that succeeds are finite unless a command of a glyph that it reaches
overflows on the state in front of it, and then some of them are not.

* `Registry.Overflows` — some command of a glyph computes a number that is too great;
* `FieldState.InRange.isFinite_apply_iff`, `FieldState.InRange.isFinite_entangle_iff` — commands
  keep all numbers finite if they do not overflow, and only then;
* `finite_unless_overflow` — all numbers of an activation.
-/

namespace GlyphField

open Binary64
open Relation (ReflTransGen)

/-! ## numbers that are too great -/

/-- All numbers of a state are finite. -/
structure FieldState.IsFinite (s : FieldState) : Prop where
  resonance : s.resonance.isFinite = true
  magnitude : s.magnitude.isFinite = true
  phase : s.phase.isFinite = true
  coherence : s.coherence.isFinite = true
  entanglement : s.entanglement.isFinite = true

/-- What a target contributes is too great: its share of the reference, the part of it that is kept
times the coefficient, or the sum with what there is. -/
def FieldState.EntangleOverflows (settings : ActivationSettings) (coefficient : Float)
    (s target : FieldState) : Prop :=
  let kept := target.resonance / settings.referenceResonance * settings.entangleDamping
  overflowBound ≤ |toRat target.resonance / toRat settings.referenceResonance| ∨
    overflowBound ≤ |toRat kept * toRat coefficient| ∨
      overflowBound ≤ |toRat s.entanglement + toRat (kept * coefficient)|

namespace Registry

/-- A command of this glyph computes a number from this state that is too great. -/
def CommandOverflows (settings : ActivationSettings) (r : Registry) (g : Glyph)
    (coefficient : Float) (s : FieldState) : Command → Prop
  | .resonate x => overflowBound ≤ |toRat s.resonance * toRat x|
  | .amplify x => overflowBound ≤ |toRat s.magnitude * toRat x|
  | .entangle t => ∃ y g' target, r.targetId g t = .ok y ∧ r.get? y = some g' ∧
      r.StateAfter settings y g'.commands.length target ∧
        s.EntangleOverflows settings coefficient target
  | _ => False

/-- Some command of the glyph overflows on the state in front of it. -/
def Overflows (settings : ActivationSettings) (r : Registry) (id : String) : Prop :=
  ∃ g l k c s, r.get? id = some g ∧ r.lineage settings.maxDepth id = .ok l ∧
    g.commands[k]? = some c ∧ r.StateAfter settings id k s ∧
      r.CommandOverflows settings g (r.compose l).coefficient s c

end Registry

/-! ## single commands -/

section Commands

variable {settings : ActivationSettings} {limit : Nat} {s target : FieldState} {g : Glyph}
  {coefficient : Float} {c : Command}

/-- A command that can be used has an argument of its verb. -/
theorem Glyph.exists_argument (hc : c ∈ g.commands) (huse : c.isUsable = true) :
    ∃ v arg, Command.Argument v arg c := by
  obtain ⟨p, -, hp⟩ := List.mem_map.1 hc
  obtain ⟨v, name, arg, -, -, harg⟩ := (Command.ofPiece_eq_iff huse).1 hp
  exact ⟨v, _, harg⟩

theorem FieldState.InRange.isFinite_phase (h : s.InRange limit) : s.phase.isFinite = true :=
  isFinite_of_le_of_lt rfl rfl h.phase.1 h.phase.2

theorem FieldState.InRange.isFinite_coherence (h : s.InRange limit) :
    s.coherence.isFinite = true :=
  isFinite_of_le_of_le rfl rfl h.coherence.1 h.coherence.2

/-- Only three numbers of a state can be too great. -/
theorem FieldState.InRange.isFinite_iff (h : s.InRange limit) : s.IsFinite ↔
    s.resonance.isFinite = true ∧ s.magnitude.isFinite = true ∧ s.entanglement.isFinite = true :=
  ⟨fun hs => ⟨hs.resonance, hs.magnitude, hs.entanglement⟩,
    fun ⟨hr, hm, he⟩ => ⟨hr, hm, h.isFinite_phase, h.isFinite_coherence, he⟩⟩

/-- **Commands that concern the glyph alone.** -/
theorem FieldState.InRange.isFinite_apply_iff (h : s.InRange limit) (r : Registry)
    (coefficient : Float) (hsettings : settings.fault? = none) (hc : c ∈ g.commands)
    (halone : ∀ t, c ≠ .entangle t) :
    (s.apply settings c).IsFinite ↔
      s.IsFinite ∧ ¬r.CommandOverflows settings g coefficient s c := by
  rw [(h.apply hsettings c).isFinite_iff, h.isFinite_iff]
  cases c with
  | resonate x =>
      obtain ⟨v, arg, harg⟩ := Glyph.exists_argument hc rfl
      cases harg with
      | resonate _ hx _ =>
          simp only [FieldState.apply, Registry.CommandOverflows, isFinite_mul_iff, hx, not_le]
          tauto
  | amplify x =>
      obtain ⟨v, arg, harg⟩ := Glyph.exists_argument hc rfl
      cases harg with
      | amplify _ hx _ =>
          simp only [FieldState.apply, Registry.CommandOverflows, isFinite_mul_iff, hx, not_le]
          tauto
  | decay x =>
      obtain ⟨v, arg, harg⟩ := Glyph.exists_argument hc rfl
      cases harg with
      | decay _ hlow hhigh =>
          have hkept := Cell.within_kept (Quantity.within_iff.2 ⟨hlow, hhigh⟩)
          obtain ⟨hlow, hhigh⟩ := Quantity.within_iff.1 hkept
          simp only [FieldState.apply, Registry.CommandOverflows, isFinite_mul_share_iff hlow hhigh,
            not_false_iff, and_true]
  | entangle t => exact absurd rfl (halone t)
  | _ => simp [FieldState.apply, Registry.CommandOverflows]

/-- The coherence of a state, as a share of the greatest. -/
theorem FieldState.InRange.share_coherence (h : s.InRange limit) :
    0 ≤ s.coherence / fullCoherence ∧ s.coherence / fullCoherence ≤ 1 := by
  obtain ⟨hlow, hhigh⟩ := h.coherence
  have hfinite := h.isFinite_coherence
  have hfull : fullCoherence.isFinite = true := rfl
  have hpos : 0 < toRat fullCoherence := by
    rw [← toRat_zero, ← not_le, ← le_iff_toRat_le hfull rfl]
    decide
  have hlow := (le_iff_toRat_le rfl hfinite).1 hlow
  have hhigh : toRat s.coherence ≤ toRat fullCoherence := (le_iff_toRat_le hfinite hfull).1 hhigh
  have hround := rounds_div hfinite hfull hpos.ne'
  refine ⟨(hround 0 rfl).2 ?_, (hround 1 rfl).1 ?_⟩
  · rw [toRat_zero] at hlow ⊢
    exact div_nonneg hlow hpos.le
  · rw [toRat_one]
    exact (div_le_one hpos).2 hhigh

/-- **Entanglements.** -/
theorem FieldState.InRange.isFinite_entangle_iff (h : s.InRange limit)
    (htarget : target.InRange limit) (hsettings : settings.fault? = none)
    (hcoefficient : coefficient.isFinite = true) :
    (s.entangle settings coefficient target).IsFinite ↔
      s.IsFinite ∧ target.resonance.isFinite = true ∧
        ¬s.EntangleOverflows settings coefficient target := by
  obtain ⟨-, ⟨hlow, hhigh⟩, hreference, hpos⟩ := ActivationSettings.numbers_of_fault? hsettings
  have hne : toRat settings.referenceResonance ≠ 0 := by
    intro hzero
    refine hpos ((le_iff_toRat_le hreference rfl).2 ?_)
    rw [hzero, toRat_zero]
  obtain ⟨hshare, hshare'⟩ := htarget.share_coherence
  have hentangled : (s.entangle settings coefficient target).InRange limit :=
    ⟨h.phase, h.coherence, h.depth⟩
  rw [hentangled.isFinite_iff, h.isFinite_iff]
  simp only [FieldState.entangle, EntangleOverflows, isFinite_mul_share_iff hshare hshare',
    isFinite_add_iff, isFinite_mul_iff (y := coefficient), isFinite_mul_share_iff hlow hhigh,
    isFinite_div_iff hreference hne, hcoefficient, not_or, not_le]
  tauto

end Commands

/-! ## states -/

section States

variable {settings : ActivationSettings} {r : Registry} {id : String} {k : Nat} {s : FieldState}

theorem Registry.IsRead.isFinite_number (hr : r.IsRead) (f : NumberField) (hf : f ≠ .phaseOffset)
    (l : Lineage) : ((r.compose l).number f).isFinite = true := by
  obtain ⟨id, x, hdeclared, hx⟩ | hx := Registry.number_compose_cases (r := r) f l
  · have hfinite := (hr.declared hdeclared).1
    rw [hx]
    cases f with
    | phaseOffset => exact absurd rfl hf
    | _ => exact hfinite
  · rw [hx]
    cases f <;> rfl

theorem Registry.coefficient_compose (r : Registry) (l : Lineage) :
    (r.compose l).coefficient = (r.compose l).state.entanglement :=
  Composed.coefficient_foldl_override {} _ rfl

theorem Registry.IsRead.isFinite_coefficient (hr : r.IsRead) (l : Lineage) :
    (r.compose l).coefficient.isFinite = true := by
  rw [r.coefficient_compose]
  exact hr.isFinite_number .entanglement nofun l

theorem Registry.StateAfter.inRange (h : r.StateAfter settings id k s) (hr : r.IsRead)
    (hsettings : settings.fault? = none) : s.InRange settings.maxDepth := by
  induction h with
  | composed hg hl => exact inRange_compose hr hl
  | apply h hg hc halone ih => exact ih.apply hsettings _
  | entangle h hg hl hc hy hg' htarget ih ih' => exact ⟨ih.phase, ih.coherence, ih.depth⟩

/-- **Without an overflow** in the glyph and in those that it reaches its states are finite, by
induction over what made them. -/
theorem Registry.StateAfter.isFinite (h : r.StateAfter settings id k s) (hr : r.IsRead)
    (hsettings : settings.fault? = none)
    (hno : ∀ x, ReflTransGen r.Entangles id x → ¬r.Overflows settings x) : s.IsFinite := by
  induction h with
  | composed hg hl =>
      refine (inRange_compose hr hl).isFinite_iff.2 ⟨?_, ?_, ?_⟩
      · exact hr.isFinite_number .resonance nofun _
      · exact hr.isFinite_number .magnitude nofun _
      · exact hr.isFinite_number .entanglement nofun _
  | @apply id g k s c h hg hc halone ih =>
      obtain ⟨-, l, -, hl, -⟩ := h.exists_get?
      have hmem := List.mem_of_getElem? hc
      refine ((h.inRange hr hsettings).isFinite_apply_iff r (r.compose l).coefficient hsettings hmem
        halone).2 ⟨ih hno, ?_⟩
      exact fun hover => hno id .refl ⟨g, l, k, c, s, hg, hl, hc, h, hover⟩
  | @entangle id y g g' l k s target t h hg hl hc hy hg' htarget ih ih' =>
      have hlink : r.Entangles id y :=
        ⟨g, t, hg, List.mem_of_getElem? hc, (targetId_eq_ok_iff.1 hy).1⟩
      have htarget' := ih' fun x hx => hno x (hx.head hlink)
      refine ((h.inRange hr hsettings).isFinite_entangle_iff (htarget.inRange hr hsettings)
        hsettings (hr.isFinite_coefficient l)).2 ⟨ih hno, htarget'.resonance, fun hover => ?_⟩
      exact hno id .refl
        ⟨g, l, k, _, s, hg, hl, hc, h, y, g', target, hy, hg', htarget, hover⟩

/-- After a command that overflows some number is not finite. -/
theorem Registry.Overflows.exists_not_isFinite (h : r.Overflows settings id) (hr : r.IsRead)
    (hsettings : settings.fault? = none) :
    ∃ k s, r.StateAfter settings id k s ∧ ¬s.IsFinite := by
  obtain ⟨g, l, k, c, s, hg, hl, hc, hs, hover⟩ := h
  have hrange := hs.inRange hr hsettings
  by_cases halone : ∀ t, c ≠ .entangle t
  · refine ⟨k + 1, _, hs.apply hg hc halone, fun hfinite => ?_⟩
    have hmem := List.mem_of_getElem? hc
    exact ((hrange.isFinite_apply_iff r _ hsettings hmem halone).1 hfinite).2 hover
  · obtain ⟨t, rfl⟩ := not_forall_not.1 halone
    obtain ⟨y, g', target, hy, hg', htarget, hover⟩ := hover
    refine ⟨k + 1, _, hs.entangle hg hl hc hy hg' htarget, fun hfinite => ?_⟩
    exact ((hrange.isFinite_entangle_iff (htarget.inRange hr hsettings) hsettings
      (hr.isFinite_coefficient l)).1 hfinite).2.2 hover

end States

/-! ## activations -/

namespace Interpreter

/-- **Finite numbers.**  With glyphs that texts define, every state that an activation records has a
finite phase and a finite coherence, and the trace takes up nothing but these states.  If the
activation succeeds then its own state is among them, and all numbers of all of them are finite
exactly if no command of a glyph that is reached overflows. -/
theorem finite_unless_overflow (i : Interpreter) (hr : i.registry.IsRead) (id : String) :
    (∀ t ∈ i.steps id, t.state.phase.isFinite = true ∧ t.state.coherence.isFinite = true) ∧
    (∀ e ∈ (i.activate id).2.trace.entries, e ∈ i.trace.entries ∨ e.step ∈ i.steps id) ∧
    ∀ a, (i.activate id).1 = .ok a →
      (∃ t ∈ i.steps id, t.glyphId = id ∧ t.state = a.state) ∧
      ((∀ t ∈ i.steps id, t.state.IsFinite) ↔
        ∀ x, ReflTransGen i.registry.Entangles id x → ¬i.registry.Overflows i.settings x) := by
  have hsettings := i.fault?_eq_none
  have hstates (t : Step) (ht : t ∈ i.steps id) :
      ∃ k, i.registry.StateAfter i.settings t.glyphId k t.state := by
    obtain ⟨ds, hstate⟩ :=
      preserved_steps (Registry.preserves_stateAfter i.settings i.registry) t ht
    exact ⟨_, hstate⟩
  refine ⟨fun t ht => ?_, fun e he => mem_entries_recordAll he, fun a ha => ⟨?_, ?_, ?_⟩⟩
  · obtain ⟨k, hstate⟩ := hstates t ht
    have hrange := hstate.inRange hr hsettings
    exact ⟨hrange.isFinite_phase, hrange.isFinite_coherence⟩
  · exact (recorded_iff_stateAfter ha .refl).2 (stateAfter_of_activate ha)
  · intro hfinite x hx hover
    obtain ⟨k, s, hstate, hnot⟩ := hover.exists_not_isFinite hr hsettings
    obtain ⟨t, ht, -, rfl⟩ := (recorded_iff_stateAfter ha hx).2 ⟨k, hstate⟩
    exact hnot (hfinite t ht)
  · intro hno t ht
    obtain ⟨k, hstate⟩ := hstates t ht
    refine hstate.isFinite hr hsettings fun x hx => hno x ?_
    exact (reached_of_mem_steps ht).trans hx

/-- A registry of one glyph. -/
def only (g : Glyph) : Registry where
  glyphs := [g]
  sorted := List.pairwise_singleton _ _
  length_le := by
    rw [List.length_singleton]
    decide

theorem isRead_only {g : Glyph} {text : String} (h : Glyph.read text = .ok g) :
    (only g).IsRead := by
  intro id g' hg
  obtain rfl := List.mem_singleton.1 (Keyed.mem_of_find? hg)
  exact ⟨text, h⟩

theorem activate_only {g : Glyph} {l : Lineage} {s : FieldState}
    (hl : (only g).lineage 32 g.id = .ok l)
    (hrun : g.commands.foldlM ((only g).replayCommand {} g ((only g).compose l).coefficient
      ((only g).replay {} [g.id])) ((only g).compose l).state = .ok s) :
    ((new (only g)).activate g.id).1 = .ok ⟨g.id, s, l, g.quantumState⟩ := by
  have hg : (only g).get? g.id = some g := by simp [only, Registry.get?, Keyed.find?]
  exact Registry.activate_eq_ok_iff.2 (Registry.replay_eq_ok_iff.2
    ⟨List.not_mem_nil, Nat.zero_le _, l, g, s, hl, hg, hrun, rfl⟩)

/-- A glyph whose resonance is doubled. -/
def octave : Glyph := { id := "a", script := "resonate(2)" }

theorem read_octave : Glyph.read "glyph_id: a\nactivation: resonate(2)" = .ok octave := by
  cbv

theorem octave_commands : octave.commands = [.resonate 2] := by
  decide +kernel

theorem octave_lineage : (only octave).lineage 32 "a" = .ok ⟨"a", [], 0, []⟩ :=
  Registry.lineage_of_parents_eq_nil rfl rfl

theorem not_overflows_octave (id : String) : ¬(only octave).Overflows {} id := by
  rintro ⟨g, l, k, c, s, hg, hl, hc, hstate, hover⟩
  obtain rfl := List.mem_singleton.1 (Keyed.mem_of_find? hg)
  obtain rfl : octave.id = id := Registry.id_of_get? hg
  cases octave_lineage.symm.trans hl
  rw [octave_commands] at hc
  obtain ⟨rfl, rfl⟩ : k = 0 ∧ c = .resonate 2 := by
    rw [List.getElem?_singleton] at hc
    split at hc
    · next hk => exact ⟨hk, (Option.some.inj hc).symm⟩
    · cases hc
  cases hstate with
  | composed hg' hl' =>
      cases octave_lineage.symm.trans hl'
      have hfinite : ((440 : Float) * 2).isFinite = true := rfl
      exact (isFinite_mul_iff.1 hfinite).2.2.not_ge hover

theorem octave_finite : (only octave).IsRead ∧
    (∃ a, ((new (only octave)).activate "a").1 = .ok a) ∧
      ∀ t ∈ (new (only octave)).steps "a", t.state.IsFinite := by
  have hread := isRead_only read_octave
  have hactivate := activate_only (s := { resonance := 440 * 2 }) octave_lineage (by
    rw [octave_commands]
    rfl)
  refine ⟨hread, ⟨_, hactivate⟩, ?_⟩
  exact ((finite_unless_overflow _ hread "a").2.2 _ hactivate).2.2
    fun x _ => not_overflows_octave x

/-- A glyph whose resonance grows beyond all floats and is then multiplied by zero. -/
def surge : Glyph := { id := "a", script := "resonate(1e308)|resonate(0)" }

theorem read_surge :
    Glyph.read "glyph_id: a\nactivation: resonate(1e308)|resonate(0)" = .ok surge := by
  cbv

theorem activate_surge : ∃ a, ((new (only surge)).activate "a").1 = .ok a ∧
    a.state.resonance.isNaN = true := by
  have hcommands : surge.commands = [.resonate 1e308, .resonate 0] := by decide +kernel
  have hlineage : (only surge).lineage 32 "a" = .ok ⟨"a", [], 0, []⟩ :=
    Registry.lineage_of_parents_eq_nil rfl rfl
  refine ⟨_, activate_only (s := { resonance := 440 * 1e308 * 0 }) hlineage ?_, by decide +kernel⟩
  rw [hcommands]
  rfl

/-- Not all numbers of all activations that succeed are finite. -/
theorem surge_not_finite : ¬∀ (r : Registry) (settings : ActivationSettings) (i : Interpreter)
    (id : String) (a : Activation), r.IsRead → withSettings r settings = .ok i →
      (i.activate id).1 = .ok a → a.state.IsFinite ∧
        ∀ e ∈ (i.activate id).2.trace.entries, e.step.state.IsFinite := by
  intro h
  obtain ⟨a, ha, hnan⟩ := activate_surge
  have hnew : withSettings (only surge) {} = .ok (new (only surge)) :=
    withSettings_of_fault? rfl
  have hfinite := (h _ _ _ "a" a (isRead_only read_surge) hnew ha).1.resonance
  rw [isNaN_eq_false_of_isFinite hfinite] at hnan
  cases hnan

end Interpreter

end GlyphField
