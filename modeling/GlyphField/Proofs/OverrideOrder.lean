import GlyphField.Activation.State
import GlyphField.Proofs.AncestorOrder

/-!
# GlyphField.Proofs.OverrideOrder

Which declaration of a number counts.  Composition takes over declared numbers from the oldest
ancestor on, so the last one that it comes to stays: the first in the list of the glyph and its
ancestors.  As no glyph stands in that list before one that inherits from it, nothing that
declares the number too is overridden by a glyph it inherits from.

* `number_foldl_override` — composing in order, the last declared number stays;
* `pairwise_ancestors` — a glyph stands before all that it inherits from;
* `compose_overrides` — the numbers of the composed state of a lineage.
-/

namespace GlyphField

open Relation (ReflTransGen TransGen)

/-- The number of a state for which a numeric field is declared. -/
def Composed.number (c : Composed) : NumberField → Float
  | .resonance => c.state.resonance
  | .magnitude => c.state.magnitude
  | .coherence => c.state.coherence
  | .entanglement => c.state.entanglement
  | .phaseOffset => c.state.phase

/-- What a declared number is in a state: phases are declared in degrees. -/
def NumberField.inState : NumberField → Float → Float
  | .phaseOffset, x => Angle.wrap (Angle.ofDegrees x)
  | _, x => x

/-- The number of a state for which nothing is declared. -/
def NumberField.neutral : NumberField → Float
  | .resonance => 440
  | .magnitude => 1
  | .coherence => 100
  | .entanglement => 1
  | .phaseOffset => 0

/-- The number that a registered glyph declares. -/
def Registry.declared? (r : Registry) (f : NumberField) (id : String) : Option Float :=
  (r.get? id).bind fun g => g.number f

/-- Among these ids `s` has the say on a number: it is the first to declare one, namely `x`, and
none of those that declare one inherits from it. -/
structure Registry.Decides (r : Registry) (f : NumberField) (ids : List String) (s : String)
    (x : Float) : Prop where
  declared : r.declared? f s = some x
  first : ids.find? (fun t => (r.declared? f t).isSome) = some s
  free : ∀ t ∈ ids, (r.declared? f t).isSome = true → ¬TransGen r.Inherits t s

/-! ## composition -/

namespace Composed

variable (c : Composed) (f f' : NumberField) (x : Option Float)

theorem number_setNumber? : (c.setNumber? f x).number f' =
    if f' = f then (x.map f.inState).getD (c.number f') else c.number f' := by
  cases x with
  | none => simp [setNumber?]
  | some x => cases f <;> cases f' <;> rfl

theorem coefficient_setNumber? (h : c.coefficient = c.state.entanglement) :
    (c.setNumber? f x).coefficient = (c.setNumber? f x).state.entanglement := by
  cases x with
  | none => exact h
  | some x =>
      cases f with
      | entanglement => rfl
      | _ => exact h

theorem number_override (g : Glyph) :
    (c.override g).number f = ((g.number f).map f.inState).getD (c.number f) := by
  simp only [override, List.foldl_cons, List.foldl_nil, number_setNumber?]
  cases f <;> rfl

/-- The coefficient follows the declared entanglement. -/
theorem coefficient_foldl_override (gs : List Glyph) (h : c.coefficient = c.state.entanglement) :
    (gs.foldl override c).coefficient = (gs.foldl override c).state.entanglement := by
  induction gs generalizing c with
  | nil => exact h
  | cons g gs ih =>
      apply ih
      simp only [override, List.foldl_cons, List.foldl_nil]
      iterate 5 apply coefficient_setNumber?
      exact h

/-- The last declared number stays. -/
theorem number_foldl_override (gs : List Glyph) : (gs.foldl override c).number f =
    ((gs.reverse.findSome? fun g => g.number f).map f.inState).getD (c.number f) := by
  induction gs generalizing c with
  | nil => rfl
  | cons g gs ih =>
      rw [List.foldl_cons, ih, number_override, List.reverse_cons, List.findSome?_append]
      cases gs.reverse.findSome? fun g => g.number f with
      | some x => rfl
      | none => simp

end Composed

/-! ## lineages -/

/-- No glyph that has been left inherits from one left later. -/
theorem Lineage.Retired.pairwise {r : Registry} {finished : List (String × Nat)}
    (h : Lineage.Retired r finished) :
    (finished.map Prod.fst).Pairwise fun a b => ¬TransGen r.Inherits b a := by
  induction h with
  | nil => exact .nil
  | cons hfs hnew _ _ _ ih =>
      refine List.pairwise_cons.2 ⟨fun b hb hba => ?_, ih⟩
      have hmem := hfs.mem_of_reflTransGen hb hba.to_reflTransGen
      rw [← Lineage.isSome_lookup_iff, hnew] at hmem
      cases hmem

namespace Registry

variable {r : Registry} {limit : Nat} {id : String} {l : Lineage}

/-- In the list of a glyph and its ancestors nobody inherits from one before. -/
theorem pairwise_ancestors (h : r.lineage limit id = .ok l) :
    (id :: l.ancestors).Pairwise fun a b => ¬TransGen r.Inherits b a := by
  obtain ⟨finished, hretired, -, -, hl⟩ := exists_retired_of_lineage h
  refine List.pairwise_cons.2 ⟨fun b hb hbid => ?_, ?_⟩
  · have hidb := (mem_ancestors_iff h).1 hb
    exact ne_of_transGen h (hidb.trans hbid) rfl
  · rw [hl]
    exact hretired.pairwise.filter _

/-- Nobody in the list of a glyph and its ancestors inherits from itself. -/
theorem not_transGen_self (h : r.lineage limit id = .ok l) {a : String}
    (ha : a ∈ id :: l.ancestors) : ¬TransGen r.Inherits a a := by
  have hreach : ReflTransGen r.Inherits id a := by
    obtain rfl | ha := List.mem_cons.1 ha
    · exact .refl
    · exact ((mem_ancestors_iff h).1 ha).to_reflTransGen
  exact (exists_lineage_iff.1 ⟨l, h⟩).2.1 a hreach

theorem Decides.findSome? {f : NumberField} {ids : List String} {s : String} {x : Float}
    (h : r.Decides f ids s x) : ids.findSome? (r.declared? f) = some x := by
  obtain ⟨-, front, rest, hsplit, hfront⟩ := List.find?_eq_some_iff_append.1 h.first
  refine List.findSome?_eq_some_iff.2 ⟨front, s, rest, hsplit, h.declared, fun t ht => ?_⟩
  simpa using hfront t ht

/-- The first to declare a number decides it. -/
theorem decides_of_find? {f : NumberField} {s : String} (h : r.lineage limit id = .ok l)
    (hs : (id :: l.ancestors).find? (fun t => (r.declared? f t).isSome) = some s) :
    ∃ x, r.Decides f (id :: l.ancestors) s x := by
  obtain ⟨hdeclared, front, rest, hsplit, hfront⟩ := List.find?_eq_some_iff_append.1 hs
  obtain ⟨x, hx⟩ := Option.isSome_iff_exists.1 hdeclared
  refine ⟨x, hx, hs, fun t ht htdeclared hts => ?_⟩
  have horder := pairwise_ancestors h
  have hirrefl := not_transGen_self h (List.mem_of_find?_eq_some hs)
  rw [hsplit] at ht horder
  obtain ht | ht := List.mem_append.1 ht
  · have hnot := hfront t ht
    rw [htdeclared] at hnot
    cases hnot
  · obtain rfl | ht := List.mem_cons.1 ht
    · exact hirrefl hts
    · exact (List.pairwise_cons.1 (List.pairwise_append.1 horder).2.1).1 t ht hts

theorem number_compose (f : NumberField) (l : Lineage) : (r.compose l).number f =
    (((l.glyphId :: l.ancestors).findSome? (r.declared? f)).map f.inState).getD f.neutral := by
  have hneutral : ({} : Composed).number f = f.neutral := by cases f <;> rfl
  have hdepth : (r.compose l).number f =
      ((l.compositionOrder.filterMap r.get?).foldl Composed.override {}).number f := by
    cases f <;> rfl
  have horder : l.compositionOrder.reverse = l.glyphId :: l.ancestors := by
    simp [Lineage.compositionOrder]
  rw [hdepth, Composed.number_foldl_override, hneutral, ← List.filterMap_reverse, horder,
    ← List.head?_filterMap, List.filterMap_filterMap, List.head?_filterMap]
  rfl

/-- **Declared numbers along a lineage.**  Each number of the composed state is what the first glyph
declares in the list of the glyph and its ancestors; no other glyph that declares the number
inherits from that one.  If nobody declares the number it has its neutral value.  What the glyph
itself declares always counts, and the coefficient is the composed entanglement. -/
theorem compose_overrides (h : r.lineage limit id = .ok l) (f : NumberField) :
    ((∃ s x, r.Decides f (id :: l.ancestors) s x ∧ (r.compose l).number f = f.inState x) ∨
      (∀ s ∈ id :: l.ancestors, r.declared? f s = none) ∧ (r.compose l).number f = f.neutral) ∧
    (∀ x, r.declared? f id = some x → (r.compose l).number f = f.inState x) ∧
    (r.compose l).coefficient = (r.compose l).state.entanglement := by
  have hnumber := number_compose (r := r) f l
  rw [glyphId_of_lineage h] at hnumber
  refine ⟨?_, fun x hx => ?_, ?_⟩
  · cases hs : (id :: l.ancestors).find? fun t => (r.declared? f t).isSome with
    | none =>
        have hnone : ∀ s ∈ id :: l.ancestors, r.declared? f s = none := by simpa using hs
        refine .inr ⟨hnone, ?_⟩
        rw [hnumber, List.findSome?_eq_none_iff.2 hnone]
        rfl
    | some s =>
        obtain ⟨x, hdecides⟩ := decides_of_find? h hs
        refine .inl ⟨s, x, hdecides, ?_⟩
        rw [hnumber, hdecides.findSome?]
        rfl
  · rw [hnumber, List.findSome?_cons, hx]
    rfl
  · exact Composed.coefficient_foldl_override {} _ rfl

/-- A glyph with two parents, of which the second inherits from the first; both parents declare a
resonance. -/
def shortcut : Registry where
  glyphs := [{ id := "a", resonance := some 110 },
    { id := "b", parents := ["a"], resonance := some 220 },
    { id := "c", parents := ["a", "b"], magnitude := some 2 }]
  sorted := by
    unfold Keyed.Sorted
    decide
  length_le := by decide

theorem lineage_shortcut : shortcut.lineage 3 "c" = .ok ⟨"c", ["b", "a"], 2, []⟩ := by
  rw [lineage_of_contains rfl]
  iterate 7 rw [Lineage.walk_of_step_ok (List.cons_ne_nil _ _) rfl]
  rw [Lineage.walk_of_done rfl]
  rfl

theorem shortcut_compose :
    shortcut.lineage 3 "c" = .ok ⟨"c", ["b", "a"], 2, []⟩ ∧
      (shortcut.compose ⟨"c", ["b", "a"], 2, []⟩).state.resonance = 220 ∧
      (shortcut.compose ⟨"c", ["b", "a"], 2, []⟩).state.magnitude = 2 := by
  refine ⟨lineage_shortcut, ?_, (compose_overrides lineage_shortcut .magnitude).2.1 2 rfl⟩
  obtain ⟨s, x, hdecides, hx⟩ | ⟨hnone, -⟩ := (compose_overrides lineage_shortcut .resonance).1
  · have hfirst : ["c", "b", "a"].findSome? (shortcut.declared? .resonance) = some 220 := rfl
    rw [hdecides.findSome?] at hfirst
    cases hfirst
    exact hx
  · have ha : shortcut.declared? .resonance "a" = some 110 := rfl
    rw [hnone "a" (by decide)] at ha
    cases ha

end Registry

end GlyphField
