import GlyphField.Proofs.LineageLimit

/-!
# GlyphField.Proofs.SameParents

Registries whose glyphs have the same known parents.  A walk along parents looks at nothing else of
a glyph but the parents that are not registered, and these it only reports: they are not put on the
stack, and on leaving a glyph they have no height.  So two such registries are walked through the
same states, apart from the reports, and also fail alike.

* `mapGlyphs` — a registry with its glyphs changed, which is where such registries come from;
* `SameParents.step_eq`, `SameParents.walk_eq` — the walks;
* `SameParents.lineage_eq` — the lineages, with some of the reports or all of them.
-/

namespace GlyphField

open Lineage
open Relation (ReflTransGen)

namespace Registry

variable {r r' : Registry} {keep : DanglingParent → Bool} {limit : Nat} {root : String}

/-! ## changed glyphs -/

/-- The registry with every glyph changed in something else than its id. -/
def mapGlyphs (r : Registry) (f : Glyph → Glyph) (hf : ∀ g, (f g).id = g.id) : Registry where
  glyphs := r.glyphs.map f
  sorted := List.pairwise_map.2 (r.sorted.imp fun hlt => by rwa [hf, hf])
  length_le := by
    rw [List.length_map]
    exact r.length_le

section MapGlyphs

variable {f : Glyph → Glyph} (hf : ∀ g, (f g).id = g.id)

@[simp] theorem get?_mapGlyphs (id : String) :
    (r.mapGlyphs f hf).get? id = (r.get? id).map f := by
  have hkey : (fun g => decide (Glyph.id g = id)) ∘ f = fun g => decide (g.id = id) :=
    funext fun g => by rw [Function.comp_apply, hf]
  rw [get?, get?, Keyed.find?, Keyed.find?, mapGlyphs, List.find?_map, hkey]

@[simp] theorem contains_mapGlyphs (id : String) :
    (r.mapGlyphs f hf).contains id = r.contains id := by
  rw [contains, get?_mapGlyphs, Option.isSome_map, contains]

end MapGlyphs

/-! ## the same known parents -/

/-- The same ids are registered, and the glyphs under them have the same known parents; of the
dangling parents in the first registry, the second one has those to be kept. -/
structure SameParents (r r' : Registry) (keep : DanglingParent → Bool) : Prop where
  contains : ∀ id, r'.contains id = r.contains id
  known : ∀ {id g g'}, r.get? id = some g → r'.get? id = some g' →
    r'.knownParents g' = r.knownParents g
  dangling : ∀ {id g g'}, r.get? id = some g → r'.get? id = some g' →
    r'.danglingParents g' = (r.danglingParents g).filter keep

/-- The walk with some of its reports. -/
def withReports (keep : DanglingParent → Bool) (w : Walk) : Walk :=
  { w with dangling := w.dangling.filter keep }

/-- All glyphs that have been left are registered. -/
def LeftRegistered (r : Registry) (w : Walk) : Prop :=
  ∀ a, (w.finished.lookup a).isSome = true → r.contains a = true

theorem leftRegistered_of_turns {w : Walk} (hroot : r.contains root = true)
    (h : ReflTransGen (Turn r limit) (Walk.start root) w) : LeftRegistered r w := by
  obtain ⟨waiting, levels, hinv⟩ := Invariant.of_turns hroot h
  intro a ha
  obtain ⟨k, hk⟩ := Option.isSome_iff_exists.1 ha
  exact (hinv.retired.of_lookup hk).1

/-- An unregistered parent has no height. -/
theorem heightOf_knownParents {w : Walk} (hw : LeftRegistered r w) (g : Glyph) :
    w.heightOf (r.knownParents g) = w.heightOf g.parents := by
  have hnone (p : String) (hp : ¬r.contains p = true) : w.finished.lookup p = none := by
    rw [← Option.not_isSome_iff_eq_none]
    exact fun hsome => hp (hw p hsome)
  rw [Walk.heightOf, Walk.heightOf, knownParents, List.filterMap_filter]
  congr 1
  refine List.filterMap_congr fun p _ => ?_
  by_cases hp : r.contains p = true
  · rw [if_pos hp]
  · rw [if_neg hp, hnone p hp, Option.map_none]

namespace SameParents

theorem isSome_get? (h : SameParents r r' keep) {id : String} {g : Glyph}
    (hg : r.get? id = some g) : ∃ g', r'.get? id = some g' := by
  have hcontains := h.contains id
  rw [Registry.contains, Registry.contains, hg] at hcontains
  exact Option.isSome_iff_exists.1 hcontains

theorem get?_eq_none (h : SameParents r r' keep) {id : String} (hg : r.get? id = none) :
    r'.get? id = none := by
  have hcontains := h.contains id
  rwa [Registry.contains, Registry.contains, hg, Option.isSome_none,
    Option.isSome_eq_false_iff, Option.isNone_iff_eq_none] at hcontains

theorem enterGlyph_eq (h : SameParents r r' keep) {a : String} {g g' : Glyph}
    (hg : r.get? a = some g) (hg' : r'.get? a = some g') (w : Walk) (n : Nat) (rest : List Task) :
    r'.enterGlyph (withReports keep w) g' n rest = withReports keep (r.enterGlyph w g n rest) := by
  simp only [enterGlyph, withReports, h.known hg hg', h.dangling hg hg', id_of_get? hg,
    id_of_get? hg', List.filter_append]

theorem enterStep_eq (h : SameParents r r' keep) (w : Walk) (id : String) (n : Nat) :
    r'.enterStep limit (withReports keep w) id n =
      (r.enterStep limit w id n).map (withReports keep) := by
  have hpath : (withReports keep w).path = w.path := rfl
  have hcycle : (withReports keep w).cycleTo id = w.cycleTo id := rfl
  have hlookup : (withReports keep w).finished.lookup id = w.finished.lookup id := rfl
  unfold enterStep
  rw [hpath, hcycle, hlookup]
  split
  · rfl
  · split
    · split <;> rfl
    · split
      · rfl
      · cases hg : r.get? id with
        | none => rw [h.get?_eq_none hg]; rfl
        | some g =>
            obtain ⟨g', hg'⟩ := h.isSome_get? hg
            rw [hg']
            exact congrArg Except.ok (h.enterGlyph_eq hg hg' w n _)

theorem leaveStep_eq (h : SameParents r r' keep) {w : Walk} (hw : LeftRegistered r w)
    (id : String) :
    r'.leaveStep (withReports keep w) id = withReports keep (r.leaveStep w id) := by
  have hw' : LeftRegistered r' (withReports keep w) := fun a ha => (h.contains a).trans (hw a ha)
  have hheight (ps : List String) : (withReports keep w).heightOf ps = w.heightOf ps := rfl
  cases hg : r.get? id with
  | none => simp only [leaveStep, hg, h.get?_eq_none hg, withReports]
  | some g =>
      obtain ⟨g', hg'⟩ := h.isSome_get? hg
      have hsame : (withReports keep w).heightOf g'.parents = w.heightOf g.parents := by
        rw [← heightOf_knownParents hw', h.known hg hg', hheight, heightOf_knownParents hw]
      simp only [leaveStep, hg, hg', hsame]
      rfl

/-- **Steps** are the same apart from reports. -/
theorem step_eq (h : SameParents r r' keep) (limit : Nat) {w : Walk} (hw : LeftRegistered r w) :
    r'.step limit (withReports keep w) = (r.step limit w).map (withReports keep) := by
  have hstack : (withReports keep w).stack = w.stack := rfl
  unfold step
  rw [hstack]
  cases w.stack with
  | nil => rfl
  | cons task rest =>
      cases task with
      | enter id n => exact h.enterStep_eq { w with stack := rest } id n
      | leave id => exact congrArg Except.ok (h.leaveStep_eq (w := { w with stack := rest }) hw id)

/-- **Walks** from a registered glyph are the same apart from reports. -/
theorem walk_eq (h : SameParents r r' keep) (limit : Nat) {w : Walk}
    (hroot : r.contains root = true) (hw : ReflTransGen (Turn r limit) (Walk.start root) w) :
    r'.walk limit (withReports keep w) = (r.walk limit w).map (withReports keep) := by
  have hstep := h.step_eq limit (leftRegistered_of_turns hroot hw)
  have hstack : (withReports keep w).stack = w.stack := rfl
  induction w using Registry.walk.induct r limit with
  | case1 w hnil => rw [walk_of_done hnil, walk_of_done (hstack.trans hnil)]; rfl
  | case2 w hne e hs =>
      rw [hs] at hstep
      rw [walk_of_step_error hne hs, walk_of_step_error (hstack ▸ hne) hstep]
      rfl
  | case3 w hne w' hs ih =>
      rw [hs] at hstep
      have hw' := hw.tail ⟨hne, hs⟩
      rw [walk_of_step_ok hne hs, walk_of_step_ok (hstack ▸ hne) hstep]
      exact ih hw' (h.step_eq limit (leftRegistered_of_turns hroot hw')) rfl

/-- **Lineages** are the same apart from reports, and there is none in both or in neither. -/
theorem lineage_eq (h : SameParents r r' keep) (limit : Nat) (id : String) :
    r'.lineage limit id =
      (r.lineage limit id).map fun l => { l with dangling := l.dangling.filter keep } := by
  cases hid : r.contains id with
  | false =>
      rw [lineage_of_not_contains hid, lineage_of_not_contains ((h.contains id).trans hid)]
      rfl
  | true =>
      have hwalk := h.walk_eq (min limit maxDepth) hid .refl
      rw [lineage_of_contains hid, lineage_of_contains ((h.contains id).trans hid)]
      have hstart : withReports keep (Walk.start id) = Walk.start id := rfl
      rw [hstart] at hwalk
      rw [hwalk]
      cases r.walk (min limit maxDepth) (Walk.start id) <;> rfl

end SameParents

end Registry

end GlyphField
