import GlyphField.Proofs.LineageLimit
import Mathlib.Data.List.Nodup

/-!
# GlyphField.Proofs.AncestorOrder

Which ancestors a lineage lists, and in which order.  A glyph is left only after all its known
parents, and what is left stands in front of what was left before; so the list of finished glyphs
is closed under parents and has every glyph before its ancestors.  That nothing else stands there
follows from the path: whatever is left has been reached from the root.

* `Retired.sublist_of_transGen` — a finished glyph stands before each of its ancestors;
* `reached_of_turns` — at every turn of a walk, what has been left is reached from the root;
* `ancestors_ordered` — the ancestors of a lineage and the order of composition.
-/

namespace GlyphField

open Relation (ReflTransGen TransGen)

namespace Lineage

variable {r : Registry} {root : String} {limit : Nat}

/-! ## what has been left -/

section Retired

variable {finished : List (String × Nat)} {a b : String}

theorem isSome_lookup_iff {β : Type} {table : List (String × β)} :
    (table.lookup a).isSome = true ↔ a ∈ table.map Prod.fst := by
  rw [List.lookup_isSome_iff, List.mem_map]
  exact exists_congr fun p => and_congr_right fun _ => beq_iff_eq.trans eq_comm

/-- No glyph is left twice. -/
theorem Retired.nodup (h : Retired r finished) : (finished.map Prod.fst).Nodup := by
  induction h with
  | nil => exact List.nodup_nil
  | cons _ hnew _ _ _ ih =>
      refine List.nodup_cons.2 ⟨fun hmem => ?_, ih⟩
      have hsome := isSome_lookup_iff.2 hmem
      rw [hnew] at hsome
      cases hsome

/-- What has been left is closed under parents. -/
theorem Retired.mem_of_inherits (h : Retired r finished) (ha : a ∈ finished.map Prod.fst)
    (hab : r.Inherits a b) : b ∈ finished.map Prod.fst := by
  induction h with
  | nil => cases ha
  | cons _ _ _ hparents _ ih =>
      obtain rfl | ha := List.mem_cons.1 ha
      · exact List.mem_cons_of_mem _ (isSome_lookup_iff.1 (hparents b hab))
      · exact List.mem_cons_of_mem _ (ih ha)

theorem Retired.mem_of_reflTransGen (h : Retired r finished) (ha : a ∈ finished.map Prod.fst)
    (hab : ReflTransGen r.Inherits a b) : b ∈ finished.map Prod.fst := by
  induction hab with
  | refl => exact ha
  | tail _ hlast ih => exact h.mem_of_inherits ih hlast

/-- A glyph that has been left stands before each of its ancestors. -/
theorem Retired.sublist_of_transGen (h : Retired r finished) (ha : a ∈ finished.map Prod.fst)
    (hab : TransGen r.Inherits a b) : [a, b].Sublist (finished.map Prod.fst) := by
  induction h with
  | nil => cases ha
  | cons hfs _ _ hparents _ ih =>
      obtain rfl | ha := List.mem_cons.1 ha
      · obtain ⟨p, hap, hpb⟩ := Relation.TransGen.head'_iff.1 hab
        have hp := isSome_lookup_iff.1 (hparents p hap)
        have hb := hfs.mem_of_reflTransGen hp hpb
        exact (List.singleton_sublist.2 hb).cons_cons a
      · exact (ih ha).cons _

end Retired

/-! ## what is reached -/

/-- Every glyph that has been left is reached from the root. -/
def Reached (r : Registry) (root : String) (finished : List (String × Nat)) : Prop :=
  ∀ a ∈ finished.map Prod.fst, ReflTransGen r.Inherits root a

/-- A turn leaves at most the present glyph, which the path leads to from the root. -/
theorem Reached.step {waiting : List String} {levels : List Level} {w w' : Walk}
    (hreached : Reached r root w.finished)
    (h : Invariant r root limit waiting levels w) (hs : r.step limit w = .ok w') :
    Reached r root w'.finished := by
  cases waiting with
  | cons p waiting =>
      rw [step_of_cons h.stack_eq] at hs
      obtain ⟨-, ⟨-, rfl⟩ | ⟨-, -, ⟨-, rfl⟩ | ⟨g, -, rfl⟩⟩⟩ := enterStep_eq_ok hs
      · exact hreached
      · exact hreached
      · exact hreached
  | nil =>
      cases levels with
      | nil =>
          have hstack : w.stack = [] := h.stack_eq
          simp only [Registry.step, hstack] at hs
          cases hs
          exact hreached
      | cons l ls =>
          rw [step_of_nil h.stack_eq] at hs
          cases hs
          have hchain := h.ladder.2.2.2.chain (p := l.glyph) List.mem_cons_self
          intro a ha
          obtain rfl | ha := List.mem_cons.1 ha
          · exact hchain.reflTransGen
          · exact hreached a ha

/-- At every turn of a walk from a registered glyph, what has been left is reached from it. -/
theorem reached_of_turns {w : Walk} (hroot : r.contains root = true)
    (h : ReflTransGen (Turn r limit) (Walk.start root) w) : Reached r root w.finished := by
  induction h with
  | refl => exact fun a ha => absurd ha List.not_mem_nil
  | tail hturns hturn ih =>
      obtain ⟨waiting, levels, hinv⟩ := Invariant.of_turns hroot hturns
      exact ih.step hinv hturn.2

end Lineage

/-! ## lineages -/

namespace Registry

open Lineage

variable {r : Registry} {limit : Nat} {id : String} {l : Lineage}

/-- A lineage lists what its walk has left, without the glyph itself. -/
theorem exists_retired_of_lineage (h : r.lineage limit id = .ok l) :
    ∃ finished, Retired r finished ∧ Reached r id finished ∧ id ∈ finished.map Prod.fst ∧
      l.ancestors = (finished.map Prod.fst).filter (· ≠ id) := by
  obtain ⟨hid, w, hw, rfl⟩ := lineage_eq_ok_iff.1 h
  obtain ⟨hturns, -⟩ := turns_of_walk_ok hw
  obtain ⟨waiting, levels, hinv⟩ := Invariant.of_turns hid hturns
  obtain ⟨k, hk, -⟩ := height_of_walk_ok hid hw
  have hmem := isSome_lookup_iff.1 (by rw [hk, Option.isSome_some])
  exact ⟨w.finished, hinv.retired, reached_of_turns hid hturns, hmem, rfl⟩

theorem glyphId_of_lineage (h : r.lineage limit id = .ok l) : l.glyphId = id := by
  obtain ⟨-, w, -, rfl⟩ := lineage_eq_ok_iff.1 h
  rfl

/-- A glyph with a lineage is no ancestor of an ancestor of its own. -/
theorem ne_of_transGen (h : r.lineage limit id = .ok l) {a : String}
    (ha : TransGen r.Inherits id a) : a ≠ id := by
  rintro rfl
  exact (exists_lineage_iff.1 ⟨l, h⟩).2.1 a .refl ha

/-- The ancestors are the glyphs reached through at least one parent. -/
theorem mem_ancestors_iff (h : r.lineage limit id = .ok l) {a : String} :
    a ∈ l.ancestors ↔ TransGen r.Inherits id a := by
  obtain ⟨finished, hretired, hreached, hid, hl⟩ := exists_retired_of_lineage h
  simp only [hl, List.mem_filter, decide_eq_true_eq]
  constructor
  · rintro ⟨ha, hne⟩
    obtain rfl | htrans := Relation.reflTransGen_iff_eq_or_transGen.1 (hreached a ha)
    · exact absurd rfl hne
    · exact htrans
  · intro ha
    exact ⟨hretired.mem_of_reflTransGen hid ha.to_reflTransGen, ne_of_transGen h ha⟩

/-- An ancestor stands before each of its own ancestors. -/
theorem ancestors_sublist (h : r.lineage limit id = .ok l) {u v : String} (hu : u ∈ l.ancestors)
    (huv : TransGen r.Inherits u v) : [u, v].Sublist l.ancestors := by
  have hidu := (mem_ancestors_iff h).1 hu
  obtain ⟨finished, hretired, -, -, hl⟩ := exists_retired_of_lineage h
  have hfinished : u ∈ finished.map Prod.fst := by
    rw [hl] at hu
    exact (List.mem_filter.1 hu).1
  have hpair : [u, v].filter (· ≠ id) = [u, v] := by
    simp [ne_of_transGen h hidu, ne_of_transGen h (hidu.trans huv)]
  have hsub := (hretired.sublist_of_transGen hfinished huv).filter (· ≠ id)
  rwa [hpair, ← hl] at hsub

/-- In the order of composition a glyph comes after each of its ancestors. -/
theorem compositionOrder_sublist (h : r.lineage limit id = .ok l) {u v : String}
    (hu : u ∈ l.compositionOrder) (huv : TransGen r.Inherits u v) :
    [v, u].Sublist l.compositionOrder := by
  rw [Lineage.compositionOrder, glyphId_of_lineage h] at hu ⊢
  obtain hu | hu := List.mem_append.1 hu
  · have hsub := (ancestors_sublist h (List.mem_reverse.1 hu) huv).reverse
    exact hsub.trans (List.sublist_append_left _ _)
  · obtain rfl := List.mem_singleton.1 hu
    have hv := List.mem_reverse.2 ((mem_ancestors_iff h).2 huv)
    exact (List.singleton_sublist.2 hv).append (List.Sublist.refl [u])

/-- **The ancestors of a lineage** are exactly the registered glyphs reached from its glyph by one
or more declared parents, each once and never the glyph itself.  A glyph is listed before every
registered parent that it declares; in the order of composition each glyph comes after all of its
ancestors, and the glyph of the lineage comes last. -/
theorem ancestors_ordered (h : r.lineage limit id = .ok l) :
    (∀ a, a ∈ l.ancestors ↔ TransGen r.Inherits id a) ∧ l.ancestors.Nodup ∧ id ∉ l.ancestors ∧
    (∀ u v, u ∈ l.ancestors → v ∈ l.ancestors → r.Inherits u v → [u, v].Sublist l.ancestors) ∧
    (∀ u v, u ∈ l.compositionOrder → TransGen r.Inherits u v →
      [v, u].Sublist l.compositionOrder) ∧
    l.compositionOrder.Nodup ∧ l.compositionOrder.getLast? = some id := by
  obtain ⟨finished, hretired, -, -, hl⟩ := exists_retired_of_lineage h
  have hnodup : l.ancestors.Nodup := hl ▸ hretired.nodup.filter _
  have hid : id ∉ l.ancestors := fun hmem => ne_of_transGen h ((mem_ancestors_iff h).1 hmem) rfl
  refine ⟨fun a => mem_ancestors_iff h, hnodup, hid, fun u v hu _ huv => ?_,
    fun u v => compositionOrder_sublist h, ?_, ?_⟩
  · exact ancestors_sublist h hu (.single huv)
  · rw [Lineage.compositionOrder, glyphId_of_lineage h, List.nodup_append]
    refine ⟨List.nodup_reverse.2 hnodup, List.nodup_singleton id, fun a ha b hb => ?_⟩
    rw [List.mem_singleton.1 hb]
    rintro rfl
    exact hid (List.mem_reverse.1 ha)
  · rw [Lineage.compositionOrder, glyphId_of_lineage h, List.getLast?_concat]

/-- A glyph with two parents that share one of their own, and a parent that is not registered. -/
def diamond : Registry where
  glyphs := [{ id := "a" }, { id := "b", parents := ["a"] }, { id := "c", parents := ["x", "a"] },
    { id := "d", parents := ["b", "c"] }]
  sorted := by
    unfold Keyed.Sorted
    decide
  length_le := by decide

theorem lineage_diamond :
    diamond.lineage 2 "d" = .ok ⟨"d", ["c", "b", "a"], 2, [⟨"c", "x"⟩]⟩ := by
  rw [lineage_of_contains rfl]
  iterate 9 rw [walk_of_step_ok (List.cons_ne_nil _ _) rfl]
  rw [walk_of_done rfl]
  rfl

theorem lineage_diamond_tooDeep : diamond.lineage 1 "d" = .error (.tooDeep "a" 1) := by
  rw [lineage_of_contains rfl]
  iterate 2 rw [walk_of_step_ok (List.cons_ne_nil _ _) rfl]
  rw [walk_of_step_error (List.cons_ne_nil _ _) rfl]
  rfl

theorem diamond_ancestors_ordered :
    diamond.lineage 2 "d" = .ok ⟨"d", ["c", "b", "a"], 2, [⟨"c", "x"⟩]⟩ ∧
      TransGen diamond.Inherits "d" "a" ∧ ["a", "d"].Sublist ["a", "b", "c", "d"] := by
  obtain ⟨hmem, -, -, -, horder, -⟩ := ancestors_ordered lineage_diamond
  have hd : TransGen diamond.Inherits "d" "a" := (hmem "a").1 (by decide)
  exact ⟨lineage_diamond, hd, horder "d" "a" (by decide) hd⟩

end Registry

end GlyphField
