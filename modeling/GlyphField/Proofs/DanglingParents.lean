import GlyphField.Proofs.AncestorOrder
import GlyphField.Proofs.Repetitions
import GlyphField.Proofs.SameParents

/-!
# GlyphField.Proofs.DanglingParents

Parents that are declared but not registered.  A glyph reports its own when it is entered, and it is
entered once; so at every turn of the walk the reports are those of the glyphs seen, each once.
Without such parents a registry has the same known ones, and nothing but the reports is lost.

* `Reported.step`, `reported_of_turns` — at every turn, what has been reported;
* `dangling_of_lineage` — what a lineage reports;
* `dangling_reported` — that, and that nothing else depends on parents that are not registered.
-/

namespace GlyphField

open Relation (ReflTransGen TransGen)

/-- The registered glyph `c` declares `p`, which is not registered. -/
def Registry.Misses (r : Registry) (c p : String) : Prop :=
  ∃ g, r.get? c = some g ∧ p ∈ g.parents ∧ r.contains p = false

namespace Lineage

variable {r : Registry} {root : String} {limit : Nat}

/-! ## what is reported -/

theorem mem_danglingParents {a c p : String} {g : Glyph} (hg : r.get? a = some g) :
    ⟨c, p⟩ ∈ r.danglingParents g ↔ c = a ∧ r.Misses c p := by
  have hid := Registry.id_of_get? hg
  simp only [Registry.danglingParents, List.mem_eraseDups, List.mem_map, List.mem_filter,
    DanglingParent.mk.injEq, hid, Bool.not_eq_true']
  constructor
  · rintro ⟨p, ⟨hp, hmissing⟩, rfl, rfl⟩
    exact ⟨rfl, g, hg, hp, hmissing⟩
  · rintro ⟨rfl, g', hg', hp, hmissing⟩
    obtain rfl : g = g' := Option.some.inj (hg.symm.trans hg')
    exact ⟨p, ⟨hp, hmissing⟩, rfl, rfl⟩

/-- The reports of a walk: each dangling parent of each glyph seen, once. -/
structure Reported (r : Registry) (w : Walk) : Prop where
  nodup : w.dangling.Nodup
  mem_iff : ∀ c p, ⟨c, p⟩ ∈ w.dangling ↔ w.seen c = true ∧ r.Misses c p

/-- Entering a glyph that has not been seen adds its reports. -/
theorem Reported.enter {w : Walk} {a : String} {g : Glyph} {n : Nat} {rest : List Task}
    (h : Reported r w) (hstack : w.stack = .enter a n :: rest) (hg : r.get? a = some g)
    (hnew : w.seen a = false) : Reported r (r.enterGlyph w g n rest) where
  nodup := by
    refine h.nodup.append (nodup_eraseDups _) fun d hd hd' => ?_
    obtain ⟨rfl, hmisses⟩ := (mem_danglingParents hg).1 hd'
    have hseen := ((h.mem_iff _ _).1 hd).1
    rw [hnew] at hseen
    cases hseen
  mem_iff c p := by
    have hseen : (r.enterGlyph w g n rest).seen c = true ↔ c = a ∨ w.seen c = true := by
      rw [← Registry.seen_pop_enter w a n rest hstack c, Walk.seen, Registry.path_enterGlyph,
        Registry.id_of_get? hg]
      simp only [Walk.seen, Walk.path, Registry.enterGlyph, List.contains_cons, Bool.or_eq_true,
        beq_iff_eq, or_assoc]
    rw [hseen]
    simp only [Registry.enterGlyph, List.mem_append, h.mem_iff, mem_danglingParents hg, or_and_right,
      or_comm]

/-- A turn sees at most the next id, and reports what that glyph misses. -/
theorem Reported.step {waiting : List String} {levels : List Level} {w w' : Walk}
    (hreported : Reported r w) (h : Invariant r root limit waiting levels w)
    (hs : r.step limit w = .ok w') : Reported r w' := by
  cases waiting with
  | cons p waiting =>
      have hstack := h.stack_eq.trans (tasks_cons p waiting levels)
      have hseen (c : String) :
          ({ w with stack := tasks waiting levels } : Walk).seen c = w.seen c :=
        Registry.seen_pop_enter w p levels.length _ hstack c
      have hskip : Reported r { w with stack := tasks waiting levels } :=
        ⟨hreported.nodup, fun c p => by rw [hseen]; exact hreported.mem_iff c p⟩
      rw [step_of_cons h.stack_eq] at hs
      obtain ⟨hpath, ⟨-, rfl⟩ | ⟨hnone, -, ⟨-, rfl⟩ | ⟨g, hg, rfl⟩⟩⟩ := enterStep_eq_ok hs
      · exact hskip
      · exact hskip
      · refine hreported.enter hstack hg ?_
        rw [← hseen, Walk.seen, hnone]
        simpa using hpath
  | nil =>
      cases levels with
      | nil =>
          have hstack : w.stack = [] := h.stack_eq
          simp only [Registry.step, hstack] at hs
          cases hs
          exact hreported
      | cons l ls =>
          have hstack : w.stack = .leave l.glyph :: tasks l.rest ls := h.stack_eq
          rw [step_of_nil h.stack_eq] at hs
          cases hs
          refine ⟨hreported.nodup, fun c p => (hreported.mem_iff c p).trans ?_⟩
          -- the glyph goes from the path to those that have been left
          have hseen : (r.leaveStep { w with stack := tasks l.rest ls } l.glyph).seen c =
              w.seen c := by
            simp only [Walk.seen, Walk.path, Registry.leaveStep, hstack, List.filterMap_cons,
              Task.leaves?, List.contains_cons, List.lookup_cons]
            cases hc : c == l.glyph <;> simp
          rw [hseen]

/-- At every turn of a walk from a registered glyph, what the glyphs seen miss has been reported. -/
theorem reported_of_turns {w : Walk} (hroot : r.contains root = true)
    (h : ReflTransGen (Turn r limit) (Walk.start root) w) : Reported r w := by
  induction h with
  | refl => exact ⟨List.nodup_nil, fun c p => by simp [Walk.start, Walk.seen, Walk.path, Task.leaves?]⟩
  | tail hturns hturn ih =>
      obtain ⟨waiting, levels, hinv⟩ := Invariant.of_turns hroot hturns
      exact ih.step hinv hturn.2

end Lineage

namespace Registry

open Lineage

variable {r : Registry} {limit : Nat} {id : String} {l : Lineage}

/-- A lineage reports what its glyph and its ancestors miss. -/
theorem dangling_of_lineage (h : r.lineage limit id = .ok l) : l.dangling.Nodup ∧
    ∀ c p, ⟨c, p⟩ ∈ l.dangling ↔ (c = id ∨ c ∈ l.ancestors) ∧ r.Misses c p := by
  obtain ⟨hid, w, hw, rfl⟩ := lineage_eq_ok_iff.1 h
  obtain ⟨hturns, hend⟩ := turns_of_walk_ok hw
  obtain ⟨k, hk, -⟩ := height_of_walk_ok hid hw
  have hreported := reported_of_turns hid hturns
  refine ⟨hreported.nodup, fun c p => (hreported.mem_iff c p).trans (and_congr_left' ?_)⟩
  have hpath : w.path = [] := by rw [Walk.path, hend]; rfl
  have hroot : id ∈ w.finished.map Prod.fst := isSome_lookup_iff.1 (by rw [hk, Option.isSome_some])
  rw [Walk.seen, hpath, List.contains_nil, Bool.false_or, isSome_lookup_iff]
  simp only [lineageOf, List.mem_filter, decide_eq_true_eq]
  by_cases hc : c = id
  · simp [hc, hroot]
  · simp [hc]

/-! ## registries without dangling parents -/

/-- The registry with the parents of each glyph that are registered. -/
def withoutDangling (r : Registry) : Registry :=
  r.mapGlyphs (fun g => { g with parents := r.knownParents g }) fun _ => rfl

theorem sameParents_withoutDangling (r : Registry) :
    SameParents r r.withoutDangling fun _ => false := by
  have hcontains : r.withoutDangling.contains = r.contains := funext (contains_mapGlyphs _)
  have hglyph {id : String} {g g' : Glyph} (hg : r.get? id = some g)
      (hg' : r.withoutDangling.get? id = some g') : g'.parents = r.knownParents g := by
    rw [withoutDangling, get?_mapGlyphs, hg] at hg'
    cases hg'
    rfl
  refine ⟨congrFun hcontains, fun hg hg' => ?_, fun hg hg' => ?_⟩
  · rw [knownParents, hcontains, hglyph hg hg', knownParents, List.filter_filter]
    simp only [Bool.and_self]
  · rw [danglingParents, hcontains, hglyph hg hg', knownParents, List.filter_filter]
    simp

/-- **Dangling parents** are fully reported and contribute nothing.  A lineage reports each
unregistered parent of its glyph and of each ancestor, once, and nothing else.  With these parents
deleted from all glyphs every lineage is the same but reports nothing, and where there is none the
error is the same. -/
theorem dangling_reported (r : Registry) (limit : Nat) (id : String) :
    (∀ l, r.lineage limit id = .ok l → l.dangling.Nodup ∧
      ∀ c p, ⟨c, p⟩ ∈ l.dangling ↔ (c = id ∨ c ∈ l.ancestors) ∧ r.Misses c p) ∧
    r.withoutDangling.lineage limit id =
      (r.lineage limit id).map fun l => { l with dangling := [] } := by
  refine ⟨fun l hl => dangling_of_lineage hl, ?_⟩
  rw [r.sameParents_withoutDangling.lineage_eq]
  simp only [List.filter_false]

theorem diamond_dangling_reported :
    diamond.lineage 2 "d" = .ok ⟨"d", ["c", "b", "a"], 2, [⟨"c", "x"⟩]⟩ ∧
      diamond.Misses "c" "x" ∧ ¬diamond.Misses "b" "x" ∧
      diamond.withoutDangling.lineage 2 "d" = .ok ⟨"d", ["c", "b", "a"], 2, []⟩ ∧
      diamond.withoutDangling.lineage 1 "d" = .error (.tooDeep "a" 1) := by
  obtain ⟨hreports, hsame⟩ := dangling_reported diamond 2 "d"
  obtain ⟨-, hdangling⟩ := hreports _ lineage_diamond
  refine ⟨lineage_diamond, ((hdangling "c" "x").1 (by decide)).2, fun hb => ?_, ?_, ?_⟩
  · exact absurd ((hdangling "b" "x").2 ⟨by decide, hb⟩) (by decide)
  · rw [hsame, lineage_diamond]
    rfl
  · rw [(dangling_reported diamond 1 "d").2, lineage_diamond_tooDeep]
    rfl

end Registry

end GlyphField
