import GlyphField.Proofs.AncestorOrder
import GlyphField.Proofs.Repetitions

/-!
# GlyphField.Proofs.PostOrder

The order of a lineage in closed form.  The walk leaves glyphs in post-order: those above each
parent, parent by parent in the order of declaration, and a glyph after all that is above it; on
meeting a glyph again it adds nothing, so that of each glyph only the first occurrence counts.  At
every turn the glyphs already left and those that the tasks are still going to leave make up the
same order (`Walk.foreseen`).

The order is one by branches and not by generations: of two branches the later one is listed
first, with all that is above it.

* `Walk.foreseen_of_turns` — the order foreseen never changes;
* `compositionOrder_eq_postOrder` — the order of composition, and from it the list of ancestors;
* `parent_after_grandparent` — a parent listed after a parent of another parent.
-/

namespace GlyphField

open Relation (ReflTransGen TransGen)

/-! ## post-order -/

namespace Registry

variable {r : Registry} {id : String}

/-- The registered parents of an id in the order of declaration. -/
def parentsOf (r : Registry) (id : String) : List String := (r.get? id).elim [] r.knownParents

/-- The ids on the chains of at most `n` parents from an id in post-order, each as often as a chain
leads to it. -/
def postOrder (r : Registry) : Nat → String → List String
  | 0, id => [id]
  | n + 1, id => (r.parentsOf id).flatMap (r.postOrder n) ++ [id]

theorem mem_parentsOf {p : String} : p ∈ r.parentsOf id ↔ r.Inherits id p := by
  cases hg : r.get? id with
  | none =>
      refine iff_of_false (by simp [parentsOf, hg]) ?_
      rintro ⟨g, hg', -⟩
      rw [hg] at hg'
      cases hg'
  | some g =>
      rw [parentsOf, hg]
      exact mem_knownParents hg

/-- A glyph comes last, and all before it are its ancestors. -/
theorem exists_postOrder_eq (r : Registry) (n : Nat) (id : String) :
    ∃ front, r.postOrder n id = front ++ [id] ∧ ∀ a ∈ front, TransGen r.Inherits id a := by
  induction n generalizing id with
  | zero => exact ⟨[], rfl, fun a ha => absurd ha List.not_mem_nil⟩
  | succ n ih =>
      refine ⟨_, rfl, fun a ha => ?_⟩
      obtain ⟨p, hp, hap⟩ := List.mem_flatMap.1 ha
      have hlink := mem_parentsOf.1 hp
      obtain ⟨front, heq, hfront⟩ := ih p
      rw [heq] at hap
      obtain hap | hap := List.mem_append.1 hap
      · exact .head hlink (hfront a hap)
      · rw [List.mem_singleton.1 hap]
        exact .single hlink

theorem reflTransGen_of_mem_postOrder {n : Nat} {a : String} (h : a ∈ r.postOrder n id) :
    ReflTransGen r.Inherits id a := by
  obtain ⟨front, heq, hfront⟩ := r.exists_postOrder_eq n id
  rw [heq] at h
  obtain h | h := List.mem_append.1 h
  · exact (hfront a h).to_reflTransGen
  · rw [List.mem_singleton.1 h]

/-- A post-order taken some generations up continues with those of the parents, unless chains may
have been cut off there. -/
theorem postOrder_sub {n generation : Nat}
    (h : ∀ p, r.Inherits id p → generation < n) : r.postOrder (n - generation) id =
      (r.parentsOf id).flatMap (r.postOrder (n - (generation + 1))) ++ [id] := by
  cases hn : n - generation with
  | zero =>
      have hnone : r.parentsOf id = [] := by
        refine List.eq_nil_iff_forall_not_mem.2 fun p hp => ?_
        have := h p (mem_parentsOf.1 hp)
        omega
      rw [hnone]
      rfl
  | succ m =>
      have hm : n - (generation + 1) = m := by omega
      rw [hm]
      rfl

end Registry

/-! ## what a walk is going to leave -/

namespace Lineage

variable {r : Registry} {root : String} {limit n : Nat}

/-- What a task is going to leave, if chains from the first glyph have at most `n` parents. -/
def Task.yields (r : Registry) (n : Nat) : Task → List String
  | .enter id generation => r.postOrder (n - generation) id
  | .leave id => [id]

/-- The order of leaving as it shows at a state of the walk: what has been left, and then what the
tasks are going to leave for the first time. -/
def Walk.foreseen (r : Registry) (n : Nat) (w : Walk) : List String :=
  ((w.finished.map Prod.fst).reverse ++ w.stack.flatMap (Task.yields r n)).eraseDups

/-- The order foreseen is the same after a turn. -/
theorem Walk.foreseen_step {waiting : List String} {levels : List Level} {w w' : Walk}
    (hbound : ∀ k b, Chain r.Inherits k root b → k ≤ n) (hroot : r.contains root = true)
    (h : Invariant r root limit waiting levels w) (hs : r.step limit w = .ok w') :
    w'.foreseen r n = w.foreseen r n := by
  cases waiting with
  | cons p waiting =>
      have hstack := h.stack_eq.trans (tasks_cons p waiting levels)
      have hchain := h.ladder.chain (p := p) List.mem_cons_self
      have hreg := h.ladder.contains hroot (p := p) List.mem_cons_self
      rw [step_of_cons h.stack_eq] at hs
      obtain ⟨-, ⟨⟨k, hk, -⟩, rfl⟩ | ⟨-, -, ⟨hnone, -⟩ | ⟨g, hg, rfl⟩⟩⟩ := enterStep_eq_ok hs
      · -- all that is above `p` has been left with it
        have hleft : p ∈ w.finished.map Prod.fst :=
          isSome_lookup_iff.1 (by rw [hk, Option.isSome_some])
        have hsub : r.postOrder (n - levels.length) p ⊆ (w.finished.map Prod.fst).reverse :=
          fun a ha => List.mem_reverse.2
            (h.retired.mem_of_reflTransGen hleft (Registry.reflTransGen_of_mem_postOrder ha))
        simp only [foreseen, hstack, List.flatMap_cons, Task.yields, ← List.append_assoc]
        exact (eraseDups_append_of_subset hsub _).symm
      · rw [Registry.contains, hnone] at hreg
        cases hreg
      · have hparents : r.parentsOf p = r.knownParents g := by rw [Registry.parentsOf, hg]; rfl
        have hyields : r.postOrder (n - levels.length) p =
            (r.knownParents g).flatMap (r.postOrder (n - (levels.length + 1))) ++ [p] := by
          rw [← hparents]
          exact Registry.postOrder_sub fun q hq => hbound _ q (hchain.concat hq)
        simp only [foreseen, Registry.enterGlyph, hstack, List.flatMap_append, List.flatMap_cons,
          List.flatMap_map, Task.yields, hyields, Registry.id_of_get? hg, List.append_assoc]
  | nil =>
      cases levels with
      | nil =>
          have hstack : w.stack = [] := h.stack_eq
          simp only [Registry.step, hstack] at hs
          cases hs
          rfl
      | cons l ls =>
          have hstack : w.stack = .leave l.glyph :: tasks l.rest ls := h.stack_eq
          rw [step_of_nil h.stack_eq] at hs
          cases hs
          simp only [foreseen, Registry.leaveStep, hstack, List.flatMap_cons, Task.yields,
            List.map_cons, List.reverse_cons, List.append_assoc]

/-- At every turn of a walk the order foreseen is the post-order from its root. -/
theorem Walk.foreseen_of_turns {w : Walk} (hbound : ∀ k b, Chain r.Inherits k root b → k ≤ n)
    (hroot : r.contains root = true) (h : ReflTransGen (Turn r limit) (Walk.start root) w) :
    w.foreseen r n = (r.postOrder n root).eraseDups := by
  induction h with
  | refl => simp [foreseen, Walk.start, Task.yields]
  | tail hturns hturn ih =>
      obtain ⟨waiting, levels, hinv⟩ := Invariant.of_turns hroot hturns
      exact (foreseen_step hbound hroot hinv hturn.2).trans ih

end Lineage

/-! ## short chains -/

section ShortChains

variable {α : Type} {R : α → α → Prop} {n : Nat} {a b : α}

theorem Chain.one_le (h : Chain R n a b) (hne : a ≠ b) : 1 ≤ n := by
  cases h with
  | nil => exact absurd rfl hne
  | cons _ _ => exact Nat.le_add_left 1 _

theorem Chain.two_le (h : Chain R n a b) (hne : a ≠ b) (hnot : ¬R a b) : 2 ≤ n := by
  cases h with
  | nil => exact absurd rfl hne
  | cons hlink hrest =>
      cases hrest with
      | nil => exact absurd hlink hnot
      | cons _ _ => exact Nat.le_add_left 2 _

end ShortChains

/-! ## lineages -/

namespace Registry

open Lineage

variable {r : Registry} {limit n : Nat} {id : String} {l : Lineage}

/-- **Ancestors in post-order.**  The order of composition of a lineage is the post-order along
declared parents, parents in the order of declaration, with only the first occurrence of each
glyph; the ancestors are listed the other way round, without the glyph itself.  Any bound on the
length of chains will do that is at least the depth. -/
theorem compositionOrder_eq_postOrder (h : r.lineage limit id = .ok l) (hn : l.depth ≤ n) :
    l.compositionOrder = (r.postOrder n id).eraseDups ∧
      l.ancestors = ((r.postOrder n id).eraseDups.filter (· ≠ id)).reverse := by
  have hbound (k : Nat) (b : String) (hc : Chain r.Inherits k id b) : k ≤ n :=
    Nat.le_trans ((isHeight_depth h).2.chain_le hc) hn
  obtain ⟨front, hfront, hancestor⟩ := r.exists_postOrder_eq n id
  have hnot : id ∉ front := fun hmem => ne_of_transGen h (hancestor id hmem) rfl
  have hpost : (r.postOrder n id).eraseDups = front.eraseDups ++ [id] := by
    rw [hfront, eraseDups_concat hnot]
  have hothers : (front.eraseDups ++ [id]).filter (· ≠ id) = front.eraseDups := by
    rw [List.filter_append, List.filter_eq_self.2 fun a ha => ?_]
    · simp
    · have hne : a ≠ id := fun heq => hnot (heq ▸ List.mem_eraseDups.1 ha)
      simpa using hne
  obtain ⟨hid, w, hw, rfl⟩ := lineage_eq_ok_iff.1 h
  obtain ⟨hturns, hend⟩ := turns_of_walk_ok hw
  obtain ⟨waiting, levels, hinv⟩ := Invariant.of_turns hid hturns
  have hleft : (w.finished.map Prod.fst).reverse = (r.postOrder n id).eraseDups := by
    rw [← Walk.foreseen_of_turns hbound hid hturns, Walk.foreseen, hend, List.flatMap_nil,
      List.append_nil, eraseDups_of_nodup (List.nodup_reverse.2 hinv.retired.nodup)]
  have hlisted : (lineageOf id w).ancestors =
      ((r.postOrder n id).eraseDups.filter (· ≠ id)).reverse := by
    rw [← hleft, List.filter_reverse, List.reverse_reverse]
    rfl
  refine ⟨?_, hlisted⟩
  rw [Lineage.compositionOrder, hlisted, List.reverse_reverse, hpost, hothers]
  rfl

/-- A common ancestor of two parents takes its place above the first of them. -/
theorem diamond_postOrder :
    diamond.lineage 2 "d" = .ok ⟨"d", ["c", "b", "a"], 2, [⟨"c", "x"⟩]⟩ ∧
      diamond.postOrder 2 "d" = ["a", "b", "a", "c", "d"] ∧
      ["c", "b", "a"] = ((diamond.postOrder 2 "d").eraseDups.filter (· ≠ "d")).reverse := by
  have hlisted := compositionOrder_eq_postOrder lineage_diamond (Nat.le_refl 2)
  exact ⟨lineage_diamond, by decide, hlisted.2⟩

/-- A glyph with two parents, of which the second has a parent of its own. -/
def branches : Registry where
  glyphs := [{ id := "d", parents := ["p", "q"] }, { id := "g" }, { id := "p" },
    { id := "q", parents := ["g"] }]
  sorted := by
    unfold Keyed.Sorted
    decide
  length_le := by decide

theorem lineage_branches : branches.lineage 32 "d" = .ok ⟨"d", ["q", "g", "p"], 2, []⟩ := by
  rw [lineage_of_contains rfl]
  iterate 8 rw [Lineage.walk_of_step_ok (List.cons_ne_nil _ _) rfl]
  rw [Lineage.walk_of_done rfl]
  rfl

/-- One step leads to `"p"`, no less than two lead to `"g"`, and still `"g"` is listed first. -/
theorem parent_after_grandparent :
    branches.lineage 32 "d" = .ok ⟨"d", ["q", "g", "p"], 2, []⟩ ∧
      IsLeast {k | Chain branches.Inherits k "d" "p"} 1 ∧
      IsLeast {k | Chain branches.Inherits k "d" "g"} 2 ∧
      ¬["p", "g"].Sublist ["q", "g", "p"] := by
  have hp : branches.Inherits "d" "p" := mem_parentsOf.1 (by decide)
  have hq : branches.Inherits "d" "q" := mem_parentsOf.1 (by decide)
  have hg : branches.Inherits "q" "g" := mem_parentsOf.1 (by decide)
  have hnot : ¬branches.Inherits "d" "g" := fun h => absurd (mem_parentsOf.2 h) (by decide)
  exact ⟨lineage_branches, ⟨.cons hp (.nil "p"), fun _ hk => hk.one_le (by decide)⟩,
    ⟨.cons hq (.cons hg (.nil "g")), fun _ hk => hk.two_le (by decide) hnot⟩, by decide⟩

end Registry

end GlyphField
