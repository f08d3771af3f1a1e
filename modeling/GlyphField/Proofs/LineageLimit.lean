import GlyphField.Proofs.WalkInvariant

/-!
# GlyphField.Proofs.LineageLimit

When a glyph has a lineage.  A glyph is entered once only, so a long chain through a glyph that
has been left before shows in nothing but its recorded height; since that height is the length of
the longest chain above the glyph, the check misses no chain and refuses no other.

* `Invariant.of_step_error` — a failing turn has met a cycle or a chain over the limit;
* `exists_lineage_iff` — a lineage exists exactly without cycles and long chains;
* `lineage_exact` — the outcome for every registry, glyph and limit.
-/

namespace GlyphField

open Relation (ReflTransGen TransGen)

namespace Lineage

variable {r : Registry} {root : String} {limit : Nat}

/-! ## the end of a walk -/

/-- A failing turn has met a cycle above the root or a chain over the limit. -/
theorem Invariant.of_step_error {waiting : List String} {levels : List Level} {w : Walk}
    {e : LineageError} (h : Invariant r root limit waiting levels w)
    (he : r.step limit w = .error e) :
    (∃ p, e = .circular p (w.cycleTo p) ∧ ¬Acyclic r.Inherits root) ∨
      ∃ p, e = .tooDeep p limit ∧ ∃ n b, limit < n ∧ Chain r.Inherits n root b := by
  obtain ⟨p, waiting, rfl, hcause⟩ := h.error_cases he
  have hchain := h.ladder.chain (p := p) List.mem_cons_self
  obtain ⟨hpath, rfl⟩ | ⟨-, rfl, hdeep⟩ := hcause
  · obtain ⟨l, hl, rfl⟩ := List.mem_map.1 hpath
    have hcycle := h.ladder.transGen (p := l.glyph) List.mem_cons_self hl
    exact .inl ⟨l.glyph, rfl, fun hac => hac _ hchain.reflTransGen hcycle⟩
  · refine .inr ⟨p, rfl, ?_⟩
    obtain ⟨k, hk, hlt⟩ | ⟨-, hlt⟩ := hdeep
    · obtain ⟨⟨b, hb⟩, -⟩ := (h.retired.of_lookup hk).2
      exact ⟨levels.length + k, b, hlt, hchain.append hb⟩
    · exact ⟨levels.length, p, hlt, hchain⟩

/-- A walk that ends well has left its root, with its true height, which is within the limit. -/
theorem height_of_walk_ok {w : Walk} (hroot : r.contains root = true)
    (h : r.walk limit (Walk.start root) = .ok w) :
    ∃ k, w.finished.lookup root = some k ∧ k ≤ limit ∧ IsHeight r.Inherits root k := by
  obtain ⟨hturns, hend⟩ := turns_of_walk_ok h
  obtain ⟨waiting, levels, hinv⟩ := Invariant.of_turns hroot hturns
  have hstack := hinv.stack_eq
  rw [hend] at hstack
  have hcovered := hinv.covered
  cases levels with
  | cons l ls => simp [tasks] at hstack
  | nil =>
      cases waiting with
      | cons p waiting => simp [tasks] at hstack
      | nil =>
          obtain ⟨k, hk, hle⟩ := hcovered.resolve_left List.not_mem_nil
          exact ⟨k, hk, by omega, (hinv.retired.of_lookup hk).2⟩

/-! ## two limits -/

/-- The limit decides only whether an id is refused. -/
theorem enterStep_agree {limit' n : Nat} {p : String} {w w₁ w₂ : Walk}
    (h₁ : r.enterStep limit w p n = .ok w₁) (h₂ : r.enterStep limit' w p n = .ok w₂) :
    w₁ = w₂ := by
  obtain ⟨-, h₁⟩ := enterStep_eq_ok h₁
  obtain ⟨-, h₂⟩ := enterStep_eq_ok h₂
  cases hlook : w.finished.lookup p with
  | some k =>
      simp only [hlook, reduceCtorEq, false_and, or_false] at h₁ h₂
      rw [h₁.2, h₂.2]
  | none =>
      have hnot (m : Nat) : ¬Fits m w.finished n p := by
        rintro ⟨k, hk, -⟩
        rw [hlook] at hk
        cases hk
      have hget₁ := (h₁.resolve_left fun h => hnot limit h.1).2.2
      have hget₂ := (h₂.resolve_left fun h => hnot limit' h.1).2.2
      cases hg : r.get? p with
      | none =>
          simp only [hg, reduceCtorEq, false_and, exists_false, or_false] at hget₁ hget₂
          rw [hget₁.2, hget₂.2]
      | some g =>
          simp only [hg, reduceCtorEq, false_and, false_or, Option.some.injEq] at hget₁ hget₂
          obtain ⟨_, rfl, rfl⟩ := hget₁
          obtain ⟨_, rfl, rfl⟩ := hget₂
          rfl

theorem step_agree {limit' : Nat} {w w₁ w₂ : Walk} (h₁ : r.step limit w = .ok w₁)
    (h₂ : r.step limit' w = .ok w₂) : w₁ = w₂ := by
  cases hstack : w.stack with
  | nil =>
      simp only [Registry.step, hstack] at h₁ h₂
      cases h₁
      cases h₂
      rfl
  | cons task rest =>
      cases task with
      | enter p n =>
          simp only [Registry.step, hstack] at h₁ h₂
          exact enterStep_agree h₁ h₂
      | leave p =>
          simp only [Registry.step, hstack] at h₁ h₂
          cases h₁
          cases h₂
          rfl

/-- Walks under different limits that both end well end alike. -/
theorem walk_agree {limit' : Nat} {w w₁ w₂ : Walk} (h₁ : r.walk limit w = .ok w₁)
    (h₂ : r.walk limit' w = .ok w₂) : w₁ = w₂ := by
  induction w using Registry.walk.induct r limit with
  | case1 w hstack =>
      rw [walk_of_done hstack] at h₁ h₂
      cases h₁
      cases h₂
      rfl
  | case2 w hstack e hs =>
      rw [walk_of_step_error hstack hs] at h₁
      cases h₁
  | case3 w hstack w' hs ih =>
      rw [walk_of_step_ok hstack hs] at h₁
      cases hs' : r.step limit' w with
      | error e =>
          rw [walk_of_step_error hstack hs'] at h₂
          cases h₂
      | ok w'' =>
          rw [walk_of_step_ok hstack hs', ← step_agree hs hs'] at h₂
          exact ih h₁ h₂

end Lineage

/-! ## lineages -/

namespace Registry

open Lineage

variable {r : Registry} {limit : Nat} {id : String}

theorem lineage_of_contains (hid : r.contains id = true) : r.lineage limit id =
    (r.walk (min limit maxDepth) (Walk.start id)).map (lineageOf id) := by
  rw [lineage, if_pos hid]
  rfl

theorem lineage_of_not_contains (hid : r.contains id = false) :
    r.lineage limit id = .error (.unknownGlyph id) := by
  rw [lineage, if_neg (Bool.eq_false_iff.1 hid)]

/-- A glyph without parents is all of its lineage. -/
theorem lineage_of_parents_eq_nil {g : Glyph} (hg : r.get? id = some g) (h : g.parents = []) :
    r.lineage limit id = .ok ⟨id, [], 0, []⟩ := by
  have hid : r.contains id = true := by rw [contains, hg, Option.isSome_some]
  have hgid : g.id = id := id_of_get? hg
  have henter : r.step (min limit maxDepth) (Walk.start id) = .ok { stack := [.leave id] } := by
    simp [step, Walk.start, enterStep, enterGlyph, Walk.path, Task.leaves?, hg, h, hgid,
      knownParents, danglingParents]
  have hleave : r.step (min limit maxDepth) { stack := [.leave id] } =
      .ok { stack := [], finished := [(id, 0)] } := by
    simp [step, leaveStep, Walk.heightOf, hg, h]
  rw [lineage_of_contains hid, walk_of_step_ok (List.cons_ne_nil _ _) henter,
    walk_of_step_ok (List.cons_ne_nil _ _) hleave, walk_of_done rfl]
  simp [Except.map, lineageOf]

theorem lineage_eq_ok_iff {l : Lineage} : r.lineage limit id = .ok l ↔
    r.contains id = true ∧ ∃ w, r.walk (min limit maxDepth) (Walk.start id) = .ok w ∧
      lineageOf id w = l := by
  cases hid : r.contains id with
  | false => simp [lineage_of_not_contains hid]
  | true =>
      rw [lineage_of_contains hid]
      cases r.walk (min limit maxDepth) (Walk.start id) with
      | error e => simp [Except.map]
      | ok w => simp [Except.map]

theorem lineage_eq_error_iff {e : LineageError} : r.lineage limit id = .error e ↔
    r.contains id = false ∧ .unknownGlyph id = e ∨
      r.contains id = true ∧ r.walk (min limit maxDepth) (Walk.start id) = .error e := by
  cases hid : r.contains id with
  | false => simp [lineage_of_not_contains hid]
  | true =>
      rw [lineage_of_contains hid]
      cases r.walk (min limit maxDepth) (Walk.start id) with
      | error e' => simp [Except.map]
      | ok w => simp [Except.map]

/-- A failing walk of a registered glyph has met a cycle or a chain over the limit. -/
theorem cause_of_walk_error {e : LineageError} (hid : r.contains id = true)
    (h : r.walk limit (Walk.start id) = .error e) :
    (∃ p cycle, e = .circular p cycle ∧ ¬Acyclic r.Inherits id) ∨
      ∃ p, e = .tooDeep p limit ∧ ∃ n b, limit < n ∧ Chain r.Inherits n id b := by
  obtain ⟨w, hturns, hfail⟩ := turns_of_walk_error h
  obtain ⟨waiting, levels, hinv⟩ := Invariant.of_turns hid hturns
  obtain ⟨p, rfl, hcycle⟩ | hdeep := hinv.of_step_error hfail
  · exact .inl ⟨p, _, rfl, hcycle⟩
  · exact .inr hdeep

/-- The depth of a lineage is the length of the longest chain of parents. -/
theorem isHeight_depth {l : Lineage} (h : r.lineage limit id = .ok l) :
    l.depth ≤ min limit maxDepth ∧ IsHeight r.Inherits id l.depth := by
  obtain ⟨hid, w, hw, rfl⟩ := lineage_eq_ok_iff.1 h
  obtain ⟨k, hk, hle, hheight⟩ := height_of_walk_ok hid hw
  have hdepth : (lineageOf id w).depth = k := by rw [lineageOf, hk, Option.getD_some]
  rw [hdepth]
  exact ⟨hle, hheight⟩

/-- A glyph has a lineage exactly if it is registered, reaches no cycle and no chain of parents
from it is longer than allowed. -/
theorem exists_lineage_iff : (∃ l, r.lineage limit id = .ok l) ↔
    r.contains id = true ∧ Acyclic r.Inherits id ∧
      ∀ n b, Chain r.Inherits n id b → n ≤ min limit maxDepth := by
  constructor
  · rintro ⟨l, hl⟩
    obtain ⟨hle, hheight⟩ := isHeight_depth hl
    have hbound (n : Nat) (b : String) (hc : Chain r.Inherits n id b) : n ≤ min limit maxDepth :=
      Nat.le_trans (hheight.chain_le hc) hle
    exact ⟨(lineage_eq_ok_iff.1 hl).1, acyclic_of_chain_le hbound, hbound⟩
  · rintro ⟨hid, hacyclic, hbound⟩
    cases hw : r.walk (min limit maxDepth) (Walk.start id) with
    | ok w => exact ⟨lineageOf id w, lineage_eq_ok_iff.2 ⟨hid, w, hw, rfl⟩⟩
    | error e =>
        obtain ⟨-, -, -, hcycle⟩ | ⟨-, -, n, b, hlt, hc⟩ := cause_of_walk_error hid hw
        · exact absurd hacyclic hcycle
        · exact absurd (hbound n b hc) (Nat.not_le_of_lt hlt)

/-- The lineage of a glyph is the same under every limit that allows it. -/
theorem lineage_agree {limit' : Nat} {l l' : Lineage} (h : r.lineage limit id = .ok l)
    (h' : r.lineage limit' id = .ok l') : l' = l := by
  obtain ⟨-, w, hw, rfl⟩ := lineage_eq_ok_iff.1 h
  obtain ⟨-, w', hw', rfl⟩ := lineage_eq_ok_iff.1 h'
  rw [walk_agree hw hw']

theorem lineage_of_le {limit' : Nat} {l : Lineage} (hle : limit ≤ limit')
    (h : r.lineage limit id = .ok l) : r.lineage limit' id = .ok l := by
  obtain ⟨hid, hacyclic, hbound⟩ := exists_lineage_iff.1 ⟨l, h⟩
  have hbound' (n : Nat) (b : String) (hc : Chain r.Inherits n id b) :
      n ≤ min limit' maxDepth := by
    have := hbound n b hc
    omega
  obtain ⟨l', hl'⟩ := exists_lineage_iff.2 ⟨hid, hacyclic, hbound'⟩
  rw [hl', lineage_agree h hl']

/-- **The outcome of a lineage.**  It exists exactly if the glyph is registered, no cycle of
parents can be reached from it and no chain of parents from it has more links than the limit, nor
more than 32.  Its depth is then the length of the longest chain, and all of it is the same under
every limit that allows it.  An unregistered glyph is reported as unknown, and nothing else is;
without cycles only a chain that is too long remains. -/
theorem lineage_exact (r : Registry) (limit : Nat) (id : String) :
    ((∃ l, r.lineage limit id = .ok l) ↔
      r.contains id = true ∧ (∀ a, ReflTransGen r.Inherits id a → ¬TransGen r.Inherits a a) ∧
        ∀ n b, Chain r.Inherits n id b → n ≤ min limit 32) ∧
    (∀ l, r.lineage limit id = .ok l →
      IsGreatest {n | ∃ b, Chain r.Inherits n id b} l.depth ∧
        ∀ limit' l', r.lineage limit' id = .ok l' → l' = l) ∧
    (∀ a, r.lineage limit id = .error (.unknownGlyph a) ↔ r.contains id = false ∧ a = id) ∧
    ((∀ a, ReflTransGen r.Inherits id a → ¬TransGen r.Inherits a a) →
      ∀ e, r.lineage limit id = .error e →
        e = .unknownGlyph id ∨ ∃ a, e = .tooDeep a (min limit 32)) := by
  refine ⟨exists_lineage_iff, fun l hl => ?_, fun a => ?_, fun hacyclic e he => ?_⟩
  · exact ⟨(isHeight_depth hl).2, fun limit' l' hl' => lineage_agree hl hl'⟩
  · rw [lineage_eq_error_iff]
    constructor
    · rintro (⟨hid, heq⟩ | ⟨hid, hw⟩)
      · cases heq
        exact ⟨hid, rfl⟩
      · obtain ⟨p, cycle, heq, -⟩ | ⟨p, heq, -⟩ := cause_of_walk_error hid hw <;> cases heq
    · rintro ⟨hid, rfl⟩
      exact .inl ⟨hid, rfl⟩
  · obtain ⟨-, rfl⟩ | ⟨hid, hw⟩ := lineage_eq_error_iff.1 he
    · exact .inl rfl
    · obtain ⟨-, -, -, hcycle⟩ | ⟨p, rfl, -⟩ := cause_of_walk_error hid hw
      · exact absurd hacyclic hcycle
      · exact .inr ⟨p, rfl⟩

end Registry

end GlyphField
