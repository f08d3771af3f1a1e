import GlyphField.Lineage.Walk
import GlyphField.Proofs.Chains

/-!
# GlyphField.Proofs.WalkInvariant

What holds at every turn of the walk along declared parents.  The stack is read as a position:
the ids that wait to be entered, above the levels of the path, each of which keeps the ids that
wait below it (`tasks`).  A turn skips the next id, opens a level for it, or closes the present
level when nothing waits; each part of the invariant only has to look at these three moves.

* `Ladder` — levels are linked by declared parents, none stands on the path twice;
* `Covered` — every parent of a glyph on the path waits or has been left with a fitting height;
* `Retired` — what has been left, parents first, with true heights;
* `Invariant.of_turns` — the invariant at every turn of a walk.
-/

namespace GlyphField

open Lineage
open Relation (ReflTransGen TransGen)

/-- The registered glyph `c` declares the registered glyph `p` as a parent. -/
def Registry.Inherits (r : Registry) (c p : String) : Prop :=
  ∃ g, r.get? c = some g ∧ p ∈ g.parents ∧ r.contains p = true

theorem Registry.mem_knownParents {r : Registry} {c p : String} {g : Glyph}
    (h : r.get? c = some g) : p ∈ r.knownParents g ↔ r.Inherits c p := by
  rw [knownParents, List.mem_filter]
  constructor
  · rintro ⟨hp, hc⟩
    exact ⟨g, h, hp, hc⟩
  · rintro ⟨g', hg', hp, hc⟩
    rw [h] at hg'
    cases hg'
    exact ⟨hp, hc⟩

namespace Lineage

/-! ## positions -/

/-- A glyph on the path, and the ids that wait to be entered after it. -/
structure Level where
  glyph : String
  rest : List String

/-- The stack at a position: tasks for the waiting ids, above the levels of the path, the present
one first. -/
def tasks : List String → List Level → List Task
  | waiting, [] => waiting.map (Task.enter · 0)
  | waiting, l :: ls =>
    waiting.map (Task.enter · (ls.length + 1)) ++ .leave l.glyph :: tasks l.rest ls

theorem tasks_cons (p : String) (waiting : List String) (levels : List Level) :
    tasks (p :: waiting) levels = .enter p levels.length :: tasks waiting levels := by
  cases levels <;> rfl

/-- The path of a stack is that of its levels. -/
theorem filterMap_tasks (waiting : List String) (levels : List Level) :
    (tasks waiting levels).filterMap Task.leaves? = levels.map Level.glyph := by
  have henter (n : Nat) : (waiting.map (Task.enter · n)).filterMap Task.leaves? = [] := by
    simp [List.filterMap_eq_nil_iff, Task.leaves?]
  cases levels with
  | nil => exact henter 0
  | cons l ls =>
      rw [tasks, List.filterMap_append, henter, List.nil_append, List.map_cons]
      exact congrArg (l.glyph :: ·) (filterMap_tasks l.rest ls)
termination_by levels.length

/-! ## the parts of the invariant -/

/-- A glyph has been left, and a chain that takes `n` links to it and then climbs to its full
height stays within the limit. -/
def Fits (limit : Nat) (finished : List (String × Nat)) (n : Nat) (id : String) : Prop :=
  ∃ h, finished.lookup id = some h ∧ n + h ≤ limit

/-- Waiting ids are parents of the present glyph, which itself waited on the level below; no glyph
stands on the path twice, and the path is within the limit. -/
def Ladder (r : Registry) (root : String) (limit : Nat) : List String → List Level → Prop
  | waiting, [] => ∀ p ∈ waiting, p = root
  | waiting, l :: ls =>
    (∀ p ∈ waiting, r.Inherits l.glyph p) ∧ l.glyph ∉ ls.map Level.glyph ∧ ls.length ≤ limit ∧
      Ladder r root limit (l.glyph :: l.rest) ls

/-- Every parent of a glyph on the path waits, or has been left with a height that fits. -/
def Covered (r : Registry) (root : String) (limit : Nat) (finished : List (String × Nat)) :
    List String → List Level → Prop
  | waiting, [] => root ∈ waiting ∨ Fits limit finished 0 root
  | waiting, l :: ls =>
    (∀ p, r.Inherits l.glyph p → p ∈ waiting ∨ Fits limit finished (ls.length + 1) p) ∧
      Covered r root limit finished (l.glyph :: l.rest) ls

/-- The glyphs left so far: each is registered, stands there once and before its parents, and its
height is that of its ancestry. -/
inductive Retired (r : Registry) : List (String × Nat) → Prop
  | nil : Retired r []
  | cons {a : String} {h : Nat} {fs : List (String × Nat)} (hfs : Retired r fs)
      (hnew : fs.lookup a = none) (hreg : r.contains a = true)
      (hparents : ∀ p, r.Inherits a p → (fs.lookup p).isSome = true)
      (hheight : IsHeight r.Inherits a h) : Retired r ((a, h) :: fs)

/-- What holds between two turns of the walk from `root`, at the position that its stack shows. -/
structure Invariant (r : Registry) (root : String) (limit : Nat) (waiting : List String)
    (levels : List Level) (w : Walk) : Prop where
  stack_eq : w.stack = tasks waiting levels
  ladder : Ladder r root limit waiting levels
  covered : Covered r root limit w.finished waiting levels
  retired : Retired r w.finished
  apart : ∀ l ∈ levels, w.finished.lookup l.glyph = none

/-! ## laws of the parts -/

section Parts

variable {r : Registry} {root : String} {limit : Nat} {finished : List (String × Nat)}
  {p : String} {waiting : List String} {levels : List Level}

theorem Ladder.tail (h : Ladder r root limit (p :: waiting) levels) :
    Ladder r root limit waiting levels := by
  cases levels with
  | nil => exact fun q hq => h q (List.mem_cons_of_mem p hq)
  | cons l ls => exact ⟨fun q hq => h.1 q (List.mem_cons_of_mem p hq), h.2⟩

/-- A chain of declared parents leads down the path to every waiting id. -/
theorem Ladder.chain (h : Ladder r root limit waiting levels) (hp : p ∈ waiting) :
    Chain r.Inherits levels.length root p := by
  induction levels generalizing p waiting with
  | nil =>
      rw [h p hp]
      exact .nil root
  | cons l ls ih =>
      have hchain := ih h.2.2.2 List.mem_cons_self
      exact hchain.concat (h.1 p hp)

/-- Every glyph on the path is a descendant of the waiting ids. -/
theorem Ladder.transGen (h : Ladder r root limit waiting levels) (hp : p ∈ waiting) {l : Level}
    (hl : l ∈ levels) : TransGen r.Inherits l.glyph p := by
  induction levels generalizing p waiting with
  | nil => cases hl
  | cons m ms ih =>
      have hlast : r.Inherits m.glyph p := h.1 p hp
      obtain rfl | hl := List.mem_cons.1 hl
      · exact .single hlast
      · exact (ih h.2.2.2 List.mem_cons_self hl).tail hlast

theorem Ladder.contains (hroot : r.contains root = true)
    (h : Ladder r root limit waiting levels) (hp : p ∈ waiting) : r.contains p = true := by
  cases levels with
  | nil => exact (h p hp) ▸ hroot
  | cons l ls =>
      obtain ⟨-, -, -, hreg⟩ := h.1 p hp
      exact hreg

/-- An id that has been left with a height that fits need not wait any more. -/
theorem Fits.of_waiting {q : String} {n : Nat} (hp : Fits limit finished n p)
    (hq : q ∈ p :: waiting ∨ Fits limit finished n q) : q ∈ waiting ∨ Fits limit finished n q := by
  cases hq with
  | inr hfit => exact .inr hfit
  | inl hmem =>
      obtain rfl | hmem := List.mem_cons.1 hmem
      · exact .inr hp
      · exact .inl hmem

theorem Covered.tail (h : Covered r root limit finished (p :: waiting) levels)
    (hp : Fits limit finished levels.length p) : Covered r root limit finished waiting levels := by
  cases levels with
  | nil => exact hp.of_waiting h
  | cons l ls => exact ⟨fun q hq => hp.of_waiting (h.1 q hq), h.2⟩

theorem Fits.cons {a : String} {k n : Nat} (ha : finished.lookup a = none)
    (h : Fits limit finished n p) : Fits limit ((a, k) :: finished) n p := by
  obtain ⟨h', hlook, hle⟩ := h
  have hne : (p == a) = false := by
    rw [beq_eq_false_iff_ne]
    rintro rfl
    rw [ha] at hlook
    cases hlook
  exact ⟨h', by rw [List.lookup_cons, hne]; exact hlook, hle⟩

theorem Covered.cons {a : String} {k : Nat} (ha : finished.lookup a = none)
    (h : Covered r root limit finished waiting levels) :
    Covered r root limit ((a, k) :: finished) waiting levels := by
  induction levels generalizing waiting with
  | nil => exact h.imp id (Fits.cons ha)
  | cons l ls ih => exact ⟨fun q hq => (h.1 q hq).imp id (Fits.cons ha), ih h.2⟩

/-- What is known of a glyph that has been left. -/
theorem Retired.of_lookup {a : String} {h : Nat} (hr : Retired r finished)
    (ha : finished.lookup a = some h) :
    r.contains a = true ∧ IsHeight r.Inherits a h := by
  induction hr with
  | nil => cases ha
  | @cons b k fs _ _ hreg _ hheight ih =>
      rw [List.lookup_cons] at ha
      by_cases hab : a = b
      · subst hab
        simp only [beq_self_eq_true] at ha
        cases ha
        exact ⟨hreg, hheight⟩
      · rw [beq_eq_false_iff_ne.2 hab] at ha
        exact ih ha

/-- The height computed on leaving a glyph is that of its ancestry. -/
theorem Retired.isHeight_heightOf {a : String} {g : Glyph} {w : Walk} (hr : Retired r w.finished)
    (hg : r.get? a = some g)
    (hparents : ∀ p, r.Inherits a p → (w.finished.lookup p).isSome = true) :
    IsHeight r.Inherits a (w.heightOf g.parents) := by
  apply isHeight_of_links
  · intro x hx
    obtain ⟨p, hp, hlook⟩ := List.mem_filterMap.1 hx
    obtain ⟨h, hh, rfl⟩ := Option.map_eq_some_iff.1 hlook
    obtain ⟨hreg, hheight⟩ := hr.of_lookup hh
    exact ⟨p, h, ⟨g, hg, hp, hreg⟩, hheight, rfl⟩
  · intro p hp
    obtain ⟨h, hh⟩ := Option.isSome_iff_exists.1 (hparents p hp)
    obtain ⟨g', hg', hmem, -⟩ := hp
    rw [hg] at hg'
    cases hg'
    refine ⟨h, (hr.of_lookup hh).2, List.mem_filterMap.2 ⟨p, hmem, ?_⟩⟩
    rw [hh, Option.map_some]

end Parts

/-! ## the three moves -/

section Moves

variable {r : Registry} {root : String} {limit : Nat} {p : String} {waiting : List String}
  {levels : List Level} {w : Walk}

theorem Invariant.path_eq (h : Invariant r root limit waiting levels w) :
    w.path = levels.map Level.glyph := by
  rw [Walk.path, h.stack_eq, filterMap_tasks]

/-- The next id has been left before: it need not be entered again. -/
theorem Invariant.skip (h : Invariant r root limit (p :: waiting) levels w)
    (hp : Fits limit w.finished levels.length p) :
    Invariant r root limit waiting levels { w with stack := tasks waiting levels } where
  stack_eq := rfl
  ladder := h.ladder.tail
  covered := h.covered.tail hp
  retired := h.retired
  apart := h.apart

/-- The next id is entered: its known parents wait on a new level. -/
theorem Invariant.enter {g : Glyph} (h : Invariant r root limit (p :: waiting) levels w)
    (hg : r.get? p = some g) (hpath : p ∉ levels.map Level.glyph)
    (hnew : w.finished.lookup p = none) (hlen : levels.length ≤ limit) :
    Invariant r root limit (r.knownParents g) (⟨p, waiting⟩ :: levels)
      (r.enterGlyph w g levels.length (tasks waiting levels)) where
  stack_eq := by
    rw [Registry.enterGlyph, Registry.id_of_get? hg]
    rfl
  ladder := ⟨fun _ hq => (Registry.mem_knownParents hg).1 hq, hpath, hlen, h.ladder⟩
  covered := ⟨fun _ hq => .inl ((Registry.mem_knownParents hg).2 hq), h.covered⟩
  retired := h.retired
  apart := List.forall_mem_cons.2 ⟨hnew, h.apart⟩

/-- Nothing waits: the present glyph is left, with the height of its ancestry. -/
theorem Invariant.leave {l : Level} {ls : List Level}
    (h : Invariant r root limit [] (l :: ls) w) (hreg : r.contains l.glyph = true) :
    Invariant r root limit l.rest ls (r.leaveStep { w with stack := tasks l.rest ls } l.glyph) := by
  obtain ⟨g, hg⟩ := Option.isSome_iff_exists.1 hreg
  obtain ⟨-, hnotin, hlen, hbelow⟩ := h.ladder
  have hnew : w.finished.lookup l.glyph = none := h.apart l List.mem_cons_self
  have hfits (p : String) (hp : r.Inherits l.glyph p) : Fits limit w.finished (ls.length + 1) p :=
    (h.covered.1 p hp).resolve_left List.not_mem_nil
  have hparents (p : String) (hp : r.Inherits l.glyph p) :
      (w.finished.lookup p).isSome = true := by
    obtain ⟨k, hk, -⟩ := hfits p hp
    rw [hk, Option.isSome_some]
  have hheight := h.retired.isHeight_heightOf hg hparents
  -- the longest chain above the glyph starts with a parent, whose height fits
  have hbound : ls.length + w.heightOf g.parents ≤ limit := by
    obtain ⟨⟨b, hchain⟩, -⟩ := hheight
    generalize w.heightOf g.parents = n at hchain
    cases hchain with
    | nil => exact hlen
    | cons hp t =>
        obtain ⟨k, hk, hle⟩ := hfits _ hp
        have hn := (h.retired.of_lookup hk).2.chain_le t
        omega
  have hstep : r.leaveStep { w with stack := tasks l.rest ls } l.glyph =
      { w with stack := tasks l.rest ls
               finished := (l.glyph, w.heightOf g.parents) :: w.finished } := by
    simp only [Registry.leaveStep, hg]
    rfl
  rw [hstep]
  have hlook : ((l.glyph, w.heightOf g.parents) :: w.finished).lookup l.glyph =
      some (w.heightOf g.parents) := by simp
  refine ⟨rfl, hbelow.tail, (h.covered.2.cons hnew).tail ⟨_, hlook, hbound⟩,
    .cons h.retired hnew hreg hparents hheight, fun m hm => ?_⟩
  have hne : (m.glyph == l.glyph) = false := by
    rw [beq_eq_false_iff_ne]
    intro heq
    exact hnotin (heq ▸ List.mem_map_of_mem hm)
  show ((l.glyph, w.heightOf g.parents) :: w.finished).lookup m.glyph = none
  rw [List.lookup_cons, hne]
  exact h.apart m (List.mem_cons_of_mem l hm)

end Moves

/-! ## turns -/

section Turns

variable {r : Registry} {root : String} {limit : Nat} {p : String} {waiting : List String}
  {levels : List Level} {w w' : Walk}

/-- How entering an id goes on. -/
theorem enterStep_eq_ok {n : Nat} (h : r.enterStep limit w p n = .ok w') :
    p ∉ w.path ∧ (Fits limit w.finished n p ∧ w' = w ∨
      w.finished.lookup p = none ∧ n ≤ limit ∧
        ((r.get? p = none ∧ w' = w) ∨
          ∃ g, r.get? p = some g ∧ w' = r.enterGlyph w g n w.stack)) := by
  unfold Registry.enterStep at h
  split at h
  · cases h
  · next hpath =>
    refine ⟨by simpa using hpath, ?_⟩
    cases hlook : w.finished.lookup p with
    | some k =>
        simp only [hlook] at h
        split at h
        · cases h
        · next hle =>
          cases h
          exact .inl ⟨⟨k, hlook, Nat.le_of_not_lt hle⟩, rfl⟩
    | none =>
        simp only [hlook] at h
        split at h
        · cases h
        · next hle =>
          refine .inr ⟨rfl, Nat.le_of_not_lt hle, ?_⟩
          cases hg : r.get? p with
          | none =>
              simp only [hg] at h
              cases h
              exact .inl ⟨rfl, rfl⟩
          | some g =>
              simp only [hg] at h
              cases h
              exact .inr ⟨g, rfl, rfl⟩

/-- How entering an id fails. -/
theorem enterStep_eq_error {n : Nat} {e : LineageError} (h : r.enterStep limit w p n = .error e) :
    p ∈ w.path ∧ e = .circular p (w.cycleTo p) ∨
      p ∉ w.path ∧ e = .tooDeep p limit ∧
        ((∃ k, w.finished.lookup p = some k ∧ limit < n + k) ∨
          w.finished.lookup p = none ∧ limit < n) := by
  unfold Registry.enterStep at h
  split at h
  · next hpath =>
    cases h
    exact .inl ⟨by simpa using hpath, rfl⟩
  · next hpath =>
    refine .inr ⟨by simpa using hpath, ?_⟩
    cases hlook : w.finished.lookup p with
    | some k =>
        simp only [hlook] at h
        split at h
        · next hlt =>
          cases h
          exact ⟨rfl, .inl ⟨k, rfl, hlt⟩⟩
        · cases h
    | none =>
        simp only [hlook] at h
        split at h
        · next hlt =>
          cases h
          exact ⟨rfl, .inr ⟨rfl, hlt⟩⟩
        · split at h <;> cases h

theorem step_of_cons (h : w.stack = tasks (p :: waiting) levels) :
    r.step limit w =
      r.enterStep limit { w with stack := tasks waiting levels } p levels.length := by
  simp only [Registry.step, h, tasks_cons]

theorem step_of_nil {l : Level} {ls : List Level} (h : w.stack = tasks [] (l :: ls)) :
    r.step limit w = .ok (r.leaveStep { w with stack := tasks l.rest ls } l.glyph) := by
  simp only [Registry.step, h, tasks, List.map_nil, List.nil_append]

/-- How a turn fails: on the next id, which stands on the path or is too far from the root. -/
theorem Invariant.error_cases {e : LineageError} (h : Invariant r root limit waiting levels w)
    (he : r.step limit w = .error e) : ∃ p waiting', waiting = p :: waiting' ∧
      (p ∈ levels.map Level.glyph ∧ e = .circular p (w.cycleTo p) ∨
        p ∉ levels.map Level.glyph ∧ e = .tooDeep p limit ∧
          ((∃ k, w.finished.lookup p = some k ∧ limit < levels.length + k) ∨
            w.finished.lookup p = none ∧ limit < levels.length)) := by
  cases waiting with
  | nil =>
      cases levels with
      | nil =>
          have hstack : w.stack = [] := h.stack_eq
          simp only [Registry.step, hstack] at he
          cases he
      | cons l ls =>
          rw [step_of_nil h.stack_eq] at he
          cases he
  | cons p waiting =>
      rw [step_of_cons h.stack_eq] at he
      have herror := enterStep_eq_error he
      have hpath : ({ w with stack := tasks waiting levels } : Walk).path =
          levels.map Level.glyph := filterMap_tasks waiting levels
      have hcycle : Walk.cycleTo { w with stack := tasks waiting levels } p = w.cycleTo p := by
        rw [Walk.cycleTo, Walk.cycleTo, hpath, h.path_eq]
      rw [hpath, hcycle] at herror
      exact ⟨p, waiting, rfl, herror⟩

/-- **The step of the walk**: a turn leads from a position to a position. -/
theorem Invariant.step (hroot : r.contains root = true)
    (h : Invariant r root limit waiting levels w) (hs : r.step limit w = .ok w') :
    ∃ waiting' levels', Invariant r root limit waiting' levels' w' := by
  cases waiting with
  | cons p waiting =>
      rw [step_of_cons h.stack_eq] at hs
      obtain ⟨hpath, ⟨hfits, rfl⟩ | ⟨hnew, hlen, hget⟩⟩ := enterStep_eq_ok hs
      · exact ⟨waiting, levels, h.skip hfits⟩
      · have hreg := h.ladder.contains hroot List.mem_cons_self
        obtain ⟨g, hg⟩ := Option.isSome_iff_exists.1 hreg
        obtain ⟨hnone, -⟩ | ⟨g', hg', rfl⟩ := hget
        · rw [hg] at hnone
          cases hnone
        · rw [Walk.path, filterMap_tasks] at hpath
          exact ⟨_, _, h.enter hg' hpath hnew hlen⟩
  | nil =>
      cases levels with
      | nil =>
          have hstack : w.stack = [] := h.stack_eq
          simp only [Registry.step, hstack] at hs
          cases hs
          exact ⟨[], [], h⟩
      | cons l ls =>
          rw [step_of_nil h.stack_eq] at hs
          cases hs
          have hreg := h.ladder.2.2.2.contains hroot List.mem_cons_self
          exact ⟨l.rest, ls, h.leave hreg⟩

end Turns

/-! ## whole walks -/

/-- The walk from a glyph before its first turn. -/
def Walk.start (root : String) : Walk := { stack := [.enter root 0] }

/-- One turn of the walk's loop. -/
def Turn (r : Registry) (limit : Nat) (w w' : Walk) : Prop :=
  w.stack ≠ [] ∧ r.step limit w = .ok w'

theorem invariant_start (r : Registry) (root : String) (limit : Nat) :
    Invariant r root limit [root] [] (Walk.start root) where
  stack_eq := rfl
  ladder := fun _ hp => List.mem_singleton.1 hp
  covered := .inl List.mem_cons_self
  retired := .nil
  apart := fun _ hl => absurd hl List.not_mem_nil

/-- **The invariant of the walk**: it holds whenever a walk from a registered glyph takes its next
task. -/
theorem Invariant.of_turns {r : Registry} {root : String} {limit : Nat} {w : Walk}
    (hroot : r.contains root = true) (h : ReflTransGen (Turn r limit) (Walk.start root) w) :
    ∃ waiting levels, Invariant r root limit waiting levels w := by
  induction h with
  | refl => exact ⟨[root], [], invariant_start r root limit⟩
  | tail _ hturn ih =>
      obtain ⟨waiting, levels, hinv⟩ := ih
      exact hinv.step hroot hturn.2

section Run

variable {r : Registry} {limit : Nat} {w w' : Walk} {e : LineageError}

theorem walk_of_done (h : w.stack = []) : r.walk limit w = .ok w := by
  rw [Registry.walk, dif_pos h]

theorem walk_of_step_ok (h : w.stack ≠ []) (hs : r.step limit w = .ok w') :
    r.walk limit w = r.walk limit w' := by
  rw [Registry.walk, dif_neg h]
  split
  · next hs' => rw [hs] at hs'; cases hs'
  · next hs' => rw [hs] at hs'; cases hs'; rfl

theorem walk_of_step_error (h : w.stack ≠ []) (hs : r.step limit w = .error e) :
    r.walk limit w = .error e := by
  rw [Registry.walk, dif_neg h]
  split
  · next hs' => rw [hs] at hs'; cases hs'; rfl
  · next hs' => rw [hs] at hs'; cases hs'

/-- A walk that ends well has taken turns to an empty stack. -/
theorem turns_of_walk_ok (h : r.walk limit w = .ok w') :
    ReflTransGen (Turn r limit) w w' ∧ w'.stack = [] := by
  induction w using Registry.walk.induct r limit with
  | case1 w hstack =>
      rw [walk_of_done hstack] at h
      cases h
      exact ⟨.refl, hstack⟩
  | case2 w hstack e hs =>
      rw [walk_of_step_error hstack hs] at h
      cases h
  | case3 w hstack w₁ hs ih =>
      rw [walk_of_step_ok hstack hs] at h
      obtain ⟨hturns, hend⟩ := ih h
      exact ⟨hturns.head ⟨hstack, hs⟩, hend⟩

/-- A walk that fails has taken turns to the failing one. -/
theorem turns_of_walk_error (h : r.walk limit w = .error e) :
    ∃ w', ReflTransGen (Turn r limit) w w' ∧ r.step limit w' = .error e := by
  induction w using Registry.walk.induct r limit with
  | case1 w hstack =>
      rw [walk_of_done hstack] at h
      cases h
  | case2 w hstack e' hs =>
      rw [walk_of_step_error hstack hs] at h
      cases h
      exact ⟨w, .refl, hs⟩
  | case3 w hstack w₁ hs ih =>
      rw [walk_of_step_ok hstack hs] at h
      obtain ⟨w', hturns, hfail⟩ := ih h
      exact ⟨w', hturns.head ⟨hstack, hs⟩, hfail⟩

end Run

end Lineage

end GlyphField
