import GlyphField.Proofs.DanglingParents
import Mathlib.Algebra.Order.BigOperators.Group.List
import Mathlib.Algebra.Order.Ring.Nat

/-!
# GlyphField.Proofs.WorkLoop

The walk along declared parents with the records that a loop keeps for it.  `Walk` reads the path
off its stack, and has one list for the glyphs left and their heights; the loop keeps a path, the
set of the glyphs on it, a table of heights and the order in which glyphs have been left, and
changes each of them by hand.  So that they agree is a property of its iterations, which carry over
to those of the walk and back.

* `Matches.next` — the step: an iteration is a turn of the walk, with matching records after it;
* `Consistent` — what the records have to do with the stack and with each other;
* `work_turn` — every turn uses up some of a bounded amount of work;
* `loop_consistent_and_ends` — the records at the top of every iteration, and the end of the loop.
-/

namespace GlyphField

open Relation (ReflTransGen)

namespace Lineage

/-! ## the loop -/

/-- What the loop has before it at the top of an iteration. -/
structure Loop where
  /-- The tasks to do, the next one first. -/
  stack : List Task
  /-- The glyphs entered and not yet left, the first one first. -/
  path : List String := []
  onPath : Std.HashSet String := ∅
  /-- The heights of the glyphs left. -/
  heights : Std.HashMap String Nat := ∅
  /-- The glyphs left, the first one first. -/
  postOrder : List String := []
  dangling : List DanglingParent := []

namespace Loop

/-- The loop before its first iteration. An unregistered glyph does not come to that. -/
def start (r : Registry) (root : String) : Except LineageError Loop :=
  if r.contains root then .ok { stack := [.enter root 0] } else .error (.unknownGlyph root)

/-- Reports a parent unless it is registered or has been reported. -/
def report (r : Registry) (child : String) (dangling : List DanglingParent) (parent : String) :
    List DanglingParent :=
  if r.contains parent then dangling
  else if dangling.contains ⟨child, parent⟩ then dangling
  else dangling ++ [⟨child, parent⟩]

/-- Puts the task of entering a parent on the stack, if the parent is registered. -/
def push (r : Registry) (generation : Nat) (stack : List Task) (parent : String) : List Task :=
  if r.contains parent then .enter parent generation :: stack else stack

/-- Enters a glyph. The last parent is put on the stack first, and so the first one is met first. -/
def expand (r : Registry) (s : Loop) (id : String) (g : Glyph) (generation : Nat) : Loop where
  stack := g.parents.reverse.foldl (push r (generation + 1)) (.leave id :: s.stack)
  path := s.path ++ [id]
  onPath := s.onPath.insert id
  heights := s.heights
  postOrder := s.postOrder
  dangling := g.parents.foldl (report r id) s.dangling

/-- The path from its first `id` on, and `id` again. Zero stands for a position that is missing. -/
def cycle (s : Loop) (id : String) : List String :=
  s.path.drop ((s.path.idxOf? id).getD 0) ++ [id]

/-- Does the task of entering a glyph; `s` is without that task. -/
def enter (r : Registry) (limit : Nat) (s : Loop) (id : String) (generation : Nat) :
    Except LineageError Loop :=
  if s.onPath.contains id then .error (.circular id (s.cycle id))
  else
    match s.heights[id]? with
    | some height => if limit < generation + height then .error (.tooDeep id limit) else .ok s
    | none =>
      if limit < generation then .error (.tooDeep id limit)
      else
        match r.get? id with
        | none => .ok s
        | some g => .ok (s.expand r id g generation)

/-- One more than the greatest height among parents, zero if none has a height. -/
def heightOf (s : Loop) (parents : List String) : Nat :=
  ((parents.filterMap (s.heights[·]?)).map (· + 1)).max?.getD 0

/-- Does the task of leaving a glyph; `s` is without that task. -/
def leave (r : Registry) (s : Loop) (id : String) : Loop where
  stack := s.stack
  path := s.path.dropLast
  onPath := s.onPath.erase id
  heights := s.heights.insert id (s.heightOf ((r.get? id).toList.flatMap Glyph.parents))
  postOrder := s.postOrder ++ [id]
  dangling := s.dangling

/-- One iteration. -/
def next (r : Registry) (limit : Nat) (s : Loop) : Except LineageError Loop :=
  match s.stack with
  | [] => .ok s
  | .enter id generation :: rest => { s with stack := rest }.enter r limit id generation
  | .leave id :: rest => .ok ({ s with stack := rest }.leave r id)

/-- The loop after a number of iterations, if none of them fails; it does not change any more once
its stack is empty. -/
def after (r : Registry) (limit : Nat) (root : String) : Nat → Except LineageError Loop
  | 0 => start r root
  | n + 1 => (after r limit root n).bind (next r limit)

/-- The lineage read off the records at the end. Zero stands for a height that is missing. -/
def lineage (root : String) (s : Loop) : Lineage where
  glyphId := root
  ancestors := s.postOrder.reverse.filter (· ≠ root)
  depth := s.heights[root]?.getD 0
  dangling := s.dangling

/-- Iteration `n` enters a glyph. -/
def EntersAt (r : Registry) (limit : Nat) (root : String) (n : Nat) (id : String) : Prop :=
  ∃ s s', after r limit root n = .ok s ∧ s.next r limit = .ok s' ∧ s'.path = s.path ++ [id]

/-- What the records of the loop have to do with its stack and with each other. -/
structure Consistent (r : Registry) (s : Loop) : Prop where
  path_eq : s.path = (s.stack.filterMap Task.leaves?).reverse
  path_nodup : s.path.Nodup
  mem_onPath : ∀ id, id ∈ s.onPath ↔ id ∈ s.path
  isChain_path : s.path.IsChain r.Inherits
  mem_heights : ∀ id, id ∈ s.heights ↔ id ∈ s.postOrder
  postOrder_nodup : s.postOrder.Nodup
  disjoint : s.path.Disjoint s.postOrder
  parents_first : ∀ c p, c ∈ s.postOrder → r.Inherits c p → [p, c].Sublist s.postOrder

end Loop

/-! ## records that match a walk -/

/-- The records of the loop show the same as a state of the walk. -/
structure Matches (s : Loop) (w : Walk) : Prop where
  stack_eq : s.stack = w.stack
  path_eq : s.path = w.path.reverse
  mem_onPath : ∀ id, id ∈ s.onPath ↔ id ∈ w.path
  getElem?_heights : ∀ id : String, s.heights[id]? = w.finished.lookup id
  postOrder_eq : s.postOrder = (w.finished.map Prod.fst).reverse
  dangling_eq : s.dangling = w.dangling

/-- Outcomes of an iteration and of a turn: records that match, or the same failure. -/
inductive Agree : Except LineageError Loop → Except LineageError Walk → Prop
  | ok {s : Loop} {w : Walk} (h : Matches s w) : Agree (.ok s) (.ok w)
  | error (e : LineageError) : Agree (.error e) (.error e)

section Parts

variable {r : Registry} {id : String}

/-- The registered parents go on the stack in their order. -/
theorem foldl_push (r : Registry) (n : Nat) (parents : List String) (stack : List Task) :
    parents.reverse.foldl (Loop.push r n) stack =
      (parents.filter r.contains).map (Task.enter · n) ++ stack := by
  induction parents with
  | nil => rfl
  | cons p ps ih =>
      rw [List.reverse_cons, List.foldl_concat, ih, Loop.push, List.filter_cons]
      split <;> rfl

/-- With no report of the child before, each of its parents that is missing is reported once. -/
theorem foldl_report (r : Registry) (parents : List String) {dangling : List DanglingParent}
    (hnew : ∀ p, ⟨id, p⟩ ∉ dangling) :
    parents.foldl (Loop.report r id) dangling = dangling ++
      ((parents.filter fun p => !r.contains p).map (DanglingParent.mk id)).eraseDups := by
  induction parents using List.reverseRecOn with
  | nil => exact (List.append_nil _).symm
  | append_singleton ps p ih =>
      rw [List.foldl_concat, ih, Loop.report]
      generalize hreports : (ps.filter fun p => !r.contains p).map (DanglingParent.mk id) = reports
      have hmem : (dangling ++ reports.eraseDups).contains ⟨id, p⟩ = true ↔ ⟨id, p⟩ ∈ reports := by
        rw [List.contains_iff_mem, List.mem_append, List.mem_eraseDups]
        exact or_iff_right (hnew p)
      rw [List.filter_append, List.map_append, hreports]
      cases hp : r.contains p with
      | true => simp [hp]
      | false =>
          have hone : ([p].filter fun p => !r.contains p).map (DanglingParent.mk id) =
              [⟨id, p⟩] := by
            simp [hp]
          rw [hone, if_neg Bool.false_ne_true]
          split
          · next h =>
            have hsub : [⟨id, p⟩] ⊆ reports := List.cons_subset.2 ⟨hmem.1 h, List.nil_subset _⟩
            have herase := eraseDups_append_of_subset hsub []
            rw [List.append_nil, List.append_nil] at herase
            rw [herase]
          · next h => rw [eraseDups_concat fun hin => h (hmem.2 hin), List.append_assoc]

theorem foldl_max_zero (l : List Nat) : l.foldl max 0 = l.max?.getD 0 := by
  cases l with
  | nil => rfl
  | cons a l => rw [List.foldl_cons, Nat.zero_max, List.max?_cons', Option.getD_some]

/-- The position of a glyph on the path is found, and from there on the path is the cycle. -/
theorem idxOf?_path {path : List String} (h : path.Nodup) (hid : id ∈ path) :
    ∃ i, path.reverse.idxOf? id = some i ∧
      path.reverse.drop i = id :: (path.takeWhile (· ≠ id)).reverse := by
  obtain ⟨late, early, rfl⟩ := List.append_of_mem hid
  rw [List.nodup_middle, List.nodup_cons, List.mem_append, not_or] at h
  obtain ⟨⟨hlate, hearly⟩, -⟩ := h
  have hreverse : (late ++ id :: early).reverse = early.reverse ++ id :: late.reverse := by
    simp
  have htake : (late ++ id :: early).takeWhile (· ≠ id) = late := by
    rw [List.takeWhile_append_of_pos fun a ha => decide_eq_true (ne_of_mem_of_not_mem ha hlate)]
    simp
  refine ⟨early.reverse.length, ?_, ?_⟩
  · rw [hreverse, List.idxOf?_eq_some_iff]
    refine ⟨by simp, by simp, fun j hj heq => hearly (List.mem_reverse.1 ?_)⟩
    rw [List.getElem_append_left hj] at heq
    exact heq ▸ List.getElem_mem hj
  · rw [hreverse, htake, List.drop_left]

end Parts

/-! ## iterations and turns -/

section Step

variable {r : Registry} {root : String} {limit : Nat} {s s' : Loop} {w w' : Walk} {id : String}

theorem matches_start (root : String) :
    Matches { stack := [.enter root 0] } (Walk.start root) where
  stack_eq := rfl
  path_eq := rfl
  mem_onPath id := by simp [Walk.start, Walk.path, Task.leaves?]
  getElem?_heights id := by simp [Walk.start]
  postOrder_eq := rfl
  dangling_eq := rfl

theorem Matches.expand {g : Glyph} (h : Matches s w) (hg : r.get? id = some g)
    (hnew : ∀ p, ⟨id, p⟩ ∉ w.dangling) (n : Nat) :
    Matches (s.expand r id g n) (r.enterGlyph w g n w.stack) := by
  have hid := Registry.id_of_get? hg
  have hpath : (r.enterGlyph w g n w.stack).path = id :: w.path := by
    rw [Registry.path_enterGlyph, hid]
    rfl
  refine ⟨?_, ?_, fun a => ?_, h.getElem?_heights, h.postOrder_eq, ?_⟩
  · rw [Loop.expand, foldl_push, h.stack_eq, Registry.enterGlyph, Registry.knownParents, hid]
  · rw [hpath, List.reverse_cons, ← h.path_eq]
    rfl
  · rw [hpath, List.mem_cons, Loop.expand, Std.HashSet.mem_insert, h.mem_onPath, beq_iff_eq,
      eq_comm]
  · rw [Loop.expand, Registry.enterGlyph, h.dangling_eq, foldl_report r g.parents hnew,
      Registry.danglingParents, hid]

/-- The task of entering a glyph changes the records as it changes the walk, or fails alike. -/
theorem Matches.enter (h : Matches s w) (hpath : w.path.Nodup)
    (hnew : w.seen id = false → ∀ p, ⟨id, p⟩ ∉ w.dangling) (n : Nat) :
    Agree (s.enter r limit id n) (r.enterStep limit w id n) := by
  unfold Loop.enter Registry.enterStep
  by_cases hid : id ∈ w.path
  · obtain ⟨i, hi, hdrop⟩ := idxOf?_path hpath hid
    have hcycle : s.cycle id = w.cycleTo id := by
      rw [Loop.cycle, h.path_eq, hi, Option.getD_some, hdrop]
      rfl
    rw [if_pos (Std.HashSet.contains_iff_mem.2 ((h.mem_onPath id).2 hid)),
      if_pos (List.contains_iff_mem.2 hid), hcycle]
    exact .error _
  · rw [if_neg fun hc => hid ((h.mem_onPath id).1 (Std.HashSet.contains_iff_mem.1 hc)),
      if_neg fun hc => hid (List.contains_iff_mem.1 hc), h.getElem?_heights]
    cases hlook : w.finished.lookup id with
    | some height =>
        dsimp only
        split
        · exact .error _
        · exact .ok h
    | none =>
        have hseen : w.seen id = false := by
          rw [Walk.seen, hlook]
          simpa using hid
        dsimp only
        split
        · exact .error _
        · cases hg : r.get? id with
          | none => exact .ok h
          | some g => exact .ok (h.expand hg (hnew hseen) n)

theorem Matches.heightOf_eq (h : Matches s w) (parents : List String) :
    s.heightOf parents = w.heightOf parents := by
  simp only [Loop.heightOf, Walk.heightOf, foldl_max_zero, h.getElem?_heights, List.map_filterMap]

/-- The task of leaving a glyph changes the records as it changes the walk. -/
theorem Matches.leave {rest : List Task} (h : Matches s w) (hstack : w.stack = .leave id :: rest)
    (hpath : w.path.Nodup) : Matches ({ s with stack := rest }.leave r id)
      (r.leaveStep { w with stack := rest } id) := by
  have hcons : w.path = id :: ({ w with stack := rest } : Walk).path := by
    rw [Walk.path, hstack]
    rfl
  have hnot := (List.nodup_cons.1 (hcons ▸ hpath)).1
  refine ⟨rfl, ?_, fun a => ?_, fun a => ?_, ?_, h.dangling_eq⟩
  · rw [Loop.leave, h.path_eq, hcons, List.dropLast_reverse, List.tail_cons]
    rfl
  · rw [Loop.leave, Std.HashSet.mem_erase, h.mem_onPath, hcons, List.mem_cons,
      beq_eq_false_iff_ne]
    constructor
    · rintro ⟨hne, rfl | ha⟩
      · exact absurd rfl hne
      · exact ha
    · exact fun ha => ⟨(ne_of_mem_of_not_mem ha hnot).symm, .inr ha⟩
  · have hheight : ({ s with stack := rest } : Loop).heightOf
        ((r.get? id).toList.flatMap Glyph.parents) =
        match r.get? id with
        | none => 0
        | some g => ({ w with stack := rest } : Walk).heightOf g.parents := by
      cases r.get? id with
      | none => rfl
      | some g => exact (h.heightOf_eq _).trans (congrArg _ (List.append_nil _))
    rw [Loop.leave, Registry.leaveStep, hheight, Std.HashMap.getElem?_insert, List.lookup_cons,
      h.getElem?_heights, BEq.comm]
    cases a == id <;> rfl
  · rw [Loop.leave, h.postOrder_eq]
    exact (List.reverse_cons ..).symm

theorem Ladder.nodup {waiting : List String} {levels : List Level}
    (h : Ladder r root limit waiting levels) : (levels.map Level.glyph).Nodup := by
  induction levels generalizing waiting with
  | nil => exact List.nodup_nil
  | cons l ls ih => exact List.nodup_cons.2 ⟨h.2.1, ih h.2.2.2⟩

/-- Each glyph of the path is a parent of the one before it. -/
theorem Ladder.isChain {waiting : List String} {levels : List Level}
    (h : Ladder r root limit waiting levels) :
    (levels.map Level.glyph).IsChain fun p c => r.Inherits c p := by
  induction levels generalizing waiting with
  | nil => exact .nil
  | cons l ls ih =>
      have hbelow := h.2.2.2
      cases ls with
      | nil => exact .singleton _
      | cons m ms => exact .cons_cons (hbelow.1 l.glyph List.mem_cons_self) (ih hbelow)

/-- **The step of the loop.**  An iteration is a turn of the walk. -/
theorem Matches.next {waiting : List String} {levels : List Level} (h : Matches s w)
    (hinv : Invariant r root limit waiting levels w) (hreported : Reported r w) :
    Agree (s.next r limit) (r.step limit w) := by
  have hpath : w.path.Nodup := hinv.path_eq ▸ hinv.ladder.nodup
  unfold Loop.next Registry.step
  rw [h.stack_eq]
  cases hstack : w.stack with
  | nil => exact .ok h
  | cons task rest =>
      cases task with
      | enter id n =>
          have hsame : ({ w with stack := rest } : Walk).path = w.path := by
            rw [Walk.path, Walk.path, hstack]
            rfl
          have hpop : Matches { s with stack := rest } { w with stack := rest } :=
            ⟨rfl, h.path_eq.trans (congrArg _ hsame.symm), fun a => hsame ▸ h.mem_onPath a,
              h.getElem?_heights, h.postOrder_eq, h.dangling_eq⟩
          refine hpop.enter (hsame ▸ hpath) (fun hseen p hp => ?_) n
          have hseen' := ((hreported.mem_iff id p).1 hp).1
          rw [← Registry.seen_pop_enter w id n rest hstack, hseen] at hseen'
          cases hseen'
      | leave id => exact .ok (h.leave hstack hpath)

end Step

/-! ## consistency -/

section Consistency

variable {r : Registry} {root : String} {limit : Nat} {s s' : Loop} {w w' : Walk} {id : String}
  {waiting : List String} {levels : List Level}

theorem Matches.mem_postOrder (h : Matches s w) :
    id ∈ s.postOrder ↔ id ∈ w.finished.map Prod.fst := by
  rw [h.postOrder_eq, List.mem_reverse]

theorem Matches.consistent (h : Matches s w) (hinv : Invariant r root limit waiting levels w) :
    s.Consistent r where
  path_eq := by
    rw [h.path_eq, h.stack_eq, Walk.path]
  path_nodup := by
    rw [h.path_eq, hinv.path_eq, List.nodup_reverse]
    exact hinv.ladder.nodup
  mem_onPath a := by
    rw [h.mem_onPath, h.path_eq, List.mem_reverse]
  isChain_path := by
    rw [h.path_eq, hinv.path_eq, List.isChain_reverse]
    exact hinv.ladder.isChain
  mem_heights a := by
    rw [← Std.HashMap.isSome_getElem?_iff_mem, h.getElem?_heights, isSome_lookup_iff,
      h.mem_postOrder]
  postOrder_nodup := by
    rw [h.postOrder_eq, List.nodup_reverse]
    exact hinv.retired.nodup
  disjoint a hpath hleft := by
    rw [h.path_eq, List.mem_reverse, hinv.path_eq] at hpath
    obtain ⟨l, hl, rfl⟩ := List.mem_map.1 hpath
    have hsome := isSome_lookup_iff.2 (h.mem_postOrder.1 hleft)
    rw [hinv.apart l hl] at hsome
    cases hsome
  parents_first c p hc hp := by
    rw [h.postOrder_eq]
    exact (hinv.retired.sublist_of_transGen (h.mem_postOrder.1 hc) (.single hp)).reverse

/-- A glyph has been seen if the records show it. -/
theorem Matches.seen_iff (h : Matches s w) :
    w.seen id = true ↔ id ∈ s.path ∨ id ∈ s.postOrder := by
  rw [Walk.seen, Bool.or_eq_true, List.contains_iff_mem, isSome_lookup_iff, h.mem_postOrder,
    h.path_eq, List.mem_reverse]

end Consistency

/-! ## work -/

/-- A selection of less, without a member that had been selected, has a smaller sum. -/
theorem add_sum_filter_le {α : Type} [DecidableEq α] {p q : α → Bool} {l : List α} (f : α → Nat)
    (h : ∀ a, p a = true → q a = true) {b : α} (hb : b ∈ l) (hq : q b = true) (hp : p b = false) :
    f b + ((l.filter p).map f).sum ≤ ((l.filter q).map f).sum := by
  have hnot : b ∉ l.filter p := fun hmem => by
    rw [(List.mem_filter.1 hmem).2] at hp
    cases hp
  have hsub := (List.monotone_filter_right l h).erase b
  rw [List.erase_of_not_mem hnot] at hsub
  rw [← List.sum_map_erase f (List.mem_filter.2 ⟨hb, hq⟩)]
  exact Nat.add_le_add_left ((hsub.map f).sum_le_sum fun _ _ => Nat.zero_le _) _

/-- How many tasks it takes to enter and leave a glyph: its own and those of its parents. -/
def tasksOf (r : Registry) (g : Glyph) : Nat := 1 + (r.knownParents g).length

/-- The tasks on the stack, and those that are still to be put there at most. -/
def Walk.work (r : Registry) (w : Walk) : Nat :=
  w.stack.length + ((r.glyphs.filter fun g => !w.seen g.id).map (tasksOf r)).sum

section Work

variable {r : Registry} {limit : Nat} {w w' : Walk}

theorem not_seen_of_step (h : r.step limit w = .ok w') (g : Glyph)
    (hg : (!w'.seen g.id) = true) : (!w.seen g.id) = true := by
  cases hseen : w.seen g.id with
  | false => rfl
  | true =>
      rw [r.seen_step h hseen] at hg
      cases hg

/-- A turn that takes a task from the stack and puts none there. -/
theorem work_lt_of_pop (hstep : r.step limit w = .ok w')
    (hstack : w'.stack.length < w.stack.length) : w'.work r < w.work r := by
  have hsub := List.monotone_filter_right r.glyphs (not_seen_of_step hstep)
  exact Nat.add_lt_add_of_lt_of_le hstack
    ((hsub.map (tasksOf r)).sum_le_sum fun _ _ => Nat.zero_le _)

/-- Every turn uses up some work. -/
theorem work_turn (h : Turn r limit w w') : w'.work r < w.work r := by
  obtain ⟨hne, hstep⟩ := h
  have hstep' := hstep
  unfold Registry.step at hstep
  split at hstep
  · exact absurd ‹_› hne
  · next id n rest hstack =>
    obtain ⟨hpath, ⟨-, rfl⟩ | ⟨hnone, -, ⟨-, rfl⟩ | ⟨g, hg, hw'⟩⟩⟩ := enterStep_eq_ok hstep
    · exact work_lt_of_pop hstep' (by simp [hstack])
    · exact work_lt_of_pop hstep' (by simp [hstack])
    · have hid := Registry.id_of_get? hg
      have hlength : w'.stack.length = tasksOf r g + rest.length := by
        simp [hw', Registry.enterGlyph, tasksOf]
        omega
      have hnew : w.seen g.id = false := by
        rw [hid, ← Registry.seen_pop_enter w id n rest hstack, Walk.seen, hnone]
        simpa using hpath
      have hseen : w'.seen g.id = true := by
        simp [hw', Walk.seen, Registry.path_enterGlyph]
      have hrest := add_sum_filter_le (tasksOf r) (not_seen_of_step hstep') (Keyed.mem_of_find? hg)
        (congrArg not hnew) (congrArg not hseen)
      rw [Walk.work, Walk.work, hlength, hstack, List.length_cons]
      omega
  · next id rest hstack =>
    cases hstep
    exact work_lt_of_pop hstep' (by simp [Registry.leaveStep, hstack])

end Work

/-! ## whole loops -/

section Runs

variable {r : Registry} {root : String} {limit m n : Nat} {s s' : Loop} {w w' : Walk} {id : String}

theorem after_succ_eq_ok : Loop.after r limit root (n + 1) = .ok s' ↔
    ∃ s, Loop.after r limit root n = .ok s ∧ s.next r limit = .ok s' := by
  rw [Loop.after]
  cases Loop.after r limit root n with
  | error e => simp [Except.bind]
  | ok s => simp [Except.bind]

theorem start_eq_ok : Loop.start r root = .ok s ↔
    r.contains root = true ∧ { stack := [.enter root 0] } = s := by
  unfold Loop.start
  split
  · next h => simp [h]
  · next h => simp [h]

/-- Only a registered glyph has iterations. -/
theorem contains_of_after (h : Loop.after r limit root n = .ok s) : r.contains root = true := by
  induction n generalizing s with
  | zero => exact (start_eq_ok.1 h).1
  | succ n ih =>
      obtain ⟨s₀, h₀, -⟩ := after_succ_eq_ok.1 h
      exact ih h₀

/-- The work that a walk has before its first turn, at most. -/
def totalWork (r : Registry) : Nat := 1 + (r.glyphs.map (tasksOf r)).sum

theorem work_start_le (r : Registry) (root : String) : (Walk.start root).work r ≤ totalWork r :=
  Nat.add_le_add_left
    ((List.filter_sublist.map _).sum_le_sum fun _ _ => Nat.zero_le _) _

/-- After any turns from the start an iteration is one more turn. -/
theorem Matches.next_of_turns (h : Matches s w) (hroot : r.contains root = true)
    (hturns : ReflTransGen (Turn r limit) (Walk.start root) w) :
    Agree (s.next r limit) (r.step limit w) := by
  obtain ⟨waiting, levels, hinv⟩ := Invariant.of_turns hroot hturns
  exact h.next hinv (reported_of_turns hroot hturns)

theorem Agree.exists_ok {out : Except LineageError Walk} (h : Agree (.ok s) out) :
    ∃ w, out = .ok w ∧ Matches s w := by
  cases h with
  | ok h => exact ⟨_, rfl, h⟩

theorem Agree.eq_error {e : LineageError} {out : Except LineageError Walk}
    (h : Agree (.error e) out) : out = .error e := by
  cases h
  rfl

/-- **The loop is the walk**, which has done a turn for each iteration. -/
theorem matches_after (h : Loop.after r limit root n = .ok s) :
    ∃ w, ReflTransGen (Turn r limit) (Walk.start root) w ∧ Matches s w ∧
      (s.stack = [] ∨ n + w.work r ≤ totalWork r) := by
  induction n generalizing s with
  | zero =>
      obtain ⟨-, rfl⟩ := start_eq_ok.1 h
      exact ⟨_, .refl, matches_start root, .inr (by simpa using work_start_le r root)⟩
  | succ n ih =>
      have hroot := contains_of_after h
      obtain ⟨s₀, h₀, hnext⟩ := after_succ_eq_ok.1 h
      obtain ⟨w, hturns, hmatches, hwork⟩ := ih h₀
      by_cases hend : s₀.stack = []
      · rw [Loop.next, hend] at hnext
        cases hnext
        exact ⟨w, hturns, hmatches, .inl hend⟩
      · have hagree := hmatches.next_of_turns hroot hturns
        rw [hnext] at hagree
        obtain ⟨w', hstep, hmatches'⟩ := hagree.exists_ok
        have hturn : Turn r limit w w' := ⟨hmatches.stack_eq ▸ hend, hstep⟩
        have hlt := work_turn hturn
        have hle := hwork.resolve_left hend
        exact ⟨w', hturns.tail hturn, hmatches', .inr (by omega)⟩

/-- A failing iteration is a failing turn. -/
theorem step_error_of_after {e : LineageError} (hroot : r.contains root = true)
    (h : Loop.after r limit root n = .error e) :
    ∃ w, ReflTransGen (Turn r limit) (Walk.start root) w ∧ r.step limit w = .error e := by
  induction n with
  | zero =>
      rw [Loop.after, Loop.start, if_pos hroot] at h
      cases h
  | succ n ih =>
      rw [Loop.after] at h
      cases h₀ : Loop.after r limit root n with
      | error e₀ =>
          rw [h₀] at h
          cases h
          exact ih h₀
      | ok s =>
          rw [h₀] at h
          obtain ⟨w, hturns, hmatches, -⟩ := matches_after h₀
          have hagree := hmatches.next_of_turns hroot hturns
          rw [show s.next r limit = .error e from h] at hagree
          exact ⟨w, hturns, hagree.eq_error⟩

theorem walk_of_turns (h : ReflTransGen (Turn r limit) w w') :
    r.walk limit w = r.walk limit w' := by
  induction h using ReflTransGen.head_induction_on with
  | refl => rfl
  | head hturn _ ih => rw [walk_of_step_ok hturn.1 hturn.2, ih]

/-- When the work is used up, the loop has come to its end or failed. -/
theorem stack_eq_nil_of_after (h : Loop.after r limit root (totalWork r) = .ok s) :
    s.stack = [] := by
  obtain ⟨w, -, hmatches, hend | hwork⟩ := matches_after h
  · exact hend
  · rw [Walk.work] at hwork
    rw [hmatches.stack_eq]
    exact List.eq_nil_of_length_eq_zero (by omega)

/-- The outcome of the loop is that of the walk. -/
theorem map_lineage_after (hroot : r.contains root = true) :
    (Loop.after r limit root (totalWork r)).map (Loop.lineage root) =
      (r.walk limit (Walk.start root)).map (Registry.lineageOf root) := by
  cases h : Loop.after r limit root (totalWork r) with
  | error e =>
      obtain ⟨w, hturns, hstep⟩ := step_error_of_after hroot h
      have hne : w.stack ≠ [] := fun hend => by
        rw [Registry.step, hend] at hstep
        cases hstep
      rw [walk_of_turns hturns, walk_of_step_error hne hstep]
      rfl
  | ok s =>
      obtain ⟨w, hturns, hmatches, -⟩ := matches_after h
      have hend := hmatches.stack_eq ▸ stack_eq_nil_of_after h
      rw [walk_of_turns hturns, walk_of_done hend, Except.map, Except.map, Loop.lineage,
        Registry.lineageOf, hmatches.postOrder_eq, List.reverse_reverse, hmatches.getElem?_heights,
        hmatches.dangling_eq]

/-- What has been entered stays on the path or among the glyphs left. -/
theorem entered_after (h : Loop.after r limit root m = .ok s)
    (h' : Loop.after r limit root (m + n) = .ok s') (hid : id ∈ s.path ∨ id ∈ s.postOrder) :
    id ∈ s'.path ∨ id ∈ s'.postOrder := by
  induction n generalizing s' with
  | zero =>
      obtain rfl : s = s' := Except.ok.inj (h.symm.trans h')
      exact hid
  | succ n ih =>
      obtain ⟨s₀, h₀, hnext⟩ := after_succ_eq_ok.1 h'
      obtain ⟨w, hturns, hmatches, -⟩ := matches_after h₀
      have hagree := hmatches.next_of_turns (contains_of_after h₀) hturns
      rw [hnext] at hagree
      obtain ⟨w', hstep, hmatches'⟩ := hagree.exists_ok
      exact hmatches'.seen_iff.1 (r.seen_step hstep (hmatches.seen_iff.2 (ih h₀)))

/-- No iteration forgets a glyph that has been left. -/
theorem postOrder_next (h : s.next r limit = .ok s') : s.postOrder ⊆ s'.postOrder := by
  unfold Loop.next at h
  split at h
  · cases h
    exact List.Subset.refl _
  · unfold Loop.enter at h
    split at h
    · cases h
    · split at h
      · split at h <;> cases h
        exact List.Subset.refl _
      · split at h
        · cases h
        · split at h <;> cases h <;> exact List.Subset.refl _
  · cases h
    exact List.subset_append_left _ _

theorem consistent_after (h : Loop.after r limit root n = .ok s) : s.Consistent r := by
  obtain ⟨w, hturns, hmatches, -⟩ := matches_after h
  obtain ⟨waiting, levels, hinv⟩ := Invariant.of_turns (contains_of_after h) hturns
  exact hmatches.consistent hinv

/-- A glyph that an iteration enters is not entered by a later one. -/
theorem not_entersAt_of_lt (hm : Loop.EntersAt r limit root m id) (hlt : m < n) :
    ¬Loop.EntersAt r limit root n id := by
  rintro ⟨t, t', ht, hnext, hpath⟩
  obtain ⟨s, s', hs, hs', hpath'⟩ := hm
  obtain ⟨k, rfl⟩ := Nat.exists_eq_add_of_lt hlt
  have hconsistent := consistent_after (after_succ_eq_ok.2 ⟨t, ht, hnext⟩)
  have hentered : id ∈ t.path ∨ id ∈ t.postOrder := by
    rw [Nat.add_right_comm] at ht
    refine entered_after (after_succ_eq_ok.2 ⟨s, hs, hs'⟩) ht (.inl ?_)
    rw [hpath']
    exact List.mem_concat_self
  obtain hin | hleft := hentered
  · have hnodup := hconsistent.path_nodup
    rw [hpath, List.nodup_append] at hnodup
    exact hnodup.2.2 id hin id List.mem_cons_self rfl
  · exact hconsistent.disjoint (hpath ▸ List.mem_concat_self) (postOrder_next hnext hleft)

/-- The cycle of a glyph that is met again starts where the path has it. -/
theorem isSome_idxOf?_path (h : Loop.after r limit root n = .ok s) (hid : id ∈ s.onPath) :
    (s.path.idxOf? id).isSome = true := by
  have hconsistent := consistent_after h
  have hmem := List.mem_reverse.2 ((hconsistent.mem_onPath id).1 hid)
  obtain ⟨i, hi, -⟩ := idxOf?_path (List.nodup_reverse.2 hconsistent.path_nodup) hmem
  rw [List.reverse_reverse] at hi
  rw [hi, Option.isSome_some]

/-- When nothing is left to do, the first glyph has a height. -/
theorem mem_heights_of_done (h : Loop.after r limit root n = .ok s) (hend : s.stack = []) :
    root ∈ s.heights := by
  obtain ⟨w, hturns, hmatches, -⟩ := matches_after h
  have hwalk := (walk_of_turns hturns).trans (walk_of_done (hmatches.stack_eq ▸ hend))
  obtain ⟨k, hk, -⟩ := height_of_walk_ok (contains_of_after h) hwalk
  rw [← Std.HashMap.isSome_getElem?_iff_mem, hmatches.getElem?_heights, hk, Option.isSome_some]

/-- An unregistered glyph is refused whatever the number of iterations. -/
theorem after_of_not_contains (h : r.contains root = false) (n : Nat) :
    Loop.after r limit root n = .error (.unknownGlyph root) := by
  induction n with
  | zero => rw [Loop.after, Loop.start, if_neg (Bool.eq_false_iff.1 h)]
  | succ n ih => rw [Loop.after, ih, Except.bind]

end Runs

/-- **The loop keeps its records consistent, and ends.**  At the top of every iteration the path is
made up of the glyphs that wait to be left, each one a parent of the glyph before it and none there
twice; the set beside it has the same glyphs.  The table of heights has the glyphs that have been
left, each once, none of them on the path and all after their registered parents.  What is looked up
is there: the position of a glyph that is met again on the path, and in the end the height of the
first glyph.  A glyph is entered by one iteration at most, and the loop ends after no more
iterations than there are tasks for all glyphs; its outcome is the lineage. -/
theorem loop_consistent_and_ends (r : Registry) (limit : Nat) (root : String) :
    let bound := 1 + (r.glyphs.map fun g => 1 + (r.knownParents g).length).sum
    (∀ n s, Loop.after r limit root n = .ok s → s.Consistent r ∧
      (∀ id ∈ s.onPath, (s.path.idxOf? id).isSome = true) ∧
      (s.stack = [] → root ∈ s.heights)) ∧
    (∀ id m n, Loop.EntersAt r limit root m id → Loop.EntersAt r limit root n id → m = n) ∧
    (∀ s, Loop.after r limit root bound = .ok s → s.stack = []) ∧
    r.lineage limit root =
      (Loop.after r (min limit 32) root bound).map (Loop.lineage root) := by
  intro bound
  refine ⟨fun n s hs => ⟨consistent_after hs, fun id hid => isSome_idxOf?_path hs hid,
    mem_heights_of_done hs⟩, fun id m n hm hn => ?_, fun s hs => stack_eq_nil_of_after hs, ?_⟩
  · obtain hlt | heq | hlt := Nat.lt_trichotomy m n
    · exact absurd hn (not_entersAt_of_lt hm hlt)
    · exact heq
    · exact absurd hm (not_entersAt_of_lt hn hlt)
  · cases hroot : r.contains root with
    | false =>
        rw [Registry.lineage_of_not_contains hroot, after_of_not_contains hroot]
        rfl
    | true =>
        rw [Registry.lineage_of_contains hroot]
        exact (map_lineage_after hroot).symm

end Lineage

end GlyphField
