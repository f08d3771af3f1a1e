import GlyphField.Lineage.Basic

/-!
# GlyphField.Lineage.Walk

The lineage of a glyph is found by a depth-first walk along declared parents, on a stack of
tasks. To enter a glyph is to put its parents on the stack, above a task that leaves it again;
the glyphs that are still to be left are the path from the first glyph to the present one.

A glyph is entered once. When it is left, all its parents have been left before it and its
height, the longest chain of parents above it, is known; meeting it again on another path only
needs that height.

Main statement: `unseen_step`, a step enters a glyph not seen before or else shortens the stack,
so the walk ends.
-/

namespace GlyphField

namespace Lineage

/-- A task of the walk. -/
inductive Task where
  /-- Look at a glyph at a number of generations above the first. -/
  | enter (id : String) (generation : Nat)
  /-- Be done with a glyph. -/
  | leave (id : String)
deriving DecidableEq, Repr

/-- The glyph that a task is going to leave. -/
def Task.leaves? : Task → Option String
  | .enter _ _ => none
  | .leave id => some id

/-- The state of the walk. -/
structure Walk where
  /-- The tasks to do, the next one first. -/
  stack : List Task
  /-- The glyphs left so far with their heights, the latest first. -/
  finished : List (String × Nat) := []
  /-- The missing parents met so far, the earliest first. -/
  dangling : List DanglingParent := []
deriving DecidableEq, Repr

namespace Walk

/-- The glyphs entered and not yet left, the present one first. -/
def path (w : Walk) : List String := w.stack.filterMap Task.leaves?

/-- Whether a glyph has been entered. -/
def seen (w : Walk) (id : String) : Bool := w.path.contains id || (w.finished.lookup id).isSome

/-- The cycle closed by coming back to `id`: the path from there on, and `id` again. -/
def cycleTo (w : Walk) (id : String) : List String :=
  id :: ((w.path.takeWhile (· ≠ id)).reverse ++ [id])

/-- The height of a glyph whose parents have been left: one more than the greatest height among
its parents, zero without parents. -/
def heightOf (w : Walk) (parents : List String) : Nat :=
  (parents.filterMap fun p => (w.finished.lookup p).map (· + 1)).foldl max 0

end Walk

end Lineage

open Lineage

namespace Registry

variable (r : Registry)

/-- Enters a glyph that has not been seen. -/
def enterGlyph (w : Walk) (g : Glyph) (generation : Nat) (rest : List Task) : Walk where
  stack := (r.knownParents g).map (Task.enter · (generation + 1)) ++ .leave g.id :: rest
  finished := w.finished
  dangling := w.dangling ++ r.danglingParents g

/-- Does the task of entering a glyph; `w` is the state without that task. -/
def enterStep (limit : Nat) (w : Walk) (id : String) (generation : Nat) :
    Except LineageError Walk :=
  if w.path.contains id then .error (.circular id (w.cycleTo id))
  else
    match w.finished.lookup id with
    | some height => if limit < generation + height then .error (.tooDeep id limit) else .ok w
    | none =>
      if limit < generation then .error (.tooDeep id limit)
      else
        match r.get? id with
        | none => .ok w
        | some g => .ok (r.enterGlyph w g generation w.stack)

/-- Does the task of leaving a glyph; `w` is the state without that task. -/
def leaveStep (w : Walk) (id : String) : Walk :=
  let height := match r.get? id with
    | none => 0
    | some g => w.heightOf g.parents
  { w with finished := (id, height) :: w.finished }

/-- Does the next task. -/
def step (limit : Nat) (w : Walk) : Except LineageError Walk :=
  match w.stack with
  | [] => .ok w
  | .enter id generation :: rest => r.enterStep limit { w with stack := rest } id generation
  | .leave id :: rest => .ok (r.leaveStep { w with stack := rest } id)

/-! ## The walk ends -/

/-- How many registered glyphs have not been seen. -/
def unseen (w : Walk) : Nat := r.ids.countP fun id => !w.seen id

end Registry

/-- A predicate that holds less often, and fails at a member where it held, counts less. -/
theorem countP_lt_countP {α : Type} {p q : α → Bool} {l : List α}
    (h : ∀ a ∈ l, p a = true → q a = true) {b : α} (hb : b ∈ l) (hq : q b = true)
    (hp : p b = false) : l.countP p < l.countP q := by
  induction l with
  | nil => cases hb
  | cons a as ih =>
    have hle : as.countP p ≤ as.countP q :=
      List.countP_mono_left fun c hc => h c (List.mem_cons_of_mem _ hc)
    rcases List.mem_cons.1 hb with rfl | hb
    · simp only [List.countP_cons, hp, hq, Bool.false_eq_true, if_false, if_true]
      omega
    · have hlt := ih (fun c hc => h c (List.mem_cons_of_mem _ hc)) hb
      have ha := h a List.mem_cons_self
      simp only [List.countP_cons]
      by_cases hpa : p a = true
      · simp only [hpa, ha hpa, if_true]
        omega
      · rw [if_neg hpa]
        omega

namespace Registry

variable (r : Registry)

/-- A registered id is among the ids. -/
theorem mem_ids_of_get? {r : Registry} {id : String} {g : Glyph} (h : r.get? id = some g) :
    id ∈ r.ids :=
  List.mem_map.2 ⟨g, Keyed.mem_of_find? h, id_of_get? h⟩

/-- The path runs over the tasks put on the stack: only those that leave a glyph count. -/
theorem path_enterGlyph (w : Walk) (g : Glyph) (n : Nat) (rest : List Task) :
    (r.enterGlyph w g n rest).path = g.id :: rest.filterMap Task.leaves? := by
  simp only [enterGlyph, Walk.path, List.filterMap_append, List.filterMap_cons, Task.leaves?]
  suffices h : ((r.knownParents g).map (Task.enter · (n + 1))).filterMap Task.leaves? = [] by
    rw [h, List.nil_append]
  simp [List.filterMap_eq_nil_iff, Task.leaves?]

/-- Being done with a task that enters a glyph leaves the path as it is. -/
theorem seen_pop_enter (w : Walk) (id : String) (n : Nat) (rest : List Task)
    (h : w.stack = .enter id n :: rest) (a : String) :
    ({ w with stack := rest } : Walk).seen a = w.seen a := by
  simp [Walk.seen, Walk.path, h, Task.leaves?]

/-- A step never forgets a glyph. -/
theorem seen_step {limit : Nat} {w w' : Walk} (h : r.step limit w = .ok w') {a : String}
    (ha : w.seen a = true) : w'.seen a = true := by
  unfold step at h
  split at h
  · cases h
    exact ha
  · rename_i id n rest hs
    have ha' := (seen_pop_enter w id n rest hs a).trans ha
    simp only [enterStep] at h
    split at h
    · cases h
    · split at h
      · split at h
        · cases h
        · cases h
          exact ha'
      · split at h
        · cases h
        · split at h
          · cases h
            exact ha'
          · cases h
            simp only [Walk.seen, path_enterGlyph, Bool.or_eq_true] at ha' ⊢
            refine ha'.imp (fun hp => ?_) fun hf => hf
            simp only [List.contains_cons, Bool.or_eq_true]
            exact .inr hp
  · rename_i id rest hs
    cases h
    simp only [Walk.seen, Walk.path, hs, leaveStep, List.filterMap_cons, Task.leaves?,
      List.contains_cons, List.lookup_cons, Bool.or_eq_true] at ha ⊢
    grind

/-- A step sees a registered glyph for the first time, or else shortens the stack. -/
theorem unseen_step {limit : Nat} {w w' : Walk} (hne : w.stack ≠ [])
    (h : r.step limit w = .ok w') :
    r.unseen w' < r.unseen w ∨ r.unseen w' ≤ r.unseen w ∧ w'.stack.length < w.stack.length := by
  have hmono : r.unseen w' ≤ r.unseen w := by
    refine List.countP_mono_left fun a _ hna => ?_
    cases hw : w.seen a with
    | false => rfl
    | true => simp [r.seen_step h hw] at hna
  have hstep := h
  unfold step at h
  split at h
  · exact absurd ‹_› hne
  · rename_i id n rest hs
    simp only [enterStep] at h
    split at h
    · cases h
    · rename_i hpath
      split at h
      · split at h
        · cases h
        · cases h
          exact .inr ⟨hmono, by simp [hs]⟩
      · rename_i hfin
        split at h
        · cases h
        · split at h
          · cases h
            exact .inr ⟨hmono, by simp [hs]⟩
          · rename_i g hg
            cases h
            refine .inl (countP_lt_countP (b := id) (fun a _ hna => ?_) (mem_ids_of_get? hg) ?_ ?_)
            · cases hw : w.seen a with
              | false => rfl
              | true => simp [r.seen_step hstep hw] at hna
            · have hnot : w.seen id = false := by
                rw [← seen_pop_enter w id n rest hs id]
                simp only [Walk.seen, hfin, Option.isSome_none, Bool.or_false]
                simpa using hpath
              simp [hnot]
            · simp [Walk.seen, path_enterGlyph, id_of_get? hg]
  · rename_i id rest hs
    cases h
    exact .inr ⟨hmono, by simp [leaveStep, hs]⟩

set_option linter.unusedVariables false in
/-- Does all tasks. -/
def walk (limit : Nat) (w : Walk) : Except LineageError Walk :=
  if hne : w.stack = [] then .ok w
  else
    match h : r.step limit w with
    | .error e => .error e
    | .ok w' => walk limit w'
termination_by (r.unseen w, w.stack.length)
decreasing_by
  have := r.unseen_step hne h
  rw [Prod.lex_def]
  simp only
  omega

/-! ## Lineages -/

/-- The deepest ancestry that is ever allowed. -/
def maxDepth : Nat := 32

/-- The lineage that a finished walk from `id` has found. -/
def lineageOf (id : String) (w : Walk) : Lineage where
  glyphId := id
  ancestors := (w.finished.map Prod.fst).filter (· ≠ id)
  depth := (w.finished.lookup id).getD 0
  dangling := w.dangling

/-- The lineage of a glyph, if no chain of parents has more than `limit` steps, nor more than
are ever allowed. -/
def lineage (limit : Nat) (id : String) : Except LineageError Lineage :=
  if r.contains id then
    (r.walk (min limit maxDepth) { stack := [.enter id 0] }).map (lineageOf id)
  else .error (.unknownGlyph id)

end Registry

end GlyphField
