import GlyphField.Proofs.AncestorOrder
import GlyphField.Proofs.MemoSound

/-!
# GlyphField.Proofs.Locality

What the registry is asked for.  An activation looks up the glyphs that it reaches, and otherwise
asks only whether a name that one of them gives is registered.  So two registries that answer these
questions alike cannot be told apart: the walk along parents, the composition and the scripts are
followed in both of them side by side, task by task and command by command.

* `walk_alike` — walks along parents;
* `activateWithin_alike` — nested activations, with the runs they leave behind;
* `Interpreter.activate_local` — other glyphs may be added, replaced or removed.
-/

namespace GlyphField

open Relation (TransGen)

/-- The glyph that a task of the walk is about. -/
def Lineage.Task.glyph : Task → String
  | .enter id _ => id
  | .leave id => id

namespace Registry

/-! ## what is looked up -/

/-- What an activation of `id` reaches: the glyph, and with each glyph its registered parents and
the registered targets of its script. -/
inductive Supports (r : Registry) (id : String) : String → Prop
  | self : Supports r id id
  | parent {a p : String} (ha : Supports r id a) (hp : r.Inherits a p) : Supports r id p
  | target {a y : String} (ha : Supports r id a) (hy : r.Entangles a y)
    (hreg : r.contains y = true) : Supports r id y

/-- The registered glyph `a` names `x`, registered or not, as a parent or in its script. -/
def Names (r : Registry) (a x : String) : Prop :=
  (∃ g, r.get? a = some g ∧ x ∈ g.parents) ∨ r.Entangles a x

/-- What an activation of `id` asks the registry for. -/
def Consults (r : Registry) (id x : String) : Prop :=
  r.Supports id x ∨ ∃ a, r.Supports id a ∧ r.Names a x

/-- Registries that answer alike whatever is asked about the ids in `S`, which lead to no others. -/
structure Alike (r r' : Registry) (S : String → Prop) : Prop where
  get? : ∀ a, S a → r'.get? a = r.get? a
  contains : ∀ a x, S a → r.Names a x → r'.contains x = r.contains x
  parent : ∀ a p, S a → r.Inherits a p → S p
  target : ∀ a y, S a → r.Entangles a y → r.contains y = true → S y

theorem alike_supports {r r' : Registry} {id : String}
    (h : ∀ x, r.Consults id x → r'.get? x = r.get? x) : Alike r r' (r.Supports id) where
  get? := fun a ha => h a (.inl ha)
  contains := by
    intro a x ha hx
    rw [contains, contains, h x (.inr ⟨a, ha, hx⟩)]
  parent := fun _ _ ha hp => ha.parent hp
  target := fun _ _ ha hy hreg => ha.target hy hreg

/-! ## lineages -/

section Lineages

open Lineage

variable {r r' : Registry} {S : String → Prop} {limit : Nat} {id : String}

/-- The tasks of a walk are about ids in `S`. -/
def TasksIn (S : String → Prop) (w : Walk) : Prop := ∀ task ∈ w.stack, S task.glyph

theorem enterGlyph_alike {a : String} {g : Glyph} {w : Walk} {n : Nat} {rest : List Task}
    (h : Alike r r' S) (ha : S a) (hg : r.get? a = some g) :
    r'.enterGlyph w g n rest = r.enterGlyph w g n rest := by
  have hparent (p : String) (hp : p ∈ g.parents) : r'.contains p = r.contains p :=
    h.contains a p ha (.inl ⟨g, hg, hp⟩)
  have hknown : r'.knownParents g = r.knownParents g := List.filter_congr hparent
  have hdangling : r'.danglingParents g = r.danglingParents g := by
    have hfilter : (g.parents.filter fun p => !r'.contains p) =
        g.parents.filter fun p => !r.contains p :=
      List.filter_congr fun p hp => by rw [hparent p hp]
    rw [danglingParents, danglingParents, hfilter]
  rw [enterGlyph, enterGlyph, hknown, hdangling]

theorem step_alike {w : Walk} (h : Alike r r' S) (hw : TasksIn S w) :
    r'.step limit w = r.step limit w := by
  unfold step
  split
  · rfl
  · next a n rest hstack =>
    have ha : S a := hw (.enter a n) (by rw [hstack]; exact List.mem_cons_self)
    unfold enterStep
    rw [h.get? a ha]
    cases hg : r.get? a with
    | none => rfl
    | some g => simp only [enterGlyph_alike h ha hg]
  · next a rest hstack =>
    have ha : S a := hw (.leave a) (by rw [hstack]; exact List.mem_cons_self)
    rw [leaveStep, leaveStep, h.get? a ha]

/-- A turn leaves tasks of the glyph at hand, of its known parents and those there were. -/
theorem TasksIn.step {w w' : Walk} (h : Alike r r' S) (hw : TasksIn S w)
    (hs : r.step limit w = .ok w') : TasksIn S w' := by
  unfold Registry.step at hs
  split at hs
  · cases hs
    exact hw
  · next a n rest hstack =>
    have ha : S a := hw (.enter a n) (by rw [hstack]; exact List.mem_cons_self)
    have hrest : TasksIn S { w with stack := rest } := fun task ht =>
      hw task (by rw [hstack]; exact List.mem_cons_of_mem _ ht)
    obtain ⟨-, ⟨-, rfl⟩ | ⟨-, -, ⟨-, rfl⟩ | ⟨g, hg, rfl⟩⟩⟩ := enterStep_eq_ok hs
    · exact hrest
    · exact hrest
    · intro task ht
      obtain ht | ht := List.mem_append.1 ht
      · obtain ⟨p, hp, rfl⟩ := List.mem_map.1 ht
        exact h.parent a p ha ((mem_knownParents hg).1 hp)
      · obtain rfl | ht := List.mem_cons.1 ht
        · rw [Task.glyph, id_of_get? hg]
          exact ha
        · exact hrest task ht
  · next a rest hstack =>
    cases hs
    exact fun task ht => hw task (by rw [hstack]; exact List.mem_cons_of_mem _ ht)

/-- **Walks** along parents from ids in `S` are the same. -/
theorem walk_alike {w : Walk} (h : Alike r r' S) (hw : TasksIn S w) :
    r'.walk limit w = r.walk limit w := by
  induction w using Registry.walk.induct r limit with
  | case1 w hstack => rw [walk_of_done hstack, walk_of_done hstack]
  | case2 w hstack e hs =>
      rw [walk_of_step_error hstack hs, walk_of_step_error hstack (step_alike h hw ▸ hs)]
  | case3 w hstack w' hs ih =>
      rw [walk_of_step_ok hstack hs, walk_of_step_ok hstack ((step_alike h hw).trans hs)]
      exact ih (hw.step h hs)

theorem contains_alike (h : Alike r r' S) (hid : S id) : r'.contains id = r.contains id := by
  rw [contains, contains, h.get? id hid]

theorem lineage_alike (h : Alike r r' S) (hid : S id) :
    r'.lineage limit id = r.lineage limit id := by
  have hstart : TasksIn S { stack := [.enter id 0] } := by
    intro task ht
    obtain rfl := List.mem_singleton.1 ht
    exact hid
  rw [lineage, lineage, contains_alike h hid, walk_alike h hstart]

/-- The ids of a lineage are in `S`, so they contribute the same. -/
theorem compose_alike {l : Lineage} (h : Alike r r' S) (hid : S id)
    (hl : r.lineage limit id = .ok l) : r'.compose l = r.compose l := by
  have hancestor (a : String) (ha : TransGen r.Inherits id a) : S a := by
    induction ha with
    | single hp => exact h.parent _ _ hid hp
    | tail _ hp ih => exact h.parent _ _ ih hp
  have hmem : ∀ a ∈ l.compositionOrder, r'.get? a = r.get? a := by
    intro a ha
    rw [Lineage.compositionOrder, glyphId_of_lineage hl] at ha
    obtain ha | ha := List.mem_append.1 ha
    · exact h.get? a (hancestor a ((mem_ancestors_iff hl).1 (List.mem_reverse.1 ha)))
    · exact h.get? a (List.mem_singleton.1 ha ▸ hid)
  rw [compose, compose, List.filterMap_congr hmem]

end Lineages

/-! ## activations -/

section Activations

variable {r r' : Registry} {S : String → Prop} {settings : ActivationSettings} {id : String}
  {g : Glyph} {activate activate' : Activate}

theorem targetId_alike {t : Target} (h : Alike r r' S) (hid : S id) (hg : r.get? id = some g)
    (ht : .entangle t ∈ g.commands) : r'.targetId g t = r.targetId g t := by
  unfold targetId
  cases hy : g.targetName t with
  | error e => rfl
  | ok y =>
      have hcontains : r'.contains y = r.contains y :=
        h.contains id y hid (.inr ⟨g, t, hg, ht, hy⟩)
      simp only [Except.bind, hcontains]

/-- A command asks for its target and activates it, which is in `S` then. -/
theorem runCommand_alike {coefficient : Float} {p : Progress} {c : Command} {run : Run}
    (h : Alike r r' S) (hid : S id) (hg : r.get? id = some g)
    (hact : ∀ y run, S y → activate' y run = activate y run) (hc : c ∈ g.commands) :
    Worker.runCommand ⟨settings, r', g, coefficient, activate'⟩ p c run =
      Worker.runCommand ⟨settings, r, g, coefficient, activate⟩ p c run := by
  cases c with
  | entangle t =>
      simp only [Worker.runCommand, targetId_alike h hid hg hc]
      cases ht : r.targetId g t with
      | error e => rfl
      | ok y =>
          obtain ⟨hy, hreg⟩ := targetId_eq_ok_iff.1 ht
          have hS : S y := h.target id y hid ⟨g, t, hg, hc, hy⟩ hreg
          simp only [hact y run hS]
  | _ => rfl

theorem runCommands_alike {coefficient : Float} {p : Progress} {cs : List Command} {run : Run}
    (h : Alike r r' S) (hid : S id) (hg : r.get? id = some g)
    (hact : ∀ y run, S y → activate' y run = activate y run) (hcs : ∀ c ∈ cs, c ∈ g.commands) :
    Worker.runCommands ⟨settings, r', g, coefficient, activate'⟩ p run cs =
      Worker.runCommands ⟨settings, r, g, coefficient, activate⟩ p run cs := by
  induction cs generalizing p run with
  | nil => rfl
  | cons c cs ih =>
      obtain ⟨hc, hcs⟩ := List.forall_mem_cons.1 hcs
      simp only [Worker.runCommands, runCommand_alike h hid hg hact hc]
      split
      · rfl
      · exact ih hcs

theorem activateNew_alike {run : Run} (h : Alike r r' S) (hid : S id)
    (hact : ∀ y run, S y → activate' y run = activate y run) :
    r'.activateNew settings activate' id run = r.activateNew settings activate id run := by
  unfold activateNew
  rw [lineage_alike h hid, h.get? id hid]
  cases hl : r.lineage settings.maxDepth id with
  | error e => rfl
  | ok l =>
      cases hg : r.get? id with
      | none => rfl
      | some g =>
          simp only [compose_alike h hid hl, runCommands_alike h hid hg hact fun _ hc => hc]

/-- **Nested activations** of ids in `S` are the same, by induction on the levels left. -/
theorem activateWithin_alike (h : Alike r r' S) (levels : Nat) (path : List String) (run : Run)
    (hid : S id) :
    r'.activateWithin settings levels path id run =
      r.activateWithin settings levels path id run := by
  induction levels generalizing path id run with
  | zero => rfl
  | succ levels ih =>
      have hact (y : String) (run : Run) (hy : S y) :
          r'.activateWithin settings levels (id :: path) y run =
            r.activateWithin settings levels (id :: path) y run := ih (id :: path) run hy
      rw [activateWithin, activateWithin, activateNew_alike h hid hact]

theorem activate_alike (h : Alike r r' S) (hid : S id) :
    r'.activate settings id = r.activate settings id := by
  rw [activate, activate, activateWithin_alike h _ _ _ hid]

end Activations

end Registry

namespace Interpreter

/-- With this registry in place of its own, an interpreter activates the glyph with the same result
and the same steps, and the glyph has the same lineage under every limit. -/
structure Unmoved (i : Interpreter) (r' : Registry) (id : String) : Prop where
  result : ({ i with registry := r' }.activate id).1 = (i.activate id).1
  steps : { i with registry := r' }.steps id = i.steps id
  trace : ({ i with registry := r' }.activate id).2.trace = (i.activate id).2.trace
  lineage : ∀ limit, r'.lineage limit id = i.registry.lineage limit id

theorem unmoved_of_get? {i : Interpreter} {r' : Registry} {id : String}
    (h : ∀ x, i.registry.Consults id x → r'.get? x = i.registry.get? x) : i.Unmoved r' id := by
  have halike := Registry.alike_supports h
  have hrun : r'.activate i.settings id = i.registry.activate i.settings id :=
    Registry.activate_alike halike .self
  constructor
  · simp only [activate, hrun]
  · simp only [steps, hrun]
  · simp only [activate, hrun]
  · exact fun limit => Registry.lineage_alike halike .self

/-- **An activation is local.**  It is the same in every registry that has the same under all ids
that the glyph supports and those that are named there; so is the lineage of the glyph.  Adding,
replacing or removing any other glyph changes nothing. -/
theorem activate_local (i : Interpreter) (id : String) :
    (∀ r', (∀ x, i.registry.Consults id x → r'.get? x = i.registry.get? x) → i.Unmoved r' id) ∧
    (∀ g old r', i.registry.insert g = .ok (old, r') → ¬i.registry.Consults id g.id →
      i.Unmoved r' id) ∧
    ∀ a, ¬i.registry.Consults id a → i.Unmoved (i.registry.erase a) id := by
  refine ⟨fun r' => unmoved_of_get?, fun g old r' hr' hg => ?_, fun a ha => ?_⟩
  · refine unmoved_of_get? fun x hx => ?_
    have hne : g.id ≠ x := by
      rintro rfl
      exact hg hx
    rw [Registry.get?_insert hr', if_neg hne]
  · refine unmoved_of_get? fun x hx => ?_
    have hne : x ≠ a := by
      rintro rfl
      exact ha hx
    rw [Registry.get?_erase, if_neg hne]

/-- Two glyphs that have to do with each other, and one that is its own parent. -/
def islands : Registry where
  glyphs := [{ id := "a", parents := ["a"] },
    { id := "b", parents := ["x"], script := "entangle(c)" }, { id := "c" }]
  sorted := by
    unfold Keyed.Sorted
    decide
  length_le := by decide

theorem names_islands {a x : String} (ha : a = "b" ∨ a = "c") (hx : islands.Names a x) :
    a = "b" ∧ (x = "x" ∨ x = "c") := by
  have hb : Glyph.commands { id := "b", parents := ["x"], script := "entangle(c)" } =
      [.entangle (.glyph "c")] := by decide +kernel
  have hc : Glyph.commands { id := "c" } = [] := by decide +kernel
  obtain rfl | rfl := ha
  · obtain ⟨g, ⟨⟩, hmem⟩ | ⟨g, t, ⟨⟩, ht, hy⟩ := hx
    · exact ⟨rfl, .inl (List.mem_singleton.1 hmem)⟩
    · rw [hb, List.mem_singleton, Command.entangle.injEq] at ht
      rw [ht] at hy
      cases hy
      exact ⟨rfl, .inr rfl⟩
  · obtain ⟨g, ⟨⟩, hmem⟩ | ⟨g, t, ⟨⟩, ht, hy⟩ := hx
    · cases hmem
    · rw [hc] at ht
      cases ht

theorem consults_islands {x : String} (h : islands.Consults "b" x) :
    x = "b" ∨ x = "c" ∨ x = "x" := by
  have hsupports (a : String) (ha : islands.Supports "b" a) : a = "b" ∨ a = "c" := by
    induction ha with
    | self => exact .inl rfl
    | parent _ hp ih =>
        obtain ⟨g, hg, hmem, hreg⟩ := hp
        obtain ⟨-, rfl | rfl⟩ := names_islands ih (.inl ⟨g, hg, hmem⟩)
        · exact absurd hreg (by decide)
        · exact .inr rfl
    | target _ hy hreg ih =>
        obtain ⟨-, rfl | rfl⟩ := names_islands ih (.inr hy)
        · exact absurd hreg (by decide)
        · exact .inr rfl
  obtain hx | ⟨a, ha, hx⟩ := h
  · obtain rfl | rfl := hsupports x hx
    · exact .inl rfl
    · exact .inr (.inl rfl)
  · obtain ⟨-, rfl | rfl⟩ := names_islands (hsupports a ha) hx
    · exact .inr (.inr rfl)
    · exact .inr (.inl rfl)

theorem islands_unmoved : ¬islands.Consults "b" "a" ∧
    (new islands).Unmoved (islands.erase "a") "b" ∧
    ∃ old r', islands.insert { id := "a", script := "entangle(b)" } = .ok (old, r') ∧
      (new islands).Unmoved r' "b" := by
  have ha : ¬islands.Consults "b" "a" := by
    intro h
    have hconsulted := consults_islands h
    revert hconsulted
    decide
  obtain ⟨-, hinsert, herase⟩ := activate_local (new islands) "b"
  exact ⟨ha, herase "a" ha, _, _, rfl, hinsert { id := "a", script := "entangle(b)" } _ _ rfl ha⟩

end Interpreter

end GlyphField
