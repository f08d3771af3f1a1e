import GlyphField.Proofs.ActivationLimit
import GlyphField.Proofs.AncestorOrder
import Mathlib.Data.List.TakeWhile

/-!
# GlyphField.Proofs.StepListing

The listing of an activation: what its steps are to be, read off the registry alone.  A glyph lists
its composition and then its commands in order, each with the state after it; before the step of an
entanglement stands the whole listing of the target, unless the target has been listed already.
States are those of a replay, so that the listing knows of no table.

A listing does not stop at a command that fails, but says of each step whether it can be done.
What a run records is the listing up to the first step that cannot.

* `Registry.listing` — the listing, and how a glyph is found in it;
* `Registry.done_of_replay`, `Registry.replay_of_done` — all of it can be done exactly where a
  replay succeeds;
* `records_activateWithin`, `records_activate` — a run records its listing, also one that fails.
-/

namespace GlyphField

open Relation (ReflTransGen)

/-! ## listings -/

/-- A step of a listing, and whether it can be done. -/
structure Listed where
  step : Step
  done : Bool
deriving DecidableEq

/-- Steps in order, and the glyphs that have been listed by their end, the latest first. -/
structure Listing where
  entries : List Listed
  ids : List String
deriving DecidableEq

/-- The steps up to the first one that cannot be done. -/
def doneSteps (es : List Listed) : List Step := (es.takeWhile Listed.done).map Listed.step

namespace Glyph

/-- What a command lists before its own step: the glyph it entangles this one with. `list` lists a
glyph behind those that have been listed. -/
def listTarget (g : Glyph) (list : List String → String → Listing) (ids : List String) :
    Command → Listing
  | .entangle t =>
    match g.targetName t with
    | .error _ => ⟨[], ids⟩
    | .ok y => list ids y
  | _ => ⟨[], ids⟩

/-- Lists commands from a state on. A command that fails leaves the state as it is. -/
def listCommands (g : Glyph) (list : List String → String → Listing)
    (after : FieldState → Command → Except ActivationError FieldState) (ids : List String)
    (s : FieldState) : List Command → Listing
  | [] => ⟨[], ids⟩
  | c :: cs =>
    let first := g.listTarget list ids c
    let s' := (after s c).toOption.getD s
    let rest := g.listCommands list after first.ids s' cs
    ⟨first.entries ++ ⟨⟨g.id, c.label, s'⟩, (after s c).isOk⟩ :: rest.entries, rest.ids⟩

end Glyph

namespace Registry

/-- Lists a glyph of this lineage: its composition, then its commands. -/
def listGlyph (settings : ActivationSettings) (r : Registry)
    (list : List String → String → Listing) (path ids : List String) (l : Lineage) (g : Glyph) :
    Listing :=
  let c := r.compose l
  let activate := r.replay settings (g.id :: path)
  let body := g.listCommands list (r.replayCommand settings g c.coefficient activate) ids c.state
    g.commands
  ⟨⟨⟨g.id, "compose", c.state⟩, true⟩ :: body.entries, g.id :: body.ids⟩

/-- Lists a glyph behind the glyphs `ids`, if it is none of them. The glyphs of the path are being
listed, the latest first. A glyph that cannot be composed has no steps. -/
def listing (settings : ActivationSettings) (r : Registry) (path ids : List String)
    (id : String) : Listing :=
  if id ∈ path ∨ id ∈ ids then ⟨[], ids⟩
  else if _h : settings.maxDepth < path.length then ⟨[], ids⟩
  else
    match r.lineage settings.maxDepth id, r.get? id with
    | .ok l, some g =>
      r.listGlyph settings (fun ids target => r.listing settings (id :: path) ids target) path ids
        l g
    | _, _ => ⟨[], ids⟩
termination_by settings.maxDepth + 1 - path.length
decreasing_by
  simp only [List.length_cons]
  omega

section Laws

variable {settings : ActivationSettings} {r : Registry} {path ids : List String} {id : String}

theorem listing_of_mem (h : id ∈ path ∨ id ∈ ids) :
    r.listing settings path ids id = ⟨[], ids⟩ := by
  rw [listing, if_pos h]

theorem listing_of_long (h : settings.maxDepth < path.length) :
    r.listing settings path ids id = ⟨[], ids⟩ := by
  rw [listing]
  split
  next => rfl
  next => rfl

theorem listing_of_lineage_error {e : LineageError}
    (hl : r.lineage settings.maxDepth id = .error e) :
    r.listing settings path ids id = ⟨[], ids⟩ := by
  rw [listing, hl]
  split
  · rfl
  · split <;> rfl

theorem listing_of_not_contains (h : ¬r.contains id = true) :
    r.listing settings path ids id = ⟨[], ids⟩ := by
  cases hl : r.lineage settings.maxDepth id with
  | error e => exact listing_of_lineage_error hl
  | ok l => exact absurd (lineage_eq_ok_iff.1 hl).1 h

theorem listing_of_lineage_ok {l : Lineage} {g : Glyph} (hpath : id ∉ path) (hids : id ∉ ids)
    (hlen : path.length ≤ settings.maxDepth) (hl : r.lineage settings.maxDepth id = .ok l)
    (hg : r.get? id = some g) :
    r.listing settings path ids id =
      r.listGlyph settings (r.listing settings (id :: path)) path ids l g := by
  rw [listing, if_neg (not_or.2 ⟨hpath, hids⟩), dif_neg (Nat.not_lt_of_le hlen), hl, hg]

/-- A glyph has no steps, or it is new and lists its own. -/
theorem listing_cases (settings : ActivationSettings) (r : Registry) (path ids : List String)
    (id : String) : r.listing settings path ids id = ⟨[], ids⟩ ∨
      id ∉ path ∧ id ∉ ids ∧ path.length ≤ settings.maxDepth ∧
        ∃ l g, r.lineage settings.maxDepth id = .ok l ∧ r.get? id = some g ∧
          r.listing settings path ids id =
            r.listGlyph settings (r.listing settings (id :: path)) path ids l g := by
  by_cases hmem : id ∈ path ∨ id ∈ ids
  · exact .inl (listing_of_mem hmem)
  by_cases hlong : settings.maxDepth < path.length
  · exact .inl (listing_of_long hlong)
  cases hl : r.lineage settings.maxDepth id with
  | error e => exact .inl (listing_of_lineage_error hl)
  | ok l =>
      obtain ⟨g, hg⟩ := Option.isSome_iff_exists.1 (lineage_eq_ok_iff.1 hl).1
      obtain ⟨hpath, hids⟩ := not_or.1 hmem
      have hlen := Nat.le_of_not_lt hlong
      exact .inr ⟨hpath, hids, hlen, l, g, rfl, hg, listing_of_lineage_ok hpath hids hlen hl hg⟩

end Laws

end Registry

/-! ## what can be done -/

section DoneSteps

variable {es fs : List Listed} {e : Listed}

@[simp] theorem doneSteps_nil : doneSteps [] = [] := rfl

theorem doneSteps_of_all (h : ∀ e ∈ es, e.done = true) : doneSteps es = es.map Listed.step := by
  rw [doneSteps, List.takeWhile_eq_self_iff.2 h]

theorem doneSteps_cons (h : e.done = true) : doneSteps (e :: fs) = e.step :: doneSteps fs := by
  rw [doneSteps, List.takeWhile_cons_of_pos h]
  rfl

theorem doneSteps_append (h : ∀ e ∈ es, e.done = true) :
    doneSteps (es ++ fs) = doneSteps es ++ doneSteps fs := by
  rw [doneSteps, List.takeWhile_append_of_pos h, List.map_append, doneSteps_of_all h]
  rfl

/-- Nothing is done from a step on that cannot be done. -/
theorem doneSteps_stop (h : e.done = false) : doneSteps (es ++ e :: fs) = doneSteps es := by
  have hstop : List.takeWhile Listed.done (e :: fs) = [] :=
    List.takeWhile_cons_of_neg (by rw [h]; decide)
  rw [doneSteps, List.takeWhile_append, hstop, List.append_nil]
  split
  next hlen =>
    have hall := (List.takeWhile_prefix Listed.done).eq_of_length hlen
    rw [doneSteps, hall]
  next => rfl

theorem doneSteps_isPrefix (es : List Listed) : doneSteps es <+: es.map Listed.step :=
  (List.takeWhile_prefix Listed.done).map Listed.step

/-- If not everything can be done there is a first step that cannot. -/
theorem exists_first_failing (h : ¬∀ e ∈ es, e.done = true) :
    ∃ before failing after, es = before ++ failing :: after ∧
      (∀ e ∈ before, e.done = true) ∧ failing.done = false := by
  obtain ⟨e, he, hfail⟩ : ∃ e ∈ es, ¬e.done = true := by
    by_contra hall
    exact h fun e he => by_contra fun hfail => hall ⟨e, he, hfail⟩
  have hsome : (es.find? fun e => !e.done).isSome = true :=
    List.find?_isSome.2 ⟨e, he, by simpa using hfail⟩
  obtain ⟨failing, hfind⟩ := Option.isSome_iff_exists.1 hsome
  obtain ⟨hfailing, before, after, heq, hbefore⟩ := List.find?_eq_some_iff_append.1 hfind
  refine ⟨before, failing, after, heq, fun e he => ?_, by simpa using hfailing⟩
  simpa using hbefore e he

theorem doneSteps_append_of_not_all (h : ¬∀ e ∈ es, e.done = true) :
    doneSteps (es ++ fs) = doneSteps es := by
  obtain ⟨before, failing, after, rfl, -, hfailing⟩ := exists_first_failing h
  rw [List.append_assoc, List.cons_append, doneSteps_stop hfailing, doneSteps_stop hfailing]

end DoneSteps

namespace Registry

variable {settings : ActivationSettings} {r : Registry} {path ids : List String} {id : String}
  {g : Glyph} {coefficient : Float} {list : List String → String → Listing}
  {activate : String → Except ActivationError Activation} {s s' : FieldState} {c : Command}
  {cs : List Command}

/-- A command that succeeds has succeeded with its target. -/
theorem done_listTarget (list : List String → String → Listing) (ids : List String)
    (hlist : ∀ y a ids, activate y = .ok a → ∀ e ∈ (list ids y).entries, e.done = true)
    (h : r.replayCommand settings g coefficient activate s c = .ok s') :
    ∀ e ∈ (g.listTarget list ids c).entries, e.done = true := by
  cases c with
  | entangle t =>
      obtain ⟨y, hy, a, ha⟩ := exists_replayCommand_iff.1 ⟨s', h⟩ t rfl
      simp only [Glyph.listTarget, (targetId_eq_ok_iff.1 hy).1]
      exact hlist y a ids ha
  | _ => exact fun e he => absurd he List.not_mem_nil

theorem done_listCommands
    (hlist : ∀ y a ids, activate y = .ok a → ∀ e ∈ (list ids y).entries, e.done = true)
    (h : cs.foldlM (r.replayCommand settings g coefficient activate) s = .ok s') :
    ∀ e ∈ (g.listCommands list (r.replayCommand settings g coefficient activate) ids s cs).entries,
      e.done = true := by
  induction cs generalizing s ids with
  | nil => exact fun e he => absurd he List.not_mem_nil
  | cons c cs ih =>
      rw [List.foldlM_cons] at h
      cases hc : r.replayCommand settings g coefficient activate s c with
      | error e => rw [hc] at h; cases h
      | ok s₁ =>
          rw [hc] at h
          simp only [Glyph.listCommands, hc]
          refine List.forall_mem_append.2 ⟨done_listTarget list ids hlist hc, ?_⟩
          exact List.forall_mem_cons.2 ⟨rfl, ih h⟩

/-- Every step of a glyph can be done if a replay of it succeeds, by induction on how much longer
the path may grow. -/
theorem done_of_replay {a : Activation} (h : r.replay settings path id = .ok a) :
    ∀ e ∈ (r.listing settings path ids id).entries, e.done = true := by
  induction hk : settings.maxDepth + 1 - path.length generalizing path ids id a with
  | zero =>
      have hlen := (replay_eq_ok_iff.1 h).2.1
      omega
  | succ k ih =>
      obtain hnone | ⟨hid, -, hlen, l, g, hl, hg, hlisting⟩ := listing_cases settings r path ids id
      · rw [hnone]
        exact fun e he => absurd he List.not_mem_nil
      · obtain ⟨-, -, l', g', s, hl', hg', hs, -⟩ := replay_eq_ok_iff.1 h
        cases hl.symm.trans hl'
        cases hg.symm.trans hg'
        rw [hlisting, listGlyph, id_of_get? hg]
        refine List.forall_mem_cons.2 ⟨rfl, done_listCommands (fun y b ids hb => ?_) hs⟩
        exact ih hb (by rw [List.length_cons]; omega)

/-- A command of a glyph that succeeds has all of its target done. -/
theorem done_target (ids : List String)
    (h : r.replayCommand settings g coefficient (r.replay settings path) s c = .ok s') :
    ∀ e ∈ (g.listTarget (r.listing settings path) ids c).entries, e.done = true :=
  done_listTarget _ ids (fun _ _ _ ha => done_of_replay ha) h

/-- Commands whose steps can be done succeed. -/
theorem exists_of_done_listCommands
    {after : FieldState → Command → Except ActivationError FieldState}
    (h : ∀ e ∈ (g.listCommands list after ids s cs).entries, e.done = true) :
    ∃ s', cs.foldlM after s = .ok s' := by
  induction cs generalizing s ids with
  | nil => exact ⟨s, rfl⟩
  | cons c cs ih =>
      simp only [Glyph.listCommands] at h
      obtain ⟨-, hrest⟩ := List.forall_mem_append.1 h
      obtain ⟨hdone, hrest⟩ := List.forall_mem_cons.1 hrest
      cases hc : after s c with
      | error e =>
          rw [hc] at hdone
          cases hdone
      | ok s₁ =>
          rw [hc] at hrest
          rw [List.foldlM_cons, hc]
          exact ih hrest

/-- A replay succeeds if the glyph has steps and all of them can be done. -/
theorem replay_of_done (hsteps : (r.listing settings path ids id).entries ≠ [])
    (h : ∀ e ∈ (r.listing settings path ids id).entries, e.done = true) :
    ∃ a, r.replay settings path id = .ok a := by
  obtain hnone | ⟨hid, -, hlen, l, g, hl, hg, hlisting⟩ := listing_cases settings r path ids id
  · rw [hnone] at hsteps
    exact absurd rfl hsteps
  · rw [hlisting, listGlyph, id_of_get? hg] at h
    obtain ⟨s, hs⟩ := exists_of_done_listCommands (List.forall_mem_cons.1 h).2
    exact ⟨_, replay_eq_ok_iff.2 ⟨hid, hlen, l, g, s, hl, hg, hs, rfl⟩⟩

end Registry

/-! ## what a run records -/

/-- The glyphs that have been activated, the latest first. -/
def Run.ids (run : Run) : List String := run.finished.map Prod.fst

/-- A part of a run records a listing up to the first step that cannot be done. If it succeeds, the
glyphs activated by then are those that the listing says. -/
structure Records {α : Type} (run : Run) (l : Listing) (out : Outcome α) : Prop where
  steps_eq : out.2.steps.toList = run.steps.toList ++ doneSteps l.entries
  ids_eq : ∀ a, out.1 = .ok a → out.2.ids = l.ids

section Records

variable {settings : ActivationSettings} {r : Registry} {path : List String} {id : String}
  {run : Run} {p : Progress} {activate : Activate}

theorem records_nothing {α : Type} (run : Run) (x : Except ActivationError α) :
    Records run ⟨[], run.ids⟩ (x, run) where
  steps_eq := (List.append_nil _).symm
  ids_eq := fun _ _ => rfl

theorem Run.isSome_find?_iff : (run.find? id).isSome = true ↔ id ∈ run.ids :=
  Lineage.isSome_lookup_iff

/-- Before its own step a command records its target. -/
theorem records_runCommand (g : Glyph) (coefficient : Float)
    (hrec : ∀ y, Records run (r.listing settings (id :: path) run.ids y) (activate y run))
    (c : Command) :
    Records run (g.listTarget (r.listing settings (id :: path)) run.ids c)
      (Worker.runCommand ⟨settings, r, g, coefficient, activate⟩ p c run) := by
  cases c with
  | entangle t =>
      simp only [Worker.runCommand, Glyph.listTarget]
      cases hy : r.targetId g t with
      | error e =>
          cases hname : g.targetName t with
          | error e' => exact records_nothing run _
          | ok y =>
              have hmissing : ¬r.contains y = true := by
                intro hreg
                rw [Registry.targetId_eq_ok_iff.2 ⟨hname, hreg⟩] at hy
                cases hy
              simp only [Registry.listing_of_not_contains hmissing]
              exact records_nothing run _
      | ok y =>
          simp only [(Registry.targetId_eq_ok_iff.1 hy).1]
          have htarget := hrec y
          generalize activate y run = out at htarget ⊢
          obtain ⟨e | f, run'⟩ := out
          · exact ⟨htarget.steps_eq, fun _ h => by cases h⟩
          · exact ⟨htarget.steps_eq, fun _ _ => htarget.ids_eq f rfl⟩
  | _ => exact records_nothing run _

/-- Commands record their listing: each adds what its target records and, unless it fails, its own
step. -/
theorem records_runCommands (g : Glyph) (coefficient : Float)
    (hs : Sound settings r (id :: path) activate)
    (hrec : ∀ y run, Table settings r (id :: path) run →
      Records run (r.listing settings (id :: path) run.ids y) (activate y run))
    (ht : Table settings r (id :: path) run) (hfits : path.length + p.height ≤ settings.maxDepth)
    (cs : List Command) :
    Records run
      (g.listCommands (r.listing settings (id :: path))
        (r.replayCommand settings g coefficient (r.replay settings (id :: path))) run.ids p.state
        cs)
      (Worker.runCommands ⟨settings, r, g, coefficient, activate⟩ p run cs) := by
  induction cs generalizing p run with
  | nil => exact records_nothing run _
  | cons c cs ih =>
      have hc := agrees_runCommand g coefficient hs ht hfits c
      have hfirst := records_runCommand (p := p) g coefficient (fun y => hrec y run ht) c
      simp only [Worker.runCommands, Glyph.listCommands]
      generalize Worker.runCommand _ p c run = out at hc hfirst ⊢
      cases hc with
      | @ok p₁ run₁ h =>
          have hafter := h.replay_eq_ok
          rw [Registry.replayCommands_singleton] at hafter
          have htarget := Registry.done_target run.ids hafter
          have hrecord := h.record g.id c.label p₁.state
          have hrest := ih hrecord.table hrecord.fits
          rw [hafter, ← hfirst.ids_eq p₁ rfl]
          refine ⟨?_, hrest.ids_eq⟩
          have hsteps : run₁.steps.toList = run.steps.toList ++ doneSteps _ := hfirst.steps_eq
          rw [hrest.steps_eq, doneSteps_append htarget, doneSteps_cons rfl]
          simp only [Run.record, Array.toList_push, hsteps, List.append_assoc,
            List.singleton_append]
          rfl
      | error he hsame =>
          rw [Registry.replayCommands_singleton] at he
          refine ⟨?_, fun _ h => by cases h⟩
          simp only [he]
          rw [doneSteps_stop rfl]
          exact hfirst.steps_eq

theorem records_activateNew (hs : Sound settings r (id :: path) activate)
    (hrec : ∀ y run, Table settings r (id :: path) run →
      Records run (r.listing settings (id :: path) run.ids y) (activate y run))
    (ht : Table settings r path run) (hid : id ∉ path) (hnew : run.find? id = none)
    (hlen : path.length ≤ settings.maxDepth) :
    Records run (r.listing settings path run.ids id) (r.activateNew settings activate id run) := by
  unfold Registry.activateNew
  cases hl : r.lineage settings.maxDepth id with
  | error e =>
      rw [Registry.listing_of_lineage_error hl]
      exact records_nothing run _
  | ok l =>
      obtain ⟨g, hg⟩ := Option.isSome_iff_exists.1 (Registry.lineage_eq_ok_iff.1 hl).1
      have hids : id ∉ run.ids := by
        rw [← Run.isSome_find?_iff, hnew]
        decide
      rw [Registry.listing_of_lineage_ok hid hids hlen hl hg, Registry.listGlyph,
        Registry.id_of_get? hg]
      simp only [hg]
      have htable := (ht.enter hnew).record id "compose" (r.compose l).state
      have hbody := records_runCommands (p := ⟨(r.compose l).state, 0⟩) g
        (r.compose l).coefficient hs hrec htable hlen g.commands
      generalize Worker.runCommands _ _ _ g.commands = out at hbody ⊢
      have hsteps := hbody.steps_eq
      rw [Run.record, Array.toList_push, List.append_assoc, List.singleton_append,
        ← doneSteps_cons (e := ⟨_, true⟩) rfl] at hsteps
      obtain ⟨e | p, run'⟩ := out
      · exact ⟨hsteps, fun _ h => by cases h⟩
      · exact ⟨hsteps, fun _ _ => congrArg (id :: ·) (hbody.ids_eq p rfl)⟩

end Records

/-- **Nested activations.**  An activation from a path records its listing, by induction on the
levels left. -/
theorem records_activateWithin {settings : ActivationSettings} {r : Registry} {levels : Nat}
    {path : List String} (hlevels : levels + path.length = settings.maxDepth + 1) {run : Run}
    (ht : Table settings r path run) (id : String) :
    Records run (r.listing settings path run.ids id)
      (r.activateWithin settings levels path id run) := by
  induction levels generalizing path id run with
  | zero =>
      rw [Registry.listing_of_long (by omega), Registry.activateWithin]
      split <;> exact records_nothing run _
  | succ levels ih =>
      rw [Registry.activateWithin]
      by_cases hid : id ∈ path
      · rw [if_pos (List.contains_iff_mem.2 hid), Registry.listing_of_mem (.inl hid)]
        exact records_nothing run _
      · rw [if_neg (fun hc => hid (List.contains_iff_mem.1 hc))]
        have hlevels' : levels + (id :: path).length = settings.maxDepth + 1 := by
          rw [List.length_cons]
          omega
        cases hf : run.find? id with
        | none =>
            have hnested := sound_activateWithin settings r levels (id :: path) hlevels'
            have hlen : path.length ≤ settings.maxDepth := by omega
            exact records_activateNew hnested (fun y run ht => ih hlevels' ht y) ht hid hf hlen
        | some f =>
            have hmem : id ∈ run.ids := Run.isSome_find?_iff.1 (by rw [hf, Option.isSome_some])
            rw [Registry.listing_of_mem (.inr hmem)]
            dsimp only
            split <;> exact records_nothing run _

/-! ## whole runs -/

section Activate

variable {settings : ActivationSettings} {r : Registry} {id x : String}

/-- A whole run records the listing of the glyph. -/
theorem records_activate (settings : ActivationSettings) (r : Registry) (id : String) :
    Records {} (r.listing settings [] [] id) (r.activate settings id) := by
  have h : Records {} (r.listing settings [] [] id)
      (r.activateWithin settings (settings.maxDepth + 1) [] id {}) :=
    records_activateWithin rfl (Table.empty settings r) id
  rw [Registry.activate]
  generalize r.activateWithin settings (settings.maxDepth + 1) [] id {} = out at h ⊢
  obtain ⟨e | f, run⟩ := out
  · exact ⟨h.steps_eq, fun _ h => by cases h⟩
  · exact ⟨h.steps_eq, fun _ _ => h.ids_eq f rfl⟩

/-- Whatever a glyph reaches has been activated when its own activation succeeds. -/
theorem mem_ids_of_activate {a : Activation} (h : (r.activate settings id).1 = .ok a)
    (hx : ReflTransGen r.Entangles id x) : x ∈ (r.activate settings id).2.ids := by
  have hagrees := sound_activateWithin settings r (settings.maxDepth + 1) [] rfl id {}
    (Table.empty settings r)
  rw [Registry.activate] at h ⊢
  generalize r.activateWithin settings (settings.maxDepth + 1) [] id {} = out at h hagrees ⊢
  cases hagrees with
  | error => cases h
  | ok hdone =>
      refine Run.isSome_find?_iff.1 (hdone.table.closed_reach ?_ hx)
      rw [hdone.found, Option.isSome_some]

end Activate

end GlyphField
