import GlyphField.Proofs.StepListing
import Mathlib.Data.List.Nodup

/-!
# GlyphField.Proofs.ListedOnce

The steps of one glyph in a listing.  A listing is put together from its parts, a target before the
step that asks for it; since a target is only listed if it has not been, and never while it is being
listed, the steps of a glyph do not come from two parts.  So each glyph has one composition and one
step for each of its commands, and nothing else.

Up to the first step that cannot be done, a glyph has all of its steps, or those up to the first of
its own that cannot be done: a command that fails takes with it the entanglements around it, and
what would come after them.

* `Tidy`, `Part` — what holds of the listing of a glyph, and of a part of it;
* `tidy_listing` — each glyph is listed once and whole;
* `stops_listing` — where the steps of each glyph stop.
-/

namespace GlyphField

open Relation (ReflTransGen)

/-! ## the steps of one glyph -/

/-- The steps of one glyph. -/
def stepsOf (id : String) (steps : List Step) : List Step :=
  steps.filter fun s => s.glyphId = id

/-- The listed steps of one glyph. -/
def entriesOf (id : String) (es : List Listed) : List Listed :=
  es.filter fun e => e.step.glyphId = id

/-- The glyphs that have been composed, in order. -/
def composed (steps : List Step) : List String :=
  (steps.filter fun s => s.operation = "compose").map Step.glyphId

/-- What was done by the steps, in order. -/
def operations (steps : List Step) : List String := steps.map Step.operation

/-- The operations of a glyph that runs to its end. -/
def Glyph.operations (g : Glyph) : List String := "compose" :: g.commands.map Command.label

namespace Listing

/-- The listed steps, those that cannot be done included. -/
def steps (l : Listing) : List Step := l.entries.map Listed.step

/-- The glyphs that have steps in the listing. -/
def glyphs (l : Listing) : List String := l.steps.map Step.glyphId

end Listing

/-- The steps of the registered glyph `id` are its composition and its commands, in order. -/
def Whole (r : Registry) (id : String) (steps : List Step) : Prop :=
  ∃ g, r.get? id = some g ∧ operations (stepsOf id steps) = g.operations

section Steps

variable {id : String} {xs ys : List Step} {s : Step}

theorem stepsOf_append : stepsOf id (xs ++ ys) = stepsOf id xs ++ stepsOf id ys :=
  List.filter_append ..

theorem stepsOf_eq_nil (h : id ∉ xs.map Step.glyphId) : stepsOf id xs = [] := by
  refine List.filter_eq_nil_iff.2 fun s hs => ?_
  have hne : s.glyphId ≠ id := fun heq => h (heq ▸ List.mem_map_of_mem hs)
  simpa using hne

theorem stepsOf_cons_self (h : s.glyphId = id) : stepsOf id (s :: xs) = s :: stepsOf id xs :=
  List.filter_cons_of_pos (by simpa using h)

theorem stepsOf_ne_nil (h : id ∈ xs.map Step.glyphId) : stepsOf id xs ≠ [] := by
  obtain ⟨s, hs, rfl⟩ := List.mem_map.1 h
  exact List.ne_nil_of_mem (List.mem_filter.2 ⟨hs, decide_eq_true rfl⟩)

theorem operations_append : operations (xs ++ ys) = operations xs ++ operations ys :=
  List.map_append

theorem Command.label_ne_compose (c : Command) : c.label ≠ "compose" := by
  intro h
  have hhead := congrArg (fun s => s.toList.head?) h
  cases c <;> simp [label, call, Verb.name] at hhead

/-- A glyph whose steps are whole is composed once. -/
theorem Whole.countP_compose {r : Registry} (h : Whole r id xs) :
    (stepsOf id xs).countP (fun s => s.operation = "compose") = 1 := by
  obtain ⟨g, -, hops⟩ := h
  have hlabels : (g.commands.map Command.label).countP (· = "compose") = 0 := by
    rw [List.countP_map, List.countP_eq_zero]
    exact fun c _ => by simpa using c.label_ne_compose
  have hcount := congrArg (List.countP (· = "compose")) hops
  rw [operations, List.countP_map, Glyph.operations, List.countP_cons_of_pos (by simp),
    hlabels] at hcount
  exact hcount

/-- No glyph is composed twice if the steps of each are whole. -/
theorem nodup_composed {r : Registry} (h : ∀ id ∈ xs.map Step.glyphId, Whole r id xs) :
    (composed xs).Nodup := by
  refine List.nodup_iff_count_le_one.2 fun id => ?_
  have hswap : List.count id (composed xs) =
      (stepsOf id xs).countP fun s => s.operation = "compose" := by
    rw [composed, List.count_eq_countP, List.countP_map, List.countP_filter, stepsOf,
      List.countP_filter]
    refine List.countP_congr fun s _ => ?_
    simp [and_comm]
  rw [hswap]
  by_cases hid : id ∈ xs.map Step.glyphId
  · exact (h id hid).countP_compose.le
  · rw [stepsOf_eq_nil hid]
    decide

end Steps

/-! ## parts of a listing -/

/-- What holds of the listing of the glyph `id` behind the glyphs `ids`: its glyphs are new, they
are reached from `id`, and each of them is listed whole. -/
structure Tidy (r : Registry) (path ids : List String) (id : String) (l : Listing) : Prop where
  mem_ids : ∀ x, x ∈ l.ids ↔ x ∈ ids ∨ x ∈ l.glyphs
  fresh : ∀ x ∈ l.glyphs, x ∉ path ∧ x ∉ ids
  reached : ∀ x ∈ l.glyphs, ReflTransGen r.Entangles id x
  whole : ∀ x ∈ l.glyphs, Whole r x l.steps

/-- What holds of a part of the listing of the glyph `id` that lists the operations `ops` of the
glyph itself. -/
structure Part (r : Registry) (path ids : List String) (id : String) (ops : List String)
    (l : Listing) : Prop where
  mem_ids : ∀ x, x ∈ l.ids ↔ x ∈ ids ∨ x ≠ id ∧ x ∈ l.glyphs
  fresh : ∀ x ∈ l.glyphs, x ≠ id → x ∉ path ∧ x ∉ ids
  reached : ∀ x ∈ l.glyphs, ReflTransGen r.Entangles id x
  whole : ∀ x ∈ l.glyphs, x ≠ id → Whole r x l.steps
  own : operations (stepsOf id l.steps) = ops

section Part

variable {r : Registry} {path ids : List String} {id y : String} {ops ops' : List String}
  {l l' : Listing} {g : Glyph}

theorem Tidy.nil : Tidy r path ids id ⟨[], ids⟩ where
  mem_ids := fun x => by simp [Listing.glyphs, Listing.steps]
  fresh := fun _ hx => absurd hx List.not_mem_nil
  reached := fun _ hx => absurd hx List.not_mem_nil
  whole := fun _ hx => absurd hx List.not_mem_nil

theorem Part.nil : Part r path ids id [] ⟨[], ids⟩ where
  mem_ids := fun x => by simp [Listing.glyphs, Listing.steps]
  fresh := fun _ hx => absurd hx List.not_mem_nil
  reached := fun _ hx => absurd hx List.not_mem_nil
  whole := fun _ hx => absurd hx List.not_mem_nil
  own := rfl

/-- A step of the glyph itself. -/
theorem Part.own_step (operation : String) (s : FieldState) (done : Bool) :
    Part r path ids id [operation] ⟨[⟨⟨id, operation, s⟩, done⟩], ids⟩ where
  mem_ids := fun x => by
    have hself : (Listing.mk [⟨⟨id, operation, s⟩, done⟩] ids).glyphs = [id] := rfl
    rw [hself, List.mem_singleton]
    tauto
  fresh := fun _ hx hne => absurd (List.mem_singleton.1 hx) hne
  reached := fun _ hx => List.mem_singleton.1 hx ▸ .refl
  whole := fun _ hx hne => absurd (List.mem_singleton.1 hx) hne
  own := by
    simp [Listing.steps, stepsOf, operations]

/-- The listing of a target. -/
theorem Tidy.part (h : Tidy r (id :: path) ids y l) (hy : r.Entangles id y) :
    Part r path ids id [] l := by
  have hne : ∀ x ∈ l.glyphs, x ≠ id := fun x hx heq => (h.fresh x hx).1 (by rw [heq]; simp)
  constructor
  · intro x
    rw [h.mem_ids]
    exact or_congr_right ⟨fun hx => ⟨hne x hx, hx⟩, And.right⟩
  · intro x hx _
    exact ⟨fun hmem => (h.fresh x hx).1 (List.mem_cons_of_mem _ hmem), (h.fresh x hx).2⟩
  · exact fun x hx => (h.reached x hx).head hy
  · exact fun x hx _ => h.whole x hx
  · rw [stepsOf_eq_nil fun hid => hne id hid rfl]
    rfl

/-- Two parts have only the steps of the glyph itself in common, since what one has listed the
next does not. -/
theorem Part.apart (h : Part r path ids id ops l) (h' : Part r path l.ids id ops' l') {x : String}
    (hne : x ≠ id) (hx : x ∈ l.glyphs) : x ∉ l'.glyphs := fun hx' =>
  (h'.fresh x hx' hne).2 ((h.mem_ids x).2 (.inr ⟨hne, hx⟩))

theorem Part.not_mem_glyphs (h : Part r path ids id [] l) : id ∉ l.glyphs := fun hid =>
  stepsOf_ne_nil hid (List.map_eq_nil_iff.1 h.own)

theorem Part.append (h : Part r path ids id ops l) (h' : Part r path l.ids id ops' l') :
    Part r path ids id (ops ++ ops') ⟨l.entries ++ l'.entries, l'.ids⟩ := by
  have hsteps : (Listing.mk (l.entries ++ l'.entries) l'.ids).steps = l.steps ++ l'.steps :=
    List.map_append
  have hglyphs : (Listing.mk (l.entries ++ l'.entries) l'.ids).glyphs = l.glyphs ++ l'.glyphs := by
    rw [Listing.glyphs, hsteps, List.map_append]
    rfl
  constructor
  · intro x
    rw [h'.mem_ids, h.mem_ids, hglyphs, List.mem_append]
    tauto
  · intro x hx hne
    rw [hglyphs] at hx
    obtain hx | hx := List.mem_append.1 hx
    · exact h.fresh x hx hne
    · obtain ⟨hpath, hids⟩ := h'.fresh x hx hne
      exact ⟨hpath, fun hmem => hids ((h.mem_ids x).2 (.inl hmem))⟩
  · rw [hglyphs]
    exact fun x hx => (List.mem_append.1 hx).elim (h.reached x) (h'.reached x)
  · intro x hx hne
    rw [hglyphs] at hx
    obtain hx | hx := List.mem_append.1 hx
    · obtain ⟨g, hg, hops⟩ := h.whole x hx hne
      refine ⟨g, hg, ?_⟩
      rw [hsteps, stepsOf_append, stepsOf_eq_nil (h.apart h' hne hx), List.append_nil, hops]
    · obtain ⟨g, hg, hops⟩ := h'.whole x hx hne
      refine ⟨g, hg, ?_⟩
      have hx₀ : x ∉ l.glyphs := fun hmem => h.apart h' hne hmem hx
      rw [hsteps, stepsOf_append, stepsOf_eq_nil hx₀, List.nil_append, hops]
  · rw [hsteps, stepsOf_append, operations_append, h.own, h'.own]

theorem Part.cons_own (h : Part r path ids id ops l) (operation : String) (s : FieldState)
    (done : Bool) :
    Part r path ids id (operation :: ops) ⟨⟨⟨id, operation, s⟩, done⟩ :: l.entries, l.ids⟩ :=
  (Part.own_step operation s done).append h

/-- All parts of a glyph, by which it is listed itself. -/
theorem Part.tidy (h : Part r path ids id g.operations l) (hpath : id ∉ path) (hids : id ∉ ids)
    (hg : r.get? id = some g) : Tidy r path ids id ⟨l.entries, id :: l.ids⟩ where
  mem_ids := by
    have hself : id ∈ l.glyphs := by
      by_contra hnone
      have hown := h.own
      rw [stepsOf_eq_nil hnone] at hown
      cases hown
    intro x
    show x ∈ id :: l.ids ↔ x ∈ ids ∨ x ∈ l.glyphs
    rw [List.mem_cons, h.mem_ids]
    by_cases hx : x = id
    · simp [hx, hself]
    · simp [hx]
  fresh := by
    intro x hx
    by_cases hne : x = id
    · rw [hne]
      exact ⟨hpath, hids⟩
    · exact h.fresh x hx hne
  reached := h.reached
  whole := by
    intro x hx
    by_cases hne : x = id
    · rw [hne]
      exact ⟨g, hg, h.own⟩
    · exact h.whole x hx hne

end Part

/-! ## listings -/

section Listings

variable {r : Registry} {path : List String} {id : String} {g : Glyph}
  {list : List String → String → Listing} {c : Command} {cs : List Command}

theorem part_listTarget (hlist : ∀ ids y, r.Entangles id y → Tidy r (id :: path) ids y (list ids y))
    (hg : r.get? id = some g) (ids : List String) (hc : c ∈ g.commands) :
    Part r path ids id [] (g.listTarget list ids c) := by
  cases c with
  | entangle t =>
      simp only [Glyph.listTarget]
      cases hy : g.targetName t with
      | error e => exact .nil
      | ok y =>
          have hlink : r.Entangles id y := ⟨g, t, hg, hc, hy⟩
          exact (hlist ids y hlink).part hlink
  | _ => exact .nil

/-- Commands are listed one after the other, each behind its target. -/
theorem part_listCommands
    (hlist : ∀ ids y, r.Entangles id y → Tidy r (id :: path) ids y (list ids y))
    (hg : r.get? id = some g) (after : FieldState → Command → Except ActivationError FieldState)
    (ids : List String) (s : FieldState) (hcs : ∀ c ∈ cs, c ∈ g.commands) :
    Part r path ids id (cs.map Command.label) (g.listCommands list after ids s cs) := by
  induction cs generalizing ids s with
  | nil => exact .nil
  | cons c cs ih =>
      obtain ⟨hc, hcs⟩ := List.forall_mem_cons.1 hcs
      have htarget := part_listTarget hlist hg ids hc
      have hrest := ih (g.listTarget list ids c).ids ((after s c).toOption.getD s) hcs
      simp only [Glyph.listCommands, Registry.id_of_get? hg]
      exact htarget.append (hrest.cons_own c.label _ _)

end Listings

/-- **Nested listings.**  The listing of a glyph is tidy, by induction on how much longer the path
may grow. -/
theorem tidy_listing (settings : ActivationSettings) (r : Registry) (path ids : List String)
    (id : String) : Tidy r path ids id (r.listing settings path ids id) := by
  induction hk : settings.maxDepth + 1 - path.length generalizing path ids id with
  | zero =>
      rw [Registry.listing_of_long (by omega)]
      exact .nil
  | succ k ih =>
      obtain hnone | ⟨hpath, hids, -, l, g, -, hg, hlisting⟩ :=
        Registry.listing_cases settings r path ids id
      · rw [hnone]
        exact .nil
      · have hnested (ids : List String) (y : String) (_ : r.Entangles id y) :
            Tidy r (id :: path) ids y (r.listing settings (id :: path) ids y) :=
          ih (id :: path) ids y (by rw [List.length_cons]; omega)
        have hbody := part_listCommands hnested hg
          (r.replayCommand settings g (r.compose l).coefficient (r.replay settings (id :: path)))
          ids (r.compose l).state (fun c hc => hc)
        rw [hlisting, Registry.listGlyph, Registry.id_of_get? hg]
        exact (hbody.cons_own "compose" _ true).tidy hpath hids hg

/-! ## where the steps of a glyph stop -/

/-- What is done of the glyph is all up to the first of its own steps that cannot be done. -/
def StopsOwn (id : String) (es : List Listed) : Prop :=
  stepsOf id (doneSteps es) = doneSteps (entriesOf id es)

/-- The same, unless nothing of the glyph is done. -/
def Stops (id : String) (es : List Listed) : Prop :=
  stepsOf id (doneSteps es) = [] ∨ StopsOwn id es

section Stops

variable {x id : String} {es fs : List Listed} {e : Listed}

theorem entriesOf_append : entriesOf x (es ++ fs) = entriesOf x es ++ entriesOf x fs :=
  List.filter_append ..

theorem entriesOf_eq_nil (h : x ∉ (es.map Listed.step).map Step.glyphId) : entriesOf x es = [] := by
  refine List.filter_eq_nil_iff.2 fun e he => ?_
  have hne : e.step.glyphId ≠ x := by
    rintro rfl
    exact h (List.mem_map_of_mem (List.mem_map_of_mem he))
  simpa using hne

theorem entriesOf_cons_self (h : e.step.glyphId = id) :
    entriesOf id (e :: fs) = e :: entriesOf id fs :=
  List.filter_cons_of_pos (by simpa using h)

theorem stepsOf_doneSteps_eq_nil (h : x ∉ (es.map Listed.step).map Step.glyphId) :
    stepsOf x (doneSteps es) = [] :=
  stepsOf_eq_nil fun hx => h (((doneSteps_isPrefix es).map Step.glyphId).subset hx)

theorem Stops.append_left (h : Stops x es) (hx : x ∉ (fs.map Listed.step).map Step.glyphId) :
    Stops x (es ++ fs) := by
  have hdone : stepsOf x (doneSteps (es ++ fs)) = stepsOf x (doneSteps es) := by
    by_cases hall : ∀ e ∈ es, e.done = true
    · rw [doneSteps_append hall, stepsOf_append, stepsOf_doneSteps_eq_nil hx, List.append_nil]
    · rw [doneSteps_append_of_not_all hall]
  rw [Stops, StopsOwn, hdone, entriesOf_append, entriesOf_eq_nil hx, List.append_nil]
  exact h

theorem Stops.append_right (h : Stops x fs) (hx : x ∉ (es.map Listed.step).map Step.glyphId) :
    Stops x (es ++ fs) := by
  by_cases hall : ∀ e ∈ es, e.done = true
  · rw [Stops, StopsOwn, doneSteps_append hall, stepsOf_append, stepsOf_doneSteps_eq_nil hx,
      entriesOf_append, entriesOf_eq_nil hx]
    exact h
  · left
    rw [doneSteps_append_of_not_all hall, stepsOf_doneSteps_eq_nil hx]

theorem Stops.cons (h : Stops x fs) (hx : x ≠ e.step.glyphId) : Stops x (e :: fs) := by
  rw [← List.singleton_append]
  exact h.append_right fun hmem => hx (List.mem_singleton.1 hmem)

/-- A step of the glyph itself, behind what it asks for: if the step is done, that is done too. -/
theorem StopsOwn.append_cons (h : StopsOwn id fs) (he : e.step.glyphId = id)
    (hes : id ∉ (es.map Listed.step).map Step.glyphId)
    (hdone : e.done = true → ∀ e ∈ es, e.done = true) : StopsOwn id (es ++ e :: fs) := by
  have hentries : entriesOf id (es ++ e :: fs) = e :: entriesOf id fs := by
    rw [entriesOf_append, entriesOf_eq_nil hes, List.nil_append, entriesOf_cons_self he]
  rw [StopsOwn, hentries]
  cases hd : e.done with
  | true =>
      rw [doneSteps_append (hdone hd), doneSteps_cons hd, doneSteps_cons hd, stepsOf_append,
        stepsOf_doneSteps_eq_nil hes, List.nil_append, stepsOf_cons_self he, h]
  | false =>
      have hnone : doneSteps ([] ++ e :: entriesOf id fs) = [] := doneSteps_stop hd
      rw [doneSteps_stop hd, stepsOf_doneSteps_eq_nil hes]
      exact hnone.symm

end Stops

section Stops

variable {r : Registry} {path : List String} {id : String} {g : Glyph}
  {list : List String → String → Listing}
  {activate : String → Except ActivationError Activation} {c : Command} {cs : List Command}

theorem stops_listTarget (hstops : ∀ ids y x, Stops x (list ids y).entries) (ids : List String)
    (c : Command) (x : String) : Stops x (g.listTarget list ids c).entries := by
  cases c with
  | entangle t =>
      simp only [Glyph.listTarget]
      cases g.targetName t with
      | error e => exact .inl rfl
      | ok y => exact hstops ids y x
  | _ => exact .inl rfl

/-- Commands stop at the first that cannot be done, be it the one that fails or one around it. -/
theorem stops_listCommands {after : FieldState → Command → Except ActivationError FieldState}
    (hlist : ∀ ids y, r.Entangles id y → Tidy r (id :: path) ids y (list ids y))
    (hstops : ∀ ids y x, Stops x (list ids y).entries)
    (hdone : ∀ ids s s' c, after s c = .ok s' →
      ∀ e ∈ (g.listTarget list ids c).entries, e.done = true)
    (hg : r.get? id = some g) (ids : List String) (s : FieldState)
    (hcs : ∀ c ∈ cs, c ∈ g.commands) :
    (∀ x, x ≠ id → Stops x (g.listCommands list after ids s cs).entries) ∧
      StopsOwn id (g.listCommands list after ids s cs).entries := by
  induction cs generalizing ids s with
  | nil => exact ⟨fun x _ => .inl rfl, rfl⟩
  | cons c cs ih =>
      obtain ⟨hc, hcs⟩ := List.forall_mem_cons.1 hcs
      have htarget := part_listTarget hlist hg ids hc
      have hrest := part_listCommands hlist hg after (g.listTarget list ids c).ids
        ((after s c).toOption.getD s) hcs
      obtain ⟨hothers, hown⟩ := ih (g.listTarget list ids c).ids
        ((after s c).toOption.getD s) hcs
      simp only [Glyph.listCommands, Registry.id_of_get? hg]
      constructor
      · intro x hne
        by_cases hx : x ∈ (g.listTarget list ids c).glyphs
        · refine (stops_listTarget hstops ids c x).append_left fun hmem => ?_
          obtain heq | hmem := List.mem_cons.1 hmem
          · exact hne heq
          · exact htarget.apart hrest hne hx hmem
        · exact ((hothers x hne).cons hne).append_right hx
      · refine hown.append_cons rfl htarget.not_mem_glyphs fun hok => ?_
        cases hafter : after s c with
        | error e =>
            rw [hafter] at hok
            cases hok
        | ok s' => exact hdone ids s s' c hafter

end Stops

/-- The steps of each glyph stop with it, by induction on how much longer the path may grow. -/
theorem stops_listing (settings : ActivationSettings) (r : Registry) (path ids : List String)
    (id x : String) : Stops x (r.listing settings path ids id).entries := by
  induction hk : settings.maxDepth + 1 - path.length generalizing path ids id x with
  | zero =>
      rw [Registry.listing_of_long (by omega)]
      exact .inl rfl
  | succ k ih =>
      obtain hnone | ⟨-, -, -, l, g, -, hg, hlisting⟩ :=
        Registry.listing_cases settings r path ids id
      · rw [hnone]
        exact .inl rfl
      · have hnested (ids : List String) (y x : String) :
            Stops x (r.listing settings (id :: path) ids y).entries :=
          ih (id :: path) ids y x (by rw [List.length_cons]; omega)
        obtain ⟨hothers, hown⟩ := stops_listCommands
          (fun ids y _ => tidy_listing settings r (id :: path) ids y) hnested
          (fun ids _ _ _ hok => Registry.done_target ids hok) hg ids (r.compose l).state
          (fun c hc => hc)
        rw [hlisting, Registry.listGlyph, Registry.id_of_get? hg]
        by_cases hx : x = id
        · rw [hx]
          right
          rw [← List.nil_append (_ :: _)]
          exact hown.append_cons rfl List.not_mem_nil fun _ e he => absurd he List.not_mem_nil
        · exact (hothers x hx).cons hx

end GlyphField
