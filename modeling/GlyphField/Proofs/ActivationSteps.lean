import GlyphField.Proofs.ListedOnce

/-!
# GlyphField.Proofs.ActivationSteps

The steps of an activation are its listing, up to the command that fails if one does.  What a run
records is taken from `GlyphField.Proofs.StepListing`, what a listing has of each glyph from
`GlyphField.Proofs.ListedOnce`.

* `Interpreter.steps_listed` — the steps of an activation, whether it succeeds or not.
-/

namespace GlyphField

open Relation (ReflTransGen)

/-! ## activations -/

namespace Interpreter

/-- The listing of an activation of this glyph. -/
def listing (i : Interpreter) (id : String) : Listing :=
  i.registry.listing i.settings [] [] id

theorem steps_eq (i : Interpreter) (id : String) :
    i.steps id = doneSteps (i.listing id).entries :=
  (records_activate i.settings i.registry id).steps_eq

/-- Whatever a glyph reaches is listed if its activation succeeds. -/
theorem mem_glyphs_listing {i : Interpreter} {id x : String} {a : Activation}
    (h : (i.activate id).1 = .ok a) (hx : ReflTransGen i.registry.Entangles id x) :
    x ∈ (i.listing id).glyphs := by
  have hids := (records_activate i.settings i.registry id).ids_eq a h
  have hmem : x ∈ (i.listing id).ids := hids ▸ mem_ids_of_activate h hx
  have hlisted := ((tidy_listing i.settings i.registry [] [] id).mem_ids x).1 hmem
  exact hlisted.resolve_left List.not_mem_nil

/-- **The steps of an activation.**  They are passed to the trace in order.  If the activation
succeeds they are the listing, in which each glyph that is reached by entanglements has its
composition and then one step for each command, and in which the listing of a glyph stands before
the step of the first entanglement with it.  If it fails they are the listing up to the command that
fails: each glyph that has been composed has its steps up to the first of its commands that cannot
be done, which is the one that fails or an entanglement around it.  No glyph is composed twice. -/
theorem steps_listed (i : Interpreter) (id : String) :
    (i.activate id).2.trace = i.trace.recordAll (i.steps id) ∧
    (∀ a, (i.activate id).1 = .ok a →
      i.steps id = (i.listing id).steps ∧
        ∀ x, ReflTransGen i.registry.Entangles id x → Whole i.registry x (i.steps id)) ∧
    (∀ e, (i.activate id).1 = .error e →
      (i.listing id).entries = [] ∧ i.steps id = [] ∨
        ∃ before failing after, (i.listing id).entries = before ++ failing :: after ∧
          (∀ b ∈ before, b.done = true) ∧ failing.done = false ∧
            i.steps id = before.map Listed.step) ∧
    (∀ x ∈ (i.steps id).map Step.glyphId, ReflTransGen i.registry.Entangles id x ∧
      Whole i.registry x (i.listing id).steps ∧
        stepsOf x (i.steps id) = doneSteps (entriesOf x (i.listing id).entries)) ∧
    (composed (i.steps id)).Nodup := by
  have htidy := tidy_listing i.settings i.registry [] [] id
  have hfront : i.steps id <+: (i.listing id).steps := by
    rw [steps_eq]
    exact doneSteps_isPrefix _
  refine ⟨rfl, fun a ha => ?_, fun e he => ?_, fun x hx => ?_, ?_⟩
  · have hdone : ∀ e ∈ (i.listing id).entries, e.done = true :=
      Registry.done_of_replay (Registry.activate_eq_ok_iff.1 ha)
    have hsteps : i.steps id = (i.listing id).steps := by
      rw [steps_eq]
      exact doneSteps_of_all hdone
    refine ⟨hsteps, fun x hx => ?_⟩
    rw [hsteps]
    exact htidy.whole x (mem_glyphs_listing ha hx)
  · rw [steps_eq]
    by_cases hempty : (i.listing id).entries = []
    · exact .inl ⟨hempty, by rw [hempty, doneSteps_nil]⟩
    · have hfail : ¬∀ b ∈ (i.listing id).entries, b.done = true := by
        intro hdone
        obtain ⟨a, ha⟩ := Registry.replay_of_done hempty hdone
        have hok : (i.activate id).1 = .ok a := Registry.activate_eq_ok_iff.2 ha
        rw [he] at hok
        cases hok
      obtain ⟨before, failing, after, heq, hbefore, hfailing⟩ := exists_first_failing hfail
      refine .inr ⟨before, failing, after, heq, hbefore, hfailing, ?_⟩
      rw [heq, doneSteps_stop hfailing, doneSteps_of_all hbefore]
  · have hlisted : x ∈ (i.listing id).glyphs := (hfront.map Step.glyphId).subset hx
    refine ⟨htidy.reached x hlisted, htidy.whole x hlisted, ?_⟩
    rw [steps_eq] at hx ⊢
    exact (stops_listing i.settings i.registry [] [] id x).resolve_left (stepsOf_ne_nil hx)
  · have hsub : (composed (i.steps id)).Sublist (composed (i.listing id).steps) :=
      ((hfront.filter _).map Step.glyphId).sublist
    exact (nodup_composed htidy.whole).sublist hsub

/-- A glyph that is entangled with another one twice, with an unknown command in between. -/
def singer : Glyph := { id := "b", script := "entangle(c)|sing()|entangle(c)" }

/-- The glyph `a` is entangled with `singer` and then with a missing one. -/
def relay : Registry where
  glyphs := [{ id := "a", script := "entangle(b)|entangle(x)" }, singer, { id := "c" }]
  sorted := by
    unfold Keyed.Sorted
    decide
  length_le := by decide

theorem activate_relay_ok : ∃ a, ((new relay).activate "b").1 = .ok a := by
  have hcommands : singer.commands =
      [.entangle (.glyph "c"), .unknown "sing", .entangle (.glyph "c")] := by decide +kernel
  have htarget : ∃ a, relay.replay {} ["b"] "c" = .ok a :=
    Registry.exists_replay_of_parents_eq_nil (g := { id := "c" }) rfl rfl (by decide) (by decide)
      (fun _ ht => absurd ht List.not_mem_nil)
  have hreplay : ∃ a, relay.replay {} [] "b" = .ok a := by
    refine Registry.exists_replay_of_parents_eq_nil (g := singer) rfl rfl List.not_mem_nil
      (by decide) fun t ht => ?_
    rw [hcommands] at ht
    obtain rfl : t = .glyph "c" := by simpa using ht
    exact ⟨"c", rfl, htarget⟩
  obtain ⟨a, ha⟩ := hreplay
  exact ⟨a, Registry.activate_eq_ok_iff.2 ha⟩

theorem activate_relay_error : ∃ e, ((new relay).activate "a").1 = .error e := by
  have hcommands : Glyph.commands { id := "a", script := "entangle(b)|entangle(x)" } =
      [.entangle (.glyph "b"), .entangle (.glyph "x")] := by decide +kernel
  have hlink : relay.Entangles "a" "x" := ⟨_, .glyph "x", rfl, by rw [hcommands]; decide, rfl⟩
  cases hout : ((new relay).activate "a").1 with
  | error e => exact ⟨e, rfl⟩
  | ok a =>
      have hreplay := Registry.activate_eq_ok_iff.1 hout
      have hready := (Registry.exists_replay_iff.1 ⟨a, hreplay⟩).ready "a" .refl
      exact absurd (hready.targets "x" hlink) (by decide)

theorem listing_relay_ne_nil : ((new relay).listing "a").entries ≠ [] := by
  have ha : relay.lineage 32 "a" = .ok ⟨"a", [], 0, []⟩ :=
    Registry.lineage_of_parents_eq_nil rfl rfl
  have hlisting : (new relay).listing "a" = _ :=
    Registry.listing_of_lineage_ok List.not_mem_nil List.not_mem_nil (by decide) ha rfl
  rw [hlisting]
  exact List.cons_ne_nil _ _

theorem relay_listed :
    (new relay).steps "b" = ((new relay).listing "b").steps ∧
    operations (stepsOf "b" ((new relay).steps "b")) =
      ["compose", "entangle(c)", "unknown:sing", "entangle(c)"] ∧
    ∃ before failing after, ((new relay).listing "a").entries = before ++ failing :: after ∧
      (∀ b ∈ before, b.done = true) ∧ failing.done = false ∧
        (new relay).steps "a" = before.map Listed.step := by
  obtain ⟨a, ha⟩ := activate_relay_ok
  obtain ⟨e, he⟩ := activate_relay_error
  obtain ⟨hsteps, hwhole⟩ := (steps_listed (new relay) "b").2.1 a ha
  obtain ⟨g, hg, hops⟩ := hwhole "b" .refl
  obtain rfl : singer = g := Option.some.inj hg
  have hfailed := (steps_listed (new relay) "a").2.2.1 e he
  refine ⟨hsteps, hops.trans (by decide +kernel), hfailed.resolve_left fun hnone => ?_⟩
  exact listing_relay_ne_nil hnone.1

end Interpreter

end GlyphField
