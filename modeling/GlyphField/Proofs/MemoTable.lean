import GlyphField.Proofs.Replay

/-!
# GlyphField.Proofs.MemoTable

What the table of a run is worth.  An entanglement with a finished glyph takes its activation from
the table and skips the checks of a replay.  That is right since whatever a finished glyph reaches
is finished too while nothing on the path is, and since a known height is all that a check of the
limit needs.

* `Known` — what a table says of a glyph holds of its replay from every path it does not lead
  back to;
* `Table` — the invariant of the table between two activations;
* `Ran` — what commands that succeed leave behind, closed under `Ran.append`;
* `Agrees`, `CommandsAgree` — what activations and commands have to do with their replays.
-/

namespace GlyphField

open Relation (ReflTransGen)

/-! ## outcomes -/

/-- The same error, except that a chain over the limit may be reported at another of its
glyphs. -/
def SameError (e e' : ActivationError) : Prop :=
  e = e' ∨ ∃ a b limit, e = .lineage (.tooDeep a limit) ∧ e' = .lineage (.tooDeep b limit)

/-- The same activation or the same error. -/
def SameOutcome : Except ActivationError Activation → Except ActivationError Activation → Prop
  | .ok a, .ok b => a = b
  | .error e, .error e' => SameError e e'
  | _, _ => False

theorem SameOutcome.eq_ok_iff {x y : Except ActivationError Activation} (h : SameOutcome x y)
    {a : Activation} : x = .ok a ↔ y = .ok a := by
  cases x with
  | error e =>
      cases y with
      | error e' => simp
      | ok b => cases h
  | ok b =>
      cases y with
      | error e' => cases h
      | ok c => rw [show b = c from h]

theorem SameOutcome.sameError {x y : Except ActivationError Activation} {e e' : ActivationError}
    (h : SameOutcome x y) (hx : x = .error e) (hy : y = .error e') : SameError e e' := by
  rw [hx, hy] at h
  exact h

/-- The result of something whose chains have up to `n` links: `a` within the limit, else the
report of a chain that is too long. -/
def Capped {α : Type} (limit n : Nat) (a : α) (x : Except ActivationError α) : Prop :=
  if n ≤ limit then x = .ok a else ∃ b, x = .error (.lineage (.tooDeep b limit))

section Capped

variable {α β : Type} {limit m n : Nat} {a : α} {b : β} {x : Except ActivationError α}

theorem Capped.eq_ok (h : Capped limit n a x) (hn : n ≤ limit) : x = .ok a := by
  rwa [Capped, if_pos hn] at h

theorem Capped.eq_error (h : Capped limit n a x) (hn : limit < n) :
    ∃ b, x = .error (.lineage (.tooDeep b limit)) := by
  rwa [Capped, if_neg (Nat.not_le_of_lt hn)] at h

theorem capped_error {b : String} (hn : limit < n) :
    Capped limit n a (.error (.lineage (.tooDeep b limit))) := by
  rw [Capped, if_neg (Nat.not_le_of_lt hn)]
  exact ⟨b, rfl⟩

theorem capped_ok (hn : n ≤ limit) : Capped limit n a (.ok a) := by
  rw [Capped, if_pos hn]

theorem Capped.map (h : Capped limit n a x) (f : α → β) : Capped limit n (f a) (x.map f) := by
  by_cases hn : n ≤ limit
  · rw [h.eq_ok hn]
    exact capped_ok hn
  · obtain ⟨c, rfl⟩ := h.eq_error (Nat.lt_of_not_le hn)
    exact capped_error (Nat.lt_of_not_le hn)

theorem Capped.of_iff (h : Capped limit m a x) (hmn : m ≤ limit ↔ n ≤ limit) :
    Capped limit n a x := by
  simpa only [Capped, hmn] using h

/-- What comes after only matters within the limit. -/
theorem Capped.bind {f : α → Except ActivationError β} (h : Capped limit m a x) (hmn : m ≤ n)
    (hf : m ≤ limit → Capped limit n b (f a)) : Capped limit n b (x.bind f) := by
  by_cases hm : m ≤ limit
  · rw [h.eq_ok hm]
    exact hf hm
  · obtain ⟨c, rfl⟩ := h.eq_error (Nat.lt_of_not_le hm)
    exact capped_error (by omega)

end Capped

/-! ## the table -/

section Table

variable (settings : ActivationSettings) (r : Registry)

/-- A replay of the glyph from any path that it does not lead back to gives the finished
activation, as long as its height fits. -/
def Known (id : String) (f : Finished) : Prop :=
  ∀ path, (∀ x ∈ path, ¬ReflTransGen r.Entangles id x) →
    Capped settings.maxDepth (path.length + f.height) f.activation (r.replay settings path id)

/-- The table of a run whose running scripts are those of the path: its entries are known, it is
closed under entanglement, and no glyph of the path is in it. -/
structure Table (path : List String) (run : Run) : Prop where
  known : ∀ id f, run.find? id = some f → Known settings r id f
  closed : ∀ a b, (run.find? a).isSome = true → r.Entangles a b → (run.find? b).isSome = true
  apart : ∀ x ∈ path, run.find? x = none

/-- What it means for a glyph to have been activated from the path: it is in the table, and its
height fits. -/
structure Activated (path : List String) (id : String) (run : Run) (f : Finished)
    (run' : Run) : Prop where
  table : Table settings r path run'
  grows : ∀ a, (run.find? a).isSome = true → (run'.find? a).isSome = true
  found : run'.find? id = some f
  fits : path.length + f.height ≤ settings.maxDepth

/-- An activation from the path agrees with the replay: the glyph is activated, or the replay
fails too. -/
inductive Agrees (path : List String) (id : String) (run : Run) : Outcome Finished → Prop
  | ok {f : Finished} {run' : Run} (h : Activated settings r path id run f run') :
    Agrees path id run (.ok f, run')
  | error {e e' : ActivationError} {run' : Run} (h : r.replay settings path id = .error e')
    (hsame : SameError e e') : Agrees path id run (.error e, run')

/-- Every activation from the path agrees with the replay. -/
def Sound (path : List String) (activate : Activate) : Prop :=
  ∀ id run, Table settings r path run → Agrees settings r path id run (activate id run)

end Table

namespace Run

theorem find?_finish (run : Run) (f : Finished) (id : String) :
    (run.finish f).find? id =
      if id = f.activation.glyphId then some f else run.find? id := by
  simp only [find?, finish, List.lookup_cons]
  by_cases h : id = f.activation.glyphId
  · simp [h]
  · simp [h, beq_eq_false_iff_ne.2 h]

/-- Finishing a glyph forgets no other. -/
theorem isSome_find?_finish (run : Run) (f : Finished) {id : String}
    (h : (run.find? id).isSome = true) : ((run.finish f).find? id).isSome = true := by
  rw [find?_finish]
  split
  · rfl
  · exact h

end Run

section Laws

variable {settings : ActivationSettings} {r : Registry} {path : List String} {id : String}
  {run : Run}

theorem Table.record (h : Table settings r path run) (id operation : String) (s : FieldState) :
    Table settings r path (run.record id operation s) where
  known := h.known
  closed := h.closed
  apart := h.apart

/-- Whatever a finished glyph reaches is finished. -/
theorem Table.closed_reach (h : Table settings r path run) {a b : String}
    (ha : (run.find? a).isSome = true) (hab : ReflTransGen r.Entangles a b) :
    (run.find? b).isSome = true := by
  induction hab with
  | refl => exact ha
  | tail _ hbc ih => exact h.closed _ _ ih hbc

/-- A finished glyph does not lead back to the path. -/
theorem Table.not_reach (h : Table settings r path run) {a x : String}
    (ha : (run.find? a).isSome = true) (hx : x ∈ path) : ¬ReflTransGen r.Entangles a x := by
  intro hax
  have hsome := h.closed_reach ha hax
  rw [h.apart x hx] at hsome
  cases hsome

/-- A finished glyph is replayed to its activation if its height fits. -/
theorem Table.capped_replay (h : Table settings r path run) {f : Finished}
    (hf : run.find? id = some f) :
    Capped settings.maxDepth (path.length + f.height) f.activation
      (r.replay settings path id) := by
  have hsome : (run.find? id).isSome = true := by rw [hf, Option.isSome_some]
  exact h.known id f hf path fun x hx => h.not_reach hsome hx

end Laws

/-! ## commands -/

section Commands

variable {settings : ActivationSettings} {r : Registry} {path : List String} {id : String}
  {run run' run'' : Run} {g : Glyph} {c : Command} {cs ds : List Command}
  {p p' p'' : Progress} {coefficient : Float}

/-- What the command entangles the glyph with does not lead back to the path. -/
def Clear (r : Registry) (g : Glyph) (path : List String) (c : Command) : Prop :=
  ∀ t y, c = .entangle t → g.targetName t = .ok y → ∀ x ∈ path, ¬ReflTransGen r.Entangles y x

/-- The targets of the command are finished. -/
def Settled (run : Run) (g : Glyph) (c : Command) : Prop :=
  ∀ t y, c = .entangle t → g.targetName t = .ok y → (run.find? y).isSome = true

/-- The replay of commands of the glyph `id`, which is entangled from the path. -/
def Registry.replayCommands (settings : ActivationSettings) (r : Registry) (g : Glyph)
    (coefficient : Float) (path : List String) (id : String) (s : FieldState)
    (cs : List Command) : Except ActivationError FieldState :=
  cs.foldlM (r.replayCommand settings g coefficient (r.replay settings (id :: path))) s

theorem Registry.replayCommands_singleton {q : List String} {s : FieldState} :
    r.replayCommands settings g coefficient q id s [c] =
      r.replayCommand settings g coefficient (r.replay settings (id :: q)) s c := by
  rw [replayCommands, List.foldlM_cons]
  simp only [List.foldlM_nil, bind_pure]

theorem Registry.replayCommands_append {q : List String} {s : FieldState} :
    r.replayCommands settings g coefficient q id s (cs ++ ds) =
      (r.replayCommands settings g coefficient q id s cs).bind fun s' =>
        r.replayCommands settings g coefficient q id s' ds := by
  rw [replayCommands, List.foldlM_append]
  rfl

/-- What it means for commands of the glyph `id` to have been run from the path: their targets
are in the table, the height fits, and a replay from any path that they do not lead back to gives
the same state, as long as the height fits there. -/
structure Ran (settings : ActivationSettings) (r : Registry) (g : Glyph) (coefficient : Float)
    (path : List String) (id : String) (p : Progress) (run : Run) (cs : List Command)
    (p' : Progress) (run' : Run) : Prop where
  table : Table settings r (id :: path) run'
  grows : ∀ a, (run.find? a).isSome = true → (run'.find? a).isSome = true
  rises : p.height ≤ p'.height
  fits : path.length + p'.height ≤ settings.maxDepth
  settled : ∀ c ∈ cs, Settled run' g c
  replays : ∀ q : List String, (∀ c ∈ cs, Clear r g (id :: q) c) →
    q.length + p.height ≤ settings.maxDepth →
      Capped settings.maxDepth (q.length + p'.height) p'.state
        (r.replayCommands settings g coefficient q id p.state cs)

/-- Commands run from the path agree with their replay. -/
inductive CommandsAgree (settings : ActivationSettings) (r : Registry) (g : Glyph)
    (coefficient : Float) (path : List String) (id : String) (p : Progress) (run : Run)
    (cs : List Command) : Outcome Progress → Prop
  | ok {p' : Progress} {run' : Run} (h : Ran settings r g coefficient path id p run cs p' run') :
    CommandsAgree settings r g coefficient path id p run cs (.ok p', run')
  | error {e e' : ActivationError} {run' : Run}
    (h : r.replayCommands settings g coefficient path id p.state cs = .error e')
    (hsame : SameError e e') :
    CommandsAgree settings r g coefficient path id p run cs (.error e, run')

theorem Table.clear (h : Table settings r path run) (hc : Settled run g c) : Clear r g path c :=
  fun t y ht hy _ hx => h.not_reach (hc t y ht hy) hx

/-- The commands that have been run are replayed from their own path. -/
theorem Ran.replay_eq_ok (h : Ran settings r g coefficient path id p run cs p' run') :
    r.replayCommands settings g coefficient path id p.state cs = .ok p'.state := by
  have hfits : path.length + p.height ≤ settings.maxDepth :=
    Nat.le_trans (Nat.add_le_add_left h.rises _) h.fits
  exact (h.replays path (fun c hc => h.table.clear (h.settled c hc)) hfits).eq_ok h.fits

theorem Ran.nil (h : Table settings r (id :: path) run)
    (hfits : path.length + p.height ≤ settings.maxDepth) :
    Ran settings r g coefficient path id p run [] p run where
  table := h
  grows := fun _ ha => ha
  rises := Nat.le_refl _
  fits := hfits
  settled := fun _ hc => absurd hc List.not_mem_nil
  replays := fun _ _ hq => capped_ok hq

theorem Ran.append (h : Ran settings r g coefficient path id p run cs p' run')
    (h' : Ran settings r g coefficient path id p' run' ds p'' run'') :
    Ran settings r g coefficient path id p run (cs ++ ds) p'' run'' where
  table := h'.table
  grows := fun a ha => h'.grows a (h.grows a ha)
  rises := Nat.le_trans h.rises h'.rises
  fits := h'.fits
  settled := by
    intro c hc t y ht hy
    obtain hc | hc := List.mem_append.1 hc
    · exact h'.grows y (h.settled c hc t y ht hy)
    · exact h'.settled c hc t y ht hy
  replays := by
    intro q hclear hq
    have hcs := h.replays q (fun c hc => hclear c (List.mem_append_left _ hc)) hq
    rw [Registry.replayCommands_append]
    exact hcs.bind (Nat.add_le_add_left h'.rises _) fun hfits =>
      h'.replays q (fun c hc => hclear c (List.mem_append_right _ hc)) hfits

theorem Ran.record (h : Ran settings r g coefficient path id p run cs p' run')
    (name operation : String) (s : FieldState) :
    Ran settings r g coefficient path id p run cs p' (run'.record name operation s) where
  table := h.table.record name operation s
  grows := h.grows
  rises := h.rises
  fits := h.fits
  settled := h.settled
  replays := h.replays

/-- Commands that have been run leave the outcome to those that follow. -/
theorem Ran.append_agrees {out : Outcome Progress}
    (h : Ran settings r g coefficient path id p run cs p' run')
    (h' : CommandsAgree settings r g coefficient path id p' run' ds out) :
    CommandsAgree settings r g coefficient path id p run (cs ++ ds) out := by
  cases h' with
  | ok hds => exact .ok (h.append hds)
  | error he hsame =>
      refine .error ?_ hsame
      rw [Registry.replayCommands_append, h.replay_eq_ok]
      exact he

/-- A command that concerns the glyph alone. -/
theorem Ran.apply (h : Table settings r (id :: path) run)
    (hfits : path.length + p.height ≤ settings.maxDepth) (hc : ∀ t, c ≠ .entangle t) :
    Ran settings r g coefficient path id p run [c]
      { p with state := p.state.apply settings c } run where
  table := h
  grows := fun _ ha => ha
  rises := Nat.le_refl _
  fits := hfits
  settled := by
    intro d hd t y ht
    rw [List.mem_singleton.1 hd] at ht
    exact absurd ht (hc t)
  replays := by
    intro q _ hq
    rw [Registry.replayCommands_singleton]
    cases c with
    | entangle t => exact absurd rfl (hc t)
    | _ => exact capped_ok hq

/-- An entanglement with an activated target. -/
theorem Ran.entangle {t : Target} {y : String} {f : Finished}
    (h : Activated settings r (id :: path) y run f run') (hy : r.targetId g t = .ok y)
    (hfits : path.length + p.height ≤ settings.maxDepth) :
    Ran settings r g coefficient path id p run [.entangle t]
      ⟨p.state.entangle settings coefficient f.activation.state, max p.height (f.height + 1)⟩
      run' where
  table := h.table
  grows := h.grows
  rises := Nat.le_max_left _ _
  fits := by
    have hfit := h.fits
    rw [List.length_cons] at hfit
    show path.length + max p.height (f.height + 1) ≤ settings.maxDepth
    omega
  settled := by
    intro d hd t' y' ht hy'
    rw [List.mem_singleton.1 hd, Command.entangle.injEq] at ht
    rw [← ht, (Registry.targetId_eq_ok_iff.1 hy).1, Except.ok.injEq] at hy'
    rw [← hy', h.found, Option.isSome_some]
  replays := by
    intro q hclear hq
    have hname := (Registry.targetId_eq_ok_iff.1 hy).1
    have htarget := h.table.known y f h.found (id :: q) (hclear _ List.mem_cons_self t y rfl hname)
    have hmap := htarget.map fun a => p.state.entangle settings coefficient a.state
    rw [Registry.replayCommands_singleton]
    simp only [Registry.replayCommand, hy]
    refine hmap.of_iff ?_
    rw [List.length_cons]
    show q.length + 1 + f.height ≤ settings.maxDepth ↔
      q.length + max p.height (f.height + 1) ≤ settings.maxDepth
    omega

end Commands

end GlyphField
