import GlyphField.Proofs.MemoSound

/-!
# GlyphField.Proofs.ActivationLimit

When a glyph can be activated.  Each glyph that it reaches by entanglements must be ready, which
is a question about that glyph and its parents alone; entanglements must not come back, nor form a
chain over the limit.  The conditions are split along the first link as a replay is, so that they
follow it by induction; what a run takes from its table is then settled by
`Registry.activate_eq_replay`.

* `exists_replay_iff` — when a replay succeeds, from any path;
* `replay_of_le` — a higher limit does not change a replay that succeeds;
* `Interpreter.activate_succeeds_iff` — both for the activations of an interpreter.
-/

namespace GlyphField

open Relation (ReflTransGen TransGen)

namespace Registry

variable {settings : ActivationSettings} {r : Registry} {path : List String} {id : String}
  {g : Glyph} {coefficient : Float} {m : Nat}

/-! ## commands -/

section Commands

variable {activate : String → Except ActivationError Activation} {s : FieldState} {c : Command}
  {cs : List Command}

/-- A command fails only by its target. -/
theorem exists_replayCommand_iff :
    (∃ s', r.replayCommand settings g coefficient activate s c = .ok s') ↔
      ∀ t, c = .entangle t → ∃ y, r.targetId g t = .ok y ∧ ∃ a, activate y = .ok a := by
  cases c with
  | entangle t =>
      simp only [replayCommand, Command.entangle.injEq, forall_eq']
      cases r.targetId g t with
      | error e => simp
      | ok y =>
          simp only [Except.ok.injEq, exists_eq_left']
          cases activate y with
          | error e => simp [Except.map]
          | ok a => simp [Except.map]
  | _ => simp [replayCommand]

/-- Commands succeed if each of their targets can be activated. -/
theorem exists_replayCommands_iff :
    (∃ s', cs.foldlM (r.replayCommand settings g coefficient activate) s = .ok s') ↔
      ∀ t, .entangle t ∈ cs → ∃ y, r.targetId g t = .ok y ∧ ∃ a, activate y = .ok a := by
  induction cs generalizing s with
  | nil => simp [pure, Except.pure]
  | cons c cs ih =>
      have hhead := @exists_replayCommand_iff settings r g coefficient activate s c
      have hsplit : (∀ t, .entangle t ∈ c :: cs →
            ∃ y, r.targetId g t = .ok y ∧ ∃ a, activate y = .ok a) ↔
          (∀ t, c = .entangle t → ∃ y, r.targetId g t = .ok y ∧ ∃ a, activate y = .ok a) ∧
            ∀ t, .entangle t ∈ cs → ∃ y, r.targetId g t = .ok y ∧ ∃ a, activate y = .ok a := by
        simp only [List.mem_cons, or_imp, forall_and, eq_comm]
      rw [hsplit, ← hhead, List.foldlM_cons]
      cases hc : r.replayCommand settings g coefficient activate s c with
      | error e => simp [bind, Except.bind]
      | ok s₁ => simpa [bind, Except.bind] using ih

end Commands

/-! ## targets -/

/-- What the activation of a glyph asks of the glyph itself: a lineage, a parent if its script
entangles it with one, and that whatever it is entangled with is registered. -/
structure Ready (r : Registry) (limit : Nat) (id : String) : Prop where
  lineage : ∃ l, r.lineage limit id = .ok l
  parent : ∀ g, r.get? id = some g → .entangle .parent ∈ g.commands → g.parents ≠ []
  targets : ∀ y, r.Entangles id y → r.contains y = true

theorem exists_targetName_iff {t : Target} :
    (∃ y, g.targetName t = .ok y) ↔ (t = .parent → g.parents ≠ []) := by
  cases t with
  | glyph y => simp [Glyph.targetName]
  | parent =>
      cases hp : g.parents with
      | nil => simp [Glyph.targetName, hp]
      | cons p ps => simp [Glyph.targetName, hp]

/-- The targets of a script can be activated if none is missing and what the glyph is entangled
with can be. -/
theorem targets_iff {P : String → Prop} (hg : r.get? id = some g) :
    (∀ t, .entangle t ∈ g.commands → ∃ y, r.targetId g t = .ok y ∧ P y) ↔
      (.entangle .parent ∈ g.commands → g.parents ≠ []) ∧
        ∀ y, r.Entangles id y → r.contains y = true ∧ P y := by
  constructor
  · intro h
    constructor
    · intro hparent
      obtain ⟨y, hy, -⟩ := h .parent hparent
      exact exists_targetName_iff.1 ⟨y, (targetId_eq_ok_iff.1 hy).1⟩ rfl
    · rintro y ⟨g', t, hg', ht, hy⟩
      rw [hg, Option.some.injEq] at hg'
      rw [← hg'] at ht hy
      obtain ⟨y', hy', hP⟩ := h t ht
      obtain ⟨hname, hcontains⟩ := targetId_eq_ok_iff.1 hy'
      rw [hy, Except.ok.injEq] at hname
      rw [hname]
      exact ⟨hcontains, hP⟩
  · rintro ⟨hparent, hlinks⟩ t ht
    have hdeclared : t = .parent → g.parents ≠ [] := by
      intro heq
      rw [heq] at ht
      exact hparent ht
    obtain ⟨y, hy⟩ := exists_targetName_iff.2 hdeclared
    obtain ⟨hcontains, hP⟩ := hlinks y ⟨g, t, hg, ht, hy⟩
    exact ⟨y, targetId_eq_ok_iff.2 ⟨hy, hcontains⟩, hP⟩

/-! ## success -/

/-- A replay succeeds if the glyph is ready and replays of what it is entangled with succeed. -/
theorem exists_replay_iff_links : (∃ a, r.replay settings path id = .ok a) ↔
    id ∉ path ∧ path.length ≤ settings.maxDepth ∧ r.Ready settings.maxDepth id ∧
      ∀ y, r.Entangles id y → ∃ a, r.replay settings (id :: path) y = .ok a := by
  constructor
  · rintro ⟨a, ha⟩
    obtain ⟨hid, hlen, l, g, s, hl, hg, hs, -⟩ := replay_eq_ok_iff.1 ha
    obtain ⟨hparent, hlinks⟩ := (targets_iff hg).1 (exists_replayCommands_iff.1 ⟨s, hs⟩)
    have hready : r.Ready settings.maxDepth id := by
      refine ⟨⟨l, hl⟩, fun g' hg' => ?_, fun y hy => (hlinks y hy).1⟩
      rw [hg, Option.some.injEq] at hg'
      rw [← hg']
      exact hparent
    exact ⟨hid, hlen, hready, fun y hy => (hlinks y hy).2⟩
  · rintro ⟨hid, hlen, hready, hlinks⟩
    obtain ⟨l, hl⟩ := hready.lineage
    obtain ⟨g, hg⟩ := Option.isSome_iff_exists.1 (lineage_eq_ok_iff.1 hl).1
    have htargets := (targets_iff hg).2
      ⟨hready.parent g hg, fun y hy => ⟨hready.targets y hy, hlinks y hy⟩⟩
    obtain ⟨s, hs⟩ := exists_replayCommands_iff.2 htargets
    exact ⟨_, replay_eq_ok_iff.2 ⟨hid, hlen, l, g, s, hl, hg, hs, rfl⟩⟩

/-- A glyph without parents asks for nothing but its targets. -/
theorem exists_replay_of_parents_eq_nil (hg : r.get? id = some g) (hparents : g.parents = [])
    (hid : id ∉ path) (hlen : path.length ≤ settings.maxDepth)
    (htargets : ∀ t, .entangle t ∈ g.commands → ∃ y, r.targetId g t = .ok y ∧
      ∃ a, r.replay settings (id :: path) y = .ok a) : ∃ a, r.replay settings path id = .ok a := by
  have hl : r.lineage settings.maxDepth id = .ok ⟨id, [], 0, []⟩ :=
    lineage_of_parents_eq_nil hg hparents
  obtain ⟨s, hs⟩ := exists_replayCommands_iff.2 htargets
  exact ⟨_, replay_eq_ok_iff.2 ⟨hid, hlen, _, g, s, hl, hg, hs, rfl⟩⟩

/-- The glyph can be activated from the path: everything that it reaches is ready, nothing that
it reaches is on the path, and no chain of entanglements goes over the limit. -/
structure Activatable (settings : ActivationSettings) (r : Registry) (path : List String)
    (id : String) : Prop where
  ready : ∀ x, ReflTransGen r.Entangles id x → r.Ready settings.maxDepth x
  apart : ∀ x ∈ path, ¬ReflTransGen r.Entangles id x
  fits : ∀ n b, Chain r.Entangles n id b → path.length + n ≤ settings.maxDepth

theorem Activatable.acyclic (h : Activatable settings r path id) : Acyclic r.Entangles id :=
  acyclic_of_chain_le fun n b hc => Nat.le_trans (Nat.le_add_left n _) (h.fits n b hc)

/-- Nothing leads back to a glyph that can be activated. -/
theorem Activatable.of_link {y : String} (h : Activatable settings r path id)
    (hy : r.Entangles id y) : Activatable settings r (id :: path) y where
  ready := fun x hx => h.ready x (hx.head hy)
  apart := by
    intro x hx hyx
    obtain rfl | hx := List.mem_cons.1 hx
    · exact h.acyclic x .refl (.head' hy hyx)
    · exact h.apart x hx (hyx.head hy)
  fits := by
    intro n b hc
    have hfits := h.fits (n + 1) b (.cons hy hc)
    rw [List.length_cons]
    omega

theorem activatable_iff_links : Activatable settings r path id ↔
    id ∉ path ∧ path.length ≤ settings.maxDepth ∧ r.Ready settings.maxDepth id ∧
      ∀ y, r.Entangles id y → Activatable settings r (id :: path) y := by
  constructor
  · intro h
    exact ⟨fun hid => h.apart id hid .refl, h.fits 0 id (.nil id), h.ready id .refl,
      fun y hy => h.of_link hy⟩
  · rintro ⟨hid, hlen, hready, hlinks⟩
    constructor
    · intro x hx
      obtain rfl | ⟨y, hy, hyx⟩ := hx.cases_head
      · exact hready
      · exact (hlinks y hy).ready x hyx
    · intro x hx hidx
      obtain rfl | ⟨y, hy, hyx⟩ := hidx.cases_head
      · exact hid hx
      · exact (hlinks y hy).apart x (List.mem_cons_of_mem _ hx) hyx
    · intro n b hc
      cases hc with
      | nil => exact hlen
      | cons hy t =>
          have hfits := (hlinks _ hy).fits _ b t
          rw [List.length_cons] at hfits
          omega

/-- A replay succeeds exactly on the glyphs that can be activated, by induction on how much longer
the path may grow. -/
theorem exists_replay_iff :
    (∃ a, r.replay settings path id = .ok a) ↔ Activatable settings r path id := by
  induction hk : settings.maxDepth + 1 - path.length generalizing path id with
  | zero =>
      rw [exists_replay_iff_links, activatable_iff_links]
      have hlong : ¬path.length ≤ settings.maxDepth := by omega
      simp only [hlong, false_and, and_false]
  | succ k ih =>
      rw [exists_replay_iff_links, activatable_iff_links]
      have hlinks (y : String) : (∃ a, r.replay settings (id :: path) y = .ok a) ↔
          Activatable settings r (id :: path) y := ih (by rw [List.length_cons]; omega)
      simp only [hlinks]

/-! ## a higher limit -/

section Raise

variable {activate activate' : String → Except ActivationError Activation} {s s' : FieldState}
  {c : Command} {cs : List Command}

theorem replayCommand_of_le (hact : ∀ y a, activate y = .ok a → activate' y = .ok a)
    (h : r.replayCommand settings g coefficient activate s c = .ok s') :
    r.replayCommand { settings with maxDepth := m } g coefficient activate' s c = .ok s' := by
  cases c with
  | entangle t =>
      simp only [replayCommand] at h ⊢
      cases hy : r.targetId g t with
      | error e => simp only [hy] at h; cases h
      | ok y =>
          simp only [hy] at h
          cases ha : activate y with
          | error e => rw [ha] at h; cases h
          | ok a =>
              rw [ha] at h
              simp only [hact y a ha]
              exact h
  | _ => exact h

theorem replayCommands_of_le (hact : ∀ y a, activate y = .ok a → activate' y = .ok a)
    (h : cs.foldlM (r.replayCommand settings g coefficient activate) s = .ok s') :
    cs.foldlM (r.replayCommand { settings with maxDepth := m } g coefficient activate') s =
      .ok s' := by
  induction cs generalizing s with
  | nil => exact h
  | cons c cs ih =>
      rw [List.foldlM_cons] at h ⊢
      cases hc : r.replayCommand settings g coefficient activate s c with
      | error e => rw [hc] at h; cases h
      | ok s₁ =>
          rw [hc] at h
          rw [replayCommand_of_le hact hc]
          exact ih h

end Raise

/-- A higher limit does not change a replay that succeeds. -/
theorem replay_of_le {a : Activation} (hle : settings.maxDepth ≤ m)
    (h : r.replay settings path id = .ok a) :
    r.replay { settings with maxDepth := m } path id = .ok a := by
  induction hk : settings.maxDepth + 1 - path.length generalizing path id a with
  | zero =>
      have hlen := (replay_eq_ok_iff.1 h).2.1
      omega
  | succ k ih =>
      obtain ⟨hid, hlen, l, g, s, hl, hg, hs, ha⟩ := replay_eq_ok_iff.1 h
      have htarget (y : String) (b : Activation) (hb : r.replay settings (id :: path) y = .ok b) :
          r.replay { settings with maxDepth := m } (id :: path) y = .ok b :=
        ih hb (by rw [List.length_cons]; omega)
      have hcommands := replayCommands_of_le (m := m) htarget hs
      exact replay_eq_ok_iff.2
        ⟨hid, Nat.le_trans hlen hle, l, g, s, lineage_of_le hle hl, hg, hcommands, ha⟩

end Registry

/-! ## activations -/

theorem Registry.activate_eq_ok_iff {settings : ActivationSettings} {r : Registry} {id : String}
    {a : Activation} :
    (r.activate settings id).1 = .ok a ↔ r.replay settings [] id = .ok a :=
  (r.activate_eq_replay settings id).eq_ok_iff

/-- Only the limit itself is checked of a limit. -/
theorem ActivationSettings.fault?_of_le {settings : ActivationSettings} {m : Nat}
    (h : settings.fault? = none) (hle : settings.maxDepth ≤ m) (hm : m ≤ 32) :
    { settings with maxDepth := m }.fault? = none := by
  unfold fault? at h ⊢
  split at h
  next => cases h
  next hdepth =>
    rw [if_neg (by show ¬(m = 0 ∨ 32 < m); omega)]
    exact h

namespace Interpreter

theorem withSettings_of_fault? {r : Registry} {settings : ActivationSettings}
    (h : settings.fault? = none) :
    withSettings r settings = .ok ⟨r, settings, h, emptyTrace settings⟩ := by
  unfold withSettings
  split
  next fault hfault =>
    rw [h] at hfault
    cases hfault
  next => rfl

/-- **When an activation succeeds.**  The glyph must be registered, and each glyph that it reaches
by entanglements must have a lineage within the limit, a declared parent if its script entangles
it with one, and registered targets; no cycle of entanglements may be reached, and no chain of
them from the glyph may have more links than the limit.  That is enough.  Under a higher limit an
activation that succeeds gives the same. -/
theorem activate_succeeds_iff (i : Interpreter) (id : String) :
    ((∃ a, (i.activate id).1 = .ok a) ↔
      i.registry.contains id = true ∧
        (∀ x, ReflTransGen i.registry.Entangles id x →
          i.registry.Ready i.settings.maxDepth x) ∧
        (∀ x, ReflTransGen i.registry.Entangles id x → ¬TransGen i.registry.Entangles x x) ∧
        ∀ n x, Chain i.registry.Entangles n id x → n ≤ i.settings.maxDepth) ∧
    ∀ a m, (i.activate id).1 = .ok a → i.settings.maxDepth ≤ m → m ≤ 32 →
      ∃ j, withSettings i.registry { i.settings with maxDepth := m } = .ok j ∧
        (j.activate id).1 = .ok a := by
  have hreplay (j : Interpreter) (a : Activation) :
      (j.activate id).1 = .ok a ↔ j.registry.replay j.settings [] id = .ok a :=
    Registry.activate_eq_ok_iff
  constructor
  · simp only [hreplay, Registry.exists_replay_iff]
    constructor
    · intro h
      obtain ⟨l, hl⟩ := (h.ready id .refl).lineage
      have hfits (n : Nat) (x : String) (hc : Chain i.registry.Entangles n id x) :
          n ≤ i.settings.maxDepth := by
        have := h.fits n x hc
        omega
      exact ⟨(Registry.lineage_eq_ok_iff.1 hl).1, h.ready, h.acyclic, hfits⟩
    · rintro ⟨-, hready, -, hfits⟩
      refine ⟨hready, fun x hx => absurd hx List.not_mem_nil, fun n b hc => ?_⟩
      rw [List.length_nil, Nat.zero_add]
      exact hfits n b hc
  · intro a m ha hle hm
    have hfault := ActivationSettings.fault?_of_le i.fault?_eq_none hle hm
    refine ⟨_, withSettings_of_fault? hfault, ?_⟩
    rw [hreplay] at ha ⊢
    exact Registry.replay_of_le hle ha

end Interpreter

end GlyphField
