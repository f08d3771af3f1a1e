import GlyphField.Activation.Run
import GlyphField.Proofs.LineageLimit

/-!
# GlyphField.Proofs.Replay

Activation by plain recursion.  `Registry.replay` remembers nothing: each time a script entangles
its glyph with a target, the whole script of the target runs anew.  The glyphs whose scripts are
running form the path, which must not come back to one of them nor grow beyond the limit.

A replay sees nothing of a run but the path, so its laws are about one glyph at a time: `replay`
on a glyph of the path, on a path over the limit, and otherwise on the commands of the glyph.
`replay_eq_ok_iff` puts together when it succeeds.
-/

namespace GlyphField

namespace Registry

/-- The script of the registered glyph `a` entangles it with `b`, registered or not. -/
def Entangles (r : Registry) (a b : String) : Prop :=
  ∃ g t, r.get? a = some g ∧ Command.entangle t ∈ g.commands ∧ g.targetName t = .ok b

/-! ## replaying -/

/-- Runs one command of a glyph, whose targets are activated by `activate`. -/
def replayCommand (settings : ActivationSettings) (r : Registry) (g : Glyph) (coefficient : Float)
    (activate : String → Except ActivationError Activation) (s : FieldState) :
    Command → Except ActivationError FieldState
  | .entangle t =>
    match r.targetId g t with
    | .error e => .error e
    | .ok id => (activate id).map fun a => s.entangle settings coefficient a.state
  | c => .ok (s.apply settings c)

/-- Activates a glyph whose scripts run anew at every entanglement. `path` holds the glyphs whose
scripts are running, the latest first. -/
def replay (settings : ActivationSettings) (r : Registry) (path : List String) (id : String) :
    Except ActivationError Activation :=
  if path.contains id then .error (.lineage (.circular id (cycleTo path id)))
  else if _h : settings.maxDepth < path.length then
    .error (.lineage (.tooDeep id settings.maxDepth))
  else
    match r.lineage settings.maxDepth id, r.get? id with
    | .error e, _ => .error (.lineage e)
    | .ok _, none => .error (.lineage (.unknownGlyph id))
    | .ok l, some g =>
      let c := r.compose l
      let activate := fun target => r.replay settings (id :: path) target
      (g.commands.foldlM (r.replayCommand settings g c.coefficient activate) c.state).map
        fun s => ⟨id, s, l, g.quantumState⟩
termination_by settings.maxDepth + 1 - path.length
decreasing_by
  simp only [List.length_cons]
  omega

/-! ## laws -/

section Laws

variable {settings : ActivationSettings} {r : Registry} {path : List String} {id : String}

/-- The target of an entanglement is what it names, if that is registered. -/
theorem targetId_eq_ok_iff {g : Glyph} {t : Target} {y : String} :
    r.targetId g t = .ok y ↔ g.targetName t = .ok y ∧ r.contains y = true := by
  unfold targetId
  cases g.targetName t with
  | error e => simp [Except.bind]
  | ok z =>
      simp only [Except.bind]
      split
      next hz => grind
      next hz => grind

theorem replay_of_mem (h : id ∈ path) :
    r.replay settings path id = .error (.lineage (.circular id (cycleTo path id))) := by
  rw [replay, if_pos (List.contains_iff_mem.2 h)]

theorem replay_of_long (h : id ∉ path) (hlong : settings.maxDepth < path.length) :
    r.replay settings path id = .error (.lineage (.tooDeep id settings.maxDepth)) := by
  rw [replay, if_neg (fun hc => h (List.contains_iff_mem.1 hc)), dif_pos hlong]

theorem replay_of_lineage_error {e : LineageError} (h : id ∉ path)
    (hlen : path.length ≤ settings.maxDepth) (hl : r.lineage settings.maxDepth id = .error e) :
    r.replay settings path id = .error (.lineage e) := by
  rw [replay, if_neg (fun hc => h (List.contains_iff_mem.1 hc)),
    dif_neg (Nat.not_lt_of_le hlen), hl]

theorem replay_of_lineage_ok {l : Lineage} {g : Glyph} (h : id ∉ path)
    (hlen : path.length ≤ settings.maxDepth) (hl : r.lineage settings.maxDepth id = .ok l)
    (hg : r.get? id = some g) :
    r.replay settings path id =
      (g.commands.foldlM (r.replayCommand settings g (r.compose l).coefficient
        (r.replay settings (id :: path))) (r.compose l).state).map
          fun s => ⟨id, s, l, g.quantumState⟩ := by
  rw [replay, if_neg (fun hc => h (List.contains_iff_mem.1 hc)),
    dif_neg (Nat.not_lt_of_le hlen), hl, hg]

/-- A replay succeeds off the path and within the limit, if the glyph has a lineage and all its
commands succeed. -/
theorem replay_eq_ok_iff {a : Activation} : r.replay settings path id = .ok a ↔
    id ∉ path ∧ path.length ≤ settings.maxDepth ∧
      ∃ l g s, r.lineage settings.maxDepth id = .ok l ∧ r.get? id = some g ∧
        g.commands.foldlM (r.replayCommand settings g (r.compose l).coefficient
          (r.replay settings (id :: path))) (r.compose l).state = .ok s ∧
        ⟨id, s, l, g.quantumState⟩ = a := by
  constructor
  · intro h
    by_cases hid : id ∈ path
    · rw [replay_of_mem hid] at h
      cases h
    · by_cases hlong : settings.maxDepth < path.length
      · rw [replay_of_long hid hlong] at h
        cases h
      · have hlen := Nat.le_of_not_lt hlong
        refine ⟨hid, hlen, ?_⟩
        cases hl : r.lineage settings.maxDepth id with
        | error e =>
            rw [replay_of_lineage_error hid hlen hl] at h
            cases h
        | ok l =>
            obtain ⟨g, hg⟩ := Option.isSome_iff_exists.1 (lineage_eq_ok_iff.1 hl).1
            rw [replay_of_lineage_ok hid hlen hl hg] at h
            cases hs : g.commands.foldlM (r.replayCommand settings g (r.compose l).coefficient
                (r.replay settings (id :: path))) (r.compose l).state with
            | error e =>
                rw [hs] at h
                cases h
            | ok s =>
                rw [hs] at h
                cases h
                exact ⟨l, g, s, rfl, hg, hs, rfl⟩
  · rintro ⟨hid, hlen, l, g, s, hl, hg, hs, rfl⟩
    rw [replay_of_lineage_ok hid hlen hl hg, hs]
    rfl

end Laws

end Registry

end GlyphField
