import GlyphField.Proofs.AncestorOrder
import GlyphField.Proofs.MemoSound

/-!
# GlyphField.Proofs.ErrorCertificates

What a reported cycle or a chain over the limit shows.  Both are read off the path, so a path is
followed as a `Trail`: linked glyphs, none twice, from the first glyph on.  Coming back to a glyph
of the trail closes a cycle; a chain over the limit is the trail and, above a glyph that has been
left before, a longest chain of its ancestors, which the trail cannot meet since nothing on it
has been left.

* `Trail.isCycle` — coming back to a trail closes a cycle;
* `Invariant.certificate` — what a failing turn of the walk along parents has found;
* `cycle_of_replay` — a cycle reported by nested activations is one of parents or of entanglements;
* `errors_certified` — the reports of lineages and of activations.
-/

namespace GlyphField

open Relation (ReflTransGen TransGen)

/-! ## certificates -/

/-- The list is a cycle of links between registered glyphs, reached from `root`: it starts and ends
with `id`, and nothing else stands in it twice. -/
structure IsCycle (r : Registry) (R : String → String → Prop) (root id : String)
    (cycle : List String) : Prop where
  two_le : 2 ≤ cycle.length
  head : cycle.head? = some id
  last : cycle.getLast? = some id
  nodup : cycle.tail.Nodup
  linked : cycle.IsChain R
  registered : ∀ a ∈ cycle, r.contains a = true
  reached : ∀ a ∈ cycle, ReflTransGen R root a

/-- The list is a chain of links from `root` that passes through `id`, without repetition and with
more links than the limit. -/
structure IsLongChain (R : String → String → Prop) (root id : String) (limit : Nat)
    (chain : List String) : Prop where
  head : chain.head? = some root
  mem : id ∈ chain
  nodup : chain.Nodup
  linked : chain.IsChain R
  long : limit + 1 < chain.length

/-! ## trails -/

/-- Registered glyphs linked one to the next, none twice, reached from `root`; the latest stands
first. -/
structure Trail (r : Registry) (R : String → String → Prop) (root : String)
    (path : List String) : Prop where
  linked : path.IsChain fun b a => R a b
  start : ∀ a ∈ path.getLast?, a = root
  nodup : path.Nodup
  registered : ∀ a ∈ path, r.contains a = true
  reached : ∀ a ∈ path, ReflTransGen R root a

/-- The next glyph of a trail: linked to the latest one, or the root at the start. -/
def IsNext (R : String → String → Prop) (root : String) (path : List String) (id : String) : Prop :=
  match path with
  | [] => id = root
  | a :: _ => R a id

section Trail

variable {r : Registry} {R : String → String → Prop} {root id : String} {path : List String}

theorem Trail.nil : Trail r R root [] where
  linked := .nil
  start := fun _ ha => by cases ha
  nodup := .nil
  registered := fun _ ha => absurd ha List.not_mem_nil
  reached := fun _ ha => absurd ha List.not_mem_nil

theorem Trail.reached_next (h : Trail r R root path) (hnext : IsNext R root path id) :
    ReflTransGen R root id := by
  cases path with
  | nil => exact hnext ▸ .refl
  | cons a path => exact (h.reached a List.mem_cons_self).tail hnext

theorem Trail.linked_next (h : Trail r R root path) (hnext : IsNext R root path id) :
    (id :: path).IsChain fun b a => R a b := by
  cases path with
  | nil => exact .singleton id
  | cons a path => exact h.linked.cons_cons hnext

theorem Trail.start_next (h : Trail r R root path) (hnext : IsNext R root path id) :
    ∀ a ∈ (id :: path).getLast?, a = root := by
  cases path with
  | nil =>
      rintro a ⟨⟩
      exact hnext
  | cons b path => simpa [List.getLast?_cons_cons] using h.start

theorem Trail.cons (h : Trail r R root path) (hnext : IsNext R root path id) (hid : id ∉ path)
    (hreg : r.contains id = true) : Trail r R root (id :: path) where
  linked := h.linked_next hnext
  start := h.start_next hnext
  nodup := List.nodup_cons.2 ⟨hid, h.nodup⟩
  registered := List.forall_mem_cons.2 ⟨hreg, h.registered⟩
  reached := List.forall_mem_cons.2 ⟨h.reached_next hnext, h.reached⟩

theorem cycleTo_append {front rest : List String} (h : id ∉ front) :
    Registry.cycleTo (front ++ id :: rest) id = id :: (front.reverse ++ [id]) := by
  have hfront : ∀ a ∈ front, decide (a ≠ id) = true := by
    intro a ha
    exact decide_eq_true (ne_of_mem_of_not_mem ha h)
  rw [Registry.cycleTo, List.takeWhile_append_of_pos hfront, List.takeWhile_cons_of_neg (by simp),
    List.append_nil]

/-- Coming back to a glyph of the trail closes a cycle. -/
theorem Trail.isCycle (h : Trail r R root path) (hnext : IsNext R root path id) (hid : id ∈ path) :
    IsCycle r R root id (Registry.cycleTo path id) := by
  have hlinked := h.linked_next hnext
  obtain ⟨front, rest, rfl, hfront⟩ := List.eq_append_cons_of_mem hid
  have hback : id :: (front.reverse ++ [id]) = (id :: (front ++ [id])).reverse := by simp
  have hmem : ∀ a ∈ id :: (front.reverse ++ [id]), a ∈ front ++ id :: rest := by
    intro a ha
    simp only [List.mem_cons, List.mem_append, List.mem_reverse, List.not_mem_nil, or_false] at ha ⊢
    tauto
  have hsub : (front ++ [id]).Sublist (front ++ id :: rest) :=
    List.Sublist.append_left (by simp) front
  rw [cycleTo_append hfront]
  constructor
  · simp
  · rfl
  · rw [← List.cons_append, List.getLast?_concat]
  · exact ((List.reverse_perm front).append_right [id]).nodup_iff.2 (h.nodup.sublist hsub)
  · rw [hback, List.isChain_reverse]
    exact hlinked.prefix ⟨rest, by simp⟩
  · exact fun a ha => h.registered a (hmem a ha)
  · exact fun a ha => h.reached a (hmem a ha)

/-- A trail and a chain above its next glyph, which has nothing in common with the trail. -/
theorem Trail.isLongChain {limit : Nat} {above : List String} (h : Trail r R root path)
    (hnext : IsNext R root path id) (hid : id ∉ path) (habove : (id :: above).IsChain R)
    (hnodup : (id :: above).Nodup) (hapart : ∀ a ∈ above, a ∉ path)
    (hlong : limit < path.length + above.length) :
    IsLongChain R root id limit (path.reverse ++ id :: above) where
  head := by
    have hstart := h.start_next hnext
    rw [← List.head?_reverse, List.reverse_cons] at hstart
    cases hpath : path.reverse with
    | nil =>
        rw [hpath] at hstart
        exact congrArg some (hstart id rfl)
    | cons a as =>
        rw [hpath] at hstart
        exact congrArg some (hstart a rfl)
  mem := by simp
  nodup := by
    refine List.nodup_append.2 ⟨List.nodup_reverse.2 h.nodup, hnodup, fun a ha b hb => ?_⟩
    have ha := List.mem_reverse.1 ha
    obtain rfl | hb := List.mem_cons.1 hb
    · exact ne_of_mem_of_not_mem ha hid
    · exact ne_of_mem_of_not_mem ha (hapart b hb)
  linked := by
    have hup : (path.reverse ++ [id]).IsChain R := by
      rw [← List.reverse_cons, List.isChain_reverse]
      exact h.linked_next hnext
    have hover : ([id] ++ above).IsChain R := habove
    have hall := hup.append_overlap hover (List.cons_ne_nil id [])
    rwa [List.append_assoc] at hall
  long := by
    rw [List.length_append, List.length_reverse, List.length_cons]
    omega

end Trail

/-! ## lineages -/

namespace Lineage

variable {r : Registry} {root : String} {limit : Nat} {waiting : List String}
  {levels : List Level} {w : Walk} {e : LineageError}

/-- The path of a walk is a trail, and whatever waits may follow it. -/
theorem Ladder.trail (hroot : r.contains root = true) (h : Ladder r root limit waiting levels) :
    Trail r r.Inherits root (levels.map Level.glyph) ∧
      ∀ p ∈ waiting, IsNext r.Inherits root (levels.map Level.glyph) p := by
  induction levels generalizing waiting with
  | nil => exact ⟨.nil, h⟩
  | cons l ls ih =>
      obtain ⟨hlink, hnew, -, hbelow⟩ := h
      obtain ⟨htrail, hnext⟩ := ih hbelow
      have hreg := hbelow.contains hroot List.mem_cons_self
      exact ⟨htrail.cons (hnext _ List.mem_cons_self) hnew hreg, hlink⟩

/-- A longest chain of ancestors of a glyph that has been left. -/
theorem Retired.exists_chain {finished : List (String × Nat)} {p : String} {k : Nat}
    (h : Retired r finished) (hp : finished.lookup p = some k) :
    ∃ above : List String, (p :: above).IsChain r.Inherits ∧ (p :: above).Nodup ∧
      above.length = k ∧ ∀ a ∈ above, (finished.lookup a).isSome = true := by
  have hheight := (h.of_lookup hp).2
  obtain ⟨b, hb⟩ := hheight.1
  obtain ⟨above, hchain, hlen⟩ := hb.exists_isChain
  have hacyclic : Acyclic r.Inherits p := acyclic_of_chain_le fun n c hc => hheight.chain_le hc
  have hleft : p ∈ finished.map Prod.fst := isSome_lookup_iff.1 (by rw [hp, Option.isSome_some])
  refine ⟨above, hchain, hacyclic.nodup hchain, hlen, fun a ha => isSome_lookup_iff.2 ?_⟩
  exact h.mem_of_reflTransGen hleft (reflTransGen_of_isChain hchain (List.mem_cons_of_mem p ha))

/-- A failing turn has found a cycle of parents, or a chain of them over the limit. -/
theorem Invariant.certificate (hroot : r.contains root = true)
    (h : Invariant r root limit waiting levels w) (he : r.step limit w = .error e) :
    (∃ p cycle, e = .circular p cycle ∧ IsCycle r r.Inherits root p cycle) ∨
      ∃ p chain, e = .tooDeep p limit ∧ IsLongChain r.Inherits root p limit chain := by
  obtain ⟨p, waiting, rfl, hcause⟩ := h.error_cases he
  obtain ⟨htrail, hnext⟩ := h.ladder.trail hroot
  have hnext := hnext p List.mem_cons_self
  obtain ⟨hpath, rfl⟩ | ⟨hpath, rfl, hdeep⟩ := hcause
  · refine .inl ⟨p, _, rfl, ?_⟩
    rw [Walk.cycleTo, h.path_eq]
    exact htrail.isCycle hnext hpath
  · obtain ⟨k, hk, hlt⟩ | ⟨-, hlt⟩ := hdeep
    · obtain ⟨above, habove, hnodup, hlen, hleft⟩ := h.retired.exists_chain hk
      -- what has been left is not on the path any more
      have hapart : ∀ a ∈ above, a ∉ levels.map Level.glyph := by
        intro a ha hmem
        obtain ⟨l, hl, rfl⟩ := List.mem_map.1 hmem
        have hsome := hleft _ ha
        rw [h.apart l hl] at hsome
        cases hsome
      refine .inr ⟨p, _, rfl, htrail.isLongChain hnext hpath habove hnodup hapart ?_⟩
      rwa [List.length_map, hlen]
    · refine .inr ⟨p, _, rfl, htrail.isLongChain hnext hpath (.singleton p)
        (List.nodup_singleton p) (fun _ ha => absurd ha List.not_mem_nil) ?_⟩
      rwa [List.length_map, List.length_nil, Nat.add_zero]

end Lineage

/-- What a lineage that fails has found. -/
theorem Registry.certificate_of_lineage {r : Registry} {limit : Nat} {id : String}
    {e : LineageError} (h : r.lineage limit id = .error e) : e = .unknownGlyph id ∨
      (∃ a cycle, e = .circular a cycle ∧ IsCycle r r.Inherits id a cycle) ∨
      ∃ a chain, e = .tooDeep a (min limit maxDepth) ∧
        IsLongChain r.Inherits id a (min limit maxDepth) chain := by
  obtain ⟨-, rfl⟩ | ⟨hid, hwalk⟩ := lineage_eq_error_iff.1 h
  · exact .inl rfl
  · obtain ⟨w, hturns, hfail⟩ := Lineage.turns_of_walk_error hwalk
    obtain ⟨waiting, levels, hinv⟩ := Lineage.Invariant.of_turns hid hturns
    exact .inr (hinv.certificate hid hfail)

theorem Registry.isCycle_of_lineage {r : Registry} {limit : Nat} {id a : String}
    {cycle : List String} (h : r.lineage limit id = .error (.circular a cycle)) :
    IsCycle r r.Inherits id a cycle := by
  obtain heq | ⟨b, c, heq, hcycle⟩ | ⟨b, c, heq, -⟩ := certificate_of_lineage h
  · cases heq
  · cases heq
    exact hcycle
  · cases heq

theorem Registry.isLongChain_of_lineage {r : Registry} {limit m : Nat} {id a : String}
    (h : r.lineage limit id = .error (.tooDeep a m)) :
    m = min limit maxDepth ∧ ∃ chain, IsLongChain r.Inherits id a m chain := by
  obtain heq | ⟨b, c, heq, -⟩ | ⟨b, chain, heq, hchain⟩ := certificate_of_lineage h
  · cases heq
  · cases heq
  · cases heq
    exact ⟨rfl, chain, hchain⟩

/-! ## activations -/

namespace Registry

variable {settings : ActivationSettings} {r : Registry} {path : List String} {root id : String}
  {g : Glyph} {coefficient : Float} {e : LineageError}

/-- A target is never at fault for a lineage. -/
theorem targetId_ne_lineage {t : Target} : r.targetId g t ≠ .error (.lineage e) := by
  unfold targetId
  cases t with
  | glyph y =>
      simp only [Glyph.targetName, Except.bind]
      split <;> simp
  | parent =>
      cases hparents : g.parents with
      | nil => simp [Glyph.targetName, hparents, Except.bind]
      | cons p ps =>
          simp only [Glyph.targetName, hparents, Except.bind]
          split <;> simp

/-- A script fails for a lineage only through one of its targets. -/
theorem target_of_replayCommands {activate : String → Except ActivationError Activation}
    {s : FieldState} {cs : List Command}
    (h : cs.foldlM (r.replayCommand settings g coefficient activate) s = .error (.lineage e)) :
    ∃ t y, .entangle t ∈ cs ∧ g.targetName t = .ok y ∧ activate y = .error (.lineage e) := by
  induction cs generalizing s with
  | nil => cases h
  | cons c cs ih =>
      rw [List.foldlM_cons] at h
      cases hc : r.replayCommand settings g coefficient activate s c with
      | ok s₁ =>
          rw [hc] at h
          obtain ⟨t, y, ht, hy, hfail⟩ := ih h
          exact ⟨t, y, List.mem_cons_of_mem c ht, hy, hfail⟩
      | error e' =>
          rw [hc] at h
          cases h
          cases c with
          | entangle t =>
              simp only [replayCommand] at hc
              cases hy : r.targetId g t with
              | error e' =>
                  simp only [hy, Except.error.injEq] at hc
                  rw [hc] at hy
                  exact absurd hy targetId_ne_lineage
              | ok y =>
                  simp only [hy] at hc
                  cases ha : activate y with
                  | ok a =>
                      rw [ha] at hc
                      cases hc
                  | error e' =>
                      rw [ha] at hc
                      cases hc
                      exact ⟨t, y, List.mem_cons_self, (targetId_eq_ok_iff.1 hy).1, ha⟩
          | _ => cases hc

/-- How a replay fails for a lineage: by its place on the path, by its parents, or by a glyph it is
entangled with. -/
theorem replay_error_cases (h : r.replay settings path id = .error (.lineage e)) :
    id ∈ path ∧ e = .circular id (cycleTo path id) ∨
      id ∉ path ∧ (settings.maxDepth < path.length ∧ e = .tooDeep id settings.maxDepth ∨
        path.length ≤ settings.maxDepth ∧ (r.lineage settings.maxDepth id = .error e ∨
          r.contains id = true ∧ ∃ y, r.Entangles id y ∧
            r.replay settings (id :: path) y = .error (.lineage e))) := by
  by_cases hid : id ∈ path
  · rw [replay_of_mem hid] at h
    cases h
    exact .inl ⟨hid, rfl⟩
  refine .inr ⟨hid, ?_⟩
  by_cases hlong : settings.maxDepth < path.length
  · rw [replay_of_long hid hlong] at h
    cases h
    exact .inl ⟨hlong, rfl⟩
  have hlen := Nat.le_of_not_lt hlong
  refine .inr ⟨hlen, ?_⟩
  cases hl : r.lineage settings.maxDepth id with
  | error e' =>
      rw [replay_of_lineage_error hid hlen hl] at h
      cases h
      exact .inl rfl
  | ok l =>
      have hreg := (lineage_eq_ok_iff.1 hl).1
      obtain ⟨g, hg⟩ := Option.isSome_iff_exists.1 hreg
      rw [replay_of_lineage_ok hid hlen hl hg] at h
      cases hs : g.commands.foldlM (r.replayCommand settings g (r.compose l).coefficient
          (r.replay settings (id :: path))) (r.compose l).state with
      | ok s =>
          rw [hs] at h
          cases h
      | error e' =>
          rw [hs] at h
          cases h
          obtain ⟨t, y, ht, hy, hfail⟩ := target_of_replayCommands hs
          exact .inr ⟨hreg, y, ⟨g, t, hg, ht, hy⟩, hfail⟩

/-- A cycle reported by a replay, by induction on how much longer the path may grow: it closes the
path, or is a cycle of parents of a glyph that is entangled. -/
theorem cycle_of_replay {a : String} {cycle : List String} (hpath : Trail r r.Entangles root path)
    (hnext : IsNext r.Entangles root path id)
    (h : r.replay settings path id = .error (.lineage (.circular a cycle))) :
    (∃ x, ReflTransGen r.Entangles root x ∧ IsCycle r r.Inherits x a cycle) ∨
      IsCycle r r.Entangles root a cycle := by
  induction hk : settings.maxDepth + 1 - path.length generalizing path id with
  | zero =>
      obtain ⟨hid, heq⟩ | ⟨-, ⟨-, heq⟩ | ⟨hlen, -⟩⟩ := replay_error_cases h
      · cases heq
        exact .inr (hpath.isCycle hnext hid)
      · cases heq
      · omega
  | succ k ih =>
      obtain ⟨hid, heq⟩ | ⟨hid, ⟨-, heq⟩ | ⟨-, hl | ⟨hreg, y, hy, hfail⟩⟩⟩ := replay_error_cases h
      · cases heq
        exact .inr (hpath.isCycle hnext hid)
      · cases heq
      · exact .inl ⟨id, hpath.reached_next hnext, isCycle_of_lineage hl⟩
      · exact ih (hpath.cons hnext hid hreg) hy hfail (by rw [List.length_cons]; omega)

end Registry

/-- **Reported cycles and chains.**  A cycle reported for a lineage is one of declared parents
between registered glyphs, among the glyph and its ancestors; it starts and ends with the reported
glyph and meets nothing else twice.  A chain reported as too long is there: it leads from the glyph
through the reported one, without repetition and with more links than the limit.  A cycle reported
by an activation is such a cycle too, of the parents of a glyph that the activated one reaches by
entanglements, or of those entanglements. -/
theorem errors_certified (r : Registry) (id : String) :
    (∀ limit a cycle, r.lineage limit id = .error (.circular a cycle) →
      IsCycle r r.Inherits id a cycle) ∧
    (∀ limit a m, r.lineage limit id = .error (.tooDeep a m) →
      m = min limit 32 ∧ ∃ chain, IsLongChain r.Inherits id a m chain) ∧
    ∀ i : Interpreter, i.registry = r → ∀ a cycle,
      (i.activate id).1 = .error (.lineage (.circular a cycle)) →
        (∃ x, ReflTransGen r.Entangles id x ∧ IsCycle r r.Inherits x a cycle) ∨
          IsCycle r r.Entangles id a cycle := by
  refine ⟨fun _ _ _ => Registry.isCycle_of_lineage,
    fun _ _ _ => Registry.isLongChain_of_lineage, ?_⟩
  rintro i rfl a cycle h
  have hsame : SameOutcome (i.activate id).1 (i.registry.replay i.settings [] id) :=
    i.registry.activate_eq_replay i.settings id
  rw [h] at hsame
  cases hreplay : i.registry.replay i.settings [] id with
  | ok b =>
      rw [hreplay] at hsame
      cases hsame
  | error e =>
      rw [hreplay] at hsame
      obtain rfl | ⟨b, c, m, heq, -⟩ := hsame
      · exact Registry.cycle_of_replay .nil rfl hreplay
      · cases heq

/-- Two rings: of parents above `a`, and of entanglements between `d` and `e`. -/
def rings : Registry where
  glyphs := [{ id := "a", parents := ["b"] }, { id := "b", parents := ["c"] },
    { id := "c", parents := ["b"] }, { id := "d", script := "entangle(e)" },
    { id := "e", script := "entangle(d)" }]
  sorted := by
    unfold Keyed.Sorted
    decide
  length_le := by decide

theorem replay_rings :
    rings.replay {} [] "d" = .error (.lineage (.circular "d" ["d", "e", "d"])) := by
  have hd : rings.lineage 32 "d" = .ok ⟨"d", [], 0, []⟩ :=
    Registry.lineage_of_parents_eq_nil rfl rfl
  have he : rings.lineage 32 "e" = .ok ⟨"e", [], 0, []⟩ :=
    Registry.lineage_of_parents_eq_nil rfl rfl
  have hback : rings.replay {} ["e", "d"] "d" = .error (.lineage (.circular "d" ["d", "e", "d"])) :=
    Registry.replay_of_mem (by decide)
  have htarget : rings.replay {} ["d"] "e" = .error (.lineage (.circular "d" ["d", "e", "d"])) := by
    rw [Registry.replay_of_lineage_ok (by decide) (by decide) he rfl]
    show Except.map _ (Except.bind (Except.map _ (rings.replay {} ["e", "d"] "d")) _) = _
    rw [hback]
    rfl
  rw [Registry.replay_of_lineage_ok (by decide) (by decide) hd rfl]
  show Except.map _ (Except.bind (Except.map _ (rings.replay {} ["d"] "e")) _) = _
  rw [htarget]
  rfl

theorem lineage_rings : rings.lineage 32 "a" = .error (.circular "b" ["b", "c", "b"]) := by
  rw [Registry.lineage_of_contains rfl]
  iterate 3 rw [Lineage.walk_of_step_ok (List.cons_ne_nil _ _) rfl]
  rw [Lineage.walk_of_step_error (List.cons_ne_nil _ _) rfl]
  rfl

theorem rings_certified :
    rings.lineage 32 "a" = .error (.circular "b" ["b", "c", "b"]) ∧
      IsCycle rings rings.Inherits "a" "b" ["b", "c", "b"] ∧
    Registry.diamond.lineage 1 "d" = .error (.tooDeep "a" 1) ∧
      (∃ chain, IsLongChain Registry.diamond.Inherits "d" "a" 1 chain) ∧
    ((Interpreter.new rings).activate "d").1 =
        .error (.lineage (.circular "d" ["d", "e", "d"])) ∧
      ((∃ x, ReflTransGen rings.Entangles "d" x ∧
          IsCycle rings rings.Inherits x "d" ["d", "e", "d"]) ∨
        IsCycle rings rings.Entangles "d" "d" ["d", "e", "d"]) := by
  have hactivate : ((Interpreter.new rings).activate "d").1 =
      .error (.lineage (.circular "d" ["d", "e", "d"])) := by
    have hsame : SameOutcome ((Interpreter.new rings).activate "d").1 (rings.replay {} [] "d") :=
      rings.activate_eq_replay {} "d"
    cases hout : ((Interpreter.new rings).activate "d").1 with
    | ok a =>
        rw [hout, replay_rings] at hsame
        cases hsame
    | error e =>
        obtain rfl | ⟨a, b, m, -, heq⟩ := hsame.sameError hout replay_rings
        · rfl
        · cases heq
  obtain ⟨-, hchain⟩ :=
    (errors_certified Registry.diamond "d").2.1 _ _ _ Registry.lineage_diamond_tooDeep
  exact ⟨lineage_rings, (errors_certified rings "a").1 _ _ _ lineage_rings,
    Registry.lineage_diamond_tooDeep, hchain, hactivate,
    (errors_certified rings "d").2.2 _ rfl _ _ hactivate⟩

end GlyphField
