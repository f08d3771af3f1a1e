import GlyphField.Proofs.PouchFrame
import GlyphField.Proofs.SnapshotRoundTrip
import GlyphField.Substrate.Status

/-!
# GlyphField.Proofs.QuantumCells

The flags of the cells and the pouch say the same. What has been stored is kept track of beside
the substrate: a memory that forgets everything when the substrate starts anew, takes note of each
superposition that a request stores, and knows nothing else of the substrate. `Remembers` says that
flags and pouch are those of a memory, and every event keeps them so.

* `Pouch.entries_eq` — a pouch lists what is stored in the order of the grid;
* `Remembers.after` — the step: one request, or a snapshot taken and restored;
* `quantum_cells_agree` — every run from a new substrate.
-/

namespace GlyphField

/-! ## pouches -/

namespace Pouch

theorem nodup_keys (p : Pouch) : (p.entries.map Prod.fst).Nodup :=
  List.pairwise_map.2 (p.sorted.imp fun h => h.ne)

theorem get?_eq_some_iff {p : Pouch} {i : Index} {q : Superposition} :
    p.get? i = some q ↔ (i, q) ∈ p.entries := by
  simp only [get?, Option.map_eq_some_iff]
  constructor
  · rintro ⟨e, he, rfl⟩
    obtain rfl := Keyed.find?_some_key he
    exact Keyed.mem_of_find? he
  · intro hmem
    obtain ⟨e, he⟩ : ∃ e, Keyed.find? Prod.fst i p.entries = some e := by
      rw [← Option.isSome_iff_exists, Keyed.find?, List.find?_isSome]
      exact ⟨(i, q), hmem, by simp⟩
    have hkey : e.1 = i := Keyed.find?_some_key he
    have heq : e = (i, q) :=
      List.inj_on_of_nodup_map p.nodup_keys (Keyed.mem_of_find? he) hmem hkey
    exact ⟨e, he, by rw [heq]⟩

/-- The entries are what is stored beside the cells, in the order of the grid. -/
theorem entries_eq (p : Pouch) :
    p.entries = (List.finRange cellCount).filterMap fun i => (p.get? i).map (i, ·) := by
  have hkey (i : Index) (e : Index × Superposition) :
      (p.get? i).map (i, ·) = some e ↔ e.1 = i ∧ e ∈ p.entries := by
    obtain ⟨j, q⟩ := e
    simp only [Option.map_eq_some_iff, Prod.mk.injEq, get?_eq_some_iff]
    constructor
    · rintro ⟨q', hq, rfl, rfl⟩
      exact ⟨rfl, hq⟩
    · rintro ⟨rfl, hq⟩
      exact ⟨q, hq, rfl, rfl⟩
  have hlisted : ((List.finRange cellCount).filterMap fun i => (p.get? i).map (i, ·)).Pairwise
      fun a b => a.1 < b.1 := by
    refine (List.pairwise_lt_finRange cellCount).filterMap _ fun i j hij a ha b hb => ?_
    rw [((hkey i a).1 ha).1, ((hkey j b).1 hb).1]
    exact hij
  refine List.Perm.eq_of_pairwise (fun a b _ _ hab hba => absurd hab hba.asymm) p.sorted hlisted ?_
  rw [List.perm_ext_iff_of_nodup (p.nodup_keys.of_map _) (hlisted.imp fun h heq => ?_)]
  · intro e
    simp [List.mem_filterMap, hkey]
  · exact absurd (heq ▸ h) (lt_irrefl _)

end Pouch

/-! ## memories -/

namespace Substrate

/-- What is known to be stored beside each cell. -/
abbrev Memory := Index → Option Superposition

end Substrate

/-- What a request stores, and beside which cell: a superposition beside a cell of the grid, or
that of a projected activation beside its home cell, if it declares components and they are not too
many. -/
def Request.stored? : Request → Option (Index × Superposition)
  | .operation (.store n q) => (Grid.index? n).map (·, q)
  | .project a =>
    if a.componentCount = 0 then none
    else (Superposition.spread a.componentCount a.state.phase).toOption.map (a.homeCell, ·)
  | _ => none

theorem Request.stored?_project_eq_some {a : Activation} {i : Index} {q : Superposition}
    (h : (Request.project a).stored? = some (i, q)) :
    a.componentCount ≠ 0 ∧ Superposition.spread a.componentCount a.state.phase = .ok q ∧
      a.homeCell = i := by
  simp only [Request.stored?] at h
  split at h
  · cases h
  · next hcount =>
    cases hspread : Superposition.spread a.componentCount a.state.phase with
    | error e =>
        rw [hspread] at h
        cases h
    | ok q' =>
        rw [hspread] at h
        cases h
        exact ⟨hcount, rfl, rfl⟩

namespace Substrate

/-- The memory after a request. -/
def remember (m : Memory) (rq : Request) : Memory :=
  match rq with
  | .operation .init => fun _ => none
  | rq =>
    match rq.stored? with
    | some (i, q) => Function.update m i (some q)
    | none => m

/-- Something that happens to a substrate: a request, or that it is replaced by what is restored
from its snapshot. -/
inductive Event where
  | request (rq : Request)
  | reload

/-- The substrate restored from a snapshot of it; without one it stays as it is. -/
def reload (s : Substrate) : Substrate :=
  match (Snapshot.ofSubstrate s).restore with
  | .ok s' => s'
  | .error _ => s

/-- The substrate after an event. -/
def after (s : Substrate) : Event → Substrate
  | .request rq => s.perform rq
  | .reload => s.reload

/-- The substrate after events in order. -/
def afterAll (s : Substrate) (es : List Event) : Substrate := es.foldl after s

/-- The memory after an event. -/
def rememberEvent (m : Memory) : Event → Memory
  | .request rq => remember m rq
  | .reload => m

/-- What has been stored last beside each cell since the last start. -/
def lastStored (es : List Event) : Memory := es.foldl rememberEvent fun _ => none

variable {s s' : Substrate} {m : Memory}

/-! ## remembering -/

/-- A projection that stores nothing. -/
theorem keeps_project (s : Substrate) {a : Activation} (h : (Request.project a).stored? = none) :
    s.Keeps (a.project s).2 := by
  have hwrite := s.keeps_write a.homeCell a.cellValue
  simp only [Request.stored?] at h
  simp only [Activation.project]
  generalize s.write a.homeCell a.cellValue = s' at hwrite
  split at h
  · next hcount =>
    rw [if_pos hcount]
    exact hwrite.trans (s'.keeps_read a.homeCell)
  · next hcount =>
    rw [if_neg hcount]
    cases hspread : Superposition.spread a.componentCount a.state.phase with
    | error e => exact hwrite
    | ok q =>
        rw [hspread] at h
        cases h

/-- The flags and the pouch are those of a memory. -/
structure Remembers (s : Substrate) (m : Memory) : Prop where
  flags : ∀ i, (s.cell i).isQuantum = (m i).isSome
  pouch : ∀ i, s.pouch.get? i = m i

theorem remembers_initial : initial.Remembers fun _ => none := by
  refine ⟨fun i => ?_, fun i => rfl⟩
  rw [cell_initial]
  rfl

theorem Remembers.keeps (h : s.Remembers m) (hkeeps : s.Keeps s') : s'.Remembers m := by
  constructor
  · intro i
    rw [← h.flags i, Cell.isQuantum, Cell.isQuantum, hkeeps.flags i]
  · intro i
    rw [← h.pouch i, hkeeps.pouch]

theorem isQuantum_markQuantum (c : Cell) : c.markQuantum.isQuantum = true := by
  have hflag (f : UInt8) : (f ||| 1) &&& 1 = 1 := by
    rw [← UInt8.toNat_inj, UInt8.toNat_and, UInt8.toNat_or]
    simp
  simp [Cell.markQuantum, Cell.isQuantum, Cell.quantumFlag, hflag]

/-- The step that stores. -/
theorem Remembers.store (h : s.Remembers m) (i : Index) (q : Superposition) :
    (s.store i q).Remembers (Function.update m i (some q)) := by
  constructor
  · intro j
    have hcell := s.cell_store i j q
    by_cases hj : i = j
    · subst hj
      simp [hcell, isQuantum_markQuantum]
    · simp [hcell, hj, Function.update_of_ne (Ne.symm hj), h.flags j]
  · intro j
    have hpouch : (s.store i q).pouch = s.pouch.insert i q := rfl
    rw [hpouch, Pouch.get?_insert]
    by_cases hj : i = j
    · simp [hj]
    · simp [hj, Function.update_of_ne (Ne.symm hj), h.pouch j]

theorem Remembers.run (h : s.Remembers m) (op : Operation) :
    (s.run op).2.Remembers (remember m (.operation op)) := by
  cases op with
  | init => exact remembers_initial
  | tick => exact h.keeps s.keeps_tick
  | sync => exact h
  | read n => exact h.keeps (s.keeps_withCell n s.keeps_read)
  | write n v => exact h.keeps (s.keeps_withCell n (s.keeps_write · v))
  | setDecayRate n rate => exact h.keeps (s.keeps_withCell n (s.keeps_setDecayRate · rate))
  | force n f => exact h.keeps (s.keeps_withCell n fun i => s.keeps_write i (f.apply (s.cell i)))
  | wave n w =>
      refine h.keeps (s.keeps_withCell n fun i => ?_)
      cases w.fault? with
      | some e => exact .refl s
      | none => simpa using s.keeps_wave i w
  | store n q =>
      simp only [Substrate.run, withCell, locate, remember, Request.stored?]
      cases Grid.index? n with
      | none => exact h
      | some i => exact h.store i q
  | retrieve n => exact h.keeps (s.keeps_withCell n fun _ => .refl s)

theorem Remembers.project (h : s.Remembers m) (a : Activation) :
    (a.project s).2.Remembers (remember m (.project a)) := by
  cases hstored : (Request.project a).stored? with
  | none =>
      simp only [remember, hstored]
      exact h.keeps (s.keeps_project hstored)
  | some e =>
      obtain ⟨i, q⟩ := e
      obtain ⟨hcount, hspread, rfl⟩ := Request.stored?_project_eq_some hstored
      have hwrite := h.keeps (s.keeps_write a.homeCell a.cellValue)
      have hstore := hwrite.store a.homeCell q
      simp only [remember, hstored, Activation.project, if_neg hcount, hspread]
      exact hstore.keeps (keeps_read _ a.homeCell)

/-- **The step of a run.** -/
theorem Remembers.after (h : s.Remembers m) (e : Event) :
    (s.after e).Remembers (rememberEvent m e) := by
  cases e with
  | request rq =>
      cases rq with
      | operation op => exact h.run op
      | project a => exact h.project a
  | reload =>
      simp only [Substrate.after, reload, Snapshot.restore_ofSubstrate]
      exact h

theorem Remembers.afterAll (h : s.Remembers m) (es : List Event) :
    (s.afterAll es).Remembers (es.foldl rememberEvent m) := by
  induction es generalizing s m with
  | nil => exact h
  | cons e es ih => exact ih (h.after e)

/-! ## quantum cells -/

/-- The entries are those of the flagged cells. -/
theorem Remembers.keys_pouch (h : s.Remembers m) :
    s.pouch.entries.map Prod.fst =
      (List.finRange cellCount).filter fun i => (s.cell i).isQuantum := by
  rw [Pouch.entries_eq, List.map_filterMap, ← List.filterMap_eq_filter]
  congr 1
  funext i
  rw [h.pouch, Option.guard, h.flags]
  cases m i <;> simp

/-- As many cells are flagged as there are entries. -/
theorem Remembers.size_pouch (h : s.Remembers m) :
    s.pouch.size = (List.finRange cellCount).countP fun i => (s.cell i).isQuantum := by
  rw [Pouch.size, ← List.length_map Prod.fst, h.keys_pouch, List.countP_eq_length_filter]

/-- **Flags and pouch agree.** After any events in the life of a new substrate, a cell is flagged
exactly if something has been stored beside it since the last start. The pouch then lists, in the
order of the grid and each once, the flagged cells with what has been stored there last; that is
also what is retrieved, or no components where nothing has been stored; and the summary counts the
flagged cells. -/
theorem quantum_cells_agree (es : List Event) :
    let s := initial.afterAll es
    (∀ i, ((s.cell i).isQuantum = true ↔ (s.pouch.get? i).isSome = true) ∧
      ((s.cell i).isQuantum = true ↔ (lastStored es i).isSome = true)) ∧
    (s.pouch.entries.map Prod.fst =
      (List.finRange cellCount).filter fun i => (s.cell i).isQuantum) ∧
    (∀ e ∈ s.pouch.entries, lastStored es e.1 = some e.2) ∧
    (∀ i : Index, s.run (.retrieve i.val) =
      (.ok (.superposition ((lastStored es i).getD .empty)), s)) ∧
    s.status.quantumCells =
      (List.finRange cellCount).countP fun i => (s.cell i).isQuantum := by
  intro s
  have h : s.Remembers (lastStored es) := remembers_initial.afterAll es
  refine ⟨fun i => ⟨?_, ?_⟩, h.keys_pouch, fun e he => ?_, fun i => ?_, h.size_pouch⟩
  · rw [h.flags, h.pouch]
  · rw [h.flags]
  · rw [← h.pouch, Pouch.get?_eq_some_iff]
    exact he
  · have hindex : Grid.index? i.val = some i := Grid.index?_eq_some_iff.2 rfl
    simp only [Substrate.run, withCell, locate, hindex, superposition, h.pouch]

end Substrate

end GlyphField
