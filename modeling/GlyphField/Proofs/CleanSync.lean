import GlyphField.Activation.Projection
import GlyphField.Proofs.CellBounds
import GlyphField.Proofs.ChecksumResidual

/-!
# GlyphField.Proofs.CleanSync

Substrates that are only changed by requests.  A substrate is `Clean` if its checksum leaves no
residual and all of its cells are valid, and `sync` accepts exactly these.  A request replaces
cells by what is written, marked or decayed, so it keeps a clean substrate clean, with whatever
floats and cell numbers it comes.

* `sync_eq_ok_iff` — what `sync` accepts;
* `Clean.perform` — the step: one request;
* `performAll_synced` — every run of requests from a new substrate.
-/

namespace GlyphField

/-- What a substrate can be asked for: an operation, or to take in an activation. -/
inductive Request where
  | operation (op : Operation)
  | project (a : Activation)

namespace Substrate

/-- The substrate after a request, a failed one included. -/
def perform (s : Substrate) : Request → Substrate
  | .operation op => (s.run op).2
  | .project a => (a.project s).2

/-- The substrate after requests in order. -/
def performAll (s : Substrate) (rs : List Request) : Substrate := rs.foldl perform s

/-- Whether the checksum fits and every cell is in its bounds. -/
structure Clean (s : Substrate) : Prop where
  residual : s.residual = 0
  isValid : ∀ i, (s.cell i).isValid = true

variable {s : Substrate}

theorem invalidCells_eq_zero_iff : s.invalidCells = 0 ↔ ∀ i, (s.cell i).isValid = true := by
  simp only [invalidCells, List.countP_eq_zero, Vector.mem_toList_iff, Bool.not_eq_true',
    Bool.not_eq_false, cell]
  constructor
  · intro h i
    exact h _ (Vector.getElem_mem i.isLt)
  · intro h c hc
    obtain ⟨i, hi, rfl⟩ := Vector.getElem_of_mem hc
    exact h ⟨i, hi⟩

theorem sync_eq_ok_iff : s.sync = .ok () ↔ s.Clean := by
  have hclean : s.Clean ↔ Checksum.ofCells s.cells.toList = s.checksum ∧ s.invalidCells = 0 := by
    rw [eq_comm, ← residual_eq_zero_iff, invalidCells_eq_zero_iff]
    exact ⟨fun h => ⟨h.residual, h.isValid⟩, fun h => ⟨h.1, h.2⟩⟩
  rw [hclean]
  simp only [sync]
  split
  · next h =>
    refine iff_of_false (by simp) fun hfit => ?_
    obtain h | h := h
    · exact h hfit.1
    · exact h.ne' hfit.2
  · next h =>
    obtain ⟨hsum, hcells⟩ := not_or.1 h
    exact iff_of_true rfl ⟨not_not.1 hsum, Nat.eq_zero_of_not_pos hcells⟩

/-! ## cells -/

theorem cell_setCell (s : Substrate) (i j : Index) (c : Cell) :
    (s.setCell i c).cell j = if i = j then c else s.cell j := by
  simp only [cell, setCell, Fin.getElem_fin, Vector.getElem_set, Fin.ext_iff]

theorem cell_initial (i : Index) : initial.cell i = Cell.neutral :=
  Vector.getElem_replicate i.isLt

theorem cell_tick (s : Substrate) (i : Index) : s.tick.cell i = (s.cell i).decay :=
  Vector.getElem_map Cell.decay i.isLt

theorem cell_write (s : Substrate) (i j : Index) (v : Reading) :
    (s.write i v).cell j = if i = j then (s.cell i).write s.time v else s.cell j :=
  s.cell_setCell i j _

theorem cell_store (s : Substrate) (i j : Index) (q : Superposition) :
    (s.store i q).cell j = if i = j then (s.cell i).markQuantum else s.cell j :=
  s.cell_setCell i j _

theorem toNat_countUp (n : UInt64) : (countUp n).toNat = min (n.toNat + 1) (2 ^ 64 - 1) := by
  have hlt := n.toNat_lt
  have hadd : (n + 1).toNat = (n.toNat + 1) % 2 ^ 64 := UInt64.toNat_add n 1
  rw [countUp]
  split
  · next hwrap =>
    rw [hwrap, UInt64.toNat_zero] at hadd
    omega
  · next hne =>
    have hpos : (n + 1).toNat ≠ 0 := fun h => hne (UInt64.toNat_inj.1 h)
    omega

theorem Clean.setCell (h : s.Clean) (i : Index) {c : Cell} (hc : c.isValid = true) :
    (s.setCell i c).Clean where
  residual := (s.residual_setCell i c).trans h.residual
  isValid j := by
    rw [cell_setCell]
    split
    · exact hc
    · exact h.isValid j

theorem Clean.read (h : s.Clean) (i : Index) : (s.read i).2.Clean := ⟨h.residual, h.isValid⟩

theorem Clean.write (h : s.Clean) (i : Index) (v : Reading) : (s.write i v).Clean :=
  have hset := h.setCell i (Cell.isValid_write (h.isValid i) s.time v)
  ⟨hset.residual, hset.isValid⟩

theorem Clean.setDecayRate (h : s.Clean) (i : Index) (rate : Float) :
    (s.setDecayRate i rate).Clean := by
  rw [setDecayRate_eq_setCell]
  exact h.setCell i (Cell.isValid_setDecayRate (h.isValid i) rate)

theorem Clean.store (h : s.Clean) (i : Index) (q : Superposition) : (s.store i q).Clean := by
  have hset := h.setCell i (Cell.isValid_markQuantum (h.isValid i))
  rw [store_eq_setCell]
  exact ⟨hset.residual, hset.isValid⟩

/-! ## changes of many cells -/

theorem clean_initial : initial.Clean where
  residual := residual_ofCells _
  isValid i := by
    rw [cell_initial]
    exact Cell.isValid_neutral

theorem Clean.tick (h : s.Clean) : s.tick.Clean where
  residual := s.residual_tick
  isValid i := by
    rw [cell_tick]
    exact Cell.isValid_decay (h.isValid i)

theorem Clean.writeFront (h : s.Clean) (w : Wave) (front : List Index × Nat) :
    (writeFront w s front).Clean := by
  obtain ⟨is, steps⟩ := front
  induction is generalizing s with
  | nil => exact h
  | cons i is ih => exact ih (h.write i (w.apply steps (s.cell i)))

theorem Clean.wave (h : s.Clean) (origin : Index) (w : Wave) : (s.wave origin w).2.Clean := by
  simp only [Substrate.wave]
  generalize (Grid.fronts origin Wave.maxSteps).zipIdx = fronts
  induction fronts generalizing s with
  | nil => exact h
  | cons front fronts ih => exact ih (h.writeFront w front)

/-! ## requests -/

theorem Clean.withCell (h : s.Clean) (n : Nat) {act : Index → Outcome}
    (hact : ∀ i, (act i).2.Clean) : (s.withCell n act).2.Clean := by
  unfold Substrate.withCell
  cases locate n with
  | error e => exact h
  | ok i => exact hact i

theorem Clean.run (h : s.Clean) (op : Operation) : (s.run op).2.Clean := by
  cases op with
  | init => exact clean_initial
  | tick => exact h.tick
  | sync => exact h
  | read n => exact h.withCell n h.read
  | write n v => exact h.withCell n (h.write · v)
  | setDecayRate n rate => exact h.withCell n (h.setDecayRate · rate)
  | force n f => exact h.withCell n fun i => h.write i (f.apply (s.cell i))
  | wave n w =>
      refine h.withCell n fun i => ?_
      cases w.fault? with
      | some e => exact h
      | none => simpa using h.wave i w
  | store n q =>
      refine h.withCell n fun i => ?_
      exact h.store i q
  | retrieve n => exact h.withCell n fun _ => h

/-- An activation writes its cell, whether or not its superposition can be stored. -/
theorem Clean.project (h : s.Clean) (a : Activation) : (a.project s).2.Clean := by
  have hwrite := h.write a.homeCell a.cellValue
  simp only [Activation.project]
  generalize s.write a.homeCell a.cellValue = s' at hwrite
  by_cases hcount : a.componentCount = 0
  · rw [if_pos hcount]
    exact hwrite.read a.homeCell
  · rw [if_neg hcount]
    cases Superposition.spread a.componentCount a.state.phase with
    | error e => exact hwrite
    | ok q => exact (hwrite.store a.homeCell q).read a.homeCell

/-- The step of a run. -/
theorem Clean.perform (h : s.Clean) (r : Request) : (s.perform r).Clean := by
  cases r with
  | operation op => exact h.run op
  | project a => exact h.project a

theorem Clean.performAll (h : s.Clean) (rs : List Request) : (s.performAll rs).Clean := by
  induction rs generalizing s with
  | nil => exact h
  | cons r rs ih => exact ih (h.perform r)

/-- **A clean sync.**  After any requests to a new substrate, every cell is in its bounds and
`sync` finds nothing wrong. -/
theorem performAll_synced (rs : List Request) :
    (∀ i, ((initial.performAll rs).cell i).isValid = true) ∧
      (initial.performAll rs).sync = .ok () :=
  have h := clean_initial.performAll rs
  ⟨h.isValid, sync_eq_ok_iff.2 h⟩

end Substrate

end GlyphField
