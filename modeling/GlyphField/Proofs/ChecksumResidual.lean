import GlyphField.Proofs.ChecksumFold
import GlyphField.Substrate.Operation

/-!
# GlyphField.Proofs.ChecksumResidual

The stored checksum over whole runs of a substrate.  The `residual` is what is wrong with it: the
bits in which it differs from the checksum of the cells.  Every change of a cell lets the checksum
follow by the change of that cell's word alone, so the residual stays as it is; only starting anew
and a tick, which compute the checksum over all cells, clear it.

* `residual_setCell` — the step: a replaced cell keeps the residual;
* `checksum_residual` — what each operation and each run of operations does to the residual.
-/

namespace GlyphField

/-- Whether an operation computes the checksum over all cells. -/
def Operation.recomputes : Operation → Bool
  | .init => true
  | .tick => true
  | _ => false

namespace Substrate

/-- The bits in which the checksum does not fit the cells. -/
def residual (s : Substrate) : UInt32 := s.checksum ^^^ Checksum.ofCells s.cells.toList

/-- The substrate after operations in order, failed ones included. -/
def runAll (s : Substrate) (ops : List Operation) : Substrate :=
  ops.foldl (fun s op => (s.run op).2) s

/-- The checksum fits exactly when there is no residual. -/
theorem residual_eq_zero_iff {s : Substrate} :
    s.residual = 0 ↔ s.checksum = Checksum.ofCells s.cells.toList :=
  UInt32.xor_eq_zero_iff

/-! ## changes of one cell -/

/-- A replaced cell keeps the residual: the checksum follows by the change of the word. -/
theorem residual_setCell (s : Substrate) (i : Index) (c : Cell) :
    (s.setCell i c).residual = s.residual := by
  have hlen : s.cells.toList.length = cellCount := s.cells.length_toList
  have hi : i.val < s.cells.toList.length := by
    rw [hlen]
    exact i.isLt
  have hcell : s.cells.toList[i.val] = s.cell i := by simp [cell]
  have hset : Checksum.ofCells (s.cells.set i c).toList = Checksum.ofCells s.cells.toList ^^^
      Checksum.shift i (Checksum.word (s.cell i) ^^^ Checksum.word c) := by
    rw [Vector.toList_set, Checksum.ofCells_set hi, hcell, hlen]
    rfl
  show s.checksum ^^^ Checksum.shift i (Checksum.word (s.cell i) ^^^ Checksum.word c) ^^^
    Checksum.ofCells (s.cells.set i c).toList = s.checksum ^^^ Checksum.ofCells s.cells.toList
  rw [hset]
  generalize Checksum.shift i _ = d
  generalize Checksum.ofCells s.cells.toList = k
  calc s.checksum ^^^ d ^^^ (k ^^^ d)
      = s.checksum ^^^ k ^^^ (d ^^^ d) := by ac_rfl
    _ = s.checksum ^^^ k := by rw [UInt32.xor_self, UInt32.xor_zero]

theorem residual_read (s : Substrate) (i : Index) : (s.read i).2.residual = s.residual := rfl

theorem residual_write (s : Substrate) (i : Index) (v : Reading) :
    (s.write i v).residual = s.residual :=
  s.residual_setCell i _

theorem residual_setDecayRate (s : Substrate) (i : Index) (rate : Float) :
    (s.setDecayRate i rate).residual = s.residual := by
  rw [setDecayRate_eq_setCell, residual_setCell]

theorem residual_store (s : Substrate) (i : Index) (q : Superposition) :
    (s.store i q).residual = s.residual := by
  rw [store_eq_setCell]
  exact s.residual_setCell i _

theorem residual_force (s : Substrate) (i : Index) (f : Force) :
    (s.force i f).residual = s.residual :=
  s.residual_write i _

/-! ## changes of many cells -/

theorem residual_writeFront (s : Substrate) (w : Wave) (front : List Index × Nat) :
    (writeFront w s front).residual = s.residual := by
  obtain ⟨is, steps⟩ := front
  induction is generalizing s with
  | nil => rfl
  | cons i is ih =>
      have hwrite := s.residual_write i (w.apply steps (s.cell i))
      exact (ih (s.write i (w.apply steps (s.cell i)))).trans hwrite

theorem residual_wave (s : Substrate) (origin : Index) (w : Wave) :
    (s.wave origin w).2.residual = s.residual := by
  simp only [wave]
  generalize (Grid.fronts origin Wave.maxSteps).zipIdx = fronts
  induction fronts generalizing s with
  | nil => rfl
  | cons front fronts ih => rw [List.foldl_cons, ih, residual_writeFront]

/-- A substrate of given cells starts with a checksum that fits. -/
theorem residual_ofCells (cells : Vector Cell cellCount) : (ofCells cells).residual = 0 :=
  residual_eq_zero_iff.2 rfl

theorem residual_tick (s : Substrate) : s.tick.residual = 0 := residual_eq_zero_iff.2 rfl

/-! ## operations and runs -/

/-- What goes on with a cell keeps the residual if it does so for every cell of the grid. -/
theorem residual_withCell {s : Substrate} (n : Nat) {act : Index → Outcome}
    (h : ∀ i, (act i).2.residual = s.residual) : (s.withCell n act).2.residual = s.residual := by
  unfold withCell
  cases locate n with
  | error e => rfl
  | ok i => exact h i

/-- The step of a run: an operation that computes the checksum clears the residual, any other one
keeps it. -/
theorem residual_run (s : Substrate) (op : Operation) :
    (s.run op).2.residual = if op.recomputes then 0 else s.residual := by
  cases op with
  | init => exact residual_ofCells _
  | tick => exact residual_tick s
  | sync => rfl
  | read n => exact residual_withCell n (s.residual_read ·)
  | write n v => exact residual_withCell n (s.residual_write · v)
  | setDecayRate n rate => exact residual_withCell n (s.residual_setDecayRate · rate)
  | force n f => exact residual_withCell n (s.residual_force · f)
  | wave n w =>
      refine residual_withCell n fun i => ?_
      cases w.fault? with
      | some e => rfl
      | none => simpa using s.residual_wave i w
  | store n q =>
      refine residual_withCell n fun i => ?_
      exact s.residual_store i q
  | retrieve n => exact residual_withCell n fun _ => rfl

theorem residual_runAll (s : Substrate) (ops : List Operation) :
    (s.runAll ops).residual = if ops.any Operation.recomputes then 0 else s.residual := by
  induction ops generalizing s with
  | nil => rfl
  | cons op ops ih =>
      show ((s.run op).2.runAll ops).residual = _
      rw [ih, residual_run, List.any_cons]
      cases op.recomputes <;> cases ops.any Operation.recomputes <;> rfl

/-- **The running checksum.**  Starting anew and ticks clear the residual; every other operation,
successful or not, keeps it, and so does every run of them.  From a new substrate on, the stored
checksum is that of the cells. -/
theorem checksum_residual :
    (∀ (s : Substrate) (op : Operation),
      (s.run op).2.residual = if op.recomputes then 0 else s.residual) ∧
    (∀ (s : Substrate) (ops : List Operation),
      (s.runAll ops).residual = if ops.any Operation.recomputes then 0 else s.residual) ∧
    ∀ ops : List Operation,
      (initial.runAll ops).checksum = Checksum.ofCells (initial.runAll ops).cells.toList := by
  refine ⟨residual_run, residual_runAll, fun ops => residual_eq_zero_iff.1 ?_⟩
  rw [residual_runAll]
  have hstart : initial.residual = 0 := residual_ofCells _
  rw [hstart]
  split <;> rfl

end Substrate

end GlyphField
