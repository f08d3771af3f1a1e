import GlyphField.Proofs.SessionOutcome

/-!
# GlyphField.Proofs.ProjectionFailure

What a failed projection leaves behind.  The components of a superposition are counted only after
the home cell has been written, and nothing takes the write back: the cell keeps the new state and
the write stays counted, while no superposition is stored and no read takes place.

* `project_of_too_many` — a projection with too many components;
* `failed_projection_writes` — when a projection fails, and what it has done by then;
* `overfull_projection_kept` — a new substrate that such a projection changes.
-/

namespace GlyphField

namespace Activation

variable {a : Activation}

/-- With too many components the projection ends after the write. -/
theorem project_of_too_many (h : maxComponents < a.componentCount) (s : Substrate) :
    a.project s = (.error .tooManyComponents, s.write a.homeCell a.cellValue) := by
  have hcount : a.componentCount ≠ 0 := by omega
  have hspread : Superposition.spread a.componentCount a.state.phase =
      .error .tooManyComponents := Superposition.spread_eq_error_iff.2 ⟨h, rfl⟩
  simp only [project, if_neg hcount, hspread]
  rfl

/-- A projection fails on too many components and on nothing else. -/
theorem project_fst_eq_error_iff {s : Substrate} {e : SubstrateError} :
    (a.project s).1 = .error e ↔ maxComponents < a.componentCount ∧ e = .tooManyComponents := by
  by_cases h : maxComponents < a.componentCount
  · simp [project_of_too_many h, h, eq_comm]
  · refine iff_of_false (fun herror => ?_) fun hmany => h hmany.1
    rw [project_fst (Nat.le_of_not_lt h)] at herror
    cases herror

/-- **A failed projection keeps its write.**  A projection fails exactly if the activation declares
more than eight components.  By then the home cell has taken the state, as any write puts it there,
and the write is counted; the checksum has followed the cell.  Everything else is as before: the
other cells, the clock, the count of reads and the pouch. -/
theorem failed_projection_writes (a : Activation) (s : Substrate) :
    (∀ e, (a.project s).1 = .error e ↔ 8 < a.componentCount ∧ e = .tooManyComponents) ∧
    (8 < a.componentCount →
      let s' := (a.project s).2
      s'.cell a.homeCell = (s.cell a.homeCell).write s.time a.cellValue ∧
      (∀ i, i ≠ a.homeCell → s'.cell i = s.cell i) ∧
      s'.residual = s.residual ∧ s'.time = s.time ∧ s'.reads = s.reads ∧ s'.pouch = s.pouch ∧
      s'.writes.toNat = min (s.writes.toNat + 1) (2 ^ 64 - 1)) := by
  refine ⟨fun e => project_fst_eq_error_iff, fun h => ?_⟩
  have hcell := fun j => s.cell_write a.homeCell j a.cellValue
  have hresidual : (s.write a.homeCell a.cellValue).residual = s.residual :=
    s.residual_setCell a.homeCell _
  simp only [project_of_too_many h]
  refine ⟨(hcell _).trans (if_pos rfl), fun i hi => (hcell i).trans (if_neg hi.symm), hresidual,
    rfl, rfl, rfl, Substrate.toNat_countUp s.writes⟩

/-- One component more than a superposition holds. -/
def overfull : Activation where
  glyphId := "000"
  state := { magnitude := 3, phase := 1.5 }
  lineage := ⟨"000", [], 0, []⟩
  quantumState := some 9

/-- The new substrate holds the magnitude of an activation that it did not take in. -/
theorem overfull_projection_kept :
    (overfull.project .initial).1 = .error .tooManyComponents ∧
      (overfull.project .initial).2 ≠ .initial ∧
      ((overfull.project .initial).2.cell overfull.homeCell).magnitude = 3 ∧
      (Substrate.initial.cell overfull.homeCell).magnitude = 100 ∧
      (overfull.project .initial).2.writes = 1 := by
  have hproject := project_of_too_many (a := overfull) (by decide) .initial
  have hneutral : Substrate.initial.cell overfull.homeCell = Cell.neutral :=
    Vector.getElem_replicate overfull.homeCell.isLt
  have hmagnitude : ((overfull.project .initial).2.cell overfull.homeCell).magnitude = 3 := by
    rw [hproject, Substrate.cell_write, if_pos rfl, hneutral]
    decide +kernel
  have hwrites : (overfull.project .initial).2.writes = 1 := by rw [hproject]; rfl
  refine ⟨by rw [hproject], fun h => ?_, hmagnitude, by rw [hneutral]; rfl, hwrites⟩
  rw [h] at hwrites
  cases hwrites

end Activation

end GlyphField
