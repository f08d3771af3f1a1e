import GlyphField.Proofs.CleanSync

/-!
# GlyphField.Proofs.PouchFrame

Changes of a substrate that store nothing: they leave the flags of the cells and the pouch as they
are. `Keeps` is closed under one change after another, so it is shown of each change of a cell and
carried through fronts and waves.
-/

namespace GlyphField.Substrate

/-- Neither flags nor the pouch are different. -/
structure Keeps (s s' : Substrate) : Prop where
  flags : ∀ i, (s'.cell i).flags = (s.cell i).flags
  pouch : s'.pouch = s.pouch

variable {s s' s'' : Substrate}

theorem Keeps.refl (s : Substrate) : s.Keeps s := ⟨fun _ => rfl, rfl⟩

theorem Keeps.trans (h : s.Keeps s') (h' : s'.Keeps s'') : s.Keeps s'' :=
  ⟨fun i => (h'.flags i).trans (h.flags i), h'.pouch.trans h.pouch⟩

theorem keeps_setCell (s : Substrate) {i : Index} {c : Cell} (hc : c.flags = (s.cell i).flags) :
    s.Keeps (s.setCell i c) := by
  refine ⟨fun j => ?_, rfl⟩
  rw [cell_setCell]
  split
  · next h => rw [hc, h]
  · rfl

theorem keeps_read (s : Substrate) (i : Index) : s.Keeps (s.read i).2 := ⟨fun _ => rfl, rfl⟩

theorem keeps_write (s : Substrate) (i : Index) (v : Reading) : s.Keeps (s.write i v) :=
  have h := s.keeps_setCell (c := (s.cell i).write s.time v) rfl
  ⟨h.flags, h.pouch⟩

theorem keeps_setDecayRate (s : Substrate) (i : Index) (rate : Float) :
    s.Keeps (s.setDecayRate i rate) := by
  rw [setDecayRate_eq_setCell]
  exact s.keeps_setCell rfl

theorem keeps_tick (s : Substrate) : s.Keeps s.tick := by
  refine ⟨fun i => ?_, rfl⟩
  rw [cell_tick]
  rfl

theorem keeps_writeFront (s : Substrate) (w : Wave) (front : List Index × Nat) :
    s.Keeps (writeFront w s front) := by
  obtain ⟨is, steps⟩ := front
  induction is generalizing s with
  | nil => exact .refl s
  | cons i is ih => exact (s.keeps_write i (w.apply steps (s.cell i))).trans (ih _)

theorem keeps_wave (s : Substrate) (origin : Index) (w : Wave) : s.Keeps (s.wave origin w).2 := by
  simp only [wave]
  generalize (Grid.fronts origin Wave.maxSteps).zipIdx = fronts
  induction fronts generalizing s with
  | nil => exact .refl s
  | cons front fronts ih => exact (s.keeps_writeFront w front).trans (ih _)

theorem keeps_withCell (s : Substrate) (n : Nat) {act : Index → Outcome}
    (hact : ∀ i, s.Keeps (act i).2) : s.Keeps (s.withCell n act).2 := by
  unfold withCell
  cases locate n with
  | error e => exact .refl s
  | ok i => exact hact i

end GlyphField.Substrate
