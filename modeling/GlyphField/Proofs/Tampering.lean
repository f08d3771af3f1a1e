import GlyphField.Proofs.CleanSync
import GlyphField.Proofs.FloatTruncation
import GlyphField.Proofs.SnapshotRoundTrip

/-!
# GlyphField.Proofs.Tampering

Snapshots that have been tampered with, and what `sync` makes of them.  Restoring takes the changed
data as they are.  A replaced cell changes the checksum of the cells by the change of its word,
rotated by its place, and a rotation leaves no other word than zero without bits; so the checksum
misses exactly the cells with the same word, wherever they stand.

* `rotate_eq_zero_iff` — no difference is lost by a rotation;
* `clean_tamper_iff` — which replaced cells are missed;
* `thousandths_eq_iff` — which changes of one quantity leave the word;
* `tampering_detected` — a replaced cell and a replaced checksum.
-/

namespace GlyphField

open Binary64

/-! ## words -/

theorem Angle.within_of_isWrapped {x : Float} (h : isWrapped x = true) :
    Quantity.within 0 1000 x = true := by
  simp only [isWrapped, Bool.and_eq_true, decide_eq_true_eq] at h
  obtain ⟨hnonneg, hlt⟩ := h
  have hfinite := isFinite_of_le_of_lt (by decide +kernel) (by decide +kernel) hnonneg hlt
  have hturn : ¬turn ≤ x := fun hle =>
    (not_lt_iff_le (isNaN_eq_false_of_le hnonneg).2 (by decide +kernel)).2 hle hlt
  have hbound : toRat turn ≤ toRat 1000 :=
    (le_iff_toRat_le (by decide +kernel) (by decide +kernel)).1 (by decide +kernel)
  rw [le_iff_toRat_le (by decide +kernel) hfinite, not_le] at hturn
  exact Quantity.within_iff.2
    ⟨hnonneg, (le_iff_toRat_le hfinite (by decide +kernel)).2 (hturn.le.trans hbound)⟩

namespace Checksum

theorem rotate_of_dvd (w : UInt32) {n : Nat} (h : 32 ∣ n) : rotate w n = w := by
  rw [← rotate_mod, Nat.mod_eq_zero_of_dvd h, rotate_zero]

theorem rotate_eq_zero_iff {w : UInt32} {n : Nat} : rotate w n = 0 ↔ w = 0 := by
  constructor
  · intro h
    -- rotating on to a whole number of turns gives the word back
    have hback : rotate (rotate w n) (31 * n) = w := by
      rw [rotate_rotate]
      exact rotate_of_dvd w ⟨n, by omega⟩
    rw [← hback, h, zero_rotate]
  · rintro rfl
    exact zero_rotate n

theorem shift_eq_zero_iff {i : Index} {w w' : UInt32} : shift i (w ^^^ w') = 0 ↔ w = w' :=
  rotate_eq_zero_iff.trans UInt32.xor_eq_zero_iff

/-- The floor of a thousand times a quantity, or the greatest word. -/
def floorThousandths (x : Float) : Nat := min ⌊toRat (x * 1000)⌋₊ (2 ^ 32 - 1)

theorem isFinite_thousandfold {x : Float} (h : Quantity.within 0 1000 x = true) :
    (x * 1000).isFinite = true := by
  have hmillion : parts 1000000 = .finite .positive (1000000 * 2 ^ 33) (-33) (by decide) := rfl
  have hbound : toRat 1000 * toRat 1000 ≤ toRat 1000000 := by
    rw [toRat_thousand]
    norm_num [toRat, hmillion, value, signed]
  obtain ⟨hfinite, hlow, hhigh⟩ :=
    Quantity.toRat_of_within (by decide +kernel) (by decide +kernel) h
  rw [toRat_zero] at hlow
  have hround := rounds_mul hfinite (y := 1000) (by decide +kernel)
  have hle : toRat x * toRat 1000 ≤ toRat 1000000 :=
    (mul_le_mul_of_nonneg_right hhigh (hlow.trans hhigh)).trans hbound
  have hnonneg : toRat 0 ≤ toRat x * toRat 1000 := mul_nonneg hlow (hlow.trans hhigh)
  exact isFinite_of_le_of_le (by decide +kernel) (by decide +kernel)
    ((hround 0 (by decide +kernel)).2 hnonneg) ((hround 1000000 (by decide +kernel)).1 hle)

/-- Quantities within bounds have the same word exactly if their thousandths have the same floor. -/
theorem thousandths_eq_iff {x y : Float} (hx : Quantity.within 0 1000 x = true)
    (hy : Quantity.within 0 1000 y = true) :
    thousandths x = thousandths y ↔ floorThousandths x = floorThousandths y := by
  rw [← UInt32.toNat_inj, thousandths, thousandths, toNat_toUInt32 (isFinite_thousandfold hx),
    toNat_toUInt32 (isFinite_thousandfold hy)]
  rfl

section Words

variable (c : Cell) (x : Float)

theorem word_magnitude :
    word { c with magnitude := x } = word c ↔ thousandths x = thousandths c.magnitude := by
  simp only [word, UInt32.xor_left_inj]

theorem word_phase :
    word { c with phase := x } = word c ↔ thousandths x = thousandths c.phase := by
  simp only [word, UInt32.xor_left_inj, UInt32.xor_right_inj]

theorem word_coherence :
    word { c with coherence := x } = word c ↔ thousandths x = thousandths c.coherence := by
  simp only [word, UInt32.xor_right_inj]

end Words

end Checksum

/-! ## replaced cells -/

namespace Cell

variable {c : Cell}

theorem isValid_magnitude (h : c.isValid = true) (x : Float) :
    { c with magnitude := x }.isValid = Quantity.within 0 1000 x := by
  obtain ⟨-, hphase, hcoherence, hrate⟩ := isValid_iff.1 h
  simp only [isValid, hphase, hcoherence, hrate, Bool.and_true]
  rfl

theorem isValid_phase (h : c.isValid = true) (x : Float) :
    { c with phase := x }.isValid = Angle.isWrapped x := by
  obtain ⟨hmagnitude, -, hcoherence, hrate⟩ := isValid_iff.1 h
  simp only [isValid, hmagnitude, hcoherence, hrate, Bool.and_true, Bool.true_and]

theorem isValid_coherence (h : c.isValid = true) (x : Float) :
    { c with coherence := x }.isValid = Quantity.within 0 1000 x := by
  obtain ⟨hmagnitude, hphase, -, hrate⟩ := isValid_iff.1 h
  simp only [isValid, hmagnitude, hphase, hrate, Bool.and_true, Bool.true_and]
  rfl

end Cell

namespace Substrate

variable {s : Substrate}

/-- The substrate with another cell and the checksum that it had. -/
def tamper (s : Substrate) (i : Index) (c : Cell) : Substrate :=
  { s with cells := s.cells.set i.val c i.isLt }

theorem cell_tamper (s : Substrate) (i j : Index) (c : Cell) :
    (s.tamper i c).cell j = if i = j then c else s.cell j :=
  s.cell_setCell i j c

theorem residual_tamper (s : Substrate) (i : Index) (c : Cell) : (s.tamper i c).residual =
    s.residual ^^^ Checksum.shift i (Checksum.word (s.cell i) ^^^ Checksum.word c) := by
  have hset := s.residual_setCell i c
  generalize hd : Checksum.shift i (Checksum.word (s.cell i) ^^^ Checksum.word c) = d
  simp only [residual, setCell, hd] at hset
  rw [residual, residual, tamper, ← hset]
  generalize Checksum.ofCells _ = k
  calc s.checksum ^^^ k
      = s.checksum ^^^ k ^^^ (d ^^^ d) := by rw [UInt32.xor_self, UInt32.xor_zero]
    _ = s.checksum ^^^ d ^^^ k ^^^ d := by ac_rfl

/-- A clean substrate stays clean exactly if the other cell is valid and has the same word. -/
theorem clean_tamper_iff (h : s.Clean) (i : Index) (c : Cell) : (s.tamper i c).Clean ↔
    c.isValid = true ∧ Checksum.word c = Checksum.word (s.cell i) := by
  have hresidual := s.residual_tamper i c
  rw [h.residual, UInt32.zero_xor] at hresidual
  constructor
  · intro ht
    have hc := ht.isValid i
    rw [cell_tamper, if_pos rfl] at hc
    rw [ht.residual] at hresidual
    exact ⟨hc, (Checksum.shift_eq_zero_iff.1 hresidual.symm).symm⟩
  · rintro ⟨hc, hword⟩
    refine ⟨hresidual.trans (Checksum.shift_eq_zero_iff.2 hword.symm), fun j => ?_⟩
    rw [cell_tamper]
    split
    · exact hc
    · exact h.isValid j

theorem invalidCells_tamper (h : s.Clean) (i : Index) (c : Cell) :
    (s.tamper i c).invalidCells = if c.isValid then 0 else 1 := by
  have hlt : i.val < s.cells.toList.length := by simp
  have hnone := invalidCells_eq_zero_iff.2 h.isValid
  rw [invalidCells] at hnone ⊢
  rw [tamper, Vector.toList_set, List.countP_set hlt, hnone]
  cases c.isValid <;> simp

/-- What `sync` reports. -/
theorem eq_parity_of_sync {e : SubstrateError} (h : s.sync = .error e) :
    e = .parity s.checksum (Checksum.ofCells s.cells.toList) s.invalidCells := by
  simp only [sync] at h
  split at h
  · cases h
    rfl
  · cases h

theorem exists_sync_error_iff : (∃ e, s.sync = .error e) ↔ ¬s.Clean := by
  rw [← sync_eq_ok_iff]
  cases s.sync with
  | error e => simp
  | ok u => simp

end Substrate

/-! ## snapshots -/

namespace Snapshot

open Substrate

variable {s : Substrate}

/-- The snapshot with another cell. -/
def replaceCell (p : Snapshot) (i : Index) (c : Cell) : Snapshot :=
  { p with cells := p.cells.set i c }

/-- Restoring succeeds, and `sync` then finds fault. -/
def Reported (p : Snapshot) : Prop := ∃ s e, p.restore = .ok s ∧ s.sync = .error e

theorem reported_iff {p : Snapshot} (h : p.restore = .ok s) : p.Reported ↔ ¬s.Clean := by
  rw [← exists_sync_error_iff]
  constructor
  · rintro ⟨t, e, ht, he⟩
    cases h.symm.trans ht
    exact ⟨e, he⟩
  · rintro ⟨e, he⟩
    exact ⟨s, e, h, he⟩

/-- The replaced cell is restored as it is. -/
theorem restore_replaceCell (s : Substrate) (i : Index) (c : Cell) :
    ((ofSubstrate s).replaceCell i c).restore = .ok (s.tamper i c) := by
  have hsnapshot : (ofSubstrate s).replaceCell i c = ofSubstrate (s.tamper i c) := by
    simp only [replaceCell, ofSubstrate, tamper, Vector.toList_set]
  rw [hsnapshot, restore_ofSubstrate]

/-- A replaced cell is reported exactly if it is out of bounds or has another word. -/
theorem reported_replaceCell_iff (h : s.Clean) (i : Index) (c : Cell) :
    ((ofSubstrate s).replaceCell i c).Reported ↔
      c.isValid = false ∨ Checksum.word c ≠ Checksum.word (s.cell i) := by
  rw [reported_iff (restore_replaceCell s i c), clean_tamper_iff h, not_and_or, Bool.not_eq_true]

/-- The same for a cell with one other quantity, whose bounds are known. -/
theorem reported_quantity_iff (h : s.Clean) {i : Index} {c : Cell} {bounded : Bool} {x y : Float}
    (hvalid : c.isValid = bounded)
    (hword : Checksum.word c = Checksum.word (s.cell i) ↔
      Checksum.thousandths x = Checksum.thousandths y)
    (hx : bounded = true → Quantity.within 0 1000 x = true)
    (hy : Quantity.within 0 1000 y = true) :
    ((ofSubstrate s).replaceCell i c).Reported ↔
      bounded = false ∨ Checksum.floorThousandths x ≠ Checksum.floorThousandths y := by
  rw [reported_replaceCell_iff h, hvalid, ne_eq, hword]
  cases bounded with
  | false => simp
  | true => rw [Checksum.thousandths_eq_iff (hx rfl) hy]

/-- **Tampering with one cell.**  If a substrate syncs, its snapshot can be restored with any cell
replaced by any other, and the next `sync` fails exactly if that cell is out of bounds or has
another word.  It reports the checksum of the snapshot, beside the one of the cells, and counts the
cell if it is out of bounds.  A cell of which one quantity is changed is thus reported exactly if
the quantity leaves its bounds or its thousandths have another floor.  Another checksum in the
snapshot is always reported. -/
theorem tampering_detected {s : Substrate} (h : s.sync = .ok ()) :
    (∀ (i : Index) (c : Cell),
      (∃ t, ((ofSubstrate s).replaceCell i c).restore = .ok t) ∧
      (((ofSubstrate s).replaceCell i c).Reported ↔
        c.isValid = false ∨ Checksum.word c ≠ Checksum.word (s.cell i)) ∧
      ∀ t e, ((ofSubstrate s).replaceCell i c).restore = .ok t → t.sync = .error e →
        e = .parity s.checksum (Checksum.ofCells t.cells.toList) (if c.isValid then 0 else 1)) ∧
    (∀ (i : Index) (x : Float),
      (((ofSubstrate s).replaceCell i { s.cell i with magnitude := x }).Reported ↔
        Quantity.within 0 1000 x = false ∨
          Checksum.floorThousandths x ≠ Checksum.floorThousandths (s.cell i).magnitude) ∧
      (((ofSubstrate s).replaceCell i { s.cell i with phase := x }).Reported ↔
        Angle.isWrapped x = false ∨
          Checksum.floorThousandths x ≠ Checksum.floorThousandths (s.cell i).phase) ∧
      (((ofSubstrate s).replaceCell i { s.cell i with coherence := x }).Reported ↔
        Quantity.within 0 1000 x = false ∨
          Checksum.floorThousandths x ≠ Checksum.floorThousandths (s.cell i).coherence)) ∧
    ∀ k, k ≠ s.checksum → ∃ t, { ofSubstrate s with checksum := k }.restore = .ok t ∧
      t.sync = .error (.parity k s.checksum 0) := by
  have hclean := sync_eq_ok_iff.1 h
  refine ⟨fun i c => ⟨⟨_, restore_replaceCell s i c⟩, reported_replaceCell_iff hclean i c,
    fun t e ht he => ?_⟩, fun i x => ?_, fun k hk => ?_⟩
  · cases (restore_replaceCell s i c).symm.trans ht
    rw [eq_parity_of_sync he, invalidCells_tamper hclean]
    rfl
  · have hvalid := hclean.isValid i
    obtain ⟨hmagnitude, hphase, hcoherence, -⟩ := Cell.isValid_iff.1 hvalid
    exact ⟨reported_quantity_iff hclean (Cell.isValid_magnitude hvalid x)
        (Checksum.word_magnitude _ x) id hmagnitude,
      reported_quantity_iff hclean (Cell.isValid_phase hvalid x) (Checksum.word_phase _ x)
        Angle.within_of_isWrapped (Angle.within_of_isWrapped hphase),
      reported_quantity_iff hclean (Cell.isValid_coherence hvalid x)
        (Checksum.word_coherence _ x) id hcoherence⟩
  · have hchecksum := residual_eq_zero_iff.1 hclean.residual
    refine ⟨{ s with checksum := k }, restore_ofSubstrate { s with checksum := k }, ?_⟩
    have hdirty : ¬({ s with checksum := k } : Substrate).Clean := fun hc =>
      hk ((residual_eq_zero_iff.1 hc.residual).trans hchecksum.symm)
    obtain ⟨e, he⟩ := exists_sync_error_iff.2 hdirty
    rw [he, eq_parity_of_sync he, hchecksum]
    exact congrArg (fun n => Except.error (SubstrateError.parity k _ n))
      (invalidCells_eq_zero_iff.2 hclean.isValid)

/-- Half a thousandth more magnitude goes unnoticed, half a unit does not. -/
theorem tampering_detected_initial :
    ¬((ofSubstrate initial).replaceCell 5 { magnitude := 100.0005 }).Reported ∧
      ((ofSubstrate initial).replaceCell 5 { magnitude := 100.5 }).Reported := by
  have hcell : initial.cell 5 = Cell.neutral := Vector.getElem_replicate (5 : Index).isLt
  obtain ⟨hcells, -, -⟩ := tampering_detected (sync_eq_ok_iff.2 clean_initial)
  constructor
  · rw [(hcells 5 _).2.1, hcell]
    decide +kernel
  · rw [(hcells 5 _).2.1, hcell]
    decide +kernel

end Snapshot

end GlyphField
