import GlyphField.Proofs.CleanSync
import GlyphField.Proofs.FloatNearest

/-!
# GlyphField.Proofs.Normalization

Values that a write leaves as they are.  The remainder of a float by a greater one is the float
itself, since rounding keeps what is a float already; so a phase within one turn is not wrapped
further, down to the sign of a zero, and a quantity within its bounds is not clamped.  What a write
has brought into bounds is such a value, whatever float it came from, and to write it again leaves
the word of the cell and the checksum alone.

* `remainder_of_lt` — remainders by a greater float;
* `wrap_of_isWrapped`, `bounded_of_within` — values in bounds;
* `writes_idempotent` — a write that is repeated, and a reading that is written back.
-/

namespace GlyphField

open Binary64
open Float.Model (Format UnpackedFloat)
open Float.Model.UnpackedFloat (Sign)

/-! ## exact remainders -/

namespace Binary64

theorem signOf_isNegative (s : Sign) : signOf (isNegative s) = s := by cases s <;> rfl

theorem lt_iff_toRat_lt {x y : Float} (hx : x.isFinite = true) (hy : y.isFinite = true) :
    x < y ↔ toRat x < toRat y := by
  have hle := not_lt_iff_le (isNaN_eq_false_of_isFinite hx) (isNaN_eq_false_of_isFinite hy)
  rw [← not_iff_not, hle, le_iff_toRat_le hy hx, not_lt]

/-- The magnitude of a float, written with another mantissa and exponent, is rounded to itself. -/
theorem nearest_eq_pack {s : Sign} {m r : Nat} {e k : ℤ} {hm : 0 < m}
    (hcanonical : Canonical (.finite s m e hm)) (h : (r : ℚ) * 2 ^ k = m * 2 ^ e) :
    nearest (isNegative s) r k = pack (.finite s m e hm) := by
  have hr : 0 < r := by
    by_contra hr
    have hzero : r = 0 := by omega
    rw [hzero, Nat.cast_zero, zero_mul] at h
    exact (magnitude_pos hm e).ne h
  have hround := isRounding_round s hr k
  rw [h] at hround
  rw [nearest, if_neg hr.ne', signOf_isNegative,
    hround.eq_of_nearest hcanonical (nearest_self m e)]
  rfl

end Binary64

namespace Angle

variable {x y : Float}

/-- A magnitude that is smaller than the divisor is its own remainder. -/
theorem remainderParts_of_lt {m m' : Nat} {e e' : ℤ} (h : (m : ℚ) * 2 ^ e < m' * 2 ^ e') :
    ((remainderParts m e m' e').1 : ℚ) * 2 ^ (remainderParts m e m' e').2 = m * 2 ^ e := by
  unfold remainderParts
  split
  · next he =>
    have hlt : m * 2 ^ (e - e').toNat < m' := by
      rw [magnitude_rescale m he, mul_lt_mul_iff_left₀ (two_zpow_pos e')] at h
      exact_mod_cast h
    have hmod : m * Nat.pow 2 (e - e').toNat % m' = m * 2 ^ (e - e').toNat := Nat.mod_eq_of_lt hlt
    rw [hmod, magnitude_rescale m he]
    push_cast
    rfl
  · next he =>
    have hlt : m < m' * 2 ^ (e' - e).toNat := by
      rw [magnitude_rescale m' (by omega : e ≤ e'), mul_lt_mul_iff_left₀ (two_zpow_pos e)] at h
      exact_mod_cast h
    have hmod : m % (m' * Nat.pow 2 (e' - e).toNat) = m := Nat.mod_eq_of_lt hlt
    rw [hmod]

/-- **Exact remainders.**  A zero keeps its sign. -/
theorem remainder_of_lt {negative : Bool} {m' : Nat} {e' : ℤ} (hx : x.isFinite = true)
    (hy : ofFloat y = .finite negative m' e') (hlt : |toRat x| < m' * 2 ^ e') :
    remainder x y = x := by
  have hm' : m' ≠ 0 := by
    rintro rfl
    rw [Nat.cast_zero, zero_mul] at hlt
    exact (abs_nonneg _).not_gt hlt
  obtain ⟨s, hzero⟩ | ⟨s, m, e, hm, hpack, hparts, hcanonical, -⟩ := parts_cases hx
  · have hparts : parts x = .zero s := by
      rw [hzero]
      exact parts_pack trivial
    have hfloat : ofFloat x = .finite (isNegative s) 0 (-1074) := by
      rw [ofFloat, show x.toModel.unpack = .zero s from hparts]
    have hrest : (remainderParts 0 (-1074) m' e').1 = 0 := by
      unfold remainderParts
      split <;> simp
    rw [remainder, hfloat, hy]
    simp only [hm', if_false, hrest, nearest, if_true, signOf_isNegative]
    exact hzero.symm
  · have hfloat : ofFloat x = .finite (isNegative s) m e := by
      rw [ofFloat, show x.toModel.unpack = .finite s m e hm from hparts]
    have habs : |toRat x| = m * 2 ^ e := by
      rw [toRat, hparts]
      cases s <;> simp [value, signed, abs_mul]
    rw [habs] at hlt
    rw [remainder, hfloat, hy]
    simp only [hm', if_false]
    rw [nearest_eq_pack hcanonical (remainderParts_of_lt hlt), ← hpack]

/-! ## values in bounds -/

theorem wrap_of_isWrapped (h : isWrapped x = true) : wrap x = x := by
  simp only [isWrapped, Bool.and_eq_true, decide_eq_true_eq] at h
  obtain ⟨hnonneg, hlt⟩ := h
  have hzero : (0 : Float).isFinite = true := by decide +kernel
  have hturn : turn.isFinite = true := by decide +kernel
  have hfinite := isFinite_of_le_of_lt hzero hturn hnonneg hlt
  have hnumber := isNaN_eq_false_of_isFinite hfinite
  have hparts : ofFloat turn = .finite false 7074237752028440 (-50) := by decide +kernel
  have hlow : ¬x < 0 := (not_lt_iff_le hnumber (isNaN_eq_false_of_isFinite hzero)).2 hnonneg
  have hhigh : ¬turn ≤ x := fun hle =>
    (not_lt_iff_le hnumber (isNaN_eq_false_of_isFinite hturn)).2 hle hlt
  have habs : |toRat x| < (7074237752028440 : Nat) * 2 ^ (-50 : ℤ) := by
    rw [abs_of_nonneg ((le_iff_toRat_le hzero hfinite).1 hnonneg)]
    exact (lt_iff_toRat_lt hfinite hturn).1 hlt
  have hremainder : turnRemainder x = x := by
    rw [turnRemainder, remainder_of_lt hfinite hparts habs]
    exact if_neg hlow
  rw [wrap, if_pos hfinite, hremainder]
  exact if_neg hhigh

theorem wrap_wrap (x : Float) : wrap (wrap x) = wrap x := wrap_of_isWrapped (isWrapped_wrap x)

end Angle

namespace Quantity

theorem bounded_of_within {max x : Float} (h : within 0 max x = true) : bounded max x = x := by
  obtain ⟨hlow, hhigh⟩ := within_iff.1 h
  obtain ⟨hzero, hx⟩ := isNaN_eq_false_of_le hlow
  have hmax := (isNaN_eq_false_of_le hhigh).2
  rw [bounded, hx, if_neg Bool.false_ne_true, if_neg ((not_lt_iff_le hx hzero).2 hlow),
    if_neg ((not_lt_iff_le hmax hx).2 hhigh)]

theorem bounded_bounded {max : Float} (hfinite : max.isFinite = true) (hmax : 0 ≤ max) (x : Float) :
    bounded max (bounded max x) = bounded max x :=
  bounded_of_within (within_bounded hfinite hmax x)

end Quantity

/-- What a cell holds after these values have been written. -/
def Reading.normal (v : Reading) : Reading where
  magnitude := Quantity.bounded maxMagnitude v.magnitude
  phase := Angle.wrap v.phase
  coherence := Quantity.bounded maxCoherence v.coherence

theorem Reading.normal_normal (v : Reading) : v.normal.normal = v.normal := by
  have hmagnitude := @Quantity.bounded_bounded maxMagnitude (by decide +kernel)
    (by decide +kernel) v.magnitude
  have hcoherence := @Quantity.bounded_bounded maxCoherence (by decide +kernel)
    (by decide +kernel) v.coherence
  simp only [normal, hmagnitude, Angle.wrap_wrap, hcoherence]

theorem Cell.normal_reading {c : Cell} (h : c.isValid = true) : c.reading.normal = c.reading := by
  obtain ⟨hmagnitude, hphase, hcoherence, -⟩ := isValid_iff.1 h
  simp only [Reading.normal, reading, Quantity.bounded_of_within hmagnitude,
    Angle.wrap_of_isWrapped hphase, Quantity.bounded_of_within hcoherence]

/-- A cell that already holds what is written to it only takes the time. -/
theorem Cell.write_of_normal {c : Cell} {v : Reading} (h : v.normal = c.reading) (now : UInt64) :
    c.write now v = { c with lastUpdate := now } := by
  obtain ⟨hmagnitude, hphase, hcoherence⟩ := Reading.mk.inj h
  simp only [write, hmagnitude, hphase, hcoherence]

/-! ## writes -/

namespace Substrate

variable {s : Substrate} {i : Index}

/-- Writes back what a read of the cell returns. -/
def writeBack (s : Substrate) (i : Index) : Substrate :=
  let (v, s) := s.read i
  s.write i v

theorem setCell_self (s : Substrate) (i : Index) : s.setCell i (s.cell i) = s := by
  have hcells : s.cells.set i (s.cell i) = s.cells := Vector.set_getElem_self i.isLt
  rw [setCell_of_word_eq rfl, hcells]

/-- At the time of the latest write, what the cell holds already changes no more than the count. -/
theorem write_of_normal {v : Reading} (h : v.normal = (s.cell i).reading)
    (htime : (s.cell i).lastUpdate = s.time) :
    s.write i v = { s with writes := countUp s.writes } := by
  have hcell : (s.cell i).write s.time v = s.cell i := by
    rw [Cell.write_of_normal h, ← htime]
  rw [write, hcell, setCell_self]

/-- **Writes are idempotent.**  After a write of any values to any cell, the same write again
changes nothing but the count of writes, and so does a write of what a read of the cell returns.  To
write back the reading of any valid cell changes no quantity of it and not the checksum, only the
time of the cell. -/
theorem writes_idempotent (s : Substrate) (i : Index) (v : Reading) :
    let s₁ := s.write i v
    s₁.write i v = { s₁ with writes := countUp s₁.writes } ∧
    s₁.writeBack i = { s₁ with reads := countUp s₁.reads, writes := countUp s₁.writes } ∧
    ((s.cell i).isValid = true →
      (s.writeBack i).cell i = { s.cell i with lastUpdate := s.time } ∧
      (s.writeBack i).checksum = s.checksum) := by
  intro s₁
  have hcell : s₁.cell i = (s.cell i).write s.time v := (s.cell_write i i v).trans (if_pos rfl)
  have hreading : (s₁.cell i).reading = v.normal := congrArg Cell.reading hcell
  have htime : (s₁.cell i).lastUpdate = s₁.time := congrArg Cell.lastUpdate hcell
  refine ⟨write_of_normal hreading.symm htime, ?_, fun hvalid => ?_⟩
  · have hnormal : (s₁.cell i).reading.normal = (s₁.cell i).reading := by
      rw [hreading, v.normal_normal]
    exact write_of_normal (s := (s₁.read i).2) hnormal htime
  · have hwrite := Cell.write_of_normal (Cell.normal_reading hvalid) s.time
    have hword : Checksum.word ((s.cell i).write s.time (s.cell i).reading) =
        Checksum.word (s.cell i) := by
      rw [hwrite]
      rfl
    have hchecksum := congrArg checksum (setCell_of_word_eq (s := (s.read i).2) hword)
    exact ⟨(cell_write _ i i _).trans ((if_pos rfl).trans hwrite), hchecksum⟩

/-- A negative zero, a phase just below zero and no number: the zero keeps its sign, and the phase
is not a full turn. -/
theorem writes_idempotent_edges :
    let v : Reading := ⟨-0.0, -1e-18, 0 / 0⟩
    let s := initial.write 7 v
    (initial.cell 7).isValid = true ∧ (initial.writeBack 7).checksum = initial.checksum ∧
      (s.cell 7).reading = ⟨-0.0, 0, 0⟩ ∧ s.write 7 v = { s with writes := countUp s.writes } ∧
      (s.writeBack 7).checksum = s.checksum := by
  intro v s
  obtain ⟨hsame, hback, hvalid⟩ := writes_idempotent initial 7 v
  have hneutral : (initial.cell 7).isValid = true := by
    rw [cell_initial]
    exact Cell.isValid_neutral
  have hreading : (s.cell 7).reading = v.normal := by
    rw [cell_write, if_pos rfl]
    rfl
  have hchecksum := congrArg checksum hback
  exact ⟨hneutral, (hvalid hneutral).2, hreading.trans (by decide +kernel), hsame, hchecksum⟩

end Substrate

end GlyphField
