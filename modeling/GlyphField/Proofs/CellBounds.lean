import GlyphField.Proofs.FloatArithmetic
import GlyphField.Substrate.Cell

/-!
# GlyphField.Proofs.CellBounds

The bounds of a cell.  Whatever floats are written, each quantity is brought back into its bounds:
clamping leaves them for no float, the wrapped phase stays below one full turn although a sum may
round up to it, and a decay only multiplies the magnitude by a float between zero and one.

* `within_bounded` — clamped quantities;
* `isWrapped_wrap` — wrapped phases;
* `isValid_write`, `isValid_decay` — what happens to a cell keeps it valid.
-/

namespace GlyphField

open Binary64

/-! ## clamping -/

namespace Quantity

variable {lo hi x max : Float}

theorem within_iff : within lo hi x = true ↔ lo ≤ x ∧ x ≤ hi := by
  simp [within]

/-- What lies in finite bounds is finite, and its value lies in their values. -/
theorem toRat_of_within (hlo : lo.isFinite = true) (hhi : hi.isFinite = true)
    (h : within lo hi x = true) :
    x.isFinite = true ∧ toRat lo ≤ toRat x ∧ toRat x ≤ toRat hi := by
  obtain ⟨hle, hle'⟩ := within_iff.1 h
  have hx := isFinite_of_le_of_le hlo hhi hle hle'
  exact ⟨hx, (le_iff_toRat_le hlo hx).1 hle, (le_iff_toRat_le hx hhi).1 hle'⟩

theorem within_bounded (hfinite : max.isFinite = true) (hmax : 0 ≤ max) (x : Float) :
    within 0 max (bounded max x) = true := by
  have hzero : (0 : Float) ≤ 0 := by decide
  have hself : max ≤ max := (le_iff_toRat_le hfinite hfinite).2 le_rfl
  obtain ⟨-, hnumber⟩ := isNaN_eq_false_of_le hmax
  rw [within_iff, bounded]
  split
  · exact ⟨hzero, hmax⟩
  · next hnan =>
    have hx : x.isNaN = false := by simpa using hnan
    split
    · exact ⟨hzero, hmax⟩
    · next hlow =>
      split
      · exact ⟨hmax, hself⟩
      · next hhigh =>
        exact ⟨(not_lt_iff_le hx rfl).1 hlow, (not_lt_iff_le hnumber hx).1 hhigh⟩

end Quantity

/-! ## wrapping -/

namespace Angle

variable {x y : Float}

/-- The remainder is the float nearest to an exact number smaller than what was divided by. -/
theorem exists_rounds_remainder {negative : Bool} {m' : Nat} {e' : ℤ} (hx : x.isFinite = true)
    (hy : ofFloat y = .finite negative m' e') (hm' : 0 < m') :
    ∃ q : ℚ, |q| ≤ m' * 2 ^ e' ∧ Rounds q (remainder x y) := by
  obtain ⟨b, m, e, hparts⟩ := exists_finite_ofFloat hx
  have hlt := remainderParts_lt m e e' hm'
  have hexp : (remainderParts m e m' e').2 = min e' e := by
    unfold remainderParts
    split <;> simp <;> omega
  rw [remainder, hparts, hy]
  simp only [hm'.ne', if_false, hexp]
  generalize (remainderParts m e m' e').1 = r at hlt
  refine ⟨_, ?_, rounds_nearest b r (min e' e)⟩
  have hshift : (e' - e).toNat = (e' - min e' e).toNat := by omega
  have habs : |signed (signOf b) ((r : ℚ) * 2 ^ min e' e)| = r * 2 ^ min e' e := by
    cases b <;> simp [signOf, signed, abs_mul]
  have hlt : (r : ℚ) ≤ m' * 2 ^ (e' - min e' e).toNat := by
    rw [hshift] at hlt
    exact_mod_cast hlt.le
  rw [habs, magnitude_rescale m' (min_le_left e' e)]
  exact mul_le_mul_of_nonneg_right hlt (two_zpow_pos _).le

/-- The remainder by one turn lies between one turn back and one turn on. -/
theorem within_remainder_turn (hx : x.isFinite = true) :
    Quantity.within (-turn) turn (remainder x turn) = true := by
  have hturn : ofFloat turn = .finite false 7074237752028440 (-50) := rfl
  have hvalue : toRat turn = (7074237752028440 : Nat) * 2 ^ (-50 : ℤ) := rfl
  have hneg : toRat (-turn) = -toRat turn := rfl
  obtain ⟨q, hq, hround⟩ := exists_rounds_remainder hx hturn (by decide)
  rw [← hvalue] at hq
  obtain ⟨hlow, hhigh⟩ := abs_le.1 hq
  rw [Quantity.within_iff]
  exact ⟨(hround _ rfl).2 (hneg.trans_le hlow),
    (hround _ rfl).1 hhigh⟩

/-- A turn added to a negative remainder gives no negative sum. -/
theorem turnRemainder_nonneg (hx : x.isFinite = true) : 0 ≤ turnRemainder x := by
  have hwithin := within_remainder_turn hx
  obtain ⟨hfinite, hlow, -⟩ :=
    Quantity.toRat_of_within rfl rfl hwithin
  obtain ⟨-, hnumber⟩ := isNaN_eq_false_of_le (Quantity.within_iff.1 hwithin).1
  simp only [turnRemainder]
  split
  · have hneg : toRat (-turn) = -toRat turn := rfl
    refine (rounds_add hfinite rfl 0 rfl).2 ?_
    rw [toRat_zero]
    linarith
  · next hnonneg => exact (not_lt_iff_le hnumber rfl).1 hnonneg

theorem isWrapped_wrap (x : Float) : isWrapped (wrap x) = true := by
  have hzero : isWrapped 0 = true := rfl
  simp only [wrap]
  split
  · next hx =>
    have hnonneg := turnRemainder_nonneg hx
    split
    · exact hzero
    · next hturn =>
      have hlt : turnRemainder x < turn := by
        by_contra h
        exact hturn ((not_lt_iff_le (isNaN_eq_false_of_le hnonneg).2 rfl).1 h)
      simp [isWrapped, hnonneg, hlt]
  · exact hzero

end Angle

/-! ## cells -/

namespace Cell

variable {c : Cell}

theorem isValid_neutral : neutral.isValid = true := rfl

theorem isValid_iff : c.isValid = true ↔
    Quantity.within 0 maxMagnitude c.magnitude = true ∧ Angle.isWrapped c.phase = true ∧
      Quantity.within 0 maxCoherence c.coherence = true ∧
      Quantity.within 0 1 c.decayRate = true := by
  simp [isValid, and_assoc]

/-- Written values are brought into bounds; the decay rate stays. -/
theorem isValid_write (h : c.isValid = true) (now : UInt64) (v : Reading) :
    (c.write now v).isValid = true := by
  obtain ⟨-, -, -, hrate⟩ := isValid_iff.1 h
  exact isValid_iff.2 ⟨Quantity.within_bounded rfl (by decide) _,
    Angle.isWrapped_wrap _,
    Quantity.within_bounded rfl (by decide) _, hrate⟩

theorem isValid_setDecayRate (h : c.isValid = true) (rate : Float) :
    (c.setDecayRate rate).isValid = true := by
  obtain ⟨hmagnitude, hphase, hcoherence, -⟩ := isValid_iff.1 h
  exact isValid_iff.2 ⟨hmagnitude, hphase, hcoherence,
    Quantity.within_bounded rfl (by decide) rate⟩

theorem isValid_markQuantum (h : c.isValid = true) : c.markQuantum.isValid = true := h

/-- What is kept in a tick is a share between zero and one. -/
theorem within_kept {rate : Float} (h : Quantity.within 0 1 rate = true) :
    Quantity.within 0 1 (1 - rate) = true := by
  obtain ⟨hfinite, hlow, hhigh⟩ :=
    Quantity.toRat_of_within rfl rfl h
  have hround := rounds_sub (x := 1) rfl hfinite
  rw [toRat_zero] at hlow
  rw [Quantity.within_iff]
  exact ⟨(hround 0 rfl).2 (by rw [toRat_zero]; linarith),
    (hround 1 rfl).1 (by linarith)⟩

/-- A magnitude shrinks when it is multiplied by a share. -/
theorem within_mul {max m share : Float} (hmax : max.isFinite = true)
    (hm : Quantity.within 0 max m = true) (h : Quantity.within 0 1 share = true) :
    Quantity.within 0 max (m * share) = true := by
  obtain ⟨hfinite, hlow, hhigh⟩ := Quantity.toRat_of_within rfl hmax hm
  obtain ⟨hfinite', hlow', hhigh'⟩ :=
    Quantity.toRat_of_within rfl rfl h
  have hround := rounds_mul hfinite hfinite'
  rw [toRat_zero] at hlow hlow'
  rw [toRat_one] at hhigh'
  rw [Quantity.within_iff]
  refine ⟨(hround 0 rfl).2 ?_, (hround max hmax).1 ?_⟩
  · rw [toRat_zero]
    exact mul_nonneg hlow hlow'
  · exact (mul_le_of_le_one_right hlow hhigh').trans hhigh

theorem isValid_decay (h : c.isValid = true) : c.decay.isValid = true := by
  obtain ⟨hmagnitude, hphase, hcoherence, hrate⟩ := isValid_iff.1 h
  exact isValid_iff.2 ⟨within_mul rfl hmagnitude (within_kept hrate), hphase,
    hcoherence, hrate⟩

end Cell

end GlyphField
