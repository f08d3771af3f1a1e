import GlyphField.Proofs.FloatArithmetic

/-!
# GlyphField.Proofs.FloatNearest

Rounding goes to the nearest float.  Around every magnitude lies the interval of the numbers that
are nearest to it; its ends are halfway to the neighbours and belong to it if the mantissa is even.
What lies in the interval is shifted to the exponent of the magnitude, or to the one below it at
the end of a binade, where the rounded mantissa is carried over.

* `Nearest` — the numbers nearest to a magnitude;
* `Locates.roundedMantissa_eq` — the mantissa next to a number;
* `IsRounding.eq_of_nearest` — a number in the interval is rounded to the magnitude.
-/

namespace GlyphField.Binary64

open Float.Model (Format UnpackedFloat)
open Float.Model.UnpackedFloat (Sign Accuracy ExtendedMantissa roundWithAccuracy)

/-! ## the nearest mantissa -/

theorem Locates.roundedMantissa_eq {em : ExtendedMantissa} {y : ℚ} (h : Locates em y) {k : Nat}
    (hlo : (k : ℚ) - 1 / 2 ≤ y) (hhi : y ≤ k + 1 / 2)
    (heven : y = k - 1 / 2 ∨ y = k + 1 / 2 → k % 2 = 0) : em.roundedMantissa = k := by
  obtain ⟨m, r, s⟩ := em
  obtain ⟨hle, hlt, heq⟩ := h
  simp only [ExtendedMantissa.roundedMantissa, ExtendedMantissa.accuracy]
  cases r with
  | false =>
      -- the mantissa is less than half a unit below the number
      simp only [withRoundBit, Bool.false_eq_true, if_false, add_zero] at hle hlt
      have hupper : (k : ℚ) < m + 1 := by linarith
      have hlower : (m : ℚ) < k + 1 := by linarith
      have hupper : k < m + 1 := by exact_mod_cast hupper
      have hlower : m < k + 1 := by exact_mod_cast hlower
      cases s <;> simp only [Accuracy.roundToNearestEven] <;> omega
  | true =>
      simp only [withRoundBit, if_true] at hle hlt heq
      cases s with
      | true =>
          have hne : y ≠ m + 1 / 2 := fun h => by simpa using heq.1 h
          have hgt : (m : ℚ) + 1 / 2 < y := lt_of_le_of_ne hle (Ne.symm hne)
          have hupper : (k : ℚ) < m + 1 + 1 := by linarith
          have hlower : (m : ℚ) < k := by linarith
          have hupper : k < m + 1 + 1 := by exact_mod_cast hupper
          have hlower : m < k := by exact_mod_cast hlower
          simp only [Accuracy.roundToNearestEven]
          omega
      | false =>
          -- a tie: the number is halfway between two mantissas, of which one is even
          have hy : y = m + 1 / 2 := heq.2 rfl
          have hupper : (k : ℚ) ≤ m + 1 := by linarith
          have hlower : (m : ℚ) ≤ k := by linarith
          have hupper : k ≤ m + 1 := by exact_mod_cast hupper
          have hlower : m ≤ k := by exact_mod_cast hlower
          have hk : k % 2 = 0 := by
            obtain rfl | rfl : k = m ∨ k = m + 1 := by omega
            · exact heven (.inr hy)
            · exact heven (.inl (by rw [hy]; push_cast; ring))
          simp only [Accuracy.roundToNearestEven]
          omega

/-! ## the interval of a magnitude -/

/-- Half the distance to the next smaller magnitude.  Below the least mantissa of a binade the
magnitudes lie twice as dense. -/
def halfBelow (m : Nat) (e : ℤ) : ℚ := if m = leastMantissa ∧ -1074 < e then 1 / 4 else 1 / 2

/-- The numbers nearest to `m · 2^e`.  One halfway to a neighbour is as near to that and belongs to
the even mantissa. -/
structure Nearest (m : Nat) (e : ℤ) (q : ℚ) : Prop where
  le : (m - halfBelow m e) * 2 ^ e ≤ q
  ge : q ≤ (m + 1 / 2) * 2 ^ e
  even : q = (m - halfBelow m e) * 2 ^ e ∨ q = (m + 1 / 2) * 2 ^ e → m % 2 = 0

section Intervals

variable {m : Nat} {e : ℤ}

theorem halfBelow_pos (m : Nat) (e : ℤ) : 0 < halfBelow m e := by
  unfold halfBelow
  split <;> norm_num

theorem halfBelow_le (m : Nat) (e : ℤ) : halfBelow m e ≤ 1 / 2 := by
  unfold halfBelow
  split <;> norm_num

theorem nearest_self (m : Nat) (e : ℤ) : Nearest m e (m * 2 ^ e) := by
  have hpos := halfBelow_pos m e
  have hpow := two_zpow_pos e
  constructor
  · exact mul_le_mul_of_nonneg_right (by linarith) hpow.le
  · exact mul_le_mul_of_nonneg_right (by linarith) hpow.le
  · rintro (h | h) <;> have := mul_right_cancel₀ hpow.ne' h <;> linarith

/-- In units of a smaller power of two. -/
theorem zpow_eq_mul {t : ℤ} (h : t ≤ e) : (2 : ℚ) ^ e = 2 ^ (e - t).toNat * 2 ^ t := by
  simpa using magnitude_rescale 1 h

variable {em : ExtendedMantissa} {y : ℚ}

/-- On the grid of the magnitude itself the mantissa is the nearest one. -/
theorem Locates.roundedMantissa_of_nearest (h : Locates em y)
    (hnormal : 2 ^ 52 ≤ y ∨ e = -1074) (hq : Nearest m e (y * 2 ^ e)) :
    em.roundedMantissa = m := by
  have hpow := two_zpow_pos e
  have hlo : (m : ℚ) - halfBelow m e ≤ y := le_of_mul_le_mul_right hq.le hpow
  have hhi : y ≤ m + 1 / 2 := le_of_mul_le_mul_right hq.ge hpow
  have hupper (hy : y = m + 1 / 2) : m % 2 = 0 := hq.even (.inr (by rw [hy]))
  by_cases hm : m = leastMantissa ∧ -1074 < e
  · -- the numbers below the binade are not on this grid
    have hy : (m : ℚ) ≤ y := by
      rw [hm.1]
      exact_mod_cast hnormal.resolve_right (by omega)
    refine h.roundedMantissa_eq (by linarith) hhi ?_
    rintro (hlower | hy')
    · linarith
    · exact hupper hy'
  · rw [halfBelow, if_neg hm] at hlo
    refine h.roundedMantissa_eq hlo hhi ?_
    rintro (hlower | hy')
    · exact hq.even (.inl (by rw [hlower, halfBelow, if_neg hm]))
    · exact hupper hy'

/-- A number nearest to a magnitude that is on a finer grid is just below the binade of the
magnitude, and rounded to it from below. -/
theorem Locates.roundedMantissa_of_finer {t : ℤ} (h : Locates em y) (hle : y ≤ 2 ^ 53)
    (hm : 2 ^ 52 ≤ m) (ht : t < e) (hlow : -1074 ≤ t) (hq : Nearest m e (y * 2 ^ t)) :
    m = 2 ^ 52 ∧ t = e - 1 ∧ em.roundedMantissa = 2 ^ 53 := by
  have hpow := two_zpow_pos t
  obtain ⟨j, hj⟩ : ∃ j, (e - t).toNat = j + 1 := ⟨(e - t).toNat - 1, by omega⟩
  have hge : (m - halfBelow m e) * (2 * 2 ^ j) ≤ y := by
    have hscaled := hq.le
    rw [zpow_eq_mul ht.le, hj, ← mul_assoc, pow_succ'] at hscaled
    exact le_of_mul_le_mul_right hscaled hpow
  have hhalf := halfBelow_le m e
  have hone : (1 : ℚ) ≤ 2 ^ j := one_le_pow₀ (by norm_num)
  have hm' : (2 : ℚ) ^ 52 ≤ m := by exact_mod_cast hm
  have hpositive : (0 : ℚ) ≤ m - halfBelow m e := by linarith
  have hsmall : (m - halfBelow m e) * 2 ≤ 2 ^ 53 := by nlinarith
  have hm52 : m = 2 ^ 52 := by
    have hupper : (m : ℚ) < 2 ^ 52 + 1 := by linarith
    have hupper : m < 2 ^ 52 + 1 := by exact_mod_cast hupper
    omega
  have hquarter : halfBelow m e = 1 / 4 := if_pos ⟨hm52, by omega⟩
  rw [hquarter, hm52] at hge
  push_cast at hge
  have hj0 : j = 0 := by
    by_contra hj0
    have htwo : (2 : ℚ) ^ 1 ≤ 2 ^ j := pow_le_pow_right₀ (by norm_num) (by omega)
    linarith
  subst hj0
  refine ⟨hm52, by omega, h.roundedMantissa_eq (by norm_num at hge ⊢; linarith) ?_ ?_⟩
  · push_cast
    linarith
  · rintro -
    rfl

end Intervals

/-! ## rounding to the nearest -/

/-- **Rounding to the nearest.** -/
theorem IsRounding.eq_of_nearest {s : Sign} {q : ℚ} {u : UnpackedFloat} (h : IsRounding s q u)
    {m : Nat} {e : ℤ} {hm : 0 < m} (hv : Canonical (.finite s m e hm)) (hq : Nearest m e q) :
    u = .finite s m e hm := by
  obtain @⟨n, k, acc, y, hy, hk, hn⟩ := h
  obtain ⟨hbound, hnormal⟩ := shifted_bounds hy.truncates hk hn
  have hscale := shifted_scale y hk
  have hshift := hy.shiftRight (target n k - k).toNat
  have hlow := least_le_target n k
  have hround {r : Nat} (hr : (ExtendedMantissa.ofMantissaAndAccuracy n acc >>>
      (target n k - k).toNat).roundedMantissa = r) (hle : r ≤ 2 ^ 53) :
      roundWithAccuracy Format.binary64 s n k acc = carried s r (target n k) :=
    roundWithAccuracy_eq hr hle hk
  obtain ⟨hm53, he, hm52⟩ := hv
  generalize y / 2 ^ (target n k - k).toNat = z at *
  generalize target n k = t at *
  rw [← hscale] at hq
  obtain hlt | rfl | hgt := lt_trichotomy t e
  · obtain ⟨rfl, rfl, hr⟩ := hshift.roundedMantissa_of_finer hbound
      (hm52.resolve_right (by omega)) hlt hlow hq
    rw [hround hr le_rfl, carried, dif_neg (by decide), if_neg (by decide)]
    simp
  · have hr := hshift.roundedMantissa_of_nearest hnormal hq
    rw [hround hr hm53.le, carried, dif_neg hm.ne', if_pos hm53]
  · -- a coarser grid starts behind the interval
    have hz : (2 : ℚ) ^ 52 ≤ z := hnormal.resolve_right (by omega)
    have hpow := two_zpow_pos e
    have hcoarse : (2 : ℚ) ^ 53 * 2 ^ e ≤ z * 2 ^ t := by
      have htwo : (2 : ℚ) ^ 1 ≤ 2 ^ (t - e).toNat := pow_le_pow_right₀ (by norm_num) (by omega)
      rw [zpow_eq_mul hgt.le, ← mul_assoc]
      refine mul_le_mul_of_nonneg_right ?_ hpow.le
      nlinarith
    have hm53 : (m : ℚ) + 1 ≤ 2 ^ 53 := by exact_mod_cast hm53
    have hge := hcoarse.trans hq.ge
    have hge := le_of_mul_le_mul_right hge hpow
    linarith

end GlyphField.Binary64
