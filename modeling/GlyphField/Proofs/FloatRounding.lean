import GlyphField.Proofs.FloatOrder

/-!
# GlyphField.Proofs.FloatRounding

Rounding is monotone, and a number that is a float already stays.  Both are said at once: the
rounding of an exact number lies on the same side of all finite parts as the number (`RoundsTo`).
Shifted bits tell in which half of the last place a number lies, and whether it is exact.  So the
rounded mantissa is the whole number below or above, and no whole number lies between.

* `Locates`, `Truncates` — what is known of a mantissa whose last bits have been shifted out, with
  and without the round bit;
* `IsRounding.roundsTo` — the rounding of such a mantissa with an exponent.
-/

namespace GlyphField.Binary64

open Float.Model (Format UnpackedFloat totalExponent)
open Float.Model.UnpackedFloat (Sign Accuracy ExtendedMantissa shiftToTargetExponent
  roundWithAccuracy)

/-! ## rounded mantissas -/

/-- A mantissa with the bit behind it. -/
def withRoundBit (em : ExtendedMantissa) : ℚ := em.mantissa + if em.roundBit then 1 / 2 else 0

/-- The mantissa and its round bit are a number cut off to halves, and the sticky bit tells whether
that is all. -/
structure Locates (em : ExtendedMantissa) (y : ℚ) : Prop where
  le : withRoundBit em ≤ y
  lt : y < withRoundBit em + 1 / 2
  eq_iff : y = withRoundBit em ↔ em.stickyBit = false

/-- The mantissa is the whole part of a number, and the bits beside it tell whether that is all. -/
structure Truncates (em : ExtendedMantissa) (y : ℚ) : Prop where
  le : (em.mantissa : ℚ) ≤ y
  lt : y < em.mantissa + 1
  eq_iff : y = em.mantissa ↔ (em.roundBit || em.stickyBit) = false

section Mantissas

variable {em : ExtendedMantissa} {y : ℚ}

theorem withRoundBit_shiftRightOne (em : ExtendedMantissa) :
    withRoundBit em.shiftRightOne = em.mantissa / 2 := by
  have hdiv : (em.mantissa : ℚ) = 2 * (em.mantissa / 2 : Nat) + (em.mantissa % 2 : Nat) := by
    exact_mod_cast (Nat.div_add_mod em.mantissa 2).symm
  obtain hbit | hbit : em.mantissa % 2 = 0 ∨ em.mantissa % 2 = 1 := by omega
  all_goals
    simp only [withRoundBit, ExtendedMantissa.shiftRightOne, hbit, Nat.cast_zero,
      Nat.cast_one] at hdiv ⊢
    norm_num
    linarith

theorem Locates.truncates (h : Locates em y) : Truncates em y := by
  obtain ⟨m, r, s⟩ := em
  obtain ⟨hle, hlt, heq⟩ := h
  cases r with
  | false =>
      simp only [withRoundBit, Bool.false_eq_true, if_false, add_zero] at hle hlt heq
      exact ⟨hle, by linarith, by simpa using heq⟩
  | true =>
      simp only [withRoundBit, if_true] at hle hlt
      have hne : y ≠ m := by linarith
      exact ⟨by linarith, by linarith, by simpa using hne⟩

theorem Locates.shiftRightOne (h : Locates em y) : Locates em.shiftRightOne (y / 2) := by
  obtain ⟨hle, hlt, heq⟩ := h.truncates
  have hhalf : y / 2 = em.mantissa / 2 ↔ y = em.mantissa := by
    constructor <;> intro h <;> linarith
  constructor
  · rw [withRoundBit_shiftRightOne]
    linarith
  · rw [withRoundBit_shiftRightOne]
    linarith
  · rw [withRoundBit_shiftRightOne, hhalf, heq]
    rfl

theorem Locates.shiftRight (h : Locates em y) (n : Nat) : Locates (em >>> n) (y / 2 ^ n) := by
  show Locates (n.repeat ExtendedMantissa.shiftRightOne em) (y / 2 ^ n)
  induction n with
  | zero => simpa [Nat.repeat] using h
  | succ n ih =>
      rw [pow_succ, ← div_div]
      exact ih.shiftRightOne

theorem le_roundedMantissa_le (em : ExtendedMantissa) :
    em.mantissa ≤ em.roundedMantissa ∧ em.roundedMantissa ≤ em.mantissa + 1 := by
  obtain ⟨m, r, s⟩ := em
  cases r <;> cases s <;>
    simp [ExtendedMantissa.roundedMantissa, ExtendedMantissa.accuracy, Accuracy.roundToNearestEven]
  omega

/-- The rounded mantissa passes no whole number on its way up. -/
theorem Truncates.roundedMantissa_le (h : Truncates em y) {k : Nat} (hk : y ≤ k) :
    em.roundedMantissa ≤ k := by
  by_cases heq : y = em.mantissa
  · have hbits := h.eq_iff.1 heq
    have hround : em.roundedMantissa = em.mantissa := by
      obtain ⟨m, r, s⟩ := em
      simp only [Bool.or_eq_false_iff] at hbits
      simp [ExtendedMantissa.roundedMantissa, ExtendedMantissa.accuracy,
        Accuracy.roundToNearestEven, hbits]
    rw [heq] at hk
    rw [hround]
    exact_mod_cast hk
  · have hlt : (em.mantissa : ℚ) < k := (lt_of_le_of_ne h.le (Ne.symm heq)).trans_le hk
    have hlt : em.mantissa < k := by exact_mod_cast hlt
    exact (le_roundedMantissa_le em).2.trans hlt

theorem Truncates.le_roundedMantissa (h : Truncates em y) {k : Nat} (hk : (k : ℚ) ≤ y) :
    k ≤ em.roundedMantissa := by
  have hlt : (k : ℚ) < em.mantissa + 1 := hk.trans_lt h.lt
  have hlt : k < em.mantissa + 1 := by exact_mod_cast hlt
  exact (Nat.lt_succ_iff.1 hlt).trans (le_roundedMantissa_le em).1

end Mantissas

/-! ## rounded parts -/

/-- Parts that lie on the same side of all finite parts in canonical form as an exact number. -/
structure RoundsTo (q : ℚ) (u : UnpackedFloat) : Prop where
  canonical : Canonical u
  isFinite : u.isFinite = true
  value_le : ∀ v, Canonical v → q ≤ value v → value u ≤ value v
  le_value : ∀ v, Canonical v → value v ≤ q → value v ≤ value u

theorem RoundsTo.self {u : UnpackedFloat} (hu : Canonical u) (hf : u.isFinite = true) :
    RoundsTo (value u) u :=
  ⟨hu, hf, fun _ _ h => h, fun _ _ h => h⟩

theorem value_neg (u : UnpackedFloat) : value u.neg = -value u := by
  cases u with
  | finite s m e h =>
      cases s with
      | positive => rfl
      | negative => exact (neg_neg ((m : ℚ) * 2 ^ e)).symm
  | _ => simp [UnpackedFloat.neg, value]

theorem canonical_neg {u : UnpackedFloat} (h : Canonical u) : Canonical u.neg := by
  cases u <;> exact h

/-- Rounding treats both signs alike. -/
theorem RoundsTo.neg {q : ℚ} {u : UnpackedFloat} (h : RoundsTo q u) : RoundsTo (-q) u.neg where
  canonical := canonical_neg h.canonical
  isFinite := by
    have hfinite := h.isFinite
    cases u <;> exact hfinite
  value_le v hv hq := by
    have := h.le_value v.neg (canonical_neg hv) (by rw [value_neg]; linarith)
    rw [value_neg] at this ⊢
    linarith
  le_value v hv hq := by
    have := h.value_le v.neg (canonical_neg hv) (by rw [value_neg]; linarith)
    rw [value_neg] at this ⊢
    linarith

/-! ## the rounding of a mantissa -/

/-- The exponent that a number with this mantissa and exponent is given. -/
def target (m : Nat) (e : ℤ) : ℤ := max (m.log2 + e - 52) (-1074)

theorem least_le_target (m : Nat) (e : ℤ) : -1074 ≤ target m e := le_max_right _ _

theorem targetExponent_eq (m : Nat) (e : ℤ) :
    Format.binary64.targetExponent (totalExponent m e) = target m e := by
  have hbits : (Format.binary64.mantissaBits : ℤ) = 53 := rfl
  have hmin : Format.binary64.minExponent = -1074 := rfl
  rw [Format.targetExponent, totalExponent, hbits, hmin, target]
  omega

theorem shift_zero (em : ExtendedMantissa) : em >>> (0 : Nat) = em := rfl

theorem shiftToTargetExponent_of_lt {m : Nat} {e : ℤ} (hm : m < 2 ^ 53) (he : -1074 ≤ e) :
    shiftToTargetExponent Format.binary64 m e .exact = (⟨m, false, false⟩, e) := by
  have hlog : m.log2 ≤ 52 := by
    by_cases hzero : m = 0
    · simp [hzero]
    · have := (Nat.log2_lt hzero).2 hm
      omega
  have hshift : (target m e - e).toNat = 0 := by
    rw [target]
    omega
  simp [shiftToTargetExponent, targetExponent_eq, UnpackedFloat.shiftToExponent, hshift, shift_zero,
    ExtendedMantissa.ofMantissaAndAccuracy]

theorem shiftToTargetExponent_two_pow {e : ℤ} (he : -1074 ≤ e) :
    shiftToTargetExponent Format.binary64 (2 ^ 53) e .exact = (⟨2 ^ 52, false, false⟩, e + 1) := by
  have hshift : (target (2 ^ 53) e - e).toNat = 1 := by
    rw [target, Nat.log2_two_pow]
    omega
  rw [shiftToTargetExponent, targetExponent_eq, UnpackedFloat.shiftToExponent, hshift]
  rfl

/-- Parts of a mantissa of up to 53 bits, one more for `2^53` itself. -/
def carried (s : Sign) (r : Nat) (e : ℤ) : UnpackedFloat :=
  if h : r = 0 then .zero s
  else if r < 2 ^ 53 then .finite s r e (Nat.pos_of_ne_zero h)
  else .finite s (2 ^ 52) (e + 1) (by decide)

theorem roundWithAccuracy_eq {s : Sign} {m r : Nat} {e : ℤ} {acc : Accuracy}
    (hr : (ExtendedMantissa.ofMantissaAndAccuracy m acc >>> (target m e - e).toNat).roundedMantissa
      = r) (hle : r ≤ 2 ^ 53) (he : e ≤ target m e) :
    roundWithAccuracy Format.binary64 s m e acc = carried s r (target m e) := by
  have hlow := least_le_target m e
  have hexp : e + ((target m e - e).toNat : ℤ) = target m e := by omega
  have hfirst : shiftToTargetExponent Format.binary64 m e acc =
      (ExtendedMantissa.ofMantissaAndAccuracy m acc >>> (target m e - e).toNat, target m e) := by
    rw [shiftToTargetExponent, targetExponent_eq, UnpackedFloat.shiftToExponent, hexp]
  unfold roundWithAccuracy carried
  simp only [hfirst, hr]
  obtain hlt | rfl := Nat.lt_or_eq_of_le hle
  · simp only [shiftToTargetExponent_of_lt hlt hlow, hlt, if_true]
  · simp only [shiftToTargetExponent_two_pow hlow]
    rfl

theorem carried_spec {s : Sign} {r : Nat} {e : ℤ} (hle : r ≤ 2 ^ 53) (he : -1074 ≤ e)
    (hlow : 2 ^ 52 ≤ r ∨ e = -1074) :
    Canonical (carried s r e) ∧ (carried s r e).isFinite = true ∧
      value (carried s r e) = signed s (r * 2 ^ e) := by
  unfold carried
  split
  · next hzero =>
    subst hzero
    refine ⟨trivial, rfl, ?_⟩
    cases s <;> simp [value, signed]
  · split
    · next hlt => exact ⟨⟨hlt, he, hlow⟩, rfl, rfl⟩
    · next hge =>
      obtain rfl : r = 2 ^ 53 := by omega
      refine ⟨⟨by decide, by omega, .inl (Nat.le_refl _)⟩, rfl, congrArg (signed s) ?_⟩
      rw [zpow_add₀ (by norm_num)]
      push_cast
      ring

theorem exists_magnitude {v : UnpackedFloat} (h : Canonical v) :
    ∃ (s : Sign) (n : Nat) (k : ℤ), n < 2 ^ 53 ∧ -1074 ≤ k ∧ value v = signed s (n * 2 ^ k) := by
  cases v with
  | finite s n k hn => exact ⟨s, n, k, h.1, h.2.1, rfl⟩
  | _ => exact ⟨.positive, 0, 0, by decide, by decide, by simp [value, signed]⟩

/-- A number that is a whole multiple of a power of two from `2^52` on, or of the least one, is
on the same side of parts in canonical form as its rounded multiple. -/
theorem roundsTo_carried {em : ExtendedMantissa} {y : ℚ} {e : ℤ} (h : Truncates em y)
    (hle : y ≤ 2 ^ 53) (he : -1074 ≤ e) (hlow : 2 ^ 52 ≤ y ∨ e = -1074) :
    RoundsTo (y * 2 ^ e) (carried .positive em.roundedMantissa e) := by
  have hr : em.roundedMantissa ≤ 2 ^ 53 := h.roundedMantissa_le (by exact_mod_cast hle)
  have hr_low : 2 ^ 52 ≤ em.roundedMantissa ∨ e = -1074 :=
    hlow.imp (fun h52 => h.le_roundedMantissa (by exact_mod_cast h52)) id
  obtain ⟨hcanonical, hfinite, hvalue⟩ := carried_spec (s := .positive) hr he hr_low
  have hy : 0 ≤ y := (Nat.cast_nonneg _).trans h.le
  have hpow := two_zpow_pos e
  -- a magnitude is a whole multiple of the power of two, or smaller than both numbers
  have hside (n : Nat) (k : ℤ) (hn : n < 2 ^ 53) (hk : -1074 ≤ k) :
      (y * 2 ^ e ≤ n * 2 ^ k → (em.roundedMantissa : ℚ) * 2 ^ e ≤ n * 2 ^ k) ∧
        ((n : ℚ) * 2 ^ k ≤ y * 2 ^ e → (n : ℚ) * 2 ^ k ≤ em.roundedMantissa * 2 ^ e) := by
    obtain hek | hke := le_or_gt e k
    · rw [magnitude_rescale n hek]
      have hcast : (n : ℚ) * 2 ^ (k - e).toNat = (n * 2 ^ (k - e).toNat : Nat) := by push_cast; rfl
      rw [hcast, mul_le_mul_iff_left₀ hpow, mul_le_mul_iff_left₀ hpow, mul_le_mul_iff_left₀ hpow,
        mul_le_mul_iff_left₀ hpow]
      exact ⟨fun hyn => Nat.cast_le.2 (h.roundedMantissa_le hyn),
        fun hny => Nat.cast_le.2 (h.le_roundedMantissa hny)⟩
    · have hne : e ≠ -1074 := by omega
      have hn52 := magnitude_lt_of_exponent_lt (n := 2 ^ 52) hn (Nat.le_refl _) hke
      have hy52 : (2 : ℚ) ^ 52 * 2 ^ e ≤ y * 2 ^ e :=
        mul_le_mul_of_nonneg_right (hlow.resolve_right hne) hpow.le
      have hr52 : (2 : ℚ) ^ 52 * 2 ^ e ≤ em.roundedMantissa * 2 ^ e :=
        mul_le_mul_of_nonneg_right (by exact_mod_cast hr_low.resolve_right hne) hpow.le
      push_cast at hn52
      exact ⟨fun hyn => by linarith, fun _ => by linarith⟩
  have hy_nonneg : 0 ≤ y * 2 ^ e := mul_nonneg hy hpow.le
  have hr_nonneg : 0 ≤ (em.roundedMantissa : ℚ) * 2 ^ e := mul_nonneg (Nat.cast_nonneg _) hpow.le
  refine ⟨hcanonical, hfinite, fun v hv hyv => ?_, fun v hv hvy => ?_⟩
  · obtain ⟨s, n, k, hn, hk, hv⟩ := exists_magnitude hv
    have hn_nonneg : 0 ≤ (n : ℚ) * 2 ^ k := mul_nonneg (Nat.cast_nonneg n) (two_zpow_pos k).le
    rw [hv] at hyv ⊢
    rw [hvalue]
    cases s with
    | positive => exact (hside n k hn hk).1 hyv
    | negative =>
        have hzero := (hside 0 0 (by decide) (by decide)).1
        simp only [signed, Nat.cast_zero, zero_mul] at hyv hzero ⊢
        linarith [hzero (by linarith)]
  · obtain ⟨s, n, k, hn, hk, hv⟩ := exists_magnitude hv
    have hn_nonneg : 0 ≤ (n : ℚ) * 2 ^ k := mul_nonneg (Nat.cast_nonneg n) (two_zpow_pos k).le
    rw [hv] at hvy ⊢
    rw [hvalue]
    cases s with
    | positive => exact (hside n k hn hk).2 hvy
    | negative =>
        simp only [signed]
        linarith

theorem carried_neg (r : Nat) (e : ℤ) : (carried .positive r e).neg = carried .negative r e := by
  unfold carried
  split
  · rfl
  · split <;> rfl

section Shifts

variable {m : Nat} {e : ℤ} {acc : Accuracy} {y : ℚ}

theorem mantissa_ofMantissaAndAccuracy (m : Nat) (acc : Accuracy) :
    (ExtendedMantissa.ofMantissaAndAccuracy m acc).mantissa = m := by
  cases acc with
  | exact => rfl
  | inexact o => cases o <;> rfl

/-- The shift leaves at most 53 bits, and no fewer unless the exponent is the least one. -/
theorem shifted_bounds (hy : Truncates (ExtendedMantissa.ofMantissaAndAccuracy m acc) y)
    (he : e ≤ target m e) (hm : 0 < m ∨ e ≤ -1074) :
    y / 2 ^ (target m e - e).toNat ≤ 2 ^ 53 ∧
      (2 ^ 52 ≤ y / 2 ^ (target m e - e).toNat ∨ target m e = -1074) := by
  obtain ⟨n, hn⟩ : ∃ n, (target m e - e).toNat = n := ⟨_, rfl⟩
  have hexp : e + n = target m e := by omega
  have hlow := hy.le
  have hhigh := hy.lt
  rw [mantissa_ofMantissaAndAccuracy] at hlow hhigh
  have hpow : (0 : ℚ) < 2 ^ n := by positivity
  rw [hn]
  constructor
  · have hlog : m + 1 ≤ 2 ^ (53 + n) := by
      refine Nat.lt_log2_self.trans_le (Nat.pow_le_pow_right (by decide) ?_)
      rw [target] at hexp
      omega
    have hlog : (m : ℚ) + 1 ≤ 2 ^ (53 + n) := by exact_mod_cast hlog
    rw [div_le_iff₀ hpow, ← pow_add]
    linarith
  · refine or_iff_not_imp_right.2 fun hne => ?_
    have htarget : target m e = m.log2 + e - 52 := by
      rw [target] at hne ⊢
      omega
    have hpos : m ≠ 0 := by
      rintro rfl
      have hsmall := hm.resolve_left (by decide)
      have hleast := least_le_target 0 e
      rw [Nat.log2_zero] at htarget
      omega
    have hlog : 2 ^ (52 + n) ≤ m := by
      refine le_trans (Nat.pow_le_pow_right (by decide) ?_) (Nat.log2_self_le hpos)
      omega
    have hlog : (2 : ℚ) ^ (52 + n) ≤ m := by exact_mod_cast hlog
    rw [le_div_iff₀ hpow, ← pow_add]
    linarith

/-- What is shifted out of the mantissa is made up for by the exponent. -/
theorem shifted_scale (y : ℚ) (he : e ≤ target m e) :
    y / 2 ^ (target m e - e).toNat * 2 ^ target m e = y * 2 ^ e := by
  obtain ⟨n, hn⟩ : ∃ n, (target m e - e).toNat = n := ⟨_, rfl⟩
  have hexp : e + n = target m e := by omega
  have hpow : (2 : ℚ) ^ n ≠ 0 := by positivity
  rw [hn, ← hexp, zpow_add₀ (by norm_num), zpow_natCast, mul_comm (2 ^ e), ← mul_assoc,
    div_mul_cancel₀ _ hpow]

end Shifts

/-- Parts that a magnitude is rounded to: those of a mantissa that locates it, with an exponent that
rounding does not have to decrease. -/
inductive IsRounding (s : Sign) : ℚ → UnpackedFloat → Prop
  | mk {m : Nat} {e : ℤ} {acc : Accuracy} {y : ℚ}
    (hy : Locates (ExtendedMantissa.ofMantissaAndAccuracy m acc) y) (he : e ≤ target m e)
    (hm : 0 < m ∨ e ≤ -1074) :
    IsRounding s (y * 2 ^ e) (roundWithAccuracy Format.binary64 s m e acc)

/-- **Rounding** keeps to the side on which the magnitude lies. -/
theorem IsRounding.roundsTo {s : Sign} {q : ℚ} {u : UnpackedFloat} (h : IsRounding s q u) :
    RoundsTo (signed s q) u := by
  obtain @⟨m, e, acc, y, hy, he, hm⟩ := h
  obtain ⟨hbound, hnormal⟩ := shifted_bounds hy.truncates he hm
  have hshift := (hy.shiftRight (target m e - e).toNat).truncates
  have hpositive := roundsTo_carried hshift hbound (least_le_target _ _) hnormal
  rw [shifted_scale _ he] at hpositive
  have hr := hshift.roundedMantissa_le (k := 2 ^ 53) (by exact_mod_cast hbound)
  rw [roundWithAccuracy_eq rfl hr he]
  cases s with
  | positive => exact hpositive
  | negative =>
      rw [← carried_neg]
      exact hpositive.neg

end GlyphField.Binary64
