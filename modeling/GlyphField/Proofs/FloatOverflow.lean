import GlyphField.Proofs.FloatNearest

/-!
# GlyphField.Proofs.FloatOverflow

Which results are finite.  An operation rounds its exact result, and the greatest float is as near
to that as any float could be until the result is halfway to the next magnitude, `2^1024`, which is
not one of a float any more.  There lies the bound: a magnitude from it on is rounded to infinity.

A float that is not finite never gives a finite sum or product again, so that the laws need no
hypotheses on the operands.

* `overflowBound` — the least magnitude that is rounded to infinity;
* `IsRounding.isFinite_pack_iff` — a magnitude below the bound is rounded to a finite float;
* `isFinite_add_iff`, `isFinite_mul_iff`, `isFinite_div_iff` — which results are finite.
-/

namespace GlyphField.Binary64

open Float.Model (Format UnpackedFloat)
open Float.Model.UnpackedFloat (Sign)

/-- Halfway from the greatest float to `2^1024`. -/
def overflowBound : ℚ := (2 ^ 53 - 1 / 2) * 2 ^ (971 : ℤ)

/-! ## the ends of the floats -/

/-- The greatest magnitude of a float. -/
def greatest : UnpackedFloat := .finite .positive (2 ^ 53 - 1) 971 (by decide)

/-- The next magnitude, with an exponent that does not fit. -/
def beyond : UnpackedFloat := .finite .positive (2 ^ 52) 972 (Nat.two_pow_pos 52)

theorem canonical_greatest : Canonical greatest := ⟨by decide, by decide, .inl (by decide)⟩

theorem canonical_beyond : Canonical beyond := ⟨by decide, by decide, .inl (by decide)⟩

theorem value_greatest : value greatest = (2 ^ 53 - 1) * 2 ^ (971 : ℤ) := by
  rw [greatest, value, signed, Nat.cast_sub (by decide), Nat.cast_pow, Nat.cast_ofNat, Nat.cast_one]

theorem two_zpow_972 : (2 : ℚ) ^ (972 : ℤ) = 2 ^ (971 : ℤ) * 2 :=
  zpow_add_one₀ (by norm_num) 971

theorem value_beyond : value beyond = 2 ^ 53 * 2 ^ (971 : ℤ) := by
  rw [beyond, value, signed, two_zpow_972, Nat.cast_pow, Nat.cast_ofNat]
  generalize (2 : ℚ) ^ (971 : ℤ) = unit
  ring

theorem value_greatest_lt_bound : value greatest < overflowBound := by
  rw [value_greatest, overflowBound]
  exact mul_lt_mul_of_pos_right (by norm_num) (two_zpow_pos 971)

theorem bound_lt_value_beyond : overflowBound < value beyond := by
  rw [value_beyond, overflowBound]
  exact mul_lt_mul_of_pos_right (by norm_num) (two_zpow_pos 971)

theorem overflowBound_pos : 0 < overflowBound := mul_pos (by norm_num) (two_zpow_pos 971)

/-- The numbers up to the bound are nearest to the greatest magnitude. -/
theorem nearest_greatest {q : ℚ} (h : value greatest ≤ q) (h' : q < overflowBound) :
    Nearest (2 ^ 53 - 1) 971 q := by
  obtain ⟨hle, -, heven⟩ := nearest_self (2 ^ 53 - 1) 971
  have hm : ((2 ^ 53 - 1 : Nat) : ℚ) = 2 ^ 53 - 1 := by norm_num
  have hhalf : (2 : ℚ) ^ 53 - 1 + 1 / 2 = 2 ^ 53 - 1 / 2 := by norm_num
  rw [value_greatest] at h
  rw [hm] at hle heven
  refine ⟨?_, ?_, ?_⟩
  · rw [hm]
    exact hle.trans h
  · rw [hm, hhalf]
    exact h'.le
  · rw [hm, hhalf]
    rintro (hq | hq)
    · exact heven (.inl (le_antisymm (hq ▸ h) hle))
    · exact absurd hq h'.ne

/-- The numbers from the bound on are nearest to the next magnitude, whose mantissa is even. -/
theorem nearest_beyond {q : ℚ} (h : overflowBound ≤ q) (h' : q ≤ value beyond) :
    Nearest (2 ^ 52) 972 q := by
  have hpow := two_zpow_pos 971
  have hquarter : halfBelow (2 ^ 52) 972 = 1 / 4 := if_pos ⟨rfl, by decide⟩
  rw [value_beyond] at h'
  rw [overflowBound] at h
  refine ⟨?_, ?_, fun _ => rfl⟩
  · rw [hquarter, two_zpow_972, Nat.cast_pow, Nat.cast_ofNat]
    generalize (2 : ℚ) ^ (971 : ℤ) = unit at *
    linarith
  · rw [two_zpow_972, Nat.cast_pow, Nat.cast_ofNat]
    generalize (2 : ℚ) ^ (971 : ℤ) = unit at *
    linarith

/-! ## packed parts -/

section Packed

variable {q : ℚ} {s : Sign} {u v : UnpackedFloat}

/-- A rounded number is no greater than parts that bound the number. -/
theorem RoundsTo.abs_value_le (h : RoundsTo q u) (hv : Canonical v) (hq : |q| ≤ value v) :
    |value u| ≤ value v := by
  obtain ⟨hlow, hhigh⟩ := abs_le.1 hq
  have hneg := h.le_value v.neg (canonical_neg hv) (by rwa [value_neg])
  rw [value_neg] at hneg
  exact abs_le.2 ⟨hneg, h.value_le v hv hhigh⟩

/-- A rounded number is no smaller than parts that the number is not smaller than. -/
theorem RoundsTo.le_abs_value (h : RoundsTo q u) (hv : Canonical v) (hq : value v ≤ |q|) :
    value v ≤ |value u| := by
  obtain hq | hq := le_abs.1 hq
  · exact (h.le_value v hv hq).trans (le_abs_self _)
  · have hneg := h.value_le v.neg (canonical_neg hv) (by rw [value_neg]; linarith)
    rw [value_neg] at hneg
    exact (le_neg_of_le_neg hneg).trans (neg_le_abs _)

/-- Magnitudes are not negative. -/
theorem IsRounding.abs_signed (h : IsRounding s q u) : |signed s q| = q := by
  obtain @⟨m, e, acc, y, hy, -, -⟩ := h
  have hy : 0 ≤ y := (Nat.cast_nonneg _).trans hy.truncates.le
  have hq : 0 ≤ y * 2 ^ e := mul_nonneg hy (two_zpow_pos e).le
  cases s with
  | positive => exact abs_of_nonneg hq
  | negative => rw [signed, abs_neg, abs_of_nonneg hq]

/-- Only an exponent that fits makes a finite float. -/
theorem isFinite_pack_iff_fit (h : Canonical u) (hfinite : u.isFinite = true) :
    (pack u).isFinite = true ↔ fit u = u := by
  show (parts (pack u)).isFinite = true ↔ _
  rw [parts_pack h]
  cases u with
  | finite s m e hm =>
      rw [fit]
      split <;> simp [UnpackedFloat.isFinite]
  | zero s => simp [fit, UnpackedFloat.isFinite]
  | _ => cases hfinite

theorem abs_value_finite (s : Sign) (m : Nat) (e : ℤ) (hm : 0 < m) :
    |value (.finite s m e hm)| = m * 2 ^ e := by
  cases s <;> simp [value, signed, abs_mul]

/-- Parts with an exponent that fits are no greater than the greatest float, all others no smaller
than the next magnitude. -/
theorem abs_value_le_greatest (h : Canonical u) (hfit : fit u = u) :
    |value u| ≤ value greatest := by
  have hzero : |(0 : ℚ)| ≤ value greatest := by
    rw [abs_zero]
    exact (magnitude_pos (by decide) 971).le
  cases u with
  | finite s m e hm =>
      have he : e ≤ 971 := by
        by_contra he
        rw [fit, if_neg he] at hfit
        cases hfit
      have hm53 : m ≤ 2 ^ 53 - 1 := Nat.le_pred_of_lt h.1
      rw [abs_value_finite]
      exact mul_le_mul (Nat.cast_le.2 hm53) (zpow_le_zpow_right₀ (by norm_num) he)
        (two_zpow_pos e).le (Nat.cast_nonneg _)
  | _ => exact hzero

theorem value_beyond_le (h : Canonical u) (hfit : fit u ≠ u) : value beyond ≤ |value u| := by
  cases u with
  | finite s m e hm =>
      have he : 972 ≤ e := by
        by_contra he
        exact hfit (if_pos (by omega))
      have hm52 : 2 ^ 52 ≤ m := h.2.2.resolve_right (by omega)
      rw [abs_value_finite]
      exact mul_le_mul (by exact_mod_cast hm52) (zpow_le_zpow_right₀ (by norm_num) he)
        (two_zpow_pos 972).le (Nat.cast_nonneg m)
  | _ => exact absurd rfl hfit

/-- The magnitude of a float is smaller than the bound. -/
theorem abs_toRat_lt_bound (x : Float) : |toRat x| < overflowBound :=
  (abs_value_le_greatest (canonical_parts x) (fit_parts x)).trans_lt value_greatest_lt_bound

/-- **Rounding to a finite float.** -/
theorem IsRounding.isFinite_pack_iff (h : IsRounding s q u) :
    (pack u).isFinite = true ↔ q < overflowBound := by
  have hround := h.roundsTo
  have habs := h.abs_signed
  rw [isFinite_pack_iff_fit hround.canonical hround.isFinite]
  constructor
  · intro hfit
    by_contra hge
    obtain hnear | hfar := le_total q (value beyond)
    · have hu : u = .finite s (2 ^ 52) 972 (by decide) :=
        h.eq_of_nearest canonical_beyond (nearest_beyond (not_lt.1 hge) hnear)
      rw [hu, fit, if_neg (by decide)] at hfit
      cases hfit
    · have hvalue := hround.le_abs_value canonical_beyond (habs.symm ▸ hfar)
      have hgreatest := abs_value_le_greatest hround.canonical hfit
      linarith [value_greatest_lt_bound, bound_lt_value_beyond]
  · intro hlt
    obtain hnear | hfar := le_total (value greatest) q
    · have hu : u = .finite s (2 ^ 53 - 1) 971 (by decide) :=
        h.eq_of_nearest canonical_greatest (nearest_greatest hnear hlt)
      rw [hu]
      rfl
    · have hvalue := hround.abs_value_le canonical_greatest (habs.symm ▸ hfar)
      by_contra hfit
      have hbeyond := value_beyond_le hround.canonical hfit
      linarith [value_greatest_lt_bound, bound_lt_value_beyond]

end Packed

/-! ## results on parts -/

/-- The parts of a finite float. -/
structure Fits (u : UnpackedFloat) : Prop where
  canonical : Canonical u
  isFinite : u.isFinite = true
  fit_eq : fit u = u

section Parts

variable {u v : UnpackedFloat}

theorem Fits.isFinite_pack (h : Fits u) : (pack u).isFinite = true :=
  (isFinite_pack_iff_fit h.canonical h.isFinite).2 h.fit_eq

theorem Fits.abs_value_lt (h : Fits u) : |value u| < overflowBound :=
  (abs_value_le_greatest h.canonical h.fit_eq).trans_lt value_greatest_lt_bound

theorem fits_zero (s : Sign) : Fits (.zero s) := ⟨trivial, rfl, rfl⟩

theorem isFinite_normalize_iff (n e : ℤ) (s : Sign) :
    (pack (UnpackedFloat.normalize Format.binary64 n e s)).isFinite = true ↔
      |(n : ℚ) * 2 ^ e| < overflowBound := by
  rw [abs_mul, abs_of_pos (two_zpow_pos e)]
  unfold UnpackedFloat.normalize
  obtain h | rfl | h := lt_trichotomy n 0
  · have hcast : ((-n).toNat : ℚ) = |(n : ℚ)| := by
      rw [abs_of_neg (by exact_mod_cast h)]
      exact_mod_cast Int.toNat_of_nonneg (by omega : 0 ≤ -n)
    rw [Int.compare_eq_lt.2 h, ← hcast]
    exact (isRounding_round .negative (by omega : 0 < (-n).toNat) e).isFinite_pack_iff
  · rw [Int.cast_zero, abs_zero, zero_mul]
    exact iff_of_true (fits_zero s).isFinite_pack overflowBound_pos
  · have hcast : (n.toNat : ℚ) = |(n : ℚ)| := by
      rw [abs_of_pos (by exact_mod_cast h)]
      exact_mod_cast Int.toNat_of_nonneg h.le
    rw [Int.compare_eq_gt.2 h, ← hcast]
    exact (isRounding_round .positive (by omega : 0 < n.toNat) e).isFinite_pack_iff

/-- A sum with a zero is the other operand. -/
theorem Fits.isFinite_add_iff (hu : Fits u) (hv : Fits v) :
    (pack (UnpackedFloat.add Format.binary64 u v)).isFinite = true ↔
      |value u + value v| < overflowBound := by
  have hzero (s : Sign) : value (.zero s) = 0 := rfl
  cases u with
  | infinity s => cases hu.isFinite
  | notANumber => cases hu.isFinite
  | zero s =>
      rw [hzero, zero_add]
      cases v with
      | infinity s' => cases hv.isFinite
      | notANumber => cases hv.isFinite
      | zero s' =>
          refine iff_of_true ?_ hv.abs_value_lt
          cases s <;> cases s' <;> exact (fits_zero _).isFinite_pack
      | finite s' n k hn => exact iff_of_true hv.isFinite_pack hv.abs_value_lt
  | finite s m e hm =>
      cases v with
      | infinity s' => cases hv.isFinite
      | notANumber => cases hv.isFinite
      | zero s' =>
          rw [hzero, add_zero]
          exact iff_of_true hu.isFinite_pack hu.abs_value_lt
      | finite s' n k hn =>
          rw [value_add_value]
          exact isFinite_normalize_iff _ _ _

theorem Fits.isFinite_mul_iff (hu : Fits u) (hv : Fits v) :
    (pack (UnpackedFloat.mul Format.binary64 u v)).isFinite = true ↔
      |value u * value v| < overflowBound := by
  have hzero (s : Sign) : value (.zero s) = 0 := rfl
  cases u with
  | infinity s => cases hu.isFinite
  | notANumber => cases hu.isFinite
  | zero s =>
      rw [hzero, zero_mul, abs_zero]
      cases v with
      | infinity s' => cases hv.isFinite
      | notANumber => cases hv.isFinite
      | _ => exact iff_of_true (fits_zero _).isFinite_pack overflowBound_pos
  | finite s m e hm =>
      cases v with
      | infinity s' => cases hv.isFinite
      | notANumber => cases hv.isFinite
      | zero s' =>
          rw [hzero, mul_zero, abs_zero]
          exact iff_of_true (fits_zero _).isFinite_pack overflowBound_pos
      | finite s' n k hn =>
          have hround := isRounding_mul s s' hm hn
            (le_target_mul hu.canonical.2.2 hv.canonical.2.2 (Nat.mul_pos hm hn))
          rw [hround.isFinite_pack_iff, abs_mul, abs_value_finite, abs_value_finite]

/-- Only a quotient by a zero is not that of the values. -/
theorem Fits.isFinite_div_iff (hu : Fits u) (hv : Fits v) (hne : value v ≠ 0) :
    (pack (UnpackedFloat.div Format.binary64 u v)).isFinite = true ↔
      |value u / value v| < overflowBound := by
  cases v with
  | finite s' n k hn =>
      cases u with
      | infinity s => cases hu.isFinite
      | notANumber => cases hu.isFinite
      | zero s =>
          have hzero : value (.zero s) = 0 := rfl
          rw [hzero, zero_div, abs_zero]
          exact iff_of_true (fits_zero _).isFinite_pack overflowBound_pos
      | finite s m e hm =>
          have hround := isRounding_div (e := e) (k := k) s s' hm hn
          rw [hround.isFinite_pack_iff, abs_div, abs_value_finite, abs_value_finite]
  | _ => exact absurd rfl hne

/-- Only parts that are finite make a finite float. -/
theorem isFinite_of_isFinite_pack (h : (pack u).isFinite = true) : u.isFinite = true := by
  have h : (parts (pack u)).isFinite = true := h
  cases u with
  | infinity s =>
      rw [parts_pack (u := .infinity s) trivial] at h
      cases h
  | notANumber =>
      rw [parts_pack (u := .notANumber) trivial] at h
      cases h
  | _ => rfl

theorem isFinite_of_isFinite_add
    (h : (UnpackedFloat.add Format.binary64 u v).isFinite = true) :
    u.isFinite = true ∧ v.isFinite = true := by
  cases u with
  | infinity s =>
      cases v with
      | infinity s' =>
          simp only [UnpackedFloat.add] at h
          split at h <;> cases h
      | _ => cases h
  | notANumber => cases v <;> cases h
  | _ =>
      cases v with
      | infinity s' => cases h
      | notANumber => cases h
      | _ => exact ⟨rfl, rfl⟩

theorem isFinite_of_isFinite_mul
    (h : (UnpackedFloat.mul Format.binary64 u v).isFinite = true) :
    u.isFinite = true ∧ v.isFinite = true := by
  cases u <;> cases v <;> simp_all [UnpackedFloat.mul, UnpackedFloat.isFinite]

theorem isFinite_of_isFinite_div (hv : v.isFinite = true)
    (h : (UnpackedFloat.div Format.binary64 u v).isFinite = true) : u.isFinite = true := by
  cases u <;> cases v <;> simp_all [UnpackedFloat.div, UnpackedFloat.isFinite]

end Parts

/-! ## results of operations -/

section Results

variable {x y : Float}

theorem fits_parts (hx : x.isFinite = true) : Fits (parts x) :=
  ⟨canonical_parts x, hx, fit_parts x⟩

/-- **Finite sums.** -/
theorem isFinite_add_iff : (x + y).isFinite = true ↔
    x.isFinite = true ∧ y.isFinite = true ∧ |toRat x + toRat y| < overflowBound := by
  have hlt (hx : x.isFinite = true) (hy : y.isFinite = true) :=
    (fits_parts hx).isFinite_add_iff (fits_parts hy)
  constructor
  · intro h
    obtain ⟨hx, hy⟩ := isFinite_of_isFinite_add (isFinite_of_isFinite_pack h)
    exact ⟨hx, hy, (hlt hx hy).1 h⟩
  · rintro ⟨hx, hy, h⟩
    exact (hlt hx hy).2 h

/-- **Finite products.** -/
theorem isFinite_mul_iff : (x * y).isFinite = true ↔
    x.isFinite = true ∧ y.isFinite = true ∧ |toRat x * toRat y| < overflowBound := by
  have hlt (hx : x.isFinite = true) (hy : y.isFinite = true) :=
    (fits_parts hx).isFinite_mul_iff (fits_parts hy)
  constructor
  · intro h
    obtain ⟨hx, hy⟩ := isFinite_of_isFinite_mul (isFinite_of_isFinite_pack h)
    exact ⟨hx, hy, (hlt hx hy).1 h⟩
  · rintro ⟨hx, hy, h⟩
    exact (hlt hx hy).2 h

/-- **Finite quotients.** -/
theorem isFinite_div_iff (hy : y.isFinite = true) (hne : toRat y ≠ 0) :
    (x / y).isFinite = true ↔ x.isFinite = true ∧ |toRat x / toRat y| < overflowBound := by
  have hlt (hx : x.isFinite = true) := (fits_parts hx).isFinite_div_iff (fits_parts hy) hne
  constructor
  · intro h
    have hx := isFinite_of_isFinite_div hy (isFinite_of_isFinite_pack h)
    exact ⟨hx, (hlt hx).1 h⟩
  · rintro ⟨hx, h⟩
    exact (hlt hx).2 h

/-- A product with a share between zero and one does not leave the floats. -/
theorem isFinite_mul_share_iff (hlow : 0 ≤ y) (hhigh : y ≤ 1) :
    (x * y).isFinite = true ↔ x.isFinite = true := by
  have hy := isFinite_of_le_of_le rfl rfl hlow hhigh
  have hlow := (le_iff_toRat_le rfl hy).1 hlow
  have hhigh := (le_iff_toRat_le hy rfl).1 hhigh
  rw [toRat_zero] at hlow
  rw [toRat_one] at hhigh
  rw [isFinite_mul_iff, and_iff_left_iff_imp]
  intro hx
  refine ⟨hy, ?_⟩
  calc |toRat x * toRat y| = |toRat x| * toRat y := by rw [abs_mul, abs_of_nonneg hlow]
    _ ≤ |toRat x| := mul_le_of_le_one_right (abs_nonneg _) hhigh
    _ < overflowBound := abs_toRat_lt_bound x

end Results

end GlyphField.Binary64
