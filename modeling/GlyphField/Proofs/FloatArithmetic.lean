import GlyphField.Proofs.FloatRounding

/-!
# GlyphField.Proofs.FloatArithmetic

The operations on floats round the exact result.  A float rounds an exact number if it lies on the
same side of every finite float (`Rounds`); beyond the greatest float it is infinite.

* `rounds_add`, `rounds_sub`, `rounds_mul`, `rounds_div` — the four operations;
* `rounds_nearest` — the float nearest to a mantissa with an exponent.
-/

namespace GlyphField.Binary64

open Float.Model (Format UnpackedFloat totalExponent)
open Float.Model.UnpackedFloat (Sign Accuracy ExtendedMantissa roundWithAccuracy decreaseExponent
  accuracyOfFraction divCore)

/-! ## exact mantissas -/

theorem locates_exact (m : Nat) :
    Locates (ExtendedMantissa.ofMantissaAndAccuracy m .exact) m := by
  constructor <;> simp [withRoundBit, ExtendedMantissa.ofMantissaAndAccuracy]

theorem log2_mul_two_pow {m : Nat} (hm : 0 < m) (k : Nat) : (m * 2 ^ k).log2 = m.log2 + k := by
  have hne : m ≠ 0 := by omega
  have hpow : 0 < 2 ^ k := Nat.two_pow_pos k
  have hprod : m * 2 ^ k ≠ 0 := by positivity
  refine (Nat.log2_eq_iff hprod).2 ⟨?_, ?_⟩
  · rw [pow_add]
    exact Nat.mul_le_mul_right _ (Nat.log2_self_le hne)
  · rw [add_right_comm, pow_add]
    exact Nat.mul_lt_mul_of_pos_right Nat.lt_log2_self hpow

theorem isRounding_round (s : Sign) {m : Nat} (hm : 0 < m) (e : ℤ) :
    IsRounding s (m * 2 ^ e) (UnpackedFloat.round Format.binary64 s m e) := by
  obtain ⟨k, hk⟩ : ∃ k, (e - target m e).toNat = k := ⟨_, rfl⟩
  have hdecrease : decreaseExponent m e (target m e) = (m * 2 ^ k, e - k) := by
    rw [decreaseExponent, hk, Nat.shiftLeft_eq]
  have hpos : 0 < m * 2 ^ k := by positivity
  have htarget : target (m * 2 ^ k) (e - k) = target m e := by
    rw [target, target, log2_mul_two_pow hm]
    omega
  have hvalue : ((m * 2 ^ k : Nat) : ℚ) * 2 ^ (e - k) = m * 2 ^ e := by
    rw [magnitude_rescale m (by omega : e - k ≤ e), sub_sub_cancel, Int.toNat_natCast]
    push_cast
    rfl
  rw [UnpackedFloat.round, targetExponent_eq, hdecrease, ← hvalue]
  exact .mk (locates_exact _) (by rw [htarget]; omega) (.inl hpos)

theorem roundsTo_normalize (n : ℤ) (e : ℤ) (s : Sign) :
    RoundsTo (n * 2 ^ e) (UnpackedFloat.normalize Format.binary64 n e s) := by
  unfold UnpackedFloat.normalize
  obtain h | rfl | h := lt_trichotomy n 0
  · have hcast : ((-n).toNat : ℚ) = -n := by exact_mod_cast Int.toNat_of_nonneg (by omega : 0 ≤ -n)
    have hround := (isRounding_round .negative (by omega : 0 < (-n).toNat) e).roundsTo
    rw [hcast, signed, neg_mul, neg_neg] at hround
    rw [Int.compare_eq_lt.2 h]
    exact hround
  · have hzero := RoundsTo.self (u := .zero s) trivial rfl
    rw [Int.cast_zero, zero_mul]
    exact hzero
  · have hcast : (n.toNat : ℚ) = n := by exact_mod_cast Int.toNat_of_nonneg h.le
    have hround := (isRounding_round .positive (by omega : 0 < n.toNat) e).roundsTo
    rw [hcast, signed] at hround
    rw [Int.compare_eq_gt.2 h]
    exact hround

/-! ## operations on parts -/

section Parts

variable {u v : UnpackedFloat}

theorem signed_mul (s : Sign) (x y : ℚ) : signed s x * y = signed s (x * y) := by
  cases s <;> simp [signed]

theorem signed_mul_signed (s s' : Sign) (x y : ℚ) :
    signed s x * signed s' y = signed (s * s') (x * y) := by
  cases s <;> cases s'
  · exact neg_mul_neg x y
  · exact neg_mul x y
  · exact mul_neg x y
  · rfl

theorem cast_apply (s : Sign) (n : Nat) : ((s.apply n : ℤ) : ℚ) = signed s n := by
  cases s <;> simp [Sign.apply, signed]

/-- A magnitude written with a smaller exponent. -/
theorem apply_decreaseExponent (s : Sign) (m : Nat) {e k : ℤ} (h : k ≤ e) :
    ((s.apply (decreaseExponent m e k).1 : ℤ) : ℚ) * 2 ^ k = signed s (m * 2 ^ e) := by
  rw [cast_apply, signed_mul, magnitude_rescale m h, decreaseExponent, Nat.shiftLeft_eq]
  push_cast
  rfl

/-- A sum of magnitudes with signs, as a multiple of the smaller power of two. -/
theorem value_add_value (s s' : Sign) {m n : Nat} (e k : ℤ) (hm : 0 < m) (hn : 0 < n) :
    value (.finite s m e hm) + value (.finite s' n k hn) =
      ((s.apply (decreaseExponent m e (min e k)).1 +
        s'.apply (decreaseExponent n k (min e k)).1 : ℤ) : ℚ) * 2 ^ min e k := by
  push_cast
  rw [add_mul, apply_decreaseExponent s m (min_le_left e k),
    apply_decreaseExponent s' n (min_le_right e k)]
  rfl

theorem roundsTo_zero (s : Sign) : RoundsTo 0 (.zero s) :=
  RoundsTo.self (u := .zero s) trivial rfl

theorem roundsTo_add (hu : Canonical u) (hv : Canonical v) (hfu : u.isFinite = true)
    (hfv : v.isFinite = true) :
    RoundsTo (value u + value v) (UnpackedFloat.add Format.binary64 u v) := by
  have hzero (s : Sign) : value (.zero s) = 0 := rfl
  cases u with
  | infinity s => cases hfu
  | notANumber => cases hfu
  | zero s =>
      rw [hzero, zero_add]
      cases v with
      | infinity s' => cases hfv
      | notANumber => cases hfv
      | zero s' => cases s <;> cases s' <;> exact roundsTo_zero _
      | finite s' n k hn => exact RoundsTo.self hv rfl
  | finite s m e hm =>
      cases v with
      | infinity s' => cases hfv
      | notANumber => cases hfv
      | zero s' =>
          rw [hzero, add_zero]
          exact RoundsTo.self hu rfl
      | finite s' n k hn =>
          rw [value_add_value]
          exact roundsTo_normalize _ _ _

theorem sub_eq_add (u v : UnpackedFloat) : UnpackedFloat.sub Format.binary64 u v =
    UnpackedFloat.add Format.binary64 u v.neg := by
  have happly (s : Sign) (n : Nat) : (-s).apply n = -s.apply n := by
    cases s
    · exact (neg_neg (n : ℤ)).symm
    · rfl
  cases u with
  | finite s m e hm =>
      cases v with
      | finite s' n k hn =>
          simp [UnpackedFloat.sub, UnpackedFloat.add, UnpackedFloat.neg, happly,
            Int.sub_eq_add_neg]
      | _ => rfl
  | _ => cases v <;> rfl

theorem isFinite_neg (u : UnpackedFloat) : u.neg.isFinite = u.isFinite := by
  cases u <;> rfl

theorem roundsTo_sub (hu : Canonical u) (hv : Canonical v) (hfu : u.isFinite = true)
    (hfv : v.isFinite = true) :
    RoundsTo (value u - value v) (UnpackedFloat.sub Format.binary64 u v) := by
  have hadd := roundsTo_add hu (canonical_neg hv) hfu ((isFinite_neg v).trans hfv)
  rwa [value_neg, ← sub_eq_add_neg, ← sub_eq_add] at hadd

/-- The product of two mantissas has enough bits, or its exponent is below the least one. -/
theorem le_target_mul {m n : Nat} {e k : ℤ} (hm : 2 ^ 52 ≤ m ∨ e = -1074)
    (hn : 2 ^ 52 ≤ n ∨ k = -1074) (hmn : 0 < m * n) :
    e + k ≤ target (m * n) (e + k) := by
  have hne : m * n ≠ 0 := by omega
  have hlog (h : 2 ^ 52 ≤ m * n) : e + k ≤ target (m * n) (e + k) := by
    have := (Nat.le_log2 hne).2 h
    rw [target]
    omega
  obtain hm | rfl := hm
  · exact hlog (hm.trans (Nat.le_mul_of_pos_right m (Nat.pos_of_mul_pos_left hmn)))
  · obtain hn | rfl := hn
    · exact hlog (hn.trans (Nat.le_mul_of_pos_left n (Nat.pos_of_mul_pos_right hmn)))
    · exact le_trans (by decide) (least_le_target _ _)

theorem isRounding_mul (s s' : Sign) {m n : Nat} {e k : ℤ} (hm : 0 < m) (hn : 0 < n)
    (h : e + k ≤ target (m * n) (e + k)) :
    IsRounding (s * s') (m * 2 ^ e * (n * 2 ^ k))
      (UnpackedFloat.mul Format.binary64 (.finite s m e hm) (.finite s' n k hn)) := by
  have hproduct : (m : ℚ) * 2 ^ e * (n * 2 ^ k) = (m * n : Nat) * 2 ^ (e + k) := by
    rw [zpow_add₀ (by norm_num), Nat.cast_mul, mul_mul_mul_comm]
  rw [hproduct]
  exact .mk (locates_exact _) h (.inl (Nat.mul_pos hm hn))

theorem roundsTo_mul (hu : Canonical u) (hv : Canonical v) (hfu : u.isFinite = true)
    (hfv : v.isFinite = true) :
    RoundsTo (value u * value v) (UnpackedFloat.mul Format.binary64 u v) := by
  have hzero (s : Sign) : value (.zero s) = 0 := rfl
  cases u with
  | infinity s => cases hfu
  | notANumber => cases hfu
  | zero s =>
      rw [hzero, zero_mul]
      cases v with
      | infinity s' => cases hfv
      | notANumber => cases hfv
      | zero s' => exact roundsTo_zero _
      | finite s' n k hn => exact roundsTo_zero _
  | finite s m e hm =>
      cases v with
      | infinity s' => cases hfv
      | notANumber => cases hfv
      | zero s' =>
          rw [hzero, mul_zero]
          exact roundsTo_zero _
      | finite s' n k hn =>
          have hround := isRounding_mul s s' hm hn
            (le_target_mul hu.2.2 hv.2.2 (Nat.mul_pos hm hn))
          rw [value, value, signed_mul_signed]
          exact hround.roundsTo

/-! ## quotients -/

/-- A number behind a mantissa, as it compares to the middle of the last place. -/
theorem locates_inexact (m : Nat) {o : Ordering} {r : ℚ} (hpos : 0 < r) (hlt : r < 1)
    (ho : compare (2 * r) 1 = o) :
    Locates (ExtendedMantissa.ofMantissaAndAccuracy m (.inexact o)) (m + r) := by
  cases o with
  | lt =>
      have hhalf := compare_lt_iff_lt.1 ho
      have hne : r ≠ 0 := hpos.ne'
      constructor <;> simp [withRoundBit, ExtendedMantissa.ofMantissaAndAccuracy, hne] <;> linarith
  | eq =>
      have hhalf : r = 1 / 2 := by linarith [compare_eq_iff_eq.1 ho]
      subst hhalf
      constructor <;> simp [withRoundBit, ExtendedMantissa.ofMantissaAndAccuracy]
  | gt =>
      have hhalf := compare_gt_iff_gt.1 ho
      have hne : r ≠ 2⁻¹ := by
        intro h
        rw [h] at hhalf
        norm_num at hhalf
      constructor <;> simp [withRoundBit, ExtendedMantissa.ofMantissaAndAccuracy, hne] <;> linarith

theorem locates_fraction (a : Nat) {d : Nat} (hd : 0 < d) :
    Locates (ExtendedMantissa.ofMantissaAndAccuracy (a / d) (accuracyOfFraction (a % d) d))
      (a / d) := by
  have hpos : (0 : ℚ) < d := Nat.cast_pos.2 hd
  have hdiv : (a : ℚ) = d * (a / d : Nat) + (a % d : Nat) := by
    exact_mod_cast (Nat.div_add_mod a d).symm
  have hquot : (a : ℚ) / d = (a / d : Nat) + (a % d : Nat) / d := by
    rw [hdiv, add_div, mul_div_cancel_left₀ _ hpos.ne']
  rw [hquot]
  unfold accuracyOfFraction
  by_cases h : a % d = 0
  · rw [if_pos h, h, Nat.cast_zero, zero_div, add_zero]
    exact locates_exact _
  · rw [if_neg h]
    refine locates_inexact _ (div_pos (Nat.cast_pos.2 (by omega)) hpos) ?_ ?_
    · rw [div_lt_one hpos]
      exact_mod_cast Nat.mod_lt a hd
    · have htwo : (2 : ℚ) * ((a % d : Nat) / d) = (2 * (a % d) : Nat) / d := by
        push_cast
        ring
      rw [htwo]
      obtain hlt | heq | hgt := lt_trichotomy (2 * (a % d)) d
      · rw [compare_lt_iff_lt.2 hlt, compare_lt_iff_lt, div_lt_one hpos]
        exact_mod_cast hlt
      · rw [compare_eq_iff_eq.2 heq, compare_eq_iff_eq, div_eq_one_iff_eq hpos.ne']
        exact_mod_cast heq
      · rw [compare_gt_iff_gt.2 hgt, compare_gt_iff_gt, one_lt_div hpos]
        exact_mod_cast hgt

/-- The exponent that a quotient is computed with. -/
theorem targetExponent_div (m n : Nat) (e k : ℤ) :
    Format.binary64.targetExponent (totalExponent m e - totalExponent n k) =
      max (m.log2 + e - (n.log2 + k) - 53) (-1074) := by
  have hbits : (Format.binary64.mantissaBits : ℤ) = 53 := rfl
  have hmin : Format.binary64.minExponent = -1074 := rfl
  rw [Format.targetExponent, totalExponent, totalExponent, hbits, hmin]
  omega

/-- A dividend shifted that far leaves a quotient of enough bits. -/
theorem two_pow_le_quotient {m n j : Nat} (hm : 0 < m) (hn : 0 < n)
    (h : n.log2 + 53 ≤ m.log2 + j) : 2 ^ 52 ≤ m * 2 ^ j / n := by
  rw [Nat.le_div_iff_mul_le hn]
  calc 2 ^ 52 * n ≤ 2 ^ 52 * 2 ^ (n.log2 + 1) := Nat.mul_le_mul_left _ Nat.lt_log2_self.le
    _ = 2 ^ (n.log2 + 53) := by rw [← pow_add]; congr 1; omega
    _ ≤ 2 ^ (m.log2 + j) := Nat.pow_le_pow_right (by decide) h
    _ ≤ m * 2 ^ j := by
        rw [pow_add]
        exact Nat.mul_le_mul_right _ (Nat.log2_self_le hm.ne')

theorem isRounding_div (s s' : Sign) {m n : Nat} {e k : ℤ} (hm : 0 < m) (hn : 0 < n) :
    IsRounding (s / s') (m * 2 ^ e / (n * 2 ^ k))
      (UnpackedFloat.div Format.binary64 (.finite s m e hm) (.finite s' n k hn)) := by
  obtain ⟨t, ht⟩ : ∃ t, min (e - k) (max (m.log2 + e - (n.log2 + k) - 53) (-1074)) = t := ⟨_, rfl⟩
  obtain ⟨j, hj⟩ : ∃ j, (e - k - t).toNat = j := ⟨_, rfl⟩
  have hdiv : UnpackedFloat.div Format.binary64 (.finite s m e hm) (.finite s' n k hn) =
      roundWithAccuracy Format.binary64 (s / s') (m * 2 ^ j / n) t
        (accuracyOfFraction (m * 2 ^ j % n) n) := by
    simp only [UnpackedFloat.div, divCore, targetExponent_div, ht, hj, Nat.shiftLeft_eq]
  have hvalue : (m : ℚ) * 2 ^ e / (n * 2 ^ k) = (m * 2 ^ j : Nat) / n * 2 ^ t := by
    have hexp : e - k = j + t := by omega
    rw [mul_div_mul_comm, ← zpow_sub₀ (by norm_num), hexp, zpow_add₀ (by norm_num), zpow_natCast]
    push_cast
    ring
  have hbits : 2 ^ 52 ≤ m * 2 ^ j / n ∨ t ≤ -1074 := by
    refine or_iff_not_imp_right.2 fun hlow => two_pow_le_quotient hm hn ?_
    omega
  have htarget : t ≤ target (m * 2 ^ j / n) t := by
    obtain h | h := hbits
    · have := (Nat.le_log2 (by omega)).2 h
      rw [target]
      omega
    · exact h.trans (least_le_target _ _)
  rw [hdiv, hvalue]
  exact .mk (locates_fraction _ hn) htarget (hbits.imp_left (by omega))

theorem signed_div_signed (s s' : Sign) (x y : ℚ) :
    signed s x / signed s' y = signed (s / s') (x / y) := by
  cases s <;> cases s'
  · exact neg_div_neg_eq x y
  · exact neg_div y x
  · exact div_neg x
  · rfl

theorem roundsTo_div (hfu : u.isFinite = true) (hfv : v.isFinite = true) (hne : value v ≠ 0) :
    RoundsTo (value u / value v) (UnpackedFloat.div Format.binary64 u v) := by
  cases v with
  | infinity s' => cases hfv
  | notANumber => cases hfv
  | zero s' => exact absurd rfl hne
  | finite s' n k hn =>
      cases u with
      | infinity s => cases hfu
      | notANumber => cases hfu
      | zero s =>
          have hzero : value (.zero s) = 0 := rfl
          rw [hzero, zero_div]
          exact roundsTo_zero _
      | finite s m e hm =>
          rw [value, value, signed_div_signed]
          exact (isRounding_div s s' hm hn).roundsTo

end Parts

/-! ## operations on floats -/

/-- A float on the same side of all finite floats as an exact number. -/
def Rounds (q : ℚ) (z : Float) : Prop :=
  ∀ b : Float, b.isFinite = true → (q ≤ toRat b → z ≤ b) ∧ (toRat b ≤ q → b ≤ z)

/-- The magnitude of a finite float is smaller than one with an exponent that does not fit. -/
theorem abs_toRat_lt (b : Float) {m : Nat} {e : ℤ} (hm : 2 ^ 52 ≤ m) (he : 971 < e) :
    |toRat b| < m * 2 ^ e := by
  have hcanonical := canonical_parts b
  have hfit := fit_parts b
  have hpos : (0 : ℚ) < m * 2 ^ e := magnitude_pos (by omega) e
  unfold toRat
  cases hb : parts b with
  | finite s n k hn =>
      rw [hb] at hcanonical hfit
      have hk : k ≤ 971 := by
        by_contra hk
        rw [fit, if_neg hk] at hfit
        cases hfit
      have habs : |value (.finite s n k hn)| = n * 2 ^ k := by
        cases s <;> simp [value, signed, abs_mul]
      rw [habs]
      exact magnitude_lt_of_exponent_lt hcanonical.1 hm (by omega)
  | _ => simpa [value] using hpos

theorem RoundsTo.pack {q : ℚ} {u : UnpackedFloat} (h : RoundsTo q u) : Rounds q (pack u) := by
  intro b hb
  have hparts := parts_pack h.canonical
  have hcanonical := canonical_parts b
  have hside (hfit : fit u = u) :
      (q ≤ toRat b → Binary64.pack u ≤ b) ∧ (toRat b ≤ q → b ≤ Binary64.pack u) := by
    rw [le_iff_le_parts, le_iff_le_parts, hparts, hfit,
      le_iff_value_le h.canonical hcanonical h.isFinite hb,
      le_iff_value_le hcanonical h.canonical hb h.isFinite]
    exact ⟨h.value_le _ hcanonical, h.le_value _ hcanonical⟩
  cases u with
  | finite s m e hm =>
      by_cases he : e ≤ 971
      · exact hside (if_pos he)
      -- beyond the greatest float the result is infinite, and so was the exact number
      · obtain ⟨hlow, hhigh⟩ := abs_lt.1
          (abs_toRat_lt b (h.canonical.2.2.resolve_right (by omega)) (lt_of_not_ge he))
        rw [le_iff_le_parts, le_iff_le_parts, hparts, fit, if_neg he]
        have hvalue_le := h.value_le _ hcanonical
        have hle_value := h.le_value _ hcanonical
        have hb : (parts b).isFinite = true := hb
        cases s with
        | positive =>
            refine ⟨fun hq => absurd hhigh (not_lt.2 (hvalue_le hq)), fun _ => ?_⟩
            cases hv : parts b <;>
              simp_all [UnpackedFloat.le, UnpackedFloat.compare, UnpackedFloat.isFinite]
        | negative =>
            refine ⟨fun _ => ?_, fun hq => absurd hlow (not_lt.2 (hle_value hq))⟩
            cases hv : parts b <;>
              simp_all [UnpackedFloat.le, UnpackedFloat.compare, UnpackedFloat.isFinite]
  | _ => exact hside rfl

section Floats

variable {x y z : Float} {q : ℚ}

theorem toRat_zero : toRat 0 = 0 := rfl

theorem toRat_one : toRat 1 = 1 := by
  have hparts : parts 1 = .finite .positive (2 ^ 52) (-52) (by decide) := rfl
  norm_num [toRat, hparts, value, signed]

theorem toRat_thousand : toRat 1000 = 1000 := by
  have hparts : parts 1000 = .finite .positive (1000 * 2 ^ 43) (-43) (by decide) := rfl
  norm_num [toRat, hparts, value, signed]

/-- The parts of a finite float in the other form. -/
theorem exists_finite_ofFloat (hx : x.isFinite = true) : ∃ b m e, ofFloat x = .finite b m e := by
  have hx : x.toModel.unpack.isFinite = true := hx
  unfold ofFloat
  cases h : x.toModel.unpack <;> simp_all [UnpackedFloat.isFinite]

theorem rounds_add (hx : x.isFinite = true) (hy : y.isFinite = true) :
    Rounds (toRat x + toRat y) (x + y) :=
  (roundsTo_add (canonical_parts x) (canonical_parts y) hx hy).pack

theorem rounds_sub (hx : x.isFinite = true) (hy : y.isFinite = true) :
    Rounds (toRat x - toRat y) (x - y) :=
  (roundsTo_sub (canonical_parts x) (canonical_parts y) hx hy).pack

theorem rounds_mul (hx : x.isFinite = true) (hy : y.isFinite = true) :
    Rounds (toRat x * toRat y) (x * y) :=
  (roundsTo_mul (canonical_parts x) (canonical_parts y) hx hy).pack

theorem rounds_div (hx : x.isFinite = true) (hy : y.isFinite = true) (hne : toRat y ≠ 0) :
    Rounds (toRat x / toRat y) (x / y) :=
  (roundsTo_div hx hy hne).pack

theorem rounds_nearest (negative : Bool) (m : Nat) (e : ℤ) :
    Rounds (signed (signOf negative) (m * 2 ^ e)) (nearest negative m e) := by
  unfold nearest
  split
  · next hm =>
    have hzero : signed (signOf negative) ((m : ℚ) * 2 ^ e) = 0 := by
      cases negative <;> simp [hm, signOf, signed]
    rw [hzero]
    exact (roundsTo_zero _).pack
  · next hm => exact (isRounding_round _ (Nat.pos_of_ne_zero hm) e).roundsTo.pack

end Floats

end GlyphField.Binary64
