import GlyphField.Decimal.Numeral
import GlyphField.Proofs.FloatNearest

/-!
# GlyphField.Proofs.LiteralRounding

A decimal literal is read as the float nearest to it.  Of few digits and a small exponent both are
floats, and so is the power of ten, so that one operation rounds once; else the product or the
quotient is computed exactly and then rounded.

* `exists_parts_nearest` — a mantissa that fits is not rounded;
* `toFloat_of_nearest` — the float that a literal is read as.
-/

namespace GlyphField.Binary64

open Float.Model (Format UnpackedFloat)
open Float.Model.UnpackedFloat (Sign)

/-! ## exact floats -/

theorem neg_pack {u : UnpackedFloat} (hu : Canonical u) (hfit : fit u = u) :
    -pack u = pack u.neg := by
  have hparts := parts_pack hu
  rw [hfit] at hparts
  exact congrArg (fun v => pack v.neg) hparts

/-- What has a mantissa that fits is a float. -/
theorem exists_parts_nearest {m : Nat} {e : ℤ} (hm : 0 < m) (hlt : m < 2 ^ 53) (he : -1022 ≤ e)
    (he' : e ≤ 971) : ∃ n k hn, parts (nearest false m e) = .finite .positive n k hn ∧
      Canonical (.finite .positive n k hn) ∧ (n : ℚ) * 2 ^ k = m * 2 ^ e := by
  obtain ⟨j, hj⟩ : ∃ j, m.log2 + j = 52 := by
    have := (Nat.log2_lt hm.ne').2 hlt
    exact ⟨52 - m.log2, by omega⟩
  have hpos : 0 < m * 2 ^ j := by positivity
  have hcanonical : Canonical (.finite .positive (m * 2 ^ j) (e - j) hpos) := by
    have hlow : 2 ^ 52 ≤ m * 2 ^ j := by
      rw [← hj, pow_add]
      exact Nat.mul_le_mul_right _ (Nat.log2_self_le hm.ne')
    have hhigh : m * 2 ^ j < 2 ^ 53 := by
      have hfactor : 2 ^ 53 = 2 ^ (m.log2 + 1) * 2 ^ j := by
        rw [← pow_add]
        congr 1
        omega
      rw [hfactor]
      exact Nat.mul_lt_mul_of_pos_right Nat.lt_log2_self (by positivity)
    exact ⟨hhigh, by omega, .inl hlow⟩
  have hvalue : ((m * 2 ^ j : Nat) : ℚ) * 2 ^ (e - j) = m * 2 ^ e := by
    rw [magnitude_rescale m (by omega : e - j ≤ e), sub_sub_cancel, Int.toNat_natCast]
    push_cast
    rfl
  have hround := isRounding_round .positive hm e
  rw [← hvalue] at hround
  have hparts := hround.eq_of_nearest hcanonical (nearest_self _ _)
  have hnearest : nearest false m e = pack (.finite .positive (m * 2 ^ j) (e - j) hpos) := by
    rw [← hparts, nearest, if_neg hm.ne']
    rfl
  refine ⟨_, _, hpos, ?_, hcanonical, hvalue⟩
  rw [hnearest, parts_pack hcanonical, fit, if_pos (by omega)]

theorem exists_toRat_eq {m : Nat} {e : ℤ} (hlt : m < 2 ^ 53) (he : -1022 ≤ e) (he' : e ≤ 971) :
    ∃ x : Float, x.isFinite = true ∧ toRat x = m * 2 ^ e := by
  obtain rfl | hm := Nat.eq_zero_or_pos m
  · exact ⟨0, by decide +kernel, by simp [toRat_zero]⟩
  · obtain ⟨n, k, hn, hparts, -, hvalue⟩ := exists_parts_nearest hm hlt he he'
    refine ⟨nearest false m e, ?_, ?_⟩
    · show (parts (nearest false m e)).isFinite = true
      rw [hparts]
      rfl
    · rw [toRat, hparts]
      exact hvalue

/-- The powers of ten that are floats. -/
theorem powersOfTen_get : ∀ i : Fin Float.exactlyRepresentablePowersOfTen.size,
    Float.exactlyRepresentablePowersOfTen[i] = nearest false (5 ^ i.val) i.val := by
  decide +kernel

theorem powersOfTen_eq {k : Nat} (hk : k < Float.exactlyRepresentablePowersOfTen.size) :
    Float.exactlyRepresentablePowersOfTen[k] = nearest false (5 ^ k) k :=
  powersOfTen_get ⟨k, hk⟩

theorem toFloat_toUInt64 {n : Nat} (hn : 0 < n) (hlt : n < 2 ^ 53) :
    n.toUInt64.toFloat = nearest false n 0 := by
  have hnat : n.toUInt64.toNat = n := by
    simp
    omega
  show pack (UnpackedFloat.normalize Format.binary64 (n.toUInt64.toNat : ℤ) 0 .positive) = _
  rw [hnat, UnpackedFloat.normalize, Int.compare_eq_gt.2 (by omega), nearest, if_neg hn.ne']
  rfl

/-! ## scientific notation -/

section Scientific

variable {n k m : Nat} {e : ℤ} {hm : 0 < m}

/-- Few digits and a small power of ten are floats both, so that one operation rounds. -/
theorem ofScientific_fast (hn : 0 < n) (hlt : n < 2 ^ 53) (hk : k ≤ 22) (divide : Bool) :
    ∃ u, IsRounding .positive (if divide then n / 10 ^ k else n * 10 ^ k) u ∧
      Float.ofScientific n divide k = pack u := by
  have hpow : (5 : ℕ) ^ k < 2 ^ 53 :=
    (Nat.pow_le_pow_right (by decide) hk).trans_lt (by decide)
  obtain ⟨m₁, e₁, hm₁, hparts₁, hcanonical₁, hvalue₁⟩ :=
    exists_parts_nearest (e := 0) hn hlt (by decide) (by decide)
  obtain ⟨m₂, e₂, hm₂, hparts₂, hcanonical₂, hvalue₂⟩ :=
    exists_parts_nearest (e := k) (Nat.pow_pos (n := k) (by decide)) hpow (by omega) (by omega)
  have hten : (m₂ : ℚ) * 2 ^ e₂ = 10 ^ k := by
    rw [hvalue₂, zpow_natCast]
    push_cast
    rw [← mul_pow]
    norm_num
  rw [zpow_zero, mul_one] at hvalue₁
  rw [Float.ofScientific, dif_pos ⟨hlt, hk⟩]
  simp only [toFloat_toUInt64 hn hlt, powersOfTen_eq]
  cases divide with
  | true =>
      have hround := isRounding_div .positive .positive (e := e₁) (k := e₂) hm₁ hm₂
      rw [hvalue₁, hten, ← hparts₁, ← hparts₂] at hround
      exact ⟨_, hround, rfl⟩
  | false =>
      have hround := isRounding_mul .positive .positive hm₁ hm₂
        (le_target_mul hcanonical₁.2.2 hcanonical₂.2.2 (Nat.mul_pos hm₁ hm₂))
      rw [hvalue₁, hten, ← hparts₁, ← hparts₂] at hround
      exact ⟨_, hround, rfl⟩

/-- Otherwise the quotient is computed exactly and then rounded. -/
theorem ofScientific_quotient (hn : 0 < n) (hk : 0 < k) (hk' : k ≤ 2048) :
    IsRounding .positive (n / 10 ^ k) (UnpackedFloat.ofScientific Format.binary64 n (-(k : ℤ))) := by
  have hbits : (2 ^ Format.binary64.exponentBits : ℤ) = 2048 := rfl
  have hpow : 0 < 10 ^ k := Nat.pow_pos (by decide)
  have hcast : (-(-(k : ℤ))).toNat = k := by omega
  have hround := isRounding_div .positive .positive (e := 0) (k := 0) hn hpow
  push_cast at hround
  rw [mul_one, mul_one] at hround
  unfold UnpackedFloat.ofScientific
  rw [dif_neg hn.ne', hbits, if_neg (by omega), if_neg (by omega), if_neg (by omega)]
  simp only [hcast]
  exact hround

/-- A whole number with bits enough for any mantissa. -/
theorem ofScientific_whole (hn : 0 < n) :
    IsRounding .positive n (UnpackedFloat.ofScientific Format.binary64 n 0) := by
  have hbits : (2 ^ Format.binary64.exponentBits : ℤ) = 2048 := rfl
  have hmantissa : Format.binary64.mantissaBits = 53 := rfl
  have hpos : 0 < n * 2 ^ 53 := by positivity
  have htarget : (-53 : ℤ) + 0 ≤ target (n * 2 ^ 53 * 1) (-53 + 0) := by
    rw [mul_one, target, log2_mul_two_pow hn]
    omega
  have hround := isRounding_mul .positive .positive hpos one_pos htarget
  have hvalue : ((n * 2 ^ 53 : Nat) : ℚ) * 2 ^ (-53 : ℤ) * ((1 : Nat) * 2 ^ (0 : ℤ)) = n := by
    push_cast
    rw [mul_one, mul_one, mul_assoc]
    norm_num
  rw [hvalue] at hround
  unfold UnpackedFloat.ofScientific
  rw [dif_neg hn.ne', hbits, if_neg (by decide), if_neg (by omega), if_pos le_rfl]
  simp only [hmantissa, Nat.shiftLeft_eq]
  exact hround

end Scientific

end GlyphField.Binary64

namespace GlyphField.Decimal

open Float.Model (UnpackedFloat)
open Float.Model.UnpackedFloat (Sign)
open Binary64

/-- **Literals.**  A literal with an exponent that is not positive is read as the float that it is
nearest to. -/
theorem toFloat_of_nearest {s : Sign} {n k m : Nat} {e : ℤ} {hm : 0 < m}
    (hv : Canonical (.finite s m e hm)) (hfit : e ≤ 971) (hn : 0 < n) (hk : k ≤ 2048)
    (hq : Nearest m e (n / 10 ^ k)) :
    Literal.toFloat ⟨isNegative s, n, -k⟩ = pack (.finite s m e hm) := by
  have hpositive : Canonical (.finite .positive m e hm) := hv
  have hread : Float.ofScientific n (-(k : ℤ) < 0) (-(k : ℤ)).natAbs =
      pack (.finite .positive m e hm) := by
    rw [Int.natAbs_neg, Int.natAbs_natCast]
    obtain rfl | hpos := Nat.eq_zero_or_pos k
    · rw [pow_zero, div_one] at hq
      by_cases hlt : n < 2 ^ 53
      · obtain ⟨u, hround, hfast⟩ := ofScientific_fast (k := 0) hn hlt (by decide) false
        simp only [Bool.false_eq_true, if_false, pow_zero, mul_one] at hround
        rw [← hround.eq_of_nearest hpositive hq, ← hfast]
        rfl
      · rw [← (ofScientific_whole hn).eq_of_nearest hpositive hq, Float.ofScientific,
          dif_neg fun h => hlt h.1]
        rfl
    · have hsign : decide (-(k : ℤ) < 0) = true := decide_eq_true (by omega)
      rw [hsign]
      by_cases hfast : n < 2 ^ 53 ∧ k ≤ 22
      · obtain ⟨u, hround, hfloat⟩ := ofScientific_fast hn hfast.1 hfast.2 true
        rw [hfloat, hround.eq_of_nearest hpositive hq]
      · have hexp : Int.negOfNat k = -(k : ℤ) := Int.negOfNat_eq
        rw [← (ofScientific_quotient hn hpos hk).eq_of_nearest hpositive hq, Float.ofScientific,
          dif_neg hfast]
        simp only [if_true, hexp]
        rfl
  unfold Literal.toFloat
  simp only [hread]
  cases s with
  | positive => rfl
  | negative => exact neg_pack hpositive (if_pos hfit)

end GlyphField.Decimal
