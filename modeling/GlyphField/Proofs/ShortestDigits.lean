import GlyphField.Decimal.Shortest
import GlyphField.Proofs.FloatNearest

/-!
# GlyphField.Proofs.ShortestDigits

The digits that the search ends with are nearest to the float that they stand for.  A point of a
decimal grid and the ends of the interval are compared as whole numbers, after both have been
brought to a common scale.  On the last of the grids a step is smaller than half the interval, so
that the search does not run out of them.

* `nearest_of_holds` — the comparison of whole numbers is the one of the numbers they scale;
* `weights_coarsest_le` — the last grid is fine enough;
* `Digits.ofBinary_spec` — the digits of a magnitude are nearest to it.
-/

namespace GlyphField.Decimal

open Float.Model.UnpackedFloat (Sign)
open Binary64

/-! ## a common scale -/

section Weights

variable {k e : ℤ} {a b : Nat}

/-- The parts of a power with a positive and with a negative exponent. -/
theorem zpow_toNat {x : ℚ} (hx : x ≠ 0) (k : ℤ) : x ^ k.toNat = x ^ (-k).toNat * x ^ k := by
  rw [← zpow_natCast, ← zpow_natCast, ← zpow_add₀ hx]
  congr 1
  omega

/-- The weights are the steps on one scale. -/
theorem exists_scale (k e : ℤ) : ∃ c : ℚ, 0 < c ∧ ((weights k e).1 : ℚ) = c * 10 ^ k ∧
    ((weights k e).2 : ℚ) = c * 2 ^ e := by
  refine ⟨10 ^ (-k).toNat * 2 ^ (-e).toNat, by positivity, ?_, ?_⟩
  · have hweight : ((weights k e).1 : ℚ) = 10 ^ k.toNat * 2 ^ (-e).toNat := by
      simp [weights]
    rw [hweight, zpow_toNat (by norm_num)]
    ring
  · have hweight : ((weights k e).2 : ℚ) = 2 ^ e.toNat * 10 ^ (-k).toNat := by
      simp [weights]
    rw [hweight, zpow_toNat (by norm_num)]
    ring

theorem weights_pos (k e : ℤ) : 0 < (weights k e).1 ∧ 0 < (weights k e).2 :=
  ⟨Nat.mul_pos (Nat.pow_pos (by decide)) (Nat.two_pow_pos _),
    Nat.mul_pos (Nat.two_pow_pos _) (Nat.pow_pos (by decide))⟩

theorem le_weighed_iff :
    a * (weights k e).2 ≤ b * (weights k e).1 ↔ (a : ℚ) * 2 ^ e ≤ b * 10 ^ k := by
  obtain ⟨c, hc, hten, htwo⟩ := exists_scale k e
  rw [← Nat.cast_le (α := ℚ), Nat.cast_mul, Nat.cast_mul, hten, htwo, mul_left_comm,
    mul_left_comm (b : ℚ), mul_le_mul_iff_right₀ hc]

theorem weighed_le_iff :
    b * (weights k e).1 ≤ a * (weights k e).2 ↔ (b : ℚ) * 10 ^ k ≤ a * 2 ^ e := by
  obtain ⟨c, hc, hten, htwo⟩ := exists_scale k e
  rw [← Nat.cast_le (α := ℚ), Nat.cast_mul, Nat.cast_mul, hten, htwo, mul_left_comm,
    mul_left_comm (a : ℚ), mul_le_mul_iff_right₀ hc]

end Weights

/-! ## the interval of a magnitude -/

section Intervals

variable {m n : Nat} {q k : ℤ}

/-- The ends are given in quarters of the last place. -/
theorem zpow_eq_quarters (q : ℤ) : (2 : ℚ) ^ q = 4 * 2 ^ (q - 2) := by
  rw [zpow_sub₀ (by norm_num)]
  norm_num
  ring

theorem lo_ofBinary (hm : 0 < m) (q : ℤ) :
    ((Interval.ofBinary m q).lo : ℚ) * 2 ^ (q - 2) = (m - halfBelow m q) * 2 ^ q := by
  rw [zpow_eq_quarters q, Interval.ofBinary, halfBelow]
  split <;>
  · rw [Nat.cast_sub (by omega)]
    push_cast
    ring

theorem hi_ofBinary (m : Nat) (q : ℤ) :
    ((Interval.ofBinary m q).hi : ℚ) * 2 ^ (q - 2) = (m + 1 / 2) * 2 ^ q := by
  rw [zpow_eq_quarters q, Interval.ofBinary]
  push_cast
  ring

theorem nearest_of_holds (hm : 0 < m) (h : (Interval.ofBinary m q).holds
    (weights k (q - 2)).1 (weights k (q - 2)).2 n = true) : Nearest m q (n * 10 ^ k) := by
  have hclosed : (Interval.ofBinary m q).closed = (m % 2 == 0) := rfl
  have hlo := lo_ofBinary hm q
  have hhi := hi_ofBinary m q
  rw [Interval.holds, hclosed] at h
  by_cases heven : m % 2 = 0
  · simp only [heven, beq_self_eq_true, if_true, Bool.and_eq_true, decide_eq_true_eq,
      le_weighed_iff, weighed_le_iff, hlo, hhi] at h
    exact ⟨h.1, h.2, fun _ => heven⟩
  · simp only [heven, beq_iff_eq, if_false, Bool.and_eq_true, decide_eq_true_eq, ← Nat.not_le,
      le_weighed_iff, weighed_le_iff, hlo, hhi, not_le] at h
    refine ⟨h.1.le, h.2.le, ?_⟩
    rintro (hend | hend)
    · exact absurd hend h.1.ne'
    · exact absurd hend h.2.ne

/-! ## one grid -/

theorem holds_of_onGrid? {v : Interval} (h : v.onGrid? k = some n) :
    v.holds (weights k v.exponent).1 (weights k v.exponent).2 n = true := by
  simp only [Interval.onGrid?] at h
  split at h
  · next hbelow habove =>
    split at h
    · exact Option.some.inj h ▸ hbelow
    · exact Option.some.inj h ▸ habove
  · next hbelow _ => exact Option.some.inj h ▸ hbelow
  · next _ habove => exact Option.some.inj h ▸ habove
  · cases h

/-- A step that is smaller than what the interval has above the value does not pass over that. -/
theorem exists_onGrid? (m : Nat) (h : (weights k (q - 2)).1 ≤ (weights k (q - 2)).2) :
    ∃ n, (Interval.ofBinary m q).onGrid? k = some n := by
  obtain ⟨hgpos, hupos⟩ := weights_pos k (q - 2)
  have habove : (Interval.ofBinary m q).holds (weights k (q - 2)).1 (weights k (q - 2)).2
      (4 * m * (weights k (q - 2)).2 / (weights k (q - 2)).1 + 1) = true := by
    generalize (weights k (q - 2)).1 = g at *
    generalize (weights k (q - 2)).2 = u at *
    have hfloor : g * (4 * m * u / g) ≤ 4 * m * u := Nat.mul_div_le _ _
    have hnext : 4 * m * u < g * (4 * m * u / g + 1) := Nat.lt_mul_div_succ _ hgpos
    have hlo : (Interval.ofBinary m q).lo * u ≤ 4 * m * u :=
      Nat.mul_le_mul_right u (Nat.sub_le _ _)
    have hhi : (Interval.ofBinary m q).hi * u = 4 * m * u + 2 * u := Nat.add_mul _ _ _
    rw [mul_comm g, Nat.add_mul, Nat.one_mul] at hnext
    rw [mul_comm g] at hfloor
    rw [Interval.holds, hhi, Nat.add_mul, Nat.one_mul]
    generalize 4 * m * u / g * g = below at *
    split <;> simp only [Bool.and_eq_true, decide_eq_true_eq] <;> omega
  have hexp : (Interval.ofBinary m q).exponent = q - 2 := rfl
  have hvalue : (Interval.ofBinary m q).value = 4 * m := rfl
  simp only [Interval.onGrid?, hexp, hvalue, habove]
  split
  · split <;> exact ⟨_, rfl⟩
  · exact ⟨_, rfl⟩
  · exact ⟨_, rfl⟩
  · next hnone => cases hnone

end Intervals

/-! ## the last grid -/

/-- Powers of two bases, compared through one pair of them. -/
theorem pow_le_pow_of_le {a b i j n k : Nat} (hb : 0 < b) (hi : i ≠ 0) (hij : a ^ i ≤ b ^ j)
    (h : j * n ≤ i * k) : a ^ n ≤ b ^ k := by
  refine (Nat.pow_le_pow_iff_left hi).1 ?_
  calc (a ^ n) ^ i = (a ^ i) ^ n := by rw [← pow_mul, ← pow_mul, mul_comm]
    _ ≤ (b ^ j) ^ n := Nat.pow_le_pow_left hij n
    _ = b ^ (j * n) := (pow_mul b j n).symm
    _ ≤ b ^ (i * k) := Nat.pow_le_pow_right hb h
    _ = (b ^ k) ^ i := by rw [mul_comm, pow_mul]

/-- Two quotients near the logarithm of two suffice, one below it and one above it. -/
theorem weights_le {k e : ℤ} (hlow : -1076 ≤ e) (hhigh : e ≤ 969)
    (h : 100000 * k ≤ 30103 * e - 144335) : (weights k e).1 ≤ (weights k e).2 := by
  show 10 ^ k.toNat * 2 ^ (-e).toNat ≤ 2 ^ e.toNat * 10 ^ (-k).toNat
  obtain hk | hk := le_or_gt 0 k
  · have htwo : (-e).toNat = 0 := by omega
    have hten : (-k).toNat = 0 := by omega
    rw [htwo, hten, pow_zero, pow_zero, mul_one, mul_one]
    exact pow_le_pow_of_le (i := 3) (j := 10) (by decide) (by decide) (by decide) (by omega)
  · have hten : k.toNat = 0 := by omega
    rw [hten, pow_zero, one_mul]
    refine le_trans ?_ (Nat.le_mul_of_pos_left _ (Nat.two_pow_pos _))
    exact pow_le_pow_of_le (i := 63) (j := 19) (by decide) (by decide) (by decide) (by omega)

section Search

variable {s : Sign} {m : Nat} {q : ℤ} {hm : 0 < m}

theorem coarsest_bounds (hv : Canonical (.finite s m q hm)) (hfit : q ≤ 971) :
    100000 * (coarsest m q - 20) ≤ 30103 * (q - 2) - 144335 ∧ -325 ≤ coarsest m q := by
  obtain ⟨hlt, hlow, -⟩ := hv
  have hlog : m.log2 < 53 := (Nat.log2_lt hm.ne').2 hlt
  rw [coarsest]
  omega

/-- **The search for digits** ends on one of its grids, with a number nearest to the magnitude. -/
theorem Digits.ofBinary_spec (hv : Canonical (.finite s m q hm)) (hfit : q ≤ 971) :
    Nearest m q ((Digits.ofBinary m q).value * 10 ^ (Digits.ofBinary m q).exponent) ∧
      -345 ≤ (Digits.ofBinary m q).exponent := by
  obtain ⟨hfine, hlow⟩ := coarsest_bounds hv hfit
  have hfine := weights_le (by have := hv.2.1; omega) (by omega) hfine
  obtain ⟨n, hn⟩ := exists_onGrid? m hfine
  obtain ⟨d, hd⟩ : ∃ d, (((List.range 21).map fun i : Nat => coarsest m q - (i : ℤ)).findSome?
      fun k => ((Interval.ofBinary m q).onGrid? k).map (Digits.mk · k)) = some d := by
    rw [← Option.isSome_iff_exists, List.findSome?_isSome_iff]
    exact ⟨_, List.mem_map.2 ⟨20, by decide, rfl⟩, by rw [Nat.cast_ofNat, hn]; rfl⟩
  have hdigits : Digits.ofBinary m q = d := by
    rw [Digits.ofBinary, hd, Option.getD_some]
  obtain ⟨k, hk, hgrid⟩ := List.exists_of_findSome?_eq_some hd
  obtain ⟨n, hn, rfl⟩ := Option.map_eq_some_iff.1 hgrid
  obtain ⟨i, hi, rfl⟩ := List.mem_map.1 hk
  rw [hdigits]
  refine ⟨nearest_of_holds hm (holds_of_onGrid? hn), ?_⟩
  have := List.mem_range.1 hi
  show -345 ≤ coarsest m q - (i : ℤ)
  omega

end Search

end GlyphField.Decimal
