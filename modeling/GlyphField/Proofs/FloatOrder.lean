import GlyphField.Proofs.FloatParts

/-!
# GlyphField.Proofs.FloatOrder

The value of a float and the order of floats.  Parts in canonical form compare as their values:
of two exponents the greater one wins whatever the mantissas, since a mantissa of fewer than 53
bits only stands beside the least exponent.

* `magnitude_lt_of_exponent_lt` — the exponents decide first;
* `le_iff_toRat_le` — finite floats are ordered by their values;
* `not_lt_iff_le` — any two floats that are numbers can be compared.
-/

namespace GlyphField.Binary64

open Float.Model (UnpackedFloat)
open Float.Model.UnpackedFloat (Sign)

/-! ## values -/

/-- A number with a sign put to it. -/
def signed (s : Sign) (x : ℚ) : ℚ :=
  match s with
  | .positive => x
  | .negative => -x

/-- The value of finite parts; zero for all others. -/
def value : UnpackedFloat → ℚ
  | .finite s m e _ => signed s (m * 2 ^ e)
  | _ => 0

/-- The value of a finite float. -/
def toRat (x : Float) : ℚ := value (parts x)

theorem two_zpow_pos (e : ℤ) : (0 : ℚ) < 2 ^ e := zpow_pos (by norm_num) e

theorem magnitude_pos {m : Nat} (h : 0 < m) (e : ℤ) : (0 : ℚ) < m * 2 ^ e :=
  mul_pos (Nat.cast_pos.2 h) (two_zpow_pos e)

/-- Multiples of a power of two, as multiples of a smaller one. -/
theorem magnitude_rescale (m : ℚ) {k e : ℤ} (h : k ≤ e) :
    m * 2 ^ e = m * 2 ^ (e - k).toNat * 2 ^ k := by
  have hsum : e = ((e - k).toNat : ℤ) + k := by omega
  conv_lhs => rw [hsum, zpow_add₀ (by norm_num), zpow_natCast, ← mul_assoc]

/-- The exponents decide first. -/
theorem magnitude_lt_of_exponent_lt {m n : Nat} {e k : ℤ} (hm : m < 2 ^ 53)
    (hn : 2 ^ 52 ≤ n) (h : e < k) : (m : ℚ) * 2 ^ e < n * 2 ^ k := by
  have hm : (m : ℚ) < 2 ^ 53 := by exact_mod_cast hm
  have hn : (2 : ℚ) ^ 52 ≤ n := by exact_mod_cast hn
  calc (m : ℚ) * 2 ^ e
      < 2 ^ 53 * 2 ^ e := mul_lt_mul_of_pos_right hm (two_zpow_pos e)
    _ = 2 ^ 52 * 2 ^ (e + 1) := by rw [zpow_add₀ (by norm_num)]; ring
    _ ≤ 2 ^ 52 * 2 ^ k :=
        mul_le_mul_of_nonneg_left (zpow_le_zpow_right₀ (by norm_num) (by omega)) (by norm_num)
    _ ≤ n * 2 ^ k := mul_le_mul_of_nonneg_right hn (two_zpow_pos k).le

/-! ## comparing parts -/

/-- Magnitudes in canonical form compare by exponent and then by mantissa. -/
theorem isLE_compare_iff {s s' : Sign} {m n : Nat} {e k : ℤ} {hm : 0 < m} {hn : 0 < n}
    (hu : Canonical (.finite s m e hm)) (hv : Canonical (.finite s' n k hn)) :
    ((compare e k).then (compare m n)).isLE = true ↔ (m : ℚ) * 2 ^ e ≤ n * 2 ^ k := by
  obtain ⟨hm, hle, hlow⟩ := hu
  obtain ⟨hn, hle', hlow'⟩ := hv
  obtain h | rfl | h := lt_trichotomy e k
  · have hlt := magnitude_lt_of_exponent_lt hm (hlow'.resolve_right (by omega)) h
    simp [Int.compare_eq_lt.2 h, hlt.le]
  · rw [mul_le_mul_iff_left₀ (two_zpow_pos e), Nat.cast_le]
    simp [Nat.isLE_compare]
  · have hlt := magnitude_lt_of_exponent_lt hn (hlow.resolve_right (by omega)) h
    simp [Int.compare_eq_gt.2 h, hlt]

/-- Finite parts in canonical form compare as their values. -/
theorem le_iff_value_le {u v : UnpackedFloat} (hu : Canonical u) (hv : Canonical v)
    (hfu : u.isFinite = true) (hfv : v.isFinite = true) :
    u.le v = true ↔ value u ≤ value v := by
  cases u with
  | infinity s => cases hfu
  | notANumber => cases hfu
  | zero s =>
      cases v with
      | infinity s' => cases hfv
      | notANumber => cases hfv
      | zero s' => simp [UnpackedFloat.le, UnpackedFloat.compare, value]
      | finite s' n k hn =>
          have hpos := magnitude_pos hn k
          cases s' <;> simp [UnpackedFloat.le, UnpackedFloat.compare, value, signed, hpos, hpos.le]
  | finite s m e hm =>
      have hpos := magnitude_pos hm e
      cases v with
      | infinity s' => cases hfv
      | notANumber => cases hfv
      | zero s' =>
          cases s <;> simp [UnpackedFloat.le, UnpackedFloat.compare, value, signed, hpos, hpos.le]
      | finite s' n k hn =>
          have hpos' := magnitude_pos hn k
          cases s <;> cases s'
          · rw [value, value, signed, signed, neg_le_neg_iff, ← isLE_compare_iff hv hu]
            simp [UnpackedFloat.le, UnpackedFloat.compare, Ordering.swap_then, Int.compare_swap,
              Nat.compare_swap]
          · simp [UnpackedFloat.le, UnpackedFloat.compare, value, signed]
            linarith
          · simp [UnpackedFloat.le, UnpackedFloat.compare, value, signed]
            linarith
          · exact isLE_compare_iff hu hv

theorem compare_swap (u v : UnpackedFloat) :
    v.compare u = (u.compare v).map Ordering.swap := by
  have hsign (s s' : Sign) : (compare s s').swap = compare s' s := by
    cases s <;> cases s' <;> rfl
  cases u with
  | notANumber => cases v <;> simp [UnpackedFloat.compare]
  | infinity s => cases v <;> cases s <;> simp [UnpackedFloat.compare, hsign]
  | zero s =>
      cases v with
      | infinity s' => cases s' <;> simp [UnpackedFloat.compare]
      | notANumber => simp [UnpackedFloat.compare]
      | zero s' => simp [UnpackedFloat.compare]
      | finite s' n k hn => cases s' <;> simp [UnpackedFloat.compare]
  | finite s m e hm =>
      cases v with
      | infinity s' => cases s' <;> simp [UnpackedFloat.compare]
      | notANumber => simp [UnpackedFloat.compare]
      | zero s' => cases s <;> simp [UnpackedFloat.compare]
      | finite s' n k hn =>
          cases s <;> cases s' <;>
            simp [UnpackedFloat.compare, Ordering.swap_then, Int.compare_swap, Nat.compare_swap]

theorem compare_ne_none {u v : UnpackedFloat} (hu : u.isNaN = false) (hv : v.isNaN = false) :
    u.compare v ≠ none := by
  unfold UnpackedFloat.compare
  split <;> simp_all [UnpackedFloat.isNaN]

/-! ## comparing floats -/

section Floats

variable {x y : Float}

theorem le_iff_le_parts : x ≤ y ↔ (parts x).le (parts y) = true := by
  show decide ((parts x).le (parts y) = true) = true ↔ _
  rw [decide_eq_true_iff]

theorem lt_iff_lt_parts : x < y ↔ (parts x).lt (parts y) = true := by
  show decide ((parts x).lt (parts y) = true) = true ↔ _
  rw [decide_eq_true_iff]

theorem le_iff_toRat_le (hx : x.isFinite = true) (hy : y.isFinite = true) :
    x ≤ y ↔ toRat x ≤ toRat y := by
  rw [le_iff_le_parts]
  exact le_iff_value_le (canonical_parts x) (canonical_parts y) hx hy

theorem isNaN_eq_false_of_le (h : x ≤ y) : x.isNaN = false ∧ y.isNaN = false := by
  rw [le_iff_le_parts] at h
  show (parts x).isNaN = false ∧ (parts y).isNaN = false
  cases hx : parts x <;> cases hy : parts y <;>
    simp_all [UnpackedFloat.isNaN, UnpackedFloat.le, UnpackedFloat.compare]

theorem isNaN_eq_false_of_isFinite (h : x.isFinite = true) : x.isNaN = false := by
  have h : (parts x).isFinite = true := h
  show (parts x).isNaN = false
  cases hx : parts x <;> simp_all [UnpackedFloat.isNaN, UnpackedFloat.isFinite]

/-- Of two floats that are numbers one is smaller or the other is at most as great. -/
theorem not_lt_iff_le (hx : x.isNaN = false) (hy : y.isNaN = false) : ¬x < y ↔ y ≤ x := by
  rw [lt_iff_lt_parts, le_iff_le_parts, UnpackedFloat.lt, UnpackedFloat.le,
    compare_swap (parts x) (parts y)]
  cases h : (parts x).compare (parts y) with
  | none => exact absurd h (compare_ne_none hx hy)
  | some o => cases o <;> simp

/-- Between finite bounds a float is finite. -/
theorem isFinite_of_le_of_le {lo hi : Float} (hlo : lo.isFinite = true) (hhi : hi.isFinite = true)
    (h : lo ≤ x) (h' : x ≤ hi) : x.isFinite = true := by
  rw [le_iff_le_parts] at h h'
  have hlo : (parts lo).isFinite = true := hlo
  have hhi : (parts hi).isFinite = true := hhi
  show (parts x).isFinite = true
  cases hx : parts x with
  | zero s => rfl
  | finite s m e hm => rfl
  | notANumber =>
      rw [hx] at h'
      simp [UnpackedFloat.le, UnpackedFloat.compare] at h'
  | infinity s =>
      rw [hx] at h h'
      cases s <;> cases hl : parts lo <;> cases hh : parts hi <;>
        simp_all [UnpackedFloat.le, UnpackedFloat.compare, UnpackedFloat.isFinite]

theorem le_of_lt (h : x < y) : x ≤ y := by
  rw [lt_iff_lt_parts, UnpackedFloat.lt] at h
  rw [le_iff_le_parts, UnpackedFloat.le]
  cases hcompare : (parts x).compare (parts y) with
  | none => simp [hcompare] at h
  | some o => cases o <;> simp_all

theorem isFinite_of_le_of_lt {lo hi : Float} (hlo : lo.isFinite = true) (hhi : hi.isFinite = true)
    (h : lo ≤ x) (h' : x < hi) : x.isFinite = true :=
  isFinite_of_le_of_le hlo hhi h (le_of_lt h')

end Floats

end GlyphField.Binary64
