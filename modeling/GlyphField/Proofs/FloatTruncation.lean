import GlyphField.Proofs.FloatArithmetic

/-!
# GlyphField.Proofs.FloatTruncation

Floats cut off to words.  The bits behind the point are shifted out, which leaves the whole part of
the magnitude; a negative number goes to zero and a number that is too great to the greatest word.

* `toNat_toUInt32` — the word of a finite float is the floor of its value, clamped.
-/

namespace GlyphField.Binary64

open Float.Model (UnpackedFloat)
open Float.Model.UnpackedFloat (Sign ExtendedMantissa roundToInt decreaseExponent shiftToExponent)

theorem Truncates.mantissa_eq {em : ExtendedMantissa} {y : ℚ} (h : Truncates em y) :
    em.mantissa = ⌊y⌋₊ :=
  ((Nat.floor_eq_iff ((Nat.cast_nonneg _).trans h.le)).2 ⟨h.le, h.lt⟩).symm

/-- A magnitude is cut off to its whole part. -/
theorem roundToInt_eq (s : Sign) (m : Nat) (e : ℤ) :
    roundToInt s m e = s.apply (⌊(m : ℚ) * 2 ^ e⌋₊ : ℤ) := by
  obtain ⟨k, hk⟩ : ∃ k, e.toNat = k := ⟨_, rfl⟩
  obtain ⟨n, hn⟩ : ∃ n, (-e).toNat = n := ⟨_, rfl⟩
  have hdecrease : decreaseExponent m e 0 = (m * 2 ^ k, e - k) := by
    rw [decreaseExponent, Int.sub_zero, hk, Nat.shiftLeft_eq]
  have hshift : (0 - (e - (k : ℤ))).toNat = n := by omega
  have hvalue : ((m * 2 ^ k : Nat) : ℚ) / 2 ^ n = m * 2 ^ e := by
    have hexp : e = k - n := by omega
    rw [hexp, zpow_sub₀ (by norm_num), zpow_natCast, zpow_natCast]
    push_cast
    ring
  have htruncates := ((locates_exact (m * 2 ^ k)).shiftRight n).truncates
  rw [hvalue] at htruncates
  simp only [roundToInt, hdecrease, shiftToExponent, hshift, htruncates.mantissa_eq]

theorem toNat_toInt {u : UnpackedFloat} (hu : u.isFinite = true) (lo hi : ℤ) :
    (u.toInt lo hi).toNat = ⌊value u⌋₊ := by
  cases u with
  | infinity s => cases hu
  | notANumber => cases hu
  | zero s => simp [UnpackedFloat.toInt, value]
  | finite s m e hm =>
      have hpos := magnitude_pos hm e
      rw [UnpackedFloat.toInt, roundToInt_eq, value]
      cases s with
      | positive => exact Int.toNat_natCast _
      | negative =>
          have hfloor : ⌊-((m : ℚ) * 2 ^ e)⌋₊ = 0 := Nat.floor_of_nonpos (by linarith)
          rw [signed, hfloor]
          simp [Sign.apply]

/-- The word of a finite float is the floor of its value, or the nearest word. -/
theorem toNat_toUInt32 {x : Float} (hx : x.isFinite = true) :
    x.toUInt32.toNat = min ⌊toRat x⌋₊ (2 ^ 32 - 1) := by
  have hfloor := toNat_toInt (u := parts x) hx 0 (UInt32.size - 1)
  have hsize : UInt32.size = 2 ^ 32 := rfl
  show (UInt32.ofNatClamp ((parts x).toInt 0 (UInt32.size - 1)).toNat).toNat = _
  rw [hfloor, UInt32.ofNatClamp]
  show _ = min ⌊value (parts x)⌋₊ (2 ^ 32 - 1)
  split
  · next h =>
    rw [UInt32.toNat_ofNatLT]
    omega
  · next h =>
    rw [UInt32.toNat_ofNatLT]
    omega

end GlyphField.Binary64
