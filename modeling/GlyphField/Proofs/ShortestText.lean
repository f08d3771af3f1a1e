import GlyphField.Proofs.DecimalText
import GlyphField.Proofs.ShortestDigits

/-!
# GlyphField.Proofs.ShortestText

The shortest text of a float is read back as that float.  The text has no exponent: its digits are
those that the search ends with, padded with zeros up to the point, and so few that the reader keeps
all of them.

* `readLiteral?_positional` — what is read from digits with a point;
* `readFloat?_shortest` — the text of a finite float, zeros of both signs included.
-/

namespace GlyphField.Decimal

open Float.Model (UnpackedFloat)
open Float.Model.UnpackedFloat (Sign)
open Binary64

/-! ## digits with a point -/

section Positional

variable {ds fs : List Char} {n places : Nat}

theorem readLiteral?_whole (negative : Bool) (hds : AreDigits ds) (hne : ds ≠ [])
    (hlen : ds.length ≤ keptDigits) : readLiteral? negative ds = some ⟨negative, ofDigits ds, 0⟩ := by
  have hcut : takeMantissa (ds ++ []) = (ds, [], []) := takeMantissa_whole hds (by simp) (by simp)
  rw [List.append_nil] at hcut
  simp [readLiteral?, hcut, hne, significand_of_length_le hlen, readExponent?]

theorem readLiteral?_point (negative : Bool) (hds : AreDigits ds) (hfs : AreDigits fs)
    (hne : ds ≠ []) (hlen : (ds ++ fs).length ≤ keptDigits) :
    readLiteral? negative (ds ++ '.' :: fs) =
      some ⟨negative, ofDigits (ds ++ fs), -fs.length⟩ := by
  have hcut : takeMantissa (ds ++ '.' :: (fs ++ [])) = (ds, fs, []) :=
    takeMantissa_point hds hfs (by simp)
  rw [List.append_nil] at hcut
  simp [readLiteral?, hcut, hne, significand_of_length_le hlen, readExponent?]

theorem ofDigits_replicate_append (j : Nat) (ds : List Char) :
    ofDigits (List.replicate j '0' ++ ds) = ofDigits ds := by
  induction j with
  | zero => rfl
  | succ j ih => exact ih

/-- The digits of a number, with a digit at least in front of the point. -/
def padded (n places : Nat) : List Char :=
  List.replicate (places + 1 - (Nat.toDigits 10 n).length) '0' ++ Nat.toDigits 10 n

theorem length_padded (n places : Nat) :
    (padded n places).length = max (places + 1) (Nat.toDigits 10 n).length := by
  simp [padded]
  omega

theorem areDigits_padded (n places : Nat) : AreDigits (padded n places) := by
  refine List.forall_mem_append.2 ⟨fun c hc => ?_, areDigits_toDigits n⟩
  rw [List.eq_of_mem_replicate hc]
  rfl

theorem ofDigits_padded (n places : Nat) : ofDigits (padded n places) = n := by
  rw [padded, ofDigits_replicate_append, ofDigits_toDigits]

/-- The text is cut into digits in front of the point and behind it. -/
theorem toList_positional (n places : Nat) : ∃ ds fs, ds ++ fs = padded n places ∧ ds ≠ [] ∧
    fs.length = places ∧
      (positional n places).toList = if places = 0 then ds else ds ++ '.' :: fs := by
  have hlen := length_padded n places
  refine ⟨(padded n places).take ((padded n places).length - places),
    (padded n places).drop ((padded n places).length - places), List.take_append_drop _ _, ?_, ?_, ?_⟩
  · rw [← List.length_pos_iff, List.length_take]
    omega
  · rw [List.length_drop]
    omega
  · show (if places = 0 then String.ofList _ else String.ofList _).toList = _
    split <;> exact String.toList_ofList

theorem readFloat?_positional (s : Sign) (hn : n < 10 ^ keptDigits) (hplaces : places < keptDigits) :
    readFloat? (signText s ++ (positional n places).toList) =
      some (Literal.toFloat ⟨isNegative s, n, -places⟩) := by
  obtain ⟨ds, fs, hcut, hne, hfs, htext⟩ := toList_positional n places
  have hdigits : AreDigits (ds ++ fs) := hcut ▸ areDigits_padded n places
  obtain ⟨hds, hfs'⟩ := List.forall_mem_append.1 hdigits
  have hvalue : ofDigits (ds ++ fs) = n := hcut ▸ ofDigits_padded n places
  have hlen : (ds ++ fs).length ≤ keptDigits := by
    have := (Nat.length_toDigits_le_iff (b := 10) (by decide) (by decide)).2 hn
    rw [hcut, length_padded]
    omega
  rw [htext]
  split
  · next hzero =>
    obtain rfl : fs = [] := List.length_eq_zero_iff.1 (hfs.trans hzero)
    rw [List.append_nil] at hvalue hlen
    have hread := readFloat?_signText s hds hne []
    rw [List.append_nil] at hread
    rw [hread, readLiteral?_whole _ hds hne hlen, hvalue, hzero]
    rfl
  · rw [readFloat?_signText s hds hne, readLiteral?_point _ hds hfs' hne hlen, hvalue, hfs]
    rfl

end Positional

/-! ## the shortest text -/

theorem toList_signed (s : Sign) (t : String) :
    (signed (isNegative s) t).toList = signText s ++ t.toList := by
  cases s with
  | positive => rfl
  | negative => exact String.toList_append

section Shortest

variable {s : Sign} {m : Nat} {q : ℤ} {hm : 0 < m} {x : Float}

theorem pos_of_nearest {y : ℚ} (hm : 0 < m) (hy : Nearest m q y) : 0 < y := by
  have hhalf := halfBelow_le m q
  have hm : (1 : ℚ) ≤ m := by exact_mod_cast hm
  exact (mul_pos (by linarith) (two_zpow_pos q)).trans_le hy.le

/-- What is nearest to the magnitude of a float is not beyond the next power of two. -/
theorem le_of_nearest {y : ℚ} (hv : Canonical (.finite s m q hm)) (hfit : q ≤ 971)
    (hy : Nearest m q y) : y ≤ 2 ^ 1024 := by
  have hm53 : (m : ℚ) + 1 ≤ 2 ^ 53 := by exact_mod_cast hv.1
  have hpow : (2 : ℚ) ^ q ≤ 2 ^ 971 := by
    rw [← zpow_natCast]
    exact zpow_le_zpow_right₀ (by norm_num) (by omega)
  calc y ≤ (m + 1 / 2) * 2 ^ q := hy.ge
    _ ≤ 2 ^ 53 * 2 ^ 971 :=
        mul_le_mul (by linarith) hpow (two_zpow_pos q).le (by norm_num)
    _ = 2 ^ 1024 := (pow_add 2 53 971).symm

/-- The digits of a number nearest to a magnitude are few enough to be kept. -/
theorem readFloat?_positional_of_nearest {n places : Nat} (hv : Canonical (.finite s m q hm))
    (hfit : q ≤ 971) (hplaces : places ≤ 345) (hq : Nearest m q (n / 10 ^ places)) :
    readFloat? (signText s ++ (positional n places).toList) = some (pack (.finite s m q hm)) := by
  have hten : (0 : ℚ) < 10 ^ places := by positivity
  have hpos : 0 < n := by
    have := pos_of_nearest hm hq
    rw [lt_div_iff₀ hten, zero_mul] at this
    exact_mod_cast this
  have hkept : n < 10 ^ keptDigits := by
    have hle := le_of_nearest hv hfit hq
    rw [div_le_iff₀ hten] at hle
    have hle : n ≤ 2 ^ 1024 * 10 ^ places := by exact_mod_cast hle
    calc n ≤ 2 ^ 1024 * 10 ^ places := hle
      _ ≤ 2 ^ 1024 * 10 ^ 345 := Nat.mul_le_mul_left _ (Nat.pow_le_pow_right (by decide) hplaces)
      _ < 10 ^ keptDigits := by decide +kernel
  have hfew : places < keptDigits := by
    rw [keptDigits]
    omega
  rw [readFloat?_positional s hkept hfew, toFloat_of_nearest hv hfit hpos (by omega) hq]

/-- The text of digits nearest to a magnitude. -/
theorem readFloat?_text {d : Digits} (hv : Canonical (.finite s m q hm)) (hfit : q ≤ 971)
    (hlow : -345 ≤ d.exponent) (hd : Nearest m q (d.value * 10 ^ d.exponent)) :
    readFloat? (signText s ++ d.text.toList) = some (pack (.finite s m q hm)) := by
  rw [Digits.text]
  split
  · next hk =>
    refine readFloat?_positional_of_nearest hv hfit (by decide) ?_
    have hvalue : ((d.value * 10 ^ d.exponent.toNat : Nat) : ℚ) / 10 ^ 0 =
        d.value * 10 ^ d.exponent := by
      rw [pow_zero, div_one, Nat.cast_mul, Nat.cast_pow, ← zpow_natCast, Int.toNat_of_nonneg hk]
      rfl
    exact hvalue ▸ hd
  · next hk =>
    refine readFloat?_positional_of_nearest hv hfit (by omega) ?_
    have hvalue : (d.value : ℚ) / 10 ^ (-d.exponent).toNat = d.value * 10 ^ d.exponent := by
      rw [← zpow_natCast, Int.toNat_of_nonneg (by omega), zpow_neg, div_inv_eq_mul]
    exact hvalue ▸ hd

theorem shortest_of_parts (h : parts x = .finite s m q hm) :
    shortest x = signed (isNegative s) (Digits.ofBinary m q).text := by
  have h : x.toModel.unpack = .finite s m q hm := h
  obtain ⟨m, rfl⟩ := Nat.exists_eq_succ_of_ne_zero hm.ne'
  rw [shortest, ofFloat, h]
  rfl

/-- **The shortest text** of a finite float is read back as that float. -/
theorem readFloat?_shortest (hx : x.isFinite = true) : readFloat? (shortest x).toList = some x := by
  obtain ⟨s, rfl⟩ | ⟨s, m, q, hm, hpack, hparts, hcanonical, hfit⟩ := parts_cases hx
  · cases s <;> rfl
  · obtain ⟨hnearest, hlow⟩ := Digits.ofBinary_spec hcanonical hfit
    rw [shortest_of_parts hparts, toList_signed, readFloat?_text hcanonical hfit hlow hnearest,
      hpack]

end Shortest

end GlyphField.Decimal
