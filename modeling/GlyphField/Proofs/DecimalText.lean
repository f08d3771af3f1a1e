import GlyphField.Proofs.LiteralRounding
import GlyphField.Proofs.NumeralGrammar

/-!
# GlyphField.Proofs.DecimalText

Every finite float has a decimal text that is read back as it.  A float `±m · 2^e` is `n · 10^-k`
for a whole `n`, as soon as `k` is at least `-e`.  Its digits are among those that are kept exactly,
so that the reader rounds the quotient `n / 10^k` only once, and that quotient is the float itself.

* `readLiteral?_scientific` — what is read from digits with a negative exponent;
* `readFloat?_decimal` — the text of a finite float.
-/

namespace GlyphField.Decimal

open Float.Model (Format UnpackedFloat)
open Float.Model.UnpackedFloat (Sign)
open Binary64

/-! ## digits -/

theorem ofDigits_toDigits (n : Nat) : ofDigits (Nat.toDigits 10 n) = n :=
  Nat.ofDigitChars_ten_toDigits

theorem isDigit_of_mem_toDigits {n : Nat} {c : Char} (h : c ∈ Nat.toDigits 10 n) :
    isDigit c = true := by
  have hdigit := Nat.isDigit_of_mem_toDigits (by decide) (by decide) h
  simpa [isDigit, Char.isDigit, Char.le_def] using hdigit

theorem ofDigits_concat (ds : List Char) (c : Char) :
    ofDigits (ds ++ [c]) = 10 * ofDigits ds + digitValue c := by
  simp [ofDigits]

/-- Leading zeros do not count. -/
theorem ofDigits_dropWhile (ds : List Char) : ofDigits (ds.dropWhile (· = '0')) = ofDigits ds := by
  induction ds with
  | nil => rfl
  | cons c ds ih =>
      by_cases h : c = '0'
      · subst h
        have hzero : ofDigits ('0' :: ds) = ofDigits ds := rfl
        simpa [hzero] using ih
      · simp [h]

theorem significand_of_length_le {ds : List Char} (h : ds.length ≤ keptDigits) :
    significand ds = (ofDigits ds, 0) := by
  have hdrop : (ds.dropWhile (· = '0')).drop keptDigits = [] :=
    List.drop_eq_nil_of_le ((List.dropWhile_sublist _).length_le.trans h)
  simp only [significand, hdrop, ofDigits_dropWhile]

/-- Below the bound the digits of an exponent are read as they are. -/
theorem exponentValue_eq {ds : List Char} (h : ofDigits ds < 0x10000) :
    exponentValue ds = ofDigits ds := by
  induction ds using List.reverseRecOn with
  | nil => rfl
  | append_singleton ds c ih =>
      rw [ofDigits_concat] at h ⊢
      have hds : ofDigits ds < 0x10000 := by omega
      have hstep : exponentValue (ds ++ [c]) =
          if exponentValue ds < 0x10000 then 10 * exponentValue ds + digitValue c
          else exponentValue ds := by
        rw [exponentValue, List.foldl_append]
        rfl
      rw [hstep, ih hds, if_pos hds]

theorem areDigits_toDigits (n : Nat) : AreDigits (Nat.toDigits 10 n) :=
  fun _ => isDigit_of_mem_toDigits

/-! ## signs -/

/-- The sign of a text. -/
def signText : Sign → List Char
  | .positive => []
  | .negative => ['-']

/-- What starts with a digit behind its sign is read as a literal. -/
theorem readFloat?_signText (s : Sign) {ds : List Char} (hds : AreDigits ds) (hne : ds ≠ [])
    (rest : List Char) : readFloat? (signText s ++ (ds ++ rest)) =
      (readLiteral? (isNegative s) (ds ++ rest)).map Literal.toFloat := by
  obtain ⟨c, cs, rfl⟩ := List.exists_cons_of_ne_nil hne
  have hc : isDigit c = true := hds c List.mem_cons_self
  have hcut : takeSign (signText s ++ (c :: cs ++ rest)) = (isNegative s, c :: cs ++ rest) := by
    cases s with
    | negative => rfl
    | positive => refine takeSign_of_head? ?_ ?_ <;> rintro ⟨⟩ <;> cases hc
  have hword : ¬IsWordNumeral (takeSign (signText s ++ (c :: cs ++ rest))).2 := by
    rw [hcut]
    exact not_isWordNumeral_of_isDigit hc _
  rw [readFloat?_of_not_isWordNumeral hword, hcut]

/-! ## digits with a negative exponent -/

/-- The text of `n · 10^-k`. -/
def scientific (n k : Nat) : List Char := Nat.toDigits 10 n ++ 'e' :: '-' :: Nat.toDigits 10 k

section Scientific

variable {n k : Nat}

theorem readExponent?_toDigits (hk : k < 0x10000) :
    readExponent? ('e' :: '-' :: Nat.toDigits 10 k) = some (-(k : Int)) := by
  have hne : (Nat.toDigits 10 k).isEmpty = false := by simp [Nat.toDigits_ne_nil]
  have hdigits : (Nat.toDigits 10 k).all isDigit = true :=
    List.all_eq_true.2 (areDigits_toDigits k)
  have hvalue : exponentValue (Nat.toDigits 10 k) = k := by
    rw [exponentValue_eq (by rwa [ofDigits_toDigits]), ofDigits_toDigits]
  simp [readExponent?, takeSign, hne, hdigits, hvalue]

theorem readLiteral?_scientific (negative : Bool) (hn : n < 10 ^ keptDigits) (hk : k < 0x10000) :
    readLiteral? negative (scientific n k) = some ⟨negative, n, -k⟩ := by
  have hlen : (Nat.toDigits 10 n).length ≤ keptDigits :=
    (Nat.length_toDigits_le_iff (by decide) (by decide)).2 hn
  have hcut : takeMantissa (scientific n k) =
      (Nat.toDigits 10 n, [], 'e' :: '-' :: Nat.toDigits 10 k) :=
    takeMantissa_whole (areDigits_toDigits n) (by simp [isDigit]) (by simp)
  simp only [readLiteral?, hcut, List.append_nil, significand_of_length_le hlen,
    ofDigits_toDigits, readExponent?_toDigits hk]
  simp [Nat.toDigits_ne_nil]

theorem readFloat?_scientific (s : Sign) (hn : n < 10 ^ keptDigits) (hk : k < 0x10000) :
    readFloat? (signText s ++ scientific n k) = some (Literal.toFloat ⟨isNegative s, n, -k⟩) := by
  have hread := readLiteral?_scientific (isNegative s) hn hk
  rw [scientific] at hread ⊢
  rw [readFloat?_signText s (areDigits_toDigits n) Nat.toDigits_ne_nil, hread, Option.map_some]

end Scientific

/-! ## the text of a float -/

/-- A decimal text of a finite float. -/
def decimal (x : Float) : List Char :=
  match parts x with
  | .finite s m e _ =>
    let k := max (-e).toNat 23
    signText s ++ scientific (m * 2 ^ (e + k).toNat * 5 ^ k) k
  | .zero s => signText s ++ scientific 0 23
  | _ => []

/-- The digits of a mantissa, brought to a negative power of ten, are among those kept. -/
theorem scaledMantissa_lt {m k : Nat} {e : ℤ} (hm : m < 2 ^ 53) (he : -1074 ≤ e) (he' : e ≤ 971)
    (hk : max (-e).toNat 23 = k) : m * 2 ^ (e + k).toNat * 5 ^ k < 10 ^ keptDigits := by
  have hpow (i j : Nat) (hbound : 2 ^ 53 * 2 ^ i * 5 ^ j ≤ 10 ^ keptDigits) (hi : (e + k).toNat ≤ i)
      (hj : k ≤ j) : m * 2 ^ (e + k).toNat * 5 ^ k < 10 ^ keptDigits := by
    refine lt_of_lt_of_le ?_ hbound
    calc m * 2 ^ (e + k).toNat * 5 ^ k
        < 2 ^ 53 * 2 ^ (e + k).toNat * 5 ^ k := by gcongr
      _ ≤ 2 ^ 53 * 2 ^ i * 5 ^ j := by gcongr <;> decide
  obtain h | h := le_total (-23) e
  · exact hpow 994 23 (by decide +kernel) (by omega) (by omega)
  · exact hpow 0 1074 (by decide +kernel) (by omega) (by omega)

/-- The quotient that the text stands for is the float itself. -/
theorem scaledMantissa_div {m k : Nat} {e : ℤ} (hk : max (-e).toNat 23 = k) :
    ((m * 2 ^ (e + k).toNat * 5 ^ k : Nat) : ℚ) / 10 ^ k = m * 2 ^ e := by
  have hten : (10 : ℚ) ^ k = 2 ^ k * 5 ^ k := by rw [← mul_pow]; norm_num
  have htwo : (2 : ℚ) ^ (e + k).toNat = 2 ^ e * 2 ^ k := by
    rw [← zpow_natCast, ← zpow_natCast, ← zpow_add₀ (by norm_num)]
    congr 1
    omega
  have hne : (2 : ℚ) ^ k * 5 ^ k ≠ 0 := by positivity
  push_cast
  rw [hten, htwo, div_eq_iff hne]
  ring

/-- The scale and the digits of a finite float. -/
theorem exists_decimal {x : Float} (hx : x.isFinite = true) :
    ∃ s n k, decimal x = signText s ++ scientific n k ∧ n < 10 ^ keptDigits ∧ k ≤ 1074 ∧
      Literal.toFloat ⟨isNegative s, n, -k⟩ = x := by
  obtain ⟨s, rfl⟩ | ⟨s, m, e, hm, hpack, hparts, hcanonical, he⟩ := parts_cases hx
  · refine ⟨s, 0, 23, ?_, by decide +kernel, by decide, ?_⟩ <;> cases s <;> rfl
  · obtain ⟨hlt, hle, -⟩ := id hcanonical
    obtain ⟨k, hk⟩ : ∃ k, max (-e).toNat 23 = k := ⟨_, rfl⟩
    have hnearest := nearest_self m e
    rw [← scaledMantissa_div hk] at hnearest
    refine ⟨s, m * 2 ^ (e + k).toNat * 5 ^ k, k, ?_, scaledMantissa_lt hlt hle he hk, by omega, ?_⟩
    · rw [decimal, hparts]
      simp only [hk]
    · rw [toFloat_of_nearest hcanonical he (by positivity) (by omega) hnearest, hpack]

theorem readFloat?_decimal {x : Float} (hx : x.isFinite = true) :
    readFloat? (decimal x) = some x := by
  obtain ⟨s, n, k, htext, hn, hk, hvalue⟩ := exists_decimal hx
  rw [htext, readFloat?_scientific s hn (by omega), hvalue]

/-- The text is short and made of digits and two more characters. -/
theorem decimal_spec {x : Float} (hx : x.isFinite = true) : (decimal x).length ≤ keptDigits + 8 ∧
    ∀ c ∈ decimal x, isDigit c = true ∨ c = 'e' ∨ c = '-' := by
  obtain ⟨s, n, k, htext, hn, hk, -⟩ := exists_decimal hx
  have hsign : (signText s).length ≤ 1 ∧ ∀ c ∈ signText s, c = '-' := by
    cases s <;> simp [signText]
  have hn : (Nat.toDigits 10 n).length ≤ keptDigits :=
    (Nat.length_toDigits_le_iff (by decide) (by decide)).2 hn
  have hk : (Nat.toDigits 10 k).length ≤ 5 :=
    (Nat.length_toDigits_le_iff (by decide) (by decide)).2 (by omega)
  rw [htext]
  constructor
  · simp [scientific]
    omega
  · intro c hc
    simp only [scientific, List.mem_append, List.mem_cons] at hc
    obtain hc | hc | rfl | rfl | hc := hc
    · exact .inr (.inr (hsign.2 c hc))
    · exact .inl (isDigit_of_mem_toDigits hc)
    · exact .inr (.inl rfl)
    · exact .inr (.inr rfl)
    · exact .inl (isDigit_of_mem_toDigits hc)

end GlyphField.Decimal
