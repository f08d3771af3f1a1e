import GlyphField.Decimal.Binary64
import Mathlib

/-!
# GlyphField.Proofs.FloatParts

A float and its parts.  The 64 bits of a float are a sign, eleven bits of exponent and 52 bits of
mantissa; `parts` reads them as `±mantissa · 2^exponent` in the one form in which the mantissa has
53 bits or the exponent is the least one.  The laws of the fields, and that a valid word comes back
from its parts, stand in Batteries, which nothing but the whole library brings in.

* `Canonical` — that form, without a bound on the exponent;
* `parts_pack` — what is packed in that form is read back, infinite if its exponent is too great;
* `pack_parts` — a float is determined by its parts.
-/

namespace GlyphField.Binary64

open Float.Model (Format UnpackedFloat)
open Float.Model.UnpackedFloat (Sign packComponents
  unpackExponent_packComponents unpackMantissa_packComponents unpackSign_packComponents)

/-- The parts of a float. -/
def parts (x : Float) : UnpackedFloat := x.toModel.unpack

/-- The float with these parts. -/
def pack (u : UnpackedFloat) : Float := .ofModel (.pack u)

/-- A mantissa of at most 53 bits, and of no fewer unless the exponent is the least one. -/
def Canonical : UnpackedFloat → Prop
  | .finite _ m e _ => m < 2 ^ 53 ∧ -1074 ≤ e ∧ (2 ^ 52 ≤ m ∨ e = -1074)
  | _ => True

/-- What becomes of parts in 64 bits: an exponent that does not fit stands for infinity. -/
def fit : UnpackedFloat → UnpackedFloat
  | .finite s m e h => if e ≤ 971 then .finite s m e h else .infinity s
  | u => u

/-! ## the fields -/

/-- A mantissa field with the bit that normal floats do not store. -/
theorem toNat_one_append (m : BitVec 52) : (1#1 ++ m).toNat = 2 ^ 52 + m.toNat := by
  rw [BitVec.toNat_append, ← Nat.shiftLeft_add_eq_or_of_lt m.isLt]
  rfl

/-- Every word is put together from fields. -/
theorem exists_fields (b : BitVec Format.binary64.numBits) :
    ∃ (s : Sign) (e : BitVec 11) (m : BitVec 52), packComponents Format.binary64 s e m = b :=
  ⟨_, _, _, UnpackedFloat.packComponents_unpackSign_unpackExponent_unpackMantissa b⟩

/-- What a word with these fields stands for. -/
def ofFields (s : Sign) (e : BitVec 11) (m : BitVec 52) : UnpackedFloat :=
  if e = -1#11 then
    if m = 0#52 then .infinity s else .notANumber
  else if e = 0#11 then
    if h : 0 < m.toNat then .finite s m.toNat (-1074) h else .zero s
  else .finite s (2 ^ 52 + m.toNat) (e.toNat - 1075) (by omega)

theorem unpack_packComponents (s : Sign) (e : BitVec 11) (m : BitVec 52) :
    UnpackedFloat.unpack Format.binary64 (packComponents Format.binary64 s e m) =
      ofFields s e m := by
  have hs : Sign.ofBitVec s.toBitVec = s := by cases s <;> rfl
  unfold UnpackedFloat.unpack ofFields
  simp only [unpackMantissa_packComponents, unpackExponent_packComponents,
    unpackSign_packComponents, hs]
  by_cases htop : e = -1#11
  · rw [if_pos htop, if_pos htop]
  · rw [if_neg htop, if_neg htop]
    by_cases hlow : e = 0#11
    · subst hlow
      by_cases hm : m = 0#52
      · subst hm
        rfl
      · have hpos : 0 < m.toNat := by
          refine Nat.pos_of_ne_zero fun h => hm (BitVec.eq_of_toNat_eq h)
        simp only [hm, hpos]
        rfl
    · rw [if_neg hlow, if_neg hlow]
      congr 1
      exact toNat_one_append m

/-! ## packing -/

section Packing

variable {s : Sign} {m : Nat} {e : Int} {h : 0 < m}

theorem log2_eq_of_canonical (hm : m < 2 ^ 53) (hlow : 2 ^ 52 ≤ m) : m.log2 = 52 := by
  have hne : m ≠ 0 := by omega
  exact (Nat.log2_eq_iff hne).2 ⟨hlow, hm⟩

theorem pack_of_great (he : 971 < e) : UnpackedFloat.pack Format.binary64 (.finite s m e h) =
    packComponents Format.binary64 s (-1#11) 0#52 := by
  have hbig : 2 ^ Format.binary64.exponentBits ≤ (e + Format.binary64.exponentBias +
      Format.binary64.mantissaBitsWithoutImplicit).toNat + 1 := by
    show 2048 ≤ (e + 1023 + 52).toNat + 1
    omega
  unfold UnpackedFloat.pack
  rw [if_pos hbig]
  rfl

theorem pack_of_normal (he : e ≤ 971) (hlog : m.log2 = 52) :
    UnpackedFloat.pack Format.binary64 (.finite s m e h) =
      packComponents Format.binary64 s (BitVec.ofNat 11 (e + 1075).toNat) (BitVec.ofNat 52 m) := by
  have hfit : ¬2 ^ Format.binary64.exponentBits ≤ (e + Format.binary64.exponentBias +
      Format.binary64.mantissaBitsWithoutImplicit).toNat + 1 := by
    show ¬2048 ≤ (e + 1023 + 52).toNat + 1
    omega
  have hbias : (e + Format.binary64.exponentBias +
      Format.binary64.mantissaBitsWithoutImplicit : Int) = e + 1075 := by
    show e + 1023 + 52 = e + 1075
    omega
  unfold UnpackedFloat.pack
  rw [if_neg hfit, if_pos (by rw [hlog]; rfl), hbias]

theorem pack_of_subnormal (hm : m < 2 ^ 52) :
    UnpackedFloat.pack Format.binary64 (.finite s m (-1074) h) =
      packComponents Format.binary64 s 0#11 (BitVec.ofNat 52 m) := by
  have hlog : m.log2 < 52 := (Nat.log2_lt (by omega)).2 hm
  have hbits : m.log2 + 1 ≠ Format.binary64.mantissaBits := by
    show m.log2 + 1 ≠ 53
    omega
  unfold UnpackedFloat.pack
  rw [if_neg (by decide), if_neg hbits]

end Packing

/-- What is packed in canonical form is read back. -/
theorem parts_pack {u : UnpackedFloat} (h : Canonical u) : parts (pack u) = fit u := by
  show UnpackedFloat.unpack Format.binary64 (UnpackedFloat.pack Format.binary64 u) = fit u
  cases u with
  | infinity s => exact (unpack_packComponents s _ _).trans rfl
  | notANumber => exact (unpack_packComponents .positive _ _).trans rfl
  | zero s => exact (unpack_packComponents s _ _).trans rfl
  | finite s m e hpos =>
      obtain ⟨hm, hle, hlow⟩ := h
      by_cases hfit : e ≤ 971
      · rw [fit, if_pos hfit]
        by_cases hnormal : 2 ^ 52 ≤ m
        · rw [pack_of_normal hfit (log2_eq_of_canonical hm hnormal), unpack_packComponents,
            ofFields]
          have hexp : (BitVec.ofNat 11 (e + 1075).toNat).toNat = (e + 1075).toNat := by
            rw [BitVec.toNat_ofNat]
            omega
          have hmant : (BitVec.ofNat 52 m).toNat = m - 2 ^ 52 := by
            rw [BitVec.toNat_ofNat]
            omega
          have hne (v : BitVec 11) (hv : v.toNat ≠ (e + 1075).toNat) :
              BitVec.ofNat 11 (e + 1075).toNat ≠ v := fun heq => hv (heq ▸ hexp)
          rw [if_neg (hne _ (by simp; omega)), if_neg (hne _ (by simp; omega))]
          simp only [hexp, hmant, UnpackedFloat.finite.injEq, true_and]
          omega
        · have hle : e = -1074 := hlow.resolve_left hnormal
          subst hle
          have hmant : (BitVec.ofNat 52 m).toNat = m := by
            rw [BitVec.toNat_ofNat]
            omega
          rw [pack_of_subnormal (by omega), unpack_packComponents, ofFields, if_neg (by decide),
            if_pos rfl]
          simp only [hmant, hpos, dite_true]
      · rw [pack_of_great (by omega), unpack_packComponents, fit, if_neg hfit]
        rfl

/-! ## reading -/

theorem canonical_ofFields (s : Sign) (e : BitVec 11) (m : BitVec 52) :
    Canonical (ofFields s e m) ∧ fit (ofFields s e m) = ofFields s e m := by
  have he := e.isLt
  have hm := m.isLt
  rw [ofFields]
  split
  · split <;> exact ⟨trivial, rfl⟩
  · next htop =>
    have hne_top : e.toNat ≠ 2047 := fun h => htop (BitVec.eq_of_toNat_eq h)
    split
    · split
      · exact ⟨⟨by omega, by omega, .inr rfl⟩, rfl⟩
      · exact ⟨trivial, rfl⟩
    · next hlow =>
      have hne_low : e.toNat ≠ 0 := fun h => hlow (BitVec.eq_of_toNat_eq h)
      exact ⟨⟨by omega, by omega, .inl (by omega)⟩, if_pos (by omega)⟩

theorem canonical_parts (x : Float) : Canonical (parts x) := by
  obtain ⟨s, e, m, hword⟩ := exists_fields x.toModel.toBits.toBitVec
  show Canonical (UnpackedFloat.unpack Format.binary64 x.toModel.toBits.toBitVec)
  rw [← hword, unpack_packComponents]
  exact (canonical_ofFields s e m).1

/-- The exponent of a float fits. -/
theorem fit_parts (x : Float) : fit (parts x) = parts x := by
  obtain ⟨s, e, m, hword⟩ := exists_fields x.toModel.toBits.toBitVec
  show fit (UnpackedFloat.unpack Format.binary64 x.toModel.toBits.toBitVec) =
    UnpackedFloat.unpack Format.binary64 x.toModel.toBits.toBitVec
  rw [← hword, unpack_packComponents]
  exact (canonical_ofFields s e m).2

/-- A float is determined by its parts. -/
theorem pack_parts (x : Float) : pack (parts x) = x := by
  obtain ⟨⟨bits, hvalid⟩⟩ := x
  have hbits : UnpackedFloat.pack Format.binary64
      (UnpackedFloat.unpack Format.binary64 bits.toBitVec) = bits.toBitVec :=
    UnpackedFloat.pack_unpack_of_valid hvalid
  simp only [pack, parts, Float.Model.pack, Float.Model.unpack, hbits]

/-- A finite float is a zero or a magnitude with an exponent that fits. -/
theorem parts_cases {x : Float} (hx : x.isFinite = true) : (∃ s, x = pack (.zero s)) ∨
    ∃ s m e hm, x = pack (.finite s m e hm) ∧ parts x = .finite s m e hm ∧
      Canonical (.finite s m e hm) ∧ e ≤ 971 := by
  have hcanonical := canonical_parts x
  have hfit := fit_parts x
  have hpack := pack_parts x
  have hx : (parts x).isFinite = true := hx
  cases hp : parts x with
  | infinity s => simp [hp, UnpackedFloat.isFinite] at hx
  | notANumber => simp [hp, UnpackedFloat.isFinite] at hx
  | zero s => exact .inl ⟨s, hp ▸ hpack.symm⟩
  | finite s m e hm =>
      rw [hp] at hcanonical hfit hpack
      refine .inr ⟨s, m, e, hm, hpack.symm, rfl, hcanonical, ?_⟩
      by_contra he
      simp [fit, he] at hfit

end GlyphField.Binary64
