import GlyphField.Decimal.Numeral
import GlyphField.Proofs.TextLines

/-!
# GlyphField.Proofs.NumeralGrammar

Which texts are numerals.  The reader takes a sign, digits, a point and more digits off the front
and asks what is left whether it is an exponent, so that a numeral is cut into its parts in one way.

* `IsNumeral` — the grammar;
* `takeMantissa_whole`, `takeMantissa_point` — how digits are cut off;
* `isSome_readFloat?_iff` — exactly the numerals are read.
-/

namespace GlyphField.Decimal

open GlyphField.Text (Visible isBlank)

/-! ## the grammar -/

/-- A row of digits, possibly empty. -/
def AreDigits (ds : List Char) : Prop := ∀ c ∈ ds, isDigit c = true

/-- A sign, which may be left out. -/
inductive IsSign : List Char → Prop
  | none : IsSign []
  | plus : IsSign ['+']
  | minus : IsSign ['-']

/-- Digits with an optional point, on one side of which there may be none. -/
inductive IsMantissa : List Char → Prop
  | whole {ds : List Char} (hds : AreDigits ds) (hne : ds ≠ []) : IsMantissa ds
  | point {ds fs : List Char} (hds : AreDigits ds) (hfs : AreDigits fs)
    (hne : ds ≠ [] ∨ fs ≠ []) : IsMantissa (ds ++ '.' :: fs)

/-- An exponent, which may be left out. -/
inductive IsExponent : List Char → Prop
  | none : IsExponent []
  | some {c : Char} {sign ds : List Char} (hc : c = 'e' ∨ c = 'E') (hsign : IsSign sign)
    (hds : AreDigits ds) (hne : ds ≠ []) : IsExponent (c :: (sign ++ ds))

/-- A word for what is not finite, in any case. -/
def IsWordNumeral (w : List Char) : Prop :=
  lowerCase w = "inf".toList ∨ lowerCase w = "infinity".toList ∨ lowerCase w = "nan".toList

/-- A numeral: a number in decimal notation, or a word for one that is not finite. -/
inductive IsNumeral : List Char → Prop
  | word {sign w : List Char} (hsign : IsSign sign) (hw : IsWordNumeral w) : IsNumeral (sign ++ w)
  | number {sign mantissa exponent : List Char} (hsign : IsSign sign)
    (hmantissa : IsMantissa mantissa) (hexponent : IsExponent exponent) :
    IsNumeral (sign ++ (mantissa ++ exponent))

/-! ## signs -/

section Signs

variable {cs sign : List Char}

theorem exists_sign (cs : List Char) : ∃ sign, IsSign sign ∧ cs = sign ++ (takeSign cs).2 := by
  unfold takeSign
  split
  · exact ⟨_, .plus, rfl⟩
  · exact ⟨_, .minus, rfl⟩
  · exact ⟨_, .none, rfl⟩

theorem takeSign_of_head? (hplus : cs.head? ≠ some '+') (hminus : cs.head? ≠ some '-') :
    takeSign cs = (false, cs) := by
  unfold takeSign
  split <;> simp_all

/-- A sign is cut off from what has none. -/
theorem takeSign_append (hsign : IsSign sign) (hplus : cs.head? ≠ some '+')
    (hminus : cs.head? ≠ some '-') : (takeSign (sign ++ cs)).2 = cs := by
  cases hsign with
  | none => exact congrArg Prod.snd (takeSign_of_head? hplus hminus)
  | plus => rfl
  | minus => rfl

end Signs

/-! ## exponents -/

theorem head?_of_areDigits {ds : List Char} (hds : AreDigits ds) {c : Char}
    (hc : isDigit c = false) : ds.head? ≠ some c := by
  intro hhead
  have hdigit := hds c (List.mem_of_head? hhead)
  rw [hc] at hdigit
  cases hdigit

theorem isSome_readExponent?_iff {cs : List Char} :
    (readExponent? cs).isSome = true ↔ IsExponent cs := by
  cases cs with
  | nil => exact iff_of_true rfl .none
  | cons c cs =>
      constructor
      · intro h
        simp only [readExponent?] at h
        split at h
        · next hc =>
          split at h
          · cases h
          · next hds =>
            obtain ⟨sign, hsign, hcs⟩ := exists_sign cs
            simp only [Bool.or_eq_true, not_or, Bool.not_eq_true, List.isEmpty_eq_false_iff,
              Bool.not_eq_false', List.all_eq_true] at hds
            rw [hcs]
            exact .some hc hsign hds.2 hds.1
        · cases h
      · intro h
        cases h with
        | @some _ sign ds hc hsign hds hne =>
            have hcut := takeSign_append hsign (head?_of_areDigits hds (c := '+') rfl)
              (head?_of_areDigits hds (c := '-') rfl)
            have hall : ds.all isDigit = true := List.all_eq_true.2 hds
            simp [readExponent?, hc, hcut, hne, hall]

/-! ## digits and a point -/

section Mantissas

variable {ds fs rest cs : List Char}

theorem takeWhile_digits (hds : AreDigits ds) (hrest : ∀ c, rest.head? = some c → isDigit c = false) :
    (ds ++ rest).takeWhile isDigit = ds ∧ (ds ++ rest).dropWhile isDigit = rest := by
  rw [List.takeWhile_append_of_pos hds, List.dropWhile_append_of_pos hds]
  cases rest with
  | nil => simp
  | cons c rest => simp [hrest c rfl]

theorem takeMantissa_whole (hds : AreDigits ds)
    (hrest : ∀ c, rest.head? = some c → isDigit c = false) (hpoint : rest.head? ≠ some '.') :
    takeMantissa (ds ++ rest) = (ds, [], rest) := by
  obtain ⟨htake, hdrop⟩ := takeWhile_digits hds hrest
  simp only [takeMantissa, htake, hdrop]
  split
  · exact absurd rfl hpoint
  · rfl

theorem takeMantissa_point (hds : AreDigits ds) (hfs : AreDigits fs)
    (hrest : ∀ c, rest.head? = some c → isDigit c = false) :
    takeMantissa (ds ++ '.' :: (fs ++ rest)) = (ds, fs, rest) := by
  have hpoint : ∀ c, ('.' :: (fs ++ rest)).head? = some c → isDigit c = false := by simp [isDigit]
  obtain ⟨htake, hdrop⟩ := takeWhile_digits hds hpoint
  obtain ⟨htake', hdrop'⟩ := takeWhile_digits hfs hrest
  simp only [takeMantissa, htake, hdrop, htake', hdrop']

theorem areDigits_takeWhile (cs : List Char) : AreDigits (cs.takeWhile isDigit) :=
  fun _ => List.mem_takeWhile_imp

/-- A text is what is cut off and what is left of it. -/
theorem takeMantissa_cases (cs : List Char) : ∃ ds fs rest, takeMantissa cs = (ds, fs, rest) ∧
    AreDigits ds ∧ AreDigits fs ∧ (cs = ds ++ rest ∧ fs = [] ∨ cs = ds ++ '.' :: (fs ++ rest)) := by
  have hcut := List.takeWhile_append_dropWhile (p := isDigit) (l := cs)
  unfold takeMantissa
  split
  · next rest hdrop =>
    refine ⟨_, _, _, rfl, areDigits_takeWhile cs, areDigits_takeWhile rest, .inr ?_⟩
    rw [List.takeWhile_append_dropWhile, ← hdrop, hcut]
  · exact ⟨_, _, _, rfl, areDigits_takeWhile cs, fun _ hc => absurd hc List.not_mem_nil,
      .inl ⟨hcut.symm, rfl⟩⟩

theorem head?_exponent {exponent : List Char} (h : IsExponent exponent) {c : Char}
    (hc : exponent.head? = some c) : isDigit c = false ∧ c ≠ '.' := by
  cases h with
  | none => cases hc
  | some he =>
      obtain rfl := Option.some.inj hc
      obtain rfl | rfl := he <;> decide

theorem takeMantissa_append {mantissa exponent : List Char} (hm : IsMantissa mantissa)
    (he : IsExponent exponent) : ∃ ds fs, takeMantissa (mantissa ++ exponent) = (ds, fs, exponent) ∧
      (ds ≠ [] ∨ fs ≠ []) := by
  have hdigit (c : Char) (hc : exponent.head? = some c) : isDigit c = false :=
    (head?_exponent he hc).1
  cases hm with
  | whole hds hne =>
      exact ⟨_, _, takeMantissa_whole hds hdigit fun hc => (head?_exponent he hc).2 rfl, .inl hne⟩
  | @point ds fs hds hfs hne =>
      refine ⟨ds, fs, ?_, hne⟩
      rw [List.append_assoc, List.cons_append]
      exact takeMantissa_point hds hfs hdigit

theorem isSome_readLiteral?_iff {negative : Bool} : (readLiteral? negative cs).isSome = true ↔
    ∃ mantissa exponent, IsMantissa mantissa ∧ IsExponent exponent ∧ cs = mantissa ++ exponent := by
  constructor
  · intro h
    obtain ⟨ds, fs, rest, hcut, hds, hfs, hcs⟩ := takeMantissa_cases cs
    simp only [readLiteral?, hcut] at h
    split at h
    · cases h
    · next hne =>
      rw [Option.isSome_map, isSome_readExponent?_iff] at h
      simp only [Bool.and_eq_true, List.isEmpty_iff, not_and_or] at hne
      obtain ⟨rfl, rfl⟩ | rfl := hcs
      · exact ⟨ds, rest, .whole hds (hne.resolve_right (by simp)), h, rfl⟩
      · exact ⟨ds ++ '.' :: fs, rest, .point hds hfs hne, h, by simp⟩
  · rintro ⟨mantissa, exponent, hm, he, rfl⟩
    obtain ⟨ds, fs, hcut, hne⟩ := takeMantissa_append hm he
    simp only [readLiteral?, hcut]
    have hempty : ¬(ds.isEmpty && fs.isEmpty) = true := by
      simp only [Bool.and_eq_true, List.isEmpty_iff, not_and_or]
      exact hne
    rw [if_neg hempty, Option.isSome_map]
    exact isSome_readExponent?_iff.2 he

end Mantissas

/-! ## numerals -/

theorem length_of_isWordNumeral {w : List Char} (h : IsWordNumeral w) : w.length ≤ 8 := by
  have hlen : (lowerCase w).length = w.length := List.length_map _
  rw [← hlen]
  obtain h | h | h := h <;> rw [h] <;> decide

theorem readFloat?_of_isWordNumeral {cs : List Char} (h : IsWordNumeral (takeSign cs).2) :
    (readFloat? cs).isSome = true := by
  obtain ⟨negative, body, hcut⟩ : ∃ negative body, takeSign cs = (negative, body) := ⟨_, _, rfl⟩
  rw [hcut] at h
  have hlen := length_of_isWordNumeral h
  rw [readFloat?, hcut]
  obtain h | h | h := h
  · simp only [h, hlen, decide_true, Bool.true_or, Bool.and_self, if_true, Option.isSome_some]
  · simp only [h, hlen, decide_true, Bool.or_true, Bool.and_self, if_true, Option.isSome_some]
  · simp only [h, hlen, decide_true, Bool.and_self, if_true]
    split <;> rfl

/-- What is no word is read as a literal. -/
theorem readFloat?_of_not_isWordNumeral {cs : List Char} (h : ¬IsWordNumeral (takeSign cs).2) :
    readFloat? cs = (readLiteral? (takeSign cs).1 (takeSign cs).2).map Literal.toFloat := by
  obtain ⟨negative, body, hcut⟩ : ∃ negative body, takeSign cs = (negative, body) := ⟨_, _, rfl⟩
  rw [hcut] at h ⊢
  rw [readFloat?, hcut]
  simp only [IsWordNumeral, not_or] at h
  simp only [h.1, h.2.1, h.2.2, decide_false, Bool.or_self, Bool.and_false, Bool.false_eq_true,
    if_false]

theorem isSome_readFloat?_eq (cs : List Char) : (readFloat? cs).isSome = true ↔
    IsWordNumeral (takeSign cs).2 ∨ (readLiteral? (takeSign cs).1 (takeSign cs).2).isSome = true := by
  by_cases h : IsWordNumeral (takeSign cs).2
  · exact iff_of_true (readFloat?_of_isWordNumeral h) (.inl h)
  · rw [readFloat?_of_not_isWordNumeral h, Option.isSome_map, or_iff_right h]

theorem toLower_head_of_isWordNumeral {c : Char} {cs : List Char} (h : IsWordNumeral (c :: cs)) :
    c.toLower = 'i' ∨ c.toLower = 'n' := by
  have hcons : lowerCase (c :: cs) = c.toLower :: lowerCase cs := rfl
  obtain h | h | h := h
  · exact .inl (List.cons.inj (hcons.symm.trans h)).1
  · exact .inl (List.cons.inj (hcons.symm.trans h)).1
  · exact .inr (List.cons.inj (hcons.symm.trans h)).1

/-- No word starts with a sign, since letters of either case are not signs. -/
theorem head?_of_isWordNumeral {w : List Char} (h : IsWordNumeral w) {c : Char}
    (hc : c = '+' ∨ c = '-') : w.head? ≠ some c := by
  intro hhead
  obtain ⟨cs, rfl⟩ := List.head?_eq_some_iff.1 hhead
  have hletter := toLower_head_of_isWordNumeral h
  obtain rfl | rfl := hc <;> revert hletter <;> decide

/-- No word starts with a digit, since digits have no case. -/
theorem not_isWordNumeral_of_isDigit {c : Char} (hc : isDigit c = true) (cs : List Char) :
    ¬IsWordNumeral (c :: cs) := by
  intro h
  have hlower : c.toLower = c := by
    simp only [isDigit, Bool.and_eq_true, decide_eq_true_eq] at hc
    unfold Char.toLower
    split
    · next hupper =>
      have hle : 'A' ≤ '9' := Char.le_trans hupper.1 hc.2
      exact absurd hle (by decide)
    · rfl
  have hletter := toLower_head_of_isWordNumeral h
  rw [hlower] at hletter
  obtain rfl | rfl := hletter <;> cases hc

theorem head?_of_isMantissa {mantissa : List Char} (h : IsMantissa mantissa) (rest : List Char)
    {c : Char} (hc : isDigit c = false) (hpoint : c ≠ '.') :
    (mantissa ++ rest).head? ≠ some c := by
  cases h with
  | whole hds hne =>
      rw [List.head?_append_of_ne_nil _ hne]
      exact head?_of_areDigits hds hc
  | @point ds fs hds hfs hne =>
      cases ds with
      | nil => simpa using hpoint.symm
      | cons d ds =>
          have hd : d ≠ c := fun h => head?_of_areDigits hds hc (congrArg some h)
          simpa using hd

/-- **Numerals.**  Exactly these are read as a float. -/
theorem isSome_readFloat?_iff {cs : List Char} : (readFloat? cs).isSome = true ↔ IsNumeral cs := by
  rw [isSome_readFloat?_eq, isSome_readLiteral?_iff]
  constructor
  · obtain ⟨sign, hsign, hcs⟩ := exists_sign cs
    rintro (hword | ⟨mantissa, exponent, hm, he, hbody⟩)
    · rw [hcs]
      exact .word hsign hword
    · rw [hcs, hbody]
      exact .number hsign hm he
  · intro h
    cases h with
    | word hsign hw =>
        rw [takeSign_append hsign (head?_of_isWordNumeral hw (.inl rfl))
          (head?_of_isWordNumeral hw (.inr rfl))]
        exact .inl hw
    | number hsign hm he =>
        rw [takeSign_append hsign (head?_of_isMantissa hm _ rfl (by decide))
          (head?_of_isMantissa hm _ rfl (by decide))]
        exact .inr ⟨_, _, hm, he, rfl⟩

/-! ## the characters of numerals -/

section Characters

variable {c : Char} {cs : List Char}

/-- The signs, the point, and the letters of words and exponents. -/
def numeralMarks : List Char := ['+', '-', '.', 'e', 'i', 'n', 'f', 't', 'y', 'a']

/-- A digit, or one of these in either case. -/
def isNumeralChar (c : Char) : Bool := isDigit c || numeralMarks.contains c.toLower

/-- Whether a text has only characters of numerals. -/
def AreNumeralChars (cs : List Char) : Prop := ∀ c ∈ cs, isNumeralChar c = true

theorem AreNumeralChars.append {ds : List Char} (h : AreNumeralChars cs)
    (h' : AreNumeralChars ds) : AreNumeralChars (cs ++ ds) :=
  List.forall_mem_append.2 ⟨h, h'⟩

theorem areNumeralChars_of_areDigits (h : AreDigits cs) : AreNumeralChars cs :=
  fun c hc => Bool.or_eq_true_iff.2 (.inl (h c hc))

theorem areNumeralChars_of_isSign (h : IsSign cs) : AreNumeralChars cs := by
  cases h <;> simp [AreNumeralChars] <;> decide

theorem areNumeralChars_of_isWordNumeral (h : IsWordNumeral cs) : AreNumeralChars cs := by
  intro c hc
  have hmem : c.toLower ∈ lowerCase cs := List.mem_map_of_mem hc
  have hmarks : (lowerCase cs).all numeralMarks.contains = true := by
    obtain h | h | h := h <;> rw [h] <;> decide
  exact Bool.or_eq_true_iff.2 (.inr (List.all_eq_true.1 hmarks _ hmem))

theorem areNumeralChars_of_isMantissa (h : IsMantissa cs) : AreNumeralChars cs := by
  cases h with
  | whole hds _ => exact areNumeralChars_of_areDigits hds
  | point hds hfs _ =>
      exact (areNumeralChars_of_areDigits hds).append
        (List.forall_mem_cons.2 ⟨by decide, areNumeralChars_of_areDigits hfs⟩)

theorem areNumeralChars_of_isExponent (h : IsExponent cs) : AreNumeralChars cs := by
  cases h with
  | none => exact fun c hc => absurd hc List.not_mem_nil
  | some he hsign hds _ =>
      refine List.forall_mem_cons.2 ⟨?_,
        (areNumeralChars_of_isSign hsign).append (areNumeralChars_of_areDigits hds)⟩
      obtain rfl | rfl := he <;> decide

/-- A numeral has none but these characters. -/
theorem areNumeralChars_of_isNumeral (h : IsNumeral cs) : AreNumeralChars cs := by
  cases h with
  | word hsign hw =>
      exact (areNumeralChars_of_isSign hsign).append (areNumeralChars_of_isWordNumeral hw)
  | number hsign hm he =>
      exact (areNumeralChars_of_isSign hsign).append
        ((areNumeralChars_of_isMantissa hm).append (areNumeralChars_of_isExponent he))

theorem isBlank_of_isDigit (h : isDigit c = true) : isBlank c = false := by
  simp only [isDigit, Bool.and_eq_true, decide_eq_true_eq, Char.le_def,
    UInt32.le_iff_toNat_le] at h
  exact Text.isBlank_eq_false (le_trans (by decide) h.1) (le_trans h.2 (by decide))

/-- A blank is no letter. -/
theorem toLower_of_isBlank (h : isBlank c = true) : c.toLower = c := by
  unfold Char.toLower
  split
  · next hupper =>
    have hlow : 0x21 ≤ c.toNat := le_trans (by decide) (UInt32.le_iff_toNat_le.1 hupper.1)
    have hhigh : c.toNat ≤ 0x7E := le_trans (UInt32.le_iff_toNat_le.1 hupper.2) (by decide)
    rw [Text.isBlank_eq_false hlow hhigh] at h
    cases h
  · rfl

theorem isBlank_of_isNumeralChar (h : isNumeralChar c = true) : isBlank c = false := by
  have hmarks : numeralMarks.any isBlank = false := by decide
  by_contra hblank
  have hblank : isBlank c = true := by simpa using hblank
  rw [isNumeralChar, toLower_of_isBlank hblank, Bool.or_eq_true_iff, List.contains_iff_mem] at h
  have hvisible : isBlank c = false :=
    h.elim isBlank_of_isDigit fun hmem => eq_false_of_ne_true (List.any_eq_false.1 hmarks c hmem)
  rw [hvisible] at hblank
  cases hblank

/-- There are no blanks in a numeral. -/
theorem visible_of_isNumeral (h : IsNumeral cs) : Visible cs :=
  fun c hc => isBlank_of_isNumeralChar (areNumeralChars_of_isNumeral h c hc)

end Characters

end GlyphField.Decimal
