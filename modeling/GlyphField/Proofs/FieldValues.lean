import GlyphField.Glyph.Reader
import GlyphField.Proofs.FloatOrder
import GlyphField.Proofs.TextLines

/-!
# GlyphField.Proofs.FieldValues

What the checks of the fields accept.

* `GlyphId.isValid_iff` — a valid id is a word of one to 64 characters;
* `GlyphId.check_eq_ok_iff` — no valid id is path-like, so that the check accepts the valid ones;
* `NumberField.read_eq_ok_iff`, `TextField.read_eq_ok_iff`, `readQuantumState_eq_ok_iff`,
  `readParents_eq_ok_iff` — the accepted values of each kind of field.
-/

namespace GlyphField

/-! ## sizes of texts -/

theorem utf8ByteSize_ofList_cons (c : Char) (cs : List Char) :
    (String.ofList (c :: cs)).utf8ByteSize = c.utf8Size + (String.ofList cs).utf8ByteSize := by
  rw [← List.singleton_append, String.ofList_append, String.utf8ByteSize_append]
  simp

theorem length_le_utf8ByteSize (cs : List Char) : cs.length ≤ (String.ofList cs).utf8ByteSize := by
  induction cs with
  | nil => exact Nat.zero_le _
  | cons c cs ih =>
      have hpos := c.utf8Size_pos
      rw [utf8ByteSize_ofList_cons, List.length_cons]
      omega

theorem utf8ByteSize_le_mul_length (cs : List Char) :
    (String.ofList cs).utf8ByteSize ≤ 4 * cs.length := by
  induction cs with
  | nil => simp
  | cons c cs ih =>
      have hle := c.utf8Size_le_four
      rw [utf8ByteSize_ofList_cons, List.length_cons]
      omega

/-- A text of ASCII has as many bytes as characters. -/
theorem utf8ByteSize_eq_length {cs : List Char} (h : ∀ c ∈ cs, c.toNat < 128) :
    (String.ofList cs).utf8ByteSize = cs.length := by
  induction cs with
  | nil => rfl
  | cons c cs ih =>
      obtain ⟨hc, hcs⟩ := List.forall_mem_cons.1 h
      have hsize : c.utf8Size = 1 :=
        Char.utf8Size_eq_one_iff.2 (UInt32.le_iff_toNat_le.2 (Nat.le_of_lt_succ hc))
      rw [utf8ByteSize_ofList_cons, ih hcs, hsize, List.length_cons, Nat.add_comm]

/-! ## ids -/

namespace GlyphId

/-- A word of one to 64 letters, digits, underscores and dashes. -/
structure IsWord (id : String) : Prop where
  pos : 1 ≤ id.length
  le : id.length ≤ 64
  chars : ∀ c ∈ id.toList, isIdChar c = true

theorem toNat_of_isIdChar {c : Char} (h : isIdChar c = true) :
    (97 ≤ c.toNat ∧ c.toNat ≤ 122) ∨ (65 ≤ c.toNat ∧ c.toNat ≤ 90) ∨
      (48 ≤ c.toNat ∧ c.toNat ≤ 57) ∨ c.toNat = 95 ∨ c.toNat = 45 := by
  simp only [isIdChar, Bool.or_eq_true, Bool.and_eq_true, decide_eq_true_eq, Char.le_def,
    UInt32.le_iff_toNat_le] at h
  obtain (((h | h) | h) | rfl) | rfl := h
  · exact .inl h
  · exact .inr (.inl h)
  · exact .inr (.inr (.inl h))
  · exact .inr (.inr (.inr (.inl rfl)))
  · exact .inr (.inr (.inr (.inr rfl)))

theorem isBlank_of_isIdChar {c : Char} (h : isIdChar c = true) : Text.isBlank c = false := by
  have := toNat_of_isIdChar h
  exact Text.isBlank_eq_false (by omega) (by omega)

theorem IsWord.not_mem {id : String} (h : IsWord id) {c : Char} (hc : isIdChar c = false) :
    c ∉ id.toList := by
  intro hmem
  rw [h.chars c hmem] at hc
  cases hc

theorem IsWord.visible {id : String} (h : IsWord id) : Text.Visible id.toList :=
  fun c hc => isBlank_of_isIdChar (h.chars c hc)

theorem isValid_iff {id : String} : isValid id = true ↔ IsWord id := by
  have hsize (h : ∀ c ∈ id.toList, isIdChar c = true) : id.utf8ByteSize = id.length := by
    have hascii : ∀ c ∈ id.toList, c.toNat < 128 := by
      intro c hc
      have := toNat_of_isIdChar (h c hc)
      omega
    have hbytes := utf8ByteSize_eq_length hascii
    rwa [String.ofList_toList, String.length_toList] at hbytes
  have hempty : id.isEmpty = false ↔ 1 ≤ id.length := by
    rw [← Bool.not_eq_true, String.isEmpty_iff, ← String.length_eq_zero_iff]
    omega
  have hvalid : isValid id = true ↔
      (id.isEmpty = false ∧ id.utf8ByteSize ≤ maxBytes) ∧ ∀ c ∈ id.toList, isIdChar c = true := by
    simp [isValid]
  rw [hvalid, hempty]
  constructor
  · rintro ⟨⟨hpos, hle⟩, hchars⟩
    exact ⟨hpos, hsize hchars ▸ hle, hchars⟩
  · rintro ⟨hpos, hle, hchars⟩
    exact ⟨⟨hpos, (hsize hchars).trans_le hle⟩, hchars⟩

/-- No word could be a path. -/
theorem isPathLike_of_isWord {id : String} (h : IsWord id) : isPathLike id = false := by
  have hdouble {cs : List Char} (hcs : '.' ∉ cs) : hasDoublePoint cs = false := by
    induction cs with
    | nil => rfl
    | cons c cs ih =>
        obtain ⟨hc, hcs⟩ := not_or.1 (mt List.mem_cons.2 hcs)
        unfold hasDoublePoint
        split
        · simp_all
        · simp_all
        · simp_all
  have hcontrol : id.toList.any Text.isControl = false := by
    rw [List.any_eq_false]
    intro c hc hcontrol
    have := toNat_of_isIdChar (h.chars c hc)
    simp [Text.isControl] at hcontrol
    omega
  simp [isPathLike, hdouble (h.not_mem (c := '.') rfl), h.not_mem (c := '/') rfl,
    h.not_mem (c := '\\') rfl, hcontrol]

theorem check_eq_ok_iff {id : String} : check id = .ok () ↔ IsWord id := by
  unfold check
  constructor
  · intro h
    split at h
    · cases h
    · split at h
      · next hvalid => exact isValid_iff.1 hvalid
      · cases h
  · intro h
    rw [if_neg (by simp [isPathLike_of_isWord h]), if_pos (isValid_iff.2 h)]

theorem forM_check_eq_ok_iff {ids : List String} :
    ids.forM check = .ok () ↔ ∀ id ∈ ids, IsWord id := by
  induction ids with
  | nil => simp [pure, Except.pure]
  | cons id ids ih =>
      have hstep : (id :: ids).forM check = (check id >>= fun _ => ids.forM check) := rfl
      rw [hstep, List.forall_mem_cons, ← check_eq_ok_iff, ← ih]
      cases check id <;> simp [bind, Except.bind]

end GlyphId

/-! ## values -/

/-- The bounds of a numeric field are numbers. -/
theorem NumberField.isNaN_range (f : NumberField) :
    f.range.1.isNaN = false ∧ f.range.2.isNaN = false := by
  cases f <;> decide +kernel

theorem NumberField.read_eq_ok_iff {f : NumberField} {value : List Char} {x : Float} :
    f.read value = .ok x ↔
      Decimal.readFloat? value = some x ∧ x.isFinite = true ∧ f.range.1 ≤ x ∧ x ≤ f.range.2 := by
  obtain ⟨hlo, hhi⟩ := f.isNaN_range
  have hrange {y : Float} (hy : y.isFinite = true) :
      (y < f.range.1 || f.range.2 < y) = true ↔ ¬(f.range.1 ≤ y ∧ y ≤ f.range.2) := by
    have hnumber := Binary64.isNaN_eq_false_of_isFinite hy
    rw [← Binary64.not_lt_iff_le hnumber hlo, ← Binary64.not_lt_iff_le hhi hnumber, ← not_or,
      not_not]
    simp
  unfold NumberField.read
  cases Decimal.readFloat? value with
  | none => simp
  | some y =>
      rw [Option.some.injEq]
      by_cases hy : y.isFinite = true
      · simp only [hy, Bool.not_true, Bool.false_eq_true, if_false, hrange hy]
        split
        · next hout =>
          refine iff_of_false (by simp) ?_
          rintro ⟨rfl, -, hin⟩
          exact hout hin
        · next hin =>
          rw [Except.ok.injEq]
          refine ⟨?_, And.left⟩
          rintro rfl
          exact ⟨rfl, hy, not_not.1 hin⟩
      · refine iff_of_false (by simp [hy]) ?_
        rintro ⟨rfl, hfinite, -⟩
        exact hy hfinite

theorem TextField.read_eq_ok_iff {f : TextField} {value : List Char} {s : String} :
    f.read value = .ok s ↔ String.ofList value = s ∧ s.utf8ByteSize ≤ f.maxBytes := by
  simp only [TextField.read]
  split
  · next h =>
    refine iff_of_false (by simp) ?_
    rintro ⟨rfl, hle⟩
    omega
  · next h =>
    rw [Except.ok.injEq]
    refine ⟨?_, And.left⟩
    rintro rfl
    exact ⟨rfl, Nat.le_of_not_lt h⟩

namespace Glyph

theorem readQuantumState_eq_ok_iff {value : List Char} {n : UInt8} :
    readQuantumState value = .ok n ↔
      Decimal.readInt? maxWhole value = some (n.toNat : Int) ∧ n.toNat ≤ maxQuantumState := by
  unfold readQuantumState
  cases Decimal.readInt? maxWhole value with
  | none => simp
  | some k =>
      simp only [Option.some.injEq]
      split
      · next h =>
        obtain ⟨hnonneg, hle⟩ := h
        have hnat : k.toNat.toUInt8.toNat = k.toNat := by
          simp [maxQuantumState] at hle ⊢
          omega
        rw [Except.ok.injEq]
        constructor
        · rintro rfl
          omega
        · rintro ⟨rfl, -⟩
          simp
      · next h =>
        refine iff_of_false (by simp) ?_
        rintro ⟨rfl, hle⟩
        omega

theorem readParents_eq_ok_iff {value : List Char} {ids : List String} :
    readParents value = .ok ids ↔
      parentIds value = ids ∧ ids.length ≤ maxParents ∧ ∀ id ∈ ids, GlyphId.IsWord id := by
  simp only [readParents, ← GlyphId.forM_check_eq_ok_iff]
  split
  · next h =>
    refine iff_of_false (by simp) ?_
    rintro ⟨rfl, hle, -⟩
    omega
  · next h =>
    constructor
    · intro hok
      cases hcheck : (parentIds value).forM GlyphId.check with
      | error e => simp [hcheck, bind, Except.bind] at hok
      | ok u =>
          obtain rfl : parentIds value = ids := by
            simpa [hcheck, bind, Except.bind, pure, Except.pure] using hok
          exact ⟨rfl, Nat.le_of_not_lt h, hcheck⟩
    · rintro ⟨rfl, -, hcheck⟩
      simp [hcheck, bind, Except.bind, pure, Except.pure]

end Glyph

end GlyphField
