import GlyphField.Proofs.DecimalText
import GlyphField.Proofs.DefinitionLines
import GlyphField.Proofs.NumeralGrammar

/-!
# GlyphField.Proofs.DefinitionImage

The glyphs that definition texts can declare.  What is read has passed its checks, and its texts
come from trimmed parts of single lines.  Conversely every glyph that meets these conditions is
read from a text with one line for each field: no value of it can be taken for a comment, a second
colon is part of the value, and all the lines together stay far below the largest size.

* `isDefinition_of_read` — what is read;
* `read_definitionText` — the text of a glyph;
* `read_image` — both.
-/

namespace GlyphField.Glyph

open GlyphField.Text (IsTrimmed trim split isBlank)

/-- Whether a glyph meets the conditions on its fields. -/
structure IsDefinition (g : Glyph) : Prop where
  id : GlyphId.IsWord g.id
  parents_length : g.parents.length ≤ maxParents
  parents : ∀ p ∈ g.parents, GlyphId.IsWord p
  number : ∀ f x, g.number f = some x → x.isFinite = true ∧ f.range.1 ≤ x ∧ x ≤ f.range.2
  quantumState : ∀ n, g.quantumState = some n → n.toNat ≤ maxQuantumState
  trimmed : ∀ f, IsTrimmed (g.text f).toList
  oneLine : ∀ f, '\n' ∉ (g.text f).toList
  size : ∀ f, (g.text f).utf8ByteSize ≤ f.maxBytes

/-! ## what is read -/

theorem read_eq_ok_iff {text : String} {g : Glyph} : read text = .ok g ↔
    text.utf8ByteSize ≤ maxDefinitionBytes ∧ result (pairs text) = .ok g := by
  by_cases h : text.utf8ByteSize ≤ maxDefinitionBytes
  · simp [read_eq_result h, h]
  · simp [read, Nat.lt_of_not_le h, h]

theorem exists_ok_of_faultOf {α : Type} {r : Except ReadError α} (h : faultOf r = none) :
    ∃ a, r = .ok a := by
  cases r with
  | error err => cases h
  | ok a => exact ⟨a, rfl⟩

theorem eq_ok_of_toOption {α : Type} {r : Except ReadError α} {a : α}
    (h : r.toOption = some a) : r = .ok a := by
  cases r with
  | error err => cases h
  | ok b => exact congrArg Except.ok (Option.some.inj h)

theorem mem_of_lastValue {f : Field} {es : List Entry} {v : List Char}
    (h : lastValue f es = some v) : (⟨f, v⟩ : Entry) ∈ es := by
  obtain ⟨e, hfind, rfl⟩ := Option.map_eq_some_iff.1 h
  obtain rfl : e.field = f := by simpa using List.find?_some hfind
  exact List.mem_reverse.1 (List.mem_of_find?_eq_some hfind)

/-- A value is a trimmed part of one line. -/
theorem value_of_mem_pairs {text : String} {e : Entry} (h : e ∈ pairs text) :
    IsTrimmed e.value ∧ '\n' ∉ e.value := by
  rw [← entries_eq_pairs, entries, List.mem_filterMap] at h
  obtain ⟨line, hline, hentry⟩ := h
  simp only [Entry.ofLine?] at hentry
  split at hentry
  · cases hentry
  · obtain ⟨⟨key, value⟩, hcut, hentry⟩ := Option.bind_eq_some_iff.1 hentry
    obtain ⟨f, -, rfl⟩ := Option.map_eq_some_iff.1 hentry
    obtain ⟨htext, -⟩ := Text.cut?_eq_some_iff.1 hcut
    refine ⟨Text.isTrimmed_trim value, fun hmem => Text.not_mem_of_mem_split hline ?_⟩
    refine Text.mem_of_mem_trim (htext ▸ ?_)
    simp [Text.mem_of_mem_trim hmem]

section Read

variable {es : List Entry} (hfault : ∀ e ∈ es, e.fault? = none)
include hfault

theorem parents_of_faultless : (ofPairs es).parents.length ≤ maxParents ∧
    ∀ p ∈ (ofPairs es).parents, GlyphId.IsWord p := by
  rw [parents_ofPairs]
  cases hlast : lastValue .parents es with
  | none => simp
  | some v =>
      obtain ⟨ids, hids⟩ := exists_ok_of_faultOf (hfault _ (mem_of_lastValue hlast))
      obtain ⟨rfl, hids⟩ := readParents_eq_ok_iff.1 hids
      exact hids

theorem size_of_faultless (f : TextField) : ((ofPairs es).text f).utf8ByteSize ≤ f.maxBytes := by
  rw [text_ofPairs]
  cases hlast : lastValue (.text f) es with
  | none => exact Nat.zero_le _
  | some v =>
      obtain ⟨s, hs⟩ := exists_ok_of_faultOf (hfault _ (mem_of_lastValue hlast))
      obtain ⟨rfl, hs⟩ := TextField.read_eq_ok_iff.1 hs
      exact hs

end Read

theorem isDefinition_of_read {text : String} {g : Glyph} (h : read text = .ok g) :
    g.IsDefinition := by
  obtain ⟨-, hresult⟩ := read_eq_ok_iff.1 h
  obtain ⟨hfault, hid, rfl⟩ := result_eq_ok_iff.1 hresult
  obtain ⟨hlength, hwords⟩ := parents_of_faultless hfault
  have htext (f : TextField) : IsTrimmed ((ofPairs (pairs text)).text f).toList ∧
      '\n' ∉ ((ofPairs (pairs text)).text f).toList := by
    rw [text_ofPairs, String.toList_ofList]
    cases hlast : lastValue (.text f) (pairs text) with
    | none => exact ⟨Text.isTrimmed_of_forall (fun _ hc => absurd hc List.not_mem_nil), List.not_mem_nil⟩
    | some v => exact value_of_mem_pairs (mem_of_lastValue hlast)
  refine ⟨hid, hlength, hwords, fun f x hx => ?_, fun n hn => ?_, fun f => (htext f).1,
    fun f => (htext f).2, size_of_faultless hfault⟩
  · rw [number_ofPairs] at hx
    obtain ⟨v, -, hx⟩ := Option.bind_eq_some_iff.1 hx
    exact (NumberField.read_eq_ok_iff.1 (eq_ok_of_toOption hx)).2
  · rw [quantumState_ofPairs] at hn
    obtain ⟨v, -, hn⟩ := Option.bind_eq_some_iff.1 hn
    exact (readQuantumState_eq_ok_iff.1 (eq_ok_of_toOption hn)).2

/-! ## the text of a glyph -/

/-- The value to declare for a field. -/
def declaration? (g : Glyph) : Field → Option (List Char)
  | .id => some g.id.toList
  | .parents => some ((g.parents.map String.toList).flatMap (· ++ [',']))
  | .number f => (g.number f).map Decimal.decimal
  | .quantumState => g.quantumState.map fun n => Nat.toDigits 10 n.toNat
  | .text f => some (g.text f).toList

/-- The declarations of some fields. -/
def declarationsOf (g : Glyph) (fs : List Field) : List Entry :=
  fs.filterMap fun f => (g.declaration? f).map fun v => ⟨f, v⟩

/-- The line of a declaration. -/
def Entry.line (e : Entry) : List Char := e.field.name.toList ++ ':' :: e.value

/-- A text that declares the fields of a glyph. -/
def definitionText (g : Glyph) : String :=
  String.ofList (((g.declarationsOf Field.all).map Entry.line).flatMap (· ++ ['\n']))

section Rendering

variable {g : Glyph}

theorem mem_declarationsOf {e : Entry} {fs : List Field} (h : e ∈ g.declarationsOf fs) :
    e.field ∈ fs ∧ g.declaration? e.field = some e.value := by
  obtain ⟨f, hf, hmap⟩ := List.mem_filterMap.1 h
  obtain ⟨v, hv, rfl⟩ := Option.map_eq_some_iff.1 hmap
  exact ⟨hf, hv⟩

theorem declarationsOf_cons (f : Field) (fs : List Field) : g.declarationsOf (f :: fs) =
    ((g.declaration? f).map fun v => ⟨f, v⟩).toList ++ g.declarationsOf fs := by
  cases h : g.declaration? f <;> simp [declarationsOf, h]

theorem lastValue_append (f : Field) (es es' : List Entry) :
    lastValue f (es ++ es') = (lastValue f es').or (lastValue f es) := by
  simp [lastValue, List.find?_append, Option.map_or]

/-- Every field is declared once. -/
theorem lastValue_declarationsOf {fs : List Field} (hfs : fs.Nodup) (f : Field) :
    lastValue f (g.declarationsOf fs) = if f ∈ fs then g.declaration? f else none := by
  induction fs with
  | nil => rfl
  | cons f' fs ih =>
      obtain ⟨hnot, hfs⟩ := List.nodup_cons.1 hfs
      rw [declarationsOf_cons, lastValue_append, ih hfs]
      by_cases hf : f = f'
      · subst hf
        cases g.declaration? f <;> simp [lastValue, hnot]
      · cases g.declaration? f' <;> simp [lastValue, hf, Ne.symm hf]

theorem lastValue_declarations (f : Field) :
    lastValue f (g.declarationsOf Field.all) = g.declaration? f := by
  rw [lastValue_declarationsOf (by decide), if_pos f.mem_all]

/-! ## reading a declared value -/

theorem value_of_visible {v : List Char} {n : Nat} (hv : ∀ c ∈ v, isBlank c = false)
    (hlen : v.length ≤ n) : IsTrimmed v ∧ '\n' ∉ v ∧ v.length ≤ n :=
  ⟨Text.isTrimmed_of_forall hv, fun hmem => absurd (hv '\n' hmem) (by decide), hlen⟩

theorem length_flatMap_le {α β : Type} {l : List α} {f : α → List β} {n : Nat}
    (h : ∀ a ∈ l, (f a).length ≤ n) : (l.flatMap f).length ≤ l.length * n := by
  rw [List.length_flatMap]
  have hsum := List.sum_le_card_nsmul (l.map fun a => (f a).length) n (by simpa using h)
  simpa using hsum

theorem trim_word {id : String} (h : GlyphId.IsWord id) : trim id.toList = id.toList :=
  Text.trim_eq_self_iff.2 (Text.isTrimmed_of_forall fun c hc => GlyphId.isBlank_of_isIdChar (h.chars c hc))

theorem parentIds_flatMap {ids : List String} (h : ∀ id ∈ ids, GlyphId.IsWord id) :
    parentIds ((ids.map String.toList).flatMap (· ++ [','])) = ids := by
  have hcomma : ∀ l ∈ ids.map String.toList, ',' ∉ l := by
    intro l hl hmem
    obtain ⟨id, hid, rfl⟩ := List.mem_map.1 hl
    exact absurd ((h id hid).chars ',' hmem) (by decide)
  rw [parentIds, Text.split_flatMap hcomma]
  induction ids with
  | nil => rfl
  | cons id ids ih =>
      obtain ⟨hid, hids⟩ := List.forall_mem_cons.1 h
      have hne : id.toList.isEmpty = false := by
        have hpos := hid.pos
        rw [← String.length_toList] at hpos
        simpa [List.isEmpty_iff] using List.ne_nil_of_length_pos hpos
      have ih := ih hids fun l hl => hcomma l (List.mem_cons_of_mem _ hl)
      rw [List.map_cons, List.cons_append, List.map_cons, trim_word hid,
        List.filter_cons_of_pos (by simp [hne]), List.map_cons, String.ofList_toList, ih]

theorem readInt?_toDigits {n : Nat} (h : n ≤ maxQuantumState) :
    Decimal.readInt? maxWhole (Nat.toDigits 10 n) = some (n : Int) := by
  have hall : ∀ n < 9, Decimal.readInt? maxWhole (Nat.toDigits 10 n) = some (n : Int) := by decide
  exact hall n (Nat.lt_succ_of_le h)

section Values

variable (h : g.IsDefinition)
include h

theorem readParents_declared :
    readParents ((g.parents.map String.toList).flatMap (· ++ [','])) = .ok g.parents :=
  readParents_eq_ok_iff.2 ⟨parentIds_flatMap h.parents, h.parents_length, h.parents⟩

theorem numberRead_declared {f : NumberField} {x : Float} (hx : g.number f = some x) :
    f.read (Decimal.decimal x) = .ok x :=
  have hnumber := h.number f x hx
  NumberField.read_eq_ok_iff.2 ⟨Decimal.readFloat?_decimal hnumber.1, hnumber⟩

theorem readQuantumState_declared {n : UInt8} (hn : g.quantumState = some n) :
    readQuantumState (Nat.toDigits 10 n.toNat) = .ok n :=
  have hle := h.quantumState n hn
  readQuantumState_eq_ok_iff.2 ⟨readInt?_toDigits hle, hle⟩

theorem textRead_declared (f : TextField) : f.read (g.text f).toList = .ok (g.text f) :=
  TextField.read_eq_ok_iff.2 ⟨String.ofList_toList, h.size f⟩

theorem fault?_declared {e : Entry} (he : g.declaration? e.field = some e.value) :
    e.fault? = none := by
  obtain ⟨f, v⟩ := e
  cases f with
  | id => rfl
  | parents =>
      obtain rfl : _ = v := Option.some.inj he
      simp [Entry.fault?, readParents_declared h, faultOf]
  | number f =>
      obtain ⟨x, hx, rfl⟩ := Option.map_eq_some_iff.1 he
      simp [Entry.fault?, numberRead_declared h hx, faultOf]
  | quantumState =>
      obtain ⟨n, hn, rfl⟩ := Option.map_eq_some_iff.1 he
      simp [Entry.fault?, readQuantumState_declared h hn, faultOf]
  | text f =>
      obtain rfl : _ = v := Option.some.inj he
      simp [Entry.fault?, textRead_declared h, faultOf]

/-- The glyph of the declared values is the glyph itself. -/
theorem ofPairs_declarations : ofPairs (g.declarationsOf Field.all) = g := by
  refine ext_fields ?_ ?_ ?_ (fun f => ?_) fun f => ?_
  · simp [lastValue_declarations, declaration?]
  · simp [lastValue_declarations, declaration?, parentIds_flatMap h.parents]
  · rw [quantumState_ofPairs, lastValue_declarations, declaration?]
    cases hn : g.quantumState with
    | none => rfl
    | some n => simp [readQuantumState_declared h hn, Except.toOption]
  · rw [number_ofPairs, lastValue_declarations, declaration?]
    cases hx : g.number f with
    | none => rfl
    | some x => simp [numberRead_declared h hx, Except.toOption]
  · simp [lastValue_declarations, declaration?]

/-! ## lines and their size -/

/-- Values are trimmed parts of one line; the longest ones are lists of parents. -/
theorem declared_value {e : Entry} (he : g.declaration? e.field = some e.value) :
    IsTrimmed e.value ∧ '\n' ∉ e.value ∧ e.value.length ≤ 1040 := by
  obtain ⟨f, v⟩ := e
  cases f with
  | id =>
      obtain rfl : g.id.toList = v := Option.some.inj he
      refine value_of_visible (fun c hc => GlyphId.isBlank_of_isIdChar (h.id.chars c hc)) ?_
      rw [String.length_toList]
      exact h.id.le.trans (by decide)
  | parents =>
      obtain rfl : (g.parents.map String.toList).flatMap (· ++ [',']) = v := Option.some.inj he
      refine value_of_visible (fun c hc => ?_) ?_
      · obtain ⟨l, hl, hc⟩ := List.mem_flatMap.1 hc
        obtain ⟨p, hp, rfl⟩ := List.mem_map.1 hl
        obtain hc | hc := List.mem_append.1 hc
        · exact GlyphId.isBlank_of_isIdChar ((h.parents p hp).chars c hc)
        · obtain rfl := List.mem_singleton.1 hc
          decide
      · refine (length_flatMap_le (n := 65) fun l hl => ?_).trans ?_
        · obtain ⟨p, hp, rfl⟩ := List.mem_map.1 hl
          have hle := (h.parents p hp).le
          rw [← String.length_toList] at hle
          rw [List.length_append, List.length_singleton]
          omega
        · have hle := h.parents_length
          rw [List.length_map]
          exact Nat.mul_le_mul_right 65 hle
  | number f =>
      obtain ⟨x, hx, rfl⟩ := Option.map_eq_some_iff.1 he
      obtain ⟨hle, hchars⟩ := Decimal.decimal_spec (h.number f x hx).1
      refine value_of_visible (fun c hc => ?_) (hle.trans (by decide))
      obtain hc | rfl | rfl := hchars c hc
      · exact Decimal.isBlank_of_isDigit hc
      · decide
      · decide
  | quantumState =>
      obtain ⟨n, hn, rfl⟩ := Option.map_eq_some_iff.1 he
      refine value_of_visible
        (fun c hc => Decimal.isBlank_of_isDigit (Decimal.isDigit_of_mem_toDigits hc)) ?_
      have hlen : (Nat.toDigits 10 n.toNat).length ≤ 3 :=
        (Nat.length_toDigits_le_iff (by decide) (by decide)).2 (n.toNat_lt.trans (by decide))
      exact hlen.trans (by decide)
  | text f =>
      obtain rfl : (g.text f).toList = v := Option.some.inj he
      have hmax : f.maxBytes ≤ 1040 := by cases f <;> decide
      have hlen := length_le_utf8ByteSize (g.text f).toList
      rw [String.ofList_toList] at hlen
      exact ⟨h.trimmed f, h.oneLine f, hlen.trans ((h.size f).trans hmax)⟩

end Values

theorem name_spec (f : Field) : f.name.length ≤ 23 ∧ ':' ∉ f.name.toList ∧
    ∀ c ∈ f.name.toList, isBlank c = false := by
  have hall : ∀ f ∈ Field.all, f.name.length ≤ 23 ∧ ':' ∉ f.name.toList ∧
      (f.name.toList.all fun c => !isBlank c) = true := by decide
  simpa using hall f f.mem_all

theorem declares_line {e : Entry} (he : IsTrimmed e.value) :
    Declares e.field e.value e.line := by
  obtain ⟨-, hcolon, hname⟩ := name_spec e.field
  have hfront : ∀ c ∈ e.field.name.toList ++ [':'], isBlank c = false := by
    simpa [or_imp, forall_and] using ⟨hname, by decide⟩
  have hline : IsTrimmed e.line := by
    simpa [Entry.line] using he.append hfront (by simp)
  have hkey : trim e.field.name.toList = e.field.name.toList :=
    Text.trim_eq_self_iff.2 (Text.isTrimmed_of_forall hname)
  refine ⟨e.field.name.toList, Text.trim_eq_self_iff.2 hline, hcolon, ?_⟩
  rw [hkey, String.ofList_toList, Field.ofKey?_name]

/-- The lines of the text say what they were made from. -/
theorem pairs_definitionText (h : g.IsDefinition) :
    pairs g.definitionText = g.declarationsOf Field.all := by
  have hvalue {e : Entry} (he : e ∈ g.declarationsOf Field.all) :=
    declared_value h (mem_declarationsOf he).2
  have hlines : ∀ l ∈ (g.declarationsOf Field.all).map Entry.line, '\n' ∉ l := by
    intro l hl hmem
    obtain ⟨e, he, rfl⟩ := List.mem_map.1 hl
    obtain ⟨-, -, hname⟩ := name_spec e.field
    simp only [Entry.line, List.mem_append, List.mem_cons] at hmem
    obtain hmem | hmem | hmem := hmem
    · exact absurd (hname '\n' hmem) (by decide)
    · exact absurd hmem (by decide)
    · exact (hvalue he).2.1 hmem
  rw [← entries_eq_pairs, entries, definitionText, String.toList_ofList, Text.split_flatMap hlines]
  have hnil : Entry.ofLine? [] = none := rfl
  have hline : ∀ e ∈ g.declarationsOf Field.all, Entry.ofLine? e.line = some e := by
    intro e he
    have htrimmed := (hvalue he).1
    rw [ofLine?_eq_pair?, pair?_of_declares (declares_line htrimmed),
      Text.trim_eq_self_iff.2 htrimmed]
  rw [List.filterMap_append, List.filterMap_map]
  simp [hnil, List.filterMap_congr hline]

theorem size_definitionText (h : g.IsDefinition) :
    g.definitionText.utf8ByteSize ≤ maxDefinitionBytes := by
  have hline : ∀ l ∈ (g.declarationsOf Field.all).map Entry.line, (l ++ ['\n']).length ≤ 1065 := by
    intro l hl
    obtain ⟨e, he, rfl⟩ := List.mem_map.1 hl
    obtain ⟨hname, -⟩ := name_spec e.field
    obtain ⟨-, -, hvalue⟩ := declared_value h (mem_declarationsOf he).2
    rw [← String.length_toList] at hname
    simp [Entry.line]
    omega
  have hcount : (g.declarationsOf Field.all).length ≤ 17 := List.length_filterMap_le _ _
  have hlen := length_flatMap_le hline
  rw [List.length_map] at hlen
  refine (utf8ByteSize_le_mul_length _).trans ?_
  rw [maxDefinitionBytes]
  omega

theorem read_definitionText (h : g.IsDefinition) : read g.definitionText = .ok g := by
  refine read_eq_ok_iff.2 ⟨size_definitionText h, ?_⟩
  rw [pairs_definitionText h, result_eq_ok_iff, ofPairs_declarations h]
  exact ⟨fun e he => fault?_declared h (mem_declarationsOf he).2, h.id, rfl⟩

end Rendering

/-- **The image of the reader.**  The glyphs that some text declares are those that meet the
conditions on their fields; no id of them is path-like. -/
theorem read_image (g : Glyph) : ((∃ text, read text = .ok g) ↔ g.IsDefinition) ∧
    ¬∃ text, read text = .ok g ∧ ∃ id ∈ g.id :: g.parents, GlyphId.isPathLike id = true := by
  refine ⟨⟨fun ⟨text, h⟩ => isDefinition_of_read h, fun h => ⟨_, read_definitionText h⟩⟩, ?_⟩
  rintro ⟨text, h, id, hid, hpath⟩
  have hdefinition := isDefinition_of_read h
  have hword : GlyphId.IsWord id := by
    obtain rfl | hid := List.mem_cons.1 hid
    · exact hdefinition.id
    · exact hdefinition.parents id hid
  rw [GlyphId.isPathLike_of_isWord hword] at hpath
  cases hpath

end GlyphField.Glyph
