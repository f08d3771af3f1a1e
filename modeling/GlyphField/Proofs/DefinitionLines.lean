import GlyphField.Proofs.FieldValues
import GlyphField.Proofs.TextLines

/-!
# GlyphField.Proofs.DefinitionLines

Reading a definition against its line-oriented reference.  The reference looks at all declarations
of a text at once: the first one that fails its check decides the error, then the last id does, and
otherwise each field is taken from its last declaration.  The reader folds over the lines instead.

What the reader gives therefore rests on the declarations alone, and for a text that is accepted
only on those of each field: lines that declare nothing come and go, a key stands for its alias,
and lines of different fields change places.

* `foldlM_declare` — the fold against the last declarations;
* `read_lines` — the reference, and what may be done to the lines of a text.
-/

namespace GlyphField.Glyph

open GlyphField.Text (trim split cut? lines)

/-! ## the reference -/

/-- What a line declares by the rules for lines. -/
def pair? (line : List Char) : Option Entry :=
  let text := trim line
  if text = [] ∨ text.head? = some '#' ∨ ':' ∉ text then none
  else
    let key := text.takeWhile (· ≠ ':')
    let value := (text.dropWhile (· ≠ ':')).tail
    (Field.ofKey? (String.ofList (trim key))).map fun f => ⟨f, trim value⟩

/-- The declarations of a text, in order. -/
def pairs (text : String) : List Entry := (lines text.toList).filterMap pair?

/-- The error of a result. -/
def faultOf {α : Type} : Except ReadError α → Option ReadError
  | .error e => some e
  | .ok _ => none

/-- What is wrong with a declaration; an id is not looked at before the end. -/
def Entry.fault? (e : Entry) : Option ReadError :=
  match e.field with
  | .id => none
  | .parents => faultOf (readParents e.value)
  | .number f => faultOf (f.read e.value)
  | .quantumState => faultOf (readQuantumState e.value)
  | .text f => faultOf (f.read e.value)

/-- The last value declared for a field. -/
def lastValue (f : Field) (es : List Entry) : Option (List Char) :=
  (es.reverse.find? fun e => e.field = f).map Entry.value

/-- The glyph of which each field is taken from its last declaration. -/
def ofPairs (es : List Entry) : Glyph :=
  let number (f : NumberField) := (lastValue (.number f) es).bind fun v => (f.read v).toOption
  let text (f : TextField) := String.ofList ((lastValue (.text f) es).getD [])
  { id := String.ofList ((lastValue .id es).getD [])
    parents := (lastValue .parents es).elim [] parentIds
    resonance := number .resonance
    magnitude := number .magnitude
    coherence := number .coherence
    entanglement := number .entanglement
    phaseOffset := number .phaseOffset
    quantumState := (lastValue .quantumState es).bind fun v => (readQuantumState v).toOption
    chronocode := text .chronocode
    contributor := text .contributor
    material := text .material
    frequencySignature := text .frequencySignature
    script := text .script
    metadata := text .metadata
    dependencies := text .dependencies
    outputs := text .outputs
    constraints := text .constraints }

/-- The result that declarations call for. -/
def result (es : List Entry) : Except ReadError Glyph :=
  match es.findSome? Entry.fault? with
  | some e => .error e
  | none =>
    match lastValue .id es with
    | none | some [] => .error .missingId
    | some id => (GlyphId.check (String.ofList id)).map fun _ => ofPairs es

/-! ## fields -/

theorem ext_fields {g g' : Glyph} (hid : g.id = g'.id) (hparents : g.parents = g'.parents)
    (hquantum : g.quantumState = g'.quantumState) (hnumber : ∀ f, g.number f = g'.number f)
    (htext : ∀ f, g.text f = g'.text f) : g = g' := by
  cases g
  cases g'
  simp only [mk.injEq]
  exact ⟨hid, hparents, hnumber .resonance, hnumber .magnitude, hnumber .coherence,
    hnumber .entanglement, hnumber .phaseOffset, hquantum, htext .chronocode, htext .contributor,
    htext .material, htext .frequencySignature, htext .script, htext .metadata,
    htext .dependencies, htext .outputs, htext .constraints⟩

section Fields

variable (g : Glyph) (es : List Entry)

@[simp] theorem id_setNumber (f : NumberField) (x : Float) : (g.setNumber f x).id = g.id := by
  cases f <;> rfl

@[simp] theorem parents_setNumber (f : NumberField) (x : Float) :
    (g.setNumber f x).parents = g.parents := by
  cases f <;> rfl

@[simp] theorem quantumState_setNumber (f : NumberField) (x : Float) :
    (g.setNumber f x).quantumState = g.quantumState := by
  cases f <;> rfl

@[simp] theorem id_setText (f : TextField) (s : String) : (g.setText f s).id = g.id := by
  cases f <;> rfl

@[simp] theorem parents_setText (f : TextField) (s : String) :
    (g.setText f s).parents = g.parents := by
  cases f <;> rfl

@[simp] theorem quantumState_setText (f : TextField) (s : String) :
    (g.setText f s).quantumState = g.quantumState := by
  cases f <;> rfl

@[simp] theorem id_ofPairs : (ofPairs es).id = String.ofList ((lastValue .id es).getD []) := rfl

@[simp] theorem parents_ofPairs : (ofPairs es).parents =
    (lastValue .parents es).elim [] parentIds := rfl

@[simp] theorem quantumState_ofPairs : (ofPairs es).quantumState =
    (lastValue .quantumState es).bind fun v => (readQuantumState v).toOption := rfl

@[simp] theorem number_ofPairs (f : NumberField) : (ofPairs es).number f =
    (lastValue (.number f) es).bind fun v => (f.read v).toOption := by
  cases f <;> rfl

@[simp] theorem text_ofPairs (f : TextField) :
    (ofPairs es).text f = String.ofList ((lastValue (.text f) es).getD []) := by
  cases f <;> rfl

end Fields

/-! ## the reader -/

section Reader

variable (es : List Entry) (e : Entry)

@[simp] theorem lastValue_concat (f : Field) :
    lastValue f (es ++ [e]) = if e.field = f then some e.value else lastValue f es := by
  by_cases h : e.field = f <;> simp [lastValue, h]

theorem map_eq_of_fault {α β : Type} {r : Except ReadError α} {k : α → β} {b : β}
    (h : ∀ a, r = .ok a → k a = b) :
    r.map k = match faultOf r with
      | some err => .error err
      | none => .ok b := by
  cases r with
  | error err => rfl
  | ok a => exact congrArg Except.ok (h a rfl)

/-- The step of the reader: a declaration is refused, or becomes the last one of its field. -/
theorem declare_ofPairs : (ofPairs es).declare e =
    match e.fault? with
    | some err => .error err
    | none => .ok (ofPairs (es ++ [e])) := by
  obtain ⟨field, value⟩ := e
  have hnumber (h : ∀ f, field ≠ .number f) (f : NumberField) :
      (ofPairs es).number f = (ofPairs (es ++ [⟨field, value⟩])).number f := by simp [h]
  have htext (h : ∀ f, field ≠ .text f) (f : TextField) :
      (ofPairs es).text f = (ofPairs (es ++ [⟨field, value⟩])).text f := by simp [h]
  cases field with
  | id =>
      exact congrArg Except.ok (ext_fields (by simp) (by simp) (by simp) (hnumber (by simp))
        (htext (by simp)))
  | parents =>
      exact map_eq_of_fault fun ids h =>
        ext_fields (by simp) (by simp [(readParents_eq_ok_iff.1 h).1]) (by simp)
          (hnumber (by simp)) (htext (by simp))
  | number f =>
      refine map_eq_of_fault fun x h =>
        ext_fields (by simp) (by simp) (by simp) (fun f' => ?_) (by simp)
      rw [number_setNumber]
      by_cases hf : f' = f
      · simp [hf, h, Except.toOption]
      · simp [hf, Ne.symm hf]
  | quantumState =>
      exact map_eq_of_fault fun n h =>
        ext_fields (by simp) (by simp) (by simp [h, Except.toOption]) (hnumber (by simp))
          (htext (by simp))
  | text f =>
      refine map_eq_of_fault fun s h =>
        ext_fields (by simp) (by simp) (by simp) (by simp) fun f' => ?_
      rw [text_setText]
      by_cases hf : f' = f
      · simp [hf, (TextField.read_eq_ok_iff.1 h).1]
      · simp [hf, Ne.symm hf]

theorem foldlM_declare : es.foldlM declare { id := "" } =
    match es.findSome? Entry.fault? with
    | some err => .error err
    | none => .ok (ofPairs es) := by
  induction es using List.reverseRecOn with
  | nil => rfl
  | append_singleton es e ih =>
      rw [List.foldlM_append, ih, List.findSome?_append]
      cases es.findSome? Entry.fault? with
      | some err => rfl
      | none =>
          have hstep := declare_ofPairs es e
          cases h : e.fault? <;> rw [h] at hstep <;>
            simp [h, hstep, bind, Except.bind, pure, Except.pure]

end Reader

theorem checkId_ofPairs (es : List Entry) : (ofPairs es).checkId =
    match lastValue .id es with
    | none | some [] => .error .missingId
    | some id => (GlyphId.check (String.ofList id)).map fun _ => ofPairs es := by
  unfold checkId
  rw [id_ofPairs]
  cases lastValue .id es with
  | none => rfl
  | some id =>
      cases id with
      | nil => rfl
      | cons c cs => simp

/-- The reader gives the result that the declarations call for. -/
theorem foldlM_declare_checkId (es : List Entry) :
    (es.foldlM declare { id := "" } >>= checkId) = result es := by
  rw [foldlM_declare, result]
  cases es.findSome? Entry.fault? with
  | some err => rfl
  | none => exact checkId_ofPairs es

theorem checkId_eq_ok_iff {g g' : Glyph} : g.checkId = .ok g' ↔ GlyphId.IsWord g.id ∧ g = g' := by
  unfold checkId
  split
  · next hempty =>
    refine iff_of_false (by simp) fun h => ?_
    have hpos := h.1.pos
    simp [String.isEmpty_iff.1 hempty] at hpos
  · rw [← GlyphId.check_eq_ok_iff]
    cases GlyphId.check g.id <;> simp [Except.map]

/-- Declarations are accepted if none has a fault and the last id is a word. -/
theorem result_eq_ok_iff {es : List Entry} {g : Glyph} : result es = .ok g ↔
    (∀ e ∈ es, e.fault? = none) ∧ GlyphId.IsWord (ofPairs es).id ∧ ofPairs es = g := by
  rw [← List.findSome?_eq_none_iff, ← checkId_eq_ok_iff, checkId_ofPairs, result]
  cases es.findSome? Entry.fault? <;> simp

/-! ## lines -/

theorem ofLine?_eq_pair? (line : List Char) : Entry.ofLine? line = pair? line := by
  simp only [Entry.ofLine?, pair?]
  by_cases hcomment : (trim line).head? = some '#'
  · simp [hcomment]
  · by_cases hcolon : ':' ∈ trim line
    · have hne : trim line ≠ [] := List.ne_nil_of_mem hcolon
      simp [hcomment, hcolon, hne, Text.cut?_of_mem hcolon]
    · simp [hcomment, hcolon, Text.cut?_eq_none hcolon]

theorem entries_eq_pairs (text : String) : entries text = pairs text := by
  have hline : Entry.ofLine? = pair? := funext ofLine?_eq_pair?
  have hreturn (l : List Char) : pair? (Text.dropReturn l) = pair? l := by
    simp only [pair?, Text.trim_dropReturn]
  rw [entries, pairs, hline, Text.filterMap_lines rfl hreturn]

/-- A line that declares nothing. -/
inductive IsNoise (line : List Char) : Prop
  | blank (h : trim line = [])
  | comment (h : (trim line).head? = some '#')
  | colonless (h : ':' ∉ trim line)
  | unknownKey (key value : List Char) (h : trim line = key ++ ':' :: value) (hkey : ':' ∉ key)
      (hfield : Field.ofKey? (String.ofList (trim key)) = none)

/-- A line that declares a value for a field, by any of its keys. -/
def Declares (f : Field) (value line : List Char) : Prop :=
  ∃ key, trim line = key ++ ':' :: value ∧ ':' ∉ key ∧
    Field.ofKey? (String.ofList (trim key)) = some f

/-- No key starts like a comment. -/
theorem ofKey?_comment (cs : List Char) : Field.ofKey? (String.ofList ('#' :: cs)) = none := by
  have hname (f : Field) : f.name.toList.head? ≠ some '#' := by
    have hall : ∀ f ∈ Field.all, f.name.toList.head? ≠ some '#' := by decide
    exact hall f f.mem_all
  have halias : ∀ p ∈ Field.aliases, p.1.toList.head? ≠ some '#' := by decide
  rw [Field.ofKey?, Option.or_eq_none_iff]
  constructor
  · rw [List.find?_eq_none]
    intro f _ h
    exact hname f (by simp [of_decide_eq_true h])
  · rw [List.lookup_eq_none_iff]
    intro p hp
    rw [bne_iff_ne]
    intro h
    exact halias p hp (by simp [← h])

theorem pair?_of_declares {f : Field} {value line : List Char} (h : Declares f value line) :
    pair? line = some ⟨f, trim value⟩ := by
  obtain ⟨key, htext, hkey, hfield⟩ := h
  have hcomment : (trim line).head? ≠ some '#' := by
    intro hhead
    cases key with
    | nil => simp [htext] at hhead
    | cons c cs =>
        obtain rfl : c = '#' := by simpa [htext] using hhead
        have htrim := Text.head?_trim_cons (c := '#') (by decide) cs
        obtain ⟨rest, hrest⟩ := List.head?_eq_some_iff.1 htrim
        rw [hrest, ofKey?_comment] at hfield
        cases hfield
  rw [← ofLine?_eq_pair?]
  simp only [Entry.ofLine?, if_neg hcomment]
  simp [htext, Text.cut?_append hkey, hfield]

theorem pair?_of_isNoise {line : List Char} (h : IsNoise line) : pair? line = none := by
  rw [← ofLine?_eq_pair?]
  simp only [Entry.ofLine?]
  cases h with
  | blank h => simp [h, Text.cut?]
  | comment h => simp [h]
  | colonless h => simp [Text.cut?_eq_none h]
  | unknownKey key value h hkey hfield => simp [h, Text.cut?_append hkey, hfield]

/-- Changes to one line that do not change what a text declares. -/
inductive Edit : List (List Char) → List (List Char) → Prop
  | insert (before after : List (List Char)) {noise : List Char} (h : IsNoise noise) :
      Edit (before ++ after) (before ++ noise :: after)
  | delete (before after : List (List Char)) {noise : List Char} (h : IsNoise noise) :
      Edit (before ++ noise :: after) (before ++ after)
  | rekey (before after : List (List Char)) {f : Field} {value line line' : List Char}
      (h : Declares f value line) (h' : Declares f value line') :
      Edit (before ++ line :: after) (before ++ line' :: after)

theorem pairs_of_edit {ls ls' : List (List Char)} (h : Edit ls ls') :
    ls'.filterMap pair? = ls.filterMap pair? := by
  cases h with
  | insert before after h => simp [List.filterMap_append, pair?_of_isNoise h]
  | delete before after h => simp [List.filterMap_append, pair?_of_isNoise h]
  | rekey before after h h' =>
      simp [List.filterMap_append, pair?_of_declares h, pair?_of_declares h']

theorem pairs_of_edits {ls ls' : List (List Char)} (h : Relation.ReflTransGen Edit ls ls') :
    ls'.filterMap pair? = ls.filterMap pair? := by
  induction h with
  | refl => rfl
  | tail _ hedit ih => exact (pairs_of_edit hedit).trans ih

/-! ## the order of lines -/

/-- Whether a line declares this field. -/
def declares (f : Field) (line : List Char) : Bool := (pair? line).any fun e => e.field = f

/-- For every field the same lines in the same order, however the lines of different fields and
those that declare nothing are mixed. -/
def SameOrder (ls ls' : List (List Char)) : Prop :=
  ∀ f, ls'.filter (declares f) = ls.filter (declares f)

theorem filter_pairs (f : Field) (ls : List (List Char)) :
    (ls.filterMap pair?).filter (fun e => e.field = f) =
      (ls.filter (declares f)).filterMap pair? := by
  induction ls with
  | nil => rfl
  | cons line ls ih =>
      cases h : pair? line with
      | none => simp [declares, h, ih]
      | some e => by_cases hf : e.field = f <;> simp [declares, h, hf, ih]

theorem lastValue_eq (f : Field) (es : List Entry) :
    lastValue f es = (es.filter fun e => e.field = f).getLast?.map Entry.value := by
  rw [lastValue, ← List.head?_filter, List.filter_reverse, List.head?_reverse]

/-- An accepted result rests on the declarations of each field alone. -/
theorem result_of_filter {es es' : List Entry} {g : Glyph}
    (hfilter : ∀ f : Field, (es'.filter fun e => e.field = f) = es.filter fun e => e.field = f)
    (h : result es = .ok g) : result es' = .ok g := by
  have hlast (f : Field) : lastValue f es' = lastValue f es := by
    rw [lastValue_eq, lastValue_eq, hfilter]
  have hglyph : ofPairs es' = ofPairs es := by
    apply ext_fields <;> simp [hlast]
  rw [result_eq_ok_iff] at h ⊢
  rw [hglyph]
  refine ⟨fun e he => h.1 e ?_, h.2⟩
  have hmem : e ∈ es.filter fun e' => e'.field = e.field := by
    rw [← hfilter]
    simpa using he
  exact List.mem_of_mem_filter hmem

/-! ## reading -/

theorem read_eq_result {text : String} (h : text.utf8ByteSize ≤ maxDefinitionBytes) :
    read text = result (pairs text) := by
  rw [read, if_neg (Nat.not_lt.2 h), entries_eq_pairs]
  exact foldlM_declare_checkId _

/-- **Reading by lines.**  A text that is not too large is read as its declarations call for.  Lines
that declare nothing may come and go and keys may stand for each other without any change of the
result; if the text is accepted, lines of different fields may also change places. -/
theorem read_lines (text : String) (h : text.utf8ByteSize ≤ maxDefinitionBytes) :
    read text = result (pairs text) ∧
      ∀ text' : String, text'.utf8ByteSize ≤ maxDefinitionBytes →
        (Relation.ReflTransGen Edit (lines text.toList) (lines text'.toList) →
          read text' = read text) ∧
        (SameOrder (lines text.toList) (lines text'.toList) →
          ∀ g, read text = .ok g → read text' = .ok g) := by
  refine ⟨read_eq_result h, fun text' h' => ⟨fun hedits => ?_, fun horder g hg => ?_⟩⟩
  · rw [read_eq_result h, read_eq_result h', pairs, pairs, pairs_of_edits hedits]
  · rw [read_eq_result h] at hg
    rw [read_eq_result h']
    refine result_of_filter (fun f => ?_) hg
    rw [pairs, pairs, filter_pairs, filter_pairs, horder f]

/-- A comment between two declarations, a key for its alias, and the declarations exchanged. -/
theorem read_lines_of_child :
    "glyph_id: a\nparent: b".utf8ByteSize ≤ maxDefinitionBytes ∧
      read "glyph_id: a\n# note\nparent_glyphs: b" = read "glyph_id: a\nparent: b" ∧
      read "parent: b\nglyph_id: a" = .ok { id := "a", parents := ["b"] } := by
  have hsize : "glyph_id: a\nparent: b".utf8ByteSize ≤ maxDefinitionBytes := by decide
  have hlines := (read_lines _ hsize).2
  have hnote : Edit ["glyph_id: a".toList, "parent: b".toList]
      ["glyph_id: a".toList, "# note".toList, "parent: b".toList] :=
    .insert ["glyph_id: a".toList] ["parent: b".toList] (.comment (by decide))
  have hparent : Declares .parents " b".toList "parent: b".toList :=
    ⟨"parent".toList, by decide, by decide, by decide⟩
  have hparents : Declares .parents " b".toList "parent_glyphs: b".toList :=
    ⟨"parent_glyphs".toList, by decide, by decide, by decide⟩
  have hkey : Edit ["glyph_id: a".toList, "# note".toList, "parent: b".toList]
      ["glyph_id: a".toList, "# note".toList, "parent_glyphs: b".toList] :=
    .rekey ["glyph_id: a".toList, "# note".toList] [] hparent hparents
  refine ⟨hsize, ?_, ?_⟩
  · exact (hlines _ (by decide)).1 (.tail (.single hnote) hkey)
  · refine (hlines _ (by decide)).2 (fun f => ?_) _ rfl
    cases f with
    | number f => cases f <;> decide
    | text f => cases f <;> decide
    | _ => decide

end GlyphField.Glyph
