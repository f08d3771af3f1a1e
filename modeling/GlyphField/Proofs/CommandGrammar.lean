import GlyphField.Proofs.FieldValues
import GlyphField.Proofs.NumeralGrammar
import GlyphField.Proofs.ScriptPieces

/-!
# GlyphField.Proofs.CommandGrammar

Which pieces of a script are commands.  A piece is trimmed, cut at its first opening parenthesis and
relieved of a closing one at its end; then the two sides are trimmed again.  The arguments have no
blanks in them, so that what is trimmed away are the blanks that the grammar allows.

* `IsCall` — the grammar: a name, blanks, and an argument between parentheses and blanks;
* `ofVerb_eq_ok_iff` — the arguments that each verb takes;
* `ofPiece_eq_iff_isCall`, `ofPiece_eq_unknown_iff` — the pieces that can be used, and those of no
  known name;
* `ofPiece_grammar` — the three kinds of pieces together.
-/

namespace GlyphField

open GlyphField.Text

namespace Command

open GlyphField.Decimal (IsNumeral readFloat?)

/-! ## the grammar -/

/-- Whether a text is a numeral for a float. -/
structure Numeral (cs : List Char) (x : Float) : Prop where
  form : IsNumeral cs
  value : readFloat? cs = some x

/-- The arguments of a verb, each with the command that it makes. -/
inductive Argument : Verb → List Char → Command → Prop
  | resonate {arg : List Char} {x : Float} (h : Numeral arg x) (hfinite : x.isFinite = true)
    (hfactor : ¬x < 0) : Argument .resonate arg (.resonate x)
  | amplify {arg : List Char} {x : Float} (h : Numeral arg x) (hfinite : x.isFinite = true)
    (hfactor : ¬x < 0) : Argument .amplify arg (.amplify x)
  | phaseShift {arg : List Char} {x : Float} (h : Numeral arg x) (hfinite : x.isFinite = true) :
    Argument .phaseShift arg (.phaseShift x)
  | decay {arg : List Char} {x : Float} (h : Numeral arg x) (hlo : 0 ≤ x) (hhi : x ≤ 1) :
    Argument .decay arg (.decay x)
  | stabilize : Argument .stabilize [] .stabilize
  | parent : Argument .entangle "parent".toList (.entangle .parent)
  | glyph {id : String} (h : GlyphId.IsWord id) (hparent : id ≠ "parent") :
    Argument .entangle id.toList (.entangle (.glyph id))

/-- The calls: the name of a verb and, between parentheses, an argument of it.  There may be blanks
after the name and on either side of the argument. -/
inductive IsCall : List Char → Command → Prop
  | mk {v : Verb} {arg : List Char} {c : Command} {gap before after : List Char} (hgap : AreBlank gap) (hbefore : AreBlank before)
    (hafter : AreBlank after) (harg : Argument v arg c) :
    IsCall (v.name.toList ++ gap ++ '(' :: (before ++ (arg ++ after) ++ [')'])) c

/-- The trimmed text in front of the first opening parenthesis, or all of it where there is none. -/
def nameOf (t : List Char) : List Char := trim (t.takeWhile (· ≠ '('))

/-- Pieces that are commands gone wrong unless they are calls. -/
inductive IsBroken (t : List Char) : Prop
  | empty (h : t = [])
  | unclosed (h : '(' ∈ t) (hlast : t.getLast? ≠ some ')')
  | nameless (h : '(' ∈ t) (hname : nameOf t = [])
  | verb (v : Verb) (hname : nameOf t = v.name.toList)

variable {v : Verb} {arg cs name p t : List Char} {c : Command} {x : Float}

/-! ## arguments -/

theorem numeral_iff : Numeral cs x ↔ readFloat? cs = some x :=
  ⟨Numeral.value, fun h => ⟨Decimal.isSome_readFloat?_iff.1 (by rw [h]; rfl), h⟩⟩

theorem readNumber_eq_ok_iff : readNumber arg = .ok x ↔ Numeral arg x ∧ x.isFinite = true := by
  rw [numeral_iff, readNumber]
  cases readFloat? arg with
  | none => simp
  | some y =>
      simp only [Option.some.injEq]
      split
      · next hy =>
        rw [Except.ok.injEq, iff_self_and]
        rintro rfl
        exact hy
      · next hy =>
        refine iff_of_false (by simp) ?_
        rintro ⟨rfl, hfinite⟩
        exact hy hfinite

theorem readFactor_eq_ok_iff :
    readFactor arg = .ok x ↔ (Numeral arg x ∧ x.isFinite = true) ∧ ¬x < 0 := by
  rw [← readNumber_eq_ok_iff, readFactor]
  cases readNumber arg with
  | error e => simp [Except.bind]
  | ok y =>
      simp only [Except.bind, Except.ok.injEq]
      split
      · next hy =>
        refine iff_of_false (by simp) ?_
        rintro ⟨rfl, hfactor⟩
        exact hfactor hy
      · next hy =>
        rw [Except.ok.injEq, iff_self_and]
        rintro rfl
        exact hy

/-- A number between zero and one is finite. -/
theorem readFraction_eq_ok_iff : readFraction arg = .ok x ↔ Numeral arg x ∧ 0 ≤ x ∧ x ≤ 1 := by
  have hfinite : readFraction arg = .ok x ↔ (Numeral arg x ∧ x.isFinite = true) ∧ 0 ≤ x ∧ x ≤ 1 := by
    rw [← readNumber_eq_ok_iff, readFraction]
    cases readNumber arg with
    | error e => simp [Except.bind]
    | ok y =>
        simp only [Except.bind, Except.ok.injEq]
        split
        · next hy =>
          rw [Except.ok.injEq, iff_self_and]
          rintro rfl
          exact hy
        · next hy =>
          refine iff_of_false (by simp) ?_
          rintro ⟨rfl, hrange⟩
          exact hy hrange
  rw [hfinite, and_assoc]
  refine and_congr_right fun _ => and_iff_right_of_imp ?_
  rintro ⟨hlo, hhi⟩
  exact Binary64.isFinite_of_le_of_le rfl (by decide +kernel) hlo hhi

theorem readTarget_eq_ok_iff {target : Target} : readTarget arg = .ok target ↔
    (arg = "parent".toList ∧ target = .parent) ∨
      ∃ id : String, arg = id.toList ∧ GlyphId.IsWord id ∧ id ≠ "parent" ∧ target = .glyph id := by
  obtain ⟨s, rfl⟩ : ∃ s : String, arg = s.toList := ⟨String.ofList arg, by simp⟩
  simp only [readTarget, String.ofList_toList, String.toList_inj, ← GlyphId.isValid_iff]
  split
  · next h =>
    subst h
    constructor
    · rintro ⟨⟩
      exact .inl ⟨rfl, rfl⟩
    · rintro (⟨-, rfl⟩ | ⟨id, rfl, -, hparent, -⟩)
      · rfl
      · exact absurd rfl hparent
  · next h =>
    rw [or_iff_right (fun hs => h hs.1)]
    split
    · next hvalid =>
      constructor
      · rintro ⟨⟩
        exact ⟨s, rfl, hvalid, h, rfl⟩
      · rintro ⟨id, rfl, -, -, rfl⟩
        rfl
    · next hvalid =>
      refine iff_of_false (by simp) ?_
      rintro ⟨id, rfl, hid, -⟩
      exact hvalid hid

/-- The result of a command made of a value. -/
theorem map_eq_ok_iff {α β ε : Type} {f : α → β} {e : Except ε α} {b : β} :
    e.map f = .ok b ↔ ∃ a, e = .ok a ∧ f a = b := by
  cases e <;> simp [Except.map]

theorem ofVerb_eq_ok_iff : ofVerb v arg = .ok c ↔ Argument v arg c := by
  constructor
  · intro h
    cases v with
    | resonate =>
        obtain ⟨x, hx, rfl⟩ := map_eq_ok_iff.1 h
        obtain ⟨⟨hnumeral, hfinite⟩, hfactor⟩ := readFactor_eq_ok_iff.1 hx
        exact .resonate hnumeral hfinite hfactor
    | entangle =>
        obtain ⟨target, htarget, rfl⟩ := map_eq_ok_iff.1 h
        obtain ⟨rfl, rfl⟩ | ⟨id, rfl, hid, hparent, rfl⟩ := readTarget_eq_ok_iff.1 htarget
        · exact .parent
        · exact .glyph hid hparent
    | amplify =>
        obtain ⟨x, hx, rfl⟩ := map_eq_ok_iff.1 h
        obtain ⟨⟨hnumeral, hfinite⟩, hfactor⟩ := readFactor_eq_ok_iff.1 hx
        exact .amplify hnumeral hfinite hfactor
    | phaseShift =>
        obtain ⟨x, hx, rfl⟩ := map_eq_ok_iff.1 h
        obtain ⟨hnumeral, hfinite⟩ := readNumber_eq_ok_iff.1 hx
        exact .phaseShift hnumeral hfinite
    | stabilize =>
        simp only [ofVerb] at h
        split at h
        · next harg =>
          obtain rfl := List.isEmpty_iff.1 harg
          obtain rfl := Except.ok.inj h
          exact .stabilize
        · cases h
    | decay =>
        obtain ⟨x, hx, rfl⟩ := map_eq_ok_iff.1 h
        obtain ⟨hnumeral, hlo, hhi⟩ := readFraction_eq_ok_iff.1 hx
        exact .decay hnumeral hlo hhi
  · intro h
    cases h with
    | resonate h hfinite hfactor =>
        exact map_eq_ok_iff.2 ⟨_, readFactor_eq_ok_iff.2 ⟨⟨h, hfinite⟩, hfactor⟩, rfl⟩
    | amplify h hfinite hfactor =>
        exact map_eq_ok_iff.2 ⟨_, readFactor_eq_ok_iff.2 ⟨⟨h, hfinite⟩, hfactor⟩, rfl⟩
    | phaseShift h hfinite => exact map_eq_ok_iff.2 ⟨_, readNumber_eq_ok_iff.2 ⟨h, hfinite⟩, rfl⟩
    | decay h hlo hhi => exact map_eq_ok_iff.2 ⟨_, readFraction_eq_ok_iff.2 ⟨h, hlo, hhi⟩, rfl⟩
    | stabilize => rfl
    | parent => exact map_eq_ok_iff.2 ⟨_, readTarget_eq_ok_iff.2 (.inl ⟨rfl, rfl⟩), rfl⟩
    | glyph h hparent =>
        exact map_eq_ok_iff.2 ⟨_, readTarget_eq_ok_iff.2 (.inr ⟨_, rfl, h, hparent, rfl⟩), rfl⟩

/-- There are no blanks in an argument. -/
theorem Argument.visible (h : Argument v arg c) : Visible arg := by
  cases h with
  | resonate h => exact Decimal.visible_of_isNumeral h.form
  | amplify h => exact Decimal.visible_of_isNumeral h.form
  | phaseShift h => exact Decimal.visible_of_isNumeral h.form
  | decay h => exact Decimal.visible_of_isNumeral h.form
  | stabilize => exact fun _ hc => absurd hc List.not_mem_nil
  | parent => exact (GlyphId.isValid_iff.1 rfl).visible
  | glyph h => exact h.visible

theorem Argument.isUsable (h : Argument v arg c) : c.isUsable = true := by
  cases h <;> rfl

/-! ## names -/

/-- The names are words as ids are. -/
theorem isWord_name (v : Verb) : GlyphId.IsWord v.name :=
  GlyphId.isValid_iff.1 (by cases v <;> decide)

theorem name_ne_nil (v : Verb) : v.name.toList ≠ [] := by
  cases v <;> decide

theorem ofName?_eq_some_iff : Verb.ofName? (String.ofList name) = some v ↔ name = v.name.toList := by
  constructor
  · intro h
    rw [Verb.name_of_ofName? h, String.toList_ofList]
  · rintro rfl
    rw [String.ofList_toList, Verb.ofName?_name]

theorem ofCall_eq_iff {arg? : Option (List Char)} (hc : c.isUsable = true) :
    ofCall name arg? = c ↔ ∃ v arg, name = v.name.toList ∧ arg? = some arg ∧ Argument v arg c := by
  unfold ofCall
  split
  · next hempty =>
    refine iff_of_false (by rintro rfl; cases hc) ?_
    rintro ⟨v, arg, rfl, -⟩
    exact name_ne_nil v (List.isEmpty_iff.1 hempty)
  · split
    · next hname =>
      refine iff_of_false (by rintro rfl; cases hc) ?_
      rintro ⟨v, arg, hv, -⟩
      rw [ofName?_eq_some_iff.2 hv] at hname
      cases hname
    · next v hname =>
      obtain rfl := ofName?_eq_some_iff.1 hname
      have hverb {w : Verb} : v.name.toList = w.name.toList ↔ w = v := by
        rw [← ofName?_eq_some_iff, hname, Option.some.injEq, eq_comm]
      split
      · exact iff_of_false (by rintro rfl; cases hc) (by simp)
      · next arg =>
        have hargument : (∃ w arg', v.name.toList = w.name.toList ∧ some arg = some arg' ∧
            Argument w arg' c) ↔ ofVerb v arg = .ok c := by
          simp [hverb, ofVerb_eq_ok_iff]
        rw [hargument]
        cases ofVerb v arg with
        | ok d => simp
        | error e => exact iff_of_false (by rintro rfl; cases hc) (by simp)

theorem ofCall_eq_unknown_iff {arg? : Option (List Char)} {n : String} :
    ofCall name arg? = .unknown n ↔
      name ≠ [] ∧ (∀ v : Verb, name ≠ v.name.toList) ∧ n = String.ofList name := by
  unfold ofCall
  split
  · next hempty => simp [List.isEmpty_iff.1 hempty]
  · next hempty =>
    split
    · next hname =>
      have hverb (v : Verb) : name ≠ v.name.toList := by
        intro hv
        rw [ofName?_eq_some_iff.2 hv] at hname
        cases hname
      rw [List.isEmpty_iff] at hempty
      simp only [Command.unknown.injEq, hempty, hverb, ne_eq, not_false_eq_true, implies_true,
        true_and, eq_comm]
    · next v hname =>
      refine iff_of_false ?_ fun h => h.2.1 v (ofName?_eq_some_iff.1 hname)
      split
      · simp
      · next arg =>
        cases hverb : ofVerb v arg with
        | error e => simp
        | ok d =>
            have husable := (ofVerb_eq_ok_iff.1 hverb).isUsable
            rintro rfl
            cases husable

/-! ## pieces -/

theorem nameOf_of_not_mem (h : '(' ∉ t) : nameOf t = trim t := by
  have htake : t.takeWhile (· ≠ '(') = t :=
    List.takeWhile_eq_self_iff.2 fun c hc => decide_eq_true (ne_of_mem_of_not_mem hc h)
  rw [nameOf, htake]

theorem nameOf_append (h : '(' ∉ name) (rest : List Char) :
    nameOf (name ++ '(' :: rest) = trim name := by
  have hname : ∀ c ∈ name, decide (c ≠ '(') = true :=
    fun c hc => decide_eq_true (ne_of_mem_of_not_mem hc h)
  rw [nameOf, List.takeWhile_append_of_pos hname]
  simp

/-- What can be used is cut at its parentheses, and then trimmed. -/
theorem ofPiece_eq_iff (hc : c.isUsable = true) : ofPiece p = c ↔ ∃ v name arg,
    trim p = name ++ '(' :: (arg ++ [')']) ∧ trim name = v.name.toList ∧
      Argument v (trim arg) c := by
  constructor
  · intro h
    unfold ofPiece at h
    cases hcut : cut? '(' (trim p) with
    | none =>
        simp only [hcut] at h
        obtain ⟨v, arg, -, harg, -⟩ := (ofCall_eq_iff hc).1 h
        cases harg
    | some parts =>
        obtain ⟨name, rest⟩ := parts
        simp only [hcut] at h
        cases hdrop : dropLast? ')' rest with
        | none =>
            rw [hdrop] at h
            subst h
            cases hc
        | some arg =>
            rw [hdrop] at h
            obtain ⟨v, arg', hname, harg, hargument⟩ := (ofCall_eq_iff hc).1 h
            obtain rfl := Option.some.inj harg
            refine ⟨v, name, arg, ?_, hname, hargument⟩
            rw [(cut?_eq_some_iff.1 hcut).1, dropLast?_eq_some_iff.1 hdrop]
  · rintro ⟨v, name, arg, htext, hname, hargument⟩
    have hopen : '(' ∉ name := by
      rw [← mem_trim_iff (by decide), hname]
      exact (isWord_name v).not_mem rfl
    simp only [ofPiece, htext, cut?_append hopen, dropLast?_eq_some_iff.2 rfl]
    exact (ofCall_eq_iff hc).2 ⟨v, trim arg, hname, rfl, hargument⟩

theorem isCall_iff (ht : IsTrimmed t) : IsCall t c ↔ ∃ v name arg,
    t = name ++ '(' :: (arg ++ [')']) ∧ trim name = v.name.toList ∧ Argument v (trim arg) c := by
  constructor
  · intro h
    cases h with
    | @mk v arg _ gap before after hgap hbefore hafter harg =>
        have hname : trim (v.name.toList ++ gap) = v.name.toList := by
          rw [trim_append_right _ hgap, trim_eq_self_iff]
          exact isTrimmed_of_forall (isWord_name v).visible
        have htrim : trim (before ++ (arg ++ after)) = arg := by
          rw [trim_append_left hbefore, trim_append_right _ hafter, trim_eq_self_iff]
          exact isTrimmed_of_forall harg.visible
        exact ⟨v, _, _, rfl, hname, htrim.symm ▸ harg⟩
  · rintro ⟨v, name, arg, rfl, hname, hargument⟩
    obtain ⟨front, gap, hfront, hgap, hsplit⟩ := exists_blanks name
    obtain ⟨before, after, hbefore, hafter, harg⟩ := exists_blanks arg
    -- A trimmed text has no blanks in front of its name.
    obtain rfl : front = [] := by
      cases front with
      | nil => rfl
      | cons a front =>
          have ha := ht.head a (by rw [hsplit]; rfl)
          rw [hfront a List.mem_cons_self] at ha
          cases ha
    rw [hsplit, harg, List.nil_append, hname]
    exact .mk hgap hbefore hafter hargument

theorem ofPiece_eq_iff_isCall (hc : c.isUsable = true) : ofPiece p = c ↔ IsCall (trim p) c := by
  rw [ofPiece_eq_iff hc, isCall_iff (isTrimmed_trim p)]

theorem IsCall.isUsable (h : IsCall t c) : c.isUsable = true := by
  cases h with
  | mk _ _ _ harg => exact harg.isUsable

theorem isBroken_iff_of_not_mem (h : '(' ∉ t) :
    IsBroken t ↔ t = [] ∨ ∃ v : Verb, nameOf t = v.name.toList := by
  constructor
  · rintro (hempty | ⟨hopen, -⟩ | ⟨hopen, -⟩ | ⟨v, hname⟩)
    · exact .inl hempty
    · exact absurd hopen h
    · exact absurd hopen h
    · exact .inr ⟨v, hname⟩
  · rintro (hempty | ⟨v, hname⟩)
    · exact .empty hempty
    · exact .verb v hname

theorem isBroken_iff_of_mem (h : '(' ∈ t) : IsBroken t ↔
    t.getLast? ≠ some ')' ∨ nameOf t = [] ∨ ∃ v : Verb, nameOf t = v.name.toList := by
  constructor
  · rintro (rfl | ⟨-, hlast⟩ | ⟨-, hname⟩ | ⟨v, hname⟩)
    · cases h
    · exact .inl hlast
    · exact .inr (.inl hname)
    · exact .inr (.inr ⟨v, hname⟩)
  · rintro (hlast | hname | ⟨v, hname⟩)
    · exact .unclosed h hlast
    · exact .nameless h hname
    · exact .verb v hname

/-- A known name breaks a piece, so that calls need not be excluded here. -/
theorem ofPiece_eq_unknown_iff {n : String} : ofPiece p = .unknown n ↔
    ¬IsBroken (trim p) ∧ n = String.ofList (nameOf (trim p)) := by
  by_cases hopen : '(' ∈ trim p
  · obtain ⟨name, rest, htext, hname⟩ := List.eq_append_cons_of_mem hopen
    have hlast : (trim p).getLast? = some ')' ↔ rest.getLast? = some ')' := by
      rw [htext, List.getLast?_append, List.getLast?_cons]
      cases rest.getLast? <;> simp
    rw [isBroken_iff_of_mem hopen, ne_eq, hlast, htext, nameOf_append hname]
    simp only [ofPiece, htext, cut?_append hname]
    by_cases hclose : rest.getLast? = some ')'
    · simp [dropLast?, hclose, ofCall_eq_unknown_iff, and_assoc]
    · simp [dropLast?, hclose]
  · have hname : nameOf (trim p) = trim p := by rw [nameOf_of_not_mem hopen, trim_trim]
    rw [isBroken_iff_of_not_mem hopen, hname]
    simp [ofPiece, cut?_eq_none hopen, ofCall_eq_unknown_iff, and_assoc]

/-- A command is of use, of an unknown name, or malformed. -/
theorem exists_eq_malformed_iff : (∃ name argument fault, c = .malformed name argument fault) ↔
    c.isUsable = false ∧ ¬∃ name, c = .unknown name := by
  cases c <;> simp [isUsable]

/-- **The grammar of commands.**  What can be used is exactly what a call says.  Of the other
pieces, those broken in one of four ways are commands gone wrong, and the rest have a name that is
not known. -/
theorem ofPiece_grammar (p : List Char) :
    (∀ c, ofPiece p = c ∧ c.isUsable = true ↔ IsCall (trim p) c) ∧
    ((∃ name argument fault, ofPiece p = .malformed name argument fault) ↔
      (¬∃ c, IsCall (trim p) c) ∧ IsBroken (trim p)) ∧
    ∀ name, ofPiece p = .unknown name ↔
      (¬∃ c, IsCall (trim p) c) ∧ ¬IsBroken (trim p) ∧ name = String.ofList (nameOf (trim p)) := by
  have hcall (c : Command) : ofPiece p = c ∧ c.isUsable = true ↔ IsCall (trim p) c := by
    constructor
    · rintro ⟨hc, husable⟩
      exact (ofPiece_eq_iff_isCall husable).1 hc
    · intro h
      exact ⟨(ofPiece_eq_iff_isCall h.isUsable).2 h, h.isUsable⟩
  have hnone : (¬∃ c, IsCall (trim p) c) ↔ (ofPiece p).isUsable = false := by
    simp [← hcall]
  refine ⟨hcall, ?_, fun name => ?_⟩
  · rw [exists_eq_malformed_iff, hnone]
    simp [ofPiece_eq_unknown_iff]
  · rw [← ofPiece_eq_unknown_iff, hnone, iff_and_self]
    intro h
    rw [h]
    rfl

end Command

end GlyphField
