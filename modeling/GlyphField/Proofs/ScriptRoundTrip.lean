import GlyphField.Proofs.CommandGrammar
import GlyphField.Proofs.ShortestText

/-!
# GlyphField.Proofs.ScriptRoundTrip

Commands are printed and read back.  The label of a command that can be used is a call of the
grammar with the argument in normal form: the shortest text of a number, an id, or the word for the
first parent, which no id is taken for.  There is no bar in a label, so that labels with bars
between them are read one by one.

* `Argument.exists_label` — the argument that a label has;
* `ofPiece_label` — the label of a command says that command;
* `Script.commands_intercalate_label` — a script of labels.
-/

namespace GlyphField

open GlyphField.Text

/-! ## labels -/

namespace Command

open GlyphField.Decimal (shortest)

variable {v : Verb} {arg : List Char} {c : Command} {x : Float}

theorem numeral_shortest (hx : x.isFinite = true) : Numeral (shortest x).toList x :=
  numeral_iff.2 (Decimal.readFloat?_shortest hx)

/-- The label of a command has an argument that makes the command. -/
theorem Argument.exists_label (h : Argument v arg c) :
    ∃ s : String, Argument v s.toList c ∧ c.label = call v.name s := by
  cases h with
  | resonate _ hfinite hfactor =>
      exact ⟨_, .resonate (numeral_shortest hfinite) hfinite hfactor, rfl⟩
  | amplify _ hfinite hfactor =>
      exact ⟨_, .amplify (numeral_shortest hfinite) hfinite hfactor, rfl⟩
  | phaseShift _ hfinite => exact ⟨_, .phaseShift (numeral_shortest hfinite) hfinite, rfl⟩
  | decay _ hlo hhi =>
      have hfinite := Binary64.isFinite_of_le_of_le rfl (by decide +kernel) hlo hhi
      exact ⟨_, .decay (numeral_shortest hfinite) hlo hhi, rfl⟩
  | stabilize => exact ⟨"", .stabilize, rfl⟩
  | parent => exact ⟨"parent", .parent, rfl⟩
  | glyph hid hparent => exact ⟨_, .glyph hid hparent, rfl⟩

theorem Argument.not_mem_bar (h : Argument v arg c) : '|' ∉ arg := by
  have hnumeral {cs : List Char} {x : Float} (hx : Numeral cs x) : '|' ∉ cs := by
    intro hmem
    exact absurd (Decimal.areNumeralChars_of_isNumeral hx.form _ hmem) (by decide)
  cases h with
  | resonate hx => exact hnumeral hx
  | amplify hx => exact hnumeral hx
  | phaseShift hx => exact hnumeral hx
  | decay hx => exact hnumeral hx
  | stabilize => exact List.not_mem_nil
  | parent => exact (GlyphId.isValid_iff.1 rfl).not_mem rfl
  | glyph hid => exact hid.not_mem rfl

theorem toList_call (name argument : String) :
    (call name argument).toList = name.toList ++ '(' :: (argument.toList ++ [')']) := by
  simp [call]

/-- The label of a command says that command, and has no bar. -/
theorem Argument.ofPiece_label (h : Argument v arg c) :
    ofPiece c.label.toList = c ∧ '|' ∉ c.label.toList := by
  obtain ⟨s, hs, hlabel⟩ := h.exists_label
  rw [hlabel, toList_call]
  have hvisible : Visible (v.name.toList ++ '(' :: (s.toList ++ [')'])) :=
    List.forall_mem_append.2 ⟨(isWord_name v).visible, List.forall_mem_cons.2 ⟨by decide,
      List.forall_mem_append.2 ⟨hs.visible, by simp; decide⟩⟩⟩
  constructor
  · refine (ofPiece_eq_iff h.isUsable).2 ⟨v, v.name.toList, s.toList, ?_, ?_, ?_⟩
    · exact trim_eq_self_iff.2 (isTrimmed_of_forall hvisible)
    · exact trim_eq_self_iff.2 (isTrimmed_of_forall (isWord_name v).visible)
    · rwa [trim_eq_self_iff.2 (isTrimmed_of_forall hs.visible)]
  · have hname : '|' ∉ v.name.toList := (isWord_name v).not_mem rfl
    simp [hname, hs.not_mem_bar]

end Command

/-! ## scripts -/

namespace Script

open GlyphField.Command (Argument ofPiece ofPiece_trim)

variable {v : Verb} {arg : List Char} {c : Command} {cs : List Command}

/-- Blanks behind a label do not count. -/
theorem commands_label (h : Argument v arg c) (rest : List Char) (hrest : AreBlank rest) :
    commands (c.label.toList ++ rest) = [c] := by
  obtain ⟨hread, hbar⟩ := h.ofPiece_label
  have hpiece : ofPiece (c.label.toList ++ rest) = c := by
    rw [← ofPiece_trim, trim_append_right _ hrest, ofPiece_trim, hread]
  have hbar : '|' ∉ c.label.toList ++ rest := by
    refine List.not_mem_append hbar fun hmem => ?_
    exact absurd (hrest _ hmem) (by decide)
  have hne : trim (c.label.toList ++ rest) ≠ [] :=
    Command.trim_ne_nil (by rw [hpiece, h.isUsable])
  rw [commands_of_piece hbar, if_neg hne, hpiece]

theorem commands_intercalate_label (h : ∀ c ∈ cs, ∃ v arg, Argument v arg c) :
    commands (" | ".intercalate (cs.map Command.label)).toList = cs := by
  induction cs with
  | nil => rfl
  | cons c cs ih =>
      obtain ⟨⟨v, arg, hc⟩, hcs⟩ := List.forall_mem_cons.1 h
      cases cs with
      | nil => simpa using commands_label hc [] (by simp [AreBlank])
      | cons d ds =>
          have hfirst := commands_label hc [' '] (by simp [AreBlank]; decide)
          have hsplit : (" | ".intercalate ((c :: d :: ds).map Command.label)).toList =
              (c.label.toList ++ [' ']) ++
                '|' :: ' ' :: (" | ".intercalate ((d :: ds).map Command.label)).toList := by
            simp [String.intercalate_cons_cons]
          rw [hsplit, commands_append, hfirst, commands_cons_blank (by decide), ih hcs]
          rfl

/-- **Scripts are printed and read back.**  The labels of commands that texts say, with bars between
them, are read as those commands; and a bar in a script separates what is read on its two sides. -/
theorem printed_commands :
    (∀ cs : List Command, (∀ c ∈ cs, c.isUsable = true ∧ ∃ p : String, ofPiece p.toList = c) →
      commands (" | ".intercalate (cs.map Command.label)).toList = cs) ∧
    ∀ a b : String, commands (a ++ "|" ++ b).toList = commands a.toList ++ commands b.toList := by
  constructor
  · intro cs h
    refine commands_intercalate_label fun c hc => ?_
    obtain ⟨husable, p, rfl⟩ := h c hc
    obtain ⟨v, name, arg, -, -, hargument⟩ := (Command.ofPiece_eq_iff husable).1 rfl
    exact ⟨v, _, hargument⟩
  · intro a b
    have hbar : (a ++ "|" ++ b).toList = a.toList ++ '|' :: b.toList := by
      simp
    rw [hbar, commands_append]

/-- The negative zero, the least and the greatest positive float, the first parent, and an id that
differs from the word for that by one letter. -/
theorem printed_extremes :
    let cs := [.phaseShift (-0.0), .entangle .parent, .entangle (.glyph "Parent"), .resonate 5e-324,
      .amplify 1.7976931348623157e308, .stabilize, .decay 1]
    (∀ c ∈ cs, c.isUsable = true ∧ ∃ p : String, ofPiece p.toList = c) ∧
      commands (" | ".intercalate (cs.map Command.label)).toList = cs := by
  intro cs
  have h : ∀ c ∈ cs, c.isUsable = true ∧ ∃ p : String, ofPiece p.toList = c := by
    simp only [cs, List.forall_mem_cons]
    refine ⟨⟨rfl, "phase_shift(-0)", ?_⟩, ⟨rfl, "entangle( parent )", ?_⟩, ⟨rfl, "entangle(Parent)", ?_⟩,
      ⟨rfl, "resonate(5e-324)", ?_⟩, ⟨rfl, "amplify (1.7976931348623157E+308)", ?_⟩,
      ⟨rfl, "stabilize()", ?_⟩, ⟨rfl, "decay(+1.)", ?_⟩, by simp⟩ <;> decide +kernel
  exact ⟨h, printed_commands.1 cs h⟩

end Script

end GlyphField
