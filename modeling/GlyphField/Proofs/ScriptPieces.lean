import GlyphField.Proofs.TextLines
import GlyphField.Script.Reader

/-!
# GlyphField.Proofs.ScriptPieces

A script is read piece by piece.  The commands on the two sides of a bar do not know of each other,
so that a script is read as the pieces that it is put together from; blanks around a piece do not
count, and a blank piece says nothing.

* `commands_append`, `commands_intercalate` — scripts put together with bars;
* `commands_of_piece` — a script without bars;
* `commands_usable` — the script without the pieces that cannot be used.
-/

namespace GlyphField

open GlyphField.Text

variable {c : Char} {p s : List Char}

/-! ## pieces -/

/-- Blanks around a piece do not count. -/
theorem Command.ofPiece_trim (p : List Char) : ofPiece (trim p) = ofPiece p := by
  simp only [ofPiece, trim_trim]

theorem Command.ofPiece_of_blank (h : trim p = []) : ofPiece p = .malformed "" "" .emptyName := by
  rw [← ofPiece_trim, h]
  rfl

/-- What can be used is not blank. -/
theorem Command.trim_ne_nil (h : (ofPiece p).isUsable = true) : trim p ≠ [] := by
  intro hblank
  rw [ofPiece_of_blank hblank] at h
  cases h

namespace Script

/-! ## scripts -/

/-- The two sides of a bar. -/
theorem commands_append (s s' : List Char) : commands (s ++ '|' :: s') = commands s ++ commands s' := by
  simp only [commands, split_append_split, List.map_append, List.filter_append]

theorem commands_intercalate (ps : List (List Char)) :
    commands (['|'].intercalate ps) = ps.flatMap commands := by
  induction ps with
  | nil => rfl
  | cons p ps ih =>
      cases ps with
      | nil => simp
      | cons q qs =>
          rw [List.intercalate_cons_cons, List.append_assoc, List.singleton_append,
            commands_append, ih]
          rfl

theorem commands_of_piece (h : '|' ∉ p) :
    commands p = if trim p = [] then [] else [Command.ofPiece p] := by
  rw [commands, split_eq_singleton h, List.map_singleton]
  by_cases hp : trim p = []
  · simp [hp]
  · simp [hp, Command.ofPiece_trim]

/-- A blank in front does not count. -/
theorem commands_cons_blank (hc : isBlank c = true) (s : List Char) :
    commands (c :: s) = commands s := by
  have hbar : c ≠ '|' := by
    rintro rfl
    exact absurd hc (by decide)
  obtain ⟨q, qs, hq⟩ := List.exists_cons_of_ne_nil (split_ne_nil '|' s)
  have hsplit : split '|' (c :: s) = (c :: q) :: qs := by
    rw [split_cons, hq, splitStep, if_neg hbar]
  rw [commands, commands, hsplit, hq, List.map_cons, List.map_cons, trim_cons_blank hc]

/-- The pieces of a script that can be used, with bars between them. -/
def usable (s : List Char) : List Char :=
  ['|'].intercalate ((split '|' s).filter fun p => (Command.ofPiece p).isUsable)

/-- Of the pieces that make up a script, those that can be used say the commands that can. -/
theorem flatMap_commands_filter {ps : List (List Char)} (h : ∀ p ∈ ps, '|' ∉ p) :
    (ps.filter fun p => (Command.ofPiece p).isUsable).flatMap commands =
      (ps.flatMap commands).filter Command.isUsable := by
  induction ps with
  | nil => rfl
  | cons p ps ih =>
      obtain ⟨hbar, hps⟩ := List.forall_mem_cons.1 h
      have hpiece := commands_of_piece hbar
      rw [List.flatMap_cons, List.filter_append, ← ih hps]
      cases huse : (Command.ofPiece p).isUsable with
      | true =>
          rw [if_neg (Command.trim_ne_nil huse)] at hpiece
          simp [huse, hpiece]
      | false =>
          have hnone : (commands p).filter Command.isUsable = [] := by
            rw [hpiece]
            split <;> simp [huse]
          simp [huse, hnone]

/-- The commands that can be used are those of the pieces that can be used. -/
theorem commands_usable (s : List Char) :
    commands (usable s) = (commands s).filter Command.isUsable := by
  conv_rhs => rw [← intercalate_split '|' s]
  rw [usable, commands_intercalate, commands_intercalate]
  exact flatMap_commands_filter fun p hp => not_mem_of_mem_split hp

end Script

end GlyphField
