/-!
# GlyphField.Text.Split

Cutting lists, of characters or bytes: `split` cuts at every occurrence of a separator, `cut?` at
the first one and `cutLast?` at the last one.
-/

namespace GlyphField.Text

variable {α : Type} [DecidableEq α]

/-- One step of `split`, from the right: `c` either closes the first piece or joins it. -/
def splitStep (sep c : α) : List (List α) → List (List α)
  | [] => [[c]]
  | p :: ps => if c = sep then [] :: p :: ps else (c :: p) :: ps

/-- The pieces between the separators, empty ones included: one more than there are separators. -/
def split (sep : α) (cs : List α) : List (List α) :=
  cs.foldr (splitStep sep) [[]]

@[simp] theorem split_nil (sep : α) : split sep [] = [[]] := rfl

theorem split_cons (sep c : α) (cs : List α) :
    split sep (c :: cs) = splitStep sep c (split sep cs) := rfl

theorem split_ne_nil (sep : α) (cs : List α) : split sep cs ≠ [] := by
  cases cs with
  | nil => simp
  | cons c cs =>
    rw [split_cons]
    cases split sep cs with
    | nil => simp [splitStep]
    | cons p ps => simp only [splitStep]; split <;> simp

@[simp] theorem split_cons_self (sep : α) (cs : List α) :
    split sep (sep :: cs) = [] :: split sep cs := by
  rw [split_cons]
  cases h : split sep cs with
  | nil => exact absurd h (split_ne_nil sep cs)
  | cons p ps => simp [splitStep]

/-- Putting the separator back between the pieces gives the list. -/
theorem intercalate_split (sep : α) (cs : List α) : [sep].intercalate (split sep cs) = cs := by
  induction cs with
  | nil => rfl
  | cons c cs ih =>
    rw [split_cons]
    cases h : split sep cs with
    | nil => exact absurd h (split_ne_nil sep cs)
    | cons p ps =>
      rw [h] at ih
      by_cases hc : c = sep
      · subst hc
        simpa [splitStep, List.intercalate] using ih
      · rw [← ih]
        cases ps <;> simp [splitStep, hc, List.intercalate]

/-- The part before the first separator and all of the part after it. -/
def cut? (sep : α) (cs : List α) : Option (List α × List α) :=
  match cs.dropWhile (· ≠ sep) with
  | [] => none
  | _ :: rest => some (cs.takeWhile (· ≠ sep), rest)

/-- All of the part before the last separator and the part after it. -/
def cutLast? (sep : α) (cs : List α) : Option (List α × List α) :=
  (cut? sep cs.reverse).map fun p => (p.2.reverse, p.1.reverse)

/-- The part before the last element, if that is `c`. -/
def dropLast? (c : α) (cs : List α) : Option (List α) :=
  if cs.getLast? = some c then some cs.dropLast else none

end GlyphField.Text
