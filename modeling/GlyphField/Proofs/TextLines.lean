import GlyphField.Text.Blank
import GlyphField.Text.Split
import Mathlib.Data.List.DropRight

/-!
# GlyphField.Proofs.TextLines

Trimmed texts and the lines of a text.

* `isTrimmed_trim`, `trim_eq_self_iff` — trimming leaves no blank at either end, and nothing else
  is left as it is;
* `split_append_split`, `split_flatMap` — the pieces before and behind a separator, and pieces each
  with one;
* `filterMap_lines` — for a reading that does not look at blank ends, the pieces between line
  feeds are as good as the lines.
-/

namespace GlyphField.Text

variable {cs front rest : List Char} {c : Char}

/-! ## trimming -/

/-- Whether a text has no blank at either end. -/
structure IsTrimmed (cs : List Char) : Prop where
  head : ∀ c, cs.head? = some c → isBlank c = false
  last : ∀ c, cs.getLast? = some c → isBlank c = false

theorem trim_eq (cs : List Char) : trim cs = (cs.dropWhile isBlank).rdropWhile isBlank := rfl

theorem trim_isPrefix (cs : List Char) : trim cs <+: cs.dropWhile isBlank :=
  List.rdropWhile_prefix isBlank _

theorem mem_of_mem_trim (h : c ∈ trim cs) : c ∈ cs :=
  (List.dropWhile_sublist isBlank).subset ((trim_isPrefix cs).subset h)

theorem isTrimmed_trim (cs : List Char) : IsTrimmed (trim cs) where
  head c hc := by
    have hdrop := List.head?_dropWhile_not isBlank cs
    obtain ⟨rest, hrest⟩ := trim_isPrefix cs
    have hhead : (cs.dropWhile isBlank).head? = some c := by simp [← hrest, hc]
    simpa [hhead] using hdrop
  last c hc := by
    obtain ⟨hne, rfl⟩ := List.mem_getLast?_eq_getLast hc
    exact eq_false_of_ne_true (List.rdropWhile_last_not isBlank _ hne)

theorem trim_eq_self_iff : trim cs = cs ↔ IsTrimmed cs := by
  constructor
  · intro h
    rw [← h]
    exact isTrimmed_trim cs
  · intro h
    have hdrop : cs.dropWhile isBlank = cs := by
      cases cs with
      | nil => rfl
      | cons c cs => simp [h.head c rfl]
    rw [trim_eq, hdrop, List.rdropWhile_eq_self_iff]
    intro hne
    simp [h.last _ (List.getLast?_eq_some_getLast hne)]

theorem trim_trim (cs : List Char) : trim (trim cs) = trim cs :=
  trim_eq_self_iff.2 (isTrimmed_trim cs)

theorem trim_eq_nil_iff : trim cs = [] ↔ ∀ c ∈ cs, isBlank c = true := by
  rw [trim_eq, List.rdropWhile_eq_nil_iff]
  constructor
  · intro h c hc
    rw [← List.takeWhile_append_dropWhile (p := isBlank) (l := cs), List.mem_append] at hc
    exact hc.elim List.mem_takeWhile_imp (h c)
  · exact fun h c hc => h c ((List.dropWhile_sublist isBlank).subset hc)

/-- A text that does not start with a blank keeps its first character. -/
theorem head?_trim_cons (hc : isBlank c = false) (cs : List Char) :
    (trim (c :: cs)).head? = some c := by
  have hne : trim (c :: cs) ≠ [] := by
    intro h
    simp [trim_eq_nil_iff, hc] at h
  obtain ⟨rest, hrest⟩ := trim_isPrefix (c :: cs)
  cases h : trim (c :: cs) with
  | nil => exact absurd h hne
  | cons a as =>
      rw [h] at hrest
      simp_all

/-- Whether none of the characters is a blank. -/
def Visible (cs : List Char) : Prop := ∀ c ∈ cs, isBlank c = false

theorem isTrimmed_of_forall (h : Visible cs) : IsTrimmed cs where
  head c hc := h c (List.mem_of_head? hc)
  last c hc := h c (List.mem_of_getLast? hc)

/-- A text without blanks before a trimmed one. -/
theorem IsTrimmed.append {front : List Char} (hfront : Visible front)
    (hne : front ≠ []) (h : IsTrimmed cs) : IsTrimmed (front ++ cs) where
  head c hc := by
    rw [List.head?_append_of_ne_nil _ hne] at hc
    exact hfront c (List.mem_of_head? hc)
  last c hc := by
    rw [List.getLast?_append] at hc
    cases hlast : cs.getLast? with
    | none =>
        rw [hlast, Option.none_or] at hc
        exact hfront c (List.mem_of_getLast? hc)
    | some d =>
        obtain rfl : d = c := by simpa [hlast] using hc
        exact h.last d hlast

/-- The visible characters of ASCII. -/
theorem isBlank_eq_false (h : 0x21 ≤ c.toNat) (h' : c.toNat ≤ 0x7E) : isBlank c = false := by
  simp [isBlank, blankRanges]
  omega

theorem trim_concat_blank (cs : List Char) (hc : isBlank c = true) :
    trim (cs ++ [c]) = trim cs := by
  rw [trim_eq, trim_eq, List.dropWhile_append]
  split
  · next h => simp [hc, List.isEmpty_iff.1 h]
  · exact List.rdropWhile_concat_pos isBlank _ c hc

theorem trim_cons_blank (hc : isBlank c = true) (cs : List Char) : trim (c :: cs) = trim cs := by
  rw [trim_eq, trim_eq, List.dropWhile_cons_of_pos hc]

/-- Whether all of the characters are blanks. -/
def AreBlank (cs : List Char) : Prop := ∀ c ∈ cs, isBlank c = true

theorem trim_append_left (h : AreBlank front) (cs : List Char) : trim (front ++ cs) = trim cs := by
  rw [trim_eq, trim_eq, List.dropWhile_append_of_pos h]

theorem trim_append_right (cs : List Char) (h : AreBlank rest) : trim (cs ++ rest) = trim cs := by
  induction rest using List.reverseRecOn with
  | nil => rw [List.append_nil]
  | append_singleton rest c ih =>
      obtain ⟨hrest, hc⟩ := List.forall_mem_append.1 h
      rw [← List.append_assoc, trim_concat_blank _ (hc c List.mem_cons_self), ih hrest]

/-- A text is its blanks in front, what trimming leaves, and its blanks behind. -/
theorem exists_blanks (cs : List Char) :
    ∃ front rest, AreBlank front ∧ AreBlank rest ∧ cs = front ++ (trim cs ++ rest) := by
  refine ⟨cs.takeWhile isBlank, (cs.dropWhile isBlank).rtakeWhile isBlank,
    fun _ => List.mem_takeWhile_imp, fun _ => List.mem_rtakeWhile_imp, ?_⟩
  rw [trim_eq, List.rdropWhile_append_rtakeWhile, List.takeWhile_append_dropWhile]

/-- Trimming takes nothing but blanks away. -/
theorem mem_trim_iff {c : Char} (hc : isBlank c = false) : c ∈ trim cs ↔ c ∈ cs := by
  refine ⟨mem_of_mem_trim, fun h => ?_⟩
  obtain ⟨front, rest, hfront, hrest, hcs⟩ := exists_blanks cs
  have hout {l : List Char} (hl : AreBlank l) : c ∉ l := by
    intro hmem
    rw [hl c hmem] at hc
    cases hc
  rw [hcs] at h
  simpa [hout hfront, hout hrest] using h

/-! ## lines -/

/-- The text without one carriage return at its end. -/
def dropReturn (cs : List Char) : List Char := (dropLast? '\r' cs).getD cs

/-- The lines of a text.  A line feed, or a carriage return with a line feed, ends a line; the last
one needs no end, and there is none after the last end. -/
def lines (cs : List Char) : List (List Char) :=
  (split '\n' cs).dropLast.map dropReturn ++ (split '\n' cs).getLast?.toList.filter (· ≠ [])

theorem trim_dropReturn (cs : List Char) : trim (dropReturn cs) = trim cs := by
  unfold dropReturn dropLast?
  split
  · next h =>
    obtain ⟨front, rfl⟩ := List.getLast?_eq_some_iff.1 h
    simpa using (trim_concat_blank front (by decide)).symm
  · rfl

theorem filterMap_lines {β : Type} {f : List Char → Option β} (hnil : f [] = none)
    (hreturn : ∀ l, f (dropReturn l) = f l) (cs : List Char) :
    (lines cs).filterMap f = (split '\n' cs).filterMap f := by
  obtain ⟨front, last, hsplit⟩ : ∃ front last, split '\n' cs = front ++ [last] :=
    ⟨_, _, (List.dropLast_append_getLast (split_ne_nil '\n' cs)).symm⟩
  rw [lines, hsplit]
  by_cases h : last = [] <;> simp [h, hnil, hreturn, List.filterMap_append]

section Split

variable {α : Type} [DecidableEq α] {sep : α}

theorem split_eq_singleton {l : List α} (h : sep ∉ l) : split sep l = [l] := by
  induction l with
  | nil => rfl
  | cons a l ih =>
      obtain ⟨hne, hl⟩ := not_or.1 (mt List.mem_cons.2 h)
      rw [split_cons, ih hl]
      simp [splitStep, Ne.symm hne]

theorem split_append_split (l rest : List α) :
    split sep (l ++ sep :: rest) = split sep l ++ split sep rest := by
  induction l with
  | nil => exact split_cons_self sep rest
  | cons a l ih =>
      obtain ⟨q, qs, hq⟩ := List.exists_cons_of_ne_nil (split_ne_nil sep l)
      rw [List.cons_append, split_cons, split_cons, ih, hq]
      by_cases ha : a = sep <;> simp [splitStep, ha]

theorem split_append {l : List α} (h : sep ∉ l) (rest : List α) :
    split sep (l ++ sep :: rest) = l :: split sep rest := by
  rw [split_append_split, split_eq_singleton h, List.singleton_append]

/-- Pieces that are each followed by a separator. -/
theorem split_flatMap {ls : List (List α)} (h : ∀ l ∈ ls, sep ∉ l) :
    split sep (ls.flatMap (· ++ [sep])) = ls ++ [[]] := by
  induction ls with
  | nil => rfl
  | cons l ls ih =>
      obtain ⟨hl, hls⟩ := List.forall_mem_cons.1 h
      rw [List.flatMap_cons, List.append_assoc, List.singleton_append, split_append hl, ih hls]
      rfl

theorem not_mem_of_mem_split {l p : List α} (h : p ∈ split sep l) : sep ∉ p := by
  induction l generalizing p with
  | nil =>
      obtain rfl : p = [] := by simpa using h
      exact List.not_mem_nil
  | cons a l ih =>
      obtain ⟨q, qs, hq⟩ := List.exists_cons_of_ne_nil (split_ne_nil sep l)
      have ih {r : List α} (hr : r ∈ q :: qs) : sep ∉ r := ih (hq ▸ hr)
      rw [split_cons, hq] at h
      by_cases ha : a = sep
      · simp only [splitStep, ha, if_true, List.mem_cons] at h
        obtain rfl | h := h
        · exact List.not_mem_nil
        · exact ih (List.mem_cons.2 h)
      · simp only [splitStep, ha, if_false, List.mem_cons] at h
        obtain rfl | h := h
        · exact List.not_mem_cons_of_ne_of_not_mem (Ne.symm ha) (ih List.mem_cons_self)
        · exact ih (List.mem_cons_of_mem q h)

theorem cut?_eq_none {l : List α} (h : sep ∉ l) : cut? sep l = none := by
  have hdrop : l.dropWhile (· ≠ sep) = [] := by
    rw [List.dropWhile_eq_nil_iff]
    intro a ha
    exact decide_eq_true (ne_of_mem_of_not_mem ha h)
  rw [cut?, hdrop]

theorem cut?_of_mem {l : List α} (h : sep ∈ l) :
    cut? sep l = some (l.takeWhile (· ≠ sep), (l.dropWhile (· ≠ sep)).tail) := by
  unfold cut?
  split
  · next hdrop =>
    rw [List.dropWhile_eq_nil_iff] at hdrop
    exact absurd rfl (of_decide_eq_true (hdrop sep h))
  · next hdrop => rw [hdrop, List.tail_cons]

theorem cut?_append {l : List α} (h : sep ∉ l) (rest : List α) :
    cut? sep (l ++ sep :: rest) = some (l, rest) := by
  have hl : ∀ a ∈ l, decide (a ≠ sep) = true := by
    intro a ha
    exact decide_eq_true (ne_of_mem_of_not_mem ha h)
  unfold cut?
  rw [List.dropWhile_append_of_pos hl, List.takeWhile_append_of_pos hl]
  simp

/-- A text is cut in exactly one way. -/
theorem cut?_eq_some_iff {l key value : List α} :
    cut? sep l = some (key, value) ↔ l = key ++ sep :: value ∧ sep ∉ key := by
  constructor
  · intro h
    have hmem : sep ∈ l := by
      by_contra hmem
      rw [cut?_eq_none hmem] at h
      cases h
    obtain ⟨key', value', rfl, hkey⟩ := List.eq_append_cons_of_mem hmem
    rw [cut?_append hkey] at h
    obtain ⟨rfl, rfl⟩ : key' = key ∧ value' = value := by simpa using h
    exact ⟨rfl, hkey⟩
  · rintro ⟨rfl, h⟩
    exact cut?_append h value

theorem dropLast?_eq_some_iff {l m : List α} :
    dropLast? sep l = some m ↔ l = m ++ [sep] := by
  unfold dropLast?
  split
  · next h =>
    obtain ⟨l, rfl⟩ := List.getLast?_eq_some_iff.1 h
    simp
  · next h =>
    refine iff_of_false (by simp) ?_
    rintro rfl
    simp at h

end Split

end GlyphField.Text
