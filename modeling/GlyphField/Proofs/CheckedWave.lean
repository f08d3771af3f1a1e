import GlyphField.Proofs.OperationHistory
import GlyphField.Proofs.Repetitions
import GlyphField.Substrate.Wave
import Mathlib.Data.List.Induction

/-!
# GlyphField.Proofs.CheckedWave

A wave by cell numbers.  It is a breadth-first search over plain numbers: a number is marked when it
is first met, each front is written before the next one is gathered, and every write looks again
whether its number is in the grid.  A write that failed would leave the cells before it written, so
that a failed wave would not leave the substrate as it was.  No write fails: the search starts in
the grid and never leaves it.

* `foldl_meet` — marks find the same fronts;
* `writeNumbers_map` — a front in the grid is written;
* `run_wave_eq_checked` — the checked wave is the wave.
-/

namespace GlyphField

/-! ## fronts of numbers -/

namespace Grid

/-- The numbers of the cells to the left, to the right, above and below. -/
def stepNumbers (n : Nat) : List Nat :=
  (if 0 < column n then [n - 1] else []) ++
    (if column n < gridWidth - 1 then [n + 1] else []) ++
    (if 0 < row n then [n - gridWidth] else []) ++
    (if row n < gridWidth - 1 then [n + gridWidth] else [])

/-- Meets a number: unless it is marked, it is marked and joins the next front. -/
def meet (found : List Nat × List Nat) (n : Nat) : List Nat × List Nat :=
  if n ∈ found.1 then found else (n :: found.1, found.2 ++ [n])

/-- From a cell of the grid all steps lead into the grid. -/
theorem stepNumbers_val (i : Index) : stepNumbers i.val = (neighbours i).map Fin.val := by
  simp only [stepNumbers, neighbours, List.map_append]
  congr 1
  · congr 1
    · congr 1
      · unfold left?
        split <;> rfl
      · unfold right?
        split <;> rfl
    · unfold up?
      split <;> rfl
  · unfold down?
    split <;> rfl

theorem flatMap_stepNumbers (front : List Index) :
    (front.map Fin.val).flatMap stepNumbers = (front.flatMap neighbours).map Fin.val := by
  rw [List.flatMap_map, List.map_flatMap]
  exact List.flatMap_congr fun i _ => stepNumbers_val i

/-- Cells that are met in order make up the cells that were not reached before, each once. -/
theorem foldl_meet {marked : List Nat} {reached : List Index}
    (h : ∀ i : Index, i.val ∈ marked ↔ i ∈ reached) (is : List Index) :
    ((is.map Fin.val).foldl meet (marked, [])).2 =
        ((is.filter fun i => !reached.contains i).eraseDups).map Fin.val ∧
      ∀ i : Index, i.val ∈ ((is.map Fin.val).foldl meet (marked, [])).1 ↔ i ∈ is ∨ i ∈ reached := by
  induction is using List.reverseRecOn with
  | nil => simpa using h
  | append_singleton is i ih =>
      obtain ⟨hnext, hmarked⟩ := ih
      rw [List.map_append, List.map_singleton, List.foldl_append, List.foldl_cons, List.foldl_nil,
        List.filter_append]
      simp only [meet, hmarked i]
      by_cases hi : i ∈ is ∨ i ∈ reached
      · -- a cell that has been met or reached adds nothing
        rw [if_pos hi]
        refine ⟨hnext.trans (congrArg (List.map Fin.val) ?_), fun j => ?_⟩
        · by_cases hr : i ∈ reached
          · simp [hr]
          · have hsub : [i] ⊆ is.filter fun i => !reached.contains i := by
              simpa [hr] using hi.resolve_right hr
            have hone : [i].filter (fun i => !reached.contains i) = [i] := by simp [hr]
            rw [hone, ← List.append_nil (is.filter _ ++ [i]), eraseDups_append_of_subset hsub,
              List.append_nil]
        · rw [hmarked j, List.mem_append, List.mem_singleton, or_assoc]
          refine ⟨Or.imp_right .inr, ?_⟩
          rintro (hj | rfl | hj)
          · exact .inl hj
          · exact hi
          · exact .inr hj
      · obtain ⟨hnew, hr⟩ := not_or.1 hi
        have hone : [i].filter (fun i => !reached.contains i) = [i] := by simp [hr]
        rw [if_neg hi, hone, eraseDups_concat (by simp [hnew]), List.map_append]
        refine ⟨by rw [hnext]; rfl, fun j => ?_⟩
        simp only [List.mem_cons, hmarked j, List.mem_append, ← Fin.ext_iff]
        tauto

end Grid

/-! ## checked waves -/

namespace Substrate

/-- Writes the cells with these numbers as a wave after so many steps; ends at a number outside of
the grid, with the cells before it written. -/
def writeNumbers (w : Wave) (steps : Nat) (s : Substrate) :
    List Nat → Except SubstrateError Unit × Substrate
  | [] => (.ok (), s)
  | n :: ns =>
    match locate n with
    | .error e => (.error e, s)
    | .ok i => writeNumbers w steps (s.write i (w.apply steps (s.cell i))) ns

/-- Writes a front and then up to `remaining` further ones; `written` cells have been written. -/
def spread (w : Wave) (s : Substrate) (marked front : List Nat) (written steps remaining : Nat) :
    Outcome :=
  match s.writeNumbers w steps front with
  | (.error e, s) => (.error e, s)
  | (.ok (), s) =>
    match remaining with
    | 0 => (.ok (.written (written + front.length)), s)
    | remaining + 1 =>
      let found := (front.flatMap Grid.stepNumbers).foldl Grid.meet (marked, [])
      spread w s found.1 found.2 (written + front.length) (steps + 1) remaining

/-- Sends out a wave that checks the number of each cell it writes. -/
def checkedWave (s : Substrate) (n : Nat) (w : Wave) : Outcome :=
  match locate n, w.fault? with
  | .error e, _ => (.error e, s)
  | .ok _, some e => (.error e, s)
  | .ok _, none => s.spread w [n] [n] 0 0 Wave.maxSteps

theorem locate_val (i : Index) : locate i.val = .ok i := by
  simp only [locate, Grid.index?_val]

theorem writeNumbers_map (w : Wave) (steps : Nat) (s : Substrate) (is : List Index) :
    s.writeNumbers w steps (is.map Fin.val) = (.ok (), writeFront w s (is, steps)) := by
  induction is generalizing s with
  | nil => rfl
  | cons i is ih =>
      rw [List.map_cons, writeNumbers, locate_val]
      exact ih _

theorem spread_map (w : Wave) (s : Substrate) {marked : List Nat} {reached front : List Index}
    (h : ∀ i : Index, i.val ∈ marked ↔ i ∈ front ++ reached) (written steps remaining : Nat) :
    s.spread w marked (front.map Fin.val) written steps remaining =
      (.ok (.written (written + (Grid.frontsFrom reached front remaining).flatten.length)),
        ((Grid.frontsFrom reached front remaining).zipIdx steps).foldl (writeFront w) s) := by
  induction remaining generalizing s marked reached front written steps with
  | zero =>
      rw [spread, writeNumbers_map]
      simp [Grid.frontsFrom]
  | succ remaining ih =>
      obtain ⟨hnext, hmarked⟩ := Grid.foldl_meet h (front.flatMap Grid.neighbours)
      have hreached (i : Index) :
          i.val ∈ (((front.flatMap Grid.neighbours).map Fin.val).foldl Grid.meet (marked, [])).1 ↔
            i ∈ Grid.nextFront (front ++ reached) front ++ (front ++ reached) := by
        rw [hmarked, List.mem_append (s := Grid.nextFront _ _)]
        by_cases hi : i ∈ front ++ reached
        · exact iff_of_true (.inr hi) (.inr hi)
        · rw [or_iff_left hi, or_iff_left hi, Grid.nextFront, List.mem_eraseDups, List.mem_filter]
          simp only [List.contains_eq_mem, hi, decide_false, Bool.not_false, and_true]
      rw [spread, writeNumbers_map]
      simp only [Grid.flatMap_stepNumbers, hnext]
      refine (ih (writeFront w s (front, steps)) hreached _ _).trans ?_
      simp only [Grid.frontsFrom, List.flatten_cons, List.length_append, List.length_map,
        List.zipIdx_cons, List.foldl_cons, Nat.add_assoc]

/-- **A wave stays in the grid.**  None of the checks of a wave fails after the first. -/
theorem run_wave_eq_checked (s : Substrate) (n : Nat) (w : Wave) :
    s.run (.wave n w) = s.checkedWave n w := by
  rw [run, checkedWave, withCell]
  cases hi : locate n with
  | error e => rfl
  | ok i =>
      have hn : n = i.val := by
        unfold locate at hi
        split at hi
        · next hindex =>
          cases hi
          exact Grid.index?_eq_some_iff.1 hindex
        · cases hi
      subst hn
      cases w.fault? with
      | some e => rfl
      | none =>
          have hmarked (j : Index) : j.val ∈ [i.val] ↔ j ∈ [i] ++ [] := by
            simp [Fin.ext_iff]
          have hspread := s.spread_map w hmarked 0 0 Wave.maxSteps
          rw [Nat.zero_add] at hspread
          exact hspread.symm

end Substrate

end GlyphField
