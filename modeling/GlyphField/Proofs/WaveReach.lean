import GlyphField.Proofs.CleanSync
import GlyphField.Proofs.WaveFronts

/-!
# GlyphField.Proofs.WaveReach

What a wave does to a substrate.  Each front is the sphere at its distance, so the gain and the
phase shift of a cell are those of its own distance, and the wave is one pass over all cells within
ten steps.  As the pass meets no cell twice, each is written from the value that it had before.

* `cell_reachAll`, `writes_reachAll` — a pass over cells;
* `wave_eq` — a wave as such a pass;
* `wave_diamond` — all that a wave changes.
-/

namespace GlyphField.Substrate

variable {s : Substrate} {origin : Index} {w : Wave}

/-! ## a pass over cells -/

/-- Writes a cell as a wave from this origin reaches it. -/
def reach (w : Wave) (origin : Index) (s : Substrate) (i : Index) : Substrate :=
  s.write i (w.apply (Grid.distance origin.val i.val) (s.cell i))

/-- Writes cells in order as a wave reaches them. -/
def reachAll (w : Wave) (origin : Index) (s : Substrate) (is : List Index) : Substrate :=
  is.foldl (reach w origin) s

/-- Writes leave the clock, the count of reads and the pouch alone. -/
theorem reachAll_beside (w : Wave) (origin : Index) (s : Substrate) (is : List Index) :
    (reachAll w origin s is).time = s.time ∧ (reachAll w origin s is).reads = s.reads ∧
      (reachAll w origin s is).pouch = s.pouch := by
  induction is generalizing s with
  | nil => exact ⟨rfl, rfl, rfl⟩
  | cons i is ih => exact ih (reach w origin s i)

/-- Every write is counted, up to the greatest count. -/
theorem writes_reachAll (w : Wave) (origin : Index) (s : Substrate) (is : List Index) :
    (reachAll w origin s is).writes.toNat = min (s.writes.toNat + is.length) (2 ^ 64 - 1) := by
  induction is generalizing s with
  | nil =>
      have hlt := s.writes.toNat_lt
      show s.writes.toNat = min (s.writes.toNat + 0) (2 ^ 64 - 1)
      omega
  | cons i is ih =>
      have hone : (reach w origin s i).writes.toNat = min (s.writes.toNat + 1) (2 ^ 64 - 1) :=
        toNat_countUp s.writes
      have hrest := ih (reach w origin s i)
      rw [hone] at hrest
      rw [List.length_cons]
      exact hrest.trans (by omega)

/-- A pass that meets no cell twice writes each from the value it had before. -/
theorem cell_reachAll {is : List Index} (h : is.Nodup) (j : Index) :
    (reachAll w origin s is).cell j =
      if j ∈ is then
        (s.cell j).write s.time (w.apply (Grid.distance origin.val j.val) (s.cell j))
      else s.cell j := by
  induction is generalizing s with
  | nil => rfl
  | cons i is ih =>
      obtain ⟨hi, his⟩ := List.nodup_cons.1 h
      have hcell := cell_write s i j (w.apply (Grid.distance origin.val i.val) (s.cell i))
      show (reachAll w origin (reach w origin s i) is).cell j = _
      rw [ih his]
      by_cases hj : i = j
      · subst hj
        rw [if_neg hi, if_pos List.mem_cons_self]
        exact hcell.trans (if_pos rfl)
      · have hcell : (reach w origin s i).cell j = s.cell j := hcell.trans (if_neg hj)
        have htime : (reach w origin s i).time = s.time := rfl
        simp only [hcell, htime, List.mem_cons, Ne.symm hj, false_or]

/-! ## waves -/

/-- A front that is a sphere is written as its distance says. -/
theorem writeFront_of_isSphere {k : Nat} {front : List Index} (h : Grid.IsSphere origin k front)
    (s : Substrate) : writeFront w s (front, k) = reachAll w origin s front := by
  refine List.foldl_ext _ _ s fun s i hi => ?_
  rw [reach, (h.mem_iff i).1 hi]

theorem foldl_writeFront {k : Nat} {fronts : List (List Index)}
    (h : Grid.Spheres origin k fronts) (s : Substrate) :
    (fronts.zipIdx k).foldl (writeFront w) s = reachAll w origin s fronts.flatten := by
  induction fronts generalizing k s with
  | nil => rfl
  | cons front fronts ih =>
      rw [List.zipIdx_cons, List.foldl_cons, writeFront_of_isSphere h.1, ih h.2,
        List.flatten_cons]
      exact List.foldl_append.symm

/-- A wave passes once over all cells that it reaches. -/
theorem wave_eq (s : Substrate) (origin : Index) (w : Wave) : s.wave origin w =
    ((Grid.fronts origin Wave.maxSteps).flatten.length,
      reachAll w origin s (Grid.fronts origin Wave.maxSteps).flatten) := by
  rw [wave, foldl_writeFront (Grid.spheres_fronts origin Wave.maxSteps)]

theorem fault?_eq_none (hfrequency : w.frequency.isFinite = true) (hpositive : 0 < w.frequency)
    (hamplitude : w.amplitude.isFinite = true) : w.fault? = none := by
  have hnumber := Binary64.isNaN_eq_false_of_isFinite hfrequency
  have hle : ¬w.frequency ≤ 0 := fun h =>
    (Binary64.not_lt_iff_le (by decide +kernel) hnumber).2 h hpositive
  simp [Wave.fault?, hfrequency, hamplitude, hle]

theorem run_wave {w : Wave} (h : w.fault? = none) (s : Substrate) (origin : Index) :
    s.run (.wave origin.val w) =
      (.ok (.written (s.wave origin w).1), (s.wave origin w).2) := by
  simp only [run, withCell, locate, Grid.index?_val, h]

/-- **The reach of a wave.**  A wave of finite amplitude and finite positive frequency succeeds
from every cell.  It writes each cell within ten steps of its origin once and no other cell, and
tells how many these are.  A cell at distance `d` gains `0.95^d` of the amplitude and is shifted by
a turn for each wavelength of `d`, from the values it had before the wave; it keeps its decay rate
and flags.  The clock, the count of reads and the pouch stay, and the count of writes grows by the
number of cells, up to the greatest count. -/
theorem wave_diamond (s : Substrate) (origin : Index) {w : Wave}
    (hfrequency : w.frequency.isFinite = true) (hpositive : 0 < w.frequency)
    (hamplitude : w.amplitude.isFinite = true) :
    ∃ s', s.run (.wave origin.val w) = (.ok (.written (Grid.countWithin origin 10)), s') ∧
      (∀ i, (Grid.fronts origin Wave.maxSteps).flatten.count i =
        if Grid.distance origin.val i.val ≤ 10 then 1 else 0) ∧
      (∀ i, Grid.distance origin.val i.val ≤ 10 → s'.cell i =
        let c := s.cell i
        let d := Grid.distance origin.val i.val
        { magnitude := Quantity.bounded 1000 (c.magnitude + w.amplitude * Quantity.power 0.95 d)
          phase := Angle.wrap (c.phase + Angle.turn * Float.ofNat d / (1 / w.frequency))
          coherence := Quantity.bounded 1000 c.coherence
          decayRate := c.decayRate
          lastUpdate := s.time
          flags := c.flags }) ∧
      (∀ i, 10 < Grid.distance origin.val i.val → s'.cell i = s.cell i) ∧
      s'.time = s.time ∧ s'.reads = s.reads ∧ s'.pouch = s.pouch ∧
      s'.writes.toNat = min (s.writes.toNat + Grid.countWithin origin 10) (2 ^ 64 - 1) := by
  have hnodup := Grid.nodup_fronts origin Wave.maxSteps
  have hmem (i : Index) : i ∈ (Grid.fronts origin Wave.maxSteps).flatten ↔
      Grid.distance origin.val i.val ≤ 10 := Grid.mem_fronts
  have hlength : (Grid.fronts origin Wave.maxSteps).flatten.length = Grid.countWithin origin 10 :=
    Grid.length_fronts origin Wave.maxSteps
  obtain ⟨htime, hreads, hpouch⟩ :=
    reachAll_beside w origin s (Grid.fronts origin Wave.maxSteps).flatten
  refine ⟨reachAll w origin s (Grid.fronts origin Wave.maxSteps).flatten, ?_, fun i => ?_,
    fun i hi => ?_, fun i hi => ?_, htime, hreads, hpouch, ?_⟩
  · rw [run_wave (fault?_eq_none hfrequency hpositive hamplitude), wave_eq, hlength]
  · rw [hnodup.count]
    exact if_congr (hmem i) rfl rfl
  · rw [cell_reachAll hnodup, if_pos ((hmem i).2 hi)]
    rfl
  · rw [cell_reachAll hnodup, if_neg fun h => hi.not_ge ((hmem i).1 h)]
  · rw [writes_reachAll, hlength]

/-- A wave from the beginning of a row does not run on at the end of the row before. -/
theorem wave_diamond_edge : ∃ s', initial.run (.wave 64 ⟨10, 0.25⟩) = (.ok (.written 76), s') ∧
    (s'.cell 65).magnitude = 109.5 ∧ s'.cell 63 = Cell.neutral ∧ s'.writes.toNat = 76 := by
  obtain ⟨s', hrun, -, hnear, hfar, -, -, -, hwrites⟩ :=
    wave_diamond initial 64 (w := ⟨10, 0.25⟩) (by decide +kernel) (by decide +kernel)
      (by decide +kernel)
  have hcount : Grid.countWithin 64 10 = 76 := by decide +kernel
  have hcell (i : Index) : initial.cell i = Cell.neutral := Vector.getElem_replicate i.isLt
  rw [hcount] at hrun hwrites
  refine ⟨s', hrun, ?_, ?_, hwrites⟩
  · rw [hnear 65 (by decide), hcell]
    decide +kernel
  · rw [hfar 63 (by decide), hcell]

end GlyphField.Substrate
