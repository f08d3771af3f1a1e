import GlyphField.Proofs.SessionOutcome

/-!
# GlyphField.Proofs.ProjectionEffect

What a projection does to a substrate.  With no more than eight components it succeeds on every
substrate: one write of the home cell, a superposition stored beside it if components are declared,
and one read.  The checksum follows the cell by the change of its word, so it fits neither better
nor worse than before, and nothing else is touched.

* `toNat_hash` — the hash behind the home cell, in numbers;
* `components_of_spread` — the superposition of a number of components;
* `project_eq_projected` — the three steps of a projection;
* `projection_effect` — all that a projection changes.
-/

namespace GlyphField

/-! ## home cells -/

/-- The 32-bit FNV-1a hash of bytes, in numbers: each byte is put into the lowest bits without
carry, and the sum is multiplied by a prime. -/
def fnv1a (bytes : List UInt8) : Nat :=
  bytes.foldl (fun h b => (h ^^^ b.toNat) * 16777619 % 2 ^ 32) 2166136261

namespace GlyphId

theorem toNat_hashStep (h : UInt32) (b : UInt8) :
    (hashStep h b).toNat = (h.toNat ^^^ b.toNat) * 16777619 % 2 ^ 32 := by
  rw [hashStep, UInt32.toNat_mul, UInt32.toNat_xor, UInt8.toNat_toUInt32]
  rfl

theorem toNat_foldl_hashStep (bytes : List UInt8) (h : UInt32) :
    (bytes.foldl hashStep h).toNat =
      bytes.foldl (fun h b => (h ^^^ b.toNat) * 16777619 % 2 ^ 32) h.toNat := by
  induction bytes generalizing h with
  | nil => rfl
  | cons b bytes ih => rw [List.foldl_cons, ih, toNat_hashStep, List.foldl_cons]

theorem toNat_hash (id : String) : (hash id).toNat = fnv1a id.toUTF8.data.toList := by
  rw [hash, ← Array.foldl_toList, toNat_foldl_hashStep]
  rfl

end GlyphId

/-! ## superpositions -/

/-- Components of equal amplitude whose phases are spread evenly over one turn. -/
def evenComponents (n : Nat) (phase : Float) : List Component :=
  (List.range n).map fun k =>
    { amplitude := (1 / Float.ofNat n).sqrt
      phase := Angle.wrap (phase + Angle.turn * Float.ofNat k / Float.ofNat n) }

theorem Superposition.components_of_spread {n : Nat} {phase : Float} {q : Superposition}
    (h : spread n phase = .ok q) : q.components = evenComponents n phase ∧ q.collapsed = false := by
  rw [spread, ofPairs, ofComponents?] at h
  split at h
  · next q' hq =>
    cases h
    split at hq
    · cases hq
      exact ⟨by simp only [List.map_map, evenComponents]; rfl, rfl⟩
    · cases hq
  · cases h

/-! ## projections -/

namespace Activation

variable {a : Activation} {stored : Option Superposition}

/-- The substrate after a projection that stores this superposition, if there is one. -/
def projected (a : Activation) (stored : Option Superposition) (s : Substrate) : Substrate :=
  let s := s.write a.homeCell a.cellValue
  let s := match stored with
    | none => s
    | some q => s.store a.homeCell q
  (s.read a.homeCell).2

/-- The superposition that goes with a number of components; none without components. -/
def Stores (a : Activation) : Option Superposition → Prop
  | none => a.componentCount = 0
  | some q => a.componentCount ≠ 0 ∧ q.collapsed = false ∧
      q.components = evenComponents a.componentCount a.state.phase

/-- The steps of a projection that succeeds. -/
theorem project_eq_projected (h : a.componentCount ≤ maxComponents) (s : Substrate) :
    ∃ stored, a.Stores stored ∧ a.project s =
      (.ok ((a.projected stored s).cell a.homeCell).reading, a.projected stored s) := by
  by_cases hcount : a.componentCount = 0
  · refine ⟨none, hcount, ?_⟩
    simp only [project, if_pos hcount]
    rfl
  · obtain ⟨q, hq⟩ := Superposition.exists_spread h a.state.phase
    obtain ⟨hcomponents, hcollapsed⟩ := Superposition.components_of_spread hq
    refine ⟨some q, ⟨hcount, hcollapsed, hcomponents⟩, ?_⟩
    simp only [project, if_neg hcount, hq]
    rfl

/-- The home cell is written, and flagged if there are components. -/
theorem cell_projected (h : a.Stores stored) (s : Substrate) :
    (a.projected stored s).cell a.homeCell =
      let c := (s.cell a.homeCell).write s.time a.cellValue
      if a.componentCount = 0 then c else c.markQuantum := by
  have hwrite := (s.cell_write a.homeCell a.homeCell a.cellValue).trans (if_pos rfl)
  cases stored with
  | none => exact hwrite.trans (if_pos h).symm
  | some q =>
      have hstore := (s.write a.homeCell a.cellValue).cell_store a.homeCell a.homeCell q
      have hmark := (hstore.trans (if_pos rfl)).trans (congrArg Cell.markQuantum hwrite)
      exact hmark.trans (if_neg h.1).symm

theorem cell_projected_of_ne (stored : Option Superposition) (s : Substrate) {i : Index}
    (hi : i ≠ a.homeCell) : (a.projected stored s).cell i = s.cell i := by
  have hwrite := (s.cell_write a.homeCell i a.cellValue).trans (if_neg hi.symm)
  cases stored with
  | none => exact hwrite
  | some q =>
      have hstore := (s.write a.homeCell a.cellValue).cell_store a.homeCell i q
      exact (hstore.trans (if_neg hi.symm)).trans hwrite

theorem residual_projected (a : Activation) (stored : Option Superposition) (s : Substrate) :
    (a.projected stored s).residual = s.residual := by
  have hwrite := s.residual_write a.homeCell a.cellValue
  cases stored with
  | none => exact hwrite
  | some q => exact (Substrate.residual_store _ a.homeCell q).trans hwrite

theorem counts_projected (a : Activation) (stored : Option Superposition) (s : Substrate) :
    (a.projected stored s).time = s.time ∧
      (a.projected stored s).reads = Substrate.countUp s.reads ∧
      (a.projected stored s).writes = Substrate.countUp s.writes := by
  cases stored <;> exact ⟨rfl, rfl, rfl⟩

theorem get?_pouch_projected (a : Activation) (stored : Option Superposition) (s : Substrate)
    (i : Index) : (a.projected stored s).pouch.get? i =
      if a.homeCell = i then stored.or (s.pouch.get? i) else s.pouch.get? i := by
  cases stored with
  | none => exact (ite_self _).symm
  | some q => exact Pouch.get?_insert s.pouch a.homeCell q i

/-- What is stored beside the home cell: the superposition of the components, if there are any. -/
theorem pouch_projected (h : a.Stores stored) (s : Substrate) :
    if a.componentCount = 0 then (a.projected stored s).pouch = s.pouch
    else ∃ q, (a.projected stored s).pouch.get? a.homeCell = some q ∧ q.collapsed = false ∧
      q.components = evenComponents a.componentCount a.state.phase := by
  cases stored with
  | none => exact (if_pos h).mpr rfl
  | some q =>
      rw [if_neg h.1]
      exact ⟨q, (get?_pouch_projected a _ s _).trans (if_pos rfl), h.2⟩

theorem componentCount_le (h : ∀ n ∈ a.quantumState, n ≤ 8) : a.componentCount ≤ maxComponents := by
  unfold componentCount
  cases hn : a.quantumState with
  | none => exact Nat.zero_le _
  | some n => exact h n hn

/-- **The effect of a projection.**  A projection of at most eight components succeeds on every
substrate.  Its home cell is given by the hash of the glyph id; it takes the state, brought into
bounds, with the coherence in thousandths and the time of the clock, and keeps its decay rate.  The
answer is what the home cell then holds.  With components, a superposition of so many is stored
beside it and the cell is flagged; without, flags and pouch stay.  One write and one read are
counted, and everything else is as before: the other cells, what is stored beside them, the clock
and what is wrong with the checksum. -/
theorem projection_effect (a : Activation) (s : Substrate) (hcount : ∀ n ∈ a.quantumState, n ≤ 8) :
    let h := a.homeCell
    let n := a.componentCount
    ∃ s', a.project s = (.ok (s'.cell h).reading, s') ∧
      h.val = fnv1a a.glyphId.toUTF8.data.toList % 4096 ∧
      s'.cell h =
        { magnitude := Quantity.bounded 1000 a.state.magnitude
          phase := Angle.wrap a.state.phase
          coherence := Quantity.bounded 1000 (a.state.coherence * 10)
          decayRate := (s.cell h).decayRate
          lastUpdate := s.time
          flags := if n = 0 then (s.cell h).flags else (s.cell h).flags ||| 1 } ∧
      (∀ i, i ≠ h → s'.cell i = s.cell i) ∧
      s'.writes.toNat = min (s.writes.toNat + 1) (2 ^ 64 - 1) ∧
      s'.reads.toNat = min (s.reads.toNat + 1) (2 ^ 64 - 1) ∧
      s'.residual = s.residual ∧ s'.time = s.time ∧
      (∀ i, i ≠ h → s'.pouch.get? i = s.pouch.get? i) ∧
      if n = 0 then s'.pouch = s.pouch
      else ∃ q, s'.pouch.get? h = some q ∧ q.collapsed = false ∧
        q.components = evenComponents n a.state.phase := by
  intro h n
  obtain ⟨stored, hstores, hproject⟩ := project_eq_projected (componentCount_le hcount) s
  obtain ⟨htime, hreads, hwrites⟩ := counts_projected a stored s
  have hothers (i : Index) (hi : i ≠ h) :
      (a.projected stored s).pouch.get? i = s.pouch.get? i :=
    (get?_pouch_projected a stored s i).trans (if_neg hi.symm)
  refine ⟨a.projected stored s, hproject, ?_, ?_, fun i hi => cell_projected_of_ne stored s hi, ?_,
    ?_, residual_projected a stored s, htime, hothers, pouch_projected hstores s⟩
  · rw [← GlyphId.toNat_hash]
    rfl
  · rw [cell_projected hstores]
    by_cases hn : n = 0
    · rw [if_pos hn, if_pos hn]
      rfl
    · rw [if_neg hn, if_neg hn]
      rfl
  · rw [hwrites, Substrate.toNat_countUp]
  · rw [hreads, Substrate.toNat_countUp]

/-- A state out of bounds with two components. -/
def doubled : Activation where
  glyphId := "000"
  state := { magnitude := -3, phase := 7, coherence := 250 }
  lineage := ⟨"000", [], 0, []⟩
  quantumState := some 2

/-- A home cell that has been flagged before, under a checksum that need not fit. -/
theorem projection_effect_doubled :
    let s : Substrate := { Substrate.initial.store 2759 .empty with checksum := 5 }
    (∀ n ∈ doubled.quantumState, n ≤ 8) ∧
    ∃ s', doubled.project s = (.ok ⟨0, Angle.wrap 7, 1000⟩, s') ∧
      (s'.cell 2759).flags = 1 ∧ s'.cell 0 = Cell.neutral ∧ s'.residual = s.residual ∧
      s'.writes.toNat = 1 ∧ ∃ q, s'.pouch.get? 2759 = some q ∧
        q.components.map Component.amplitude = [(0.5 : Float).sqrt, (0.5 : Float).sqrt] := by
  intro s
  have hcount : ∀ n ∈ doubled.quantumState, n ≤ 8 := by
    intro n hn
    cases hn
    decide
  have hhome : doubled.homeCell = 2759 := by decide +kernel
  obtain ⟨s', hproject, -, hcell, hcells, hwrites, -, hresidual, -, -, hpouch⟩ :=
    projection_effect doubled s hcount
  obtain ⟨q, hget, -, hcomponents⟩ := hpouch
  have hchecksum (t : Substrate) (k : UInt32) (i : Index) :
      ({ t with checksum := k } : Substrate).cell i = t.cell i := rfl
  have hstart (i : Index) : s.cell i = if 2759 = i then Cell.neutral.markQuantum
      else Cell.neutral := by
    rw [hchecksum, Substrate.cell_store, Substrate.cell_initial, Substrate.cell_initial]
  have hflags : (s.cell 2759).flags = 1 := by
    rw [hstart, if_pos rfl]
    rfl
  rw [hhome] at hproject hcell hcells hget
  refine ⟨hcount, s', ?_, ?_, ?_, hresidual, hwrites, q, hget, ?_⟩
  · rw [hproject, hcell]
    refine congrArg (fun r => (Except.ok r, s')) ?_
    decide +kernel
  · rw [hcell, hflags]
    rfl
  · rw [hcells 0 (by decide), hstart, if_neg (by decide)]
  · rw [hcomponents]
    decide +kernel

end Activation

end GlyphField
