import GlyphField.Substrate.Snapshot
import Mathlib.Data.Set.List

/-!
# GlyphField.Proofs.SnapshotRoundTrip

Snapshots and restoring are inverse to each other.  Everything but the pouch is copied.  The pouch
is written as records in the order of the grid and filled again one record at a time, which meets
each record behind the ones before it; records in another order are still read, but written back
in that of the grid, and of several for one cell only the last is kept.

* `fillPouch_append` — records in the order of the grid are put one behind the other;
* `get?_of_fillPouch` — in any order, the last record for a cell counts;
* `restore_inverse` — what is restored, what is refused and what comes back.
-/

namespace GlyphField.Snapshot

/-- The record of an entry of the pouch. -/
def toRecord (e : Index × Superposition) : QuantumRecord := ⟨UInt64.ofNat e.1.val, e.2⟩

/-- Whether a record is for a cell of the grid. -/
def InGrid (e : QuantumRecord) : Prop := e.index.toNat < cellCount

instance (e : QuantumRecord) : Decidable (InGrid e) := Nat.decLt _ _

/-- The state that the last record for a cell gives it. -/
def lastState? (es : List QuantumRecord) (i : Index) : Option Superposition :=
  (es.reverse.find? fun e => e.index.toNat = i.val).map QuantumRecord.state

/-- Why a snapshot is refused: its version, else its number of cells, else its first record outside
of the grid. -/
inductive Refused (p : Snapshot) : SubstrateError → Prop
  | version (h : p.version ≠ snapshotVersion) : Refused p (.unsupportedVersion p.version)
  | cells (hversion : p.version = snapshotVersion) (h : p.cells.length ≠ cellCount) :
    Refused p (.cellCountMismatch p.cells.length)
  | record (hversion : p.version = snapshotVersion) (hcells : p.cells.length = cellCount)
    {front rest : List QuantumRecord} {e : QuantumRecord} (h : p.quantum = front ++ e :: rest)
    (hfront : ∀ f ∈ front, InGrid f) (he : ¬InGrid e) : Refused p (.outOfRange e.index.toNat)

/-! ## records -/

@[simp] theorem toNat_index_toRecord (e : Index × Superposition) :
    (toRecord e).index.toNat = e.1.val := by
  have hlt : e.1.val < 4096 := e.1.isLt
  exact UInt64.toNat_ofNat_of_lt' (by rw [UInt64.size]; omega)

theorem inGrid_iff {e : QuantumRecord} : InGrid e ↔ ∃ f, toRecord f = e := by
  constructor
  · intro h
    refine ⟨(⟨e.index.toNat, h⟩, e.state), ?_⟩
    simp [toRecord]
  · rintro ⟨f, rfl⟩
    rw [InGrid, toNat_index_toRecord]
    exact f.1.isLt

theorem index_toRecord_lt_iff {e f : Index × Superposition} :
    (toRecord e).index < (toRecord f).index ↔ e.1 < f.1 := by
  rw [UInt64.lt_iff_toNat_lt, toNat_index_toRecord, toNat_index_toRecord, Fin.lt_def]

/-- Records of the grid are those of entries. -/
theorem exists_map_toRecord {es : List QuantumRecord} (h : ∀ e ∈ es, InGrid e) :
    ∃ fs : List (Index × Superposition), fs.map toRecord = es := by
  have hmem : es ∈ Set.range (List.map toRecord) := by
    rw [Set.range_list_map]
    exact fun e he => inGrid_iff.1 (h e he)
  exact hmem

theorem sorted_iff {fs : List (Index × Superposition)} :
    Keyed.Sorted Prod.fst fs ↔
      (fs.map toRecord).Pairwise fun e f : QuantumRecord => e.index < f.index := by
  simp only [Keyed.Sorted, List.pairwise_map, index_toRecord_lt_iff]

theorem lastState?_cons (e : QuantumRecord) (es : List QuantumRecord) (i : Index) :
    lastState? (e :: es) i =
      (lastState? es i).or (if e.index.toNat = i.val then some e.state else none) := by
  simp only [lastState?, List.reverse_cons, List.find?_append, List.find?_singleton]
  cases es.reverse.find? fun e => e.index.toNat = i.val with
  | some f => rfl
  | none => by_cases h : e.index.toNat = i.val <;> simp [h]

/-! ## filling a pouch -/

theorem fillPouch_cons_of_inGrid {e : QuantumRecord} (h : InGrid e) (p : Pouch)
    (es : List QuantumRecord) :
    fillPouch p (e :: es) = fillPouch (p.insert ⟨e.index.toNat, h⟩ e.state) es := by
  have hindex : Grid.index? e.index.toNat = some ⟨e.index.toNat, h⟩ :=
    Grid.index?_eq_some_iff.2 rfl
  simp only [fillPouch, hindex]

theorem fillPouch_cons_of_not_inGrid {e : QuantumRecord} (h : ¬InGrid e) (p : Pouch)
    (es : List QuantumRecord) :
    fillPouch p (e :: es) = .error (.outOfRange e.index.toNat) := by
  have hindex : Grid.index? e.index.toNat = none := dif_neg h
  simp only [fillPouch, hindex]

/-- Filling fails at the first record outside of the grid. -/
theorem fillPouch_eq_error_iff {p : Pouch} {es : List QuantumRecord} {err : SubstrateError} :
    fillPouch p es = .error err ↔
      (es.find? fun e => ¬InGrid e).map (fun e => .outOfRange e.index.toNat) = some err := by
  induction es generalizing p with
  | nil => simp [fillPouch]
  | cons e es ih =>
      by_cases h : InGrid e
      · rw [fillPouch_cons_of_inGrid h, ih]
        simp [h]
      · rw [fillPouch_cons_of_not_inGrid h]
        simp [h]

theorem inGrid_of_fillPouch {p q : Pouch} {es : List QuantumRecord} (h : fillPouch p es = .ok q) :
    ∀ e ∈ es, InGrid e := by
  cases hfind : es.find? fun e => ¬InGrid e with
  | none => simpa using hfind
  | some e =>
      have herror := fillPouch_eq_error_iff (p := p).2 (congrArg (Option.map _) hfind)
      rw [h] at herror
      cases herror

/-- The last record for a cell counts, and without one the pouch as it was. -/
theorem get?_of_fillPouch {p q : Pouch} {es : List QuantumRecord}
    (h : fillPouch p es = .ok q) (i : Index) : q.get? i = (lastState? es i).or (p.get? i) := by
  induction es generalizing p with
  | nil =>
      cases h
      rfl
  | cons e es ih =>
      by_cases he : InGrid e
      · rw [fillPouch_cons_of_inGrid he] at h
        rw [ih h, Pouch.get?_insert, lastState?_cons, Option.or_assoc]
        by_cases hi : e.index.toNat = i.val <;> simp [hi, Fin.ext_iff]
      · rw [fillPouch_cons_of_not_inGrid he] at h
        cases h

/-- Records in the order of the grid are put one behind the other. -/
theorem fillPouch_append {p : Pouch} {fs : List (Index × Superposition)}
    (h : Keyed.Sorted Prod.fst (p.entries ++ fs)) :
    fillPouch p (fs.map toRecord) = .ok ⟨p.entries ++ fs, h⟩ := by
  induction fs generalizing p with
  | nil => simp [fillPouch]
  | cons f fs ih =>
      have hbehind : ∀ e ∈ p.entries, Prod.fst e < Prod.fst f := fun e he =>
        (List.pairwise_append.1 h).2.2 e he f List.mem_cons_self
      have hinsert : (p.insert f.1 f.2).entries = p.entries ++ [f] :=
        Keyed.insert_eq_concat hbehind
      have hsorted : Keyed.Sorted Prod.fst ((p.insert f.1 f.2).entries ++ fs) := by
        rwa [hinsert, List.append_assoc, List.singleton_append]
      have hf : InGrid (toRecord f) := inGrid_iff.2 ⟨f, rfl⟩
      have hindex : (⟨(toRecord f).index.toNat, hf⟩ : Index) = f.1 :=
        Fin.ext (toNat_index_toRecord f)
      rw [List.map_cons, fillPouch_cons_of_inGrid hf, hindex]
      show fillPouch (p.insert f.1 f.2) (fs.map toRecord) = _
      rw [ih hsorted]
      simp only [hinsert, List.append_assoc, List.singleton_append]

/-! ## restoring -/

theorem size_cells {p : Snapshot} (h : p.cells.length = cellCount) :
    p.cells.toArray.size = cellCount := by
  rw [List.size_toArray, h]

/-- The substrate with the data of a snapshot and this pouch. -/
def withPouch (p : Snapshot) (h : p.cells.length = cellCount) (pouch : Pouch) : Substrate where
  cells := ⟨p.cells.toArray, size_cells h⟩
  time := p.time
  checksum := p.checksum
  reads := p.reads
  writes := p.writes
  pouch := pouch

section Restore

variable {p : Snapshot} {s : Substrate}

theorem restore_eq (hversion : p.version = snapshotVersion) (hcells : p.cells.length = cellCount) :
    p.restore = (fillPouch ∅ p.quantum).map (p.withPouch hcells) := by
  rw [restore, if_neg (not_not.2 hversion), dif_pos hcells]
  rfl

theorem restore_eq_ok_iff : p.restore = .ok s ↔
    p.version = snapshotVersion ∧ ∃ (h : p.cells.length = cellCount) (pouch : Pouch),
      fillPouch ∅ p.quantum = .ok pouch ∧ p.withPouch h pouch = s := by
  by_cases hversion : p.version = snapshotVersion
  · by_cases hcells : p.cells.length = cellCount
    · rw [restore_eq hversion hcells]
      cases fillPouch ∅ p.quantum with
      | error e => simp [Except.map]
      | ok pouch => simp [Except.map, hversion, hcells]
    · simp [restore, hversion, hcells]
  · simp [restore, hversion]

theorem restore_eq_error_iff {e : SubstrateError} : p.restore = .error e ↔ p.Refused e := by
  constructor
  · intro h
    by_cases hversion : p.version = snapshotVersion
    · by_cases hcells : p.cells.length = cellCount
      · rw [restore_eq hversion hcells] at h
        cases hfill : fillPouch ∅ p.quantum with
        | ok pouch =>
            rw [hfill] at h
            cases h
        | error e' =>
            rw [hfill] at h
            cases h
            obtain ⟨f, hf, rfl⟩ := Option.map_eq_some_iff.1 (fillPouch_eq_error_iff.1 hfill)
            obtain ⟨hnot, front, rest, hsplit, hfront⟩ := List.find?_eq_some_iff_append.1 hf
            refine .record hversion hcells hsplit (fun g hg => ?_) (by simpa using hnot)
            simpa using hfront g hg
      · rw [restore, if_neg (not_not.2 hversion), dif_neg hcells] at h
        cases h
        exact .cells hversion hcells
    · rw [restore, if_pos hversion] at h
      cases h
      exact .version hversion
  · intro h
    cases h with
    | version h => rw [restore, if_pos h]
    | cells hversion h => rw [restore, if_neg (not_not.2 hversion), dif_neg h]
    | @record hversion hcells front rest f h hfront hf =>
        have hfind : p.quantum.find? (fun g => ¬InGrid g) = some f := by
          rw [List.find?_eq_some_iff_append]
          exact ⟨by simpa using hf, front, rest, h, fun g hg => by simpa using hfront g hg⟩
        have hfill := fillPouch_eq_error_iff (p := ∅).2 (congrArg (Option.map _) hfind)
        rw [restore_eq hversion hcells, hfill]
        rfl

theorem exists_restore_iff : (∃ s, p.restore = .ok s) ↔
    p.version = snapshotVersion ∧ p.cells.length = cellCount ∧ ∀ e ∈ p.quantum, InGrid e := by
  constructor
  · rintro ⟨s, hs⟩
    obtain ⟨hversion, hcells, pouch, hfill, -⟩ := restore_eq_ok_iff.1 hs
    exact ⟨hversion, hcells, inGrid_of_fillPouch hfill⟩
  · rintro ⟨hversion, hcells, hall⟩
    cases hs : p.restore with
    | ok s => exact ⟨s, rfl⟩
    | error e =>
        cases restore_eq_error_iff.1 hs with
        | version h => exact absurd hversion h
        | cells _ h => exact absurd hcells h
        | record _ _ h _ he => exact absurd (hall _ (by simp [h])) he

/-! ## there and back -/

/-- A substrate is restored from its snapshot. -/
theorem restore_ofSubstrate (s : Substrate) : (ofSubstrate s).restore = .ok s := by
  have hsorted : Keyed.Sorted Prod.fst ((∅ : Pouch).entries ++ s.pouch.entries) := s.pouch.sorted
  exact restore_eq_ok_iff.2 ⟨rfl, s.cells.length_toList, _, fillPouch_append hsorted, rfl⟩

/-- Everything but the records comes back as it was. -/
theorem ofSubstrate_of_restore (h : p.restore = .ok s) :
    ofSubstrate s = { p with quantum := s.pouch.entries.map toRecord } := by
  obtain ⟨hversion, hcells, pouch, -, rfl⟩ := restore_eq_ok_iff.1 h
  simp only [hversion]
  rfl

/-- The records come back as they were exactly if they are in the order of the grid. -/
theorem ofSubstrate_eq_iff (h : p.restore = .ok s) :
    ofSubstrate s = p ↔ p.quantum.Pairwise fun e f => e.index < f.index := by
  have hback := ofSubstrate_of_restore h
  constructor
  · intro heq
    have hquantum : p.quantum = s.pouch.entries.map toRecord := by
      rw [← heq]
      rfl
    rw [hquantum]
    exact sorted_iff.1 s.pouch.sorted
  · intro hsorted
    obtain ⟨hversion, hcells, pouch, hfill, rfl⟩ := restore_eq_ok_iff.1 h
    obtain ⟨fs, hfs⟩ := exists_map_toRecord (inGrid_of_fillPouch hfill)
    rw [← hfs] at hsorted hfill
    have hentries : Keyed.Sorted Prod.fst ((∅ : Pouch).entries ++ fs) := sorted_iff.2 hsorted
    rw [fillPouch_append hentries] at hfill
    cases hfill
    rw [hback]
    show { p with quantum := fs.map toRecord } = p
    rw [hfs]

/-- The last record for a cell is the one that is kept. -/
theorem get?_of_restore (h : p.restore = .ok s) (i : Index) :
    s.pouch.get? i = lastState? p.quantum i := by
  obtain ⟨-, hcells, pouch, hfill, rfl⟩ := restore_eq_ok_iff.1 h
  have hget := get?_of_fillPouch hfill i
  have hempty : (∅ : Pouch).get? i = none := rfl
  rwa [hempty, Option.or_none] at hget

end Restore

/-- **Snapshots and restoring are inverse.**  Every substrate is restored from its snapshot, in
all of its parts.  A snapshot can be restored exactly if it has version 1, 4096 cells and records
of the grid only, and else is refused for the first of these that fails.  What is restored is
written back with the same data and, for each cell, the state of its last record; nothing at all
has changed exactly if the records strictly increase. -/
theorem restore_inverse :
    (∀ s : Substrate, (ofSubstrate s).restore = .ok s) ∧
    ∀ p : Snapshot,
      ((∃ s, p.restore = .ok s) ↔
        p.version = 1 ∧ p.cells.length = 4096 ∧ ∀ e ∈ p.quantum, e.index.toNat < 4096) ∧
      (∀ e, p.restore = .error e ↔ p.Refused e) ∧
      ((∃ s, p.restore = .ok s ∧ ofSubstrate s = p) ↔
        (p.version = 1 ∧ p.cells.length = 4096 ∧ ∀ e ∈ p.quantum, e.index.toNat < 4096) ∧
          p.quantum.Pairwise fun e f => e.index < f.index) ∧
      ∀ s, p.restore = .ok s →
        ofSubstrate s = { p with quantum := (ofSubstrate s).quantum } ∧
          ∀ i, s.pouch.get? i = lastState? p.quantum i := by
  refine ⟨restore_ofSubstrate, fun p => ⟨exists_restore_iff, fun _ => restore_eq_error_iff, ?_,
    fun s hs => ⟨ofSubstrate_of_restore hs, get?_of_restore hs⟩⟩⟩
  constructor
  · rintro ⟨s, hs, hback⟩
    exact ⟨exists_restore_iff.1 ⟨s, hs⟩, (ofSubstrate_eq_iff hs).1 hback⟩
  · rintro ⟨hok, hsorted⟩
    obtain ⟨s, hs⟩ := exists_restore_iff.2 hok
    exact ⟨s, hs, (ofSubstrate_eq_iff hs).2 hsorted⟩

/-- A new substrate with two records for one cell. -/
def repeated : Snapshot :=
  { ofSubstrate Substrate.initial with
    quantum := [⟨5, .empty⟩, ⟨5, ⟨[⟨1, 0⟩], false, by decide⟩⟩] }

theorem restore_repeated : ∃ s, repeated.restore = .ok s ∧
    s.pouch.get? 5 = some ⟨[⟨1, 0⟩], false, by decide⟩ ∧ ofSubstrate s ≠ repeated := by
  obtain ⟨hok, -, hback, hkept⟩ := restore_inverse.2 repeated
  have hcells : repeated.cells.length = 4096 := Vector.length_toList
  obtain ⟨s, hs⟩ := hok.2 ⟨rfl, hcells, by decide⟩
  refine ⟨s, hs, (hkept s hs).2 5, fun heq => ?_⟩
  have hsorted := (hback.1 ⟨s, hs, heq⟩).2
  exact absurd hsorted (by decide)

end GlyphField.Snapshot
