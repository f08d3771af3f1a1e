import GlyphField.Proofs.ChecksumResidual
import GlyphField.Proofs.FloatOrder

/-!
# GlyphField.Proofs.OperationHistory

The history of a substrate and the operations that fail in it.  A call is an operation with what it
answered; a run makes one call for each of its operations.  Whether an operation on a cell fails
does not depend on the substrate: the cell number is looked at first, then the frequency of a wave,
then its amplitude, and nothing else can go wrong.

* `run_eq_error_iff` — the operations that fail, each with its error;
* `run_of_error` — a failed operation leaves the substrate as it was.
-/

namespace GlyphField

/-! ## failures -/

/-- The cell number that an operation is about. -/
def Operation.index? : Operation → Option Nat
  | .init | .tick | .sync => none
  | .read n | .write n _ | .setDecayRate n _ | .force n _ | .wave n _ | .store n _
  | .retrieve n => some n

/-- Operations on cells that fail.  Of several faults the first one in this order counts. -/
inductive Operation.Fails : Operation → SubstrateError → Prop
  | outOfRange {op : Operation} {n : Nat} (hop : op.index? = some n) (hn : cellCount ≤ n) :
    op.Fails (.outOfRange n)
  | frequency {n : Nat} {w : Wave} (hn : n < cellCount)
    (hw : ¬(w.frequency.isFinite = true ∧ 0 < w.frequency)) :
    (Operation.wave n w).Fails (.invalidFrequency w.frequency)
  | amplitude {n : Nat} {w : Wave} (hn : n < cellCount)
    (hw : w.frequency.isFinite = true ∧ 0 < w.frequency) (ha : w.amplitude.isFinite = false) :
    (Operation.wave n w).Fails .invalidAmplitude

/-- A frequency is refused unless it is finite and positive. -/
theorem Wave.refuses_iff {w : Wave} :
    (!w.frequency.isFinite || decide (w.frequency ≤ 0)) = true ↔
      ¬(w.frequency.isFinite = true ∧ 0 < w.frequency) := by
  cases hfinite : w.frequency.isFinite with
  | false => simp
  | true =>
      have hnumber := Binary64.isNaN_eq_false_of_isFinite hfinite
      have hle := Binary64.not_lt_iff_le (x := 0) (by decide +kernel) hnumber
      rw [Bool.not_true, Bool.false_or, decide_eq_true_iff, ← hle]
      exact not_congr (and_iff_right rfl).symm

theorem Wave.fault?_eq_some_iff {w : Wave} {e : SubstrateError} : w.fault? = some e ↔
    (¬(w.frequency.isFinite = true ∧ 0 < w.frequency) ∧ e = .invalidFrequency w.frequency) ∨
      ((w.frequency.isFinite = true ∧ 0 < w.frequency) ∧ w.amplitude.isFinite = false ∧
        e = .invalidAmplitude) := by
  rw [fault?]
  split
  · next h =>
    have hw := refuses_iff.1 h
    constructor
    · rintro ⟨⟩
      exact .inl ⟨hw, rfl⟩
    · rintro (⟨-, rfl⟩ | ⟨hw', -⟩)
      · rfl
      · exact absurd hw' hw
  · next h =>
    have hw := not_not.1 (mt refuses_iff.2 h)
    cases ha : w.amplitude.isFinite with
    | true => simp [hw]
    | false => simp [hw, @eq_comm _ e]

namespace Substrate

variable {s : Substrate} {op : Operation} {e : SubstrateError}

theorem withCell_val (s : Substrate) (i : Index) (act : Index → Outcome) :
    s.withCell i.val act = act i := by
  simp only [withCell, locate, Grid.index?_val]

theorem withCell_of_le (s : Substrate) {n : Nat} (h : cellCount ≤ n) (act : Index → Outcome) :
    s.withCell n act = (.error (.outOfRange n), s) := by
  simp only [withCell, locate, Grid.index?_of_le h]

theorem withCell_fst_eq_error_iff {n : Nat} {act : Index → Outcome} :
    (s.withCell n act).1 = .error e ↔ (cellCount ≤ n ∧ e = .outOfRange n) ∨
      ∃ i : Index, i.val = n ∧ (act i).1 = .error e := by
  obtain hn | hn := Nat.lt_or_ge n cellCount
  · have hi : ∀ i : Index, i.val = n ↔ i = ⟨n, hn⟩ := fun i =>
      ⟨fun h => Fin.ext h, fun h => congrArg Fin.val h⟩
    rw [s.withCell_val ⟨n, hn⟩ act]
    simp [hi, Nat.not_le.2 hn]
  · have hi : ∀ i : Index, i.val ≠ n := fun i => (i.isLt.trans_le hn).ne
    rw [s.withCell_of_le hn]
    simp [hi, hn, eq_comm]

/-- An operation that fails for no cell of the grid fails for a wrong cell number alone. -/
theorem withCell_fails_iff (op : Operation) {n : Nat} {act : Index → Outcome}
    (hop : op.index? = some n) (hwave : ∀ n w, op ≠ .wave n w)
    (hact : ∀ i e, (act i).1 ≠ .error e) :
    (s.withCell n act).1 = .error e ↔ op.Fails e := by
  rw [withCell_fst_eq_error_iff]
  constructor
  · rintro (⟨hn, rfl⟩ | ⟨i, -, hi⟩)
    · exact .outOfRange hop hn
    · exact absurd hi (hact i e)
  · intro h
    cases h with
    | outOfRange hop' hn =>
        cases hop.symm.trans hop'
        exact .inl ⟨hn, rfl⟩
    | frequency => exact absurd rfl (hwave _ _)
    | amplitude => exact absurd rfl (hwave _ _)

theorem run_wave_eq_error_iff {i : Index} {w : Wave} :
    (s.run (.wave i.val w)).1 = .error e ↔ w.fault? = some e := by
  rw [run, withCell_val]
  cases w.fault? <;> simp

theorem wave_fails_iff {n : Nat} {w : Wave} :
    (s.run (.wave n w)).1 = .error e ↔ (Operation.wave n w).Fails e := by
  obtain hn | hn := Nat.lt_or_ge n cellCount
  · refine (run_wave_eq_error_iff (i := ⟨n, hn⟩)).trans ?_
    rw [Wave.fault?_eq_some_iff]
    constructor
    · rintro (⟨hw, rfl⟩ | ⟨hw, ha, rfl⟩)
      · exact .frequency hn hw
      · exact .amplitude hn hw ha
    · intro h
      cases h with
      | outOfRange hop hle =>
          cases hop
          exact absurd hn hle.not_gt
      | frequency _ hw => exact .inl ⟨hw, rfl⟩
      | amplitude _ hw ha => exact .inr ⟨hw, ha, rfl⟩
  · rw [run, s.withCell_of_le hn]
    constructor
    · rintro ⟨⟩
      exact .outOfRange rfl hn
    · intro h
      cases h with
      | outOfRange hop _ =>
          cases hop
          rfl
      | frequency hlt => exact absurd hlt hn.not_gt
      | amplitude hlt => exact absurd hlt hn.not_gt

/-- **Which operations fail.**  Beside a `sync` that finds something wrong, only those that fail on
every substrate. -/
theorem run_eq_error_iff :
    (s.run op).1 = .error e ↔ op.Fails e ∨ (op = .sync ∧ s.sync = .error e) := by
  have hnone (hop : op.index? = none) : ¬op.Fails e := by
    rintro (⟨hop', -⟩ | _ | _)
    · simp [hop] at hop'
    · simp [Operation.index?] at hop
    · simp [Operation.index?] at hop
  cases op with
  | init | tick => simpa [run] using hnone rfl
  | sync =>
      simp only [run, hnone rfl, false_or, true_and]
      cases s.sync <;> simp [Except.map]
  | wave n w => simp [wave_fails_iff]
  | read n => simp [run, withCell_fails_iff (.read n) rfl]
  | write n v => simp [run, withCell_fails_iff (.write n v) rfl]
  | setDecayRate n rate => simp [run, withCell_fails_iff (.setDecayRate n rate) rfl]
  | force n f => simp [run, withCell_fails_iff (.force n f) rfl]
  | store n q => simp [run, withCell_fails_iff (.store n q) rfl]
  | retrieve n => simp [run, withCell_fails_iff (.retrieve n) rfl]

theorem withCell_of_error {n : Nat} {act : Index → Outcome}
    (hact : ∀ i, (act i).1 = .error e → (act i).2 = s) (h : (s.withCell n act).1 = .error e) :
    (s.withCell n act).2 = s := by
  obtain hn | hn := Nat.lt_or_ge n cellCount
  · rw [s.withCell_val ⟨n, hn⟩ act] at h ⊢
    exact hact _ h
  · rw [s.withCell_of_le hn]

/-- **Failures leave no mark.** -/
theorem run_of_error (h : (s.run op).1 = .error e) : (s.run op).2 = s := by
  cases op with
  | init | tick => cases h
  | sync => rfl
  | read | write | setDecayRate | force | store =>
      exact withCell_of_error (fun i hi => nomatch hi) h
  | retrieve => exact withCell_of_error (fun i _ => rfl) h
  | wave n w =>
      refine withCell_of_error (fun i hi => ?_) h
      cases hfault : w.fault? with
      | some e => rfl
      | none => simp [hfault] at hi

/-! ## histories -/

/-- An operation with what it answered. -/
structure Call where
  op : Operation
  answer : Except SubstrateError Answer

/-- The calls of a run, in order. -/
def history (s : Substrate) : List Operation → List Call
  | [] => []
  | op :: ops => ⟨op, (s.run op).1⟩ :: (s.run op).2.history ops

theorem runAll_concat (s : Substrate) (ops : List Operation) (op : Operation) :
    s.runAll (ops ++ [op]) = ((s.runAll ops).run op).2 := by
  rw [runAll, runAll, List.foldl_append]
  rfl

theorem history_concat (s : Substrate) (ops : List Operation) (op : Operation) :
    s.history (ops ++ [op]) = s.history ops ++ [⟨op, ((s.runAll ops).run op).1⟩] := by
  induction ops generalizing s with
  | nil => rfl
  | cons op' ops ih =>
      rw [List.cons_append, history, ih, history]
      rfl

end Substrate

end GlyphField
