import GlyphField.Proofs.OperationHistory
import GlyphField.Proofs.QuantumCells

/-!
# GlyphField.Proofs.EditOrder

Changes of different cells can be made in any order.  The operations that change one cell and
answer nothing are edits: each makes another cell of its cell, is counted as a write or not, and
stores something beside the cell or not.  An edit looks at no other cell, and the checksum takes in
each by what it adds to it without carry, so that two edits of different cells commute whether or
not the checksum fits.

* `edit_comm` — the step: two edits of different cells;
* `edits_commute` — every reordering of operations on different cell numbers.
-/

namespace GlyphField

/-! ## pouches -/

/-- Two pouches with the same beside every cell are the same. -/
theorem Pouch.eq_of_get? {p p' : Pouch} (h : ∀ i, p.get? i = p'.get? i) : p = p' := by
  have hentries : p.entries = p'.entries := by
    rw [entries_eq, p'.entries_eq]
    simp only [h]
  cases p
  cases p'
  cases hentries
  rfl

theorem Pouch.insert_comm (p : Pouch) {i j : Index} (hij : i ≠ j) (q r : Superposition) :
    (p.insert i q).insert j r = (p.insert j r).insert i q := by
  refine eq_of_get? fun k => ?_
  simp only [get?_insert]
  by_cases hi : i = k
  · have hj : j ≠ k := fun hj => hij (hi.trans hj.symm)
    rw [if_neg hj, if_pos hi, if_pos hi]
  · rw [if_neg hi, if_neg hi]

/-! ## edits -/

/-- A change of one cell. -/
structure Edit where
  /-- What it makes of the cell at a time. -/
  cell : UInt64 → Cell → Cell
  /-- Whether it counts as a write. -/
  counted : Bool := false
  /-- What it stores beside the cell. -/
  stored? : Option Superposition := none

namespace Edit

/-- The count of writes after the edit. -/
def count (e : Edit) (n : UInt64) : UInt64 := bif e.counted then Substrate.countUp n else n

/-- The pouch after the edit of a cell. -/
def keep (e : Edit) (i : Index) (p : Pouch) : Pouch :=
  match e.stored? with
  | some q => p.insert i q
  | none => p

theorem count_comm (d e : Edit) (n : UInt64) : e.count (d.count n) = d.count (e.count n) := by
  simp only [count]
  cases d.counted <;> cases e.counted <;> rfl

theorem keep_comm (d e : Edit) {i j : Index} (hij : i ≠ j) (p : Pouch) :
    e.keep j (d.keep i p) = d.keep i (e.keep j p) := by
  simp only [keep]
  cases d.stored? with
  | none => rfl
  | some q =>
      cases e.stored? with
      | none => rfl
      | some r => exact p.insert_comm hij q r

end Edit

/-- The edit that an operation makes, for the operations that make one: writes, forces, changes of
the decay rate and stores. -/
def Operation.edit? : Operation → Option Edit
  | .write _ v => some { cell := fun now c => c.write now v, counted := true }
  | .force _ f => some { cell := fun now c => c.write now (f.apply c), counted := true }
  | .setDecayRate _ rate => some { cell := fun _ c => c.setDecayRate rate }
  | .store _ q => some { cell := fun _ c => c.markQuantum, stored? := some q }
  | .init | .tick | .sync | .read _ | .wave _ _ | .retrieve _ => none

namespace Substrate

/-- Edits a cell. -/
def edit (s : Substrate) (i : Index) (e : Edit) : Substrate :=
  { s.setCell i (e.cell s.time (s.cell i)) with
    writes := e.count s.writes
    pouch := e.keep i s.pouch }

/-- Edits the cell of this number, if there is one. -/
def editAt (s : Substrate) (n : Nat) (e : Edit) : Substrate :=
  match Grid.index? n with
  | some i => s.edit i e
  | none => s

variable {s : Substrate} {op op' : Operation}

/-! ## two edits -/

theorem setCell_setCell (s : Substrate) {i j : Index} (hij : i ≠ j) (c d : Cell) :
    (s.setCell i c).setCell j d =
      { s with
        cells := (s.cells.set i c i.isLt).set j d j.isLt
        checksum := s.checksum ^^^ Checksum.shift i (Checksum.word (s.cell i) ^^^ Checksum.word c) ^^^
          Checksum.shift j (Checksum.word (s.cell j) ^^^ Checksum.word d) } := by
  have hj : (s.setCell i c).cell j = s.cell j := (s.cell_setCell i j c).trans (if_neg hij)
  rw [setCell.eq_def _ j, hj]
  rfl

theorem setCell_comm (s : Substrate) {i j : Index} (hij : i ≠ j) (c d : Cell) :
    (s.setCell i c).setCell j d = (s.setCell j d).setCell i c := by
  have hcells : (s.cells.set i c i.isLt).set j d j.isLt =
      (s.cells.set j d j.isLt).set i c i.isLt :=
    Vector.set_comm c d (Fin.val_ne_of_ne hij)
  rw [s.setCell_setCell hij, s.setCell_setCell hij.symm, hcells, UInt32.xor_assoc,
    UInt32.xor_comm (Checksum.shift i _), ← UInt32.xor_assoc]

theorem edit_edit (s : Substrate) {i j : Index} (hij : i ≠ j) (d e : Edit) :
    (s.edit i d).edit j e =
      { (s.setCell i (d.cell s.time (s.cell i))).setCell j (e.cell s.time (s.cell j)) with
        writes := e.count (d.count s.writes)
        pouch := e.keep j (d.keep i s.pouch) } := by
  have hj : (s.edit i d).cell j = s.cell j :=
    (s.cell_setCell i j _).trans (if_neg hij)
  rw [edit, hj]
  rfl

/-- The step: edits of different cells commute. -/
theorem edit_comm (s : Substrate) {i j : Index} (hij : i ≠ j) (d e : Edit) :
    (s.edit i d).edit j e = (s.edit j e).edit i d := by
  rw [edit_edit s hij, edit_edit s hij.symm, s.setCell_comm hij, d.count_comm e, d.keep_comm e hij]

theorem editAt_comm (s : Substrate) {n m : Nat} (hnm : n ≠ m) (d e : Edit) :
    (s.editAt n d).editAt m e = (s.editAt m e).editAt n d := by
  simp only [editAt]
  cases hn : Grid.index? n with
  | none => rfl
  | some i =>
      cases hm : Grid.index? m with
      | none => rfl
      | some j =>
          have hi : n = i.val := Grid.index?_eq_some_iff.1 hn
          have hj : m = j.val := Grid.index?_eq_some_iff.1 hm
          exact s.edit_comm (fun hij => hnm (by rw [hi, hj, hij])) d e

/-! ## operations -/

/-- What an operation that makes an edit does: it edits the cell of its number. -/
theorem run_of_edit {e : Edit} (h : op.edit? = some e) : ∃ n, op.index? = some n ∧
    ∀ s : Substrate, s.run op = (if n < cellCount then .ok .done else .error (.outOfRange n),
      s.editAt n e) := by
  have hat (n : Nat) (s : Substrate) : (s.withCell n fun i => (.ok .done, s.edit i e)) =
      (if n < cellCount then .ok .done else .error (.outOfRange n), s.editAt n e) := by
    obtain hn | hn := Nat.lt_or_ge n cellCount
    · rw [s.withCell_val ⟨n, hn⟩, if_pos hn, editAt, Grid.index?_val ⟨n, hn⟩]
    · rw [s.withCell_of_le hn, if_neg hn.not_gt, editAt, Grid.index?_of_le hn]
  cases op with
  | init | tick | sync | read | wave | retrieve => cases h
  | write n _ | force n _ =>
      cases h
      exact ⟨n, rfl, hat n⟩
  | setDecayRate n rate =>
      cases h
      refine ⟨n, rfl, fun s => ?_⟩
      simp only [run, setDecayRate_eq_setCell]
      exact hat n s
  | store n q =>
      cases h
      refine ⟨n, rfl, fun s => ?_⟩
      simp only [run, store_eq_setCell]
      exact hat n s

/-- Such an operation is answered the same on every substrate. -/
theorem run_fst_of_edit (h : op.edit?.isSome) (s s' : Substrate) :
    (s.run op).1 = (s'.run op).1 := by
  obtain ⟨e, he⟩ := Option.isSome_iff_exists.1 h
  obtain ⟨n, -, hrun⟩ := run_of_edit he
  rw [hrun, hrun]

theorem run_comm (h : op.edit?.isSome) (h' : op'.edit?.isSome) (hne : op.index? ≠ op'.index?)
    (s : Substrate) : ((s.run op).2.run op').2 = ((s.run op').2.run op).2 := by
  obtain ⟨e, he⟩ := Option.isSome_iff_exists.1 h
  obtain ⟨e', he'⟩ := Option.isSome_iff_exists.1 h'
  obtain ⟨n, hn, hrun⟩ := run_of_edit he
  obtain ⟨n', hn', hrun'⟩ := run_of_edit he'
  simp only [hrun, hrun']
  exact s.editAt_comm (fun hnn => hne (by rw [hn, hn', hnn])) e e'

/-! ## runs -/

/-- Each operation of a run of edits is answered as on any other substrate. -/
theorem history_of_edits {ops : List Operation} (h : ∀ op ∈ ops, op.edit?.isSome)
    (s s' : Substrate) : s.history ops = ops.map fun op => ⟨op, (s'.run op).1⟩ := by
  induction ops generalizing s with
  | nil => rfl
  | cons op ops ih =>
      obtain ⟨hop, hops⟩ := List.forall_mem_cons.1 h
      rw [history, List.map_cons, ih hops, run_fst_of_edit hop s s']

/-- **Edits of different cells commute.**  From any substrate, whether or not its checksum fits,
writes, forces, changes of the decay rate and stores on different cell numbers, be these of the grid
or not, lead to the same substrate in any order, and each is answered the same. -/
theorem edits_commute (s : Substrate) {ops ops' : List Operation}
    (hedits : ∀ op ∈ ops, op.edit?.isSome) (hcells : (ops.map Operation.index?).Nodup)
    (horder : ops.Perm ops') :
    s.runAll ops' = s.runAll ops ∧ (s.history ops').Perm (s.history ops) := by
  constructor
  · refine (horder.foldl_eq' (fun op hop op' hop' t => ?_) s).symm
    by_cases heq : op = op'
    · rw [heq]
    · have hne : op.index? ≠ op'.index? := fun h =>
        heq (List.inj_on_of_nodup_map hcells hop hop' h)
      exact run_comm (hedits op hop) (hedits op' hop') hne t
  · have hedits' : ∀ op ∈ ops', op.edit?.isSome := fun op hop =>
      hedits op (horder.mem_iff.2 hop)
    rw [history_of_edits hedits s s, history_of_edits hedits' s s]
    exact (horder.map _).symm

/-- On a substrate whose checksum does not fit: all kinds of edits, two of them out of the grid. -/
theorem edits_commute_out_of_parity :
    let s : Substrate := { initial with checksum := 1 }
    let write := Operation.write 7 ⟨2, 1, 0.5⟩
    let force := Operation.force 8 ⟨1, 0, 2⟩
    let rate := Operation.setDecayRate 4095 0.25
    let store := Operation.store 0 .empty
    let outside := Operation.write 4096 ⟨1, 1, 1⟩
    let farther := Operation.store 5000 .empty
    let ops := [write, force, rate, store, outside, farther]
    let ops' := [farther, outside, store, rate, force, write]
    (∀ op ∈ ops, op.edit?.isSome) ∧ (ops.map Operation.index?).Nodup ∧ ops.Perm ops' ∧
      s.runAll ops' = s.runAll ops ∧ (s.history ops').Perm (s.history ops) := by
  intro s write force rate store outside farther ops ops'
  have hedits : ∀ op ∈ ops, op.edit?.isSome := by decide
  have hcells : (ops.map Operation.index?).Nodup := by decide
  have horder : ops.Perm ops' := ops.reverse_perm.symm
  exact ⟨hedits, hcells, horder, s.edits_commute hedits hcells horder⟩

end Substrate

end GlyphField
