import GlyphField.Proofs.CheckedWave
import GlyphField.Proofs.WaveReach
import Mathlib.Data.List.DropRight

/-!
# GlyphField.Proofs.Accounting

The clock and the counters of a substrate, and the times at which its cells were written, against
its history.  Only answered calls count: a tick moves the clock, a read is one read, and a write, a
force or a wave are as many writes as cells were written.  What one call does to the accounts is
said once for all operations (`Counts`); the accounts of a run follow call by call.

* `counts_run` — the step: one operation;
* `Accounts.concat` — the accounts with one more call;
* `accounts_exact` — every run since the last start, and the operations that fail in it.
-/

namespace GlyphField.Substrate

/-! ## what a call counts for -/

namespace Call

/-- Whether the substrate starts anew. -/
def isInit : Call → Bool
  | ⟨.init, _⟩ => true
  | _ => false

/-- Whether a tick has passed. -/
def isTick : Call → Bool
  | ⟨.tick, .ok _⟩ => true
  | _ => false

/-- Whether a cell has been read. -/
def isRead : Call → Bool
  | ⟨.read _, .ok _⟩ => true
  | _ => false

/-- How many cells have been written; a wave tells it. -/
def written : Call → Nat
  | ⟨.write _ _, .ok _⟩ => 1
  | ⟨.force _ _, .ok _⟩ => 1
  | ⟨.wave _ _, .ok (.written cells)⟩ => cells
  | _ => 0

/-- Whether this cell has been written. -/
def hasWritten (i : Index) : Call → Bool
  | ⟨.write n _, .ok _⟩ => n = i.val
  | ⟨.force n _, .ok _⟩ => n = i.val
  | ⟨.wave n _, .ok _⟩ => Grid.distance n i.val ≤ 10
  | _ => false

theorem isTick_of_hasWritten {c : Call} {i : Index} (h : c.hasWritten i = true) :
    c.isTick = false := by
  unfold hasWritten at h
  split at h
  · rfl
  · rfl
  · rfl
  · cases h

end Call

/-- The calls since the last start. -/
def sinceInit (h : List Call) : List Call := h.rtakeWhile fun c => !c.isInit

/-- The calls up to the most recent one that has written this cell; none if none has. -/
def upToWrite (i : Index) (h : List Call) : List Call := h.rdropWhile fun c => !c.hasWritten i

/-- The ticks among calls. -/
def tickCount (h : List Call) : Nat := h.countP Call.isTick

/-- The reads among calls. -/
def readCount (h : List Call) : Nat := h.countP Call.isRead

/-- The cells written by calls. -/
def writeCount (h : List Call) : Nat := (h.map Call.written).sum

/-! ## one call -/

/-- What a call does to the clock, to the counters and to the times of the cells. -/
structure Counts (s s' : Substrate) (c : Call) : Prop where
  time : s'.time = if c.isTick then s.time + 1 else s.time
  reads : s'.reads.toNat = min (s.reads.toNat + if c.isRead then 1 else 0) (2 ^ 64 - 1)
  writes : s'.writes.toNat = min (s.writes.toNat + c.written) (2 ^ 64 - 1)
  lastUpdate : ∀ i, (s'.cell i).lastUpdate =
    if c.hasWritten i then s.time else (s.cell i).lastUpdate

variable {s s' : Substrate} {op : Operation}

theorem toNat_eq_min (n : UInt64) : n.toNat = min (n.toNat + 0) (2 ^ 64 - 1) := by
  have hlt := n.toNat_lt
  omega

/-- A call that counts for nothing. -/
theorem counts_idle (s : Substrate) {c : Call} (htick : c.isTick = false)
    (hread : c.isRead = false) (hwritten : c.written = 0) (hcells : ∀ i, c.hasWritten i = false) :
    s.Counts s c where
  time := by rw [htick, if_neg Bool.false_ne_true]
  reads := by rw [hread, if_neg Bool.false_ne_true, ← toNat_eq_min]
  writes := by rw [hwritten, ← toNat_eq_min]
  lastUpdate i := by rw [hcells, if_neg Bool.false_ne_true]

theorem counts_error (s : Substrate) (op : Operation) (e : SubstrateError) :
    s.Counts s ⟨op, .error e⟩ := by
  cases op <;> exact s.counts_idle rfl rfl rfl fun _ => rfl

theorem counts_withCell {n : Nat} {act : Index → Outcome}
    (hact : ∀ i : Index, n = i.val → s.Counts (act i).2 ⟨op, (act i).1⟩) :
    s.Counts (s.withCell n act).2 ⟨op, (s.withCell n act).1⟩ := by
  obtain hn | hn := Nat.lt_or_ge n cellCount
  · have hi := s.withCell_val ⟨n, hn⟩ act
    dsimp only at hi
    rw [hi]
    exact hact ⟨n, hn⟩ rfl
  · rw [s.withCell_of_le hn]
    exact s.counts_error op _

theorem counts_tick (s : Substrate) (a : Answer) : s.Counts s.tick ⟨.tick, .ok a⟩ where
  time := rfl
  reads := toNat_eq_min s.reads
  writes := toNat_eq_min s.writes
  lastUpdate i := by
    rw [cell_tick]
    rfl

theorem counts_read (s : Substrate) (i : Index) (n : Nat) (a : Answer) :
    s.Counts (s.read i).2 ⟨.read n, .ok a⟩ where
  time := rfl
  reads := toNat_countUp s.reads
  writes := toNat_eq_min s.writes
  lastUpdate _ := rfl

/-- A cell that is replaced by one of the same time. -/
theorem lastUpdate_setCell (s : Substrate) {i : Index} {c : Cell}
    (hc : c.lastUpdate = (s.cell i).lastUpdate) (j : Index) :
    ((s.setCell i c).cell j).lastUpdate = (s.cell j).lastUpdate := by
  rw [cell_setCell]
  split
  · next h => rw [hc, h]
  · rfl

theorem counts_setDecayRate (s : Substrate) (i : Index) (n : Nat) (rate : Float) (a : Answer) :
    s.Counts (s.setDecayRate i rate) ⟨.setDecayRate n rate, .ok a⟩ where
  time := rfl
  reads := toNat_eq_min s.reads
  writes := toNat_eq_min s.writes
  lastUpdate := s.lastUpdate_setCell rfl

theorem counts_store (s : Substrate) (i : Index) (n : Nat) (q : Superposition) (a : Answer) :
    s.Counts (s.store i q) ⟨.store n q, .ok a⟩ where
  time := rfl
  reads := toNat_eq_min s.reads
  writes := toNat_eq_min s.writes
  lastUpdate := s.lastUpdate_setCell rfl

/-- Writing one cell, as a write or a force does. -/
theorem counts_write (s : Substrate) (i : Index) (v : Reading) {c : Call}
    (htick : c.isTick = false) (hread : c.isRead = false) (hwritten : c.written = 1)
    (hcells : ∀ j, c.hasWritten j = decide (i = j)) : s.Counts (s.write i v) c where
  time := by
    rw [htick]
    rfl
  reads := by
    rw [hread]
    exact toNat_eq_min s.reads
  writes := by
    rw [hwritten]
    exact toNat_countUp s.writes
  lastUpdate j := by
    rw [hcells, cell_write]
    by_cases hj : i = j <;> simp [hj, Cell.write]

/-- A wave writes the cells within ten steps, each once. -/
theorem counts_wave (s : Substrate) (i : Index) (w : Wave) :
    s.Counts (s.wave i w).2 ⟨.wave i.val w, .ok (.written (s.wave i w).1)⟩ := by
  have hnodup := Grid.nodup_fronts i Wave.maxSteps
  obtain ⟨htime, hreads, -⟩ := reachAll_beside w i s (Grid.fronts i Wave.maxSteps).flatten
  rw [wave_eq]
  refine ⟨htime, ?_, writes_reachAll w i s _, fun j => ?_⟩
  · rw [hreads]
    exact toNat_eq_min s.reads
  · have hmem : j ∈ (Grid.fronts i Wave.maxSteps).flatten ↔ Grid.distance i.val j.val ≤ 10 :=
      Grid.mem_fronts
    rw [cell_reachAll hnodup]
    by_cases hj : Grid.distance i.val j.val ≤ 10 <;>
      simp [hmem, hj, Call.hasWritten, Cell.write]

/-- **The step of a run**, for every operation that does not start anew. -/
theorem counts_run (s : Substrate) (hop : op ≠ .init) :
    s.Counts (s.run op).2 ⟨op, (s.run op).1⟩ := by
  cases op with
  | init => exact absurd rfl hop
  | tick => exact s.counts_tick .done
  | sync => cases hsync : s.sync <;> exact s.counts_idle rfl rfl rfl fun _ => rfl
  | read n => exact counts_withCell fun i _ => s.counts_read i n _
  | setDecayRate n rate => exact counts_withCell fun i _ => s.counts_setDecayRate i n rate _
  | store n q => exact counts_withCell fun i _ => s.counts_store i n q _
  | retrieve n => exact counts_withCell fun i _ => s.counts_idle rfl rfl rfl fun _ => rfl
  | write n v =>
      refine counts_withCell fun i hi => s.counts_write i v rfl rfl rfl fun j => ?_
      simp [Call.hasWritten, hi, Fin.ext_iff]
  | force n f =>
      refine counts_withCell fun i hi => s.counts_write i _ rfl rfl rfl fun j => ?_
      simp [Call.hasWritten, hi, Fin.ext_iff]
  | wave n w =>
      refine counts_withCell fun i hi => ?_
      subst hi
      cases w.fault? with
      | some e => exact s.counts_error _ e
      | none =>
          have hwave := s.counts_wave i w
          generalize s.wave i w = outcome at hwave ⊢
          exact hwave

/-! ## accounts -/

/-- The clock, the counters and the times of the cells are those of a history.  The clock wraps
around, and the counters stay at the greatest count. -/
structure Accounts (s : Substrate) (h : List Call) : Prop where
  time : s.time.toNat = tickCount h % 2 ^ 64
  reads : s.reads.toNat = min (readCount h) (2 ^ 64 - 1)
  writes : s.writes.toNat = min (writeCount h) (2 ^ 64 - 1)
  lastUpdate : ∀ i, (s.cell i).lastUpdate.toNat = tickCount (upToWrite i h) % 2 ^ 64

variable {h : List Call} {c : Call}

theorem tickCount_concat (h : List Call) (c : Call) :
    tickCount (h ++ [c]) = tickCount h + if c.isTick then 1 else 0 := by
  rw [tickCount, List.countP_append, List.countP_singleton]
  rfl

theorem readCount_concat (h : List Call) (c : Call) :
    readCount (h ++ [c]) = readCount h + if c.isRead then 1 else 0 := by
  rw [readCount, List.countP_append, List.countP_singleton]
  rfl

theorem writeCount_concat (h : List Call) (c : Call) :
    writeCount (h ++ [c]) = writeCount h + c.written := by
  simp [writeCount]

theorem Accounts.concat (hs : s.Accounts h) (hc : s.Counts s' c) : s'.Accounts (h ++ [c]) where
  time := by
    have hadd : (s.time + 1).toNat = (s.time.toNat + 1) % 2 ^ 64 := UInt64.toNat_add s.time 1
    have hs := hs.time
    rw [hc.time, tickCount_concat]
    cases c.isTick with
    | true => simp only [if_true, hadd]; omega
    | false => simpa using hs
  reads := by
    have hs := hs.reads
    rw [hc.reads, readCount_concat]
    omega
  writes := by
    have hs := hs.writes
    rw [hc.writes, writeCount_concat]
    omega
  lastUpdate i := by
    rw [hc.lastUpdate, upToWrite, List.rdropWhile_concat]
    cases hi : c.hasWritten i with
    | true =>
        have htick := Call.isTick_of_hasWritten hi
        simp only [Bool.not_true, Bool.false_eq_true, if_true, if_false, tickCount_concat, htick,
          Nat.add_zero, hs.time]
    | false => exact hs.lastUpdate i

theorem accounts_initial : initial.Accounts [] where
  time := rfl
  reads := rfl
  writes := rfl
  lastUpdate i := by
    rw [cell_initial]
    rfl

/-- **The run.** -/
theorem accounts_runAll (s : Substrate) (ops : List Operation) :
    (s.runAll (.init :: ops)).Accounts (sinceInit (s.history (.init :: ops))) := by
  induction ops using List.reverseRecOn with
  | nil => exact accounts_initial
  | append_singleton ops op ih =>
      rw [← List.cons_append, runAll_concat, history_concat, sinceInit, List.rtakeWhile_concat]
      by_cases hop : op = .init
      · subst hop
        exact accounts_initial
      · have hinit : Call.isInit ⟨op, ((s.runAll (.init :: ops)).run op).1⟩ = false := by
          cases op <;> first | rfl | exact absurd rfl hop
        rw [hinit]
        exact ih.concat (counts_run _ hop)

theorem Clean.runAll (hs : s.Clean) (ops : List Operation) : (s.runAll ops).Clean := by
  induction ops generalizing s with
  | nil => exact hs
  | cons op ops ih => exact ih (hs.run op)

/-- **Exact accounts.**  Of any run, let `h` be the calls since the last start.  The clock shows the
ticks among them, the counters the answered reads and the cells written by answered writes, forces
and waves, and the time of each cell is what the clock showed at the last of these writes, or zero:
modulo `2 ^ 64` for times, up to the greatest count for the counters.  An operation fails on the
substrate only for a cell number outside of the grid or, after that, for the frequency of a wave and
then for its amplitude, and after a failure the whole substrate is as it was.  That includes waves:
the checks of the cells that a wave writes never fail. -/
theorem accounts_exact (s₀ : Substrate) (ops : List Operation) :
    let s := s₀.runAll (.init :: ops)
    let h := sinceInit (s₀.history (.init :: ops))
    (s.time.toNat = tickCount h % 2 ^ 64 ∧
      s.reads.toNat = min (readCount h) (2 ^ 64 - 1) ∧
      s.writes.toNat = min (writeCount h) (2 ^ 64 - 1) ∧
      ∀ i, (s.cell i).lastUpdate.toNat = tickCount (upToWrite i h) % 2 ^ 64) ∧
    (∀ op e, (s.run op).1 = .error e ↔ op.Fails e) ∧
    (∀ (t : Substrate) op e, (t.run op).1 = .error e → (t.run op).2 = t) ∧
    ∀ (t : Substrate) n w, t.run (.wave n w) = t.checkedWave n w := by
  intro s h
  have haccounts : s.Accounts h := s₀.accounts_runAll ops
  have hclean : s.Clean := Clean.runAll (s := initial) clean_initial ops
  refine ⟨⟨haccounts.time, haccounts.reads, haccounts.writes, haccounts.lastUpdate⟩,
    fun op e => ?_, fun t op e => run_of_error, run_wave_eq_checked⟩
  rw [run_eq_error_iff, sync_eq_ok_iff.2 hclean]
  simp

/-- Calls with a second start, a write outside of the grid and, at last, a wave that is refused. -/
theorem accounts_exact_restarted :
    let ops : List Operation := [.write 3 ⟨1, 2, 3⟩, .tick, .read 3, .init, .tick,
      .force 5 ⟨3, 4, 0⟩, .write 4096 ⟨1, 2, 3⟩, .tick, .read 9]
    let s := initial.runAll (.init :: ops)
    s.time.toNat = 2 ∧ s.reads.toNat = 1 ∧ s.writes.toNat = 1 ∧
      (s.cell 5).lastUpdate.toNat = 1 ∧ (s.cell 3).lastUpdate.toNat = 0 ∧
      s.run (.wave 5 ⟨1, 0⟩) = (.error (.invalidFrequency 0), s) := by
  intro ops s
  obtain ⟨⟨htime, hreads, hwrites, hcells⟩, hfails, hkept, -⟩ := accounts_exact initial ops
  have hwave : (s.run (.wave 5 ⟨1, 0⟩)).1 = .error (.invalidFrequency 0) :=
    (hfails _ _).2 (.frequency (by decide) (by decide +kernel))
  exact ⟨htime, hreads, hwrites, hcells 5, hcells 3, Prod.ext hwave (hkept s _ _ hwave)⟩

end GlyphField.Substrate
