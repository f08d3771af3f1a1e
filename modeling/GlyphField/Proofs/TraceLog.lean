import GlyphField.Activation.Trace

/-!
# GlyphField.Proofs.TraceLog

A trace against a log without bounds. The log keeps every step since it was last cleared; the
trace holds the end of it, as long as its capacity, each entry under its place in the log. Letting
the oldest entry give way and adding the new one move both ends of what is held by one place, and
the counters say where these ends are.

* `Shows` — how a trace shows a log;
* `Shows.record` — the step: one more recording, into a trace that is full or not;
* `onAll_refines` — every sequence of recordings and clearings.

Numbers and counts are not bounded here; none of them exceeds the number of steps recorded since
the last clearing.
-/

namespace GlyphField.Trace

/-- What is done with a trace. -/
inductive Event where
  | record (s : Step)
  | clear

/-- The trace after an event. -/
def on (t : Trace) : Event → Trace
  | .record s => t.record s
  | .clear => t.clear

/-- The trace after events in order. -/
def onAll (t : Trace) (es : List Event) : Trace := es.foldl on t

/-- The log after an event. -/
def logOn (log : List Step) : Event → List Step
  | .record s => log ++ [s]
  | .clear => []

/-- The log after events in order: all steps recorded since the last clearing. -/
def logOf (es : List Event) : List Step := es.foldl logOn []

/-- A log as entries, each numbered by its place. -/
def numbered (log : List Step) : List TraceEntry := log.zipIdx.map fun e => ⟨e.2, e.1⟩

variable {t : Trace} {log : List Step} {c : Nat}

/-! ## numbered logs -/

@[simp] theorem length_numbered (log : List Step) : (numbered log).length = log.length := by
  simp [numbered]

theorem numbered_concat (log : List Step) (s : Step) :
    numbered (log ++ [s]) = numbered log ++ [⟨log.length, s⟩] := by
  simp [numbered, List.zipIdx_append]

@[simp] theorem map_step_numbered (log : List Step) :
    (numbered log).map TraceEntry.step = log := by
  simp [numbered, Function.comp_def]

@[simp] theorem map_seq_numbered (log : List Step) :
    (numbered log).map TraceEntry.seq = List.range log.length := by
  simp [numbered, Function.comp_def, List.range_eq_range']

/-! ## showing a log -/

/-- A trace of capacity `c` holds the last `c` entries of a log and counts the others. -/
structure Shows (t : Trace) (c : Nat) (log : List Step) : Prop where
  enabled : t.enabled = true
  capacity : t.capacity = c
  entries : t.entries = (numbered log).drop (log.length - c)
  nextSeq : t.nextSeq = log.length
  dropped : t.dropped = log.length - c

theorem Shows.size (h : t.Shows c log) : t.size = min log.length c := by
  rw [Trace.size, h.entries, List.length_drop, length_numbered]
  omega

theorem shows_ofCapacity (n : Nat) : (ofCapacity n).Shows (max 1 (min n maxCapacity)) [] :=
  ⟨rfl, rfl, by simp [ofCapacity, numbered], rfl, by simp [ofCapacity]⟩

theorem Shows.clear (h : t.Shows c log) : t.clear.Shows c [] :=
  ⟨h.enabled, h.capacity, by simp [Trace.clear, numbered], rfl, by simp [Trace.clear]⟩

/-- Room for one more entry: what is then held starts where the last `c` places of a log that is
longer by one start. -/
theorem Shows.makeRoom (h : t.Shows c log) :
    t.makeRoom.entries = (numbered log).drop (log.length + 1 - c) ∧
      t.makeRoom.dropped = log.length + 1 - c := by
  have hsize := h.size
  simp only [Trace.size] at hsize
  unfold Trace.makeRoom
  rw [h.capacity]
  split
  · next hfull =>
    have hle : c ≤ log.length := by omega
    simp [h.entries, h.dropped, Nat.succ_sub hle]
  · next hfull =>
    have hlt : log.length < c := by omega
    simp [h.entries, h.dropped, Nat.sub_eq_zero_of_le (Nat.le_of_lt hlt),
      Nat.sub_eq_zero_of_le (Nat.succ_le_of_lt hlt)]

theorem makeRoom_keeps (t : Trace) :
    t.makeRoom.enabled = t.enabled ∧ t.makeRoom.capacity = t.capacity ∧
      t.makeRoom.nextSeq = t.nextSeq := by
  unfold makeRoom
  split <;> simp

/-- **The step of a run.** A trace that can hold an entry shows the log after one more. -/
theorem Shows.record (h : t.Shows c log) (hc : 0 < c) (s : Step) :
    (t.record s).Shows c (log ++ [s]) := by
  obtain ⟨henabled, hcapacity, hnext⟩ := t.makeRoom_keeps
  obtain ⟨hentries, hdropped⟩ := h.makeRoom
  rw [h.nextSeq] at hnext
  have hstart : log.length + 1 - c ≤ (numbered log).length := by
    rw [length_numbered]
    omega
  rw [Trace.record, if_pos h.enabled]
  constructor
  · exact henabled.trans h.enabled
  · exact hcapacity.trans h.capacity
  · rw [numbered_concat, List.length_append, List.length_singleton,
      List.drop_append_of_le_length hstart, ← hentries, ← hnext]
    rfl
  · simp [push, hnext]
  · simp [push, hdropped]

/-- The new entry stands at the end, under the next number. -/
theorem Shows.getLast?_record (h : t.Shows c log) (hc : 0 < c) (s : Step) :
    (t.record s).entries.getLast? = some ⟨log.length, s⟩ := by
  have hheld : ¬(numbered (log ++ [s])).length ≤ (log ++ [s]).length - c := by
    simp
    omega
  rw [(h.record hc s).entries, List.getLast?_drop, if_neg hheld, numbered_concat,
    List.getLast?_concat]

theorem Shows.onAll (h : t.Shows c log) (hc : 0 < c) (es : List Event) :
    (t.onAll es).Shows c (es.foldl logOn log) := by
  induction es generalizing t log with
  | nil => exact h
  | cons e es ih =>
      cases e with
      | record s => exact ih (h.record hc s)
      | clear => exact ih h.clear

theorem onAll_of_disabled (h : t.enabled = false) (hentries : t.entries = [])
    (hdropped : t.dropped = 0) (es : List Event) :
    (t.onAll es).entries = [] ∧ (t.onAll es).dropped = 0 := by
  induction es generalizing t with
  | nil => exact ⟨hentries, hdropped⟩
  | cons e es ih =>
      cases e with
      | record s =>
          have hrecord : t.record s = t := by simp [Trace.record, h]
          rw [Trace.onAll, List.foldl_cons, on, hrecord]
          exact ih h hentries hdropped
      | clear => exact ih h rfl rfl

/-- **A trace is the end of the log.** After any recordings and clearings, a trace that was asked
to hold `n` entries holds the last steps of the log in order, at most as many as its capacity,
numbered by their places; it has counted the ones before them, and the next one gets the next
number. A disabled trace stays empty. -/
theorem onAll_refines :
    (∀ (n : Nat) (es : List Event),
      let t := (ofCapacity n).onAll es
      let log := logOf es
      let kept := min log.length (max 1 (min n 1024))
      t.entries.map TraceEntry.step = log.drop (log.length - kept) ∧
        t.entries.map TraceEntry.seq = List.range' (log.length - kept) kept ∧
        t.size = kept ∧ t.dropped = log.length - t.size ∧
        ∀ s, (t.record s).entries.getLast? = some ⟨log.length, s⟩) ∧
    ∀ es : List Event, (disabled.onAll es).entries = [] ∧ (disabled.onAll es).dropped = 0 := by
  refine ⟨fun n es => ?_, onAll_of_disabled rfl rfl rfl⟩
  intro t log kept
  have hpos : 0 < max 1 (min n maxCapacity) := by omega
  have h : t.Shows (max 1 (min n maxCapacity)) log := (shows_ofCapacity n).onAll hpos es
  have hsize : t.size = kept := h.size
  have hstart : log.length - max 1 (min n maxCapacity) = log.length - kept := by
    show log.length - max 1 (min n 1024) = log.length - min log.length (max 1 (min n 1024))
    omega
  have hentries : t.entries = (numbered log).drop (log.length - kept) := hstart ▸ h.entries
  refine ⟨?_, ?_, hsize, ?_, h.getLast?_record hpos⟩
  · rw [hentries, List.map_drop, map_step_numbered]
  · rw [hentries, List.map_drop, map_seq_numbered, List.range_eq_range', List.drop_range']
    congr 1 <;> omega
  · rw [h.dropped, hsize, hstart]

example (a b : Step) : ((ofCapacity 2).onAll
    [.record b, .clear, .record a, .record b, .record a]).entries = [⟨1, b⟩, ⟨2, a⟩] := rfl

end GlyphField.Trace
