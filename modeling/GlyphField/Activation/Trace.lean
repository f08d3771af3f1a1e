import GlyphField.Activation.State
import GlyphField.Text.Column

/-!
# GlyphField.Activation.Trace

The trace: a bounded log of activation steps. When it is full, the oldest entry gives way. Entries
are numbered in the order of recording instead of carrying a time, so equal runs have equal
traces. A disabled trace records nothing.
-/

namespace GlyphField

/-- A step of an activation: the glyph at work, what was done, the state after it. -/
structure Step where
  glyphId : String
  operation : String
  state : FieldState
deriving DecidableEq

/-- A recorded step with its number. -/
structure TraceEntry where
  seq : Nat
  step : Step
deriving DecidableEq

/-- The most recent steps. -/
structure Trace where
  capacity : Nat
  enabled : Bool := true
  /-- The entries kept, the oldest first. -/
  entries : List TraceEntry := []
  /-- The number of the next entry. -/
  nextSeq : Nat := 0
  /-- How many entries have given way. -/
  dropped : Nat := 0
deriving DecidableEq

/-- The entry in one line. -/
def TraceEntry.text (e : TraceEntry) : String :=
  "[" ++ Text.zeroPadded 4 e.seq ++ "] " ++ Text.padRight 8 e.step.glyphId ++ " " ++
    Text.padRight 24 e.step.operation ++ " " ++ e.step.state.text

namespace Trace

/-- The most entries a trace keeps. -/
def maxCapacity : Nat := 1024

/-- An enabled trace that keeps at most `n` entries, but at least one and no more than are ever
kept. -/
def ofCapacity (n : Nat) : Trace := { capacity := max 1 (min n maxCapacity) }

/-- A trace that records nothing. -/
def disabled : Trace := { ofCapacity 1 with enabled := false }

/-- Adds an entry at the end. -/
def push (t : Trace) (s : Step) : Trace :=
  { t with entries := t.entries ++ [⟨t.nextSeq, s⟩], nextSeq := t.nextSeq + 1 }

/-- Lets the oldest entry give way if the trace is full. -/
def makeRoom (t : Trace) : Trace :=
  if t.entries.length = t.capacity then
    { t with entries := t.entries.tail, dropped := t.dropped + 1 }
  else t

/-- Records a step. -/
def record (t : Trace) (s : Step) : Trace := if t.enabled then t.makeRoom.push s else t

/-- Records steps in order. -/
def recordAll (t : Trace) (steps : List Step) : Trace := steps.foldl record t

/-- Forgets all entries and counts anew. -/
def clear (t : Trace) : Trace := { t with entries := [], nextSeq := 0, dropped := 0 }

/-- How many entries are kept. -/
def size (t : Trace) : Nat := t.entries.length

/-- The trace as text, a line for each entry. -/
def text (t : Trace) : String :=
  let head := "=== Symbolic Trace (" ++ toString t.size ++ " entries) ===\n"
  let gap := if t.dropped = 0 then "" else "(" ++ toString t.dropped ++ " older entries dropped)\n"
  head ++ gap ++ String.join (t.entries.map fun e => e.text ++ "\n")

/-! ## Recording -/

theorem recordAll_append (t : Trace) (xs ys : List Step) :
    t.recordAll (xs ++ ys) = (t.recordAll xs).recordAll ys :=
  List.foldl_append

end Trace

end GlyphField
