import GlyphField.Json.Codec
import GlyphField.Substrate.Basic

/-!
# GlyphField.Substrate.Snapshot

Snapshots: a substrate as plain data, to be kept as JSON and restored. Restoring takes every value
as it is, without bringing it into bounds and without computing the checksum, so that a snapshot
that has been tampered with shows at the next `sync`.

A snapshot that holds more or fewer cells than the grid, an entry outside of the grid or another
version is refused. Of several entries for one cell, the last counts.
-/

namespace GlyphField

/-- An entry of the pouch; the cell number is not checked. -/
structure QuantumRecord where
  index : UInt64
  state : Superposition
deriving DecidableEq, BEq

/-- The plain data of a substrate. -/
structure Snapshot where
  version : UInt16
  time : UInt64
  checksum : UInt32
  reads : UInt64
  writes : UInt64
  cells : List Cell
  quantum : List QuantumRecord
deriving DecidableEq, BEq

namespace Snapshot

/-! ## Taking and restoring -/

/-- The snapshot of a substrate. -/
def ofSubstrate (s : Substrate) : Snapshot where
  version := snapshotVersion
  time := s.time
  checksum := s.checksum
  reads := s.reads
  writes := s.writes
  cells := s.cells.toList
  quantum := s.pouch.entries.map fun e => ⟨UInt64.ofNat e.1.val, e.2⟩

/-- Puts records into a pouch in order, up to one outside of the grid. -/
def fillPouch (p : Pouch) : List QuantumRecord → Except SubstrateError Pouch
  | [] => .ok p
  | r :: rs =>
    match Grid.index? r.index.toNat with
    | some i => fillPouch (p.insert i r.state) rs
    | none => .error (.outOfRange r.index.toNat)

/-- The substrate of a snapshot. -/
def restore (p : Snapshot) : Except SubstrateError Substrate :=
  if p.version ≠ snapshotVersion then .error (.unsupportedVersion p.version)
  else if h : p.cells.length = cellCount then
    (fillPouch ∅ p.quantum).map fun pouch =>
      { cells := ⟨p.cells.toArray, by simpa using h⟩
        time := p.time
        checksum := p.checksum
        reads := p.reads
        writes := p.writes
        pouch }
  else .error (.cellCountMismatch p.cells.length)

/-! ## JSON -/

section Codec

variable {D : Type} (C : Json.Codec D)

/-- Writes a cell. -/
def encodeCell (c : Cell) : D :=
  C.ofRecord
    [("magnitude", C.ofFloat c.magnitude),
     ("phase", C.ofFloat c.phase),
     ("coherence", C.ofFloat c.coherence),
     ("decay_rate", C.ofFloat c.decayRate),
     ("last_update", C.ofNat c.lastUpdate.toNat),
     ("flags", C.ofNat c.flags.toNat)]

/-- Writes a component. -/
def encodeComponent (c : Component) : D :=
  C.ofRecord [("amplitude", C.ofFloat c.amplitude), ("phase", C.ofFloat c.phase)]

/-- Writes a superposition. -/
def encodeSuperposition (q : Superposition) : D :=
  C.ofRecord
    [("components", C.ofList (q.components.map (encodeComponent C))),
     ("collapsed", C.ofBool q.collapsed)]

/-- Writes a record. -/
def encodeRecord (r : QuantumRecord) : D :=
  C.ofRecord [("index", C.ofNat r.index.toNat), ("state", encodeSuperposition C r.state)]

/-- Writes a snapshot. -/
def encode (p : Snapshot) : D :=
  C.ofRecord
    [("version", C.ofNat p.version.toNat),
     ("global_time", C.ofNat p.time.toNat),
     ("checksum", C.ofNat p.checksum.toNat),
     ("read_ops", C.ofNat p.reads.toNat),
     ("write_ops", C.ofNat p.writes.toNat),
     ("cells", C.ofList (p.cells.map (encodeCell C))),
     ("quantum", C.ofList (p.quantum.map (encodeRecord C)))]

/-- Reads a cell. -/
def decodeCell? (d : D) : Option Cell := do
  match ← C.toRecord?
      ["magnitude", "phase", "coherence", "decay_rate", "last_update", "flags"] d with
  | [magnitude, phase, coherence, decayRate, lastUpdate, flags] =>
    return {
      magnitude := ← C.toFloat? magnitude
      phase := ← C.toFloat? phase
      coherence := ← C.toFloat? coherence
      decayRate := ← C.toFloat? decayRate
      lastUpdate := UInt64.ofNat (← C.toNat? UInt64.size lastUpdate)
      flags := UInt8.ofNat (← C.toNat? UInt8.size flags) }
  | _ => none

/-- Reads a component. The phase is taken as it is. -/
def decodeComponent? (d : D) : Option Component := do
  match ← C.toRecord? ["amplitude", "phase"] d with
  | [amplitude, phase] => return ⟨← C.toFloat? amplitude, ← C.toFloat? phase⟩
  | _ => none

/-- Reads a superposition. -/
def decodeSuperposition? (d : D) : Option Superposition := do
  match ← C.toRecord? ["components", "collapsed"] d with
  | [components, collapsed] =>
    Superposition.ofComponents? (← C.toListOf? (decodeComponent? C) components)
      (← C.toBool? collapsed)
  | _ => none

/-- Reads a record. -/
def decodeRecord? (d : D) : Option QuantumRecord := do
  match ← C.toRecord? ["index", "state"] d with
  | [index, state] =>
    return ⟨UInt64.ofNat (← C.toNat? UInt64.size index), ← decodeSuperposition? C state⟩
  | _ => none

/-- Reads a snapshot; none if a part is missing, of another kind or out of range. -/
def decode? (d : D) : Option Snapshot := do
  match ← C.toRecord?
      ["version", "global_time", "checksum", "read_ops", "write_ops", "cells", "quantum"] d with
  | [version, time, checksum, reads, writes, cells, quantum] =>
    return {
      version := UInt16.ofNat (← C.toNat? UInt16.size version)
      time := UInt64.ofNat (← C.toNat? UInt64.size time)
      checksum := UInt32.ofNat (← C.toNat? UInt32.size checksum)
      reads := UInt64.ofNat (← C.toNat? UInt64.size reads)
      writes := UInt64.ofNat (← C.toNat? UInt64.size writes)
      cells := ← C.toListOf? (decodeCell? C) cells
      quantum := ← C.toListOf? (decodeRecord? C) quantum }
  | _ => none

end Codec

/-- The snapshot as a document. -/
def toJson (p : Snapshot) : Json := encode Json.codec p

/-- The snapshot of a document. -/
def ofJson? (j : Json) : Option Snapshot := decode? Json.codec j

end Snapshot

end GlyphField
