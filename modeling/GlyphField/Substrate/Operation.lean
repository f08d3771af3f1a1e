import GlyphField.Substrate.Force
import GlyphField.Substrate.Wave

/-!
# GlyphField.Substrate.Operation

The operations on a substrate, with cells given by number. An operation on a number outside of the
grid, or with arguments that have no meaning, fails; `run` then gives back the substrate as it
was.
-/

namespace GlyphField

/-- A request to a substrate. -/
inductive Operation where
  /-- Starts anew. -/
  | init
  | tick
  | sync
  | read (index : Nat)
  | write (index : Nat) (value : Reading)
  | setDecayRate (index : Nat) (rate : Float)
  | force (index : Nat) (f : Force)
  | wave (index : Nat) (w : Wave)
  | store (index : Nat) (q : Superposition)
  /-- Asks for what is stored beside a cell. -/
  | retrieve (index : Nat)

/-- What an operation answers. -/
inductive Answer where
  | done
  | reading (r : Reading)
  /-- How many cells a wave has written. -/
  | written (cells : Nat)
  | superposition (q : Superposition)

namespace Substrate

/-- The cell with this number. -/
def locate (n : Nat) : Except SubstrateError Index :=
  match Grid.index? n with
  | some i => .ok i
  | none => .error (.outOfRange n)

/-- The outcome of an operation: its answer or error, and the substrate after it. -/
abbrev Outcome := Except SubstrateError Answer × Substrate

/-- Goes on with the cell of this number, if there is one. -/
def withCell (s : Substrate) (n : Nat) (act : Index → Outcome) : Outcome :=
  match locate n with
  | .ok i => act i
  | .error e => (.error e, s)

/-- Runs an operation. -/
def run (s : Substrate) : Operation → Outcome
  | .init => (.ok .done, initial)
  | .tick => (.ok .done, s.tick)
  | .sync => (s.sync.map fun _ => .done, s)
  | .read n => s.withCell n fun i => let (r, s) := s.read i; (.ok (.reading r), s)
  | .write n v => s.withCell n fun i => (.ok .done, s.write i v)
  | .setDecayRate n rate => s.withCell n fun i => (.ok .done, s.setDecayRate i rate)
  | .force n f => s.withCell n fun i => (.ok .done, s.force i f)
  | .wave n w => s.withCell n fun i =>
    match w.fault? with
    | some e => (.error e, s)
    | none => let (written, s) := s.wave i w; (.ok (.written written), s)
  | .store n q => s.withCell n fun i => (.ok .done, s.store i q)
  | .retrieve n => s.withCell n fun i => (.ok (.superposition (s.superposition i)), s)

end Substrate

end GlyphField
