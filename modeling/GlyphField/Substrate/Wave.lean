import GlyphField.Substrate.Basic

/-!
# GlyphField.Substrate.Wave

A damped wave spreads from a cell to its neighbours, up to ten steps. The cells it reaches after
as many steps form a front; each front is written before the next. With every step the wave keeps
95 percent of its amplitude, and the phase shift grows by one turn for each wavelength.
-/

namespace GlyphField

/-! ## Fronts -/

namespace Grid

/-- The neighbours of a front that have not been reached, each once. -/
def nextFront (reached front : List Index) : List Index :=
  ((front.flatMap neighbours).filter fun i => !reached.contains i).eraseDups

/-- A front and the `steps` fronts behind it. -/
def frontsFrom (reached front : List Index) : Nat → List (List Index)
  | 0 => [front]
  | steps + 1 =>
    let reached := front ++ reached
    front :: frontsFrom reached (nextFront reached front) steps

/-- The fronts of a wave from a cell, up to a number of steps. -/
def fronts (origin : Index) (steps : Nat) : List (List Index) := frontsFrom [] [origin] steps

end Grid

/-! ## Waves -/

/-- A wave. -/
structure Wave where
  amplitude : Float
  frequency : Float

namespace Wave

/-- Cells that a wave travels in one unit of time. -/
def speed : Float := 1

/-- The share of the amplitude that is kept in one step. -/
def damping : Float := 0.95

/-- The most steps a wave travels. -/
def maxSteps : Nat := 10

/-- The first fault of a wave: a frequency that is not finite and positive, an amplitude that is
not finite. -/
def fault? (w : Wave) : Option SubstrateError :=
  if !w.frequency.isFinite || w.frequency ≤ 0 then some (.invalidFrequency w.frequency)
  else if !w.amplitude.isFinite then some .invalidAmplitude
  else none

/-- What a cell gains in magnitude after so many steps. -/
def gain (w : Wave) (steps : Nat) : Float := w.amplitude * Quantity.power damping steps

/-- By how much the phase of a cell is shifted after so many steps. -/
def phaseShift (w : Wave) (steps : Nat) : Float :=
  Angle.turn * Float.ofNat steps / (speed / w.frequency)

/-- What a cell is to hold after the wave. -/
def apply (w : Wave) (steps : Nat) (c : Cell) : Reading where
  magnitude := c.magnitude + w.gain steps
  phase := c.phase + w.phaseShift steps
  coherence := c.coherence

end Wave

namespace Substrate

/-- Writes a front. -/
def writeFront (w : Wave) (s : Substrate) (front : List Index × Nat) : Substrate :=
  front.1.foldl (fun s i => s.write i (w.apply front.2 (s.cell i))) s

/-- Sends a wave out from a cell; with the number of cells written. -/
def wave (s : Substrate) (origin : Index) (w : Wave) : Nat × Substrate :=
  let fronts := Grid.fronts origin Wave.maxSteps
  (fronts.flatten.length, fronts.zipIdx.foldl (writeFront w) s)

end Substrate

end GlyphField
