import Z80Board.Time.Ticks
import Z80Board.Wire.Level

/-! # The board clock

    The clock owns the wiring it drives and turns its level over every half period.  The wiring
    sees each edge with the level after it and may ask for a stop, which ends whatever the clock
    was doing at that edge: no edge is lost, and stepping goes on from there.

    Running until a stop need not end, so it takes the number of periods it may use. -/

namespace Z80Board

/-- What a clock drives: one edge changes the wiring and may report a stop. -/
class Wiring (W : Type) (Stop : outParam Type) where
  edge : W → Level → W × Option Stop

/-- A half-period clock and the wiring it drives. -/
structure Clock (W : Type) where
  level : Level
  halfTicks : Nat
  frequencyHz : Nat
  wiring : W

namespace Clock

variable {W Stop : Type}

/-- A clock at rest, low. -/
def atRest (wiring : W) (frequencyHz : Nat) : Clock W :=
  ⟨.low, 0, frequencyHz, wiring⟩

/-- Turn the level over and deliver the edge. -/
def halfTick [Wiring W Stop] (c : Clock W) : Clock W × Option Stop :=
  let level := c.level.flip
  let (wiring, stop) := Wiring.edge c.wiring level
  ({ c with level := level, halfTicks := c.halfTicks + 1, wiring := wiring }, stop)

/-- Run to the end of the period: a rising and a falling edge from rest, or the falling edge that a
    stop left over.  A stop on the rising edge ends the tick there. -/
def tick [Wiring W Stop] (c : Clock W) : Clock W × Option Stop :=
  if c.level.isLow then
    match c.halfTick with
    | (c, some stop) => (c, some stop)
    | (c, none) => c.halfTick
  else
    c.halfTick

/-- Tick until a stop, for at most the given number of ticks. -/
def run [Wiring W Stop] : Nat → Clock W → Clock W × Option Stop
  | 0, c => (c, none)
  | limit + 1, c =>
    match c.tick with
    | (c, some stop) => (c, some stop)
    | (c, none) => run limit c

/-- Rising edges delivered so far. -/
def ticks (c : Clock W) : Ticks :=
  ⟨((c.halfTicks + 1) / 2).toUInt64⟩

/-- Time that has passed, in whole nanoseconds; none on a clock without a frequency. -/
def elapsedNanos (c : Clock W) : Nat :=
  if c.frequencyHz = 0 then 0 else c.ticks.count.toNat * 1000000000 / c.frequencyHz

/-- Change the wiring between edges. -/
def modifyWiring (c : Clock W) (f : W → W) : Clock W :=
  { c with wiring := f c.wiring }

end Clock

end Z80Board
