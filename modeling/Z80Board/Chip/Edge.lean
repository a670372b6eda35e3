import Z80Board.Chip.Boundary
import Z80Board.Chip.HalfPeriod
import Z80Board.Watch.Event

/-! # One clock edge

    The chip's step.  Resetting comes before everything; then the start after power-on and the
    return of the buses; then a bus request, if a cycle is about to start; then the half-period.

    An edge emits events, each with the state of the chip at that point.  It is split at the end of
    an instruction: whether the next instruction is chosen on the same edge or on the following one
    depends on whether somebody asks to stop, which only whoever listens can tell. -/

namespace Z80Board

/-- An event with the chip as it was then. -/
structure Emission where
  event : Event
  core : Core

/-- An edge up to the end of an instruction, if it has one. -/
structure Edge where
  core : Core
  /-- What has been emitted so far, in order. -/
  emitted : List Emission
  /-- An instruction has ended on this edge. -/
  ended : Bool

namespace Core

/-- An edge on which the chip does nothing more. -/
def idle (c : Core) (emitted : List Emission) : Edge :=
  ⟨c, emitted, false⟩

/-- Choose the next instruction and announce it. -/
def startInstruction (c : Core) : Core × Emission :=
  let c := c.resolveNext
  (c, ⟨.instructionStart, c⟩)

/-- The end of a machine cycle: latch its result, and set up what comes next.  The last cycle of an
    instruction completes it. -/
def endCycle (c : Core) (emitted : List Emission) : Edge :=
  let latched := c.latchResult
  let emitted := emitted ++ [⟨.cycleEnd, latched⟩]
  match latched.nextCycle with
  | (c, false) => ⟨c, emitted, false⟩
  | (c, true) =>
    let c := { c with instructionCounter := c.instructionCounter + 1 }
    ⟨c, emitted ++ [⟨.instructionEnd, c⟩], true⟩

/-- Run a half-period, and end the cycle if it was the last one. -/
def runEdge (c : Core) (emitted : List Emission) : Edge :=
  match c.runHalf with
  | (c, false) => c.idle emitted
  | (c, true) => c.endCycle emitted

/-- The running chip at an edge, once it is known which instruction runs.  A bus request is granted
    before the first half-period of any cycle. -/
def advance (c : Core) (emitted : List Emission) : Edge :=
  if c.cycle.half = 0 then
    if c.pins.busreq.isAsserted then c.releaseBus.idle emitted
    else c.runEdge (emitted ++ [⟨.cycleStart, c⟩])
  else c.runEdge emitted

/-- The running chip at an edge.  After a stop the next instruction is still to be chosen. -/
def proceed (c : Core) : Edge :=
  if c.boundaryPending then
    let (c, start) := { c with boundaryPending := false }.startInstruction
    c.advance [start]
  else c.advance []

/-- One clock edge, up to the end of an instruction. -/
def edge (c : Core) (level : Level) (inputs : InputLevels) : Edge :=
  let c := c.sampleInputs inputs
  if c.pins.reset.isAsserted then c.holdReset.idle []
  else
    let c := c.leaveReset
    match c.phase with
    | .powerOn =>
      if level.isLow then c.idle []
      else
        let (c, start) := { c with phase := .running }.startInstruction
        c.advance [start]
    | .busReleased =>
      if level.isLow || c.pins.busreq.isAsserted then c.idle [] else c.returnBus.proceed
    | .running | .reset => c.proceed

end Core

/-- The rest of an edge.  If an instruction has ended, the next one is chosen now, or on the next
    edge if somebody asks to stop.  Every edge ends with the same event. -/
def Edge.finish (e : Edge) (stopping : Bool) : Core × List Emission :=
  if e.ended then
    if stopping then
      let c := { e.core with boundaryPending := true }
      (c, [⟨.halfTState, c⟩])
    else
      let (c, start) := e.core.startInstruction
      (c, [start, ⟨.halfTState, c⟩])
  else (e.core, [⟨.halfTState, e.core⟩])

/-- A clock edge with nobody listening. -/
def Core.step (c : Core) (level : Level) (inputs : InputLevels) : Core :=
  ((c.edge level inputs).finish false).1

end Z80Board
