import Z80Board.Rig.Machine

/-! # Recorded runs

    Runs that keep a record of what passed on the way: the stops of a row of ticks, the line of
    every edge, or the line of every instruction.  Stopping does not end a record; a count does, or
    the periods the run may last. -/

namespace Z80Board

/-- One line for an instruction that has just ended: its origin, its opcode and text, the periods
    since power-on, and the registers.  Without an opcode its place stays empty. -/
def StopReason.renderInstruction (stop : StopReason) (regs : Registers) : String :=
  " ".intercalate
    [stop.state.origin.render, hexBytes stop.state.opcode.toList, stop.state.instructionText,
      "t=" ++ toString stop.state.tStates, regs.render]

namespace Machine

/-- What a row of ticks has brought. -/
structure TickRecord where
  machine : Machine
  /-- The line of each tick, in order. -/
  lines : Array String := #[]
  /-- The ticks that stopped, counted from zero, with their stops. -/
  stops : Array (Nat × StopReason) := #[]

/-- Tick a number of times in some way. -/
def recordTicks (m : Machine) (count : Nat) (go : Machine → Machine × Option StopReason) :
    TickRecord :=
  (List.range count).foldl (fun record i =>
    let (machine, stop) := go record.machine
    { machine
      lines := record.lines.push machine.renderEdge
      stops := match stop with
        | some stop => record.stops.push (i, stop)
        | none => record.stops }) { machine := m }

/-- Step a number of instructions, one at a time, with a line for each.  A stop at which the given
    periods have passed ends the record; each step may use that many ticks and two more. -/
def recordInstructions (periods : Nat) : Nat → Machine → Machine × List String
  | 0, m => (m, [])
  | count + 1, m =>
    match m.stepInstructions 1 (periods + 2) with
    | (m, none) => (m, [])
    | (m, some stop) =>
      let line := stop.renderInstruction m.core.regs
      if stop.state.tStates ≥ periods then (m, [line])
      else
        let (last, lines) := recordInstructions periods count m
        (last, line :: lines)

/-- Deliver edges while the test holds, at most the given number, with a line for each. -/
def recordEdgesWhile (test : Machine → Bool) : Nat → Machine → Array String →
    Machine × Array String
  | 0, m, lines => (m, lines)
  | limit + 1, m, lines =>
    if test m then
      let m := m.halfTick.1
      recordEdgesWhile test limit m (lines.push m.renderEdge)
    else (m, lines)

/-- Deliver edges until a number of instructions have completed or a number of periods have passed
    since power-on, with a line for each.  A period has two edges. -/
def recordEdges (m : Machine) (count periods : Nat) : Machine × Array String :=
  recordEdgesWhile
    (fun m => m.core.instructionCounter < count && m.core.halfTStates / 2 < periods)
    (2 * periods) m #[]

end Machine

end Z80Board
