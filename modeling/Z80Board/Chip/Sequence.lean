import Z80Board.Chip.Execute

/-! # From cycle to cycle

    How a machine cycle is set up, how an opcode byte is followed through the pages, and how the end
    of a cycle leads to the next one.  While the opcode is still being put together there is no
    timing to follow, so the next cycle is told by the chain; afterwards it is told by the timing of
    the instruction. -/

namespace Z80Board.Core

/-! ## Setting up a cycle -/

/-- The instruction begins with an interrupt acknowledge. -/
def acknowledging (c : Core) : Bool :=
  match c.origin with
  | .device | .internal .intMode1 | .internal .intMode2 => true
  | _ => false

/-- How a cycle of this kind uses the buses. -/
def busPattern (c : Core) : CycleKind → BusPattern
  | .opcodeFetch =>
    if c.chain = .opcodeAfterDisplacement then .opcodeRead
    else if c.position = 0 ∧ c.acknowledging then .acknowledge
    else .fetch
  | .operand | .operandLow | .operandHigh | .memoryRead | .memoryReadLow | .memoryReadHigh
  | .stackReadLow | .stackReadHigh => .read
  | .memoryWrite | .memoryWriteLow | .memoryWriteHigh | .stackWriteHigh | .stackWriteLow => .write
  | .portRead => .portRead
  | .portWrite => .portWrite
  | .internal => .internal

/-- Make a cycle the active one, to start on the next rising edge.  An acknowledge puts in two waits
    by itself. -/
def beginCycle (c : Core) (kind : CycleKind) (length : Nat) : Core :=
  let pattern := c.busPattern kind
  { c with
    cycle := { c.cycle with
      kind
      pattern
      length
      half := 0
      edges := 0
      waitStates := 0
      autoWaits := if pattern = .acknowledge then 2 else 0
      fromDevice := c.origin = .device && (kind = .opcodeFetch || kind.isOperandRead) } }

/-! ## Following an opcode byte -/

/-- The length that the timing gives to the current cycle, or the one it has. -/
def templateLength (c : Core) : Nat :=
  match c.cycles[c.position]? with
  | some cycle => cycle.tStates
  | none => c.cycle.length

/-- Take up a decoded instruction.  If its displacement has been read already, memory is addressed
    before it acts. -/
def beginExecution (c : Core) (code : Instruction) : Core :=
  let c := { c with
    instruction := some code
    cycles := code.timing.primary.cycles
    conditionMet := false }
  let c := match code.index?, c.displacement with
    | some x, some d => c.setIndexedAddress x d
    | _, _ => c
  let c := c.execute .decoded
  { c with cycle.length := c.templateLength }

/-- Do what an entry says.  An entry that decodes the byte again on another page starts the
    instruction over there; such an entry leads at once to one that does not, so one more look is
    enough. -/
def follow (c : Core) (code : Instruction) (again : Core → Page → Core) : Core :=
  match code.action with
  | .execute => c.beginExecution code
  | .fetchNext page => { c with page, chain := .opcode }
  | .fetchDisplacement page => { c with page, chain := .displacement }
  | .redecode page => again { c with position := 0 } page

/-- Look a byte up on the current page and do what its entry says. -/
def dispatch (c : Core) (byte : Byte) : Core :=
  let c := { c with opcode := c.opcode.push byte }
  c.follow (decode c.page byte) fun c page => c.follow (decode page byte) fun c _ => c

/-! ## Ending a cycle -/

/-- Latch what the finished cycle has read, and let the instruction act on it.  A displacement only
    addresses memory. -/
def latchResult (c : Core) : Core :=
  let byte := c.latches.fetched
  match c.instruction with
  | none =>
    if c.cycle.kind = .operand then
      { c with displacement := some byte, chain := .opcodeAfterDisplacement }
    else c
  | some code =>
    match c.cycle.kind with
    | .opcodeFetch => c
    | .operand =>
      match code.index?, c.displacement with
      | some x, none => { c with displacement := some byte }.setIndexedAddress x byte
      | _, _ => { c with latches.immLow := byte }.execute (.after .operand)
    | .operandLow => { c with latches.immLow := byte }.execute (.after .operandLow)
    | .operandHigh =>
      let c := { c with latches.immHigh := byte }
      let c := if code.hasOperand .absolute then { c with latches.addr := c.imm16 } else c
      c.execute (.after .operandHigh)
    | .memoryRead | .memoryReadLow | .stackReadLow | .portRead =>
      { c with latches.dataLow := byte }.execute (.after c.cycle.kind)
    | .memoryReadHigh | .stackReadHigh =>
      { c with latches.dataHigh := byte }.execute (.after c.cycle.kind)
    | _ => c.execute (.after c.cycle.kind)

/-- Set up the cycle after the finished one, or tell that the instruction is complete. -/
def nextCycle (c : Core) : Core × Bool :=
  let c := { c with position := c.position + 1 }
  match c.instruction with
  | some _ =>
    match c.cycles[c.position]? with
    | some next => (c.beginCycle next.kind next.tStates, false)
    | none => (c, true)
  | none =>
    match c.chain with
    | .opcode => (c.beginCycle .opcodeFetch 4, false)
    | .displacement => (c.beginCycle .operand 3, false)
    | .opcodeAfterDisplacement => (c.beginCycle .opcodeFetch 3, false)

end Z80Board.Core
