import Z80Board.Chip.Sequence

/-! # Between instructions

    Reset, bus grants, and the choice of the next instruction: the non-maskable interrupt first,
    then the maskable one, then the idle fetch of a halted chip, then a fetch at PC. -/

namespace Z80Board.Core

/-- NMI counts by its edge: remember a change from released to asserted whenever it happens. -/
def latchNmi (c : Core) : Core :=
  let asserted := c.pins.nmi.isAsserted
  { c with
    nmiPending := c.nmiPending || (asserted && !c.nmiSeen)
    nmiSeen := asserted }

/-- Take over the input levels of an edge. -/
def sampleInputs (c : Core) (inputs : InputLevels) : Core :=
  latchNmi { c with pins := c.pins.applyInputs inputs, halfTStates := c.halfTStates + 1 }

/-! ## Reset and bus grants -/

/-- RESET is asserted: drop whatever is in progress, and hold. -/
def holdReset (c : Core) : Core :=
  { c with
    phase := .reset
    regs := .afterReset
    pins := { c.pins.releaseBusControls with halt := .released, busack := .released }
    address := c.address.release
    data := c.data.release
    halted := false
    boundaryPending := false
    nmiPending := false
    intBlocked := false
    origin := .none
    instruction := none
    opcode := c.opcode.clear }

/-- RESET is released: start as at power-on. -/
def leaveReset (c : Core) : Core :=
  if c.phase = .reset then { c with phase := .powerOn } else c

/-- Grant the buses to another master. -/
def releaseBus (c : Core) : Core :=
  { c with
    phase := .busReleased
    pins := { c.pins.releaseBusControls with busack := .asserted }
    address := c.address.release
    data := c.data.release }

/-- Take the buses back. -/
def returnBus (c : Core) : Core :=
  { c with phase := .running, pins.busack := .released }

/-! ## The next instruction -/

/-- Start an operation that the chip performs by itself. -/
def startInternal (c : Core) (op : InternalOp) : Core :=
  let code := decoder.internal op
  let cycles := code.timing.primary.cycles
  let length := match cycles with
    | first :: _ => first.tStates
    | [] => 4
  { c with origin := .internal op, instruction := some code, cycles }.beginCycle .opcodeFetch length

/-- Start fetching an opcode from the given origin. -/
def startFetch (c : Core) (origin : Origin) : Core :=
  { c with origin }.beginCycle .opcodeFetch 4

/-- Forget the last instruction. -/
def clearInstruction (c : Core) : Core :=
  { c with
    opcode := c.opcode.clear
    displacement := none
    page := .main
    chain := .opcode
    position := 0
    instruction := none
    cycles := []
    conditionMet := false }

/-- Accept the non-maskable interrupt, which keeps the second flip-flop. -/
def acceptNmi (c : Core) : Core :=
  { c.leaveHalt with nmiPending := false, regs.iff1 := false }.startInternal .nmi

/-- Accept the maskable interrupt in the current mode. -/
def acceptInt (c : Core) : Core :=
  let c := { c.leaveHalt with regs.iff1 := false, regs.iff2 := false }
  if c.regs.im = 0 then c.startFetch .device
  else if c.regs.im = 1 then c.startInternal .intMode1
  else c.startInternal .intMode2

/-- Choose the next instruction. -/
def resolveNext (c : Core) : Core :=
  let blocked := c.intBlocked
  let c := { c.clearInstruction with intBlocked := false }
  if c.nmiPending then c.acceptNmi
  else if c.pins.int.isAsserted && c.regs.iff1 && !blocked then c.acceptInt
  else if c.halted then c.startInternal .haltNop
  else c.startFetch (.memory c.regs.pc)

end Z80Board.Core
