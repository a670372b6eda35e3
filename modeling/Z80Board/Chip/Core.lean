import Z80Board.Isa.Decoder
import Z80Board.Isa.Register
import Z80Board.Watch.Snapshot
import Z80Board.Wire.Bus
import Z80Board.Wire.Pins

/-! # State of the chip

    Everything the chip remembers from one clock edge to the next: the registers, the pins and the
    two buses as it leaves them, the instruction in progress, the machine cycle in progress, the
    data latches, and what it knows of interrupts.  It holds nothing about whoever watches it. -/

namespace Z80Board

/-- What the chip is doing at large. -/
inductive Phase where
  /-- Waiting for the first rising edge after power-on or reset. -/
  | powerOn
  | running
  /-- Another master owns the buses. -/
  | busReleased
  /-- Held in reset. -/
  | reset
deriving DecidableEq, Repr

/-- What comes next while an opcode is still being put together. -/
inductive Chain where
  | opcode
  | displacement
  | opcodeAfterDisplacement
deriving DecidableEq, Repr

/-- How a machine cycle uses the buses. -/
inductive BusPattern where
  | fetch
  /-- An interrupt acknowledge: a fetch that addresses the device in place of memory. -/
  | acknowledge
  /-- The last byte of a displaced opcode: an ordinary read at PC. -/
  | opcodeRead
  | read
  | write
  | portRead
  | portWrite
  | internal
deriving DecidableEq, Repr

/-- When an instruction acts. -/
inductive ExecPoint where
  /-- Its opcode has just been decoded. -/
  | decoded
  /-- A cycle of this kind has just been completed. -/
  | after (kind : CycleKind)
deriving DecidableEq, Repr

/-- The machine cycle in progress. -/
structure ActiveCycle where
  kind : CycleKind := .opcodeFetch
  pattern : BusPattern := .fetch
  /-- Length in periods before any wait. -/
  length : Nat := 4
  /-- The half-period that the next edge runs. -/
  half : Nat := 0
  /-- The half-period that the last edge ran. -/
  lastHalf : Nat := 0
  /-- Edges spent in the cycle, in a counter of 32 bits. -/
  edges : UInt32 := 0
  /-- Waits put into the cycle; the count stops at 255. -/
  waitStates : Nat := 0
  /-- Waits that an acknowledge still puts in by itself. -/
  autoWaits : Nat := 0
  /-- The byte comes from the interrupting device. -/
  fromDevice : Bool := false
deriving DecidableEq, Repr

/-- Bytes and addresses on their way between a cycle and the registers. -/
structure Latches where
  /-- The byte the last read brought in. -/
  fetched : Byte := 0
  /-- Address of the next memory cycle. -/
  addr : Word := 0
  /-- Address of the next port cycle. -/
  port : Word := 0
  immLow : Byte := 0
  immHigh : Byte := 0
  dataLow : Byte := 0
  dataHigh : Byte := 0
  outLow : Byte := 0
  outHigh : Byte := 0
deriving DecidableEq, Repr

/-- The chip. -/
structure Core where
  regs : Registers
  pins : Pins
  address : Bus Word
  data : Bus Byte
  phase : Phase
  origin : Origin
  opcode : OpcodeBytes
  /-- The instruction, once its opcode is decoded. -/
  instruction : Option Instruction
  /-- The page on which the next opcode byte is looked up. -/
  page : Page
  chain : Chain
  /-- The cycles of the instruction, once it is decoded. -/
  cycles : List MachineCycle
  /-- The instruction runs its alternate cycles, if it has any. -/
  conditionMet : Bool
  /-- Position of the current cycle among the cycles. -/
  position : Nat
  displacement : Option Byte
  cycle : ActiveCycle
  latches : Latches
  /-- A released-to-asserted edge on NMI has been seen and not yet served. -/
  nmiPending : Bool
  /-- NMI was asserted on the last edge. -/
  nmiSeen : Bool
  /-- The instruction just completed keeps interrupts out for one more. -/
  intBlocked : Bool
  halted : Bool
  /-- The last instruction ended on an edge that stopped; the next one is still to be chosen. -/
  boundaryPending : Bool
  instructionCounter : Nat
  halfTStates : Nat
deriving DecidableEq, Repr

namespace Core

/-- The chip at power-on, on two buses.  It fetches from address zero on the first rising edge. -/
def powerOn (address : Bus Word) (data : Bus Byte) : Core :=
  { regs := .afterReset
    pins := {}
    address
    data
    phase := .powerOn
    origin := .none
    opcode := .empty
    instruction := none
    page := .main
    chain := .opcode
    cycles := []
    conditionMet := false
    position := 0
    displacement := none
    cycle := {}
    latches := {}
    nmiPending := false
    nmiSeen := false
    intBlocked := false
    halted := false
    boundaryPending := false
    instructionCounter := 0
    halfTStates := 0 }

/-- What the chip shows of its progress. -/
def snapshot (c : Core) : Snapshot :=
  { instructionCounter := c.instructionCounter
    origin := c.origin
    opcode := c.opcode
    instruction := c.instruction
    cycleIndex := min 255 c.position
    cycleKind := if c.phase = .running then some c.cycle.kind else none
    cycleTStates := min 255 (c.cycle.edges.toNat / 2)
    halfTState := c.cycle.lastHalf
    waitStates := c.cycle.waitStates
    tStates := c.halfTStates / 2
    halfTStates := c.halfTStates
    halted := c.halted
    busReleased := c.phase = .busReleased
    inReset := c.phase = .reset }

/-- Change the registers. -/
def modifyRegs (c : Core) (f : Registers → Registers) : Core :=
  { c with regs := f c.regs }

/-- Switch to the alternate cycles, or back to the primary ones. -/
def takeAlternate (c : Core) (met : Bool) : Core :=
  { c with
    conditionMet := met
    cycles := match c.instruction with
      | some code => code.timing.cycles met
      | none => c.cycles }

/-- Address memory at an index register plus a displacement.  WZ takes the address. -/
def setIndexedAddress (c : Core) (x : Index) (d : Byte) : Core :=
  let address := c.regs.reg16 x.pair + Word.ofDisplacement d
  { c with latches.addr := address, regs.wz := address }

/-- Stop at a HALT: from here on only interrupts lead out. -/
def enterHalt (c : Core) : Core :=
  { c with halted := true, pins.halt := .asserted }

/-- Leave a HALT, if the chip is in one. -/
def leaveHalt (c : Core) : Core :=
  if c.halted then { c with halted := false, pins.halt := .released } else c

end Core

end Z80Board
