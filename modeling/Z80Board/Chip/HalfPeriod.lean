import Z80Board.Chip.Sequence

/-! # Half-periods of a machine cycle

    Every machine cycle is a row of half-periods: those with an even number fall on rising edges,
    those with an odd number on falling edges.  Each drives or samples the pins and buses as the
    timing diagrams give.  At one half-period of each pattern WAIT is sampled; while it is asserted
    the half-period before it is run again. -/

namespace Z80Board.Core

/-- Release the refresh strobe that the last fetch left. -/
def releaseRefresh (c : Core) : Core :=
  { c with pins.rfsh := .released }

/-- The instruction comes from memory, so PC moves along with its bytes. -/
def fromMemory (c : Core) : Bool :=
  match c.origin with
  | .memory _ => true
  | _ => false

/-- PC moves on over a byte of the instruction, if that comes from memory. -/
def advancePc (c : Core) : Core :=
  if c.fromMemory then { c with regs.pc := c.regs.pc + 1 } else c

/-- WAIT holds the cycle. -/
def held (c : Core) : Bool :=
  c.pins.wait.isAsserted

/-- Assert the read strobe, and the memory request too unless a device is to answer. -/
def requestRead (c : Core) : Core :=
  { c with
    pins.mreq := if c.cycle.fromDevice then c.pins.mreq else .asserted
    pins.rd := .asserted }

/-! ## Fetches -/

/-- Take in the byte of a fetch.  An internal operation uses it as a vector, if at all; otherwise it
    is a byte of the opcode. -/
def takeOpcodeByte (c : Core) (byte : Byte) : Core :=
  match c.instruction with
  | some _ =>
    let c := { c with latches.fetched := byte }.execute .decoded
    { c with cycle.length := c.templateLength }
  | none => c.advancePc.dispatch byte

/-- Sample the byte of a fetch and put the refresh address out. -/
def sampleOpcode (c : Core) : Core :=
  let byte := c.data.value
  { c with
    pins.mreq := .released
    pins.rd := .released
    pins.m1 := .released
    pins.iorq := .released
    pins.rfsh := .asserted
    address := c.address.drive (Word.ofBytes c.regs.i c.regs.r)
    regs := c.regs.incrementR }.takeOpcodeByte byte

/-- A fetch or an acknowledge.  The acknowledge asserts no strobe at first; it asserts the port
    request with the first of its own waits. -/
def fetchHalf (c : Core) : Nat → Core × Bool
  | 0 =>
    ({ c.releaseRefresh with address := c.address.drive c.regs.pc, pins.m1 := .asserted }, false)
  | 1 => (if c.cycle.pattern = .acknowledge then c else c.requestRead, false)
  | 3 =>
    if c.cycle.autoWaits > 0 then
      ({ c with
          pins.iorq := if c.cycle.autoWaits = 2 then .asserted else c.pins.iorq
          cycle.autoWaits := c.cycle.autoWaits - 1 }, true)
    else (c, c.held)
  | 4 => (c.sampleOpcode, false)
  | 5 => ({ c with pins.mreq := .asserted }, false)
  | 7 => ({ c with pins.mreq := .released }, false)
  | 8 => ({ c with pins.rfsh := .released }, false)
  | _ => (c, false)

/-! ## Memory -/

/-- The address of a read: the address latch, the stack, or PC. -/
def readAddress (c : Core) : Word :=
  match c.cycle.kind with
  | .memoryRead | .memoryReadLow => c.latches.addr
  | .memoryReadHigh => c.latches.addr + 1
  | .stackReadLow | .stackReadHigh => c.regs.sp
  | _ => c.regs.pc

/-- Sample the byte of a read.  A pop moves SP; a byte of the instruction moves PC. -/
def sampleRead (c : Core) : Core :=
  let byte := c.data.value
  let c := { c with pins.mreq := .released, pins.rd := .released }
  let c := match c.cycle.kind with
    | .stackReadLow | .stackReadHigh => { c with regs.sp := c.regs.sp + 1 }
    | .opcodeFetch | .operand | .operandLow | .operandHigh => c.advancePc
    | _ => c
  if c.cycle.pattern = .opcodeRead then c.dispatch byte else { c with latches.fetched := byte }

/-- A read from memory, or from the device that supplies the instruction. -/
def readHalf (c : Core) : Nat → Core × Bool
  | 0 => ({ c.releaseRefresh with address := c.address.drive c.readAddress }, false)
  | 1 => (c.requestRead, false)
  | 3 => (c, c.held)
  | 5 => (c.sampleRead, false)
  | _ => (c, false)

/-- Put out the address of a write.  A push moves SP first. -/
def addressWrite (c : Core) : Core :=
  match c.cycle.kind with
  | .stackWriteHigh | .stackWriteLow =>
    let sp := c.regs.sp - 1
    { c with regs.sp := sp, address := c.address.drive sp }
  | .memoryWriteHigh => { c with address := c.address.drive (c.latches.addr + 1) }
  | _ => { c with address := c.address.drive c.latches.addr }

/-- The byte of a write. -/
def writeByte (c : Core) : Byte :=
  match c.cycle.kind with
  | .memoryWriteHigh | .stackWriteHigh => c.latches.outHigh
  | _ => c.latches.outLow

/-- A write to memory.  The strobe comes only once WAIT lets go. -/
def writeHalf (c : Core) : Nat → Core × Bool
  | 0 => (c.releaseRefresh.addressWrite, false)
  | 1 => ({ c with pins.mreq := .asserted, data := c.data.drive c.writeByte }, false)
  | 3 => if c.held then (c, true) else ({ c with pins.wr := .asserted }, false)
  | 5 =>
    ({ c with pins.mreq := .released, pins.wr := .released, data := c.data.release }, false)
  | _ => (c, false)

/-! ## Ports -/

/-- A read of a port. -/
def portReadHalf (c : Core) : Nat → Core × Bool
  | 0 => ({ c.releaseRefresh with address := c.address.drive c.latches.port }, false)
  | 2 => ({ c with pins.iorq := .asserted, pins.rd := .asserted }, false)
  | 5 => (c, c.held)
  | 7 =>
    ({ c with
        latches.fetched := c.data.value
        pins.iorq := .released
        pins.rd := .released }, false)
  | _ => (c, false)

/-- A write of a port. -/
def portWriteHalf (c : Core) : Nat → Core × Bool
  | 0 => ({ c.releaseRefresh with address := c.address.drive c.latches.port }, false)
  | 1 => ({ c with data := c.data.drive c.latches.outLow }, false)
  | 2 => ({ c with pins.iorq := .asserted, pins.wr := .asserted }, false)
  | 5 => (c, c.held)
  | 7 =>
    ({ c with pins.iorq := .released, pins.wr := .released, data := c.data.release }, false)
  | _ => (c, false)

/-- A cycle without bus activity. -/
def internalHalf (c : Core) : Nat → Core × Bool
  | 0 => (c.releaseRefresh, false)
  | _ => (c, false)

/-! ## Any cycle -/

/-- What the pattern of the cycle does at a half-period, and whether a wait holds it. -/
def patternHalf (c : Core) (half : Nat) : Core × Bool :=
  match c.cycle.pattern with
  | .fetch | .acknowledge => c.fetchHalf half
  | .opcodeRead | .read => c.readHalf half
  | .write => c.writeHalf half
  | .portRead => c.portReadHalf half
  | .portWrite => c.portWriteHalf half
  | .internal => c.internalHalf half

/-- Run the pending half-period.  Tells whether it was the last one of the cycle. -/
def runHalf (c : Core) : Core × Bool :=
  let half := c.cycle.half
  let c := { c with cycle.lastHalf := half, cycle.edges := c.cycle.edges + 1 }
  match c.patternHalf half with
  | (c, true) =>
    ({ c with cycle.half := half - 1, cycle.waitStates := min 255 (c.cycle.waitStates + 1) }, false)
  | (c, false) =>
    if half + 1 ≥ 2 * c.cycle.length then (c, true)
    else ({ c with cycle.half := half + 1 }, false)

end Z80Board.Core
