import Z80Board.Chip.Semantics.Operands

/-! # Control transfers and interrupt control

    Jumps, calls and returns, the instructions that set up interrupts, and the entry of an
    interrupt.  A conditional transfer decides at decode which timing it runs, except an absolute
    jump, which reads its target in any case. -/

namespace Z80Board.Core

/-- The condition that the first operand names holds, or there is none to hold. -/
def holds (c : Core) : Option Operand → Bool
  | some (.condition cc) => c.regs.condition cc
  | _ => true

/-- Go to an address that WZ takes as well. -/
def goTo (c : Core) (target : Word) : Core :=
  { c with regs.pc := target, regs.wz := target }

/-- JP to a register pair at decode, or to a word of the instruction. -/
def jump (c : Core) (point : ExecPoint) : Option Operand → Core
  | some (.indirect rr) =>
    if point = .decoded then { c with regs.pc := c.regs.reg16 rr } else c
  | first =>
    if point = .after .operandHigh then
      if c.holds first then c.goTo c.imm16 else { c with regs.wz := c.imm16 }
    else c

/-- JR and DJNZ.  DJNZ counts B down and jumps until it is zero. -/
def jumpRelative (c : Core) (mnemonic : Mnemonic) (point : ExecPoint) (first : Option Operand) :
    Core :=
  if point = .decoded then
    if mnemonic = .djnz then
      { c with regs.b := c.regs.b - 1 }.takeAlternate (c.regs.b - 1 != 0)
    else
      c.takeAlternate (c.holds first)
  else if point = .after .operand ∧ c.conditionMet then
    c.goTo (c.regs.pc + Word.ofDisplacement c.latches.immLow)
  else c

/-- CALL: WZ keeps the target while the return address is pushed. -/
def call (c : Core) (point : ExecPoint) (first : Option Operand) : Core :=
  if point = .decoded then c.takeAlternate (c.holds first)
  else if point = .after .operandHigh then
    { c.stage16 c.regs.pc with regs.wz := c.imm16 }
  else if point = .after .stackWriteLow then { c with regs.pc := c.regs.wz }
  else c

/-- RET, RETI and RETN.  The last two restore the first interrupt flip-flop from the second. -/
def ret (c : Core) (mnemonic : Mnemonic) (point : ExecPoint) (first : Option Operand) : Core :=
  if point = .decoded then c.takeAlternate (c.holds first)
  else if point = .after .stackReadHigh then
    if mnemonic = .ret then c.goTo c.data16
    else { c.goTo c.data16 with regs.iff1 := c.regs.iff2 }
  else c

/-- RST: push PC, then go to the target. -/
def restart (c : Core) (point : ExecPoint) (first : Option Operand) : Core :=
  if point = .decoded then c.stage16 c.regs.pc
  else if point = .after .stackWriteLow then
    match first with
    | some (.restart target) => c.goTo target.toUInt16
    | _ => c
  else c

/-- DI and EI.  An interrupt has to wait one instruction after EI. -/
def setInterrupts (c : Core) (point : ExecPoint) (enable : Bool) : Core :=
  if point = .decoded then
    { c with regs.iff1 := enable, regs.iff2 := enable, intBlocked := enable }
  else c

/-- IM: take the mode from the operand. -/
def setMode (c : Core) (point : ExecPoint) (first : Option Operand) : Core :=
  if point = .decoded then
    match first with
    | some (.mode mode) => { c with regs.im := mode }
    | _ => c
  else c

/-- Entry of an interrupt: push PC, then go to the fixed handler, or to the one whose address stands
    in the vector table at I and the byte the device gave. -/
def interruptEntry (c : Core) (mnemonic : Mnemonic) (point : ExecPoint) (vectored : Bool) : Core :=
  if point = .decoded then
    let c := c.stage16 c.regs.pc
    if vectored then { c with latches.addr := Word.ofBytes c.regs.i c.latches.fetched } else c
  else if point = .after .stackWriteLow ∧ !vectored then
    c.goTo (if mnemonic = .nmi then 0x0066 else 0x0038)
  else if point = .after .memoryReadHigh then c.goTo c.data16
  else c

end Z80Board.Core
