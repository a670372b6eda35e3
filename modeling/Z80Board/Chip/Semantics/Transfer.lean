import Z80Board.Chip.Semantics.Operands

/-! # Loads, stack transfers and exchanges -/

namespace Z80Board.Core

/-- WZ after the accumulator is stored: the accumulator above the low byte of the next address. -/
def wzAfterStore (c : Core) : Word :=
  Word.ofBytes c.regs.a (Word.low (c.latches.addr + 1))

/-- Put out the accumulator for a store at the address latch. -/
def storeAccumulator (c : Core) : Core :=
  { c with latches.outLow := c.regs.a, regs.wz := c.wzAfterStore }

/-- Load the accumulator with what was read at the address latch. -/
def loadAccumulator (c : Core) : Core :=
  { c with regs.a := c.latches.dataLow, regs.wz := c.latches.addr + 1 }

/-- Load the accumulator from I or R.  P shows the second interrupt flip-flop. -/
def loadInterruptRegister (c : Core) (reg : Reg8) : Core :=
  let v := c.regs.reg8 reg
  { c with
    regs.a := v
    regs.f := (c.regs.f &&& Flag.carry) ||| sz53 v ||| Flag.when c.regs.iff2 Flag.parity }

/-- LD, by destination and source. -/
def load (c : Core) (point : ExecPoint) : Operand → Operand → Core
  | .reg16 rr, .immediate16 =>
    if point = .after .operandHigh then c.modifyRegs (·.setReg16 c.imm16 rr) else c
  | .reg16 rr, .absolute =>
    if point = .after .memoryReadHigh then
      { c with regs := { c.regs.setReg16 c.data16 rr with wz := c.latches.addr + 1 } }
    else c
  | .absolute, .reg16 rr =>
    if point = .after .operandHigh then
      { c.stage16 (c.regs.reg16 rr) with regs.wz := c.latches.addr + 1 }
    else c
  | .reg16 target, .reg16 source =>
    if point = .decoded then c.modifyRegs (·.setReg16 (c.regs.reg16 source) target) else c
  | .reg8 .a, .reg8 .i => if point = .decoded then c.loadInterruptRegister .i else c
  | .reg8 .a, .reg8 .r => if point = .decoded then c.loadInterruptRegister .r else c
  | .absolute, .reg8 .a => if point = .after .operandHigh then c.storeAccumulator else c
  | .indirect .bc, .reg8 .a => if point = .decoded then c.storeAccumulator else c
  | .indirect .de, .reg8 .a => if point = .decoded then c.storeAccumulator else c
  | .reg8 .a, .absolute => if point = .after .memoryRead then c.loadAccumulator else c
  | .reg8 .a, .indirect .bc => if point = .after .memoryRead then c.loadAccumulator else c
  | .reg8 .a, .indirect .de => if point = .after .memoryRead then c.loadAccumulator else c
  | target, source => if point = source.readyAt then c.write8 (c.read8 source) target else c

/-- PUSH: put out the pair at decode. -/
def pushPair (c : Core) (point : ExecPoint) : Option Operand → Core
  | some (.reg16 rr) => if point = .decoded then c.stage16 (c.regs.reg16 rr) else c
  | _ => c

/-- POP: take the pair after its high byte. -/
def popPair (c : Core) (point : ExecPoint) : Option Operand → Core
  | some (.reg16 rr) =>
    if point = .after .stackReadHigh then c.modifyRegs (·.setReg16 c.data16 rr) else c
  | _ => c

/-- EX, by its operands.  With the top of the stack the pair goes out once both bytes are in, and is
    replaced once both are written. -/
def exchange (c : Core) (point : ExecPoint) : Option Operand → Option Operand → Core
  | some (.reg16 .de), some (.reg16 .hl) =>
    if point = .decoded then c.modifyRegs fun r => (r.setDe c.regs.hl).setHl c.regs.de else c
  | some (.reg16 .af), _ => if point = .decoded then c.modifyRegs Registers.exchangeAf else c
  | some (.indirect .sp), some (.reg16 rr) =>
    if point = .after .stackReadHigh then c.stage16 (c.regs.reg16 rr)
    else if point = .after .stackWriteLow then
      { c with regs := { c.regs.setReg16 c.data16 rr with wz := c.data16 } }
    else c
  | _, _ => c

end Z80Board.Core
