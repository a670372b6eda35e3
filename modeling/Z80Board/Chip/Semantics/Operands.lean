import Z80Board.Arith.Byte
import Z80Board.Chip.Core

/-! # Reaching operands

    Where an instruction finds a byte operand and when it is there: a register at decode, a byte of
    the instruction after it is read, memory and ports after the read cycle.  What is to be written
    waits in the output latches for its write cycle. -/

namespace Z80Board

/-- When a byte operand has its value. -/
def Operand.readyAt : Operand → ExecPoint
  | .immediate8 => .after .operand
  | .port | .portC => .after .portRead
  | .indirect _ | .indexed _ | .absolute => .after .memoryRead
  | _ => .decoded

namespace Core

/-- The value of a byte operand that is ready. -/
def read8 (c : Core) : Operand → Byte
  | .reg8 reg => c.regs.reg8 reg
  | .immediate8 => c.latches.immLow
  | .zero => 0
  | _ => c.latches.dataLow

/-- Write a byte to a register, or put it out for the write cycle. -/
def write8 (c : Core) (v : Byte) : Operand → Core
  | .reg8 reg => { c with regs := c.regs.setReg8 v reg }
  | _ => { c with latches.outLow := v }

/-- The word operand of the instruction. -/
def imm16 (c : Core) : Word :=
  Word.ofBytes c.latches.immHigh c.latches.immLow

/-- The word that a pair of read cycles brought in. -/
def data16 (c : Core) : Word :=
  Word.ofBytes c.latches.dataHigh c.latches.dataLow

/-- Put a word out for a pair of write cycles. -/
def stage16 (c : Core) (w : Word) : Core :=
  { c with latches.outLow := Word.low w, latches.outHigh := Word.high w }

/-- Put a result in a register too, for the instructions that name one besides memory. -/
def copyTo (c : Core) (v : Byte) : Option Operand → Core
  | some (.reg8 reg) => { c with regs := c.regs.setReg8 v reg }
  | _ => c

end Core

end Z80Board
