import Z80Board.Arith.Decimal
import Z80Board.Chip.Semantics.Operands

/-! # Rotates, shifts and single bits

    The register forms act at decode.  The memory forms act once the byte is read, and put the
    result out for the write cycle; some put it in a register too. -/

namespace Z80Board.Core

/-- A rotate or shift of the first operand, copied to the second if there is one. -/
def shiftOperand (c : Core) (point : ExecPoint) (op : Shift) :
    Option Operand → Option Operand → Core
  | some (.reg8 reg), _ =>
    if point = .decoded then
      let result := shift8 op (c.regs.reg8 reg) (c.regs.flag Flag.carry)
      { c with regs := { c.regs.setReg8 result.value reg with f := result.flags } }
    else c
  | some _, copy =>
    if point = .after .memoryRead then
      let result := shift8 op c.latches.dataLow (c.regs.flag Flag.carry)
      { c with latches.outLow := result.value, regs.f := result.flags }.copyTo result.value copy
    else c
  | none, _ => c

/-- Flags of a bit test.  X and Y come from a byte that the addressing mode decides. -/
def bitFlags (f v xy : Byte) (bit : Byte) : Byte :=
  let set := v &&& (1 <<< bit) != 0
  (f &&& Flag.carry) ||| Flag.half ||| (xy &&& Flag.xy)
    ||| Flag.when (!set) (Flag.zero ||| Flag.parity)
    ||| Flag.when (set && bit == 7) Flag.sign

/-- A byte with one bit cleared or set. -/
def withBit (mnemonic : Mnemonic) (v bit : Byte) : Byte :=
  if mnemonic = .res then v &&& ~~~(1 <<< bit) else v ||| (1 <<< bit)

/-- BIT, RES and SET on a byte that is there, with the byte that gives X and Y. -/
def bitOperation (c : Core) (mnemonic : Mnemonic) (bit v xy : Byte) (target : Operand)
    (copy : Option Operand) : Core :=
  if mnemonic = .bit then { c with regs.f := bitFlags c.regs.f v xy bit }
  else
    let result := withBit mnemonic v bit
    (c.write8 result target).copyTo result copy

/-- BIT, RES and SET.  On memory a test takes X and Y from the upper byte of WZ. -/
def bitOperand (c : Core) (mnemonic : Mnemonic) (point : ExecPoint) :
    Option Operand → Option Operand → Option Operand → Core
  | some (.bit bit), some (.reg8 reg), copy =>
    if point = .decoded then
      c.bitOperation mnemonic bit (c.regs.reg8 reg) (c.regs.reg8 reg) (.reg8 reg) copy
    else c
  | some (.bit bit), some target, copy =>
    if point = .after .memoryRead then
      c.bitOperation mnemonic bit c.latches.dataLow (Word.high c.regs.wz) target copy
    else c
  | _, _, _ => c

/-- RRD and RLD: exchange a decimal digit between the accumulator and memory at HL. -/
def rotateDigit (c : Core) (mnemonic : Mnemonic) (point : ExecPoint) : Core :=
  if point = .decoded then { c with latches.addr := c.regs.hl }
  else if point = .after .memoryRead then
    let (a, m) := if mnemonic = .rrd then rotateDigitRight c.regs.a c.latches.dataLow
      else rotateDigitLeft c.regs.a c.latches.dataLow
    { c with
      latches.outLow := m
      regs.a := a
      regs.f := (c.regs.f &&& Flag.carry) ||| sz53p a
      regs.wz := c.latches.addr + 1 }
  else c

end Z80Board.Core
