import Z80Board.Chip.Semantics.Operands

/-! # Block instructions

    Each moves or compares one byte and steps its pointers up or down.  The repeating ones put PC
    back on themselves while there is more to do, so that every byte is an instruction of its own
    and interrupts come in between. -/

namespace Z80Board

namespace Mnemonic

/-- The block instruction steps its pointers down. -/
def stepsDown : Mnemonic → Bool
  | .ldd | .lddr | .cpd | .cpdr | .ind | .indr | .outd | .otdr => true
  | _ => false

/-- The block instruction repeats itself. -/
def repeats : Mnemonic → Bool
  | .ldir | .lddr | .cpir | .cpdr | .inir | .indr | .otir | .otdr => true
  | _ => false

/-- What the block instruction adds to its pointers. -/
def stride (m : Mnemonic) : Word :=
  if m.stepsDown then 0xFFFF else 1

end Mnemonic

namespace Core

/-- Run the instruction again, or go on. -/
def repeatBlock (c : Core) (again : Bool) : Core :=
  let c := c.takeAlternate again
  if again then { c with regs.pc := c.regs.pc - 2, regs.wz := c.regs.pc - 1 } else c

/-- Run a repeating instruction again while there is more; one that does not repeat goes on. -/
def repeatWhile (c : Core) (mnemonic : Mnemonic) (more : Bool) : Core :=
  if mnemonic.repeats then c.repeatBlock more else c

/-- Bits 3 and 1 of a byte, as flags X and Y. -/
def xyOfSum (n : Byte) : Byte :=
  (n &&& Flag.x) ||| ((n <<< 4) &&& Flag.y)

/-- LDI, LDD, LDIR and LDDR: a byte from HL to DE, counted in BC. -/
def blockLoad (c : Core) (mnemonic : Mnemonic) (point : ExecPoint) : Core :=
  if point = .decoded then { c with latches.addr := c.regs.hl }
  else if point = .after .memoryRead then
    { c with latches.outLow := c.latches.dataLow, latches.addr := c.regs.de }
  else if point = .after .memoryWrite then
    let count := c.regs.bc - 1
    let moved := ((c.regs.setHl (c.regs.hl + mnemonic.stride)).setDe
      (c.regs.de + mnemonic.stride)).setBc count
    let f := (c.regs.f &&& (Flag.sign ||| Flag.zero ||| Flag.carry))
      ||| xyOfSum (c.latches.dataLow + c.regs.a)
      ||| Flag.when (count != 0) Flag.parity
    { c with regs := { moved with f } }.repeatWhile mnemonic (count != 0)
  else c

/-- CPI, CPD, CPIR and CPDR: a comparison of A with the byte at HL, counted in BC.  X and Y come
    from the difference less the half borrow. -/
def blockCompare (c : Core) (mnemonic : Mnemonic) (point : ExecPoint) : Core :=
  if point = .decoded then { c with latches.addr := c.regs.hl }
  else if point = .after .memoryRead then
    let diff := sub8 c.regs.a c.latches.dataLow false
    let count := c.regs.bc - 1
    let moved := (c.regs.setHl (c.regs.hl + mnemonic.stride)).setBc count
    let n := diff.value - (Flag.test diff.flags Flag.half).toUInt8
    let f := (diff.flags &&& (Flag.sign ||| Flag.zero ||| Flag.half)) ||| Flag.subtract
      ||| (c.regs.f &&& Flag.carry) ||| xyOfSum n ||| Flag.when (count != 0) Flag.parity
    { c with regs := { moved with wz := c.regs.wz + mnemonic.stride, f } }.repeatWhile mnemonic
      (count != 0 && diff.value != 0)
  else c

/-- Flags of a block input or output, from B after it is counted down, the byte moved, and the sum
    that decides carry and parity. -/
def blockPortFlags (b v : Byte) (k : Nat) : Byte :=
  sz53 b ||| Flag.when (v &&& 0x80 != 0) Flag.subtract
    ||| Flag.when (k > 0xFF) (Flag.half ||| Flag.carry)
    ||| Flag.when (evenParity ((k.toUInt8 &&& 0x07) ^^^ b)) Flag.parity

/-- INI, IND, INIR and INDR: a byte from port BC to HL, counted in B. -/
def blockIn (c : Core) (mnemonic : Mnemonic) (point : ExecPoint) : Core :=
  if point = .decoded then
    { c with latches.port := c.regs.bc, regs.wz := c.regs.bc + mnemonic.stride }
  else if point = .after .portRead then
    let v := c.latches.dataLow
    let b := c.regs.b - 1
    let k := v.toNat + (c.regs.c + Word.low mnemonic.stride).toNat
    { c with
      latches.outLow := v
      latches.addr := c.regs.hl
      regs.b := b
      regs.f := blockPortFlags b v k }
  else if point = .after .memoryWrite then
    { c with regs := c.regs.setHl (c.regs.hl + mnemonic.stride) }.repeatWhile mnemonic
      (c.regs.b != 0)
  else c

/-- OUTI, OUTD, OTIR and OTDR: a byte from HL to port BC, counted in B before it goes out. -/
def blockOut (c : Core) (mnemonic : Mnemonic) (point : ExecPoint) : Core :=
  if point = .decoded then { c with latches.addr := c.regs.hl }
  else if point = .after .memoryRead then
    let v := c.latches.dataLow
    let counted := { c.regs with b := c.regs.b - 1 }
    let moved := counted.setHl (c.regs.hl + mnemonic.stride)
    let k := v.toNat + moved.l.toNat
    { c with
      latches.port := counted.bc
      latches.outLow := v
      regs := { moved with
        wz := counted.bc + mnemonic.stride
        f := blockPortFlags moved.b v k } }
  else if point = .after .portWrite then c.repeatWhile mnemonic (c.regs.b != 0)
  else c

end Core

end Z80Board
