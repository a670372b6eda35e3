import Z80Board.Chip.Semantics.Operands

/-! # Port instructions

    A port number in the instruction has the accumulator on the upper lines; otherwise BC is the
    whole address.  WZ takes the address after the port's. -/

namespace Z80Board.Core

/-- IN.  Only the form that addresses by BC changes flags, and it may have no destination but
    them. -/
def portIn (c : Core) (point : ExecPoint) : Option Operand → Option Operand → Core
  | some target, some .port =>
    if point = .after .operand then
      let port := Word.ofBytes c.regs.a c.latches.immLow
      { c with latches.port := port, regs.wz := port + 1 }
    else if point = .after .portRead then c.write8 c.latches.dataLow target
    else c
  | some target, some .portC =>
    if point = .decoded then { c with latches.port := c.regs.bc, regs.wz := c.regs.bc + 1 }
    else if point = .after .portRead then
      let c := c.copyTo c.latches.dataLow (some target)
      { c with regs.f := (c.regs.f &&& Flag.carry) ||| sz53p c.latches.dataLow }
    else c
  | _, _ => c

/-- OUT.  With the port number in the instruction, WZ wraps in its low byte. -/
def portOut (c : Core) (point : ExecPoint) : Option Operand → Option Operand → Core
  | some .port, some _ =>
    if point = .after .operand then
      let n := c.latches.immLow
      { c with
        latches.port := Word.ofBytes c.regs.a n
        latches.outLow := c.regs.a
        regs.wz := Word.ofBytes c.regs.a (n + 1) }
    else c
  | some .portC, some source =>
    if point = .decoded then
      { c with
        latches.port := c.regs.bc
        latches.outLow := c.read8 source
        regs.wz := c.regs.bc + 1 }
    else c
  | _, _ => c

end Z80Board.Core
