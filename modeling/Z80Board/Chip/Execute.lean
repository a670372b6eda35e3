import Z80Board.Chip.Semantics.Arithmetic
import Z80Board.Chip.Semantics.Bit
import Z80Board.Chip.Semantics.Block
import Z80Board.Chip.Semantics.Control
import Z80Board.Chip.Semantics.Port
import Z80Board.Chip.Semantics.Transfer

/-! # What an instruction does

    An instruction acts once when its opcode is decoded and again after each of its machine cycles,
    each time at most where its inputs have just become available.  This module sends each mnemonic
    to its family. -/

namespace Z80Board.Core

/-- At decode, memory addressed by a register pair is addressed.  The stack has its own cycles. -/
def addressOperand (c : Core) (code : Instruction) : Core :=
  match code.memoryOperand? with
  | some (.indirect .bc) => { c with latches.addr := c.regs.bc }
  | some (.indirect .de) => { c with latches.addr := c.regs.de }
  | some (.indirect .hl) => { c with latches.addr := c.regs.hl }
  | _ => c

/-- The first two operands of a word operation, when both are pairs. -/
def pairOperands (code : Instruction) : Option (Reg16 × Reg16) :=
  match code.operands with
  | .reg16 target :: .reg16 source :: _ => some (target, source)
  | _ => none

/-- The instruction acts at a point, its memory operand being addressed already. -/
def act (c : Core) (code : Instruction) (point : ExecPoint) : Core :=
  let first := code.operands[0]?
  let second := code.operands[1]?
  let third := code.operands[2]?
  match code.mnemonic with
  | .nop | .haltNop => c
  | .ld =>
    match first, second with
    | some target, some source => c.load point target source
    | _, _ => c
  | .push => c.pushPair point first
  | .pop => c.popPair point first
  | .ex => c.exchange point first second
  | .exx => if point = .decoded then c.modifyRegs Registers.exchangeShadowSet else c
  | .add | .adc | .sbc =>
    match first with
    | some (.reg16 _) =>
      match pairOperands code with
      | some (target, source) => c.alu16 code.mnemonic point target source
      | none => c
    | _ => c.alu8 code.mnemonic point code.operands.getLast?
  | .sub | .and | .xor | .or | .cp => c.alu8 code.mnemonic point code.operands.getLast?
  | .inc | .dec => c.incDec code.mnemonic point first
  | .rlca | .rrca | .rla | .rra | .daa | .cpl | .scf | .ccf | .neg =>
    c.accumulator code.mnemonic point
  | .halt => if point = .decoded then c.enterHalt else c
  | .di => c.setInterrupts point false
  | .ei => c.setInterrupts point true
  | .im => c.setMode point first
  | .jp => c.jump point first
  | .jr | .djnz => c.jumpRelative code.mnemonic point first
  | .call => c.call point first
  | .ret | .reti | .retn => c.ret code.mnemonic point first
  | .rst => c.restart point first
  | .input => c.portIn point first second
  | .output => c.portOut point first second
  | .rlc => c.shiftOperand point .rlc first second
  | .rrc => c.shiftOperand point .rrc first second
  | .rl => c.shiftOperand point .rl first second
  | .rr => c.shiftOperand point .rr first second
  | .sla => c.shiftOperand point .sla first second
  | .sra => c.shiftOperand point .sra first second
  | .sll => c.shiftOperand point .sll first second
  | .srl => c.shiftOperand point .srl first second
  | .bit | .res | .set => c.bitOperand code.mnemonic point first second third
  | .rrd | .rld => c.rotateDigit code.mnemonic point
  | .ldi | .ldd | .ldir | .lddr => c.blockLoad code.mnemonic point
  | .cpi | .cpd | .cpir | .cpdr => c.blockCompare code.mnemonic point
  | .ini | .ind | .inir | .indr => c.blockIn code.mnemonic point
  | .outi | .outd | .otir | .otdr => c.blockOut code.mnemonic point
  | .nmi | .int => c.interruptEntry code.mnemonic point (code.hasOperand (.mode 2))

/-- The current instruction acts at a point; without one, nothing happens. -/
def execute (c : Core) (point : ExecPoint) : Core :=
  match c.instruction with
  | none => c
  | some code =>
    if point = .decoded then (c.addressOperand code).act code point else c.act code point

end Z80Board.Core
