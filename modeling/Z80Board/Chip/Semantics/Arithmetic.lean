import Z80Board.Arith.Decimal
import Z80Board.Arith.Word
import Z80Board.Chip.Semantics.Operands

/-! # Arithmetic and logic instructions -/

namespace Z80Board.Core

/-- The operation of a byte instruction on the accumulator. -/
def byteOperation (mnemonic : Mnemonic) (a b : Byte) (carry : Bool) : Flagged Byte :=
  match mnemonic with
  | .add => add8 a b false
  | .adc => add8 a b carry
  | .sub => sub8 a b false
  | .sbc => sub8 a b carry
  | .and => and8 a b
  | .xor => xor8 a b
  | .or => or8 a b
  | _ => cp8 a b

/-- A byte operation between the accumulator and the last operand, once that is ready. -/
def alu8 (c : Core) (mnemonic : Mnemonic) (point : ExecPoint) : Option Operand → Core
  | some source =>
    if point = source.readyAt then
      let result :=
        byteOperation mnemonic c.regs.a (c.read8 source) (c.regs.flag Flag.carry)
      if mnemonic = .cp then { c with regs.f := result.flags }
      else c.modifyRegs (·.setAccumulator result)
    else c
  | none => c

/-- A word operation.  WZ takes the address after the old first operand. -/
def alu16 (c : Core) (mnemonic : Mnemonic) (point : ExecPoint) (target source : Reg16) : Core :=
  if point = .decoded then
    let a := c.regs.reg16 target
    let b := c.regs.reg16 source
    let carry := c.regs.flag Flag.carry
    let result := match mnemonic with
      | .adc => adc16 a b carry
      | .sbc => sbc16 a b carry
      | _ =>
        let sum := add16 a b
        ⟨sum.value, (c.regs.f &&& Flag.szp) ||| sum.flags⟩
    { c with
      regs := { ({ c.regs with wz := a + 1 } : Registers).setReg16 result.value target with
        f := result.flags } }
  else c

/-- One step up or down of a byte, with its flags but the carry. -/
def stepByte (mnemonic : Mnemonic) (v : Byte) : Flagged Byte :=
  if mnemonic = .inc then inc8 v else dec8 v

/-- INC and DEC.  The byte forms keep the carry; the word forms leave all flags alone. -/
def incDec (c : Core) (mnemonic : Mnemonic) (point : ExecPoint) : Option Operand → Core
  | some (.reg16 rr) =>
    if point = .decoded then
      let v := c.regs.reg16 rr
      c.modifyRegs (·.setReg16 (if mnemonic = .inc then v + 1 else v - 1) rr)
    else c
  | some (.reg8 reg) =>
    if point = .decoded then
      let result := stepByte mnemonic (c.regs.reg8 reg)
      { c with
        regs := { c.regs.setReg8 result.value reg with
          f := result.flags ||| (c.regs.f &&& Flag.carry) } }
    else c
  | some _ =>
    if point = .after .memoryRead then
      let result := stepByte mnemonic c.latches.dataLow
      { c with
        latches.outLow := result.value
        regs.f := result.flags ||| (c.regs.f &&& Flag.carry) }
    else c
  | none => c

/-- The result of an instruction that works on the accumulator and the flags alone. -/
def accumulatorResult (regs : Registers) : Mnemonic → Option (Flagged Byte)
  | .rlca => some (rotateA .rlc regs.a regs.f)
  | .rrca => some (rotateA .rrc regs.a regs.f)
  | .rla => some (rotateA .rl regs.a regs.f)
  | .rra => some (rotateA .rr regs.a regs.f)
  | .daa => some (daa regs.a regs.f)
  | .neg => some (sub8 0 regs.a false)
  | .cpl =>
    let v := ~~~regs.a
    some ⟨v, (regs.f &&& (Flag.szp ||| Flag.carry)) ||| Flag.half ||| Flag.subtract
      ||| (v &&& Flag.xy)⟩
  | .scf => some ⟨regs.a, (regs.f &&& Flag.szp) ||| Flag.carry ||| (regs.a &&& Flag.xy)⟩
  | .ccf =>
    let moved := if Flag.test regs.f Flag.carry then Flag.half else Flag.carry
    some ⟨regs.a, (regs.f &&& Flag.szp) ||| moved ||| (regs.a &&& Flag.xy)⟩
  | _ => none

/-- An instruction on the accumulator and the flags alone, which acts at decode. -/
def accumulator (c : Core) (mnemonic : Mnemonic) (point : ExecPoint) : Core :=
  if point = .decoded then
    match accumulatorResult c.regs mnemonic with
    | some result => c.modifyRegs (·.setAccumulator result)
    | none => c
  else c

end Z80Board.Core
