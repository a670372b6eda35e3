import Z80Board.Proofs.Chip.Wiring

/-! # What moves PC and R

    An instruction that acts goes by the chip's PC only if it is a call, a restart, a relative jump
    or a block instruction that runs again, and moves it only if it is one of these or another
    transfer.  Each of them has one point at which it does.  Everything else does not see PC: for
    every function `f` that such an instruction is made of, `(c.withPc pc).f = (c.f).withPc pc`.  With
    PC as it is this says that PC stays as it was.

    R is moved by one load alone, which names it as its first operand. -/

namespace Z80Board

/-! ## Registers -/

namespace Registers

/-- The registers with another PC. -/
def withPc (regs : Registers) (pc : Word) : Registers :=
  { regs with pc }

variable (regs : Registers) (pc : Word)

@[simp] theorem reg8_withPc (reg : Reg8) : (regs.withPc pc).reg8 reg = regs.reg8 reg := by
  cases reg <;> rfl

@[simp] theorem setReg8_withPc (v : Byte) (reg : Reg8) :
    (regs.withPc pc).setReg8 v reg = (regs.setReg8 v reg).withPc pc := by
  cases reg <;> rfl

@[simp] theorem reg16_withPc (rr : Reg16) : (regs.withPc pc).reg16 rr = regs.reg16 rr := by
  cases rr <;> rfl

@[simp] theorem setReg16_withPc (w : Word) (rr : Reg16) :
    (regs.withPc pc).setReg16 w rr = (regs.setReg16 w rr).withPc pc := by
  cases rr <;> rfl

/-- Writing to a byte register that is not R keeps R. -/
theorem r_setReg8 {reg : Reg8} (h : reg ≠ .r) (v : Byte) : (regs.setReg8 v reg).r = regs.r := by
  cases reg with
  | r => exact absurd rfl h
  | a | b | c | d | e | h | l | ixh | ixl | iyh | iyl | i => rfl

/-- No pair has R in it. -/
theorem r_setReg16 (w : Word) (rr : Reg16) : (regs.setReg16 w rr).r = regs.r := by
  cases rr <;> rfl

end Registers

namespace Core

/-- The chip with another PC. -/
def withPc (c : Core) (pc : Word) : Core :=
  { c with regs := c.regs.withPc pc }

@[simp] theorem withPc_self (c : Core) : c.withPc c.regs.pc = c := rfl

@[simp] theorem withPc_withPc (c : Core) (pc pc' : Word) : (c.withPc pc).withPc pc' = c.withPc pc' :=
  rfl

@[simp] theorem pc_withPc (c : Core) (pc : Word) : (c.withPc pc).regs.pc = pc := rfl

variable (c : Core) (pc : Word)

/-! ## Operands -/

theorem read8_withPc (source : Operand) : (c.withPc pc).read8 source = c.read8 source := by
  cases source
  case reg8 reg => exact Registers.reg8_withPc c.regs pc reg
  all_goals rfl

theorem write8_withPc (v : Byte) (target : Operand) :
    (c.withPc pc).write8 v target = (c.write8 v target).withPc pc := by
  cases target
  case reg8 reg => cases reg <;> rfl
  all_goals rfl

theorem r_write8 {target : Operand} (h : target ≠ .reg8 .r) (v : Byte) :
    (c.write8 v target).regs.r = c.regs.r := by
  cases target
  case reg8 reg => exact c.regs.r_setReg8 (fun hr => h (congrArg Operand.reg8 hr)) v
  all_goals rfl

theorem copyTo_withPc (v : Byte) (copy : Option Operand) :
    (c.withPc pc).copyTo v copy = (c.copyTo v copy).withPc pc := by
  unfold copyTo
  split
  · next reg => cases reg <;> rfl
  · rfl

theorem r_copyTo {copy : Option Operand} (h : copy ≠ some (.reg8 .r)) (v : Byte) :
    (c.copyTo v copy).regs.r = c.regs.r := by
  unfold copyTo
  split
  · next reg => exact c.regs.r_setReg8 (by rintro rfl; exact h rfl) v
  · rfl

/-! ## Loads, stack transfers and exchanges -/

theorem load_withPc (point : ExecPoint) (target source : Operand) :
    (c.withPc pc).load point target source = (c.load point target source).withPc pc := by
  unfold load
  split
  case h_1 rr => split <;> first | rfl | (cases rr <;> rfl)
  case h_2 rr => split <;> first | rfl | (cases rr <;> rfl)
  case h_3 rr => split <;> rfl
  case h_4 target source =>
    split
    · show (c.withPc pc).modifyRegs _ = (c.modifyRegs _).withPc pc
      unfold modifyRegs
      show ({ c.withPc pc with
        regs := (c.regs.withPc pc).setReg16 ((c.regs.withPc pc).reg16 source) target } : Core) = _
      rw [Registers.reg16_withPc, Registers.setReg16_withPc]
      rfl
    · rfl
  case h_13 =>
    split
    · rw [read8_withPc, write8_withPc]
    · rfl
  all_goals split <;> rfl

theorem r_load (point : ExecPoint) {target : Operand} (h : target ≠ .reg8 .r) (source : Operand) :
    (c.load point target source).regs.r = c.regs.r := by
  unfold load
  split
  case h_13 =>
    split
    · exact c.r_write8 h _
    · rfl
  case h_1 | h_2 | h_4 => split <;> first | rfl | exact Registers.r_setReg16 ..
  all_goals split <;> rfl

theorem pushPair_withPc (point : ExecPoint) (first : Option Operand) :
    (c.withPc pc).pushPair point first = (c.pushPair point first).withPc pc := by
  unfold pushPair
  split
  · split <;> rfl
  · rfl

theorem r_pushPair (point : ExecPoint) (first : Option Operand) :
    (c.pushPair point first).regs.r = c.regs.r := by
  unfold pushPair
  repeat' split
  all_goals rfl

theorem popPair_withPc (point : ExecPoint) (first : Option Operand) :
    (c.withPc pc).popPair point first = (c.popPair point first).withPc pc := by
  unfold popPair
  split
  · next rr => split <;> first | rfl | (cases rr <;> rfl)
  · rfl

theorem r_popPair (point : ExecPoint) (first : Option Operand) :
    (c.popPair point first).regs.r = c.regs.r := by
  unfold popPair
  repeat' split
  all_goals first | rfl | exact Registers.r_setReg16 ..

theorem exchange_withPc (point : ExecPoint) (first second : Option Operand) :
    (c.withPc pc).exchange point first second = (c.exchange point first second).withPc pc := by
  unfold exchange
  split
  case h_3 rr =>
    split
    · cases rr <;> rfl
    · split <;> first | rfl | (cases rr <;> rfl)
  all_goals first | rfl | (split <;> rfl)

theorem r_exchange (point : ExecPoint) (first second : Option Operand) :
    (c.exchange point first second).regs.r = c.regs.r := by
  unfold exchange
  repeat' split
  all_goals first | rfl | exact Registers.r_setReg16 ..

/-! ## Arithmetic and logic -/

theorem alu8_withPc (mnemonic : Mnemonic) (point : ExecPoint) (source : Option Operand) :
    (c.withPc pc).alu8 mnemonic point source = (c.alu8 mnemonic point source).withPc pc := by
  cases source with
  | none => rfl
  | some source =>
    simp only [alu8, read8_withPc]
    repeat' split
    all_goals rfl

theorem r_alu8 (mnemonic : Mnemonic) (point : ExecPoint) (source : Option Operand) :
    (c.alu8 mnemonic point source).regs.r = c.regs.r := by
  unfold alu8
  repeat' split
  all_goals rfl

theorem alu16_withPc (mnemonic : Mnemonic) (point : ExecPoint) (target source : Reg16) :
    (c.withPc pc).alu16 mnemonic point target source
      = (c.alu16 mnemonic point target source).withPc pc := by
  unfold alu16
  split
  · have htarget : (c.withPc pc).regs.reg16 target = c.regs.reg16 target :=
      c.regs.reg16_withPc pc target
    have hsource : (c.withPc pc).regs.reg16 source = c.regs.reg16 source :=
      c.regs.reg16_withPc pc source
    rw [htarget, hsource]
    cases target <;> rfl
  · rfl

theorem r_alu16 (mnemonic : Mnemonic) (point : ExecPoint) (target source : Reg16) :
    (c.alu16 mnemonic point target source).regs.r = c.regs.r := by
  unfold alu16
  split
  · exact Registers.r_setReg16 ..
  · rfl

theorem incDec_withPc (mnemonic : Mnemonic) (point : ExecPoint) (target : Option Operand) :
    (c.withPc pc).incDec mnemonic point target = (c.incDec mnemonic point target).withPc pc := by
  unfold incDec
  split
  · next rr => split <;> first | rfl | (cases rr <;> rfl)
  · next reg => split <;> first | rfl | (cases reg <;> rfl)
  all_goals first | rfl | (split <;> rfl)

theorem r_incDec (mnemonic : Mnemonic) (point : ExecPoint) {target : Option Operand}
    (h : target ≠ some (.reg8 .r)) : (c.incDec mnemonic point target).regs.r = c.regs.r := by
  unfold incDec
  split
  · split <;> first | rfl | exact Registers.r_setReg16 ..
  · next reg =>
    split
    · exact c.regs.r_setReg8 (by rintro rfl; exact h rfl) _
    · rfl
  all_goals first | rfl | (split <;> rfl)

theorem accumulator_withPc (mnemonic : Mnemonic) (point : ExecPoint) :
    (c.withPc pc).accumulator mnemonic point = (c.accumulator mnemonic point).withPc pc := by
  have hsame : accumulatorResult (c.withPc pc).regs mnemonic = accumulatorResult c.regs mnemonic := by
    cases mnemonic <;> rfl
  unfold accumulator
  rw [hsame]
  split
  · cases accumulatorResult c.regs mnemonic <;> rfl
  · rfl

theorem r_accumulator (mnemonic : Mnemonic) (point : ExecPoint) :
    (c.accumulator mnemonic point).regs.r = c.regs.r := by
  unfold accumulator
  repeat' split
  all_goals rfl

/-! ## Rotates, shifts and single bits -/

theorem shiftOperand_withPc (point : ExecPoint) (op : Shift) (first copy : Option Operand) :
    (c.withPc pc).shiftOperand point op first copy
      = (c.shiftOperand point op first copy).withPc pc := by
  unfold shiftOperand
  split
  · next reg =>
    split
    · cases reg <;> rfl
    · rfl
  · split
    · dsimp only
      rw [← copyTo_withPc]
      rfl
    · rfl
  · rfl

theorem r_shiftOperand (point : ExecPoint) (op : Shift) {first copy : Option Operand}
    (hfirst : first ≠ some (.reg8 .r)) (hcopy : copy ≠ some (.reg8 .r)) :
    (c.shiftOperand point op first copy).regs.r = c.regs.r := by
  unfold shiftOperand
  split
  · next reg =>
    split
    · exact c.regs.r_setReg8 (by rintro rfl; exact hfirst rfl) _
    · rfl
  · split
    · exact r_copyTo _ hcopy _
    · rfl
  · rfl

theorem bitOperation_withPc (mnemonic : Mnemonic) (bit v xy : Byte) (target : Operand)
    (copy : Option Operand) :
    (c.withPc pc).bitOperation mnemonic bit v xy target copy
      = (c.bitOperation mnemonic bit v xy target copy).withPc pc := by
  unfold bitOperation
  split
  · rfl
  · dsimp only
    rw [write8_withPc, copyTo_withPc]

theorem r_bitOperation (mnemonic : Mnemonic) (bit v xy : Byte) {target : Operand}
    {copy : Option Operand} (htarget : target ≠ .reg8 .r) (hcopy : copy ≠ some (.reg8 .r)) :
    (c.bitOperation mnemonic bit v xy target copy).regs.r = c.regs.r := by
  unfold bitOperation
  split
  · rfl
  · exact (r_copyTo _ hcopy _).trans (c.r_write8 htarget _)

theorem bitOperand_withPc (mnemonic : Mnemonic) (point : ExecPoint)
    (first second copy : Option Operand) :
    (c.withPc pc).bitOperand mnemonic point first second copy
      = (c.bitOperand mnemonic point first second copy).withPc pc := by
  unfold bitOperand
  split
  · next _ reg =>
    split
    · have hvalue : (c.withPc pc).regs.reg8 reg = c.regs.reg8 reg := c.regs.reg8_withPc pc reg
      rw [hvalue]
      exact bitOperation_withPc c pc _ _ _ _ _ _
    · rfl
  · split
    · exact bitOperation_withPc c pc _ _ _ _ _ _
    · rfl
  · rfl

theorem r_bitOperand (mnemonic : Mnemonic) (point : ExecPoint) (first : Option Operand)
    {second copy : Option Operand} (hsecond : second ≠ some (.reg8 .r))
    (hcopy : copy ≠ some (.reg8 .r)) :
    (c.bitOperand mnemonic point first second copy).regs.r = c.regs.r := by
  unfold bitOperand
  split
  · split
    · exact c.r_bitOperation _ _ _ _ (fun h => hsecond (congrArg some h)) hcopy
    · rfl
  · split
    · exact c.r_bitOperation _ _ _ _ (fun h => hsecond (congrArg some h)) hcopy
    · rfl
  · rfl

theorem rotateDigit_withPc (mnemonic : Mnemonic) (point : ExecPoint) :
    (c.withPc pc).rotateDigit mnemonic point = (c.rotateDigit mnemonic point).withPc pc := by
  unfold rotateDigit
  split
  · rfl
  · split <;> rfl

theorem r_rotateDigit (mnemonic : Mnemonic) (point : ExecPoint) :
    (c.rotateDigit mnemonic point).regs.r = c.regs.r := by
  unfold rotateDigit
  repeat' split
  all_goals rfl

/-! ## Block instructions -/

/-- A block instruction that does not run again leaves PC alone. -/
theorem repeatWhile_withPc (mnemonic : Mnemonic) {more : Bool}
    (h : mnemonic.repeats = true → more = false) :
    (c.withPc pc).repeatWhile mnemonic more = (c.repeatWhile mnemonic more).withPc pc := by
  unfold repeatWhile
  split
  · next hrepeats =>
    rw [h hrepeats]
    rfl
  · rfl

theorem r_repeatWhile (mnemonic : Mnemonic) (more : Bool) :
    (c.repeatWhile mnemonic more).regs.r = c.regs.r := by
  unfold repeatWhile repeatBlock
  split
  · dsimp only
    split <;> rfl
  · rfl

/-- One that runs again tells so by its timing. -/
theorem conditionMet_repeatWhile {mnemonic : Mnemonic} (more : Bool)
    (h : mnemonic.repeats = true) : (c.repeatWhile mnemonic more).conditionMet = more := by
  unfold repeatWhile repeatBlock
  rw [if_pos h]
  dsimp only
  split <;> rfl

theorem blockLoad_withPc {mnemonic : Mnemonic} {point : ExecPoint}
    (h : mnemonic.repeats = true → point = .after .memoryWrite →
      (c.blockLoad mnemonic point).conditionMet = false) :
    (c.withPc pc).blockLoad mnemonic point = (c.blockLoad mnemonic point).withPc pc := by
  unfold blockLoad at h ⊢
  split at h
  · next hpoint => rw [if_pos hpoint, if_pos hpoint]; rfl
  next hdecoded =>
  rw [if_neg hdecoded, if_neg hdecoded]
  split at h
  · next hpoint => rw [if_pos hpoint, if_pos hpoint]; rfl
  next hread =>
  rw [if_neg hread, if_neg hread]
  split at h
  · next hpoint =>
    rw [if_pos hpoint, if_pos hpoint]
    dsimp only
    rw [← repeatWhile_withPc _ pc mnemonic fun hrepeats =>
      (conditionMet_repeatWhile _ _ hrepeats).symm.trans (h hrepeats hpoint)]
    rfl
  · next hpoint => rw [if_neg hpoint, if_neg hpoint]

theorem r_blockLoad (mnemonic : Mnemonic) (point : ExecPoint) :
    (c.blockLoad mnemonic point).regs.r = c.regs.r := by
  unfold blockLoad
  repeat' split
  all_goals first | rfl | exact r_repeatWhile ..

theorem blockCompare_withPc {mnemonic : Mnemonic} {point : ExecPoint}
    (h : mnemonic.repeats = true → point = .after .memoryRead →
      (c.blockCompare mnemonic point).conditionMet = false) :
    (c.withPc pc).blockCompare mnemonic point = (c.blockCompare mnemonic point).withPc pc := by
  unfold blockCompare at h ⊢
  split at h
  · next hpoint => rw [if_pos hpoint, if_pos hpoint]; rfl
  next hdecoded =>
  rw [if_neg hdecoded, if_neg hdecoded]
  split at h
  · next hpoint =>
    rw [if_pos hpoint, if_pos hpoint]
    dsimp only
    rw [← repeatWhile_withPc _ pc mnemonic fun hrepeats =>
      (conditionMet_repeatWhile _ _ hrepeats).symm.trans (h hrepeats hpoint)]
    rfl
  · next hpoint => rw [if_neg hpoint, if_neg hpoint]

theorem r_blockCompare (mnemonic : Mnemonic) (point : ExecPoint) :
    (c.blockCompare mnemonic point).regs.r = c.regs.r := by
  unfold blockCompare
  repeat' split
  all_goals first | rfl | exact r_repeatWhile ..

theorem blockIn_withPc {mnemonic : Mnemonic} {point : ExecPoint}
    (h : mnemonic.repeats = true → point = .after .memoryWrite →
      (c.blockIn mnemonic point).conditionMet = false) :
    (c.withPc pc).blockIn mnemonic point = (c.blockIn mnemonic point).withPc pc := by
  unfold blockIn at h ⊢
  split at h
  · next hpoint => rw [if_pos hpoint, if_pos hpoint]; rfl
  next hdecoded =>
  rw [if_neg hdecoded, if_neg hdecoded]
  split at h
  · next hpoint => rw [if_pos hpoint, if_pos hpoint]; rfl
  next hread =>
  rw [if_neg hread, if_neg hread]
  split at h
  · next hpoint =>
    rw [if_pos hpoint, if_pos hpoint]
    rw [← repeatWhile_withPc _ pc mnemonic fun hrepeats =>
      (conditionMet_repeatWhile _ _ hrepeats).symm.trans (h hrepeats hpoint)]
    rfl
  · next hpoint => rw [if_neg hpoint, if_neg hpoint]

theorem r_blockIn (mnemonic : Mnemonic) (point : ExecPoint) :
    (c.blockIn mnemonic point).regs.r = c.regs.r := by
  unfold blockIn
  repeat' split
  all_goals first | rfl | exact r_repeatWhile ..

theorem blockOut_withPc {mnemonic : Mnemonic} {point : ExecPoint}
    (h : mnemonic.repeats = true → point = .after .portWrite →
      (c.blockOut mnemonic point).conditionMet = false) :
    (c.withPc pc).blockOut mnemonic point = (c.blockOut mnemonic point).withPc pc := by
  unfold blockOut at h ⊢
  split at h
  · next hpoint => rw [if_pos hpoint, if_pos hpoint]; rfl
  next hdecoded =>
  rw [if_neg hdecoded, if_neg hdecoded]
  split at h
  · next hpoint => rw [if_pos hpoint, if_pos hpoint]; rfl
  next hread =>
  rw [if_neg hread, if_neg hread]
  split at h
  · next hpoint =>
    rw [if_pos hpoint, if_pos hpoint]
    rw [← repeatWhile_withPc _ pc mnemonic fun hrepeats =>
      (conditionMet_repeatWhile _ _ hrepeats).symm.trans (h hrepeats hpoint)]
    rfl
  · next hpoint => rw [if_neg hpoint, if_neg hpoint]

theorem r_blockOut (mnemonic : Mnemonic) (point : ExecPoint) :
    (c.blockOut mnemonic point).regs.r = c.regs.r := by
  unfold blockOut
  repeat' split
  all_goals first | rfl | exact r_repeatWhile ..

/-! ## Control transfers and interrupt control -/

/-- No condition depends on PC. -/
theorem holds_withPc (first : Option Operand) : (c.withPc pc).holds first = c.holds first := by
  unfold holds
  split <;> rfl

theorem r_jump (point : ExecPoint) (first : Option Operand) :
    (c.jump point first).regs.r = c.regs.r := by
  unfold jump
  repeat' split
  all_goals rfl

theorem r_jumpRelative (mnemonic : Mnemonic) (point : ExecPoint) (first : Option Operand) :
    (c.jumpRelative mnemonic point first).regs.r = c.regs.r := by
  unfold jumpRelative
  repeat' split
  all_goals rfl

theorem r_call (point : ExecPoint) (first : Option Operand) :
    (c.call point first).regs.r = c.regs.r := by
  unfold call
  repeat' split
  all_goals rfl

theorem r_ret (mnemonic : Mnemonic) (point : ExecPoint) (first : Option Operand) :
    (c.ret mnemonic point first).regs.r = c.regs.r := by
  unfold ret
  repeat' split
  all_goals rfl

theorem r_restart (point : ExecPoint) (first : Option Operand) :
    (c.restart point first).regs.r = c.regs.r := by
  unfold restart
  repeat' split
  all_goals rfl

theorem setInterrupts_withPc (point : ExecPoint) (enable : Bool) :
    (c.withPc pc).setInterrupts point enable = (c.setInterrupts point enable).withPc pc := by
  unfold setInterrupts
  split <;> rfl

theorem r_setInterrupts (point : ExecPoint) (enable : Bool) :
    (c.setInterrupts point enable).regs.r = c.regs.r := by
  unfold setInterrupts
  split <;> rfl

theorem setMode_withPc (point : ExecPoint) (first : Option Operand) :
    (c.withPc pc).setMode point first = (c.setMode point first).withPc pc := by
  unfold setMode
  repeat' split
  all_goals rfl

theorem r_setMode (point : ExecPoint) (first : Option Operand) :
    (c.setMode point first).regs.r = c.regs.r := by
  unfold setMode
  repeat' split
  all_goals rfl

theorem r_interruptEntry (mnemonic : Mnemonic) (point : ExecPoint) (vectored : Bool) :
    (c.interruptEntry mnemonic point vectored).regs.r = c.regs.r := by
  unfold interruptEntry
  split
  · cases vectored <;> rfl
  repeat' split
  all_goals rfl

/-! ## Ports -/

theorem portIn_withPc (point : ExecPoint) (first second : Option Operand) :
    (c.withPc pc).portIn point first second = (c.portIn point first second).withPc pc := by
  unfold portIn
  split
  · split
    · rfl
    · split
      · exact write8_withPc c pc _ _
      · rfl
  · split
    · rfl
    · split
      · dsimp only
        rw [show (c.withPc pc).latches.dataLow = c.latches.dataLow from rfl, copyTo_withPc]
        rfl
      · rfl
  · rfl

theorem r_portIn (point : ExecPoint) {first : Option Operand} (h : first ≠ some (.reg8 .r))
    (second : Option Operand) : (c.portIn point first second).regs.r = c.regs.r := by
  unfold portIn
  split
  · split
    · rfl
    · split
      · exact c.r_write8 (fun htarget => h (congrArg some htarget)) _
      · rfl
  · split
    · rfl
    · split
      · exact c.r_copyTo h _
      · rfl
  · rfl

theorem portOut_withPc (point : ExecPoint) (first second : Option Operand) :
    (c.withPc pc).portOut point first second = (c.portOut point first second).withPc pc := by
  unfold portOut
  simp only [read8_withPc]
  repeat' split
  all_goals rfl

theorem r_portOut (point : ExecPoint) (first second : Option Operand) :
    (c.portOut point first second).regs.r = c.regs.r := by
  unfold portOut
  repeat' split
  all_goals rfl

end Core

/-! ## Where an instruction leaves -/

namespace Mnemonic

/-- The instruction reckons a target or a return address from PC. -/
def seesPc : Mnemonic → Bool
  | .jr | .djnz | .call | .rst => true
  | _ => false

/-- The instruction leaves at the end of the stack cycles that it has only if it is to leave. -/
def usesStack : Mnemonic → Bool
  | .call | .ret | .reti | .retn => true
  | _ => false

end Mnemonic

/-- The point at which an absolute jump leaves: at once, or when it has read its target. -/
def Operand.jumpsAt : Option Operand → ExecPoint
  | some (.indirect _) => .decoded
  | _ => .after .operandHigh

/-- The one point at which an instruction with this first operand can go somewhere else. -/
def Mnemonic.leavesAt (mnemonic : Mnemonic) (first : Option Operand) : Option ExecPoint :=
  match mnemonic with
  | .jp => some (Operand.jumpsAt first)
  | .jr | .djnz => some (.after .operand)
  | .call | .rst => some (.after .stackWriteLow)
  | .ret | .reti | .retn => some (.after .stackReadHigh)
  | .ldir | .lddr | .inir | .indr => some (.after .memoryWrite)
  | .cpir | .cpdr => some (.after .memoryRead)
  | .otir | .otdr => some (.after .portWrite)
  | _ => none

/-- The one point at which the instruction can go somewhere else. -/
def Instruction.leavesAt (code : Instruction) : Option ExecPoint :=
  code.mnemonic.leavesAt code.operands[0]?

namespace Core

variable (c : Core) (pc : Word)

/-- The instruction goes somewhere else: the condition that it names holds, if it names one, or it
    runs again. -/
def departs (c : Core) (code : Instruction) : Bool :=
  match code.mnemonic with
  | .jp | .jr | .call | .ret | .reti | .retn | .rst => c.holds code.operands[0]?
  | .djnz => c.regs.b != 0
  | m => m.repeats && c.conditionMet

/-- The timing of the instruction tells whether it goes somewhere else, if that makes a
    difference to it. -/
def Steered (c : Core) (code : Instruction) : Prop :=
  code.leavesAt = some (.after .operand) ∨ code.mnemonic.usesStack = true →
    c.conditionMet = c.departs code

/-- An absolute jump that is not taken leaves PC alone. -/
theorem jump_withPc {point : ExecPoint} {first : Option Operand}
    (h : point = Operand.jumpsAt first → c.holds first = false) :
    (c.withPc pc).jump point first = (c.jump point first).withPc pc := by
  unfold jump
  split
  · split
    · next hpoint => exact nomatch h hpoint
    · rfl
  · next hother =>
    split
    · next hpoint =>
      have hhere : Operand.jumpsAt first = .after .operandHigh := by
        unfold Operand.jumpsAt
        split
        · exact absurd rfl (hother _)
        · rfl
      rw [holds_withPc, h (hpoint.trans hhere.symm)]
      rfl
    · rfl

/-- A return leaves PC alone until it has read its target. -/
theorem ret_withPc (mnemonic : Mnemonic) {point : ExecPoint} (first : Option Operand)
    (h : point ≠ .after .stackReadHigh) :
    (c.withPc pc).ret mnemonic point first = (c.ret mnemonic point first).withPc pc := by
  unfold ret
  rw [holds_withPc]
  split <;> rfl

/-- A condition depends on the flags alone. -/
theorem holds_congr {c d : Core} (h : d.regs.f = c.regs.f) (first : Option Operand) :
    d.holds first = c.holds first := by
  unfold holds
  split
  · next cc =>
    cases cc <;> simp only [Registers.condition, Registers.flag, h]
  · rfl

/-- No transfer touches the condition that it depends on, once it is decoded. -/
theorem counters_jump (point : ExecPoint) (first : Option Operand) :
    (c.jump point first).regs.f = c.regs.f := by
  unfold jump
  repeat' split
  all_goals rfl

theorem counters_jumpRelative (mnemonic : Mnemonic) {point : ExecPoint} (first : Option Operand)
    (h : point ≠ .decoded) :
    (c.jumpRelative mnemonic point first).regs.f = c.regs.f
      ∧ (c.jumpRelative mnemonic point first).regs.b = c.regs.b := by
  unfold jumpRelative
  rw [if_neg h]
  split <;> exact ⟨rfl, rfl⟩

theorem counters_call {point : ExecPoint} (first : Option Operand) (h : point ≠ .decoded) :
    (c.call point first).regs.f = c.regs.f := by
  unfold call
  rw [if_neg h]
  repeat' split
  all_goals rfl

theorem counters_ret (mnemonic : Mnemonic) {point : ExecPoint} (first : Option Operand)
    (h : point ≠ .decoded) : (c.ret mnemonic point first).regs.f = c.regs.f := by
  unfold ret
  rw [if_neg h]
  repeat' split
  all_goals rfl

theorem counters_restart (point : ExecPoint) (first : Option Operand) :
    (c.restart point first).regs.f = c.regs.f := by
  unfold restart
  repeat' split
  all_goals rfl

/-- A block instruction chooses its timing at one point only. -/
theorem conditionMet_block {code : Instruction} {point : ExecPoint}
    (hrepeats : code.mnemonic.repeats = true) (h : code.leavesAt ≠ some point) :
    (c.act code point).conditionMet = c.conditionMet := by
  unfold act
  unfold Instruction.leavesAt Mnemonic.leavesAt at h
  cases hm : code.mnemonic <;> rw [hm] at hrepeats h
  case ldir | lddr =>
    have hpoint : point ≠ .after .memoryWrite := fun hpoint => h (congrArg some hpoint.symm)
    simp only [blockLoad, if_neg hpoint]
    repeat' split
    all_goals rfl
  case cpir | cpdr =>
    have hpoint : point ≠ .after .memoryRead := fun hpoint => h (congrArg some hpoint.symm)
    simp only [blockCompare, if_neg hpoint]
    split <;> rfl
  case inir | indr =>
    have hpoint : point ≠ .after .memoryWrite := fun hpoint => h (congrArg some hpoint.symm)
    simp only [blockIn, if_neg hpoint]
    repeat' split
    all_goals rfl
  case otir | otdr =>
    have hpoint : point ≠ .after .portWrite := fun hpoint => h (congrArg some hpoint.symm)
    simp only [blockOut, if_neg hpoint]
    repeat' split
    all_goals rfl
  all_goals cases hrepeats

/-- Once it is decoded, an instruction goes where it has been going to go, but for a block instruction
    that is about to tell whether it runs again. -/
theorem departs_act {code : Instruction} {point : ExecPoint} (hpoint : point ≠ .decoded)
    (h : code.mnemonic.repeats = true → code.leavesAt ≠ some point) :
    (c.act code point).conditionMet = c.conditionMet
      ∧ (c.act code point).departs code = c.departs code := by
  have hmet : (c.act code point).conditionMet = c.conditionMet := by
    cases hrepeats : code.mnemonic.repeats with
    | true => exact c.conditionMet_block hrepeats (h hrepeats)
    | false =>
      rcases (c.acts_act code point).pace with hpace | ⟨hdecoded | hmay, -⟩
      · exact conditionMet_of_pace hpace
      · exact absurd hdecoded hpoint
      · exact nomatch hrepeats.symm.trans hmay.1
  refine ⟨hmet, ?_⟩
  unfold departs
  cases hm : code.mnemonic
  case jp =>
    refine holds_congr ?_ _
    rw [act, hm]
    exact c.counters_jump point _
  case jr =>
    refine holds_congr ?_ _
    rw [act, hm]
    exact (c.counters_jumpRelative _ _ hpoint).1
  case djnz =>
    dsimp only
    rw [act, hm]
    dsimp only
    rw [(c.counters_jumpRelative _ _ hpoint).2]
  case call =>
    refine holds_congr ?_ _
    rw [act, hm]
    exact c.counters_call _ hpoint
  case ret | reti | retn =>
    refine holds_congr ?_ _
    rw [act, hm]
    exact c.counters_ret _ _ hpoint
  case rst =>
    refine holds_congr ?_ _
    rw [act, hm]
    exact c.counters_restart point _
  all_goals
    dsimp only
    rw [hmet]

/-- An instruction that stays where it is does not see PC, unless it has to reckon from it. -/
theorem act_withPc {code : Instruction} {point : ExecPoint}
    (hlisted : code.mnemonic.isInternal = false) (hblind : code.mnemonic.seesPc = false)
    (hstays : code.leavesAt = some point →
      code.mnemonic.usesStack = false ∧ (c.act code point).departs code = false) :
    (c.withPc pc).act code point = (c.act code point).withPc pc := by
  unfold act at hstays ⊢
  unfold Instruction.leavesAt Mnemonic.leavesAt departs at hstays
  cases hm : code.mnemonic <;> rw [hm] at hlisted hblind hstays <;> simp only [] at hstays ⊢
  case nmi | int => exact nomatch hlisted
  case jr | djnz | call | rst => exact nomatch hblind
  case ld =>
    split
    · exact load_withPc c pc _ _ _
    · rfl
  case push => exact pushPair_withPc c pc _ _
  case pop => exact popPair_withPc c pc _ _
  case ex => exact exchange_withPc c pc _ _ _
  case exx => split <;> rfl
  case input => exact portIn_withPc c pc _ _ _
  case output => exact portOut_withPc c pc _ _ _
  case rlc | rrc | rl | rr | sla | sra | sll | srl => exact shiftOperand_withPc c pc _ _ _ _
  case bit | res | set => exact bitOperand_withPc c pc _ _ _ _ _
  case rrd | rld => exact rotateDigit_withPc c pc _ _
  case ldi | ldd => exact blockLoad_withPc c pc nofun
  case cpi | cpd => exact blockCompare_withPc c pc nofun
  case ini | ind => exact blockIn_withPc c pc nofun
  case outi | outd => exact blockOut_withPc c pc nofun
  case ldir | lddr => exact blockLoad_withPc c pc fun _ hpoint => (hstays (hpoint ▸ rfl)).2
  case cpir | cpdr => exact blockCompare_withPc c pc fun _ hpoint => (hstays (hpoint ▸ rfl)).2
  case inir | indr => exact blockIn_withPc c pc fun _ hpoint => (hstays (hpoint ▸ rfl)).2
  case otir | otdr => exact blockOut_withPc c pc fun _ hpoint => (hstays (hpoint ▸ rfl)).2
  case jp =>
    refine jump_withPc c pc fun hpoint => ?_
    rw [← holds_congr (c.counters_jump point _)]
    exact (hstays (congrArg some hpoint.symm)).2
  case ret | reti | retn =>
    refine ret_withPc c pc _ _ fun hpoint => ?_
    exact nomatch (hstays (hpoint ▸ rfl)).1
  case im => exact setMode_withPc c pc _ _
  case di | ei => exact setInterrupts_withPc c pc _ _
  case inc | dec => exact incDec_withPc c pc _ _ _
  case sub | and | xor | or | cp => exact alu8_withPc c pc _ _ _
  case add | adc | sbc =>
    split
    · split
      · exact alu16_withPc c pc _ _ _ _
      · rfl
    · exact alu8_withPc c pc _ _ _
  case halt => split <;> rfl
  case rlca | rrca | rla | rra | daa | cpl | scf | ccf | neg => exact accumulator_withPc c pc _ _

/-- What is steered never runs again by itself. -/
theorem repeats_of_steered {code : Instruction}
    (h : code.leavesAt = some (.after .operand) ∨ code.mnemonic.usesStack = true) :
    code.mnemonic.repeats = false := by
  unfold Instruction.leavesAt at h
  cases hm : code.mnemonic <;> rw [hm] at h <;> first | rfl | skip
  all_goals rcases h with hat | hstack <;> first | exact nomatch hat | exact nomatch hstack

/-- When it is decoded, the timing of the instruction is chosen. -/
theorem steered_act_decoded (code : Instruction) : (c.act code .decoded).Steered code := by
  intro hsteered
  unfold Instruction.leavesAt at hsteered
  unfold act departs
  cases hm : code.mnemonic <;> rw [hm] at hsteered
  case jr | djnz | call | ret | reti | retn => rfl
  case jp =>
    rcases hsteered with hat | hstack
    · unfold Mnemonic.leavesAt Operand.jumpsAt at hat
      dsimp only at hat
      split at hat <;> exact nomatch hat
    · exact nomatch hstack
  all_goals rcases hsteered with hat | hstack <;> first | exact nomatch hat | exact nomatch hstack

/-- Later on it stays chosen. -/
theorem Steered.act {c : Core} {code : Instruction} {point : ExecPoint} (h : c.Steered code)
    (hpoint : point ≠ .decoded) : (c.act code point).Steered code := by
  intro hsteered
  obtain ⟨hmet, hdeparts⟩ := c.departs_act hpoint fun hrepeats =>
    nomatch (repeats_of_steered hsteered).symm.trans hrepeats
  rw [hmet, hdeparts]
  exact h hsteered

theorem pc_jumpRelative (mnemonic : Mnemonic) {point : ExecPoint} (first : Option Operand)
    (h : point = .after .operand → c.conditionMet = false) :
    (c.jumpRelative mnemonic point first).regs.pc = c.regs.pc := by
  unfold jumpRelative
  split
  · split <;> rfl
  · split
    · next htaken => exact nomatch (h htaken.1).symm.trans htaken.2
    · rfl

theorem pc_call {point : ExecPoint} (first : Option Operand) (h : point ≠ .after .stackWriteLow) :
    (c.call point first).regs.pc = c.regs.pc := by
  unfold call
  repeat' split
  all_goals rfl

theorem pc_restart {point : ExecPoint} {first : Option Operand}
    (h : point = .after .stackWriteLow → c.holds first = false) :
    (c.restart point first).regs.pc = c.regs.pc := by
  unfold restart
  split
  · rfl
  split
  · next hpoint =>
    split
    · exact nomatch h hpoint
    · rfl
  · rfl

/-- An instruction that stays where it is keeps PC. -/
theorem pc_act {code : Instruction} {point : ExecPoint}
    (hlisted : code.mnemonic.isInternal = false) (hsteered : point ≠ .decoded → c.Steered code)
    (hstays : code.leavesAt = some point →
      code.mnemonic.usesStack = false ∧ (c.act code point).departs code = false) :
    (c.act code point).regs.pc = c.regs.pc := by
  cases hblind : code.mnemonic.seesPc with
  | false =>
    have hact := act_withPc c c.regs.pc hlisted hblind hstays
    rw [withPc_self] at hact
    rw [hact]
    rfl
  | true =>
    have hleaves {end' : ExecPoint} (hat : code.leavesAt = some end') (hlater : end' ≠ .decoded)
        (hrepeats : code.mnemonic.repeats = false) (hpoint : point = end') :
        c.departs code = false := by
      rw [← (c.departs_act (hpoint ▸ hlater) fun h => nomatch hrepeats.symm.trans h).2]
      exact (hstays (hpoint ▸ hat)).2
    unfold act
    cases hm : code.mnemonic <;> rw [hm] at hblind
    case jr | djnz =>
      have hat : code.leavesAt = some (.after .operand) := by rw [Instruction.leavesAt, hm]; rfl
      refine c.pc_jumpRelative _ _ fun hpoint => ?_
      rw [hsteered (by rw [hpoint]; exact nofun) (Or.inl hat)]
      exact hleaves hat nofun (by rw [hm]; rfl) hpoint
    case call =>
      refine c.pc_call _ fun hpoint => ?_
      have hat : code.leavesAt = some point := by rw [Instruction.leavesAt, hm, hpoint]; rfl
      have hstack := (hstays hat).1
      rw [hm] at hstack
      exact nomatch hstack
    case rst =>
      have hat : code.leavesAt = some (.after .stackWriteLow) := by rw [Instruction.leavesAt, hm]; rfl
      refine c.pc_restart fun hpoint => ?_
      have hdeparts := hleaves hat nofun (by rw [hm]; rfl) hpoint
      rw [departs, hm] at hdeparts
      exact hdeparts
    all_goals exact nomatch hblind

/-- A block instruction that runs again puts PC back by the two bytes of its opcode. -/
theorem pc_repeatWhile {mnemonic : Mnemonic} {more : Bool} (hrepeats : mnemonic.repeats = true)
    (hagain : (c.repeatWhile mnemonic more).conditionMet = true) :
    (c.repeatWhile mnemonic more).regs.pc = c.regs.pc - 2 := by
  obtain rfl : more = true := (c.conditionMet_repeatWhile more hrepeats).symm.trans hagain
  rw [repeatWhile, if_pos hrepeats]
  rfl

theorem pc_blockLoad_again {mnemonic : Mnemonic} (hrepeats : mnemonic.repeats = true)
    (hagain : (c.blockLoad mnemonic (.after .memoryWrite)).conditionMet = true) :
    (c.blockLoad mnemonic (.after .memoryWrite)).regs.pc = c.regs.pc - 2 := by
  rw [blockLoad, if_neg (by decide), if_neg (by decide), if_pos rfl] at hagain ⊢
  exact pc_repeatWhile _ hrepeats hagain

theorem pc_blockCompare_again {mnemonic : Mnemonic} (hrepeats : mnemonic.repeats = true)
    (hagain : (c.blockCompare mnemonic (.after .memoryRead)).conditionMet = true) :
    (c.blockCompare mnemonic (.after .memoryRead)).regs.pc = c.regs.pc - 2 := by
  rw [blockCompare, if_neg (by decide), if_pos rfl] at hagain ⊢
  exact pc_repeatWhile _ hrepeats hagain

theorem pc_blockIn_again {mnemonic : Mnemonic} (hrepeats : mnemonic.repeats = true)
    (hagain : (c.blockIn mnemonic (.after .memoryWrite)).conditionMet = true) :
    (c.blockIn mnemonic (.after .memoryWrite)).regs.pc = c.regs.pc - 2 := by
  rw [blockIn, if_neg (by decide), if_neg (by decide), if_pos rfl] at hagain ⊢
  exact pc_repeatWhile _ hrepeats hagain

theorem pc_blockOut_again {mnemonic : Mnemonic} (hrepeats : mnemonic.repeats = true)
    (hagain : (c.blockOut mnemonic (.after .portWrite)).conditionMet = true) :
    (c.blockOut mnemonic (.after .portWrite)).regs.pc = c.regs.pc - 2 := by
  rw [blockOut, if_neg (by decide), if_neg (by decide), if_pos rfl] at hagain ⊢
  exact pc_repeatWhile _ hrepeats hagain

-- The four lemmas above are for any mnemonic: with one of those that step down in its place the
-- kernel would count the stride up from zero.
theorem pc_act_again {code : Instruction} {point : ExecPoint}
    (hrepeats : code.mnemonic.repeats = true) (hleaves : code.leavesAt = some point)
    (hagain : (c.act code point).conditionMet = true) :
    (c.act code point).regs.pc = c.regs.pc - 2 := by
  unfold act at hagain ⊢
  unfold Instruction.leavesAt Mnemonic.leavesAt at hleaves
  cases hm : code.mnemonic <;> rw [hm] at hrepeats hleaves hagain
  case ldir | lddr =>
    obtain rfl := Option.some.inj hleaves
    exact c.pc_blockLoad_again hrepeats hagain
  case cpir | cpdr =>
    obtain rfl := Option.some.inj hleaves
    exact c.pc_blockCompare_again hrepeats hagain
  case inir | indr =>
    obtain rfl := Option.some.inj hleaves
    exact c.pc_blockIn_again hrepeats hagain
  case otir | otdr =>
    obtain rfl := Option.some.inj hleaves
    exact c.pc_blockOut_again hrepeats hagain
  all_goals cases hrepeats

/-- An instruction that does not load R keeps it. -/
theorem r_act {code : Instruction} (point : ExecPoint)
    (hfirst : code.operands[0]? ≠ some (.reg8 .r))
    (hothers : code.mnemonic = .ld ∨ .reg8 .r ∉ code.operands) :
    (c.act code point).regs.r = c.regs.r := by
  have hnone (hm : code.mnemonic ≠ .ld) (n : Nat) : code.operands[n]? ≠ some (.reg8 .r) := by
    intro hsome
    rcases hothers with hld | habsent
    · exact hm hld
    · exact habsent (List.mem_of_getElem? hsome)
  unfold act
  cases hm : code.mnemonic <;> rw [hm] at hnone <;> simp only []
  case ld =>
    split
    · next target source htarget _ =>
      exact c.r_load _ (fun h => hfirst (htarget.trans (congrArg some h))) _
    · rfl
  case push => exact c.r_pushPair _ _
  case pop => exact c.r_popPair _ _
  case ex => exact c.r_exchange _ _ _
  case exx => split <;> rfl
  case input => exact c.r_portIn _ hfirst _
  case output => exact c.r_portOut _ _ _
  case rlc | rrc | rl | rr | sla | sra | sll | srl =>
    exact c.r_shiftOperand _ _ hfirst (hnone nofun 1)
  case bit | res | set => exact c.r_bitOperand _ _ _ (hnone nofun 1) (hnone nofun 2)
  case rrd | rld => exact c.r_rotateDigit _ _
  case ldi | ldd | ldir | lddr => exact c.r_blockLoad _ _
  case cpi | cpd | cpir | cpdr => exact c.r_blockCompare _ _
  case ini | ind | inir | indr => exact c.r_blockIn _ _
  case outi | outd | otir | otdr => exact c.r_blockOut _ _
  case nmi | int => exact c.r_interruptEntry _ _ _
  case jp => exact c.r_jump _ _
  case jr | djnz => exact c.r_jumpRelative _ _ _
  case call => exact c.r_call _ _
  case ret | reti | retn => exact c.r_ret _ _ _
  case rst => exact c.r_restart _ _
  case im => exact c.r_setMode _ _
  case di | ei => exact c.r_setInterrupts _ _
  case inc | dec => exact c.r_incDec _ _ hfirst
  case sub | and | xor | or | cp => exact c.r_alu8 _ _ _
  case add | adc | sbc =>
    split
    · split
      · exact c.r_alu16 _ _ _ _
      · rfl
    · exact c.r_alu8 _ _ _
  case halt => split <;> rfl
  case rlca | rrca | rla | rra | daa | cpl | scf | ccf | neg => exact c.r_accumulator _ _

end Core

end Z80Board
