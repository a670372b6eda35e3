import Z80Board.Proofs.Chip.Datapath
import Z80Board.Proofs.Isa.Mirror

/-! # Acting on mirrored registers

    The mirror image of the registers has IX and IY exchanged, and a register of either name is found
    there under its mirrored name.  A chip with mirrored registers that has the mirror image of an
    instruction acts as the chip does that has the instruction itself: for every function `f` that an
    instruction is made of, `(c.mirrored k).f = (c.f).mirrored k`.  The chip `k` lends the image of the
    instruction, and what cannot be told from that of `c`: the bytes of the opcode and those on the data
    bus. -/

namespace Z80Board

/-! ## Registers -/

namespace Registers

/-- The registers with IX and IY exchanged. -/
def mirror (regs : Registers) : Registers :=
  { regs with ix := regs.iy, iy := regs.ix }

variable (regs : Registers)

@[simp] theorem mirror_mirror : regs.mirror.mirror = regs := rfl

@[simp] theorem reg8_mirror (reg : Reg8) : regs.mirror.reg8 reg.mirror = regs.reg8 reg := by
  cases reg <;> rfl

@[simp] theorem setReg8_mirror (v : Byte) (reg : Reg8) :
    regs.mirror.setReg8 v reg.mirror = (regs.setReg8 v reg).mirror := by
  cases reg <;> rfl

@[simp] theorem reg16_mirror (rr : Reg16) : regs.mirror.reg16 rr.mirror = regs.reg16 rr := by
  cases rr <;> rfl

@[simp] theorem setReg16_mirror (w : Word) (rr : Reg16) :
    regs.mirror.setReg16 w rr.mirror = (regs.setReg16 w rr).mirror := by
  cases rr <;> rfl

end Registers

namespace Core

/-- The chip with mirrored registers, and the instruction of `k`. -/
def mirrored (c k : Core) : Core :=
  { c with
    regs := c.regs.mirror
    page := c.page.mirror
    instruction := k.instruction
    opcode := k.opcode
    data := k.data }

variable (c k : Core)

/-! ## Operands -/

@[simp] theorem read8_mirrored (source : Operand) :
    (c.mirrored k).read8 source.mirror = c.read8 source := by
  cases source with
  | reg8 reg => exact c.regs.reg8_mirror reg
  | _ => rfl

theorem write8_mirrored (v : Byte) (target : Operand) :
    (c.mirrored k).write8 v target.mirror = (c.write8 v target).mirrored k := by
  cases target with
  | reg8 reg =>
    show { c.mirrored k with regs := c.regs.mirror.setReg8 v reg.mirror } = _
    rw [Registers.setReg8_mirror]
    rfl
  | _ => rfl

theorem copyTo_mirrored (v : Byte) (copy : Option Operand) :
    (c.mirrored k).copyTo v (copy.map Operand.mirror) = (c.copyTo v copy).mirrored k := by
  cases copy with
  | none => rfl
  | some target =>
    cases target with
    | reg8 reg => exact c.write8_mirrored k v (.reg8 reg)
    | _ => rfl

theorem readyAt_mirror (source : Operand) : source.mirror.readyAt = source.readyAt := by
  cases source <;> rfl

/-! ## Loads, stack transfers and exchanges -/

variable {c k} in
/-- What is done at one point only. -/
theorem ite_mirrored {test : Prop} [Decidable test] {d e f : Core} (h : d = e.mirrored k) :
    (if test then d else f.mirrored k) = (if test then e else f).mirrored k := by
  split
  · exact h
  · rfl

variable {c k} in
/-- What is done at one point or another. -/
theorem ite_both_mirrored {test : Prop} [Decidable test] {d d' e e' : Core} (h : d = e.mirrored k)
    (h' : d' = e'.mirrored k) : (if test then d else d') = (if test then e else e').mirrored k := by
  split
  · exact h
  · exact h'

/-- A byte that is moved from one operand to another. -/
theorem move_mirrored (point : ExecPoint) (target source : Operand) :
    (if point = source.mirror.readyAt then
        (c.mirrored k).write8 ((c.mirrored k).read8 source.mirror) target.mirror
      else c.mirrored k)
      = (if point = source.readyAt then c.write8 (c.read8 source) target else c).mirrored k := by
  rw [readyAt_mirror, read8_mirrored, write8_mirrored]
  split <;> rfl

/-- A pair that takes a word, and one more register. -/
theorem setReg16_mirrored (w : Word) (rr : Reg16) (f : Registers → Registers)
    (hf : ∀ regs, f regs.mirror = (f regs).mirror) :
    { c.mirrored k with regs := f (c.regs.mirror.setReg16 w rr.mirror) }
      = ({ c with regs := f (c.regs.setReg16 w rr) } : Core).mirrored k := by
  rw [Registers.setReg16_mirror, hf]
  rfl

theorem load_mirrored (point : ExecPoint) (target source : Operand) :
    (c.mirrored k).load point target.mirror source.mirror
      = (c.load point target source).mirrored k := by
  have hmove := c.move_mirrored k point target source
  cases target with
  | reg16 rr =>
    cases source with
    | immediate16 => exact ite_mirrored (c.setReg16_mirrored k _ rr id fun _ => rfl)
    | absolute =>
      exact ite_mirrored (c.setReg16_mirrored k c.data16 rr
        (fun regs => { regs with wz := c.latches.addr + 1 }) fun _ => rfl)
    | reg16 source =>
      refine ite_mirrored (Eq.trans ?_ (c.setReg16_mirrored k (c.regs.reg16 source) rr id fun _ => rfl))
      rw [← c.regs.reg16_mirror source]
      rfl
    | _ => exact hmove
  | absolute =>
    cases source with
    | reg16 rr =>
      refine ite_mirrored ?_
      rw [← c.regs.reg16_mirror rr]
      rfl
    | reg8 reg =>
      cases reg
      case a => exact ite_mirrored rfl
      all_goals exact hmove
    | _ => exact hmove
  | reg8 reg =>
    cases reg
    case a =>
      cases source with
      | reg8 source =>
        cases source
        case i | r => exact ite_mirrored rfl
        all_goals exact hmove
      | absolute => exact ite_mirrored rfl
      | indirect rr =>
        cases rr
        case bc | de => exact ite_mirrored rfl
        all_goals exact hmove
      | _ => exact hmove
    all_goals exact hmove
  | indirect rr =>
    cases rr
    case bc | de =>
      cases source with
      | reg8 reg =>
        cases reg
        case a => exact ite_mirrored rfl
        all_goals exact hmove
      | _ => exact hmove
    all_goals exact hmove
  | _ => exact hmove

theorem pushPair_mirrored (point : ExecPoint) (first : Option Operand) :
    (c.mirrored k).pushPair point (first.map Operand.mirror)
      = (c.pushPair point first).mirrored k := by
  cases first with
  | none => rfl
  | some operand =>
    cases operand with
    | reg16 rr =>
      refine ite_mirrored ?_
      rw [← c.regs.reg16_mirror rr]
      rfl
    | _ => rfl

theorem popPair_mirrored (point : ExecPoint) (first : Option Operand) :
    (c.mirrored k).popPair point (first.map Operand.mirror)
      = (c.popPair point first).mirrored k := by
  cases first with
  | none => rfl
  | some operand =>
    cases operand with
    | reg16 rr => exact ite_mirrored (c.setReg16_mirrored k c.data16 rr id fun _ => rfl)
    | _ => rfl

theorem exchange_mirrored (point : ExecPoint) (first second : Option Operand) :
    (c.mirrored k).exchange point (first.map Operand.mirror) (second.map Operand.mirror)
      = (c.exchange point first second).mirrored k := by
  rcases first with _ | first
  · rfl
  cases first with
  | reg16 rr =>
    cases rr
    case af => exact ite_mirrored rfl
    case de =>
      rcases second with _ | second
      · rfl
      cases second with
      | reg16 rr => cases rr <;> first | rfl | exact ite_mirrored rfl
      | _ => rfl
    all_goals rfl
  | indirect rr =>
    cases rr
    case sp =>
      rcases second with _ | second
      · rfl
      cases second with
      | reg16 rr => cases rr <;> exact ite_both_mirrored rfl (ite_mirrored rfl)
      | _ => rfl
    all_goals rfl
  | _ => rfl

/-! ## Arithmetic and logic -/

theorem alu8_mirrored (mnemonic : Mnemonic) (point : ExecPoint) (source : Option Operand) :
    (c.mirrored k).alu8 mnemonic point (source.map Operand.mirror)
      = (c.alu8 mnemonic point source).mirrored k := by
  cases source with
  | none => rfl
  | some operand =>
    have hread := c.read8_mirrored k operand
    simp only [Option.map_some, alu8, readyAt_mirror, hread]
    refine ite_mirrored ?_
    split <;> rfl

theorem alu16_mirrored (mnemonic : Mnemonic) (point : ExecPoint) (target source : Reg16) :
    (c.mirrored k).alu16 mnemonic point target.mirror source.mirror
      = (c.alu16 mnemonic point target source).mirrored k := by
  refine ite_mirrored ?_
  cases target <;> cases source <;> rfl

theorem incDec_mirrored (mnemonic : Mnemonic) (point : ExecPoint) (first : Option Operand) :
    (c.mirrored k).incDec mnemonic point (first.map Operand.mirror)
      = (c.incDec mnemonic point first).mirrored k := by
  rcases first with _ | operand
  · rfl
  cases operand with
  | reg16 rr => cases rr <;> exact ite_mirrored rfl
  | reg8 reg => cases reg <;> exact ite_mirrored rfl
  | _ => exact ite_mirrored rfl

theorem accumulator_mirrored (mnemonic : Mnemonic) (point : ExecPoint) :
    (c.mirrored k).accumulator mnemonic point = (c.accumulator mnemonic point).mirrored k := by
  refine ite_mirrored ?_
  have hresult : accumulatorResult (c.mirrored k).regs mnemonic
      = accumulatorResult c.regs mnemonic := by
    cases mnemonic <;> rfl
  rw [hresult]
  cases accumulatorResult c.regs mnemonic <;> rfl

/-! ## Rotates, shifts and single bits -/

theorem shiftOperand_mirrored (point : ExecPoint) (op : Shift) (first copy : Option Operand) :
    (c.mirrored k).shiftOperand point op (first.map Operand.mirror) (copy.map Operand.mirror)
      = (c.shiftOperand point op first copy).mirrored k := by
  let result := shift8 op c.latches.dataLow (c.regs.flag Flag.carry)
  have hcopied := copyTo_mirrored { c with latches.outLow := result.value, regs.f := result.flags } k
    result.value copy
  rcases first with _ | operand
  · rfl
  cases operand with
  | reg8 reg => cases reg <;> exact ite_mirrored rfl
  | _ => exact ite_mirrored hcopied

theorem bitOperation_mirrored (mnemonic : Mnemonic) (bit v xy : Byte) (target : Operand)
    (copy : Option Operand) :
    (c.mirrored k).bitOperation mnemonic bit v xy target.mirror (copy.map Operand.mirror)
      = (c.bitOperation mnemonic bit v xy target copy).mirrored k := by
  refine ite_both_mirrored rfl ?_
  dsimp only
  rw [write8_mirrored, copyTo_mirrored]

theorem bitOperand_mirrored (mnemonic : Mnemonic) (point : ExecPoint)
    (first second copy : Option Operand) :
    (c.mirrored k).bitOperand mnemonic point (first.map Operand.mirror) (second.map Operand.mirror)
        (copy.map Operand.mirror)
      = (c.bitOperand mnemonic point first second copy).mirrored k := by
  rcases first with _ | first
  · rfl
  cases first with
  | bit bit =>
    rcases second with _ | second
    · rfl
    cases second with
    | reg8 reg =>
      refine ite_mirrored ?_
      rw [← c.bitOperation_mirrored, ← c.regs.reg8_mirror reg]
      rfl
    | _ => exact ite_mirrored (c.bitOperation_mirrored k mnemonic bit _ _ _ copy)
  | _ => rfl

theorem rotateDigit_mirrored (mnemonic : Mnemonic) (point : ExecPoint) :
    (c.mirrored k).rotateDigit mnemonic point = (c.rotateDigit mnemonic point).mirrored k := by
  refine ite_both_mirrored rfl (ite_mirrored ?_)
  dsimp only
  split <;> rfl

/-! ## Ports -/

theorem portIn_mirrored (point : ExecPoint) (first second : Option Operand) :
    (c.mirrored k).portIn point (first.map Operand.mirror) (second.map Operand.mirror)
      = (c.portIn point first second).mirrored k := by
  rcases first with _ | target
  · rfl
  rcases second with _ | second
  · rfl
  cases second with
  | port => exact ite_both_mirrored rfl (ite_mirrored (c.write8_mirrored k _ target))
  | portC =>
    refine ite_both_mirrored rfl (ite_mirrored ?_)
    rw [show some target.mirror = (some target).map Operand.mirror from rfl, copyTo_mirrored]
    rfl
  | _ => rfl

theorem portOut_mirrored (point : ExecPoint) (first second : Option Operand) :
    (c.mirrored k).portOut point (first.map Operand.mirror) (second.map Operand.mirror)
      = (c.portOut point first second).mirrored k := by
  rcases first with _ | first
  · rfl
  rcases second with _ | source
  · cases first <;> rfl
  cases first with
  | port => exact ite_mirrored rfl
  | portC =>
    refine ite_mirrored ?_
    rw [← c.read8_mirrored k source]
    rfl
  | _ => rfl

/-! ## Control transfers and interrupt control -/

theorem holds_mirrored (first : Option Operand) :
    (c.mirrored k).holds (first.map Operand.mirror) = c.holds first := by
  rcases first with _ | operand
  · rfl
  cases operand <;> rfl

theorem jump_mirrored (point : ExecPoint) (first : Option Operand) :
    (c.mirrored k).jump point (first.map Operand.mirror) = (c.jump point first).mirrored k := by
  have htarget (first : Option Operand) : (if point = .after .operandHigh then
      if (c.mirrored k).holds (first.map Operand.mirror) then (c.mirrored k).goTo (c.mirrored k).imm16
        else { c.mirrored k with regs.wz := (c.mirrored k).imm16 }
      else c.mirrored k)
      = (if point = .after .operandHigh then
        if c.holds first then c.goTo c.imm16 else { c with regs.wz := c.imm16 } else c).mirrored k := by
    rw [holds_mirrored]
    exact ite_mirrored (ite_both_mirrored rfl rfl)
  rcases first with _ | operand
  · exact htarget none
  cases operand with
  | indirect rr =>
    refine ite_mirrored ?_
    rw [← c.regs.reg16_mirror rr]
    rfl
  | _ => exact htarget (some _)

theorem setInterrupts_mirrored (point : ExecPoint) (enable : Bool) :
    (c.mirrored k).setInterrupts point enable = (c.setInterrupts point enable).mirrored k :=
  ite_mirrored rfl

theorem setMode_mirrored (point : ExecPoint) (first : Option Operand) :
    (c.mirrored k).setMode point (first.map Operand.mirror) = (c.setMode point first).mirrored k := by
  refine ite_mirrored ?_
  rcases first with _ | operand
  · rfl
  cases operand <;> rfl

theorem restart_mirrored (point : ExecPoint) (first : Option Operand) :
    (c.mirrored k).restart point (first.map Operand.mirror)
      = (c.restart point first).mirrored k := by
  refine ite_both_mirrored rfl (ite_mirrored ?_)
  rcases first with _ | operand
  · rfl
  cases operand <;> rfl

theorem interruptEntry_mirrored (mnemonic : Mnemonic) (point : ExecPoint) (vectored : Bool) :
    (c.mirrored k).interruptEntry mnemonic point vectored
      = (c.interruptEntry mnemonic point vectored).mirrored k := by
  refine ite_both_mirrored ?_ (ite_both_mirrored rfl (ite_mirrored rfl))
  cases vectored <;> rfl

/-! ## Timings -/

/-- The instruction of `k` has the timing of that of `c`. -/
def Paces (c k : Core) : Prop :=
  k.instruction.map Instruction.timing = c.instruction.map Instruction.timing

variable {c k}

/-- The cycles of the other way follow from the timing alone. -/
theorem takeAlternate_eq (c : Core) (met : Bool) :
    c.takeAlternate met = { c with
      conditionMet := met
      cycles := (c.instruction.map Instruction.timing).elim c.cycles fun timing =>
        timing.cycles met } := by
  unfold Core.takeAlternate
  cases c.instruction <;> rfl

theorem Paces.takeAlternate (h : c.Paces k) (met : Bool) :
    (c.mirrored k).takeAlternate met = (c.takeAlternate met).mirrored k := by
  have hsame : (c.mirrored k).instruction.map Instruction.timing
      = c.instruction.map Instruction.timing := h
  rw [takeAlternate_eq, takeAlternate_eq, hsame]
  rfl

theorem Paces.jumpRelative (h : c.Paces k) (mnemonic : Mnemonic) (point : ExecPoint)
    (first : Option Operand) :
    (c.mirrored k).jumpRelative mnemonic point (first.map Operand.mirror)
      = (c.jumpRelative mnemonic point first).mirrored k := by
  refine ite_both_mirrored (ite_both_mirrored ?_ ?_) (ite_mirrored rfl)
  · exact Paces.takeAlternate (c := { c with regs.b := c.regs.b - 1 }) h _
  · rw [holds_mirrored]
    exact h.takeAlternate _

theorem Paces.call (h : c.Paces k) (point : ExecPoint) (first : Option Operand) :
    (c.mirrored k).call point (first.map Operand.mirror) = (c.call point first).mirrored k := by
  refine ite_both_mirrored ?_ (ite_both_mirrored rfl (ite_mirrored rfl))
  rw [holds_mirrored]
  exact h.takeAlternate _

theorem Paces.ret (h : c.Paces k) (mnemonic : Mnemonic) (point : ExecPoint)
    (first : Option Operand) :
    (c.mirrored k).ret mnemonic point (first.map Operand.mirror)
      = (c.ret mnemonic point first).mirrored k := by
  refine ite_both_mirrored ?_ (ite_mirrored (ite_both_mirrored rfl rfl))
  rw [holds_mirrored]
  exact h.takeAlternate _

/-! ## Block instructions -/

theorem Paces.repeatWhile {d : Core} (h : c.Paces k) (hd : d = c.mirrored k) (mnemonic : Mnemonic)
    (more : Bool) : d.repeatWhile mnemonic more = (c.repeatWhile mnemonic more).mirrored k := by
  subst hd
  refine ite_mirrored ?_
  unfold Core.repeatBlock
  rw [h.takeAlternate]
  exact ite_mirrored rfl

theorem Paces.blockLoad (h : c.Paces k) (mnemonic : Mnemonic) (point : ExecPoint) :
    (c.mirrored k).blockLoad mnemonic point = (c.blockLoad mnemonic point).mirrored k := by
  refine ite_both_mirrored rfl (ite_both_mirrored rfl (ite_mirrored ?_))
  refine Paces.repeatWhile ?_ ?_ mnemonic _
  · exact h
  · rfl

theorem Paces.blockCompare (h : c.Paces k) (mnemonic : Mnemonic) (point : ExecPoint) :
    (c.mirrored k).blockCompare mnemonic point = (c.blockCompare mnemonic point).mirrored k := by
  refine ite_both_mirrored rfl (ite_mirrored ?_)
  refine Paces.repeatWhile ?_ ?_ mnemonic _
  · exact h
  · rfl

theorem Paces.blockIn (h : c.Paces k) (mnemonic : Mnemonic) (point : ExecPoint) :
    (c.mirrored k).blockIn mnemonic point = (c.blockIn mnemonic point).mirrored k := by
  refine ite_both_mirrored rfl (ite_both_mirrored rfl (ite_mirrored ?_))
  refine Paces.repeatWhile ?_ ?_ mnemonic _
  · exact h
  · rfl

theorem Paces.blockOut (h : c.Paces k) (mnemonic : Mnemonic) (point : ExecPoint) :
    (c.mirrored k).blockOut mnemonic point = (c.blockOut mnemonic point).mirrored k := by
  refine ite_both_mirrored rfl (ite_both_mirrored rfl (ite_mirrored ?_))
  exact h.repeatWhile rfl mnemonic _

/-! ## Any instruction -/

variable {code image : Instruction}

theorem pairOperands_mirrors (h : code.Mirrors image) :
    pairOperands image = (pairOperands code).map fun pairs => (pairs.1.mirror, pairs.2.mirror) := by
  unfold pairOperands
  rw [h.parts.2.2.1]
  rcases code.operands with _ | ⟨first, _ | ⟨second, rest⟩⟩
  · rfl
  · cases first <;> rfl
  · cases first
    case reg16 => cases second <;> rfl
    all_goals rfl

/-- Mirror images act alike on mirrored registers. -/
theorem act_mirrored (h : code.Mirrors image) (hpaces : c.Paces k) (point : ExecPoint) :
    (c.mirrored k).act image point = (c.act code point).mirrored k := by
  have htwo : image.hasOperand (.mode 2) = code.hasOperand (.mode 2) := h.hasOperand_eq (.mode 2)
  unfold act
  rw [h.parts.2.1, pairOperands_mirrors h, htwo]
  simp only [h.operand, h.last]
  generalize code.operands[0]? = first
  generalize code.operands[1]? = second
  generalize code.operands[2]? = third
  generalize code.operands.getLast? = last
  generalize code.hasOperand (.mode 2) = vectored
  cases code.mnemonic
  case ld =>
    rcases first with _ | target
    · rfl
    rcases second with _ | source
    · rfl
    exact c.load_mirrored k point target source
  case add | adc | sbc =>
    rcases first with _ | operand
    · exact c.alu8_mirrored k _ point last
    cases operand
    case reg16 rr =>
      rcases pairOperands code with _ | ⟨target, source⟩
      · rfl
      exact c.alu16_mirrored k _ point target source
    all_goals exact c.alu8_mirrored k _ point last
  case nop | haltNop => rfl
  case push => exact c.pushPair_mirrored k point first
  case pop => exact c.popPair_mirrored k point first
  case ex => exact c.exchange_mirrored k point first second
  case exx | halt => exact ite_mirrored rfl
  case sub | and | xor | or | cp => exact c.alu8_mirrored k _ point last
  case inc | dec => exact c.incDec_mirrored k _ point first
  case rlca | rrca | rla | rra | daa | cpl | scf | ccf | neg =>
    exact c.accumulator_mirrored k _ point
  case di | ei => exact c.setInterrupts_mirrored k point _
  case im => exact c.setMode_mirrored k point first
  case jp => exact c.jump_mirrored k point first
  case jr | djnz => exact hpaces.jumpRelative _ point first
  case call => exact hpaces.call point first
  case ret | reti | retn => exact hpaces.ret _ point first
  case rst => exact c.restart_mirrored k point first
  case input => exact c.portIn_mirrored k point first second
  case output => exact c.portOut_mirrored k point first second
  case rlc | rrc | rl | rr | sla | sra | sll | srl =>
    exact c.shiftOperand_mirrored k point _ first second
  case bit | res | set => exact c.bitOperand_mirrored k _ point first second third
  case rrd | rld => exact c.rotateDigit_mirrored k _ point
  case ldi | ldd | ldir | lddr => exact hpaces.blockLoad _ point
  case cpi | cpd | cpir | cpdr => exact hpaces.blockCompare _ point
  case ini | ind | inir | indr => exact hpaces.blockIn _ point
  case outi | outd | otir | otdr => exact hpaces.blockOut _ point
  case nmi | int => exact c.interruptEntry_mirrored k _ point vectored

/-- They address the same memory by a pair. -/
theorem addressOperand_mirrored (h : code.Mirrors image) :
    (c.mirrored k).addressOperand image = (c.addressOperand code).mirrored k := by
  unfold addressOperand
  rw [h.memoryOperand?_eq]
  rcases code.memoryOperand? with _ | operand
  · rfl
  cases operand with
  | indirect rr => cases rr <;> rfl
  | _ => rfl

end Core

end Z80Board
