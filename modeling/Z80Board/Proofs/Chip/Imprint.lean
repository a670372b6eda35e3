import Z80Board.Proofs.Chip.Buses

/-! # What an instruction does to interrupts

    The flip-flops, the mode, the block behind an EI and the HALT state are the imprint of a chip,
    together with the instruction in progress.  Only a few mnemonics act on it, each at one point.
    Everything else that goes on in a half-period leaves it alone; so a property of imprints that
    holds on when an instruction acts at decode holds on in every half-period. -/

namespace Z80Board

/-! ## Flip-flops and mode -/

namespace Registers

/-- The interrupt flip-flops. -/
def flipFlops (regs : Registers) : Bool × Bool :=
  (regs.iff1, regs.iff2)

/-- The interrupt flip-flops and the mode. -/
def switches (regs : Registers) : (Bool × Bool) × Byte :=
  (regs.flipFlops, regs.im)

variable (regs : Registers)

@[simp] theorem switches_setReg8 (v : Byte) (reg : Reg8) :
    (regs.setReg8 v reg).switches = regs.switches := by
  cases reg <;> rfl

@[simp] theorem switches_setReg16 (w : Word) (rr : Reg16) :
    (regs.setReg16 w rr).switches = regs.switches := by
  cases rr <;> rfl

end Registers

namespace Core

variable (c : Core)

theorem switches_write8 (v : Byte) (target : Operand) :
    (c.write8 v target).regs.switches = c.regs.switches := by
  cases target
  case reg8 reg => exact c.regs.switches_setReg8 v reg
  all_goals rfl

theorem switches_copyTo (v : Byte) (copy : Option Operand) :
    (c.copyTo v copy).regs.switches = c.regs.switches := by
  unfold copyTo
  split
  · next reg => exact c.regs.switches_setReg8 v reg
  · rfl

theorem switches_load (point : ExecPoint) (target source : Operand) :
    (c.load point target source).regs.switches = c.regs.switches := by
  unfold load
  split
  case h_13 =>
    split
    · exact c.switches_write8 _ _
    · rfl
  case h_1 | h_2 | h_4 => split <;> first | rfl | exact Registers.switches_setReg16 ..
  all_goals split <;> rfl

theorem switches_pushPair (point : ExecPoint) (first : Option Operand) :
    (c.pushPair point first).regs.switches = c.regs.switches := by
  unfold pushPair
  repeat' split
  all_goals rfl

theorem switches_popPair (point : ExecPoint) (first : Option Operand) :
    (c.popPair point first).regs.switches = c.regs.switches := by
  unfold popPair
  repeat' split
  all_goals first | rfl | exact Registers.switches_setReg16 ..

theorem switches_exchange (point : ExecPoint) (first second : Option Operand) :
    (c.exchange point first second).regs.switches = c.regs.switches := by
  unfold exchange
  repeat' split
  all_goals first | rfl | exact Registers.switches_setReg16 ..

theorem switches_alu8 (mnemonic : Mnemonic) (point : ExecPoint) (source : Option Operand) :
    (c.alu8 mnemonic point source).regs.switches = c.regs.switches := by
  unfold alu8
  repeat' split
  all_goals rfl

theorem switches_alu16 (mnemonic : Mnemonic) (point : ExecPoint) (target source : Reg16) :
    (c.alu16 mnemonic point target source).regs.switches = c.regs.switches := by
  unfold alu16
  split
  · exact Registers.switches_setReg16 ..
  · rfl

theorem switches_incDec (mnemonic : Mnemonic) (point : ExecPoint) (target : Option Operand) :
    (c.incDec mnemonic point target).regs.switches = c.regs.switches := by
  unfold incDec
  repeat' split
  all_goals first
    | rfl
    | exact Registers.switches_setReg16 ..
    | exact Registers.switches_setReg8 ..

theorem switches_accumulator (mnemonic : Mnemonic) (point : ExecPoint) :
    (c.accumulator mnemonic point).regs.switches = c.regs.switches := by
  unfold accumulator
  repeat' split
  all_goals rfl

theorem switches_shiftOperand (point : ExecPoint) (op : Shift) (first copy : Option Operand) :
    (c.shiftOperand point op first copy).regs.switches = c.regs.switches := by
  unfold shiftOperand
  split
  · split
    · exact Registers.switches_setReg8 ..
    · rfl
  · split
    · exact switches_copyTo ..
    · rfl
  · rfl

theorem switches_bitOperation (mnemonic : Mnemonic) (bit v xy : Byte) (target : Operand)
    (copy : Option Operand) :
    (c.bitOperation mnemonic bit v xy target copy).regs.switches = c.regs.switches := by
  unfold bitOperation
  split
  · rfl
  · exact (switches_copyTo ..).trans (c.switches_write8 _ _)

theorem switches_bitOperand (mnemonic : Mnemonic) (point : ExecPoint)
    (first second copy : Option Operand) :
    (c.bitOperand mnemonic point first second copy).regs.switches = c.regs.switches := by
  unfold bitOperand
  repeat' split
  all_goals first | rfl | exact c.switches_bitOperation ..

theorem switches_rotateDigit (mnemonic : Mnemonic) (point : ExecPoint) :
    (c.rotateDigit mnemonic point).regs.switches = c.regs.switches := by
  unfold rotateDigit
  repeat' split
  all_goals rfl

theorem switches_repeatWhile (mnemonic : Mnemonic) (more : Bool) :
    (c.repeatWhile mnemonic more).regs.switches = c.regs.switches := by
  unfold repeatWhile repeatBlock
  dsimp only
  repeat' split
  all_goals rfl

theorem switches_blockLoad (mnemonic : Mnemonic) (point : ExecPoint) :
    (c.blockLoad mnemonic point).regs.switches = c.regs.switches := by
  unfold blockLoad
  repeat' split
  all_goals first | rfl | exact switches_repeatWhile ..

theorem switches_blockCompare (mnemonic : Mnemonic) (point : ExecPoint) :
    (c.blockCompare mnemonic point).regs.switches = c.regs.switches := by
  unfold blockCompare
  repeat' split
  all_goals first | rfl | exact switches_repeatWhile ..

theorem switches_blockIn (mnemonic : Mnemonic) (point : ExecPoint) :
    (c.blockIn mnemonic point).regs.switches = c.regs.switches := by
  unfold blockIn
  repeat' split
  all_goals first | rfl | exact switches_repeatWhile ..

theorem switches_blockOut (mnemonic : Mnemonic) (point : ExecPoint) :
    (c.blockOut mnemonic point).regs.switches = c.regs.switches := by
  unfold blockOut
  repeat' split
  all_goals first | rfl | exact switches_repeatWhile ..

theorem switches_jump (point : ExecPoint) (first : Option Operand) :
    (c.jump point first).regs.switches = c.regs.switches := by
  unfold jump
  repeat' split
  all_goals rfl

theorem switches_jumpRelative (mnemonic : Mnemonic) (point : ExecPoint) (first : Option Operand) :
    (c.jumpRelative mnemonic point first).regs.switches = c.regs.switches := by
  unfold jumpRelative
  repeat' split
  all_goals rfl

theorem switches_call (point : ExecPoint) (first : Option Operand) :
    (c.call point first).regs.switches = c.regs.switches := by
  unfold call
  repeat' split
  all_goals rfl

theorem switches_restart (point : ExecPoint) (first : Option Operand) :
    (c.restart point first).regs.switches = c.regs.switches := by
  unfold restart
  repeat' split
  all_goals rfl

theorem switches_interruptEntry (mnemonic : Mnemonic) (point : ExecPoint) (vectored : Bool) :
    (c.interruptEntry mnemonic point vectored).regs.switches = c.regs.switches := by
  unfold interruptEntry
  split
  · dsimp only
    split <;> rfl
  repeat' split
  all_goals rfl

theorem switches_portIn (point : ExecPoint) (first second : Option Operand) :
    (c.portIn point first second).regs.switches = c.regs.switches := by
  unfold portIn
  repeat' split
  all_goals first | rfl | exact c.switches_write8 .. | exact c.switches_copyTo ..

theorem switches_portOut (point : ExecPoint) (first second : Option Operand) :
    (c.portOut point first second).regs.switches = c.regs.switches := by
  unfold portOut
  repeat' split
  all_goals rfl

theorem switches_addressOperand (code : Instruction) :
    (c.addressOperand code).regs.switches = c.regs.switches := by
  unfold addressOperand
  split <;> rfl

end Core

/-! ## Imprints -/

/-- The instruction in progress, and what instructions do to interrupts. -/
structure Imprint where
  instruction : Option Instruction
  flipFlops : Bool × Bool
  mode : Byte
  shadow : Bool × Bool × Level

/-- The imprint of a chip. -/
def Core.imprint (c : Core) : Imprint :=
  ⟨c.instruction, c.regs.flipFlops, c.regs.im, c.shadow⟩

namespace Instruction

/-- What an instruction does to the flip-flops when it acts. -/
def switchesTo (code : Instruction) (point : ExecPoint) (flipFlops : Bool × Bool) : Bool × Bool :=
  match code.mnemonic with
  | .di => if point = .decoded then (false, false) else flipFlops
  | .ei => if point = .decoded then (true, true) else flipFlops
  | .reti | .retn =>
    if point = .after .stackReadHigh then (flipFlops.2, flipFlops.2) else flipFlops
  | _ => flipFlops

/-- What it does to the mode. -/
def selects (code : Instruction) (point : ExecPoint) (mode : Byte) : Byte :=
  match code.mnemonic with
  | .im =>
    match code.operands[0]? with
    | some (Operand.mode m) => if point = .decoded then m else mode
    | _ => mode
  | _ => mode

end Instruction

/-- What an instruction does to the imprint when it acts. -/
def Imprint.act (i : Imprint) (code : Instruction) (point : ExecPoint) : Imprint :=
  { i with
    flipFlops := code.switchesTo point i.flipFlops
    mode := code.selects point i.mode
    shadow := Core.leaveBehind code.mnemonic point i.shadow }

namespace Core

variable {c : Core}

/-- Every family but those of DI, EI, IM and the returns leaves the flip-flops and the mode alone. -/
theorem switches_act (c : Core) (code : Instruction) (point : ExecPoint) :
    (c.act code point).regs.switches
      = (code.switchesTo point c.regs.flipFlops, code.selects point c.regs.im) := by
  rw [act, Instruction.switchesTo, Instruction.selects]
  cases code.mnemonic <;> simp only []
  case di | ei =>
    rw [setInterrupts]
    split <;> rfl
  case im =>
    unfold setMode
    cases code.operands[0]? with
    | none => split <;> rfl
    | some first => cases first <;> split <;> rfl
  case ret =>
    rw [ret, if_pos rfl]
    repeat' split
    all_goals rfl
  case reti | retn =>
    by_cases hpops : point = .after .stackReadHigh
    · subst hpops
      rfl
    · rw [ret, if_neg hpops, if_neg hpops]
      split <;> rfl
  case halt | exx => split <;> rfl
  case nop | haltNop => rfl
  case ld =>
    split
    · exact c.switches_load _ _ _
    · rfl
  case add | adc | sbc =>
    repeat' split
    · exact c.switches_alu16 _ _ _ _
    · rfl
    · exact c.switches_alu8 _ _ _
  case push => exact c.switches_pushPair _ _
  case pop => exact c.switches_popPair _ _
  case ex => exact c.switches_exchange _ _ _
  case input => exact c.switches_portIn _ _ _
  case output => exact c.switches_portOut _ _ _
  case rlc | rrc | rl | rr | sla | sra | sll | srl => exact c.switches_shiftOperand _ _ _ _
  case bit | res | set => exact c.switches_bitOperand _ _ _ _ _
  case rrd | rld => exact c.switches_rotateDigit _ _
  case ldi | ldd | ldir | lddr => exact c.switches_blockLoad _ _
  case cpi | cpd | cpir | cpdr => exact c.switches_blockCompare _ _
  case ini | ind | inir | indr => exact c.switches_blockIn _ _
  case outi | outd | otir | otdr => exact c.switches_blockOut _ _
  case nmi | int => exact c.switches_interruptEntry _ _ _
  case jp => exact c.switches_jump _ _
  case jr | djnz => exact c.switches_jumpRelative _ _ _
  case call => exact c.switches_call _ _
  case rst => exact c.switches_restart _ _
  case inc | dec => exact c.switches_incDec _ _ _
  case sub | and | xor | or | cp => exact c.switches_alu8 _ _ _
  case rlca | rrca | rla | rra | daa | cpl | scf | ccf | neg => exact c.switches_accumulator _ _

/-- The imprint of an instruction that acts. -/
theorem imprint_execute {code : Instruction} (hcode : c.instruction = some code)
    (point : ExecPoint) : (c.execute point).imprint = c.imprint.act code point := by
  have hacts := acts_execute c hcode point
  have hinstruction : (c.execute point).instruction = c.instruction := hacts.pace.instruction
  have hswitches : (c.execute point).regs.switches
      = (code.switchesTo point c.regs.flipFlops, code.selects point c.regs.im) := by
    rw [execute, hcode]
    dsimp only
    split
    · have haddressed := c.switches_addressOperand code
      rw [switches_act, show (c.addressOperand code).regs.flipFlops = c.regs.flipFlops from
        congrArg Prod.fst haddressed, show (c.addressOperand code).regs.im = c.regs.im from
        congrArg Prod.snd haddressed]
    · exact c.switches_act code point
  show Imprint.mk _ _ _ _ = Imprint.mk _ _ _ _
  rw [hinstruction, hacts.shadow]
  exact congrArg (fun s : (Bool × Bool) × Byte => Imprint.mk c.instruction s.1 s.2 _) hswitches

/-! ## A half-period -/

end Core

/-- A property of imprints holds on when an instruction acts at decode, be it taken up only then. -/
structure Imprint.Holds (P : Imprint → Prop) : Prop where
  acts : ∀ (i : Imprint) (code : Instruction), i.instruction = some code → P i →
    P (i.act code .decoded)
  begins : ∀ (i : Imprint) (page : Page) (code : Instruction), i.instruction = none →
    Listing.Entitled Catalog.forms page code → P i →
    P ({ i with instruction := some code }.act code .decoded)

/-- An entry that is to be executed is an encoding of a form of its page. -/
theorem entitled_of_execute {page : Page} {byte : Byte} (h : (decode page byte).action = .execute) :
    Listing.Entitled Catalog.forms page (decode page byte) := by
  rcases decode_cases page byte with ⟨action, hlead, haction⟩ | ⟨-, haction⟩ | hentitled
  · rcases Page.lead_cases hlead with ⟨-, next, rfl, -⟩ | ⟨-, next, rfl, -⟩ <;>
      exact nomatch h.symm.trans haction
  · exact nomatch h.symm.trans haction
  · exact hentitled

namespace Imprint.Holds

open Z80Board.Core

variable {P : Imprint → Prop} {c : Core}

theorem beginExecution (h : Holds P) {page : Page} {code : Instruction}
    (hentitled : Listing.Entitled Catalog.forms page code) (hnone : c.instruction = none)
    (hc : P c.imprint) : P (c.beginExecution code).imprint := by
  have hcode := instruction_takeUp c code
  have himprint : (c.takeUp code).imprint = { c.imprint with instruction := some code } := by
    rw [takeUp, placeDisplacement]
    dsimp only
    split <;> rfl
  show P ((c.takeUp code).execute .decoded).imprint
  rw [imprint_execute hcode, himprint]
  exact h.begins c.imprint page code hnone hentitled hc

theorem follow (h : Holds P) (hnone : c.instruction = none) (hc : P c.imprint) {page : Page}
    {byte : Byte} (again : Core → Page → Core)
    (hagain : ∀ page, P (again { c with position := 0 } page).imprint) :
    P (c.follow (decode page byte) again).imprint := by
  rw [Core.follow]
  cases haction : (decode page byte).action with
  | execute => exact h.beginExecution (entitled_of_execute haction) hnone hc
  | fetchNext | fetchDisplacement => exact hc
  | redecode page => exact hagain page

theorem dispatch (h : Holds P) (hnone : c.instruction = none) (hc : P c.imprint) (byte : Byte) :
    P (c.dispatch byte).imprint :=
  h.follow (c := { c with opcode := c.opcode.push byte }) hnone hc _ fun _ =>
    h.follow (c := { c with opcode := c.opcode.push byte, position := 0 }) hnone hc _ fun _ => hc

theorem takeOpcodeByte (h : Holds P) (hc : P c.imprint) (byte : Byte) :
    P (c.takeOpcodeByte byte).imprint := by
  cases hcode : c.instruction with
  | some code =>
    rw [takeOpcodeByte_of_some hcode]
    show P ((c.fetch byte).execute .decoded).imprint
    rw [imprint_execute (c := c.fetch byte) hcode]
    exact h.acts c.imprint code hcode hc
  | none =>
    have hadvanced : c.advancePc.imprint = c.imprint := by
      rw [advancePc]
      split <;> rfl
    rw [takeOpcodeByte_of_none hcode]
    refine h.dispatch ((congrArg Imprint.instruction hadvanced).trans hcode) ?_ byte
    rw [hadvanced]
    exact hc

end Imprint.Holds

namespace Core

variable {c : Core}

/-- Which pointer a read moves does not show in the imprint. -/
theorem imprint_movePointer (c : Core) : c.movePointer.imprint = c.imprint := by
  rw [movePointer]
  cases c.cycle.kind
  case opcodeFetch | operand | operandLow | operandHigh =>
    dsimp only
    rw [advancePc]
    split <;> rfl
  all_goals rfl

/-- Setting up the next cycle does not show in the imprint either. -/
theorem imprint_nextCycle (c : Core) : c.nextCycle.1.imprint = c.imprint := by
  cases hcode : c.instruction with
  | none =>
    rw [nextCycle_of_none hcode]
    cases c.chain <;> rfl
  | some code =>
    rw [nextCycle_of_some hcode]
    cases c.cycles[c.position + 1]? <;> rfl

/-- At the end of a cycle the instruction acts, but for a fetch or a displacement. -/
theorem imprint_latchResult (c : Core) :
    (c.cycle.kind = .opcodeFetch ∨ c.cycle.kind = .operand ∨ c.instruction = none)
        ∧ c.latchResult.imprint = c.imprint
      ∨ ∃ code, c.instruction = some code
        ∧ c.latchResult.imprint = c.imprint.act code (.after c.cycle.kind) := by
  cases hcode : c.instruction with
  | none =>
    rw [latchResult_of_none hcode]
    refine Or.inl ⟨Or.inr (Or.inr rfl), ?_⟩
    split <;> rfl
  | some code =>
    obtain ⟨hstowed, himprint⟩ : (c.stow code).instruction = some code
        ∧ (c.stow code).imprint = c.imprint := by
      rw [stow]
      split
      case h_3 =>
        dsimp only
        split <;> exact ⟨hcode, rfl⟩
      all_goals exact ⟨hcode, rfl⟩
    rw [latchResult_of_some hcode]
    split
    · next hkind => exact Or.inl ⟨Or.inl hkind, rfl⟩
    split
    · next hkind => exact Or.inl ⟨Or.inr (Or.inl hkind), rfl⟩
    · refine Or.inr ⟨code, rfl, ?_⟩
      rw [imprint_execute hstowed, himprint]

end Core

namespace Imprint.Holds

open Z80Board.Core

variable {P : Imprint → Prop} {c : Core}

/-- What holds of the imprint holds on in a half-period.  A cycle that reads the last byte of an
    opcode belongs to no instruction yet. -/
theorem effect (h : Holds P) (hc : P c.imprint) {half : Nat}
    (hnone : c.cycle.pattern = .opcodeRead → half = c.cycle.pattern.sampleHalf → c.instruction = none)
    (byte : Byte) : P (c.effect half byte).imprint := by
  rw [Core.effect]
  split
  · rw [pushPointer]
    split <;> exact hc
  split
  · next hsample =>
    rw [takeIn]
    split
    case h_1 | h_2 => exact h.takeOpcodeByte (c := c.countRefresh) hc _
    case h_3 hpattern =>
      have hmoved := c.imprint_movePointer
      exact h.dispatch ((congrArg Imprint.instruction hmoved).trans (hnone hpattern hsample))
        (hmoved ▸ hc) _
    case h_4 =>
      show P (c.movePointer.imprint)
      rw [imprint_movePointer]
      exact hc
    all_goals exact hc
  · exact hc

theorem runHalf (h : Holds P) (hunderway : c.Underway) (hc : P c.imprint) :
    P c.runHalf.1.imprint := by
  show P (c.runHalf.1.wiredAs c).imprint
  rw [runHalf_wiredAs_self]
  refine h.effect hc (fun hpattern hsample => ?_) _
  cases hcode : c.instruction with
  | none => rfl
  | some code =>
    have hlate := (hunderway.course.scheduled code hcode).2.2 hpattern
    rw [hpattern] at hsample
    exact absurd hsample (Nat.ne_of_gt hlate)

end Imprint.Holds

/-! ## Keeping interrupts out -/

/-- Both flip-flops are reset, or an EI has been executed just now. -/
def Imprint.Masked (i : Imprint) : Prop :=
  i.flipFlops = (false, false) ∨ i.shadow.1 = true

namespace Imprint.Masked

variable {i : Imprint} {c : Core}

/-- No instruction that acts lets interrupts in at once. -/
theorem act (h : i.Masked) (code : Instruction) (point : ExecPoint) : (i.act code point).Masked := by
  unfold Imprint.act Instruction.switchesTo Core.leaveBehind
  cases code.mnemonic <;> dsimp only
  case di =>
    split
    · exact Or.inl rfl
    · exact h
  case ei =>
    split
    · exact Or.inr rfl
    · exact h
  case reti | retn =>
    split
    · exact h.imp_left fun hreset => by rw [hreset]
    · exact h
  case halt => split <;> exact h
  all_goals exact h

theorem holds : Imprint.Holds Imprint.Masked :=
  ⟨fun _ code _ h => h.act code .decoded, fun _ _ code _ _ h => Masked.act h code .decoded⟩

theorem latchResult (h : c.imprint.Masked) : c.latchResult.imprint.Masked := by
  rcases c.imprint_latchResult with ⟨-, hsame⟩ | ⟨code, -, hacts⟩
  · rw [hsame]
    exact h
  · rw [hacts]
    exact h.act code _

end Imprint.Masked

end Z80Board
