import Z80Board.Chip.HalfPeriod

/-! # What an instruction can reach

    Acting is a matter of the datapath alone: the registers, the latches, the instruction with its
    cycles, and what a HALT or an EI leaves behind.  Everything else is control: the buses and all
    pins but HALT, the place in the opcode, the cycle in progress, the counters.  The chip `k` with
    the datapath of `c` is `c.under k`, and acting does not see which `k` it is: for every function
    `f` that an instruction is made of, `(c.under k).f = (c.f).under k`.  With `k := c` this says that
    the control stays as it was.

    Of the datapath, the instruction never changes by acting.  Its cycles change in two ways only: a
    conditional transfer chooses between its timings at decode, and a repeating block instruction
    after the last cycle that both its timings have.  And only HALT, DI and EI touch what is known of
    interrupts, when they are decoded. -/

namespace Z80Board.Core

/-! ## Datapath and control -/

/-- The chip `k` with the datapath of `c`. -/
def under (c k : Core) : Core :=
  { k with
    regs := c.regs
    latches := c.latches
    pins.halt := c.pins.halt
    instruction := c.instruction
    cycles := c.cycles
    conditionMet := c.conditionMet
    intBlocked := c.intBlocked
    halted := c.halted }

/-- The instruction with the cycles it is to run. -/
def pace (c : Core) : Option Instruction × List MachineCycle × Bool :=
  (c.instruction, c.cycles, c.conditionMet)

/-- What an EI or a HALT leaves behind. -/
def shadow (c : Core) : Bool × Bool × Level :=
  (c.intBlocked, c.halted, c.pins.halt)

section

variable {c c' : Core}

theorem instruction_of_pace (h : c'.pace = c.pace) : c'.instruction = c.instruction :=
  congrArg (·.1) h

theorem cycles_of_pace (h : c'.pace = c.pace) : c'.cycles = c.cycles :=
  congrArg (·.2.1) h

theorem conditionMet_of_pace (h : c'.pace = c.pace) : c'.conditionMet = c.conditionMet :=
  congrArg (·.2.2) h

end

variable (c k : Core)

/-- A chip is its datapath under its control. -/
@[simp] theorem under_self : c.under c = c := rfl

/-- The instruction goes on as it was, or, if the test holds, has its timing chosen again. -/
def TurnsIf (c c' : Core) (test : Prop) : Prop :=
  c'.pace = c.pace ∨ (test ∧ ∃ met, c'.pace = (c.takeAlternate met).pace)

/-- Which instruction it is does not change. -/
theorem TurnsIf.instruction {c c' : Core} {test : Prop} (h : c.TurnsIf c' test) :
    c'.instruction = c.instruction := by
  rcases h with hpace | ⟨-, met, hpace⟩
  · exact instruction_of_pace hpace
  · exact instruction_of_pace (c := c.takeAlternate met) hpace

/-- The instruction goes on as it was, and leaves nothing more behind. -/
structure Plain (c c' : Core) : Prop where
  pace : c'.pace = c.pace
  shadow : c'.shadow = c.shadow

theorem Plain.trans {c d e : Core} (h : c.Plain d) (h' : d.Plain e) : c.Plain e :=
  ⟨h'.pace.trans h.pace, h'.shadow.trans h.shadow⟩

/-- The instruction may have its timing chosen again, and leaves nothing more behind. -/
structure Turns (c c' : Core) (test : Prop) : Prop where
  pace : c.TurnsIf c' test
  shadow : c'.shadow = c.shadow

theorem Turns.imp {c c' : Core} {test test' : Prop} (h : c.Turns c' test) (himp : test → test') :
    c.Turns c' test' :=
  ⟨h.pace.imp id fun hmet => ⟨himp hmet.1, hmet.2⟩, h.shadow⟩

theorem Plain.turns {c c' : Core} (h : c.Plain c') (test : Prop) : c.Turns c' test :=
  ⟨Or.inl h.pace, h.shadow⟩

/-! ## Operands -/

theorem read8_under (source : Operand) : (c.under k).read8 source = c.read8 source := by
  cases source <;> rfl

theorem write8_under (v : Byte) (target : Operand) :
    (c.under k).write8 v target = (c.write8 v target).under k := by
  cases target <;> rfl

theorem plain_write8 (v : Byte) (target : Operand) :
    c.Plain (c.write8 v target) := by
  simp only [write8]
  repeat' split
  all_goals exact ⟨rfl, rfl⟩

theorem copyTo_under (v : Byte) (copy : Option Operand) :
    (c.under k).copyTo v copy = (c.copyTo v copy).under k := by
  simp only [copyTo]
  split <;> rfl

theorem plain_copyTo (v : Byte) (copy : Option Operand) :
    c.Plain (c.copyTo v copy) := by
  simp only [copyTo]
  repeat' split
  all_goals exact ⟨rfl, rfl⟩

/-! ## Loads, stack transfers and exchanges -/

theorem load_under (point : ExecPoint) (target source : Operand) :
    (c.under k).load point target source = (c.load point target source).under k := by
  simp only [load]
  split
  case h_13 =>
    split
    · rw [read8_under, write8_under]
    · rfl
  all_goals (try split) <;> rfl

theorem plain_load (point : ExecPoint) (target source : Operand) :
    c.Plain (c.load point target source) := by
  simp only [load]
  split
  case h_13 =>
    split
    · exact plain_write8 c _ _
    · exact ⟨rfl, rfl⟩
  all_goals (try split) <;> exact ⟨rfl, rfl⟩

theorem pushPair_under (point : ExecPoint) (first : Option Operand) :
    (c.under k).pushPair point first = (c.pushPair point first).under k := by
  simp only [pushPair]
  split <;> (try split) <;> rfl

theorem plain_pushPair (point : ExecPoint) (first : Option Operand) :
    c.Plain (c.pushPair point first) := by
  simp only [pushPair]
  repeat' split
  all_goals exact ⟨rfl, rfl⟩

theorem popPair_under (point : ExecPoint) (first : Option Operand) :
    (c.under k).popPair point first = (c.popPair point first).under k := by
  simp only [popPair]
  split <;> (try split) <;> rfl

theorem plain_popPair (point : ExecPoint) (first : Option Operand) :
    c.Plain (c.popPair point first) := by
  simp only [popPair]
  repeat' split
  all_goals exact ⟨rfl, rfl⟩

theorem exchange_under (point : ExecPoint) (first second : Option Operand) :
    (c.under k).exchange point first second = (c.exchange point first second).under k := by
  simp only [exchange]
  split <;> (repeat' split) <;> rfl

theorem plain_exchange (point : ExecPoint) (first second : Option Operand) :
    c.Plain (c.exchange point first second) := by
  simp only [exchange]
  repeat' split
  all_goals exact ⟨rfl, rfl⟩

/-! ## Arithmetic and logic -/

theorem alu8_under (mnemonic : Mnemonic) (point : ExecPoint) (source : Option Operand) :
    (c.under k).alu8 mnemonic point source = (c.alu8 mnemonic point source).under k := by
  cases source with
  | none => rfl
  | some source =>
    simp only [alu8, read8_under]
    repeat' split
    all_goals rfl

theorem plain_alu8 (mnemonic : Mnemonic) (point : ExecPoint) (source : Option Operand) :
    c.Plain (c.alu8 mnemonic point source) := by
  simp only [alu8]
  repeat' split
  all_goals exact ⟨rfl, rfl⟩

theorem alu16_under (mnemonic : Mnemonic) (point : ExecPoint) (target source : Reg16) :
    (c.under k).alu16 mnemonic point target source
      = (c.alu16 mnemonic point target source).under k := by
  simp only [alu16]
  split <;> rfl

theorem plain_alu16 (mnemonic : Mnemonic) (point : ExecPoint) (target source : Reg16) :
    c.Plain (c.alu16 mnemonic point target source) := by
  rw [alu16]
  repeat' split
  all_goals exact ⟨rfl, rfl⟩

theorem incDec_under (mnemonic : Mnemonic) (point : ExecPoint) (target : Option Operand) :
    (c.under k).incDec mnemonic point target = (c.incDec mnemonic point target).under k := by
  simp only [incDec]
  split <;> (try split) <;> rfl

theorem plain_incDec (mnemonic : Mnemonic) (point : ExecPoint) (target : Option Operand) :
    c.Plain (c.incDec mnemonic point target) := by
  simp only [incDec]
  repeat' split
  all_goals exact ⟨rfl, rfl⟩

theorem accumulator_under (mnemonic : Mnemonic) (point : ExecPoint) :
    (c.under k).accumulator mnemonic point = (c.accumulator mnemonic point).under k := by
  simp only [accumulator]
  rw [show (c.under k).regs = c.regs from rfl]
  split
  · cases accumulatorResult c.regs mnemonic <;> rfl
  · rfl

theorem plain_accumulator (mnemonic : Mnemonic) (point : ExecPoint) :
    c.Plain (c.accumulator mnemonic point) := by
  rw [accumulator]
  repeat' split
  all_goals exact ⟨rfl, rfl⟩

/-! ## Rotates, shifts and single bits -/

theorem shiftOperand_under (point : ExecPoint) (op : Shift) (first copy : Option Operand) :
    (c.under k).shiftOperand point op first copy
      = (c.shiftOperand point op first copy).under k := by
  unfold shiftOperand
  split
  · split <;> rfl
  · split
    · dsimp only
      rw [← copyTo_under]
      rfl
    · rfl
  · rfl

theorem plain_shiftOperand (point : ExecPoint) (op : Shift) (first copy : Option Operand) :
    c.Plain (c.shiftOperand point op first copy) := by
  simp only [shiftOperand]
  split
  · split <;> exact ⟨rfl, rfl⟩
  · split
    · exact ⟨(plain_copyTo _ _ _).pace, (plain_copyTo _ _ _).shadow⟩
    · exact ⟨rfl, rfl⟩
  · exact ⟨rfl, rfl⟩

theorem bitOperation_under (mnemonic : Mnemonic) (bit v xy : Byte) (target : Operand)
    (copy : Option Operand) :
    (c.under k).bitOperation mnemonic bit v xy target copy
      = (c.bitOperation mnemonic bit v xy target copy).under k := by
  unfold bitOperation
  split
  · rfl
  · dsimp only
    rw [write8_under, copyTo_under]

theorem plain_bitOperation (mnemonic : Mnemonic) (bit v xy : Byte) (target : Operand)
    (copy : Option Operand) :
    c.Plain (c.bitOperation mnemonic bit v xy target copy) := by
  rw [bitOperation]
  split
  · exact ⟨rfl, rfl⟩
  · exact (plain_write8 c _ _).trans (plain_copyTo _ _ _)

theorem bitOperand_under (mnemonic : Mnemonic) (point : ExecPoint)
    (first second copy : Option Operand) :
    (c.under k).bitOperand mnemonic point first second copy
      = (c.bitOperand mnemonic point first second copy).under k := by
  simp only [bitOperand]
  split
  · split
    · exact bitOperation_under c k _ _ _ _ _ _
    · rfl
  · split
    · exact bitOperation_under c k _ _ _ _ _ _
    · rfl
  · rfl

theorem plain_bitOperand (mnemonic : Mnemonic) (point : ExecPoint)
    (first second copy : Option Operand) :
    c.Plain (c.bitOperand mnemonic point first second copy) := by
  simp only [bitOperand]
  repeat' split
  all_goals first | exact ⟨rfl, rfl⟩ | exact plain_bitOperation c _ _ _ _ _ _

theorem rotateDigit_under (mnemonic : Mnemonic) (point : ExecPoint) :
    (c.under k).rotateDigit mnemonic point = (c.rotateDigit mnemonic point).under k := by
  simp only [rotateDigit]
  split
  · rfl
  · split <;> rfl

theorem plain_rotateDigit (mnemonic : Mnemonic) (point : ExecPoint) :
    c.Plain (c.rotateDigit mnemonic point) := by
  rw [rotateDigit]
  repeat' split
  all_goals exact ⟨rfl, rfl⟩

/-! ## Block instructions -/

theorem repeatWhile_under (mnemonic : Mnemonic) (more : Bool) :
    (c.under k).repeatWhile mnemonic more = (c.repeatWhile mnemonic more).under k := by
  simp only [repeatWhile, repeatBlock]
  repeat' split
  all_goals rfl

/-- A block instruction that repeats chooses its timing each time. -/
theorem turns_repeatWhile (mnemonic : Mnemonic) (more : Bool) :
    c.Turns (c.repeatWhile mnemonic more) (mnemonic.repeats = true) := by
  rw [repeatWhile, repeatBlock]
  split
  · next h =>
    refine ⟨Or.inr ⟨h, more, ?_⟩, ?_⟩ <;> dsimp only <;> split <;> rfl
  · exact ⟨Or.inl rfl, rfl⟩

/-- The points at which a repeating block instruction may choose its timing: after a cycle that both
    its timings have. -/
def MayRepeat (mnemonic : Mnemonic) (point : ExecPoint) : Prop :=
  mnemonic.repeats = true ∧ point ≠ .decoded ∧ point ≠ .after .internal

theorem blockLoad_under (mnemonic : Mnemonic) (point : ExecPoint) :
    (c.under k).blockLoad mnemonic point = (c.blockLoad mnemonic point).under k := by
  unfold blockLoad
  split
  · rfl
  split
  · rfl
  split
  · dsimp only
    rw [← repeatWhile_under]
    rfl
  · rfl

theorem turns_blockLoad (mnemonic : Mnemonic) (point : ExecPoint) :
    c.Turns (c.blockLoad mnemonic point) (MayRepeat mnemonic point) := by
  rw [blockLoad]
  split
  · exact ⟨Or.inl rfl, rfl⟩
  split
  · exact ⟨Or.inl rfl, rfl⟩
  split
  · next h =>
    exact ⟨(turns_repeatWhile _ mnemonic _).pace.imp id fun ht =>
      ⟨⟨ht.1, by simp [h], by simp [h]⟩, ht.2⟩, (turns_repeatWhile _ mnemonic _).shadow⟩
  · exact ⟨Or.inl rfl, rfl⟩

theorem blockCompare_under (mnemonic : Mnemonic) (point : ExecPoint) :
    (c.under k).blockCompare mnemonic point = (c.blockCompare mnemonic point).under k := by
  unfold blockCompare
  split
  · rfl
  split
  · dsimp only
    rw [← repeatWhile_under]
    rfl
  · rfl

theorem turns_blockCompare (mnemonic : Mnemonic) (point : ExecPoint) :
    c.Turns (c.blockCompare mnemonic point) (MayRepeat mnemonic point) := by
  rw [blockCompare]
  split
  · exact ⟨Or.inl rfl, rfl⟩
  split
  · next h =>
    exact ⟨(turns_repeatWhile _ mnemonic _).pace.imp id fun ht =>
      ⟨⟨ht.1, by simp [h], by simp [h]⟩, ht.2⟩, (turns_repeatWhile _ mnemonic _).shadow⟩
  · exact ⟨Or.inl rfl, rfl⟩

theorem blockIn_under (mnemonic : Mnemonic) (point : ExecPoint) :
    (c.under k).blockIn mnemonic point = (c.blockIn mnemonic point).under k := by
  simp only [blockIn]
  split
  · rfl
  split
  · rfl
  split
  · rw [← repeatWhile_under]
    rfl
  · rfl

theorem turns_blockIn (mnemonic : Mnemonic) (point : ExecPoint) :
    c.Turns (c.blockIn mnemonic point) (MayRepeat mnemonic point) := by
  rw [blockIn]
  split
  · exact ⟨Or.inl rfl, rfl⟩
  split
  · exact ⟨Or.inl rfl, rfl⟩
  split
  · next h =>
    exact ⟨(turns_repeatWhile _ mnemonic _).pace.imp id fun ht =>
      ⟨⟨ht.1, by simp [h], by simp [h]⟩, ht.2⟩, (turns_repeatWhile _ mnemonic _).shadow⟩
  · exact ⟨Or.inl rfl, rfl⟩

theorem blockOut_under (mnemonic : Mnemonic) (point : ExecPoint) :
    (c.under k).blockOut mnemonic point = (c.blockOut mnemonic point).under k := by
  simp only [blockOut]
  split
  · rfl
  split
  · rfl
  split
  · rw [← repeatWhile_under]
    rfl
  · rfl

theorem turns_blockOut (mnemonic : Mnemonic) (point : ExecPoint) :
    c.Turns (c.blockOut mnemonic point) (MayRepeat mnemonic point) := by
  rw [blockOut]
  split
  · exact ⟨Or.inl rfl, rfl⟩
  split
  · exact ⟨Or.inl rfl, rfl⟩
  split
  · next h =>
    exact ⟨(turns_repeatWhile _ mnemonic _).pace.imp id fun ht =>
      ⟨⟨ht.1, by simp [h], by simp [h]⟩, ht.2⟩, (turns_repeatWhile _ mnemonic _).shadow⟩
  · exact ⟨Or.inl rfl, rfl⟩

/-! ## Control transfers and interrupt control -/

theorem holds_under (first : Option Operand) : (c.under k).holds first = c.holds first := by
  simp only [holds]
  split <;> rfl

theorem jump_under (point : ExecPoint) (first : Option Operand) :
    (c.under k).jump point first = (c.jump point first).under k := by
  simp only [jump]
  split
  · split <;> rfl
  · rw [holds_under]
    repeat' split
    all_goals rfl

theorem plain_jump (point : ExecPoint) (first : Option Operand) :
    c.Plain (c.jump point first) := by
  simp only [jump]
  repeat' split
  all_goals exact ⟨rfl, rfl⟩

theorem jumpRelative_under (mnemonic : Mnemonic) (point : ExecPoint) (first : Option Operand) :
    (c.under k).jumpRelative mnemonic point first
      = (c.jumpRelative mnemonic point first).under k := by
  simp only [jumpRelative]
  rw [holds_under]
  split
  · split <;> rfl
  · change (if point = .after .operand ∧ c.conditionMet then _ else _) = _
    split <;> rfl

theorem turns_jumpRelative (mnemonic : Mnemonic) (point : ExecPoint) (first : Option Operand) :
    c.Turns (c.jumpRelative mnemonic point first) (point = .decoded) := by
  rw [jumpRelative]
  split
  · next h =>
    split
    · exact ⟨Or.inr ⟨h, _, rfl⟩, rfl⟩
    · exact ⟨Or.inr ⟨h, _, rfl⟩, rfl⟩
  · split <;> exact ⟨Or.inl rfl, rfl⟩

theorem call_under (point : ExecPoint) (first : Option Operand) :
    (c.under k).call point first = (c.call point first).under k := by
  simp only [call]
  rw [holds_under]
  repeat' split
  all_goals rfl

theorem turns_call (point : ExecPoint) (first : Option Operand) :
    c.Turns (c.call point first) (point = .decoded) := by
  rw [call]
  split
  · next h => exact ⟨Or.inr ⟨h, _, rfl⟩, rfl⟩
  · repeat' split
    all_goals exact ⟨Or.inl rfl, rfl⟩

theorem ret_under (mnemonic : Mnemonic) (point : ExecPoint) (first : Option Operand) :
    (c.under k).ret mnemonic point first = (c.ret mnemonic point first).under k := by
  simp only [ret]
  rw [holds_under]
  repeat' split
  all_goals rfl

theorem turns_ret (mnemonic : Mnemonic) (point : ExecPoint) (first : Option Operand) :
    c.Turns (c.ret mnemonic point first) (point = .decoded) := by
  rw [ret]
  split
  · next h => exact ⟨Or.inr ⟨h, _, rfl⟩, rfl⟩
  · repeat' split
    all_goals exact ⟨Or.inl rfl, rfl⟩

theorem restart_under (point : ExecPoint) (first : Option Operand) :
    (c.under k).restart point first = (c.restart point first).under k := by
  simp only [restart]
  repeat' split
  all_goals rfl

theorem plain_restart (point : ExecPoint) (first : Option Operand) :
    c.Plain (c.restart point first) := by
  simp only [restart]
  repeat' split
  all_goals exact ⟨rfl, rfl⟩

theorem setInterrupts_under (point : ExecPoint) (enable : Bool) :
    (c.under k).setInterrupts point enable = (c.setInterrupts point enable).under k := by
  simp only [setInterrupts]
  split <;> rfl

/-- DI lets interrupts in, and EI keeps them out for one more instruction. -/
theorem acts_setInterrupts (point : ExecPoint) (enable : Bool) :
    (c.setInterrupts point enable).pace = c.pace
      ∧ (c.setInterrupts point enable).shadow
        = if point = .decoded then (enable, c.shadow.2) else c.shadow := by
  rw [setInterrupts]
  split <;> exact ⟨rfl, rfl⟩

theorem setMode_under (point : ExecPoint) (first : Option Operand) :
    (c.under k).setMode point first = (c.setMode point first).under k := by
  simp only [setMode]
  repeat' split
  all_goals rfl

theorem plain_setMode (point : ExecPoint) (first : Option Operand) :
    c.Plain (c.setMode point first) := by
  simp only [setMode]
  repeat' split
  all_goals exact ⟨rfl, rfl⟩

theorem interruptEntry_under (mnemonic : Mnemonic) (point : ExecPoint) (vectored : Bool) :
    (c.under k).interruptEntry mnemonic point vectored
      = (c.interruptEntry mnemonic point vectored).under k := by
  simp only [interruptEntry]
  split
  · cases vectored <;> rfl
  repeat' split
  all_goals rfl

theorem plain_interruptEntry (mnemonic : Mnemonic) (point : ExecPoint) (vectored : Bool) :
    c.Plain (c.interruptEntry mnemonic point vectored) := by
  rw [interruptEntry]
  split
  · cases vectored <;> exact ⟨rfl, rfl⟩
  repeat' split
  all_goals exact ⟨rfl, rfl⟩

/-! ## Ports -/

theorem portIn_under (point : ExecPoint) (first second : Option Operand) :
    (c.under k).portIn point first second = (c.portIn point first second).under k := by
  simp only [portIn]
  split
  · repeat' split
    · rfl
    · exact write8_under c k _ _
    · rfl
  · repeat' split
    · rfl
    · rw [show (c.under k).latches.dataLow = c.latches.dataLow from rfl, copyTo_under]
      rfl
    · rfl
  · rfl

theorem plain_portIn (point : ExecPoint) (first second : Option Operand) :
    c.Plain (c.portIn point first second) := by
  simp only [portIn]
  split
  · repeat' split
    · exact ⟨rfl, rfl⟩
    · exact plain_write8 c _ _
    · exact ⟨rfl, rfl⟩
  · repeat' split
    · exact ⟨rfl, rfl⟩
    · exact (plain_copyTo c _ _).trans ⟨rfl, rfl⟩
    · exact ⟨rfl, rfl⟩
  · exact ⟨rfl, rfl⟩

theorem portOut_under (point : ExecPoint) (first second : Option Operand) :
    (c.under k).portOut point first second = (c.portOut point first second).under k := by
  simp only [portOut]
  simp only [read8_under]
  repeat' split
  all_goals rfl

theorem plain_portOut (point : ExecPoint) (first second : Option Operand) :
    c.Plain (c.portOut point first second) := by
  simp only [portOut]
  repeat' split
  all_goals exact ⟨rfl, rfl⟩

/-! ## Any instruction -/

theorem addressOperand_under (code : Instruction) :
    (c.under k).addressOperand code = (c.addressOperand code).under k := by
  simp only [addressOperand]
  split <;> rfl

theorem plain_addressOperand (code : Instruction) :
    c.Plain (c.addressOperand code) := by
  rw [addressOperand]
  repeat' split
  all_goals exact ⟨rfl, rfl⟩

/-- What a call does, it does as a call. -/
theorem act_call {code : Instruction} (hm : code.mnemonic = .call) (point : ExecPoint) :
    c.act code point = c.call point code.operands[0]? := by
  unfold act
  rw [hm]

/-- An instruction acts on the datapath alone. -/
theorem act_under (code : Instruction) (point : ExecPoint) :
    (c.under k).act code point = (c.act code point).under k := by
  simp only [act]
  cases code.mnemonic <;> simp only []
  case ld =>
    split
    · exact load_under c k _ _ _
    · rfl
  case push => exact pushPair_under c k _ _
  case pop => exact popPair_under c k _ _
  case ex => exact exchange_under c k _ _ _
  case exx => split <;> rfl
  case input => exact portIn_under c k _ _ _
  case output => exact portOut_under c k _ _ _
  case rlc | rrc | rl | rr | sla | sra | sll | srl => exact shiftOperand_under c k _ _ _ _
  case bit | res | set => exact bitOperand_under c k _ _ _ _ _
  case rrd | rld => exact rotateDigit_under c k _ _
  case ldi | ldd | ldir | lddr => exact blockLoad_under c k _ _
  case cpi | cpd | cpir | cpdr => exact blockCompare_under c k _ _
  case ini | ind | inir | indr => exact blockIn_under c k _ _
  case outi | outd | otir | otdr => exact blockOut_under c k _ _
  case nmi | int => exact interruptEntry_under c k _ _ _
  case jp => exact jump_under c k _ _
  case jr | djnz => exact jumpRelative_under c k _ _ _
  case call => exact call_under c k _ _
  case ret | reti | retn => exact ret_under c k _ _ _
  case rst => exact restart_under c k _ _
  case im => exact setMode_under c k _ _
  case di | ei => exact setInterrupts_under c k _ _
  case inc | dec => exact incDec_under c k _ _ _
  case sub | and | xor | or | cp => exact alu8_under c k _ _ _
  case add | adc | sbc =>
    split
    · split
      · exact alu16_under c k _ _ _ _
      · rfl
    · exact alu8_under c k _ _ _
  case halt => split <;> rfl
  case rlca | rrca | rla | rra | daa | cpl | scf | ccf | neg => exact accumulator_under c k _ _

/-- What is left behind when an instruction of this mnemonic acts. -/
def leaveBehind (mnemonic : Mnemonic) (point : ExecPoint) (shadow : Bool × Bool × Level) :
    Bool × Bool × Level :=
  match mnemonic with
  | .halt => if point = .decoded then (shadow.1, true, .asserted) else shadow
  | .di => if point = .decoded then (false, shadow.2) else shadow
  | .ei => if point = .decoded then (true, shadow.2) else shadow
  | _ => shadow

/-- An instruction that acts may have its timing chosen again, and leaves behind what its mnemonic
    tells. -/
structure Acts (c c' : Core) (mnemonic : Mnemonic) (point : ExecPoint) : Prop where
  pace : c.TurnsIf c' (point = .decoded ∨ MayRepeat mnemonic point)
  shadow : c'.shadow = leaveBehind mnemonic point c.shadow

/-- What the families say, for any mnemonic. -/
theorem acts_act (code : Instruction) (point : ExecPoint) :
    c.Acts (c.act code point) code.mnemonic point := by
  have block {c' : Core} (h : c.Turns c' (MayRepeat code.mnemonic point)) :
      c.Turns c' (point = .decoded ∨ MayRepeat code.mnemonic point) := h.imp Or.inr
  have transfer {c' : Core} (h : c.Turns c' (point = .decoded)) :
      c.Turns c' (point = .decoded ∨ MayRepeat code.mnemonic point) := h.imp Or.inl
  -- what neither stops nor sets up interrupts casts no shadow
  have quiet {c' : Core} (h : c.Turns c' (point = .decoded ∨ MayRepeat code.mnemonic point))
      (hnone : leaveBehind code.mnemonic point c.shadow = c.shadow) :
      c.Acts c' code.mnemonic point :=
    ⟨h.pace, h.shadow.trans hnone.symm⟩
  rw [act]
  cases hm : code.mnemonic <;> simp only [] <;> rw [hm] at block transfer quiet
  case halt =>
    refine ⟨Or.inl ?_, ?_⟩
    · split <;> rfl
    · rw [leaveBehind]
      split <;> rfl
  case di =>
    obtain ⟨hpace, hshadow⟩ := acts_setInterrupts c point false
    exact ⟨Or.inl hpace, hshadow⟩
  case ei =>
    obtain ⟨hpace, hshadow⟩ := acts_setInterrupts c point true
    exact ⟨Or.inl hpace, hshadow⟩
  all_goals refine quiet ?_ rfl
  case jr | djnz => exact transfer (turns_jumpRelative c _ _ _)
  case call => exact transfer (turns_call c _ _)
  case ret | reti | retn => exact transfer (turns_ret c _ _ _)
  case ldi | ldd | ldir | lddr => exact block (turns_blockLoad c _ _)
  case cpi | cpd | cpir | cpdr => exact block (turns_blockCompare c _ _)
  case ini | ind | inir | indr => exact block (turns_blockIn c _ _)
  case outi | outd | otir | otdr => exact block (turns_blockOut c _ _)
  all_goals refine Plain.turns ?_ _
  case ld =>
    split
    · exact plain_load c _ _ _
    · exact ⟨rfl, rfl⟩
  case exx => split <;> exact ⟨rfl, rfl⟩
  case add | adc | sbc =>
    repeat' split
    · exact plain_alu16 c _ _ _ _
    · exact ⟨rfl, rfl⟩
    · exact plain_alu8 c _ _ _
  case nmi | int => exact plain_interruptEntry c _ _ _
  case push => exact plain_pushPair c _ _
  case pop => exact plain_popPair c _ _
  case ex => exact plain_exchange c _ _ _
  case input => exact plain_portIn c _ _ _
  case output => exact plain_portOut c _ _ _
  case rlc | rrc | rl | rr | sla | sra | sll | srl => exact plain_shiftOperand c _ _ _ _
  case bit | res | set => exact plain_bitOperand c _ _ _ _ _
  case rrd | rld => exact plain_rotateDigit c _ _
  case jp => exact plain_jump c _ _
  case rst => exact plain_restart c _ _
  case im => exact plain_setMode c _ _
  case inc | dec => exact plain_incDec c _ _ _
  case sub | and | xor | or | cp => exact plain_alu8 c _ _ _
  case rlca | rrca | rla | rra | daa | cpl | scf | ccf | neg => exact plain_accumulator c _ _
  case nop | haltNop => exact ⟨rfl, rfl⟩

/-- The current instruction acts on the datapath alone. -/
theorem execute_under (point : ExecPoint) :
    (c.under k).execute point = (c.execute point).under k := by
  simp only [execute]
  rw [show (c.under k).instruction = c.instruction from rfl]
  cases c.instruction with
  | none => rfl
  | some code =>
    dsimp only
    split
    · rw [addressOperand_under, act_under]
    · exact act_under c k code point

/-- Acting leaves the control as it was. -/
theorem control_execute (point : ExecPoint) : c.execute point = (c.execute point).under c := by
  rw [← execute_under, under_self]

/-- The current instruction acts as its mnemonic tells. -/
theorem acts_execute {code : Instruction} (h : c.instruction = some code) (point : ExecPoint) :
    c.Acts (c.execute point) code.mnemonic point := by
  rw [execute]
  rw [h]
  dsimp only
  split
  · have hplain := plain_addressOperand c code
    obtain ⟨hturns, hshadow⟩ := acts_act (c.addressOperand code) code point
    constructor
    · rcases hturns with hturn | ⟨htest, met, hturn⟩
      · exact Or.inl (hturn.trans hplain.pace)
      · refine Or.inr ⟨htest, met, hturn.trans ?_⟩
        rw [addressOperand]
        split <;> rfl
    · rw [hshadow, hplain.shadow]
  · exact acts_act c code point

/-- The instruction goes on as it was.  Only at decode, and for a repeating block instruction after
    a cycle on the buses, may its timing be chosen again. -/
theorem turns_execute {code : Instruction} (h : c.instruction = some code) (point : ExecPoint) :
    c.TurnsIf (c.execute point) (point = .decoded ∨ MayRepeat code.mnemonic point) :=
  (acts_execute c h point).pace

end Z80Board.Core
