import Z80Board.Chip.Execute

/-! # What an instruction makes of the latches

    The latches hold bytes and addresses on their way between a cycle and the registers.  Nothing
    ever clears them, so at any time some are stale.  An instruction at a given point needs some of
    them and fills others.  Acting, it does the same whatever is in those that it does not need, and
    leaves the same in those that it needs or fills. -/

namespace Z80Board

/-! ## Filled and stale latches -/

/-- Latches that the instruction in progress has filled. -/
structure Filled where
  fetched : Bool := false
  addr : Bool := false
  port : Bool := false
  immLow : Bool := false
  immHigh : Bool := false
  dataLow : Bool := false
  dataHigh : Bool := false
  outLow : Bool := false
  outHigh : Bool := false
deriving DecidableEq, Repr

namespace Filled

/-- The latches of either set. -/
def union (s t : Filled) : Filled :=
  { fetched := s.fetched || t.fetched
    addr := s.addr || t.addr
    port := s.port || t.port
    immLow := s.immLow || t.immLow
    immHigh := s.immHigh || t.immHigh
    dataLow := s.dataLow || t.dataLow
    dataHigh := s.dataHigh || t.dataHigh
    outLow := s.outLow || t.outLow
    outHigh := s.outHigh || t.outHigh }

instance : Union Filled := ⟨union⟩

end Filled

/-- The latches with what is stale among them replaced. -/
def Latches.patched (own : Latches) (filled : Filled) (stale : Latches) : Latches :=
  { fetched := bif filled.fetched then own.fetched else stale.fetched
    addr := bif filled.addr then own.addr else stale.addr
    port := bif filled.port then own.port else stale.port
    immLow := bif filled.immLow then own.immLow else stale.immLow
    immHigh := bif filled.immHigh then own.immHigh else stale.immHigh
    dataLow := bif filled.dataLow then own.dataLow else stale.dataLow
    dataHigh := bif filled.dataHigh then own.dataHigh else stale.dataHigh
    outLow := bif filled.outLow then own.outLow else stale.outLow
    outHigh := bif filled.outHigh then own.outHigh else stale.outHigh }

/-! ## What acting reads and fills -/

/-- The latch that holds a byte operand. -/
def Operand.content : Operand → Filled
  | .reg8 _ | .zero => {}
  | .immediate8 => { immLow := true }
  | _ => { dataLow := true }

/-- The latch that takes a byte on its way to an operand. -/
def Operand.outlet : Operand → Filled
  | .reg8 _ => {}
  | _ => { outLow := true }

/-- The latches that a point makes ready for whatever instruction acts there. -/
def ExecPoint.brings : ExecPoint → Filled
  | .after .operand => { immLow := true }
  | .after .operandHigh => { immLow := true, immHigh := true }
  | .after .memoryRead => { addr := true, dataLow := true }
  | .after .memoryReadHigh => { addr := true, dataLow := true, dataHigh := true }
  | .after .stackReadHigh => { dataLow := true, dataHigh := true }
  | .after .portRead => { dataLow := true }
  | _ => {}

/-- The latches that an instruction needs at a point, and those that it fills there. -/
structure Demand where
  needs : Filled := {}
  fills : Filled := {}

/-- Both bytes of a word that goes out. -/
def Filled.outWord : Filled := { outLow := true, outHigh := true }

namespace Demand

/-- LD. -/
def load (point : ExecPoint) : Operand → Operand → Demand
  | .reg16 _, .immediate16 => ⟨point.brings, {}⟩
  | .reg16 _, .absolute => ⟨point.brings, {}⟩
  | .absolute, .reg16 _ =>
    if point = .after .operandHigh then ⟨{ addr := true }, .outWord⟩ else {}
  | .reg16 _, .reg16 _ => {}
  | .reg8 .a, .reg8 .i => {}
  | .reg8 .a, .reg8 .r => {}
  | .absolute, .reg8 .a =>
    if point = .after .operandHigh then ⟨{ addr := true }, { outLow := true }⟩ else {}
  | .indirect .bc, .reg8 .a =>
    if point = .decoded then ⟨{ addr := true }, { outLow := true }⟩ else {}
  | .indirect .de, .reg8 .a =>
    if point = .decoded then ⟨{ addr := true }, { outLow := true }⟩ else {}
  | .reg8 .a, .absolute => ⟨point.brings, {}⟩
  | .reg8 .a, .indirect .bc => ⟨point.brings, {}⟩
  | .reg8 .a, .indirect .de => ⟨point.brings, {}⟩
  | target, source => if point = source.readyAt then ⟨source.content, target.outlet⟩ else {}

/-- A byte operand is used. -/
def read (point : ExecPoint) : Option Operand → Demand
  | some source => if point = source.readyAt then ⟨source.content, {}⟩ else {}
  | none => {}

/-- An operand is changed where it stands. -/
def change (point : ExecPoint) : Option Operand → Demand
  | some (.reg8 _) | none => {}
  | some _ =>
    if point = .after .memoryRead then ⟨{ dataLow := true }, { outLow := true }⟩ else {}

/-- INC and DEC. -/
def step (point : ExecPoint) : Option Operand → Demand
  | some (.reg16 _) => {}
  | first => change point first

/-- PUSH. -/
def push (point : ExecPoint) : Option Operand → Demand
  | some (.reg16 _) => if point = .decoded then ⟨{}, .outWord⟩ else {}
  | _ => {}

/-- EX. -/
def exchange (point : ExecPoint) : Option Operand → Option Operand → Demand
  | some (.reg16 .de), some (.reg16 .hl) => {}
  | some (.reg16 .af), _ => {}
  | some (.indirect .sp), some (.reg16 _) =>
    if point = .after .stackReadHigh then ⟨{}, .outWord⟩
    else if point = .after .stackWriteLow then ⟨{ dataLow := true, dataHigh := true }, {}⟩
    else {}
  | _, _ => {}

/-- BIT, RES and SET. -/
def bit (mnemonic : Mnemonic) (point : ExecPoint) : Option Operand → Option Operand → Demand
  | some (.bit _), some (.reg8 _) => {}
  | some (.bit _), some target =>
    if point = .after .memoryRead then
      ⟨{ dataLow := true }, if mnemonic = .bit then {} else target.outlet⟩
    else {}
  | _, _ => {}

/-- RRD and RLD. -/
def digit (point : ExecPoint) : Demand :=
  if point = .decoded then ⟨{}, { addr := true }⟩
  else if point = .after .memoryRead then
    ⟨{ addr := true, dataLow := true }, { outLow := true }⟩
  else {}

/-- LDI and its kind. -/
def blockLoad (point : ExecPoint) : Demand :=
  if point = .decoded then ⟨{}, { addr := true }⟩
  else if point = .after .memoryRead then
    ⟨{ dataLow := true }, { addr := true, outLow := true }⟩
  else if point = .after .memoryWrite then ⟨{ dataLow := true }, {}⟩
  else {}

/-- CPI and its kind. -/
def blockCompare (point : ExecPoint) : Demand :=
  if point = .decoded then ⟨{}, { addr := true }⟩ else ⟨point.brings, {}⟩

/-- INI and its kind. -/
def blockIn (point : ExecPoint) : Demand :=
  if point = .decoded then ⟨{}, { port := true }⟩
  else if point = .after .portRead then
    ⟨{ dataLow := true }, { addr := true, outLow := true }⟩
  else {}

/-- OUTI and its kind. -/
def blockOut (point : ExecPoint) : Demand :=
  if point = .decoded then ⟨{}, { addr := true }⟩
  else if point = .after .memoryRead then
    ⟨{ dataLow := true }, { port := true, outLow := true }⟩
  else {}

/-- CALL. -/
def call (point : ExecPoint) : Demand :=
  if point = .after .operandHigh then ⟨point.brings, .outWord⟩ else {}

/-- RST. -/
def restart (point : ExecPoint) : Demand :=
  if point = .decoded then ⟨{}, .outWord⟩ else {}

/-- The entry of an interrupt. -/
def interrupt (point : ExecPoint) (vectored : Bool) : Demand :=
  if point = .decoded then
    if vectored then ⟨{ fetched := true }, { Filled.outWord with addr := true }⟩
    else ⟨{}, .outWord⟩
  else ⟨point.brings, {}⟩

/-- IN. -/
def portIn (point : ExecPoint) : Option Operand → Option Operand → Demand
  | some target, some .port =>
    if point = .after .operand then ⟨point.brings, { port := true }⟩
    else if point = .after .portRead then ⟨point.brings, target.outlet⟩
    else {}
  | some _, some .portC =>
    if point = .decoded then ⟨{}, { port := true }⟩ else ⟨point.brings, {}⟩
  | _, _ => {}

/-- OUT. -/
def portOut (point : ExecPoint) : Option Operand → Option Operand → Demand
  | some .port, some _ =>
    if point = .after .operand then ⟨point.brings, { port := true, outLow := true }⟩ else {}
  | some .portC, some source =>
    if point = .decoded then ⟨source.content, { port := true, outLow := true }⟩ else {}
  | _, _ => {}

/-- An instruction, by its mnemonic and operands. -/
def act (mnemonic : Mnemonic) (operands : List Operand) (point : ExecPoint) : Demand :=
  let first := operands[0]?
  let second := operands[1]?
  match mnemonic with
  | .ld =>
    match first, second with
    | some target, some source => load point target source
    | _, _ => {}
  | .push => push point first
  | .pop | .jp | .jr | .djnz | .ret | .reti | .retn => ⟨point.brings, {}⟩
  | .ex => exchange point first second
  | .add | .adc | .sbc =>
    match first with
    | some (.reg16 _) => {}
    | _ => read point operands.getLast?
  | .sub | .and | .xor | .or | .cp => read point operands.getLast?
  | .inc | .dec => step point first
  | .call => call point
  | .rst => restart point
  | .input => portIn point first second
  | .output => portOut point first second
  | .rlc | .rrc | .rl | .rr | .sla | .sra | .sll | .srl => change point first
  | .bit | .res | .set => bit mnemonic point first second
  | .rrd | .rld => digit point
  | .ldi | .ldd | .ldir | .lddr => blockLoad point
  | .cpi | .cpd | .cpir | .cpdr => blockCompare point
  | .ini | .ind | .inir | .indr => blockIn point
  | .outi | .outd | .otir | .otdr => blockOut point
  | .nmi | .int => interrupt point (operands.contains (.mode 2))
  | _ => {}

end Demand

namespace Core

variable (c : Core) (filled : Filled) (stale : Latches)

/-- The chip with what is stale in its latches replaced. -/
def staled (c : Core) (filled : Filled) (stale : Latches) : Core :=
  { c with latches := c.latches.patched filled stale }

theorem read8_staled (source : Operand) :
    (c.staled (source.content ∪ filled) stale).read8 source = c.read8 source := by
  cases source <;> rfl

theorem write8_staled (v : Byte) (target : Operand) :
    (c.staled filled stale).write8 v target
      = (c.write8 v target).staled (target.outlet ∪ filled) stale := by
  cases target <;> rfl

theorem load_staled (point : ExecPoint) (target source : Operand) :
    (c.staled ((Demand.load point target source).needs ∪ filled) stale).load point target source
      = (c.load point target source).staled
        ((Demand.load point target source).fills
          ∪ ((Demand.load point target source).needs ∪ filled)) stale := by
  simp only [load]
  split
  case h_13 =>
    rw [Demand.load]
    · split
      · next hready =>
        rw [read8_staled, write8_staled]
      · rfl
    all_goals assumption
  all_goals
    simp only [Demand.load]
    split
    · next hpoint => subst hpoint; rfl
    · rfl

theorem alu8_staled (mnemonic : Mnemonic) (point : ExecPoint) (source : Option Operand) :
    (c.staled ((Demand.read point source).needs ∪ filled) stale).alu8 mnemonic point source
      = (c.alu8 mnemonic point source).staled
        ((Demand.read point source).fills ∪ ((Demand.read point source).needs ∪ filled)) stale := by
  cases source with
  | none => rfl
  | some source =>
    simp only [alu8, Demand.read]
    split
    · rw [read8_staled]
      split <;> rfl
    · rfl

theorem incDec_staled (mnemonic : Mnemonic) (point : ExecPoint) (first : Option Operand) :
    (c.staled ((Demand.step point first).needs ∪ filled) stale).incDec mnemonic point first
      = (c.incDec mnemonic point first).staled
        ((Demand.step point first).fills ∪ ((Demand.step point first).needs ∪ filled)) stale := by
  cases first with
  | none => rfl
  | some first =>
    cases first <;> simp only [incDec, Demand.step, Demand.change] <;> split <;> rfl

theorem copyTo_staled (v : Byte) (copy : Option Operand) :
    (c.staled filled stale).copyTo v copy = (c.copyTo v copy).staled filled stale := by
  simp only [copyTo]
  split <;> rfl

theorem shiftOperand_staled (point : ExecPoint) (op : Shift) (first copy : Option Operand) :
    (c.staled ((Demand.change point first).needs ∪ filled) stale).shiftOperand point op first copy
      = (c.shiftOperand point op first copy).staled
        ((Demand.change point first).fills ∪ ((Demand.change point first).needs ∪ filled))
        stale := by
  cases first with
  | none => rfl
  | some first =>
    cases first <;> simp only [shiftOperand, Demand.change] <;> split
    all_goals first | rfl | (rw [← copyTo_staled]; rfl)

theorem alu16_staled (mnemonic : Mnemonic) (point : ExecPoint) (target source : Reg16) :
    (c.staled filled stale).alu16 mnemonic point target source
      = (c.alu16 mnemonic point target source).staled filled stale := by
  simp only [alu16]
  split <;> rfl

theorem accumulator_staled (mnemonic : Mnemonic) (point : ExecPoint) :
    (c.staled filled stale).accumulator mnemonic point
      = (c.accumulator mnemonic point).staled filled stale := by
  simp only [accumulator]
  rw [show (c.staled filled stale).regs = c.regs from rfl]
  split
  · split <;> rfl
  · rfl

theorem pushPair_staled (point : ExecPoint) (first : Option Operand) :
    (c.staled ((Demand.push point first).needs ∪ filled) stale).pushPair point first
      = (c.pushPair point first).staled
        ((Demand.push point first).fills ∪ ((Demand.push point first).needs ∪ filled)) stale := by
  cases first with
  | none => rfl
  | some first =>
    cases first
    case reg16 =>
      simp only [pushPair, Demand.push]
      split <;> rfl
    all_goals rfl

theorem popPair_staled (point : ExecPoint) (first : Option Operand) :
    (c.staled (point.brings ∪ filled) stale).popPair point first
      = (c.popPair point first).staled (point.brings ∪ filled) stale := by
  simp only [popPair]
  split
  · split
    · next hpoint => subst hpoint; rfl
    · rfl
  · rfl

theorem exchange_staled (point : ExecPoint) (first second : Option Operand) :
    (c.staled ((Demand.exchange point first second).needs ∪ filled) stale).exchange point first
        second
      = (c.exchange point first second).staled
        ((Demand.exchange point first second).fills
          ∪ ((Demand.exchange point first second).needs ∪ filled)) stale := by
  simp only [exchange]
  split
  case h_4 =>
    rw [Demand.exchange]
    · rfl
    all_goals assumption
  case h_3 =>
    simp only [Demand.exchange]
    repeat' split
    all_goals rfl
  all_goals
    simp only [Demand.exchange]
    split <;> rfl

theorem bitOperation_staled (mnemonic : Mnemonic) (bit v xy : Byte) (target : Operand)
    (copy : Option Operand) :
    (c.staled filled stale).bitOperation mnemonic bit v xy target copy
      = (c.bitOperation mnemonic bit v xy target copy).staled
        ((if mnemonic = .bit then {} else target.outlet) ∪ filled) stale := by
  simp only [bitOperation]
  split
  · rfl
  · rw [write8_staled, copyTo_staled]

theorem bitOperand_staled (mnemonic : Mnemonic) (point : ExecPoint)
    (first second copy : Option Operand) :
    (c.staled ((Demand.bit mnemonic point first second).needs ∪ filled) stale).bitOperand mnemonic
        point first second copy
      = (c.bitOperand mnemonic point first second copy).staled
        ((Demand.bit mnemonic point first second).fills
          ∪ ((Demand.bit mnemonic point first second).needs ∪ filled)) stale := by
  simp only [bitOperand]
  split
  case h_1 =>
    split
    · exact (bitOperation_staled ..).trans (by rw [Operand.outlet, ite_self]; rfl)
    · rfl
  case h_2 =>
    rw [Demand.bit]
    · split
      · exact bitOperation_staled ..
      · rfl
    all_goals assumption
  case h_3 =>
    rw [Demand.bit]
    · rfl
    all_goals assumption

theorem rotateDigit_staled (mnemonic : Mnemonic) (point : ExecPoint) :
    (c.staled ((Demand.digit point).needs ∪ filled) stale).rotateDigit mnemonic point
      = (c.rotateDigit mnemonic point).staled
        ((Demand.digit point).fills ∪ ((Demand.digit point).needs ∪ filled)) stale := by
  simp only [rotateDigit, Demand.digit]
  repeat' split
  all_goals rfl

theorem repeatWhile_staled (mnemonic : Mnemonic) (more : Bool) :
    (c.staled filled stale).repeatWhile mnemonic more
      = (c.repeatWhile mnemonic more).staled filled stale := by
  simp only [repeatWhile, repeatBlock]
  repeat' split
  all_goals rfl

theorem blockLoad_staled (mnemonic : Mnemonic) (point : ExecPoint) :
    (c.staled ((Demand.blockLoad point).needs ∪ filled) stale).blockLoad mnemonic point
      = (c.blockLoad mnemonic point).staled
        ((Demand.blockLoad point).fills ∪ ((Demand.blockLoad point).needs ∪ filled)) stale := by
  simp only [blockLoad, Demand.blockLoad]
  repeat' split
  case isTrue => rfl
  case isTrue => rfl
  case isTrue =>
    rw [← repeatWhile_staled]
    rfl
  case isFalse => rfl

theorem blockCompare_staled (mnemonic : Mnemonic) (point : ExecPoint) :
    (c.staled ((Demand.blockCompare point).needs ∪ filled) stale).blockCompare mnemonic point
      = (c.blockCompare mnemonic point).staled
        ((Demand.blockCompare point).fills ∪ ((Demand.blockCompare point).needs ∪ filled))
        stale := by
  simp only [blockCompare, Demand.blockCompare]
  split
  · rfl
  split
  · next hpoint =>
    subst hpoint
    rw [← repeatWhile_staled]
    rfl
  · rfl

theorem blockIn_staled (mnemonic : Mnemonic) (point : ExecPoint) :
    (c.staled ((Demand.blockIn point).needs ∪ filled) stale).blockIn mnemonic point
      = (c.blockIn mnemonic point).staled
        ((Demand.blockIn point).fills ∪ ((Demand.blockIn point).needs ∪ filled)) stale := by
  simp only [blockIn, Demand.blockIn]
  split
  · rfl
  split
  · rfl
  split
  · rw [← repeatWhile_staled]
    rfl
  · rfl

theorem blockOut_staled (mnemonic : Mnemonic) (point : ExecPoint) :
    (c.staled ((Demand.blockOut point).needs ∪ filled) stale).blockOut mnemonic point
      = (c.blockOut mnemonic point).staled
        ((Demand.blockOut point).fills ∪ ((Demand.blockOut point).needs ∪ filled)) stale := by
  simp only [blockOut, Demand.blockOut]
  split
  · rfl
  split
  · rfl
  split
  · rw [← repeatWhile_staled]
    rfl
  · rfl

theorem holds_staled (first : Option Operand) :
    (c.staled filled stale).holds first = c.holds first := by
  simp only [holds]
  split <;> rfl

theorem jump_staled (point : ExecPoint) (first : Option Operand) :
    (c.staled (point.brings ∪ filled) stale).jump point first
      = (c.jump point first).staled (point.brings ∪ filled) stale := by
  simp only [jump]
  split
  · split <;> rfl
  split
  · next hpoint =>
    subst hpoint
    rw [holds_staled]
    split <;> rfl
  · rfl

theorem jumpRelative_staled (mnemonic : Mnemonic) (point : ExecPoint) (first : Option Operand) :
    (c.staled (point.brings ∪ filled) stale).jumpRelative mnemonic point first
      = (c.jumpRelative mnemonic point first).staled (point.brings ∪ filled) stale := by
  simp only [jumpRelative]
  rw [holds_staled]
  split
  · split <;> rfl
  · rw [show (c.staled (point.brings ∪ filled) stale).conditionMet = c.conditionMet from rfl]
    split
    · next htest =>
      obtain ⟨rfl, -⟩ := htest
      rfl
    · rfl

theorem call_staled (point : ExecPoint) (first : Option Operand) :
    (c.staled ((Demand.call point).needs ∪ filled) stale).call point first
      = (c.call point first).staled
        ((Demand.call point).fills ∪ ((Demand.call point).needs ∪ filled)) stale := by
  simp only [call, Demand.call]
  rw [holds_staled]
  split
  · next hpoint =>
    subst hpoint
    rfl
  split
  · next hpoint =>
    subst hpoint
    rfl
  split <;> rfl

theorem ret_staled (mnemonic : Mnemonic) (point : ExecPoint) (first : Option Operand) :
    (c.staled (point.brings ∪ filled) stale).ret mnemonic point first
      = (c.ret mnemonic point first).staled (point.brings ∪ filled) stale := by
  simp only [ret]
  rw [holds_staled]
  split
  · rfl
  split
  · next hpoint =>
    subst hpoint
    split <;> rfl
  · rfl

theorem restart_staled (point : ExecPoint) (first : Option Operand) :
    (c.staled ((Demand.restart point).needs ∪ filled) stale).restart point first
      = (c.restart point first).staled
        ((Demand.restart point).fills ∪ ((Demand.restart point).needs ∪ filled)) stale := by
  simp only [restart, Demand.restart]
  repeat' split
  all_goals rfl

theorem setInterrupts_staled (point : ExecPoint) (enable : Bool) :
    (c.staled filled stale).setInterrupts point enable
      = (c.setInterrupts point enable).staled filled stale := by
  simp only [setInterrupts]
  split <;> rfl

theorem setMode_staled (point : ExecPoint) (first : Option Operand) :
    (c.staled filled stale).setMode point first = (c.setMode point first).staled filled stale := by
  simp only [setMode]
  repeat' split
  all_goals rfl

theorem interruptEntry_staled (mnemonic : Mnemonic) (point : ExecPoint) (vectored : Bool) :
    (c.staled ((Demand.interrupt point vectored).needs ∪ filled) stale).interruptEntry mnemonic
        point vectored
      = (c.interruptEntry mnemonic point vectored).staled
        ((Demand.interrupt point vectored).fills
          ∪ ((Demand.interrupt point vectored).needs ∪ filled)) stale := by
  simp only [interruptEntry, Demand.interrupt]
  split
  · cases vectored <;> rfl
  split
  · rfl
  split
  · next hpoint =>
    subst hpoint
    rfl
  · rfl

theorem portIn_staled (point : ExecPoint) (first second : Option Operand) :
    (c.staled ((Demand.portIn point first second).needs ∪ filled) stale).portIn point first second
      = (c.portIn point first second).staled
        ((Demand.portIn point first second).fills
          ∪ ((Demand.portIn point first second).needs ∪ filled)) stale := by
  simp only [portIn]
  split
  case h_1 =>
    simp only [Demand.portIn]
    split
    · next hpoint =>
      subst hpoint
      rfl
    split
    · next hpoint =>
      subst hpoint
      exact write8_staled ..
    · rfl
  case h_2 =>
    simp only [Demand.portIn]
    split
    · rfl
    split
    · next hpoint =>
      subst hpoint
      rw [show (c.staled _ stale).latches.dataLow = c.latches.dataLow from rfl, copyTo_staled]
      rfl
    · rfl
  case h_3 =>
    rw [Demand.portIn]
    · rfl
    all_goals assumption

theorem portOut_staled (point : ExecPoint) (first second : Option Operand) :
    (c.staled ((Demand.portOut point first second).needs ∪ filled) stale).portOut point first second
      = (c.portOut point first second).staled
        ((Demand.portOut point first second).fills
          ∪ ((Demand.portOut point first second).needs ∪ filled)) stale := by
  simp only [portOut]
  split
  case h_1 =>
    simp only [Demand.portOut]
    split
    · next hpoint =>
      subst hpoint
      rfl
    · rfl
  case h_2 =>
    simp only [Demand.portOut]
    split
    · rw [read8_staled]
      rfl
    · rfl
  case h_3 =>
    rw [Demand.portOut]
    · rfl
    all_goals assumption

/-- An instruction takes notice of the latches that it needs alone. -/
theorem act_staled (code : Instruction) (point : ExecPoint) :
    (c.staled ((Demand.act code.mnemonic code.operands point).needs ∪ filled) stale).act code point
      = (c.act code point).staled
        ((Demand.act code.mnemonic code.operands point).fills
          ∪ ((Demand.act code.mnemonic code.operands point).needs ∪ filled)) stale := by
  cases hm : code.mnemonic <;> simp only [act, hm, Demand.act]
  case ld =>
    cases code.operands[0]? with
    | none => rfl
    | some target =>
      cases code.operands[1]? with
      | none => rfl
      | some source => exact load_staled c filled stale _ _ _
  case push => exact pushPair_staled c filled stale _ _
  case pop => exact popPair_staled c filled stale _ _
  case ex => exact exchange_staled c filled stale _ _ _
  case exx => split <;> rfl
  case input => exact portIn_staled c filled stale _ _ _
  case output => exact portOut_staled c filled stale _ _ _
  case rlc | rrc | rl | rr | sla | sra | sll | srl => exact shiftOperand_staled c filled stale _ _ _ _
  case bit | res | set => exact bitOperand_staled c filled stale _ _ _ _ _
  case rrd | rld => exact rotateDigit_staled c filled stale _ _
  case ldi | ldd | ldir | lddr => exact blockLoad_staled c filled stale _ _
  case cpi | cpd | cpir | cpdr => exact blockCompare_staled c filled stale _ _
  case ini | ind | inir | indr => exact blockIn_staled c filled stale _ _
  case outi | outd | otir | otdr => exact blockOut_staled c filled stale _ _
  case nmi | int => exact interruptEntry_staled c filled stale _ _ _
  case jp => exact jump_staled c filled stale _ _
  case jr | djnz => exact jumpRelative_staled c filled stale _ _ _
  case call => exact call_staled c filled stale _ _
  case ret | reti | retn => exact ret_staled c filled stale _ _ _
  case rst => exact restart_staled c filled stale _ _
  case im => exact setMode_staled c _ stale _ _
  case di | ei => exact setInterrupts_staled c _ stale _ _
  case inc | dec => exact incDec_staled c filled stale _ _ _
  case sub | and | xor | or | cp => exact alu8_staled c filled stale _ _ _
  case add | adc | sbc =>
    cases code.operands[0]? with
    | none => exact alu8_staled c filled stale _ _ _
    | some first =>
      cases first
      case reg16 =>
        cases pairOperands code with
        | none => rfl
        | some pair => exact alu16_staled c _ stale _ _ _ _
      all_goals exact alu8_staled c filled stale _ _ _
  case halt => split <;> rfl
  case rlca | rrca | rla | rra | daa | cpl | scf | ccf | neg =>
    exact accumulator_staled c _ stale _ _
  case nop | haltNop => rfl

end Core

end Z80Board
