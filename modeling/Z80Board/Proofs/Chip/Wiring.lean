import Z80Board.Chip.HalfPeriod
import Z80Board.Proofs.Chip.Datapath

/-! # What sequencing does not see

    Putting an opcode together, decoding it and letting it act take no notice of the wires: the
    buses, the pins, the time, and how far the cycle in progress has come.  The chip `c` on the wires
    of `k` is `c.wiredAs k`, and a function `f` that looks at no wire gives
    `(c.wiredAs k).f = (c.f).wiredAs k`.  With `k := c` this says that the wires stay as they were;
    with one and the same `k` under two chips it says that chips alike but for their wires stay
    so. -/

namespace Z80Board

namespace Core

/-- The chip `c` on the wires of `k`. -/
def wiredAs (c k : Core) : Core :=
  { c with
    pins := { k.pins with halt := c.pins.halt }
    address := k.address
    data := k.data
    phase := k.phase
    cycle := { k.cycle with
      kind := c.cycle.kind
      pattern := c.cycle.pattern
      length := c.cycle.length
      fromDevice := c.cycle.fromDevice }
    nmiPending := k.nmiPending
    nmiSeen := k.nmiSeen
    boundaryPending := k.boundaryPending
    halfTStates := k.halfTStates }

variable (c k : Core)

@[simp] theorem wiredAs_self : c.wiredAs c = c := rfl

@[simp] theorem wiredAs_wiredAs (c k l : Core) : (c.wiredAs k).wiredAs l = c.wiredAs l := rfl

/-! ## Acting and decoding -/

theorem execute_wiredAs (point : ExecPoint) :
    (c.wiredAs k).execute point = (c.execute point).wiredAs k := by
  calc (c.wiredAs k).execute point
      = (c.under (c.wiredAs k)).execute point := rfl
    _ = (c.execute point).under (c.wiredAs k) := execute_under c _ point
    _ = ((c.execute point).under c).wiredAs k := rfl
    _ = (c.execute point).wiredAs k := by rw [← control_execute]

/-- Address memory for a displacement that has been read before the opcode was complete. -/
def placeDisplacement (c : Core) (code : Instruction) : Core :=
  match code.index?, c.displacement with
  | some x, some d => c.setIndexedAddress x d
  | _, _ => c

/-- The instruction in place, before it acts. -/
def takeUp (c : Core) (code : Instruction) : Core :=
  { c with
    instruction := some code
    cycles := code.timing.primary.cycles
    conditionMet := false }.placeDisplacement code

/-- The current cycle with the length that the timing gives to it. -/
def fitLength (c : Core) : Core :=
  { c with cycle.length := c.templateLength }

theorem beginExecution_eq (code : Instruction) :
    c.beginExecution code = ((c.takeUp code).execute .decoded).fitLength := rfl

theorem takeUp_wiredAs (code : Instruction) :
    (c.wiredAs k).takeUp code = (c.takeUp code).wiredAs k := by
  unfold takeUp placeDisplacement
  dsimp only
  rw [show (c.wiredAs k).displacement = c.displacement from rfl]
  split <;> rfl

theorem fitLength_wiredAs : (c.wiredAs k).fitLength = c.fitLength.wiredAs k := rfl

theorem beginExecution_wiredAs (code : Instruction) :
    (c.wiredAs k).beginExecution code = (c.beginExecution code).wiredAs k := by
  rw [beginExecution_eq, beginExecution_eq, takeUp_wiredAs, execute_wiredAs, fitLength_wiredAs]

theorem follow_wiredAs (code : Instruction) {again : Core → Page → Core}
    (hagain : ∀ d page, again (d.wiredAs k) page = (again d page).wiredAs k) :
    (c.wiredAs k).follow code again = (c.follow code again).wiredAs k := by
  simp only [follow]
  cases code.action with
  | execute => exact beginExecution_wiredAs c k code
  | fetchNext page => rfl
  | fetchDisplacement page => rfl
  | redecode page => exact hagain { c with position := 0 } page

theorem dispatch_wiredAs (byte : Byte) :
    (c.wiredAs k).dispatch byte = (c.dispatch byte).wiredAs k := by
  rw [dispatch]
  exact follow_wiredAs { c with opcode := c.opcode.push byte } k _ fun d page =>
    follow_wiredAs d k _ fun _ _ => rfl

/-! ## What decoding leaves alone -/

/-- The chip `d` has come from `c` by decoding and acting: no wire has changed, and neither has the
    way in which the cycle uses the buses. -/
structure Decodes (c d : Core) : Prop where
  wires : d.wiredAs c = d
  kind : d.cycle.kind = c.cycle.kind
  pattern : d.cycle.pattern = c.cycle.pattern
  fromDevice : d.cycle.fromDevice = c.cycle.fromDevice
  origin : d.origin = c.origin
  counter : d.instructionCounter = c.instructionCounter

/-- Of the cycle, the length alone changes. -/
theorem Decodes.cycle {c d : Core} (h : c.Decodes d) :
    d.cycle = { c.cycle with length := d.cycle.length } := by
  calc d.cycle
      = (d.wiredAs c).cycle := by rw [h.wires]
    _ = { c.cycle with
          kind := d.cycle.kind
          pattern := d.cycle.pattern
          length := d.cycle.length
          fromDevice := d.cycle.fromDevice } := rfl
    _ = { c.cycle with length := d.cycle.length } := by rw [h.kind, h.pattern, h.fromDevice]

theorem decodes_beginExecution (code : Instruction) : c.Decodes (c.beginExecution code) := by
  have htaken : c.takeUp code = (c.takeUp code).under c := by
    rw [takeUp, placeDisplacement]
    dsimp only
    split <;> rfl
  have hacted : (c.takeUp code).execute .decoded = ((c.takeUp code).execute .decoded).under c := by
    rw [control_execute, htaken]
    rfl
  rw [beginExecution_eq]
  refine ⟨?_, ?_, ?_, ?_, ?_, ?_⟩
  · rw [← beginExecution_eq, ← beginExecution_wiredAs, wiredAs_self]
  all_goals
    rw [hacted]
    rfl

theorem decodes_follow (code : Instruction) (again : Core → Page → Core)
    (hagain : ∀ page, c.Decodes (again { c with position := 0 } page)) :
    c.Decodes (c.follow code again) := by
  rw [follow]
  cases code.action with
  | execute => exact decodes_beginExecution c code
  | fetchNext page => exact ⟨rfl, rfl, rfl, rfl, rfl, rfl⟩
  | fetchDisplacement page => exact ⟨rfl, rfl, rfl, rfl, rfl, rfl⟩
  | redecode page => exact hagain page

theorem decodes_dispatch (byte : Byte) : c.Decodes (c.dispatch byte) := by
  rw [dispatch]
  have hpushed {d : Core}
      (h : ({ c with opcode := c.opcode.push byte } : Core).Decodes d) : c.Decodes d :=
    ⟨h.wires, h.kind, h.pattern, h.fromDevice, h.origin, h.counter⟩
  refine hpushed (decodes_follow _ _ _ fun page => ?_)
  have hagain := decodes_follow
    ({ c with opcode := c.opcode.push byte, position := 0 } : Core) (decode page byte)
    (fun c _ => c) fun _ => ⟨rfl, rfl, rfl, rfl, rfl, rfl⟩
  exact ⟨hagain.wires, hagain.kind, hagain.pattern, hagain.fromDevice, hagain.origin,
    hagain.counter⟩

/-! ## Taking bytes in -/

/-- PC moves on in the registers. -/
theorem advancePc_eq : c.advancePc = { c with regs := c.advancePc.regs } := by
  rw [advancePc]
  split <;> rfl

theorem advancePc_wiredAs : (c.wiredAs k).advancePc = c.advancePc.wiredAs k := by
  simp only [advancePc]
  rw [show (c.wiredAs k).fromMemory = c.fromMemory from rfl]
  split <;> rfl

/-- The byte on the data bus is latched. -/
def fetch (c : Core) (byte : Byte) : Core :=
  { c with latches.fetched := byte }

theorem takeOpcodeByte_of_some {c : Core} {code : Instruction} (h : c.instruction = some code)
    (byte : Byte) :
    c.takeOpcodeByte byte = ((c.fetch byte).execute .decoded).fitLength := by
  cases c
  cases h
  rfl

theorem takeOpcodeByte_of_none {c : Core} (h : c.instruction = none) (byte : Byte) :
    c.takeOpcodeByte byte = c.advancePc.dispatch byte := by
  rw [takeOpcodeByte]
  rw [h]

theorem takeOpcodeByte_wiredAs (byte : Byte) :
    (c.wiredAs k).takeOpcodeByte byte = (c.takeOpcodeByte byte).wiredAs k := by
  cases h : c.instruction with
  | some code =>
    rw [takeOpcodeByte_of_some h, takeOpcodeByte_of_some (c := c.wiredAs k) h,
      ← fitLength_wiredAs, ← execute_wiredAs]
    rfl
  | none =>
    rw [takeOpcodeByte_of_none h, takeOpcodeByte_of_none (c := c.wiredAs k) h, advancePc_wiredAs,
      dispatch_wiredAs]

theorem decodes_takeOpcodeByte (byte : Byte) : c.Decodes (c.takeOpcodeByte byte) := by
  cases h : c.instruction with
  | some code =>
    rw [takeOpcodeByte_of_some h]
    refine ⟨?_, ?_, ?_, ?_, ?_, ?_⟩
    · rw [← takeOpcodeByte_of_some h, ← takeOpcodeByte_wiredAs, wiredAs_self]
    all_goals
      rw [control_execute]
      rfl
  | none =>
    rw [takeOpcodeByte_of_none h]
    have hdispatch := decodes_dispatch c.advancePc byte
    rw [advancePc_eq] at hdispatch ⊢
    exact ⟨hdispatch.wires, hdispatch.kind, hdispatch.pattern, hdispatch.fromDevice,
      hdispatch.origin, hdispatch.counter⟩

/-- The pointer that a read moves: SP for a pop, PC for a byte of the instruction. -/
def movePointer (c : Core) : Core :=
  match c.cycle.kind with
  | .stackReadLow | .stackReadHigh => { c with regs.sp := c.regs.sp + 1 }
  | .opcodeFetch | .operand | .operandLow | .operandHigh => c.advancePc
  | _ => c

/-- A pointer moves in the registers. -/
theorem movePointer_eq : c.movePointer = { c with regs := c.movePointer.regs } := by
  rw [movePointer]
  cases c.cycle.kind
  case opcodeFetch | operand | operandLow | operandHigh => exact advancePc_eq c
  all_goals rfl

theorem movePointer_wiredAs : (c.wiredAs k).movePointer = c.movePointer.wiredAs k := by
  simp only [movePointer]
  rw [show (c.wiredAs k).cycle.kind = c.cycle.kind from rfl]
  cases c.cycle.kind
  case opcodeFetch | operand | operandLow | operandHigh => exact advancePc_wiredAs c k
  all_goals rfl

/-- The strobes of a read let go, and its pointer moves. -/
def closeRead (c : Core) : Core :=
  { c with pins.mreq := .released, pins.rd := .released }.movePointer

/-- The byte of a read is the last one of the opcode, or it is latched. -/
theorem sampleRead_eq :
    c.sampleRead =
      if c.cycle.pattern = .opcodeRead then c.closeRead.dispatch c.data.value
      else c.closeRead.fetch c.data.value := by
  have hpattern : c.closeRead.cycle.pattern = c.cycle.pattern := by
    rw [closeRead]
    rw [movePointer_eq]
  rw [← hpattern]
  rfl

/-- The strobes of a fetch let go, and the refresh address goes out. -/
def turnToRefresh (c : Core) : Core :=
  { c with
    pins.mreq := .released
    pins.rd := .released
    pins.m1 := .released
    pins.iorq := .released
    pins.rfsh := .asserted
    address := c.address.drive (Word.ofBytes c.regs.i c.regs.r)
    regs := c.regs.incrementR }

/-- The byte of a fetch is taken in while the refresh begins. -/
theorem sampleOpcode_eq : c.sampleOpcode = c.turnToRefresh.takeOpcodeByte c.data.value := rfl

/-! ## Latching what a cycle has read -/

/-- The byte of a finished cycle in the latch that its kind has for it. -/
def stow (c : Core) (code : Instruction) : Core :=
  match c.cycle.kind with
  | .operand | .operandLow => { c with latches.immLow := c.latches.fetched }
  | .operandHigh =>
    let c := { c with latches.immHigh := c.latches.fetched }
    if code.hasOperand .absolute then { c with latches.addr := c.imm16 } else c
  | .memoryRead | .memoryReadLow | .stackReadLow | .portRead =>
    { c with latches.dataLow := c.latches.fetched }
  | .memoryReadHigh | .stackReadHigh => { c with latches.dataHigh := c.latches.fetched }
  | _ => c

/-- The displacement of an instruction that had none yet. -/
def placeOperand (c : Core) (x : Index) : Core :=
  { c with displacement := some c.latches.fetched }.setIndexedAddress x c.latches.fetched

/-- The displacement in front of the last opcode byte. -/
def keepDisplacement (c : Core) : Core :=
  { c with displacement := some c.latches.fetched, chain := .opcodeAfterDisplacement }

/-- Without an instruction, only a displacement is worth latching. -/
theorem latchResult_of_none {c : Core} (h : c.instruction = none) :
    c.latchResult = if c.cycle.kind = .operand then c.keepDisplacement else c := by
  cases c
  cases h
  rfl

/-- An instruction gets nothing from its fetch; it is addressed by its displacement; and it acts on
    anything else. -/
theorem latchResult_of_some {c : Core} {code : Instruction} (h : c.instruction = some code) :
    c.latchResult =
      if c.cycle.kind = .opcodeFetch then c
      else
        match code.index?, c.displacement, c.cycle.kind with
        | some x, none, .operand => c.placeOperand x
        | _, _, kind => (c.stow code).execute (.after kind) := by
  rw [latchResult]
  split
  · next hnone => exact nomatch h.symm.trans hnone
  · next code' hsome =>
    obtain rfl := Option.some.inj (h.symm.trans hsome)
    rw [stow]
    cases c.cycle.kind <;> cases code.index? <;> cases c.displacement <;> rfl

theorem stow_wiredAs (code : Instruction) : (c.wiredAs k).stow code = (c.stow code).wiredAs k := by
  simp only [stow]
  rw [show (c.wiredAs k).cycle.kind = c.cycle.kind from rfl]
  cases c.cycle.kind
  case operandHigh =>
    dsimp only
    split <;> rfl
  all_goals rfl

/-- Latching changes nothing of the cycle. -/
theorem cycle_latchResult : c.latchResult.cycle = c.cycle := by
  cases h : c.instruction with
  | none =>
    rw [latchResult_of_none h]
    split <;> rfl
  | some code =>
    have hstow : (c.stow code).cycle = c.cycle := by
      rw [stow]
      cases c.cycle.kind
      case operandHigh =>
        dsimp only
        split <;> rfl
      all_goals rfl
    rw [latchResult_of_some h]
    split
    · rfl
    split
    · rfl
    · rw [control_execute]
      exact hstow

theorem latchResult_wiredAs : (c.wiredAs k).latchResult = c.latchResult.wiredAs k := by
  cases h : c.instruction with
  | none =>
    rw [latchResult_of_none h, latchResult_of_none (c := c.wiredAs k) h,
      show (c.wiredAs k).cycle.kind = c.cycle.kind from rfl]
    split <;> rfl
  | some code =>
    rw [latchResult_of_some h, latchResult_of_some (c := c.wiredAs k) h,
      show (c.wiredAs k).cycle.kind = c.cycle.kind from rfl,
      show (c.wiredAs k).displacement = c.displacement from rfl, stow_wiredAs]
    split
    · rfl
    split
    · rfl
    · exact execute_wiredAs _ k _

/-! ## A half-period apart from its wires -/

end Core

/-- The half-period in which a cycle takes its byte in, if it reads one. -/
def BusPattern.sampleHalf : BusPattern → Nat
  | .fetch | .acknowledge => 4
  | .portRead => 7
  | _ => 5

namespace Core

variable (c k : Core)

/-- SP moves for a push. -/
def pushPointer (c : Core) : Core :=
  match c.cycle.kind with
  | .stackWriteHigh | .stackWriteLow => { c with regs.sp := c.regs.sp - 1 }
  | _ => c

/-- One more refresh is counted. -/
def countRefresh (c : Core) : Core :=
  { c with regs := c.regs.incrementR }

/-- Take in the byte that the cycle reads, if it reads one. -/
def takeIn (c : Core) (byte : Byte) : Core :=
  match c.cycle.pattern with
  | .fetch | .acknowledge => c.countRefresh.takeOpcodeByte byte
  | .opcodeRead => c.movePointer.dispatch byte
  | .read => c.movePointer.fetch byte
  | .portRead => c.fetch byte
  | .write | .portWrite | .internal => c

/-- What a half-period does apart from the wires, with a byte on the data bus. -/
def effect (c : Core) (half : Nat) (byte : Byte) : Core :=
  if half = 0 ∧ c.cycle.pattern = .write then c.pushPointer
  else if half = c.cycle.pattern.sampleHalf then c.takeIn byte
  else c

theorem pushPointer_wiredAs : (c.wiredAs k).pushPointer = c.pushPointer.wiredAs k := by
  simp only [pushPointer]
  rw [show (c.wiredAs k).cycle.kind = c.cycle.kind from rfl]
  cases c.cycle.kind <;> rfl

theorem takeIn_wiredAs (byte : Byte) : (c.wiredAs k).takeIn byte = (c.takeIn byte).wiredAs k := by
  simp only [takeIn]
  rw [show (c.wiredAs k).cycle.pattern = c.cycle.pattern from rfl]
  cases c.cycle.pattern
  case fetch | acknowledge => exact takeOpcodeByte_wiredAs c.countRefresh k byte
  case opcodeRead =>
    dsimp only
    rw [movePointer_wiredAs, dispatch_wiredAs]
  case read =>
    dsimp only
    rw [movePointer_wiredAs]
    rfl
  all_goals rfl

theorem effect_wiredAs (half : Nat) (byte : Byte) :
    (c.wiredAs k).effect half byte = (c.effect half byte).wiredAs k := by
  simp only [effect]
  rw [show (c.wiredAs k).cycle.pattern = c.cycle.pattern from rfl, pushPointer_wiredAs,
    takeIn_wiredAs]
  split
  · rfl
  · split <;> rfl

theorem closeRead_wiredAs_self : c.closeRead.wiredAs c = c.movePointer := by
  rw [closeRead]
  rw [← movePointer_wiredAs]
  rfl

theorem sampleRead_wiredAs_self (h : c.cycle.pattern = .opcodeRead ∨ c.cycle.pattern = .read) :
    c.sampleRead.wiredAs c = c.takeIn c.data.value := by
  rw [sampleRead_eq, takeIn]
  rcases h with hpattern | hpattern <;> rw [hpattern]
  · rw [if_pos rfl, ← dispatch_wiredAs, closeRead_wiredAs_self]
  · rw [if_neg (by decide), ← closeRead_wiredAs_self]
    rfl

/-- A half-period works on the byte that is on the data bus. -/
theorem patternHalf_wiredAs_self (half : Nat) :
    (c.patternHalf half).1.wiredAs c = c.effect half c.data.value := by
  -- most half-periods touch nothing but wires; one takes the byte in
  have touches {d : Core} (hd : d.wiredAs c = c) (hlater : half = 0 → c.cycle.pattern ≠ .write)
      (hother : half ≠ c.cycle.pattern.sampleHalf) : d.wiredAs c = c.effect half c.data.value := by
    rw [effect, if_neg fun h => hlater h.1 h.2, if_neg hother, hd]
  have samples {d : Core} (hd : d.wiredAs c = c.takeIn c.data.value)
      (hlater : half = 0 → c.cycle.pattern ≠ .write) (hhere : half = c.cycle.pattern.sampleHalf) :
      d.wiredAs c = c.effect half c.data.value := by
    rw [effect, if_neg fun h => hlater h.1 h.2, if_pos hhere, hd]
  have reads_nothing {d : Core} (hd : d.wiredAs c = c) (hlater : half = 0 → c.cycle.pattern ≠ .write)
      (hnothing : c.takeIn c.data.value = c) : d.wiredAs c = c.effect half c.data.value := by
    rw [effect, if_neg fun h => hlater h.1 h.2, hnothing, ite_self, hd]
  rw [patternHalf]
  cases hpattern : c.cycle.pattern <;> rw [hpattern] at touches samples reads_nothing <;>
    dsimp only
  case fetch | acknowledge =>
    simp only [fetchHalf]
    split
    case h_2 | h_3 => split <;> exact touches rfl nofun (by decide)
    case h_4 =>
      refine samples ?_ nofun rfl
      rw [sampleOpcode_eq, ← takeOpcodeByte_wiredAs, takeIn, hpattern]
      rfl
    case h_8 hfour _ _ _ => exact touches rfl nofun hfour
    all_goals exact touches rfl nofun (by decide)
  case opcodeRead =>
    simp only [readHalf]
    split
    case h_4 => exact samples (c.sampleRead_wiredAs_self (Or.inl hpattern)) nofun rfl
    case h_5 hfive => exact touches rfl nofun hfive
    all_goals exact touches rfl nofun (by decide)
  case read =>
    simp only [readHalf]
    split
    case h_4 => exact samples (c.sampleRead_wiredAs_self (Or.inr hpattern)) nofun rfl
    case h_5 hfive => exact touches rfl nofun hfive
    all_goals exact touches rfl nofun (by decide)
  case portRead =>
    simp only [portReadHalf]
    split
    case h_4 =>
      refine samples ?_ nofun rfl
      rw [takeIn, hpattern]
      rfl
    case h_5 hseven => exact touches rfl nofun hseven
    all_goals exact touches rfl nofun (by decide)
  case write =>
    have hnothing : c.takeIn c.data.value = c := by rw [takeIn, hpattern]
    simp only [writeHalf]
    split
    case h_1 =>
      rw [effect, if_pos ⟨rfl, hpattern⟩, pushPointer]
      rw [addressWrite]
      rw [show c.releaseRefresh.cycle.kind = c.cycle.kind from rfl]
      cases c.cycle.kind <;> rfl
    case h_3 => split <;> exact reads_nothing rfl nofun hnothing
    case h_5 hzero _ _ _ => exact reads_nothing rfl (fun h => absurd h hzero) hnothing
    all_goals exact reads_nothing rfl nofun hnothing
  case portWrite | internal =>
    have hnothing : c.takeIn c.data.value = c := by rw [takeIn, hpattern]
    first
      | simp only [portWriteHalf]
      | simp only [internalHalf]
    split <;> exact reads_nothing rfl nofun hnothing

/-- How the cycle in progress uses the buses. -/
def use (c : Core) : CycleKind × BusPattern × Bool :=
  (c.cycle.kind, c.cycle.pattern, c.cycle.fromDevice)

section

variable {c k : Core}

theorem kind_of_use (h : c.use = k.use) : c.cycle.kind = k.cycle.kind :=
  congrArg (·.1) h

theorem pattern_of_use (h : c.use = k.use) : c.cycle.pattern = k.cycle.pattern :=
  congrArg (·.2.1) h

theorem fromDevice_of_use (h : c.use = k.use) : c.cycle.fromDevice = k.cycle.fromDevice :=
  congrArg (·.2.2) h

end

/-- Working on a byte does not change how the cycle uses the buses. -/
theorem use_effect (half : Nat) (byte : Byte) : (c.effect half byte).use = c.use := by
  have hmoved : c.movePointer.use = c.use := by rw [use, movePointer_eq, use]
  have hdecodes {d e : Core} (hd : d.use = c.use) (h : d.Decodes e) : e.use = c.use := by
    rw [← hd, use, h.kind, h.pattern, h.fromDevice, use]
  rw [effect]
  split
  · rw [pushPointer]
    split <;> rfl
  split
  · rw [takeIn]
    split
    case h_1 | h_2 => exact hdecodes (d := c.countRefresh) rfl (decodes_takeOpcodeByte _ byte)
    case h_3 => exact hdecodes hmoved (decodes_dispatch _ byte)
    case h_4 => exact hmoved
    all_goals rfl
  · rfl

/-- A write leaves the latches alone. -/
theorem latches_effect (half : Nat) (byte : Byte)
    (h : c.cycle.pattern = .write ∨ c.cycle.pattern = .portWrite) :
    (c.effect half byte).latches = c.latches := by
  have hnothing : c.takeIn byte = c := by
    rw [takeIn]
    rcases h with hpattern | hpattern <;> rw [hpattern]
  rw [effect, hnothing, ite_self]
  split
  · rw [pushPointer]
    split <;> rfl
  · rfl

end Core

end Z80Board
