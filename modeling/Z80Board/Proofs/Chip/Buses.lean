import Z80Board.Proofs.Chip.Edges

/-! # What the buses carry

    Every cycle with an address puts it out in its first half-period, and a fetch goes over to the
    refresh address when its byte is taken in.  A write has its byte on the data bus from its second
    half-period on until the strobe lets go.  No other half-period touches the buses, and neither
    does anything between two half-periods, but for a reset and a grant, which let them float. -/

namespace Z80Board

/-! ## Who is asked -/

/-- The cycle reads from memory. -/
def ActiveCycle.readsMemory (cycle : ActiveCycle) : Bool :=
  match cycle.pattern with
  | .fetch | .opcodeRead | .read => !cycle.fromDevice
  | _ => false

/-- The pins turn to a device: to acknowledge an interrupt, or to read from elsewhere than memory. -/
def Pins.turnToDevice (pins : Pins) : Bool :=
  pins.interruptAcknowledge
    || pins.rd.isAsserted && !(pins.mreq.isAsserted && !pins.iorq.isAsserted)

/-- Memory is asked for a byte. -/
def Pins.asksMemory (pins : Pins) : Bool :=
  pins.memoryRequest && pins.rd.isAsserted

/-- Memory is given a byte. -/
def Pins.givesMemory (pins : Pins) : Bool :=
  pins.memoryRequest && pins.wr.isAsserted

namespace ActiveCycle

variable {cycle : ActiveCycle} {half : Nat}

/-- Memory is asked for a byte in the middle of the cycles that read from it. -/
theorem asksMemory_outputs :
    (cycle.outputs half).asksMemory = true ↔
      cycle.readsMemory = true ∧ 2 ≤ half ∧ half ≤ cycle.pattern.sampleHalf := by
  rw [readsMemory, outputs]
  cases cycle.pattern <;> cases hdevice : cycle.fromDevice
  all_goals
    obtain rfl | rfl | rfl | rfl | rfl | rfl | rfl | rfl | rfl | ⟨n, rfl⟩ := half_cases half <;>
      simp [fetchOutputs, acknowledgeOutputs, readOutputs, writeOutputs, portOutputs, hdevice,
        Pins.asksMemory, Pins.memoryRequest, Level.isAsserted, Level.isLow, BusPattern.sampleHalf]

/-- Memory is given a byte late in a write. -/
theorem givesMemory_outputs :
    (cycle.outputs half).givesMemory = true ↔
      cycle.pattern = .write ∧ 4 ≤ half ∧ half ≤ 5 := by
  rw [outputs]
  cases cycle.pattern
  all_goals
    obtain rfl | rfl | rfl | rfl | rfl | rfl | rfl | rfl | rfl | ⟨n, rfl⟩ := half_cases half <;>
      simp [fetchOutputs, acknowledgeOutputs, readOutputs, writeOutputs, portOutputs,
        Pins.givesMemory, Pins.memoryRequest, Level.isAsserted, Level.isLow]

/-- Only an acknowledge, a read of a port and the byte of a device turn to a device. -/
theorem turnToDevice_outputs (h : (cycle.outputs half).turnToDevice = true) :
    cycle.readsMemory = false ∧ cycle.pattern ≠ .write ∧ cycle.pattern ≠ .portWrite := by
  revert h
  rw [readsMemory, outputs]
  cases cycle.pattern <;> cases hdevice : cycle.fromDevice
  all_goals
    obtain rfl | rfl | rfl | rfl | rfl | rfl | rfl | rfl | rfl | ⟨n, rfl⟩ := half_cases half <;>
      simp [fetchOutputs, readOutputs, writeOutputs, portOutputs, hdevice, Pins.turnToDevice,
        Pins.interruptAcknowledge, Level.isAsserted, Level.isLow]

end ActiveCycle

namespace Core

/-! ## What is put out -/

/-- The address of a write that is about to begin.  A push moves SP first. -/
def writeAddress (c : Core) : Word :=
  match c.cycle.kind with
  | .stackWriteHigh | .stackWriteLow => c.regs.sp - 1
  | .memoryWriteHigh => c.latches.addr + 1
  | _ => c.latches.addr

/-- The address of a cycle that is about to begin, if it has one. -/
def cycleAddress (c : Core) : Option Word :=
  match c.cycle.pattern with
  | .fetch | .acknowledge => some c.regs.pc
  | .opcodeRead | .read => some c.readAddress
  | .write => some c.writeAddress
  | .portRead | .portWrite => some c.latches.port
  | .internal => none

/-- The address bus after a half-period. -/
def addressAfter (c : Core) (half : Nat) : Bus Word :=
  if half = 0 then
    match c.cycleAddress with
    | some address => c.address.drive address
    | none => c.address
  else if half = 4 ∧ (c.cycle.pattern = .fetch ∨ c.cycle.pattern = .acknowledge) then
    c.address.drive (Word.ofBytes c.regs.i c.regs.r)
  else c.address

/-- The data bus after a half-period. -/
def dataAfter (c : Core) (half : Nat) : Bus Byte :=
  match c.cycle.pattern with
  | .write =>
    if half = 1 then c.data.drive c.writeByte
    else if half = 5 then c.data.release
    else c.data
  | .portWrite =>
    if half = 1 then c.data.drive c.latches.outLow
    else if half = 7 then c.data.release
    else c.data
  | _ => c.data

/-- The byte that the chip has on the data bus before a half-period. -/
def staged (c : Core) (half : Nat) : Option Byte :=
  match c.cycle.pattern with
  | .write => if 2 ≤ half ∧ half ≤ 5 then some c.writeByte else none
  | .portWrite => if 2 ≤ half ∧ half ≤ 7 then some c.latches.outLow else none
  | _ => none

variable {c d e k : Core} {half : Nat} {level : Level} {inputs : InputLevels}

/-! ## A half-period -/

/-- The wires of `d` are as `c` has left them. -/
structure Leaves (c d : Core) : Prop where
  pins : d.pins = { c.pins with halt := d.pins.halt }
  address : d.address = c.address
  data : d.data = c.data

theorem Leaves.trans (h : c.Leaves d) (h' : d.Leaves e) : c.Leaves e := by
  refine ⟨?_, h'.address.trans h.address, h'.data.trans h.data⟩
  rw [h'.pins, h.pins]

theorem Decodes.leaves (h : c.Decodes d) : c.Leaves d := by
  refine ⟨?_, ?_, ?_⟩ <;> rw [← h.wires] <;> rfl

theorem Leaves.strobes (h : c.Leaves d) : d.pins.strobes = c.pins.strobes := by
  rw [h.pins]
  rfl

theorem leaves_closeRead :
    ({ c with pins.mreq := .released, pins.rd := .released } : Core).Leaves c.closeRead := by
  rw [closeRead]
  rw [movePointer_eq]
  exact ⟨rfl, rfl, rfl⟩

/-- The end of a read leaves the buses alone. -/
theorem buses_sampleRead : c.sampleRead.address = c.address ∧ c.sampleRead.data = c.data := by
  have hclosed := leaves_closeRead (c := c)
  rw [sampleRead_eq]
  split
  · have hdispatched := hclosed.trans (decodes_dispatch c.closeRead c.data.value).leaves
    exact ⟨hdispatched.address, hdispatched.data⟩
  · exact ⟨hclosed.address, hclosed.data⟩

/-- The first half-period puts the address out. -/
theorem addressAfter_zero {address : Word} (h : c.cycleAddress = some address) :
    c.addressAfter 0 = c.address.drive address := by
  rw [addressAfter, if_pos rfl, h]

/-- The later ones leave it, unless the cycle is a fetch that goes over to its refresh. -/
theorem addressAfter_later (hlater : half ≠ 0)
    (hplain : half ≠ 4 ∨ c.cycle.pattern ≠ .fetch ∧ c.cycle.pattern ≠ .acknowledge) :
    c.addressAfter half = c.address := by
  rw [addressAfter, if_neg hlater, if_neg]
  rintro ⟨hfour, hfetch⟩
  rcases hplain with hother | ⟨hfetches, hacks⟩
  · exact hother hfour
  · exact hfetch.elim hfetches hacks

/-- What a fetch does to the buses. -/
theorem buses_fetchHalf (hpattern : c.cycle.pattern = .fetch ∨ c.cycle.pattern = .acknowledge) :
    (c.fetchHalf half).1.address = c.addressAfter half ∧ (c.fetchHalf half).1.data = c.data := by
  have hcycle : c.cycleAddress = some c.regs.pc := by
    rw [cycleAddress]
    rcases hpattern with hpattern | hpattern <;> rw [hpattern]
  simp only [fetchHalf]
  split
  case h_1 => exact ⟨(addressAfter_zero hcycle).symm, rfl⟩
  case h_2 | h_3 =>
    split <;> exact ⟨(addressAfter_later (Nat.succ_ne_zero _) (Or.inl (by decide))).symm, rfl⟩
  case h_4 =>
    rw [addressAfter, if_neg (by decide), if_pos ⟨rfl, hpattern⟩]
    have hrefreshed := (decodes_takeOpcodeByte c.turnToRefresh c.data.value).leaves
    exact ⟨hrefreshed.address, hrefreshed.data⟩
  case h_5 | h_6 | h_7 =>
    exact ⟨(addressAfter_later (Nat.succ_ne_zero _) (Or.inl (by decide))).symm, rfl⟩
  case h_8 hzero _ _ hfour _ _ _ => exact ⟨(addressAfter_later hzero (Or.inl hfour)).symm, rfl⟩

/-- What a read from memory does to the buses. -/
theorem buses_readHalf (hpattern : c.cycle.pattern = .opcodeRead ∨ c.cycle.pattern = .read) :
    (c.readHalf half).1.address = c.addressAfter half ∧ (c.readHalf half).1.data = c.data := by
  have hcycle : c.cycleAddress = some c.readAddress := by
    rw [cycleAddress]
    rcases hpattern with hpattern | hpattern <;> rw [hpattern]
  have hplain : c.cycle.pattern ≠ .fetch ∧ c.cycle.pattern ≠ .acknowledge := by
    rcases hpattern with hpattern | hpattern <;> rw [hpattern] <;> decide
  match half with
  | 0 =>
    rw [addressAfter_zero hcycle]
    exact ⟨rfl, rfl⟩
  | 5 =>
    rw [addressAfter_later (Nat.succ_ne_zero _) (Or.inr hplain)]
    exact buses_sampleRead
  | 1 | 2 | 3 | 4 | 6 | 7 | 8 | n + 9 =>
    rw [addressAfter_later (Nat.succ_ne_zero _) (Or.inr hplain)]
    exact ⟨rfl, rfl⟩

/-- What a write to memory does to the buses. -/
theorem buses_writeHalf (hpattern : c.cycle.pattern = .write) :
    (c.writeHalf half).1.address = c.addressAfter half
      ∧ (c.writeHalf half).1.data = c.dataAfter half := by
  have hcycle : c.cycleAddress = some c.writeAddress := by rw [cycleAddress, hpattern]
  have hplain : c.cycle.pattern ≠ .fetch ∧ c.cycle.pattern ≠ .acknowledge := by
    rw [hpattern]
    decide
  have hdata : c.dataAfter half = if half = 1 then c.data.drive c.writeByte
      else if half = 5 then c.data.release else c.data := by rw [dataAfter, hpattern]
  rw [hdata]
  match half with
  | 0 =>
    rw [addressAfter_zero hcycle]
    cases hkind : c.cycle.kind <;>
      simp [writeHalf, addressWrite, writeAddress, releaseRefresh, hkind]
  | 3 =>
    rw [addressAfter_later (Nat.succ_ne_zero _) (Or.inr hplain)]
    cases hheld : c.held <;> simp [writeHalf, hheld]
  | 1 | 2 | 4 | 5 | 6 | 7 | 8 | n + 9 =>
    rw [addressAfter_later (Nat.succ_ne_zero _) (Or.inr hplain)]
    exact ⟨rfl, rfl⟩

/-- What a read of a port does to the buses. -/
theorem buses_portReadHalf (hpattern : c.cycle.pattern = .portRead) :
    (c.portReadHalf half).1.address = c.addressAfter half
      ∧ (c.portReadHalf half).1.data = c.data := by
  have hcycle : c.cycleAddress = some c.latches.port := by rw [cycleAddress, hpattern]
  have hplain : c.cycle.pattern ≠ .fetch ∧ c.cycle.pattern ≠ .acknowledge := by
    rw [hpattern]
    decide
  match half with
  | 0 =>
    rw [addressAfter_zero hcycle]
    exact ⟨rfl, rfl⟩
  | 1 | 2 | 3 | 4 | 5 | 6 | 7 | 8 | n + 9 =>
    rw [addressAfter_later (Nat.succ_ne_zero _) (Or.inr hplain)]
    exact ⟨rfl, rfl⟩

/-- What a write of a port does to the buses. -/
theorem buses_portWriteHalf (hpattern : c.cycle.pattern = .portWrite) :
    (c.portWriteHalf half).1.address = c.addressAfter half
      ∧ (c.portWriteHalf half).1.data = c.dataAfter half := by
  have hcycle : c.cycleAddress = some c.latches.port := by rw [cycleAddress, hpattern]
  have hplain : c.cycle.pattern ≠ .fetch ∧ c.cycle.pattern ≠ .acknowledge := by
    rw [hpattern]
    decide
  have hdata : c.dataAfter half = if half = 1 then c.data.drive c.latches.outLow
      else if half = 7 then c.data.release else c.data := by rw [dataAfter, hpattern]
  rw [hdata]
  match half with
  | 0 =>
    rw [addressAfter_zero hcycle]
    exact ⟨rfl, rfl⟩
  | 1 | 2 | 3 | 4 | 5 | 6 | 7 | 8 | n + 9 =>
    rw [addressAfter_later (Nat.succ_ne_zero _) (Or.inr hplain)]
    exact ⟨rfl, rfl⟩

/-- A cycle without bus activity leaves the buses alone. -/
theorem buses_internalHalf (hpattern : c.cycle.pattern = .internal) :
    (c.internalHalf half).1.address = c.addressAfter half
      ∧ (c.internalHalf half).1.data = c.data := by
  have hplain : c.cycle.pattern ≠ .fetch ∧ c.cycle.pattern ≠ .acknowledge := by
    rw [hpattern]
    decide
  match half with
  | 0 =>
    rw [addressAfter, if_pos rfl, cycleAddress, hpattern]
    exact ⟨rfl, rfl⟩
  | n + 1 =>
    rw [addressAfter_later (Nat.succ_ne_zero _) (Or.inr hplain)]
    exact ⟨rfl, rfl⟩

/-- What a half-period does to the buses. -/
theorem buses_patternHalf :
    (c.patternHalf half).1.address = c.addressAfter half
      ∧ (c.patternHalf half).1.data = c.dataAfter half := by
  have hsame (hplain : c.cycle.pattern ≠ .write ∧ c.cycle.pattern ≠ .portWrite) :
      c.dataAfter half = c.data := by
    rw [dataAfter]
    split
    · next hwrite => exact absurd hwrite hplain.1
    · next hwrite => exact absurd hwrite hplain.2
    · rfl
  rw [patternHalf]
  cases hpattern : c.cycle.pattern <;> dsimp only
  case fetch =>
    rw [hsame (by rw [hpattern]; decide)]
    exact buses_fetchHalf (Or.inl hpattern)
  case acknowledge =>
    rw [hsame (by rw [hpattern]; decide)]
    exact buses_fetchHalf (Or.inr hpattern)
  case opcodeRead =>
    rw [hsame (by rw [hpattern]; decide)]
    exact buses_readHalf (Or.inl hpattern)
  case read =>
    rw [hsame (by rw [hpattern]; decide)]
    exact buses_readHalf (Or.inr hpattern)
  case write => exact buses_writeHalf hpattern
  case portRead =>
    rw [hsame (by rw [hpattern]; decide)]
    exact buses_portReadHalf hpattern
  case portWrite => exact buses_portWriteHalf hpattern
  case internal =>
    rw [hsame (by rw [hpattern]; decide)]
    exact buses_internalHalf hpattern

/-- The same when the half-period is run. -/
theorem buses_runHalf :
    c.runHalf.1.address = c.addressAfter c.cycle.half
      ∧ c.runHalf.1.data = c.dataAfter c.cycle.half := by
  have hpattern : (c.countEdge.patternHalf c.cycle.half).1.address = c.addressAfter c.cycle.half
      ∧ (c.countEdge.patternHalf c.cycle.half).1.data = c.dataAfter c.cycle.half :=
    buses_patternHalf
  rw [runHalf_eq]
  dsimp only
  split
  · exact hpattern
  · split <;> exact hpattern

/-- Apart from its wires, a chip that runs a half-period works on the byte on the data bus. -/
theorem runHalf_wiredAs_self : c.runHalf.1.wiredAs c = c.effect c.cycle.half c.data.value := by
  have hpattern : (c.countEdge.patternHalf c.cycle.half).1.wiredAs c
      = c.effect c.cycle.half c.data.value := by
    calc (c.countEdge.patternHalf c.cycle.half).1.wiredAs c
        = ((c.countEdge.patternHalf c.cycle.half).1.wiredAs c.countEdge).wiredAs c := rfl
      _ = (c.countEdge.effect c.cycle.half c.data.value).wiredAs c := by
        rw [patternHalf_wiredAs_self]
        rfl
      _ = c.effect c.cycle.half c.data.value := (c.countEdge.effect_wiredAs c _ _).symm
  rw [runHalf_eq]
  dsimp only
  split
  · exact hpattern
  · split <;> exact hpattern

/-- Running a half-period does not change how the cycle uses the buses. -/
theorem use_runHalf : c.runHalf.1.use = c.use := by
  calc c.runHalf.1.use
      = (c.runHalf.1.wiredAs c).use := rfl
    _ = c.use := by rw [runHalf_wiredAs_self, use_effect]

theorem pattern_runHalf : c.runHalf.1.cycle.pattern = c.cycle.pattern :=
  pattern_of_use use_runHalf

theorem readsMemory_of_use {d : Core} (h : c.use = d.use) :
    c.cycle.readsMemory = d.cycle.readsMemory := by
  rw [ActiveCycle.readsMemory, pattern_of_use h, fromDevice_of_use h]
  rfl

theorem readsMemory_runHalf : c.runHalf.1.cycle.readsMemory = c.cycle.readsMemory :=
  readsMemory_of_use use_runHalf

/-- Amid a cycle, the chip stays under way. -/
theorem Underway.amid (h : c.Underway) (hmore : c.runHalf.2 = false) : c.runHalf.1.Underway := by
  rcases h.runHalf with ⟨-, hunderway⟩ | ⟨hlast, -⟩
  · exact hunderway
  · exact nomatch hmore.symm.trans hlast

/-- The last half-period of a cycle is not held, and comes after all that the pattern needs. -/
theorem Underway.last (h : c.Underway) (hlast : c.runHalf.2 = true) :
    c.waits = false ∧ c.runHalf.1.Closes ∧ c.runHalf.1.cycle.half = c.cycle.half
      ∧ 2 * c.cycle.pattern.minimumLength ≤ c.cycle.half + 1 := by
  have hruns : c.waits = false := by
    refine Bool.eq_false_iff.mpr fun hwaits => ?_
    exact nomatch (h.course.runHalf_waits hwaits).1.symm.trans hlast
  rcases h.course.runHalf_runs hruns with ⟨hmore, -⟩ | ⟨-, hcloses, hhalf, -⟩
  · exact nomatch hmore.symm.trans hlast
  · have hend := hcloses.last
    have hroom := hcloses.course.room
    rw [pattern_runHalf] at hroom
    rw [hhalf] at hend
    exact ⟨hruns, hcloses, hhalf, by omega⟩

/-- Nothing is staged before a cycle. -/
theorem staged_zero : c.staged 0 = none := by
  rw [staged]
  split <;> rfl

/-- A write keeps its byte. -/
theorem latches_runHalf (h : c.cycle.pattern = .write ∨ c.cycle.pattern = .portWrite) :
    c.runHalf.1.latches = c.latches := by
  calc c.runHalf.1.latches
      = (c.runHalf.1.wiredAs c).latches := rfl
    _ = c.latches := by rw [runHalf_wiredAs_self, latches_effect c _ _ h]

/-- No cycle is over early. -/
theorem Underway.more_of_early (h : c.Underway) (hearly : c.cycle.half < 5) :
    c.runHalf.2 = false := by
  refine Bool.eq_false_iff.mpr fun hlast => ?_
  have hroom := (h.last hlast).2.2.2
  have hleast := c.cycle.pattern.three_le_minimumLength
  omega

/-- Amid a cycle the next half-period comes next, or the cycle is held. -/
theorem Underway.half_runHalf (h : c.Underway) (hmore : c.runHalf.2 = false) :
    (c.waits = false ∧ c.runHalf.1.cycle.half = c.cycle.half + 1)
      ∨ (c.waits = true ∧ c.runHalf.1.cycle.half + 1 = c.cycle.half
        ∧ (c.cycle.half = 3 ∧ c.cycle.pattern ≠ .portRead ∧ c.cycle.pattern ≠ .portWrite
          ∨ c.cycle.half = 5 ∧ (c.cycle.pattern = .portRead ∨ c.cycle.pattern = .portWrite))) := by
  cases hwaits : c.waits with
  | true =>
    obtain ⟨-, -, hback, -⟩ := h.course.runHalf_waits hwaits
    exact Or.inr ⟨rfl, hback, waits_cases hwaits⟩
  | false =>
    rcases h.course.runHalf_runs hwaits with ⟨-, -, hnext, -⟩ | ⟨hlast, -⟩
    · exact Or.inl ⟨rfl, hnext⟩
    · exact nomatch hmore.symm.trans hlast

/-- A byte that is staged stays on the data bus until its write lets go. -/
theorem staged_runHalf {byte : Byte} (h : c.Underway) (hmore : c.runHalf.2 = false)
    (hstaged : ∀ byte, c.staged c.cycle.half = some byte → c.data.value = byte)
    (hnext : c.runHalf.1.staged c.runHalf.1.cycle.half = some byte) :
    c.runHalf.1.data.value = byte ∧ c.cycle.half ≠ 0
      ∧ (c.cycle.pattern = .write ∨ c.cycle.pattern = .portWrite) := by
  have hkind := kind_of_use (use_runHalf (c := c))
  have hpattern := pattern_runHalf (c := c)
  have hhalf := h.half_runHalf hmore
  rw [buses_runHalf.2]
  rw [staged] at hnext hstaged
  rw [hpattern] at hnext
  rw [dataAfter]
  -- only writes stage a byte, and a half-period that a wait repeats still has it from before
  cases hwrite : c.cycle.pattern <;> rw [hwrite] at hnext hstaged <;> dsimp only at hnext hstaged ⊢
  case write =>
    have hbyte : c.runHalf.1.writeByte = c.writeByte := by
      simp only [writeByte]
      rw [hkind, latches_runHalf (Or.inl hwrite)]
    have hhere : c.runHalf.1.cycle.half = c.cycle.half + 1
        ∨ c.cycle.half = 3 ∧ c.runHalf.1.cycle.half = 2 := by
      rcases hhalf with ⟨-, hnext⟩ | ⟨-, hback, ⟨hthree, -⟩ | ⟨-, hport | hport⟩⟩
      · exact Or.inl hnext
      · exact Or.inr ⟨hthree, by omega⟩
      · cases hwrite.symm.trans hport
      · cases hwrite.symm.trans hport
    rw [hbyte] at hnext
    split at hnext
    · next hroom =>
      refine ⟨?_, by omega, Or.inl rfl⟩
      by_cases hone : c.cycle.half = 1
      · rw [if_pos hone]
        exact Option.some.inj hnext
      · have hroom' : 2 ≤ c.cycle.half ∧ c.cycle.half ≤ 5 := by omega
        rw [if_neg hone, if_neg (by omega)]
        exact hstaged byte ((if_pos hroom').trans hnext)
    · cases hnext
  case portWrite =>
    have hhere : c.runHalf.1.cycle.half = c.cycle.half + 1
        ∨ c.cycle.half = 5 ∧ c.runHalf.1.cycle.half = 4 := by
      rcases hhalf with ⟨-, hnext⟩ | ⟨-, hback, ⟨-, -, hother⟩ | ⟨hfive, -⟩⟩
      · exact Or.inl hnext
      · exact absurd hwrite hother
      · exact Or.inr ⟨hfive, by omega⟩
    rw [latches_runHalf (Or.inr hwrite)] at hnext
    split at hnext
    · next hroom =>
      refine ⟨?_, by omega, Or.inr rfl⟩
      by_cases hone : c.cycle.half = 1
      · rw [if_pos hone]
        exact Option.some.inj hnext
      · have hroom' : 2 ≤ c.cycle.half ∧ c.cycle.half ≤ 7 := by omega
        rw [if_neg hone, if_neg (by omega)]
        exact hstaged byte ((if_pos hroom').trans hnext)
    · cases hnext
  all_goals cases hnext

/-- What the data bus floats to never changes. -/
theorem floating_runHalf : c.runHalf.1.data.floating = c.data.floating := by
  rw [buses_runHalf.2]
  rw [dataAfter]
  split
  case h_3 => rfl
  all_goals
    split
    · rfl
    · split <;> rfl

/-- A half-period lets the data bus float, or finds nothing staged and leaves it alone, or leaves a
    byte staged. -/
theorem Underway.data_runHalf (h : c.Underway) :
    c.runHalf.1.data = c.data.release
      ∨ (c.staged c.cycle.half = none ∧ c.runHalf.1.data = c.data)
      ∨ (c.runHalf.2 = false ∧ c.runHalf.1.staged c.runHalf.1.cycle.half ≠ none) := by
  have hsame (hplain : c.cycle.pattern ≠ .write ∧ c.cycle.pattern ≠ .portWrite) :
      c.staged c.cycle.half = none ∧ c.runHalf.1.data = c.data := by
    rw [buses_runHalf.2]
    rw [staged, dataAfter]
    split
    · next hwrite => exact absurd hwrite hplain.1
    · next hwrite => exact absurd hwrite hplain.2
    · exact ⟨rfl, rfl⟩
  -- early in a cycle there is another half-period to come
  have hgoes (hearly : c.cycle.half + 1 < 2 * c.cycle.pattern.minimumLength) :
      c.runHalf.2 = false := by
    refine Bool.eq_false_iff.mpr fun hlast => ?_
    have hroom := (h.last hlast).2.2.2
    omega
  by_cases hwrite : c.cycle.pattern = .write
  · by_cases hfive : c.cycle.half = 5
    · refine Or.inl ?_
      rw [buses_runHalf.2, dataAfter, hwrite, hfive]
      rfl
    by_cases hmiddle : 1 ≤ c.cycle.half ∧ c.cycle.half ≤ 4
    · have hlength : c.cycle.pattern.minimumLength = 3 := by rw [hwrite]; rfl
      have hmore := hgoes (by omega)
      refine Or.inr (Or.inr ⟨hmore, ?_⟩)
      have hhalf := h.half_runHalf hmore
      rw [staged, pattern_runHalf, hwrite]
      dsimp only
      rw [if_pos (by omega)]
      exact nofun
    · refine Or.inr (Or.inl ⟨?_, ?_⟩)
      · rw [staged, hwrite]
        exact if_neg (by omega)
      · rw [buses_runHalf.2, dataAfter, hwrite]
        dsimp only
        rw [if_neg (by omega), if_neg hfive]
  by_cases hport : c.cycle.pattern = .portWrite
  · by_cases hseven : c.cycle.half = 7
    · refine Or.inl ?_
      rw [buses_runHalf.2, dataAfter, hport, hseven]
      rfl
    by_cases hmiddle : 1 ≤ c.cycle.half ∧ c.cycle.half ≤ 6
    · have hlength : c.cycle.pattern.minimumLength = 4 := by rw [hport]; rfl
      have hmore := hgoes (by omega)
      refine Or.inr (Or.inr ⟨hmore, ?_⟩)
      have hhalf := h.half_runHalf hmore
      have hnotthree : c.cycle.half = 3 → c.runHalf.1.cycle.half = 4 := by
        intro hthree
        rcases hhalf with ⟨-, hnext⟩ | ⟨-, -, ⟨-, -, hother⟩ | ⟨hfive, -⟩⟩
        · omega
        · exact absurd hport hother
        · omega
      rw [staged, pattern_runHalf, hport]
      dsimp only
      rw [if_pos (by omega)]
      exact nofun
    · refine Or.inr (Or.inl ⟨?_, ?_⟩)
      · rw [staged, hport]
        exact if_neg (by omega)
      · rw [buses_runHalf.2, dataAfter, hport]
        dsimp only
        rw [if_neg (by omega), if_neg hseven]
  · exact Or.inr (Or.inl (hsame ⟨hwrite, hport⟩))

/-! ## The pins -/

/-- Whether the pins turn to a device is told by their strobes. -/
theorem turnToDevice_congr {pins pins' : Pins} (h : pins.strobes = pins'.strobes) :
    pins.turnToDevice = pins'.turnToDevice := by
  simp only [Pins.strobes, Prod.mk.injEq] at h
  obtain ⟨hm1, hmreq, hiorq, hrd, -⟩ := h
  rw [Pins.turnToDevice, Pins.interruptAcknowledge, hm1, hmreq, hiorq, hrd]
  rfl

/-- Whether memory is requested is told by the strobes and the refresh strobe. -/
theorem memoryRequest_congr {pins pins' : Pins} (h : pins.strobes = pins'.strobes)
    (hrefresh : pins.mreq.isAsserted = true → pins.rfsh = pins'.rfsh) :
    pins.memoryRequest = pins'.memoryRequest := by
  simp only [Pins.strobes, Prod.mk.injEq] at h
  rw [Pins.memoryRequest, Pins.memoryRequest, ← h.2.1]
  cases hasserted : pins.mreq.isAsserted with
  | false => rfl
  | true => rw [hrefresh hasserted]

/-- So is whether memory is asked or given a byte. -/
theorem memory_congr {pins pins' : Pins} (h : pins.strobes = pins'.strobes)
    (hrefresh : pins.mreq.isAsserted = true → pins.rfsh = pins'.rfsh) :
    pins.asksMemory = pins'.asksMemory ∧ pins.givesMemory = pins'.givesMemory := by
  have hrequest := memoryRequest_congr h hrefresh
  simp only [Pins.strobes, Prod.mk.injEq] at h
  obtain ⟨-, -, -, hrd, hwr⟩ := h
  rw [Pins.asksMemory, Pins.givesMemory, hrequest, hrd, hwr]
  exact ⟨rfl, rfl⟩

/-- With no strobe up, nobody is asked. -/
theorem nobody_asked {pins : Pins} (h : pins.AtRest) :
    pins.asksMemory = false ∧ pins.givesMemory = false ∧ pins.turnToDevice = false := by
  simp only [Pins.AtRest, Pins.strobes, Prod.mk.injEq] at h
  obtain ⟨hm1, hmreq, hiorq, hrd, hwr⟩ := h
  rw [Pins.asksMemory, Pins.givesMemory, Pins.memoryRequest, Pins.turnToDevice,
    Pins.interruptAcknowledge, hm1, hmreq, hiorq, hrd, hwr]
  exact ⟨rfl, rfl, rfl⟩

/-- Before the first half-period of a cycle the diagram has no strobe up. -/
theorem outputs_zero (cycle : ActiveCycle) : (cycle.outputs 0).AtRest := by
  rw [ActiveCycle.outputs]
  split <;> rfl

/-- While the memory request is up, the refresh strobe is as the diagram has it. -/
theorem Wired.refresh_of_request (h : c.Wired half) (hasserted : c.pins.mreq.isAsserted = true) :
    c.pins.rfsh = (c.cycle.outputs half).rfsh := by
  refine h.refresh ?_
  rintro rfl
  have hrest := h.strobes.trans (outputs_zero c.cycle)
  simp only [Pins.strobes, Prod.mk.injEq] at hrest
  rw [hrest.2.1] at hasserted
  cases hasserted

/-- The pins of a chip that keeps to the diagram ask memory as the diagram does. -/
theorem Wired.memory (h : c.Wired half) :
    c.pins.asksMemory = (c.cycle.outputs half).asksMemory
      ∧ c.pins.givesMemory = (c.cycle.outputs half).givesMemory :=
  memory_congr h.strobes h.refresh_of_request

/-- Memory is asked for a byte in the middle of a cycle that reads from it. -/
theorem Wired.asksMemory_iff (h : c.Wired half) : c.pins.asksMemory = true ↔
    c.cycle.readsMemory = true ∧ 2 ≤ half ∧ half ≤ c.cycle.pattern.sampleHalf := by
  rw [h.memory.1]
  exact ActiveCycle.asksMemory_outputs

/-- Memory is given a byte late in a write. -/
theorem Wired.givesMemory_iff (h : c.Wired half) : c.pins.givesMemory = true ↔
    c.cycle.pattern = .write ∧ 4 ≤ half ∧ half ≤ 5 := by
  rw [h.memory.2]
  exact ActiveCycle.givesMemory_outputs

/-- The write strobe is up late in a write. -/
theorem Wired.wr_iff (h : c.Wired half) (hwrite : c.cycle.pattern = .write) :
    c.pins.wr.isAsserted = true ↔ 4 ≤ half ∧ half ≤ 5 := by
  have hstrobes := h.strobes
  simp only [Pins.strobes, Prod.mk.injEq] at hstrobes
  rw [hstrobes.2.2.2.2]
  rw [ActiveCycle.outputs]
  rw [hwrite]
  obtain rfl | rfl | rfl | rfl | rfl | rfl | rfl | rfl | rfl | ⟨n, rfl⟩ :=
    ActiveCycle.half_cases half <;>
    simp [ActiveCycle.writeOutputs, Level.isAsserted, Level.isLow]

/-- While memory or the chip itself has the data bus, the pins do not turn to a device. -/
theorem Wired.turnToDevice (h : c.Wired half) (hturns : c.pins.turnToDevice = true) :
    c.cycle.readsMemory = false ∧ c.cycle.pattern ≠ .write ∧ c.cycle.pattern ≠ .portWrite := by
  rw [turnToDevice_congr h.strobes] at hturns
  exact ActiveCycle.turnToDevice_outputs hturns

/-! ## An edge -/

theorem leaves_latchResult : c.Leaves c.latchResult := by
  have hwired : c.latchResult.wiredAs c = c.latchResult := (c.latchResult_wiredAs c).symm
  refine ⟨?_, ?_, ?_⟩ <;> rw [← hwired] <;> rfl

theorem leaves_nextCycle : c.Leaves c.nextCycle.1 := by
  cases hcode : c.instruction with
  | none =>
    rw [nextCycle_of_none hcode]
    cases c.chain <;> exact ⟨rfl, rfl, rfl⟩
  | some code =>
    rw [nextCycle_of_some hcode]
    cases c.cycles[c.position + 1]? <;> exact ⟨rfl, rfl, rfl⟩

theorem leaves_resolveNext : c.Leaves c.resolveNext := by
  obtain ⟨d, length, hnext, hbetween⟩ := c.resolveNext_begins
  rw [hnext]
  exact ⟨hbetween.pins, hbetween.address, hbetween.data⟩

/-- What is known of the chip `k` that an edge of `c` engages. -/
structure Engages (c k : Core) (inputs : InputLevels) : Prop where
  underway : k.Underway
  phase : k.phase = .running
  chosen : k.boundaryPending = false
  strobes : k.pins.strobes = c.pins.strobes
  address : k.address = c.address
  data : k.data = c.data
  /-- Amid a cycle it is the chip itself, with the inputs of the edge. -/
  amid : k.cycle.half ≠ 0 → k = c.sampleInputs inputs ∧ c.phase = .running
    ∧ c.boundaryPending = false
  /-- So it is whenever the chip is running an instruction. -/
  kept : c.phase = .running → c.boundaryPending = false → k = c.sampleInputs inputs

/-- A chip is made ready without touching a strobe or a bus. -/
theorem Readied.leaves {emitted : List Emission} (h : c.Readied k emitted) :
    k.pins.strobes = c.pins.strobes ∧ k.address = c.address ∧ k.data = c.data := by
  cases h with
  | running | returned => exact ⟨rfl, rfl, rfl⟩
  | @started d _ hd | @resolved d _ _ hd | @returnedResolved d _ _ hd =>
    have hleft := leaves_resolveNext (c := d)
    subst hd
    exact ⟨hleft.strobes, hleft.address, hleft.data⟩

/-- A sound chip that is made ready amid a cycle was running already. -/
theorem Readied.amid {emitted : List Emission} (h : c.Readied k emitted) (hsound : c.Sound)
    (hlater : k.cycle.half ≠ 0) : k = c ∧ c.phase = .running ∧ c.boundaryPending = false := by
  cases h with
  | running phase chosen => exact ⟨rfl, phase, chosen⟩
  | returned phase => exact absurd (hsound.released phase).2 hlater
  | started | resolved | returnedResolved => exact absurd (course_resolveNext _).2.1 hlater

theorem Readied.engages {emitted : List Emission}
    (h : (c.sampleInputs inputs).leaveReset.Readied k emitted) (hsound : c.Sound) :
    c.Engages k inputs := by
  have hsampled := (hsound.sampleInputs inputs).leaveReset
  obtain ⟨hunderway, hphase, hchosen⟩ := h.underway hsampled
  obtain ⟨hstrobes, haddress, hdata⟩ := h.leaves
  have hleft : (c.sampleInputs inputs).leaveReset.pins.strobes = c.pins.strobes
      ∧ (c.sampleInputs inputs).leaveReset.address = c.address
      ∧ (c.sampleInputs inputs).leaveReset.data = c.data := by
    rw [leaveReset]
    split <;> exact ⟨rfl, rfl, rfl⟩
  refine ⟨hunderway, hphase, hchosen, hstrobes.trans hleft.1, haddress.trans hleft.2.1,
    hdata.trans hleft.2.2, fun hlater => ?_, fun hrunning hnone => ?_⟩
  · obtain ⟨hsame, hrunning, hnone⟩ := h.amid hsampled hlater
    have hkept : (c.sampleInputs inputs).leaveReset = c.sampleInputs inputs := by
      rw [leaveReset] at hrunning ⊢
      split
      · next hreset =>
        rw [if_pos hreset] at hrunning
        cases hrunning
      · rfl
    rw [hkept] at hsame hrunning hnone
    exact ⟨hsame, hrunning, hnone⟩
  · have hkept : (c.sampleInputs inputs).leaveReset = c.sampleInputs inputs := by
      refine if_neg fun hreset => ?_
      have hreset' : c.phase = .reset := hreset
      cases hrunning.symm.trans hreset'
    rw [hkept] at h
    cases h with
    | running => rfl
    | returned phase | started phase | returnedResolved phase =>
      cases hrunning.symm.trans phase
    | resolved _ pending => cases hnone.symm.trans pending

/-- The chip that an edge engages. -/
theorem Sound.engages (h : c.Sound) (hk : c.engaged level inputs = some k) :
    c.Engages k inputs := by
  obtain ⟨emitted, hready⟩ := readied_engaged hk
  exact hready.engages h

/-- What an edge leaves: a chip with no strobe up that is not amid a cycle, or one that has run a
    half-period and has more of the cycle to come. -/
inductive Outcome (engaged : Option Core) (d : Core) : Prop where
  | rests (rest : d.pins.AtRest)
    (first : d.phase = .running → d.boundaryPending = false → d.cycle.half = 0)
    (closed : ∀ k, engaged = some k → k.runHalf.2 = true ∧ k.runHalf.1.pins.AtRest)
  | amid (k : Core) (runs : engaged = some k) (more : k.runHalf.2 = false) (result : d = k.runHalf.1)

/-- Running a half-period leads to one of these. -/
theorem Underway.outcome {emitted : List Emission} (h : c.Underway) (stopping : Bool) :
    Outcome (some c) ((c.runEdge emitted).finish stopping).1 := by
  rw [runEdge_eq]
  rcases h.runHalf with ⟨hmore, -⟩ | ⟨hlast, hcloses, hwired⟩
  · rw [hmore]
    exact .amid c rfl hmore rfl
  · rw [if_pos hlast, endCycle_eq]
    have hleft := (leaves_latchResult (c := c.runHalf.1)).trans leaves_nextCycle
    have hclosed := hcloses.atRest hwired
    have hrest : c.runHalf.1.latchResult.nextCycle.1.pins.AtRest := hleft.strobes.trans hclosed
    have hends (k : Core) (hk : some c = some k) :
        k.runHalf.2 = true ∧ k.runHalf.1.pins.AtRest := by
      obtain rfl := Option.some.inj hk
      exact ⟨hlast, hclosed⟩
    rcases hcloses.next with ⟨hmore, -, hhalf, -⟩ | ⟨hend, -⟩
    · rw [if_neg (Bool.eq_false_iff.mp hmore)]
      exact .rests hrest (fun _ _ => hhalf) hends
    · rw [if_pos hend]
      cases stopping with
      | true => exact .rests hrest (fun _ hnone => nomatch hnone) hends
      | false =>
        exact .rests (leaves_resolveNext.strobes.trans hrest)
          (fun _ _ => (course_resolveNext _).2.1) hends

/-- Every edge does. -/
theorem Sound.outcome (h : c.Sound) (level : Level) (inputs : InputLevels) (stopping : Bool) :
    Outcome (c.engaged level inputs) ((c.edge level inputs).finish stopping).1 := by
  have hsampled := (h.sampleInputs inputs).leaveReset
  have hturn := c.turn level inputs
  generalize c.engaged level inputs = engaged at hturn ⊢
  generalize c.edge level inputs = e at hturn ⊢
  cases hturn with
  | resets => exact .rests rfl (fun hphase => nomatch hphase) (fun _ hnone => nomatch hnone)
  | @passes s sampled phase =>
    subst sampled
    rcases phase with hwaiting | hreleased
    · exact .rests (hsampled.waiting (Or.inl hwaiting))
        (fun hphase => nomatch hwaiting.symm.trans hphase) (fun _ hnone => nomatch hnone)
    · obtain ⟨hunderway, hfirst⟩ := hsampled.released hreleased
      exact .rests (hunderway.atRest hfirst) (fun _ _ => hfirst) (fun _ hnone => nomatch hnone)
  | grants => exact .rests rfl (fun hphase => nomatch hphase) (fun _ hnone => nomatch hnone)
  | begins ready | continues ready => exact (ready.underway hsampled).1.outcome stopping

end Core

end Z80Board
