import Z80Board.Proofs.Chip.Facing
import Z80Board.Proofs.Rig.Doubles
import Z80Board.Proofs.Rig.Ports

/-! # IX and IY exchanged

    Two boards run an instruction from the same address, on the same clock and with the same levels of
    the host.  The second one has mirrored registers, and each index prefix in front of the instruction
    is the other one in its memory.  As long as no prefix is read as anything but a prefix, and none is
    overwritten, every edge leaves them mirrored: the pins, the addresses, the cycles and all bytes but
    the prefixes are the same, and so are the registers but for IX and IY. -/

namespace Z80Board

/-! ## Memory -/

/-- Some places of memory have had their index prefixes exchanged, and the others are the same. -/
structure Exchanged (places : Nat → Prop) (bytes bytes' : Array Byte) : Prop where
  inside : ∀ place, places place → bytes'[place]? = bytes[place]?.map exchangePrefix
  outside : ∀ place, ¬ places place → bytes'[place]? = bytes[place]?

namespace Exchanged

variable {config : BoardConfig} {places : Nat → Prop} {bytes bytes' : Array Byte} {address : Word}

theorem size_eq (h : Exchanged places bytes bytes') : bytes'.size = bytes.size := by
  have hnone (place : Nat) : bytes'.size ≤ place ↔ bytes.size ≤ place := by
    rw [← Array.getElem?_eq_none_iff, ← Array.getElem?_eq_none_iff]
    by_cases hplace : places place
    · rw [h.inside place hplace, Option.map_eq_none_iff]
    · rw [h.outside place hplace]
  exact Nat.le_antisymm ((hnone _).mpr (Nat.le_refl _)) ((hnone _).mp (Nat.le_refl _))

/-- The byte at an address. -/
theorem byteAt_inside (h : Exchanged places bytes bytes') (hplace : places (config.index address)) :
    config.byteAt bytes' address = exchangePrefix (config.byteAt bytes address) := by
  rw [BoardConfig.byteAt, BoardConfig.byteAt, Array.getD_eq_getD_getElem?,
    Array.getD_eq_getD_getElem?, h.inside _ hplace]
  cases bytes[config.index address]? <;> rfl

theorem byteAt_outside (h : Exchanged places bytes bytes')
    (hplace : ¬ places (config.index address)) :
    config.byteAt bytes' address = config.byteAt bytes address := by
  rw [BoardConfig.byteAt, BoardConfig.byteAt, Array.getD_eq_getD_getElem?,
    Array.getD_eq_getD_getElem?, h.outside _ hplace]

/-- A store elsewhere does not matter. -/
theorem apply (h : Exchanged places bytes bytes') {store : Store}
    (hplace : ¬ places (config.index store.address)) :
    Exchanged places (config.apply bytes store) (config.apply bytes' store) := by
  refine ⟨fun place hin => ?_, fun place hout => ?_⟩
  · have hother : place ≠ config.index store.address := by
      rintro rfl
      exact hplace hin
    rw [BoardConfig.getElem?_apply_of_ne hother, BoardConfig.getElem?_apply_of_ne hother]
    exact h.inside place hin
  · exact BoardConfig.getElem?_apply_congr (h.outside place hout) store

end Exchanged

/-- The place holds an index prefix of the instruction at an address: there are nothing but index
    prefixes from the address up to it. -/
def BoardConfig.Prefixed (config : BoardConfig) (bytes : Array Byte) (pc : Word) (place : Nat) :
    Prop :=
  ∃ count : Nat, place = config.index (pc + count.toUInt16)
    ∧ Leading (config.byteAt bytes) pc (count + 1)

/-! ## Devices -/

section Devices

variable {level : Level} {pins : Pins} {address : Bus Word} {asked : Prop} {data data' : Bus Byte}

/-- What memory does not answer stays the same. -/
theorem Memory.answered_matches {m m' : Memory} (hsame : m'.driving = m.driving)
    (h : data.Matches (m.driving = false) data') :
    (m.answered pins address data).Matches (pins.asksMemory = false)
      (m'.answered pins address data') := by
  refine ⟨?_, fun hquiet => ?_⟩
  · rw [floating_answered, floating_answered]
    exact h.floating
  · rw [answered, answered, hquiet, if_neg Bool.false_ne_true, if_neg Bool.false_ne_true, hsame]
    cases hdrives : m.driving with
    | true => exact h.floating
    | false => exact h.value hdrives

/-- A latch that is given nothing changes the data bus as it would change any other one. -/
theorem PortLatch.edge_matches (hquiet : pins.wr.isAsserted = false) (l : PortLatch)
    (h : data.Matches asked data') :
    (l.edge pins address data').1 = (l.edge pins address data).1
      ∧ (l.edge pins address data).2.Matches asked (l.edge pins address data').2 := by
  have hgiven : l.given pins address.value = false := by
    rw [given, Pins.givesPort, hquiet]
    simp
  have hkept (byte : Byte) : l.kept pins address.value byte = l := by
    rw [kept, hgiven]
    rfl
  rw [edge_eq, edge_eq, hkept, hkept]
  refine ⟨rfl, ?_⟩
  show (l.carried pins address.value data).Matches asked (l.carried pins address.value data')
  unfold carried
  exact .ite (h.drive _) (.ite h.release h)

/-- A source does not look at the data bus. -/
theorem InterruptSource.edge_matches (s : InterruptSource) (h : data.Matches asked data') :
    (s.edge level pins data').1 = (s.edge level pins data).1
      ∧ (s.edge level pins data).2.Matches asked (s.edge level pins data').2 := by
  have hstops (s : InterruptSource) : (s.stopDriving data').1 = (s.stopDriving data).1
      ∧ (s.stopDriving data).2.Matches asked (s.stopDriving data').2 := by
    unfold stopDriving
    split
    · exact ⟨rfl, h.release⟩
    · exact ⟨rfl, h⟩
  have hanswers (s : InterruptSource) : (s.answer pins data').1 = (s.answer pins data).1
      ∧ (s.answer pins data).2.Matches asked (s.answer pins data').2 := by
    unfold answer
    split
    · exact ⟨rfl, h.drive _⟩
    split
    · exact hstops _
    split
    · split
      · exact ⟨rfl, h.drive _⟩
      · exact ⟨rfl, h⟩
    split
    · exact hstops _
    split
    · exact ⟨rfl, h⟩
    · exact ⟨rfl, h⟩
  unfold edge
  obtain ⟨hstate, hdata⟩ := hanswers
    (if level.isHigh then { s with risingEdges := s.risingEdges + 1 } else s)
  exact ⟨congrArg setLevels hstate, hdata⟩

/-- While nothing is written, the devices do the same whatever is on the data bus, and change it in the
    same way. -/
theorem Device.edge_matches (hquiet : pins.wr.isAsserted = false) (device : Device)
    (h : data.Matches asked data') :
    (device.edge level pins address data').1 = (device.edge level pins address data).1
      ∧ (device.edge level pins address data).2.Matches asked
        (device.edge level pins address data').2 := by
  induction device generalizing data data' with
  | unattached => exact ⟨rfl, h⟩
  | latch l =>
    obtain ⟨hstate, hdata⟩ := l.edge_matches hquiet h
    exact ⟨congrArg Device.latch hstate, hdata⟩
  | source s =>
    obtain ⟨hstate, hdata⟩ := s.edge_matches h
    exact ⟨congrArg Device.source hstate, hdata⟩
  | pair first second ihfirst ihsecond =>
    obtain ⟨hfirst, hdata⟩ := ihfirst h
    obtain ⟨hsecond, hdata'⟩ := ihsecond hdata
    exact ⟨congrArg₂ Device.pair hfirst hsecond, hdata'⟩

end Devices

/-! ## The first board -/

variable {config : BoardConfig} {bytes : Array Byte} {pc : Word} {b b' b₀ : Board} {k : Core}
  {level level₀ : Level}

namespace Board

/-- Unless memory is given a byte, no byte changes. -/
theorem bytes_edge_of_kept (hkept : (b.moved level).pins.givesMemory = false) :
    (b.edge level).1.memory.bytes = b.memory.bytes := by
  rw [(b.edge_parts level).1, Memory.edge_eq, hkept]
  rfl

/-- None does when an instruction ends. -/
theorem Settled.bytes_ended (h : b.Settled)
    (hended : (b.core.edge level b.inputs).ended = true) :
    (b.edge level).1.memory.bytes = b.memory.bytes := by
  obtain ⟨stopping, hstep⟩ := b.moved_eq level
  have houtcome := h.sound.outcome level b.inputs stopping
  rw [← hstep] at houtcome
  cases houtcome with
  | rests rest => exact bytes_edge_of_kept (Core.nobody_asked rest).2.1
  | amid k runs more result =>
    obtain ⟨emitted, hedge⟩ := Core.edge_of_engaged runs
    rw [hedge, Core.runEdge_eq, more] at hended
    cases hended

/-- The board comes over the index prefixes of the instruction at an address, or has come over them.
    As long as one would still count, memory is as it was. -/
structure Nears (config : BoardConfig) (bytes : Array Byte) (pc : Word) (b : Board) : Prop where
  orderly : b.Orderly config
  settled : b.Settled
  amid : b.core.Amid
  memory : b.core.fromMemory = true
  nears : b.core.Nears (config.byteAt bytes) pc
  untouched : b.core.awaits = true → b.memory.bytes = bytes

/-- As long as an index prefix would still count, the chip asks memory for the byte at PC before it
    takes it in. -/
theorem Nears.asks (h : b.Nears config bytes pc) (hawaits : b.core.awaits = true)
    (hhalf : b.core.cycle.half = 4) : b.core.pins.asksMemory = true := by
  have hunderway := h.amid.underway h.settled.sound
  obtain ⟨hnone, hother⟩ := Core.origin_of_fromMemory h.memory
  have hfetch : b.core.cycle.pattern = .fetch := by
    refine (hunderway.course.fetching hawaits).2.resolve_right fun hack => ?_
    cases (hunderway.course.acknowledges hack).1.symm.trans hnone
  have hown : b.core.cycle.fromDevice = false :=
    Bool.eq_false_iff.mpr fun hdevice => hother (h.orderly.phased.sourced h.amid.phase hdevice)
  refine hunderway.wired.asksMemory_iff.mpr ⟨?_, by omega, ?_⟩
  · rw [ActiveCycle.readsMemory, hfetch, hown]
    rfl
  · rw [hhalf, hfetch]
    decide

/-- What memory answers is the byte there. -/
theorem Nears.byte (h : b.Nears config bytes pc) (hasks : b.core.pins.asksMemory = true) :
    b.core.data.value = config.byteAt b.memory.bytes b.core.address.value := by
  rw [h.settled.asked hasks, h.orderly.fits.byteAt_eq]

/-- Memory is asked for a byte amid a cycle only, and as long as an index prefix would count, for the
    one at PC. -/
theorem Nears.address (h : b.Nears config bytes pc) (hawaits : b.core.awaits = true)
    (hasks : b.core.pins.asksMemory = true) : b.core.address.value = b.core.regs.pc := by
  have hunderway := h.amid.underway h.settled.sound
  obtain ⟨-, hlater, hroom⟩ := hunderway.wired.asksMemory_iff.mp hasks
  refine h.nears.located hawaits (by omega) ?_
  rcases (hunderway.course.fetching hawaits).2 with hpattern | hpattern <;> rw [hpattern] at hroom <;>
    exact hroom

/-- The board after an edge that does not complete the instruction. -/
theorem moved_of_goes (hgoes : (b.core.edge level b.inputs).ended = false) :
    b.moved level = (b.core.edge level b.inputs).core := by
  obtain ⟨stopping, hstep⟩ := b.moved_eq level
  rw [hstep, Edge.finish, hgoes]
  rfl

/-- No byte changes on an edge that leaves an index prefix to count. -/
theorem Settled.bytes_awaiting (h : b.Settled)
    (hawaits : ∀ k, b.engaged level = some k → k.awaits = true) :
    (b.edge level).1.memory.bytes = b.memory.bytes := by
  obtain ⟨stopping, hstep⟩ := b.moved_eq level
  have houtcome := h.sound.outcome level b.inputs stopping
  rw [← hstep] at houtcome
  refine bytes_edge_of_kept ?_
  cases houtcome with
  | rests rest => exact (Core.nobody_asked rest).2.1
  | amid k runs more result =>
    have hunderway := (h.sound.engages runs).underway
    rw [result]
    refine Bool.eq_false_iff.mpr fun hgives => ?_
    have hwrite := ((hunderway.amid more).wired.givesMemory_iff.mp hgives).1
    rw [Core.pattern_runHalf] at hwrite
    rcases (hunderway.course.fetching (hawaits k runs)).2 with hpattern | hpattern <;>
      cases hpattern.symm.trans hwrite

/-- The chip that an edge engages is as far as the board. -/
theorem Nears.engaged (h : b.Nears config bytes pc) (hk : b.core.Engages k b.inputs)
    (hlogic : k.logic = b.core.logic) (hhalf : k.cycle.half = b.core.cycle.half) :
    k.Nears (config.byteAt bytes) pc ∧ k.fromMemory = true
      ∧ (k.awaits = true → k.cycle.half = 4 → k.data.value = config.byteAt bytes k.regs.pc) := by
  obtain ⟨hawaits, hpc, hmemory⟩ : k.awaits = b.core.awaits ∧ k.regs.pc = b.core.regs.pc
      ∧ k.fromMemory = b.core.fromMemory := by
    have hall : (k.awaits, k.regs.pc, k.fromMemory)
        = (b.core.awaits, b.core.regs.pc, b.core.fromMemory) :=
      (congrArg (fun d : Core => (d.awaits, d.regs.pc, d.fromMemory)) hlogic :)
    simpa only [Prod.mk.injEq] using hall
  refine ⟨h.nears.of_logic hlogic fun hcounts => ?_, hmemory.trans h.memory, fun hcounts hfour => ?_⟩
  · rw [hk.address, hhalf, hpc]
    exact h.nears.located (hawaits ▸ hcounts)
  · rw [hawaits] at hcounts
    have hasks := h.asks hcounts (hhalf ▸ hfour)
    rw [hk.data, hpc, h.byte hasks, h.address hcounts hasks, h.untouched hcounts]

/-- A board whose chip has come so far on an edge. -/
theorem nears_edge (horderly : b.Orderly config) (hsettled : b.Settled)
    (hgoes : (b.core.edge level b.inputs).ended = false)
    (hamid : (b.core.edge level b.inputs).core.Amid)
    (hmemory : (b.core.edge level b.inputs).core.fromMemory = true)
    (hnears : (b.core.edge level b.inputs).core.Nears (config.byteAt bytes) pc)
    (hback : (b.core.edge level b.inputs).core.awaits = true →
      b.memory.bytes = bytes ∧ ∀ k, b.engaged level = some k → k.awaits = true) :
    (b.edge level).1.Nears config bytes pc := by
  have hcore := (b.edge_parts level).2.2
  rw [moved_of_goes hgoes] at hcore
  refine ⟨horderly.edge level, hsettled.edge level, ?_, ?_, ?_, fun hawaits => ?_⟩
  · rw [hcore]
    exact ⟨hamid.phase, hamid.chosen⟩
  · rw [hcore]
    exact hmemory
  · rw [hcore]
    exact ⟨hnears.reached, hnears.located⟩
  · rw [hcore] at hawaits
    obtain ⟨hbytes, hengaged⟩ := hback hawaits
    rw [hsettled.bytes_awaiting hengaged]
    exact hbytes

/-- An edge that does not complete the instruction keeps the board so. -/
theorem Nears.edge (h : b.Nears config bytes pc) (hreset : b.inputs.reset.isAsserted = false)
    (hgoes : (b.core.edge level b.inputs).ended = false) : (b.edge level).1.Nears config bytes pc := by
  have hpass : b.core.Pass (b.core.edge level b.inputs) (b.core.engaged level b.inputs) :=
    h.amid.pass hreset
  have hsame (e : Core) (hlogic : e.logic = b.core.logic) : e.fromMemory = true
      ∧ (e.awaits = true → b.core.awaits = true) := by
    have hall : (e.fromMemory, e.awaits) = (b.core.fromMemory, b.core.awaits) :=
      (congrArg (fun d : Core => (d.fromMemory, d.awaits)) hlogic :)
    obtain ⟨hmemory, hawaits⟩ := Prod.mk.inj hall
    exact ⟨hmemory.trans h.memory, fun hcounts => hawaits ▸ hcounts⟩
  -- an edge without a half-period leaves the chip where it was
  cases hengaged : b.core.engaged level b.inputs with
  | none =>
    rw [hengaged] at hpass
    cases hpass with
    | stalls logic half amid =>
      obtain ⟨hmemory, hback⟩ := hsame _ logic
      have hfirst := half.trans (h.amid.first_of_stalls h.settled.sound hreset hengaged)
      refine nears_edge h.orderly h.settled hgoes amid hmemory
        (h.nears.of_logic logic fun _ hlater => absurd hfirst hlater)
        fun hawaits => ⟨h.untouched (hback hawaits), fun k hk => ?_⟩
      cases hengaged.symm.trans hk
  | some k =>
    rw [hengaged] at hpass
    have hk := h.settled.sound.engages hengaged
    obtain ⟨hlogic, hhalf, hamid⟩ : k.logic = b.core.logic ∧ k.cycle.half = b.core.cycle.half
        ∧ (b.core.edge level b.inputs).core.Amid := by
      cases hpass with
      | runs logic half _ _ amid => exact ⟨logic, half, amid⟩
      | closes logic half _ _ _ amid => exact ⟨logic, half, amid⟩
    obtain ⟨hnears, hmemory, hbyte⟩ := h.engaged hk hlogic hhalf
    obtain ⟨emitted, hedge⟩ := Core.edge_of_engaged hengaged
    have hgoes' := hgoes
    rw [hedge] at hgoes'
    obtain ⟨hnext, hback⟩ := hnears.runEdge hk.underway hmemory hbyte hgoes'
    refine nears_edge h.orderly h.settled hgoes hamid ?_ ?_ fun hawaits => ?_
    · rw [hedge, Core.fromMemory_runEdge]
      exact hmemory
    · rw [hedge]
      exact hnext
    · rw [hedge] at hawaits
      refine ⟨h.untouched ((hsame k hlogic).2 (hback hawaits)), fun k' hk' => ?_⟩
      obtain rfl := Option.some.inj (hengaged.symm.trans hk')
      exact hback hawaits

/-! ## Both boards -/

/-- Memory is not asked for a byte in one of the places, but where an index prefix would still count,
    and it is not given one either. -/
structure Spares (config : BoardConfig) (places : Nat → Prop) (b : Board) : Prop where
  asked : b.core.pins.asksMemory = true → b.core.awaits = false →
    ¬ places (config.index b.core.address.value)
  given : b.core.pins.givesMemory = true → ¬ places (config.index b.core.address.value)

/-- The second board has exchanged prefixes in its memory.  All else that stands around the chip is the
    same. -/
structure Resembles (places : Nat → Prop) (b b' : Board) : Prop where
  bytes : Exchanged places b.memory.bytes b'.memory.bytes
  memory : b'.memory = { b.memory with bytes := b'.memory.bytes }
  device : b'.device = b.device
  host : b'.host = b.host

/-- And its chip faces the other one. -/
structure Reflects (places : Nat → Prop) (b b' : Board) : Prop extends b.Resembles places b' where
  chips : b.core.Faces b'.core

section Answers

variable {places : Nat → Prop}

/-- Both see the same levels. -/
theorem Resembles.inputs (h : b.Resembles places b') : b'.inputs = b.inputs := by
  rw [Board.inputs, Board.inputs, h.host, h.device, h.memory]

/-- What a chip puts out is answered in the same way as what one puts out that faces it, unless memory
    is given a byte in one of the places. -/
theorem Resembles.edge (h : b.Resembles places b') (hfits : b.memory.Fits config)
    (hfits' : b'.memory.Fits config) (hdriving : b.memory.driving = b.core.pins.asksMemory)
    (hsound : b.core.Sound) (hchips : (b.moved level).Faces (b'.moved level))
    (hdata : (b.moved level).data.Matches (b.core.pins.asksMemory = false) (b'.moved level).data)
    (hspares : (b.moved level).pins.givesMemory = true →
      ¬ places (config.index (b.moved level).address.value)) :
    (b.edge level).1.Reflects places (b'.edge level).1
      ∧ (b.edge level).1.core.data.Matches ((b.edge level).1.core.pins.asksMemory = false)
        (b'.edge level).1.core.data := by
  obtain ⟨stopping, hstep⟩ := b.moved_eq level
  obtain ⟨hmemory, hdevice, hcore⟩ := b.edge_parts level
  obtain ⟨hmemory', hdevice', hcore'⟩ := b'.edge_parts level
  have hshares := hchips.shares
  rw [hshares.pins, hshares.address] at hmemory' hdevice' hcore'
  have hmoved : (b.moved level).Sound := by
    rw [hstep]
    exact (hsound.edge level b.inputs).finish stopping
  have hanswered : (b.memory.answered (b.moved level).pins (b.moved level).address
      (b.moved level).data).Matches ((b.moved level).pins.asksMemory = false)
      (b'.memory.answered (b.moved level).pins (b.moved level).address (b'.moved level).data) :=
    Memory.answered_matches (by rw [h.memory]) (by rw [hdriving]; exact hdata)
  -- whoever asks memory for a byte gives no device one
  have hdevices : (b'.edge level).1.device = (b.edge level).1.device
      ∧ (b.edge level).1.core.data.Matches ((b.moved level).pins.asksMemory = false)
        (b'.edge level).1.core.data := by
    rw [hdevice, hdevice', hcore, hcore', h.device]
    dsimp only
    cases hasks : (b.moved level).pins.asksMemory with
    | true =>
      rw [hasks] at hanswered
      refine Device.edge_matches ?_ b.device hanswered
      have hgives := hmoved.givesMemory_of_asksMemory hasks
      rw [Pins.asksMemory, Bool.and_eq_true] at hasks
      rw [Pins.givesMemory, hasks.1, Bool.true_and] at hgives
      exact hgives
    | false =>
      rw [hanswered.eq hasks]
      exact ⟨rfl, .refl _⟩
  have hpins : (b.edge level).1.core.pins = (b.moved level).pins := by rw [hcore]
  rw [hpins]
  refine ⟨⟨⟨?_, ?_, hdevices.1, h.host⟩, ?_⟩, hdevices.2⟩
  · rw [hmemory, hmemory', Memory.edge_eq, Memory.edge_eq]
    dsimp only
    cases hgives : (b.moved level).pins.givesMemory with
    | false => exact h.bytes
    | true =>
      have hquiet : (b.moved level).pins.asksMemory = false := by
        refine Bool.eq_false_iff.mpr fun hasks => ?_
        cases (hmoved.givesMemory_of_asksMemory hasks).symm.trans hgives
      rw [if_pos rfl, if_pos rfl, hfits.stored_eq, hfits'.stored_eq, hanswered.value hquiet]
      exact h.bytes.apply (hspares hgives)
  · rw [hmemory, hmemory', h.memory, Memory.edge_eq, Memory.edge_eq]
    rfl
  · rw [hcore, hcore']
    exact hchips.of_data _ _

end Answers

/-- The boards amid the instruction. -/
structure Mirroring (config : BoardConfig) (bytes : Array Byte) (pc : Word) (b b' : Board) : Prop where
  nears : b.Nears config bytes pc
  orderly : b'.Orderly config
  settled : b'.Settled
  reflects : b.Reflects (config.Prefixed bytes pc) b'
  spares : b.Spares config (config.Prefixed bytes pc)
  /-- What is on the data bus is the same, unless it has come from memory. -/
  data : b.core.data.Matches (b.core.pins.asksMemory = false) b'.core.data

/-- What the chips are about to take in corresponds. -/
theorem Mirroring.corresponds (h : b.Mirroring config bytes pc b')
    (hhalf : b.core.cycle.half = b.core.cycle.pattern.sampleHalf) :
    b.core.Corresponds b.core.data.value b'.core.data.value := by
  have hshares := h.reflects.chips.shares
  cases hasks : b.core.pins.asksMemory with
  | false =>
    have hlate : b.core.awaits = false := by
      refine Bool.eq_false_iff.mpr fun hawaits => ?_
      have hunderway := h.nears.amid.underway h.nears.settled.sound
      have hfour : b.core.cycle.half = 4 := by
        rw [hhalf]
        rcases (hunderway.course.fetching hawaits).2 with hpattern | hpattern <;> rw [hpattern] <;> rfl
      cases hasks.symm.trans (h.nears.asks hawaits hfour)
    exact (Core.corresponds_of_late hlate).mpr (h.data.value hasks)
  | true =>
    have hbyte := h.nears.byte hasks
    have hbyte' : b'.core.data.value = config.byteAt b'.memory.bytes b.core.address.value := by
      have hasks' : b'.core.pins.asksMemory = true := by
        rw [hshares.pins]
        exact hasks
      rw [h.settled.asked hasks', h.orderly.fits.byteAt_eq, hshares.address]
    rw [Core.Corresponds, hbyte, hbyte']
    cases hawaits : b.core.awaits with
    | false =>
      rw [if_neg Bool.false_ne_true]
      exact h.reflects.bytes.byteAt_outside (h.spares.asked hasks hawaits)
    | true =>
      rw [if_pos rfl]
      by_cases hplace : config.Prefixed bytes pc (config.index b.core.address.value)
      · exact h.reflects.bytes.byteAt_inside hplace
      · rw [h.reflects.bytes.byteAt_outside hplace]
        refine (exchangePrefix_other fun x hx => hplace ?_).symm
        -- a prefix there would be one of the instruction
        obtain ⟨count, hpc, hleading⟩ := h.nears.nears.reached hawaits
        have haddress := (h.nears.address hawaits hasks).trans hpc
        refine ⟨count, congrArg config.index haddress, hleading.succ ⟨x, ?_⟩⟩
        rw [← haddress, ← h.nears.untouched hawaits]
        exact hx

/-- The chips go on facing each other. -/
theorem Mirroring.edges (h : b.Mirroring config bytes pc b')
    (hreset : b.inputs.reset.isAsserted = false) (level : Level) :
    Core.Faces.Edges b.core b'.core (b.core.edge level b.inputs) (b'.core.edge level b'.inputs) := by
  have hcourse := (h.nears.amid.underway h.nears.settled.sound).course
  rw [h.reflects.inputs]
  exact h.reflects.chips.edge h.nears.amid hcourse (fun hhalf _ => h.corresponds hhalf) hreset level

/-- An edge that does not complete the instruction keeps the boards so. -/
theorem Mirroring.edge (h : b.Mirroring config bytes pc b')
    (hreset : b.inputs.reset.isAsserted = false)
    (hgoes : (b.core.edge level b.inputs).ended = false)
    (hspares : (b.edge level).1.Spares config (config.Prefixed bytes pc)) :
    (b.edge level).1.Mirroring config bytes pc (b'.edge level).1 := by
  have hedges := h.edges hreset level
  have hmoved := moved_of_goes hgoes
  have hmoved' := moved_of_goes (hedges.ended.trans hgoes)
  have hgiven := hspares.given
  rw [(b.edge_parts level).2.2] at hgiven
  obtain ⟨hreflects, hdata⟩ := h.reflects.toResembles.edge h.nears.orderly.fits h.orderly.fits
    h.nears.settled.driving h.nears.settled.sound (by rw [hmoved, hmoved']; exact hedges.faces)
    (by rw [hmoved, hmoved']; exact hedges.data _ h.data) hgiven
  exact ⟨h.nears.edge hreset hgoes, h.orderly.edge level, h.settled.edge level, hreflects, hspares,
    hdata⟩

/-- The host may drive the pins and follow the chips. -/
theorem Mirroring.set (h : b.Mirroring config bytes pc b') (host : InputLevels)
    (hooks hooks' : Hooks) :
    ({ b with host, processor.hooks := hooks } : Board).Mirroring config bytes pc
      { b' with host, processor.hooks := hooks' } := by
  have horderly (d : Board) (hd : d.Orderly config) (hooks : Hooks) :
      ({ d with host, processor.hooks := hooks } : Board).Orderly config :=
    ⟨hd.sound, hd.phased, hd.driving, hd.turned, hd.fits⟩
  have hsettled (d : Board) (hd : d.Settled) (hooks : Hooks) :
      ({ d with host, processor.hooks := hooks } : Board).Settled :=
    ⟨hd.sound, hd.staged, hd.driving, hd.asked, hd.given, hd.turned⟩
  obtain ⟨⟨hfirst, hready, hamid, hmemory, hnears, huntouched⟩, hsecond, hready', hreflects, hspares,
    hdata⟩ := h
  obtain ⟨⟨hbytes, hsame, hdevice, -⟩, hchips⟩ := hreflects
  exact ⟨⟨horderly b hfirst hooks, hsettled b hready hooks, hamid, hmemory, hnears, huntouched⟩,
    horderly b' hsecond hooks', hsettled b' hready' hooks',
    ⟨⟨hbytes, hsame, hdevice, rfl⟩, hchips⟩, ⟨hspares.asked, hspares.given⟩, hdata⟩

/-! ## The first edge -/

/-- An instruction is not over at once. -/
theorem Opens.goes (h : b.Opens level k) (hk : b.core.Engages k b.inputs) :
    k.runHalf.2 = false ∧ (b.core.edge level b.inputs).ended = false := by
  have hmore : k.runHalf.2 = false := hk.underway.more_of_early (by rw [h.half]; decide)
  obtain ⟨emitted, hedge⟩ := Core.edge_of_engaged h.engaged
  refine ⟨hmore, ?_⟩
  rw [hedge, Core.runEdge_eq, hmore]
  rfl

/-- The first half-period leaves memory alone. -/
theorem Opens.spares (h : b.Opens level k) (hk : b.core.Engages k b.inputs) (places : Nat → Prop) :
    (b.edge level).1.Spares config places := by
  obtain ⟨hmore, hgoes⟩ := h.goes hk
  obtain ⟨emitted, hedge⟩ := Core.edge_of_engaged h.engaged
  have hmoved : b.moved level = k.runHalf.1 := by
    rw [moved_of_goes hgoes, hedge, Core.runEdge_eq, hmore]
    rfl
  have hwired := (hk.underway.amid hmore).wired
  have hhalf : k.runHalf.1.cycle.half = 1 := by
    have hzero := h.half
    rcases hk.underway.half_runHalf hmore with ⟨-, hnext⟩ | ⟨-, hback, -⟩ <;> omega
  rw [hhalf] at hwired
  have hpins : (b.edge level).1.core.pins = k.runHalf.1.pins := by
    rw [(b.edge_parts level).2.2, hmoved]
  constructor <;> rw [hpins]
  · intro hasks
    obtain ⟨-, hlate, -⟩ := hwired.asksMemory_iff.mp hasks
    omega
  · intro hgives
    obtain ⟨-, hlate, -⟩ := hwired.givesMemory_iff.mp hgives
    omega

/-- The second board opens the instruction as the first one does. -/
theorem Opens.reflected (h : b.Opens level k) (hooks : Hooks) (bytes : Array Byte) :
    (b.set b.host hooks Registers.mirror bytes).Opens level k.reflected := by
  refine ⟨?_, h.unknown, h.position, h.half, h.memory⟩
  show b.core.reflected.engaged level b.inputs = _
  rw [Core.engaged_reflected, show b.core.engaged level b.inputs = some k from h.engaged]
  rfl

/-- The first edge sets both boards going. -/
theorem Opens.mirroring (h : b.Opens level k) (hb : b.Orderly config) (hooks : Hooks)
    {bytes' : Array Byte}
    (hbytes : Exchanged (config.Prefixed b.memory.bytes k.regs.pc) b.memory.bytes bytes') :
    (b.edge level).1.Mirroring config b.memory.bytes k.regs.pc
      ((b.set b.host hooks Registers.mirror bytes').edge level).1 := by
  have hk := hb.sound.engages h.engaged
  have hb' : (b.set b.host hooks Registers.mirror bytes').Orderly config :=
    hb.changed b.host hooks Registers.mirror (hbytes.size_eq.trans hb.fits.size)
  have hopens' := h.reflected hooks bytes'
  have hk' := hb'.sound.engages hopens'.engaged
  have hsettled := (hb.carries hk h.half).settled
  have hsettled' := (hb'.carries hk' hopens'.half).settled
  have hgoes := (h.goes hk).2
  have hmoved := moved_of_goes hgoes
  have hmoved' := moved_of_goes (hopens'.goes hk').2
  obtain ⟨emitted, hedge⟩ := Core.edge_of_engaged h.engaged
  obtain ⟨emitted', hedge'⟩ := Core.edge_of_engaged hopens'.engaged
  -- no byte is taken in yet
  have hearly (half : Nat) (hhalf : 4 ≤ half) : k.cycle.half ≠ half := by
    have := h.half
    omega
  have hedges := (Core.faces_reflected h.unknown (h.page_eq hk)).runEdge hk.underway.course
    (fun hhalf => absurd hhalf (hearly _ k.cycle.pattern.four_le_sampleHalf)) emitted emitted'
  rw [← hedge, ← hedge'] at hedges
  have hresembles : b.Resembles (config.Prefixed b.memory.bytes k.regs.pc)
      (b.set b.host hooks Registers.mirror bytes') := ⟨hbytes, rfl, rfl, rfl⟩
  have hspares : (b.edge level).1.Spares config (config.Prefixed b.memory.bytes k.regs.pc) :=
    h.spares hk _
  have hgiven := hspares.given
  rw [(b.edge_parts level).2.2] at hgiven
  obtain ⟨hreflects, hdata⟩ := hresembles.edge hb.fits hb'.fits hsettled.driving hsettled.sound
    (by rw [hmoved, hmoved']; exact hedges.faces)
    (by rw [hmoved, hmoved']; exact hedges.data _ (.refl k.data)) hgiven
  refine ⟨?_, hb'.edge level, hsettled'.edge level, hreflects, hspares, hdata⟩
  have hamid : (b.core.edge level b.inputs).core.Amid := by
    have hpass : k.Pass (b.core.edge level b.inputs) (some k) :=
      Core.pass_engaged h.engaged ⟨Or.inl hk.phase, hk.chosen⟩
    cases hpass with
    | runs _ _ _ _ amid => exact amid
    | closes _ _ _ _ _ amid => exact amid
  have hgoes' := hgoes
  rw [hedge] at hgoes'
  obtain ⟨hnears, -⟩ := (Core.nears_first (config.byteAt b.memory.bytes) h.half).runEdge hk.underway
    h.memory (fun _ hfour => absurd hfour (hearly 4 (Nat.le_refl 4))) hgoes'
  refine nears_edge hb hsettled hgoes hamid ?_ ?_ fun _ => ⟨rfl, fun found hfound => ?_⟩
  · rw [hedge, Core.fromMemory_runEdge]
    exact h.memory
  · rw [hedge]
    exact hnears
  · obtain rfl := Option.some.inj (h.engaged.symm.trans hfound)
    rw [Core.awaits, h.unknown, h.page_eq hk]
    rfl

end Board

/-! ## Runs -/

/-- Two boards run side by side from the first edge of an instruction on.  Their clocks have the same
    levels, and so has the host.  RESET stays released, and the first board spares the places. -/
inductive Alongside (config : BoardConfig) (places : Nat → Prop) (b₀ b₀' : Board) (level₀ : Level) :
    Board → Board → Prop where
  | first : Alongside config places b₀ b₀' level₀ (b₀.edge level₀).1 (b₀'.edge level₀).1
  | edge {b b' : Board} (h : Alongside config places b₀ b₀' level₀ b b') (level : Level)
    (reset : b.host.reset.isAsserted = false)
    (goes : (b.core.edge level b.inputs).ended = false)
    (spares : (b.edge level).1.Spares config places) :
    Alongside config places b₀ b₀' level₀ (b.edge level).1 (b'.edge level).1
  | set {b b' : Board} (h : Alongside config places b₀ b₀' level₀ b b') (host : InputLevels)
    (hooks hooks' : Hooks) :
    Alongside config places b₀ b₀' level₀ { b with host, processor.hooks := hooks }
      { b' with host, processor.hooks := hooks' }

theorem Alongside.mirroring {b₀' : Board}
    (h : Alongside config (config.Prefixed bytes pc) b₀ b₀' level₀ b b')
    (hfirst : (b₀.edge level₀).1.Mirroring config bytes pc (b₀'.edge level₀).1) :
    b.Mirroring config bytes pc b' := by
  induction h with
  | first => exact hfirst
  | edge _ level reset goes spares ih => exact ih.edge reset goes spares
  | set _ host hooks hooks' ih => exact ih.set host hooks hooks'

/-- DD and FD are mirror images.  An instruction from memory begins on a board, at any registers and
    over any bytes; on a second board with the same devices, IX and IY are exchanged, and so are the
    index prefixes of the instruction.  As long as the instruction reads none of these as anything but a
    prefix, and overwrites none, the second board does on every edge what the first one does: the pins,
    the addresses, the cycles, the clock and the registers are the same, but IX and IY are exchanged,
    and the bytes of memory are the same but for the prefixes.  The instructions end on the same edge,
    and so they leave the boards. -/
theorem Attended.executes_mirrored (h : Attended config b₀) (hopens : b₀.Opens level₀ k)
    (hooks : Hooks) {bytes' : Array Byte}
    (hbytes : Exchanged (config.Prefixed b₀.memory.bytes k.regs.pc) b₀.memory.bytes bytes') :
    (b₀.set b₀.host hooks Registers.mirror bytes').Opens level₀ k.reflected
      ∧ ∀ b b', Alongside config (config.Prefixed b₀.memory.bytes k.regs.pc) b₀
          (b₀.set b₀.host hooks Registers.mirror bytes') level₀ b b' →
        b.Reflects (config.Prefixed b₀.memory.bytes k.regs.pc) b'
          ∧ ∀ level, b.host.reset.isAsserted = false →
            (b'.core.edge level b'.inputs).ended = (b.core.edge level b.inputs).ended
              ∧ (b.core.edge level b.inputs).core.Faces (b'.core.edge level b'.inputs).core
              ∧ ((b.core.edge level b.inputs).ended = true →
                Exchanged (config.Prefixed b₀.memory.bytes k.regs.pc)
                  (b.edge level).1.memory.bytes (b'.edge level).1.memory.bytes) := by
  refine ⟨hopens.reflected hooks bytes', fun b b' hrun => ?_⟩
  have hmirroring := hrun.mirroring (hopens.mirroring h.orderly hooks hbytes)
  refine ⟨hmirroring.reflects, fun level hreset => ?_⟩
  have hedges := hmirroring.edges hreset level
  refine ⟨hedges.ended, hedges.faces, fun hended => ?_⟩
  rw [hmirroring.nears.settled.bytes_ended hended,
    hmirroring.settled.bytes_ended (hedges.ended.trans hended)]
  exact hmirroring.reflects.bytes

/-- Two boards side by side on some edges, as long as RESET is released, no instruction ends, and the
    first one spares the first places of memory. -/
def Board.abreast (config : BoardConfig) (count : Nat) (b b' : Board) :
    List Level → Option (Board × Board)
  | [] => some (b, b')
  | level :: rest =>
    let c := (b.edge level).1
    if b.host.reset.isAsserted || (b.core.edge level b.inputs).ended
        || ((c.core.pins.asksMemory && !c.core.awaits || c.core.pins.givesMemory)
          && decide (config.index c.core.address.value < count)) then none
    else c.abreast config count (b'.edge level).1 rest

theorem Alongside.abreast {places : Nat → Prop} {count : Nat} {b₀' : Board}
    (h : Alongside config places b₀ b₀' level₀ b b') (hplaces : ∀ place, places place → place < count)
    {levels : List Level} {c c' : Board}
    (habreast : b.abreast config count b' levels = some (c, c')) :
    Alongside config places b₀ b₀' level₀ c c' := by
  induction levels generalizing b b' with
  | nil =>
    cases habreast
    exact h
  | cons level rest ih =>
    rw [Board.abreast] at habreast
    split at habreast
    · exact nomatch habreast
    · next hgoes =>
      simp only [Bool.or_eq_true, Bool.and_eq_true, Bool.not_eq_true', decide_eq_true_eq, not_or,
        not_and, Bool.not_eq_true] at hgoes
      obtain ⟨⟨hreset, hmore⟩, hspares⟩ := hgoes
      refine ih (h.edge level hreset hmore ⟨fun hasks hlate hplace => ?_, fun hgives hplace => ?_⟩)
        habreast
      · exact hspares (Or.inl ⟨hasks, hlate⟩) (hplaces _ hplace)
      · exact hspares (Or.inr hgives) (hplaces _ hplace)

/-- Three index prefixes, the last one like the first one, in front of a store of 77h behind the place
    that the index register leads to. -/
def storingBytes (first second : Index) : Array Byte :=
  ([first.selector, second.selector, first.selector, 0x36, 0x05, 0x77]
    ++ List.replicate 0x3FA 0).toArray

/-- A board that stores by way of IX. -/
def storingBoard : Board :=
  smallMachine.board.set {} {} (fun regs => { regs with ix := 0x100, iy := 0x200 })
    (storingBytes .ix .iy)

/-- The chip that runs its first half-period. -/
def storingChip : Core :=
  { storingBoard.core.sampleInputs storingBoard.inputs with phase := .running }.resolveNext

/-- The levels of the edges between its first half-period and its last one. -/
def storingLevels : List Level :=
  (List.range 52).map fun edge => Level.ofBool (edge % 2 == 0)

theorem prefixed_storing (place : Nat) :
    smallConfig.Prefixed storingBoard.memory.bytes storingChip.regs.pc place ↔ place < 3 := by
  have hpc : storingChip.regs.pc = 0 := by decide +kernel
  rw [hpc]
  constructor
  · rintro ⟨count, rfl, hleading⟩
    have hfew : count < 3 := by
      refine Nat.lt_of_not_le fun hmany => ?_
      obtain ⟨x, hx⟩ := hleading 3 (by omega)
      revert hx
      cases x <;> decide +kernel
    have hcases : count = 0 ∨ count = 1 ∨ count = 2 := by omega
    rcases hcases with rfl | rfl | rfl <;> decide +kernel
  · intro hplace
    refine ⟨place, ?_, fun i hi => ?_⟩
    · have hcases : place = 0 ∨ place = 1 ∨ place = 2 := by omega
      rcases hcases with rfl | rfl | rfl <;> decide +kernel
    · have hcases : i = 0 ∨ i = 1 ∨ i = 2 := by omega
      rcases hcases with rfl | rfl | rfl
      · exact ⟨.ix, by decide +kernel⟩
      · exact ⟨.iy, by decide +kernel⟩
      · exact ⟨.ix, by decide +kernel⟩

/-- The other board, where IY leads to the place. -/
def mirroredStoringBoard : Board :=
  storingBoard.set storingBoard.host {} Registers.mirror (storingBytes .iy .ix)

/-- Both end the store on the same edge, and the byte is in the same place. -/
theorem store_mirrored : ∃ b b' : Board,
    Alongside smallConfig (smallConfig.Prefixed storingBoard.memory.bytes storingChip.regs.pc)
        storingBoard mirroredStoringBoard .high b b'
      ∧ (b.core.edge .low b.inputs).ended = true ∧ (b'.core.edge .low b'.inputs).ended = true
      ∧ (b.core.edge .low b.inputs).core.Faces (b'.core.edge .low b'.inputs).core
      ∧ Exchanged (smallConfig.Prefixed storingBoard.memory.bytes storingChip.regs.pc)
        (b.edge .low).1.memory.bytes (b'.edge .low).1.memory.bytes
      ∧ (b'.edge .low).1.memory.bytes[0x105]? = some 0x77 := by
  have hstart : Attended smallConfig ({ smallMachine.board with
      memory.bytes := storingBytes .ix .iy } : Board) :=
    .start (show Machine.build smallConfig .unattached = .ok smallMachine from rfl)
      (by decide +kernel)
  have hattended : Attended smallConfig storingBoard :=
    hstart.set {} {} (fun regs => { regs with ix := 0x100, iy := 0x200 }) (storingBytes .ix .iy)
      (by decide +kernel)
  have hopens : storingBoard.Opens .high storingChip := by
    refine ⟨rfl, ?_, ?_, ?_, ?_⟩ <;> decide +kernel
  have hbytes : Exchanged (smallConfig.Prefixed storingBoard.memory.bytes storingChip.regs.pc)
      storingBoard.memory.bytes (storingBytes .iy .ix) := by
    refine ⟨fun place hplace => ?_, fun place hplace => ?_⟩ <;> rw [prefixed_storing] at hplace
    · have hcases : place = 0 ∨ place = 1 ∨ place = 2 := by omega
      rcases hcases with rfl | rfl | rfl <;> decide +kernel
    · obtain ⟨n, rfl⟩ := Nat.exists_eq_add_of_le' (Nat.le_of_not_lt hplace)
      show (storingBytes .iy .ix)[n + 3]? = (storingBytes .ix .iy)[n + 3]?
      simp only [storingBytes, List.getElem?_toArray, List.cons_append, List.getElem?_cons_succ]
  have hlast : (((storingBoard.edge .high).1.abreast smallConfig 3
      (mirroredStoringBoard.edge .high).1 storingLevels).any fun last =>
        !last.1.host.reset.isAsserted && (last.1.core.edge .low last.1.inputs).ended
          && decide ((last.2.edge .low).1.memory.bytes[0x105]? = some 0x77)) = true := by
    decide +kernel
  generalize hboards : (storingBoard.edge .high).1.abreast smallConfig 3
      (mirroredStoringBoard.edge .high).1 storingLevels = last at hlast
  cases last with
  | none => exact nomatch hlast
  | some last =>
    obtain ⟨b, b'⟩ := last
    simp only [Option.any_some, Bool.and_eq_true, Bool.not_eq_true', decide_eq_true_eq] at hlast
    obtain ⟨⟨hreset, hended⟩, hstored⟩ := hlast
    have halongside : Alongside smallConfig
        (smallConfig.Prefixed storingBoard.memory.bytes storingChip.regs.pc) storingBoard
        mirroredStoringBoard .high b b' :=
      Alongside.first.abreast (fun place hplace => (prefixed_storing place).mp hplace) hboards
    obtain ⟨hsame, hfaces, hleft⟩ :=
      ((Attended.executes_mirrored hattended hopens {} hbytes).2 b b' halongside).2 .low hreset
    exact ⟨b, b', halongside, hended, hsame.trans hended, hfaces, hleft hended, hstored⟩

end Z80Board
