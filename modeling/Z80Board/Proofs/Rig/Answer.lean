import Z80Board.Proofs.Chip.Buses
import Z80Board.Rig.Board

/-! # How the board answers the chip

    What memory and the devices make of the pins and the buses that the chip leaves at an edge.
    Memory drives the data bus exactly while it is asked for a byte, and stores what it is given.
    A device drives it only while the pins turn to a device, and otherwise leaves it alone.

    From this follows what holds between edges on every run, whatever stands on the board: the
    byte that the chip has staged is on the data bus, a byte that memory is asked for is there too,
    and a byte that memory is given has been stored. -/

namespace Z80Board

/-! ## Memory -/

namespace Memory

variable {m : Memory} {level : Level} {pins : Pins} {address : Bus Word} {data : Bus Byte}

/-- Where the address lines lead. -/
def place (m : Memory) (address : Bus Word) : Nat :=
  m.index (m.address.read address)

/-- The byte that the address lines lead to. -/
def byteAt (m : Memory) (address : Bus Word) : Byte :=
  m.bytes.getD (m.place address) 0

/-- The bytes with one more in the place that the address lines lead to, unless that is
    read-only. -/
def stored (m : Memory) (address : Bus Word) (byte : Byte) : Array Byte :=
  if m.isRom (m.place address) then m.bytes else m.bytes.setIfInBounds (m.place address) byte

/-- The data bus after an edge: the byte that memory is asked for, and afterwards floating lines. -/
def answered (m : Memory) (pins : Pins) (address : Bus Word) (data : Bus Byte) : Bus Byte :=
  if pins.asksMemory then data.drive (m.byteAt address)
  else if m.driving then data.release
  else data

theorem floating_answered (m : Memory) (pins : Pins) (address : Bus Word) (data : Bus Byte) :
    (m.answered pins address data).floating = data.floating := by
  rw [answered]
  split
  · rfl
  · split <;> rfl

/-- Memory drives or lets go by itself. -/
theorem drive_eq (index : Nat) :
    m.drive pins index data =
      ({ m with driving := m.selected && pins.rd.isAsserted },
        if m.selected && pins.rd.isAsserted then data.drive (m.bytes.getD index 0)
        else if m.driving then data.release
        else data) := by
  unfold drive
  cases hasked : m.selected && pins.rd.isAsserted with
  | true => rfl
  | false =>
    rw [if_neg Bool.false_ne_true, if_neg Bool.false_ne_true]
    cases hdriving : m.driving with
    | true => rfl
    | false =>
      cases m
      cases hdriving
      rfl

/-- Memory stores by itself. -/
theorem capture_eq (index : Nat) :
    m.capture pins index data =
      { m with
        bytes := if m.selected && pins.wr.isAsserted then
            if m.isRom index then m.bytes else m.bytes.setIfInBounds index data.value
          else m.bytes } := by
  unfold capture
  cases m.selected && pins.wr.isAsserted with
  | true => cases m.isRom index <;> rfl
  | false => rfl

/-- An edge: memory drives the data bus while it is asked for a byte, and stores a byte that it is
    given. -/
theorem edge_eq (m : Memory) (level : Level) (pins : Pins) (address : Bus Word) (data : Bus Byte) :
    m.edge level pins address data =
      ({ m.track level pins with
          driving := pins.asksMemory
          bytes := if pins.givesMemory then
              m.stored address (m.answered pins address data).value
            else m.bytes },
        m.answered pins address data) := by
  unfold edge
  dsimp only
  rw [drive_eq, capture_eq]
  rfl

/-- What no edge changes. -/
theorem edge_fixed (m : Memory) (level : Level) (pins : Pins) (address : Bus Word)
    (data : Bus Byte) : (m.edge level pins address data).1.address = m.address
    ∧ (m.edge level pins address data).1.rom = m.rom
    ∧ (m.edge level pins address data).1.size = m.size := by
  rw [edge_eq]
  refine ⟨rfl, rfl, ?_⟩
  show Array.size (if pins.givesMemory then _ else _) = m.bytes.size
  unfold stored
  split
  · split
    · rfl
    · exact Array.size_setIfInBounds
  · rfl

end Memory

/-! ## Devices -/

namespace Device

/-- Some component drives the data bus. -/
def driving : Device → Bool
  | .unattached => false
  | .latch l => l.driving
  | .source s => s.driving
  | .pair first second => first.driving || second.driving

end Device

variable {level : Level} {pins : Pins} {address : Bus Word} {data : Bus Byte}

/-- A latch to which the pins do not turn lets go of the data bus. -/
theorem PortLatch.edge_unasked (l : PortLatch) (h : pins.turnToDevice = false) :
    (l.edge pins address data).1.driving = false
      ∧ (l.driving = false → (l.edge pins address data).2 = data) := by
  have hasked : (l.selected pins address.value && pins.rd.isAsserted) = false := by
    refine Bool.eq_false_iff.mpr fun hasked => ?_
    simp only [PortLatch.selected, Pins.portRequest, Bool.and_eq_true] at hasked
    obtain ⟨⟨⟨hiorq, -⟩, -⟩, hrd⟩ := hasked
    rw [Pins.turnToDevice, hrd, hiorq] at h
    simp at h
  have hdrive : l.drive pins address.value data =
      if l.driving then ({ l with driving := false }, data.release) else (l, data) := by
    rw [PortLatch.drive, hasked]
    rfl
  have hcapture (l' : PortLatch) (data' : Bus Byte) :
      (l'.capture pins address.value data').driving = l'.driving := by
    unfold PortLatch.capture
    dsimp only
    split <;> rfl
  unfold PortLatch.edge
  rw [hdrive]
  cases hdriving : l.driving with
  | true => exact ⟨hcapture _ _, by rintro ⟨⟩⟩
  | false => exact ⟨(hcapture _ _).trans hdriving, fun _ => rfl⟩

/-- So does a source. -/
theorem InterruptSource.edge_unasked (s : InterruptSource) (h : pins.turnToDevice = false) :
    (s.edge level pins data).1.driving = false
      ∧ (s.driving = false → (s.edge level pins data).2 = data) := by
  rw [Pins.turnToDevice, Bool.or_eq_false_iff] at h
  obtain ⟨hack, hread⟩ := h
  have hdevice : InterruptSource.deviceRead pins = false := by
    refine Bool.eq_false_iff.mpr fun hdevice => ?_
    simp only [InterruptSource.deviceRead, Bool.and_eq_true, Bool.not_eq_true'] at hdevice
    obtain ⟨⟨hrd, hmreq⟩, -⟩ := hdevice
    rw [hrd, hmreq] at hread
    cases hread
  have hstop (s : InterruptSource) : (s.stopDriving data).1.driving = false
      ∧ (s.driving = false → (s.stopDriving data).2 = data) := by
    unfold InterruptSource.stopDriving
    cases hdriving : s.driving with
    | true => exact ⟨rfl, by rintro ⟨⟩⟩
    | false => exact ⟨hdriving, fun _ => rfl⟩
  have hanswer (s : InterruptSource) : (s.answer pins data).1.driving = false
      ∧ (s.driving = false → (s.answer pins data).2 = data) := by
    unfold InterruptSource.answer
    rw [hack, hdevice, Bool.and_false, if_neg Bool.false_ne_true, if_neg Bool.false_ne_true]
    split
    · exact hstop _
    split
    · exact hstop _
    next hidle =>
      have hnone : s.driving = false := Bool.eq_false_iff.mpr hidle
      split <;> exact ⟨hnone, fun _ => rfl⟩
  unfold InterruptSource.edge
  cases level with
  | low => exact hanswer s
  | high => exact hanswer { s with risingEdges := s.risingEdges + 1 }

/-- And so does anything that is made of them. -/
theorem Device.edge_unasked (device : Device) (h : pins.turnToDevice = false) :
    (device.edge level pins address data).1.driving = false
      ∧ (device.driving = false → (device.edge level pins address data).2 = data) := by
  induction device generalizing data with
  | unattached => exact ⟨rfl, fun _ => rfl⟩
  | latch l => exact l.edge_unasked h
  | source s => exact s.edge_unasked h
  | pair first second ihfirst ihsecond =>
    obtain ⟨hfirst, hkept⟩ := @ihfirst data
    obtain ⟨hsecond, hkept'⟩ := @ihsecond (first.edge level pins address data).2
    refine ⟨?_, fun hnone => ?_⟩
    · show (_ || _) = false
      rw [hfirst, hsecond]
      rfl
    · obtain ⟨hnone, hnone'⟩ := Bool.or_eq_false_iff.mp hnone
      exact (hkept' hnone').trans (hkept hnone)

/-! ## The board between edges -/

/-- Storing a byte again changes nothing. -/
theorem Memory.stored_again (m m' : Memory) (address : Bus Word) (byte : Byte)
    (hbytes : m'.bytes = m.stored address byte) (haddress : m'.address = m.address)
    (hrom : m'.rom = m.rom) : m'.stored address byte = m'.bytes := by
  have hsize : m'.bytes.size = m.bytes.size := by
    rw [hbytes, stored]
    split
    · rfl
    · exact Array.size_setIfInBounds
  have hplace : m'.place address = m.place address := by
    rw [place, index, size, haddress, hsize]
    rfl
  have hread : m'.isRom (m'.place address) = m.isRom (m.place address) := by
    rw [isRom, hrom, hplace]
    rfl
  unfold stored
  rw [hread, hplace]
  split
  · rfl
  · next hwritable =>
    rw [hbytes, stored, if_neg hwritable]
    simp

namespace Board

variable {b : Board} {k : Core}

/-- The chip on the board. -/
def core (b : Board) : Core :=
  b.processor.core

/-- The chip that runs a half-period on an edge, just before it does. -/
def engaged (b : Board) (level : Level) : Option Core :=
  b.core.engaged level b.inputs

/-- The chip after an edge, before the others answer. -/
def moved (b : Board) (level : Level) : Core :=
  (b.processor.step level b.inputs).core

/-- What holds of the board between edges. -/
structure Settled (b : Board) : Prop where
  sound : b.core.Sound
  /-- A byte that the chip has staged is on the data bus. -/
  staged : b.core.phase = .running → b.core.boundaryPending = false →
    ∀ byte, b.core.staged b.core.cycle.half = some byte → b.core.data.value = byte
  /-- Memory drives the data bus while it is asked for a byte. -/
  driving : b.memory.driving = b.core.pins.asksMemory
  /-- A byte that memory is asked for is on the data bus. -/
  asked : b.core.pins.asksMemory = true → b.core.data.value = b.memory.byteAt b.core.address
  /-- A byte that memory is given has been stored. -/
  given : b.core.pins.givesMemory = true →
    b.memory.stored b.core.address b.core.data.value = b.memory.bytes
  /-- Once the chip has started, a device that drives the data bus is turned to. -/
  turned : b.core.phase ≠ .powerOn → b.device.driving = true → b.core.pins.turnToDevice = true

/-- The host's levels do not matter to it. -/
theorem Settled.withHost (h : b.Settled) (host : InputLevels) :
    ({ b with host } : Board).Settled :=
  ⟨h.sound, h.staged, h.driving, h.asked, h.given, h.turned⟩

/-- The chip, memory and the device after an edge. -/
theorem edge_parts (b : Board) (level : Level) :
    (b.edge level).1.memory
        = (b.memory.edge level (b.moved level).pins (b.moved level).address (b.moved level).data).1
      ∧ (b.edge level).1.device
        = (b.device.edge level (b.moved level).pins (b.moved level).address
          (b.memory.answered (b.moved level).pins (b.moved level).address (b.moved level).data)).1
      ∧ (b.edge level).1.core
        = { b.moved level with
            data := (b.device.edge level (b.moved level).pins (b.moved level).address
              (b.memory.answered (b.moved level).pins (b.moved level).address
                (b.moved level).data)).2 } := by
  have hdata : (b.memory.edge level (b.moved level).pins (b.moved level).address
      (b.moved level).data).2
      = b.memory.answered (b.moved level).pins (b.moved level).address (b.moved level).data := by
    rw [Memory.edge_eq]
  rw [← hdata]
  exact ⟨rfl, rfl, rfl⟩

/-- The chip moves by an edge of its own. -/
theorem moved_eq (b : Board) (level : Level) :
    ∃ stopping, b.moved level = ((b.core.edge level b.inputs).finish stopping).1 :=
  ⟨_, rfl⟩

/-- While the chip or memory has the data bus, no device drives it. -/
theorem Settled.device_quiet (h : b.Settled) (hk : b.core.Engages k b.inputs)
    (hlater : k.cycle.half ≠ 0)
    (hown : k.cycle.readsMemory = true ∨ k.cycle.pattern = .write ∨ k.cycle.pattern = .portWrite) :
    b.device.driving = false := by
  obtain ⟨-, hphase, -⟩ := hk.amid hlater
  refine Bool.eq_false_iff.mpr fun hdriving => ?_
  have hturned := h.turned (by rw [hphase]; decide) hdriving
  rw [← Core.turnToDevice_congr hk.strobes] at hturned
  obtain ⟨hreads, hwrite, hport⟩ := hk.underway.wired.turnToDevice hturned
  rcases hown with hown | hown | hown
  · exact nomatch hown.symm.trans hreads
  · exact hwrite hown
  · exact hport hown

/-- While the chip or memory has the data bus, it carries what memory leaves on it. -/
theorem Settled.data_edge (h : b.Settled) (hk : b.core.Engages k b.inputs) {level : Level}
    (hmoved : b.moved level = k.runHalf.1) (hmore : k.runHalf.2 = false)
    (hlater : k.cycle.half ≠ 0)
    (hown : k.cycle.readsMemory = true ∨ k.cycle.pattern = .write ∨ k.cycle.pattern = .portWrite) :
    (b.edge level).1.core.data
      = b.memory.answered (b.moved level).pins (b.moved level).address (b.moved level).data := by
  have hunasked : (b.moved level).pins.turnToDevice = false := by
    rw [hmoved]
    refine Bool.eq_false_iff.mpr fun hturned => ?_
    obtain ⟨hreads, hwrite, hport⟩ := (hk.underway.amid hmore).wired.turnToDevice hturned
    rw [Core.readsMemory_runHalf] at hreads
    rw [Core.pattern_runHalf] at hwrite hport
    rcases hown with hown | hown | hown
    · exact nomatch hown.symm.trans hreads
    · exact hwrite hown
    · exact hport hown
  rw [(b.edge_parts level).2.2]
  exact (b.device.edge_unasked hunasked).2 (h.device_quiet hk hlater hown)

/-- What the chip has staged is on the data bus when it runs a half-period. -/
theorem Settled.staged_engaged (h : b.Settled) (hk : b.core.Engages k b.inputs) (byte : Byte)
    (hstaged : k.staged k.cycle.half = some byte) : k.data.value = byte := by
  by_cases hlater : k.cycle.half = 0
  · rw [hlater, Core.staged_zero] at hstaged
    exact nomatch hstaged
  · obtain ⟨hsame, hphase, hchosen⟩ := hk.amid hlater
    rw [hsame] at hstaged
    rw [hsame]
    exact h.staged hphase hchosen byte hstaged

/-- While the chip has a byte on the data bus, memory is not about to let go of it. -/
theorem Settled.answered_write (h : b.Settled) (hk : b.core.Engages k b.inputs) {level : Level}
    (hmoved : b.moved level = k.runHalf.1) (hmore : k.runHalf.2 = false)
    (hlater : k.cycle.half ≠ 0)
    (hwrite : k.cycle.pattern = .write ∨ k.cycle.pattern = .portWrite) :
    b.memory.answered (b.moved level).pins (b.moved level).address (b.moved level).data
      = (b.moved level).data := by
  have hreads : k.cycle.readsMemory = false := by
    rw [ActiveCycle.readsMemory]
    rcases hwrite with hpattern | hpattern <;> rw [hpattern]
  have hnow : (b.moved level).pins.asksMemory = false := by
    rw [hmoved]
    refine Bool.eq_false_iff.mpr fun hasks => ?_
    have hreads' := ((hk.underway.amid hmore).wired.asksMemory_iff.mp hasks).1
    rw [Core.readsMemory_runHalf, hreads] at hreads'
    cases hreads'
  have hbefore : b.memory.driving = false := by
    rw [h.driving]
    refine Bool.eq_false_iff.mpr fun hasks => ?_
    obtain ⟨hsame, -⟩ := hk.amid hlater
    have hasks' : k.pins.asksMemory = true := by
      rw [hsame]
      exact hasks
    have hreads' := (hk.underway.wired.asksMemory_iff.mp hasks').1
    cases hreads.symm.trans hreads'
  rw [Memory.answered, hnow, hbefore]
  rfl

/-- An edge amid a cycle leaves the board in that cycle. -/
theorem use_edge {level : Level} (hmoved : b.moved level = k.runHalf.1) :
    (b.edge level).1.core.use = k.use := by
  rw [(b.edge_parts level).2.2, hmoved]
  exact Core.use_runHalf

theorem wired_edge (hk : b.core.Engages k b.inputs) {level : Level}
    (hmoved : b.moved level = k.runHalf.1) (hmore : k.runHalf.2 = false) :
    (b.edge level).1.core.Wired k.runHalf.1.cycle.half := by
  have hwired := (hk.underway.amid hmore).wired
  rw [(b.edge_parts level).2.2, hmoved]
  exact ⟨hwired.strobes, hwired.refresh, hwired.waits⟩

/-- A byte that the chip has staged then is on the data bus. -/
theorem Settled.staged_edge (h : b.Settled) (hk : b.core.Engages k b.inputs) {level : Level}
    (hmoved : b.moved level = k.runHalf.1) (hmore : k.runHalf.2 = false) {byte : Byte}
    (hstaged : (b.edge level).1.core.staged (b.edge level).1.core.cycle.half = some byte) :
    (b.edge level).1.core.data.value = byte := by
  have hnext : k.runHalf.1.staged k.runHalf.1.cycle.half = some byte := by
    rw [(b.edge_parts level).2.2] at hstaged
    rw [← hmoved]
    exact hstaged
  obtain ⟨hvalue, hlater, hwrite⟩ :=
    Core.staged_runHalf hk.underway hmore (h.staged_engaged hk) hnext
  rw [h.data_edge hk hmoved hmore hlater (Or.inr hwrite),
    h.answered_write hk hmoved hmore hlater hwrite, hmoved]
  exact hvalue

/-- A byte that memory is asked for then is on the data bus: memory has put it out last. -/
theorem Settled.asked_edge (h : b.Settled) (hk : b.core.Engages k b.inputs) {level : Level}
    (hmoved : b.moved level = k.runHalf.1) (hmore : k.runHalf.2 = false)
    (hasks : (b.edge level).1.core.pins.asksMemory = true) :
    (b.edge level).1.core.data.value
      = (b.edge level).1.memory.byteAt (b.edge level).1.core.address := by
  obtain ⟨hmemory, -, hcore⟩ := b.edge_parts level
  have hpins : (b.edge level).1.core.pins = (b.moved level).pins := by rw [hcore]
  have haddress : (b.edge level).1.core.address = (b.moved level).address := by rw [hcore]
  obtain ⟨hconnector, -⟩ := b.memory.edge_fixed level (b.moved level).pins
    (b.moved level).address (b.moved level).data
  rw [← hmemory] at hconnector
  have hhalf := hk.underway.half_runHalf hmore
  have hwired := wired_edge hk hmoved hmore
  obtain ⟨hread, hroom, -⟩ := hwired.asksMemory_iff.mp hasks
  rw [Core.readsMemory_of_use (use_edge hmoved)] at hread
  have hlater : k.cycle.half ≠ 0 := by omega
  have hgives : (b.moved level).pins.givesMemory = false := by
    rw [← hpins]
    refine Bool.eq_false_iff.mpr fun hgives => ?_
    have hwrite := (hwired.givesMemory_iff.mp hgives).1
    rw [Core.pattern_of_use (use_edge hmoved)] at hwrite
    rw [ActiveCycle.readsMemory, hwrite] at hread
    cases hread
  have hbytes : (b.edge level).1.memory.bytes = b.memory.bytes := by
    rw [hmemory, Memory.edge_eq, hgives]
    rfl
  rw [h.data_edge hk hmoved hmore hlater (Or.inl hread), Memory.answered, ← hpins, if_pos hasks,
    Memory.byteAt, Memory.byteAt, Memory.place, Memory.place, Memory.index, Memory.index,
    Memory.size, Memory.size, hbytes, hconnector, haddress]
  rfl

/-- A byte that memory is given then has been stored, now or on an edge before. -/
theorem Settled.given_edge (h : b.Settled) (hk : b.core.Engages k b.inputs) {level : Level}
    (hmoved : b.moved level = k.runHalf.1) (hmore : k.runHalf.2 = false)
    (hgives : (b.edge level).1.core.pins.givesMemory = true) :
    (b.edge level).1.memory.stored (b.edge level).1.core.address (b.edge level).1.core.data.value
      = (b.edge level).1.memory.bytes := by
  obtain ⟨hmemory, -, hcore⟩ := b.edge_parts level
  have hpins : (b.edge level).1.core.pins = (b.moved level).pins := by rw [hcore]
  have haddress : (b.edge level).1.core.address = (b.moved level).address := by rw [hcore]
  obtain ⟨hconnector, hrom, -⟩ := b.memory.edge_fixed level (b.moved level).pins
    (b.moved level).address (b.moved level).data
  rw [← hmemory] at hconnector hrom
  have hhalf := hk.underway.half_runHalf hmore
  obtain ⟨hwrite, hroom, -⟩ := (wired_edge hk hmoved hmore).givesMemory_iff.mp hgives
  rw [Core.pattern_of_use (use_edge hmoved)] at hwrite
  have hlater : k.cycle.half ≠ 0 := by omega
  have hbytes : (b.edge level).1.memory.bytes = b.memory.stored (b.moved level).address
      (b.memory.answered (b.moved level).pins (b.moved level).address
        (b.moved level).data).value := by
    rw [hmemory, Memory.edge_eq, ← hpins, hgives]
    rfl
  rw [h.data_edge hk hmoved hmore hlater (Or.inr (Or.inl hwrite)), haddress]
  exact Memory.stored_again _ _ _ _ hbytes hconnector hrom

/-- Every edge leaves the board settled. -/
theorem Settled.edge (h : b.Settled) (level : Level) : (b.edge level).1.Settled := by
  obtain ⟨stopping, hstep⟩ := b.moved_eq level
  obtain ⟨hmemory, hdevice, hcore⟩ := b.edge_parts level
  have hpins : (b.edge level).1.core.pins = (b.moved level).pins := by rw [hcore]
  have hsound : (b.edge level).1.core.Sound := by
    rw [hcore, hstep]
    exact ((h.sound.edge level b.inputs).finish stopping).withData _
  have hdriving : (b.edge level).1.memory.driving = (b.edge level).1.core.pins.asksMemory := by
    rw [hmemory, hpins, Memory.edge_eq]
  have hturned (hdrives : (b.edge level).1.device.driving = true) :
      (b.edge level).1.core.pins.turnToDevice = true := by
    rw [hpins]
    refine Bool.of_not_eq_false fun hunasked => ?_
    rw [hdevice, (b.device.edge_unasked hunasked).1] at hdrives
    cases hdrives
  have houtcome := h.sound.outcome level b.inputs stopping
  rw [← hstep] at houtcome
  cases houtcome with
  | rests rest first _ =>
    -- no byte is staged before a cycle begins, and nobody is asked for one
    obtain ⟨hask, hgive, -⟩ := Core.nobody_asked rest
    rw [← hpins] at hask hgive
    refine ⟨hsound, fun hphase hchosen byte hstaged => ?_, hdriving,
      fun hasks => absurd hasks (Bool.eq_false_iff.mp hask),
      fun hgives => absurd hgives (Bool.eq_false_iff.mp hgive), fun _ => hturned⟩
    have hcycle : (b.edge level).1.core.cycle = (b.moved level).cycle := by rw [hcore]
    rw [hcore] at hphase hchosen
    rw [hcycle, first hphase hchosen, Core.staged_zero] at hstaged
    cases hstaged
  | amid k runs more result =>
    have hk := h.sound.engages runs
    exact ⟨hsound, fun _ _ _ hstaged => h.staged_edge hk result more hstaged, hdriving,
      h.asked_edge hk result more, h.given_edge hk result more, fun _ => hturned⟩

end Board

end Z80Board
