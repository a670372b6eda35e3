import Z80Board.Proofs.Rig.Sources

/-! # Who supplies what memory does not

    On its way from scene to scene a board with a port latch and an interrupt source has ready what the
    chip reads from a port, and what it reads of an instruction that comes from the source.  Each scene
    of such an instruction reads one byte of the answer at most, and the source keeps step with the
    chip from edge to edge. -/

namespace Z80Board

variable {w : Surroundings} {s : Scene} {b b' : Board} {level : Level} {left last : Nat}
  {answer : List Byte}

/-! ## The bytes that are taken -/

namespace Scene

/-- How many bytes of the instruction are taken when the cycle has come to a half-period. -/
def taken (s : Scene) (half : Nat) : Nat :=
  s.given + (s.core.cycle.kind.readsCode && decide (s.core.cycle.pattern.sampleHalf < half)).toNat

theorem taken_early {half : Nat} (h : half ≤ s.core.cycle.pattern.sampleHalf) :
    s.taken half = s.given := by
  rw [taken, decide_eq_false (Nat.not_lt.mpr h), Bool.and_false]
  rfl

theorem taken_late {half : Nat} (hreads : s.core.cycle.kind.readsCode = true)
    (h : s.core.cycle.pattern.sampleHalf < half) : s.taken half = s.given + 1 := by
  rw [taken, decide_eq_true h, hreads]
  rfl

theorem taken_unread {half : Nat} (hreads : s.core.cycle.kind.readsCode = false) :
    s.taken half = s.given := by
  rw [taken, hreads]
  rfl

/-- The instruction comes from a device that has an answer for it, and an acknowledge takes the first
    byte. -/
structure Sourced (answer : List Byte) (s : Scene) : Prop where
  course : s.core.Course 0
  posed : s.core.Posed
  origin : s.core.origin = .device
  first : s.core.cycle.pattern = .acknowledge → s.given = 0
  later : s.core.cycle.pattern ≠ .acknowledge → 0 < s.given
  room : s.core.cycle.kind.readsCode = true → s.given < answer.length

/-- The cycles that read a byte of it are given to the source. -/
theorem Sourced.talker_iff (h : s.Sourced answer) :
    s.core.cycle.talker = some .source ↔ s.core.cycle.kind.readsCode = true := by
  have hdevice : s.core.cycle.fromDevice = s.core.cycle.kind.readsCode := by
    rw [h.posed.fromDevice, decide_eq_true h.origin, Bool.true_and]
  have huses := h.course.uses
  rw [ActiveCycle.talker, hdevice]
  cases hpattern : s.core.cycle.pattern
  case fetch | opcodeRead | read =>
    dsimp only
    cases s.core.cycle.kind.readsCode <;> decide
  case acknowledge =>
    rw [huses.opcodeFetch_iff.mpr (Or.inr (Or.inl hpattern))]
    decide
  all_goals
    rw [huses.readsCode_eq_false (by rw [hpattern]; decide)]
    decide

/-- A fetch is given to the source. -/
theorem Sourced.not_fetchesMemory (h : s.Sourced answer) (hruns : s.Runs w left b) :
    b.core.pins.fetchesMemory = false := by
  refine Bool.eq_false_iff.mpr fun hup => ?_
  obtain ⟨hpattern, hdevice⟩ := hruns.underway.wired.fetchesMemory hup
  rw [hruns.pattern_eq] at hpattern
  rw [Core.fromDevice_of_use hruns.use_eq, h.posed.fromDevice, decide_eq_true h.origin, Bool.true_and,
    h.course.uses.opcodeFetch_iff.mpr (Or.inl hpattern)] at hdevice
  cases hdevice

/-- When a source is turned to, and when by an acknowledge. -/
theorem Sourced.turns (h : s.Sourced answer) (hruns : s.Runs w left b) :
    (b.core.pins.turnToSource = true ↔ s.core.cycle.kind.readsCode = true
      ∧ (2 ≤ b.core.cycle.half ∧ b.core.cycle.half ≤ s.core.cycle.pattern.sampleHalf)
      ∧ (s.core.cycle.pattern = .acknowledge → b.core.cycle.autoWaits < 2))
      ∧ (b.core.pins.interruptAcknowledge = true ↔ s.core.cycle.pattern = .acknowledge
        ∧ b.core.cycle.autoWaits < 2 ∧ 2 ≤ b.core.cycle.half ∧ b.core.cycle.half ≤ 4) := by
  have htalker : b.core.cycle.talker = s.core.cycle.talker := Core.talker_of_use hruns.use_eq
  have hwired := hruns.underway.wired
  rw [hwired.turnToSource, hwired.interruptAcknowledge, htalker, hruns.pattern_eq]
  simp only [Bool.and_eq_true, decide_eq_true_eq, Bool.or_eq_true, bne_iff_ne, beq_iff_eq,
    h.talker_iff, and_assoc, Decidable.imp_iff_not_or, ne_eq,
    and_self]

/-- An acknowledge reads a byte of the instruction. -/
theorem Sourced.reads_of_acknowledge (h : s.Sourced answer)
    (hack : s.core.cycle.pattern = .acknowledge) : s.core.cycle.kind.readsCode = true := by
  rw [h.course.uses.opcodeFetch_iff.mpr (Or.inr (Or.inl hack))]
  rfl

theorem Sourced.silent_of_unread (h : s.Sourced answer) (hruns : s.Runs w left b)
    (hreads : s.core.cycle.kind.readsCode = false) : b.core.pins.turnToSource = false :=
  Bool.eq_false_iff.mpr fun hup => by cases hreads.symm.trans ((h.turns hruns).1.mp hup).1

/-- When an acknowledge turns to the source. -/
theorem Sourced.turned_acknowledge (h : s.Sourced answer) (hruns : s.Runs w left b)
    (hack : s.core.cycle.pattern = .acknowledge) :
    (b.core.pins.turnToSource = true
        ↔ b.core.cycle.autoWaits < 2 ∧ 2 ≤ b.core.cycle.half ∧ b.core.cycle.half ≤ 4)
      ∧ (b.core.pins.interruptAcknowledge = true
        ↔ b.core.cycle.autoWaits < 2 ∧ 2 ≤ b.core.cycle.half ∧ b.core.cycle.half ≤ 4) := by
  obtain ⟨hturned, hacked⟩ := h.turns hruns
  have hsample : s.core.cycle.pattern.sampleHalf = 4 := by
    rw [hack]
    rfl
  rw [hsample] at hturned
  exact ⟨hturned.trans ⟨fun ⟨_, hroom, hfew⟩ => ⟨hfew hack, hroom⟩,
      fun ⟨hfew, hroom⟩ => ⟨h.reads_of_acknowledge hack, hroom, fun _ => hfew⟩⟩,
    hacked.trans ⟨fun hup => hup.2, fun hroom => ⟨hack, hroom⟩⟩⟩

/-- When any other scene that reads a byte of the instruction turns to it. -/
theorem Sourced.turned_other (h : s.Sourced answer) (hruns : s.Runs w left b)
    (hreads : s.core.cycle.kind.readsCode = true)
    (hother : s.core.cycle.pattern ≠ .acknowledge) :
    (b.core.pins.turnToSource = true
        ↔ 2 ≤ b.core.cycle.half ∧ b.core.cycle.half ≤ s.core.cycle.pattern.sampleHalf)
      ∧ b.core.pins.interruptAcknowledge = false := by
  obtain ⟨hturned, hacked⟩ := h.turns hruns
  exact ⟨hturned.trans ⟨fun hup => hup.2.1,
      fun hroom => ⟨hreads, hroom, fun hack => absurd hack hother⟩⟩,
    Bool.eq_false_iff.mpr fun hup => hother (hacked.mp hup).1⟩

/-- An acknowledge asks for the first byte, with the waits that come before it. -/
theorem Sourced.asks_acknowledge (h : s.Sourced answer) (hruns : s.Runs w (left + 1) b)
    (hnext : s.Runs w left b') (hack : s.core.cycle.pattern = .acknowledge) :
    InterruptSource.Asks answer b.core.pins (s.taken b.core.cycle.half) b'.core.pins
      (s.taken b'.core.cycle.half) := by
  have hreads := h.reads_of_acknowledge hack
  have hgiven := h.first hack
  obtain ⟨hturned, hacked⟩ := h.turned_acknowledge hruns hack
  obtain ⟨hturned', hacked'⟩ := h.turned_acknowledge hnext hack
  have hsample : s.core.cycle.pattern.sampleHalf = 4 := by
    rw [hack]
    rfl
  have hearly {half : Nat} (hroom : half ≤ 4) : s.taken half = 0 := by
    rw [taken_early (by omega), hgiven]
  have hlate {half : Nat} (hroom : 4 < half) : s.taken half = 1 := by
    rw [taken_late hreads (by omega), hgiven]
  -- an edge is a half-period further, or a wait less is left
  have hleft := hruns.left
  have hleft' := hnext.left
  have hdue := hruns.underway.wired.waits
  have hdue' := hnext.underway.wired.waits
  rw [ActiveCycle.WaitsDue, if_pos (hruns.pattern_eq.trans hack)] at hdue
  rw [ActiveCycle.WaitsDue, if_pos (hnext.pattern_eq.trans hack)] at hdue'
  by_cases hnow : b'.core.cycle.autoWaits < 2 ∧ 2 ≤ b'.core.cycle.half ∧ b'.core.cycle.half ≤ 4
  · rw [hearly hnow.2.2]
    exact .acknowledge (hacked'.mpr hnow)
  have hsilent := Bool.eq_false_iff.mpr (mt hturned'.mp hnow)
  by_cases hbefore : b.core.cycle.autoWaits < 2 ∧ 2 ≤ b.core.cycle.half ∧ b.core.cycle.half ≤ 4
  · refine .first (hacked.mpr hbefore) hsilent ?_
    rw [taken, hgiven, Nat.zero_add]
    exact Bool.toNat_le _
  · have hsame : s.taken b'.core.cycle.half = s.taken b.core.cycle.half := by
      rcases Nat.lt_or_ge 4 b.core.cycle.half with hover | hdone
      · rw [hlate hover, hlate (by omega)]
      · rw [hearly hdone, hearly (by omega)]
    rw [hsame]
    exact .rest (Bool.eq_false_iff.mpr (mt hturned.mp hbefore)) hsilent
      (h.not_fetchesMemory hnext)

/-- Any other scene that reads a byte of the instruction asks for the next one. -/
theorem Sourced.asks_other (h : s.Sourced answer) (hruns : s.Runs w (left + 1) b)
    (hnext : s.Runs w left b') (hreads : s.core.cycle.kind.readsCode = true)
    (hother : s.core.cycle.pattern ≠ .acknowledge) :
    InterruptSource.Asks answer b.core.pins (s.taken b.core.cycle.half) b'.core.pins
      (s.taken b'.core.cycle.half) := by
  have hlater := h.later hother
  obtain ⟨hturned, hnone⟩ := h.turned_other hruns hreads hother
  obtain ⟨hturned', hnone'⟩ := h.turned_other hnext hreads hother
  have hsample := s.core.cycle.pattern.four_le_sampleHalf
  have hstep : b'.core.cycle.half = b.core.cycle.half + 1 := by
    have hleft := hruns.left
    have hleft' := hnext.left
    rw [hruns.autoWaits_eq_zero hother] at hleft
    rw [hnext.autoWaits_eq_zero hother] at hleft'
    omega
  by_cases hnow : 2 ≤ b'.core.cycle.half ∧ b'.core.cycle.half ≤ s.core.cycle.pattern.sampleHalf
  · have hbefore : s.taken b.core.cycle.half = s.given := taken_early (by omega)
    rw [hbefore, taken_early hnow.2]
    exact .read hnone hnone' (hturned'.mpr hnow) hlater (h.room hreads)
  have hsilent := Bool.eq_false_iff.mpr (mt hturned'.mp hnow)
  by_cases hbefore : 2 ≤ b.core.cycle.half ∧ b.core.cycle.half ≤ s.core.cycle.pattern.sampleHalf
  · have hafter : s.taken b'.core.cycle.half = s.given + 1 := taken_late hreads (by omega)
    rw [taken_early hbefore.2, hafter]
    exact .next hnone (hturned.mpr hbefore) hsilent hlater
  · have hsame : s.taken b'.core.cycle.half = s.taken b.core.cycle.half := by
      rcases Nat.lt_or_ge s.core.cycle.pattern.sampleHalf b.core.cycle.half with hover | hdone
      · rw [taken_late hreads hover, taken_late hreads (by omega)]
      · rw [taken_early hdone, taken_early (by omega)]
    rw [hsame]
    exact .rest (Bool.eq_false_iff.mpr (mt hturned.mp hbefore)) hsilent
      (h.not_fetchesMemory hnext)

/-- From one edge of a scene to the next, the source is asked for no more than the next byte. -/
theorem Sourced.asks (h : s.Sourced answer) (hruns : s.Runs w (left + 1) b) (hnext : s.Runs w left b') :
    InterruptSource.Asks answer b.core.pins (s.taken b.core.cycle.half) b'.core.pins
      (s.taken b'.core.cycle.half) := by
  cases hreads : s.core.cycle.kind.readsCode with
  | false =>
    rw [taken_unread hreads, taken_unread hreads]
    exact .rest (h.silent_of_unread hruns hreads) (h.silent_of_unread hnext hreads)
      (h.not_fetchesMemory hnext)
  | true =>
    by_cases hpattern : s.core.cycle.pattern = .acknowledge
    · exact h.asks_acknowledge hruns hnext hpattern
    · exact h.asks_other hruns hnext hreads hpattern

/-- At the last edge of a scene its byte is taken, and nothing is asked for. -/
theorem Sourced.asks_next (h : s.Sourced answer) (hruns : s.Runs w 1 b)
    (hnext : (s.next w).Runs w ((s.next w).span w) b') (hsourced : (s.next w).Sourced answer) :
    InterruptSource.Asks answer b.core.pins (s.taken b.core.cycle.half) b'.core.pins
      ((s.next w).taken b'.core.cycle.half) := by
  have hmemory := hsourced.not_fetchesMemory hnext
  obtain ⟨hturned, -⟩ := h.turns hruns
  have hgiven : (s.next w).given = s.given + s.core.cycle.kind.readsCode.toNat := rfl
  -- nothing is run of the next one yet
  have hfirst := hnext.half_eq_zero
  have hsilent : b'.core.pins.turnToSource = false :=
    Bool.eq_false_iff.mpr fun hup => by
      have hroom := ((hsourced.turns hnext).1.mp hup).2.1
      omega
  rw [taken_early (s := s.next w) (by omega), hgiven]
  cases hreads : s.core.cycle.kind.readsCode with
  | false =>
    rw [taken_unread hreads]
    exact .rest (h.silent_of_unread hruns hreads) hsilent hmemory
  | true =>
    have hend : 2 * s.core.cycle.pattern.minimumLength ≤ b.core.cycle.half + 1 := by
      have hleft := hruns.left
      have hroom := hruns.room
      have hleast := hruns.least
      omega
    by_cases hover : s.core.cycle.pattern.sampleHalf < b.core.cycle.half
    · -- the byte has been taken before
      rw [taken_late hreads hover]
      refine .rest (Bool.eq_false_iff.mpr fun hup => ?_) hsilent hmemory
      have hroom := (hturned.mp hup).2.1
      omega
    · -- it is taken now, which an acknowledge does earlier
      have hother : s.core.cycle.pattern ≠ .acknowledge := fun hack => by
        rw [hack] at hend hover
        simp only [BusPattern.sampleHalf, BusPattern.minimumLength] at hend hover
        omega
      obtain ⟨hup, hnone⟩ := h.turned_other hruns hreads hother
      have hleast := s.core.cycle.pattern.three_le_minimumLength
      rw [taken_early (Nat.not_lt.mp hover)]
      exact .next hnone (hup.mpr ⟨by omega, Nat.not_lt.mp hover⟩) hsilent (h.later hother)

end Scene

/-! ## Devices -/

namespace Device

variable {device : Device} {pins : Pins} {address : Bus Word} {data : Bus Byte}

/-- What the data bus carries while a port is asked for a byte. -/
def reply (device : Device) (address : Word) : Byte :=
  match device.latch? with
  | some l => l.reply address
  | none => 0xFF

/-- The source of a usual device follows the pins. -/
theorem Usual.source_edge (h : device.Usual) : ∃ data',
    (device.edge level pins address data).1.source?
      = device.source?.map fun source => (source.edge level pins data').1 := by
  cases h with
  | unattached => exact ⟨data, rfl⟩
  | latch l => exact ⟨data, rfl⟩
  | source s => exact ⟨data, rfl⟩
  | both l s => exact ⟨(l.edge pins address data).2, rfl⟩

end Device

/-! ## The board -/

namespace Board

/-- The others than memory have ready what the chip reads in this scene. -/
structure Attends (w : Surroundings) (s : Scene) (b : Board) : Prop where
  voice : ∃ held, b.TakesTurns held ∧ b.OneVoice held
  latch : ∀ latch, b.device.latch? = some latch →
    latch.driving = latch.asked b.core.pins b.core.address.value
  source : s.core.origin = .device → ∃ source, b.device.source? = some source
    ∧ source.Serves w.answer b.core.pins (s.taken b.core.cycle.half)

variable {held : Option Byte}

/-- What a device does on an edge. -/
theorem device_edge (husual : b.device.Usual) (level : Level) :
    (∀ latch, (b.edge level).1.device.latch? = some latch →
        latch.driving = latch.asked (b.edge level).1.core.pins (b.edge level).1.core.address.value)
      ∧ ((b.edge level).1.core.pins.givesPort = false →
        (b.edge level).1.device.reply = b.device.reply)
      ∧ ∃ data, (b.edge level).1.device.source?
        = b.device.source?.map fun source => (source.edge level (b.edge level).1.core.pins data).1 := by
  obtain ⟨-, hdevice, hcore⟩ := b.edge_parts level
  have hpins : (b.edge level).1.core.pins = (b.moved level).pins := by rw [hcore]
  have haddress : (b.edge level).1.core.address = (b.moved level).address := by rw [hcore]
  rw [hpins, haddress, hdevice]
  refine ⟨fun latch hlatch => ?_, fun hgives => ?_, husual.source_edge⟩
  · rw [husual.latch_edge] at hlatch
    obtain ⟨before, -, rfl⟩ := Option.map_eq_some_iff.mp hlatch
    rw [PortLatch.edge_eq]
    show before.asked _ _ = _
    rw [PortLatch.asked, PortLatch.asked, PortLatch.kept]
    split <;> rfl
  · funext address
    rw [Device.reply, Device.reply, husual.latch_edge]
    cases b.device.latch? with
    | none => rfl
    | some latch =>
      show ((latch.edge _ _ _).1).reply address = latch.reply address
      rw [PortLatch.edge_eq, PortLatch.kept, PortLatch.given, hgives]
      rfl

/-- A read of a port finds the reply of the device on the data bus. -/
theorem Attends.port_byte (h : b.Attends w s) (hruns : s.Runs w left b)
    (hport : s.core.cycle.pattern = .portRead) (hseven : b.core.cycle.half = 7) :
    b.core.data.value = b.device.reply b.core.address.value := by
  obtain ⟨held, hturns, hvoice⟩ := h.voice
  have hasks : b.core.pins.asksPort = true :=
    hruns.underway.wired.asksPort_iff.mpr ⟨hruns.pattern_eq.trans hport, by omega, by omega⟩
  have hstarted : b.core.phase ≠ .powerOn := by
    rw [hruns.phase]
    decide
  -- nobody but the latch is called on
  have hsilent (hnone : b.device.latchDriven b.core.address.value = none) :
      b.core.data.value = 0xFF := by
    refine hvoice.floats fun talker => Bool.eq_false_iff.mpr fun hspeaks => ?_
    have hcalls := hturns.called hstarted talker hspeaks
    obtain rfl : talker = .port := hturns.sound.calls_unique hcalls hasks
    rw [show b.spoken held .port = b.device.latchDriven b.core.address.value from rfl, hnone]
      at hspeaks
    cases hspeaks
  rw [Device.reply]
  cases hlatch : b.device.latch? with
  | none => exact hsilent (by rw [Device.latchDriven, hlatch]; rfl)
  | some latch =>
    have hdriving := h.latch latch hlatch
    rw [PortLatch.asked, hasks, Bool.true_and] at hdriving
    dsimp only
    rw [PortLatch.reply]
    cases hanswers : latch.answers (Word.low b.core.address.value) with
    | true =>
      rw [hanswers] at hdriving
      refine hvoice.carried .port _ ?_
      show b.device.latchDriven b.core.address.value = _
      rw [Device.latchDriven, hlatch]
      show latch.driven _ = _
      rw [PortLatch.driven, if_pos hdriving]
      rfl
    | false =>
      rw [hanswers] at hdriving
      refine hsilent ?_
      rw [Device.latchDriven, hlatch]
      show latch.driven _ = _
      rw [PortLatch.driven, if_neg (Bool.eq_false_iff.mp hdriving)]

/-- A read that turns to the source finds the next byte of the answer on the data bus. -/
theorem Attends.source_byte (h : b.Attends w s) (hruns : s.Runs w left b)
    (hsourced : s.Sourced w.answer) (hreads : s.core.cycle.kind.readsCode = true)
    (hsample : b.core.cycle.half = s.core.cycle.pattern.sampleHalf) :
    b.core.data.value = w.answer[s.given]?.getD 0xFF := by
  obtain ⟨held, -, hvoice⟩ := h.voice
  obtain ⟨source, hsource, hserves⟩ := h.source hsourced.origin
  obtain ⟨hturned, hacked⟩ := hsourced.turns hruns
  have hmiddle := s.core.cycle.pattern.four_le_sampleHalf
  have hfew (hpattern : s.core.cycle.pattern = .acknowledge) : b.core.cycle.autoWaits < 2
      ∧ b.core.cycle.half = 4 := by
    rw [hruns.underway.wired.waits.eq_zero_of_late (by omega)]
    rw [hpattern] at hsample
    exact ⟨by decide, hsample⟩
  have hdrives : source.driving = true := by
    rw [hserves.driving]
    exact hturned.mpr ⟨hreads, ⟨by omega, by omega⟩, fun hpattern => (hfew hpattern).1⟩
  have hspoken : b.spoken held .source = some source.ready := by
    show b.device.sourceDriven = _
    rw [Device.sourceDriven, hsource]
    show source.driven = _
    rw [InterruptSource.driven, if_pos hdrives]
  rw [hvoice.carried .source _ hspoken, InterruptSource.ready, hserves.acknowledging]
  by_cases hpattern : s.core.cycle.pattern = .acknowledge
  · obtain ⟨hwaits, hfour⟩ := hfew hpattern
    rw [if_pos (hacked.mpr ⟨hpattern, hwaits, by omega, by omega⟩), hsourced.first hpattern,
      ← hserves.bytes]
    rfl
  · have htaken := Scene.taken_early (Nat.le_of_eq hsample)
    have hcursor := hserves.cursor
    rw [htaken] at hcursor
    rw [if_neg fun hup => hpattern (hacked.mp hup).1, hserves.bytes,
      hcursor (hsourced.later hpattern) (hsourced.room hreads)]

/-- An edge on which the source is asked for what the chip goes on to read. -/
theorem Attends.edge (h : b.Attends w s) {s' : Scene}
    (horigin : s'.core.origin = .device → s.core.origin = .device)
    (hasks : s'.core.origin = .device → InterruptSource.Asks w.answer b.core.pins
      (s.taken b.core.cycle.half) (b.edge level).1.core.pins
      (s'.taken (b.edge level).1.core.cycle.half)) : (b.edge level).1.Attends w s' := by
  obtain ⟨held, hturns, -⟩ := h.voice
  obtain ⟨hlatch, -, data, hsource⟩ := device_edge hturns.usual level
  refine ⟨⟨_, hturns.edge level, hturns.oneVoice level⟩, hlatch, fun hdevice => ?_⟩
  obtain ⟨source, hbefore, hserves⟩ := h.source (horigin hdevice)
  rw [hbefore] at hsource
  exact ⟨_, hsource, hserves.edge (hasks hdevice) level data⟩

/-- On the first edge of an instruction nobody is asked for anything yet. -/
theorem TakesTurns.attends (h : b.TakesTurns held) (hrest : b.core.pins.AtRest)
    (hstarted : b.core.phase ≠ .powerOn)
    (hsource : s.core.origin = .device →
      ∃ source, b.device.source? = some source ∧ source.acknowledgeBytes = w.answer)
    (hsourced : s.core.origin = .device → s.Sourced w.answer) (hgiven : s.given = 0)
    (hruns : s.Runs w left (b.edge level).1) (hone : (b.edge level).1.core.cycle.half = 1) :
    (b.edge level).1.Attends w s := by
  obtain ⟨hlatch, -, data, hnext⟩ := device_edge h.usual level
  have htaken : s.taken (b.edge level).1.core.cycle.half = 0 := by
    have hlate := s.core.cycle.pattern.four_le_sampleHalf
    rw [Scene.taken_early (by omega), hgiven]
  refine ⟨⟨_, h.edge level, h.oneVoice level⟩, hlatch, fun hdevice => ?_⟩
  obtain ⟨source, hbefore, hbytes⟩ := hsource hdevice
  have hsilent : source.driving = false := Bool.eq_false_iff.mpr fun hdrives => by
    have hcalls : b.core.Calls .source := by
      refine h.called hstarted .source ?_
      show b.device.sourceDriven.isSome = true
      rw [Device.sourceDriven, hbefore]
      exact source.isSome_driven.trans hdrives
    have hturned : b.core.pins.turnToSource = true := hcalls
    rw [Core.turnToSource_congr (show b.core.pins.strobes = Pins.strobes {} from hrest)] at hturned
    cases hturned
  have hturned : (b.edge level).1.core.pins.turnToSource = false :=
    Bool.eq_false_iff.mpr fun hup => by
      have := (((hsourced hdevice).turns hruns).1.mp hup).2.1.1
      omega
  rw [hbefore] at hnext
  rw [htaken, ← hbytes]
  exact ⟨_, hnext, InterruptSource.serves_rest hsilent hturned level data⟩

/-- The board is in one of the scenes, and its ports are as they have been as long as nothing has been
    written to one. -/
structure Supplied (w : Surroundings) (s : Scene) (count : Nat) (b : Board) : Prop where
  attends : b.Attends w (s.nth w count)
  reply : (∀ i ≤ count, (s.nth w i).core.cycle.pattern ≠ .portWrite) → b.device.reply = w.reply

end Board

namespace Scene

/-- The instruction is the chip's own, or from memory. -/
structure Own (s : Scene) : Prop where
  fromDevice : s.core.cycle.fromDevice = false
  pattern : s.core.cycle.pattern ≠ .acknowledge
  origin : s.core.origin ≠ .device

/-- Each of these scenes finds what it reads: its instruction comes from memory, or from a device that
    has an answer for it, and no port is read after one has been written to. -/
structure Heard (w : Surroundings) (s : Scene) (last : Nat) : Prop where
  comes : ∀ count ≤ last, (s.nth w count).Own ∨ (s.nth w count).Sourced w.answer
  ports : ∀ count ≤ last, (s.nth w count).core.cycle.pattern = .portRead →
    ∀ i ≤ count, (s.nth w i).core.cycle.pattern ≠ .portWrite

theorem Heard.sourced (h : s.Heard w last) {count : Nat} (hcount : count ≤ last)
    (hdevice : (s.nth w count).core.origin = .device) : (s.nth w count).Sourced w.answer := by
  rcases h.comes count hcount with hown | hsourced
  · exact absurd hdevice hown.origin
  · exact hsourced

/-- The address of the cycle is on the address bus, until a fetch turns to its refresh. -/
theorem Runs.address_eq (h : s.Runs w left b) (hlater : b.core.cycle.half ≠ 0)
    (hearly : s.core.cycle.pattern = .fetch → b.core.cycle.half ≤ 4)
    (howned : s.core.cycle.Addresses) :
    b.core.address.value = s.core.cycleAddress.getD 0 := by
  obtain ⟨t, hcarries, haddress, -⟩ := h.plays.carries
  rw [if_neg hlater] at haddress
  rw [← haddress]
  refine hcarries.address h.phase h.plays.amid.chosen hlater ?_ ?_
  · rw [h.pattern_eq]
    exact hearly
  · rw [ActiveCycle.Addresses, h.pattern_eq]
    exact howned

/-- Nothing is written to a port in a scene that is no write to one. -/
theorem Runs.givesPort (h : s.Runs w left b) (hother : s.core.cycle.pattern ≠ .portWrite) :
    b.core.pins.givesPort = false := by
  refine Bool.eq_false_iff.mpr fun hgives => hother ?_
  rw [← h.pattern_eq]
  exact (h.underway.wired.givesPort_iff.mp hgives).1

/-- What the board has ready is what the scene reads. -/
theorem Heard.supplies (h : s.Heard w last) {count : Nat} (hcount : count ≤ last)
    (hruns : (s.nth w count).Runs w left b) (hsupplied : b.Supplied w s count) (level : Level) :
    b.Supplies (· = (s.nth w count).byte w) level := by
  intro k hk helse hsample
  obtain rfl := hruns.engages hk
  have hsample : b.core.cycle.half = b.core.cycle.pattern.sampleHalf := hsample
  have helse : b.core.cycle.readsElsewhere = true := helse
  rw [hruns.pattern_eq] at hsample
  rw [Core.readsElsewhere_of_use hruns.use_eq, ActiveCycle.readsElsewhere] at helse
  show b.core.data.value = _
  have hsource (hnone : (s.nth w count).core.cycle.readsMemory = false)
      (hother : (s.nth w count).core.cycle.pattern ≠ .portRead)
      (hsourced : (s.nth w count).Sourced w.answer)
      (hreads : (s.nth w count).core.cycle.kind.readsCode = true) :
      b.core.data.value = (s.nth w count).byte w := by
    rw [byte, if_neg (Bool.eq_false_iff.mp hnone), if_neg hother]
    exact hsupplied.attends.source_byte hruns hsourced hreads hsample
  -- a port gives what it replies, and any other cycle gets its byte from the answer of the source
  cases hpattern : (s.nth w count).core.cycle.pattern
  case portRead =>
    have hnone : (s.nth w count).core.cycle.readsMemory = false := by
      rw [ActiveCycle.readsMemory, hpattern]
    rw [hpattern] at hsample
    have hseven : b.core.cycle.half = 7 := hsample
    rw [hsupplied.attends.port_byte hruns hpattern hseven,
      hsupplied.reply (h.ports count hcount hpattern),
      hruns.address_eq (by omega) (fun hfetch => by cases hpattern.symm.trans hfetch)
        (by rw [ActiveCycle.Addresses, hpattern]; decide), byte,
      if_neg (Bool.eq_false_iff.mp hnone), if_pos hpattern, Core.cycleAddress, hpattern]
    rfl
  case acknowledge =>
    rcases h.comes count hcount with hown | hsourced
    · exact absurd hpattern hown.pattern
    · refine hsource ?_ (by rw [hpattern]; decide) hsourced ?_
      · rw [ActiveCycle.readsMemory, hpattern]
      · rw [hsourced.course.uses.opcodeFetch_iff.mpr (Or.inr (Or.inl hpattern))]
        rfl
  case fetch | opcodeRead | read =>
    rw [hpattern] at helse
    dsimp only at helse
    rcases h.comes count hcount with hown | hsourced
    · cases hown.fromDevice.symm.trans helse
    · refine hsource ?_ (by rw [hpattern]; decide) hsourced ?_
      · rw [ActiveCycle.readsMemory, hpattern]
        dsimp only
        rw [helse]
        rfl
      · rw [hsourced.posed.fromDevice, decide_eq_true hsourced.origin, Bool.true_and] at helse
        exact helse
  all_goals
    rw [hpattern] at helse
    cases helse

/-- The board keeps it up from edge to edge, and from scene to scene. -/
theorem Heard.upholds (h : s.Heard w last) :
    Machine.Upholds w s (fun count b => b.Supplied w s count) last := by
  have hreply {b : Board} {level : Level} {count count' left : Nat}
      (hsupplied : b.Supplied w s count) (hlater : count ≤ count')
      (hnext : (s.nth w count').Runs w left (b.edge level).1)
      (hnone : ∀ i ≤ count', (s.nth w i).core.cycle.pattern ≠ .portWrite) :
      (b.edge level).1.device.reply = w.reply := by
    obtain ⟨held, hturns, -⟩ := hsupplied.attends.voice
    obtain ⟨-, hkept, -⟩ := Board.device_edge hturns.usual level
    rw [hkept (hnext.givesPort (hnone count' (Nat.le_refl _)))]
    exact hsupplied.reply fun i hi => hnone i (by omega)
  refine ⟨fun hcount hruns hsupplied level => h.supplies hcount hruns hsupplied level,
    fun hcount hruns hsupplied hnext => ⟨?_, hreply hsupplied (Nat.le_refl _) hnext⟩,
    fun {b count level} hcount hruns hsupplied hnext =>
      ⟨?_, hreply hsupplied (Nat.le_succ _) hnext⟩⟩
  · exact hsupplied.attends.edge id fun hdevice => (h.sourced hcount hdevice).asks hruns hnext
  · have horigin : (s.nth w (count + 1)).core.origin = (s.nth w count).core.origin :=
      Core.origin_closed
    refine hsupplied.attends.edge (fun hdevice => horigin.symm.trans hdevice) fun hdevice => ?_
    exact (h.sourced (Nat.le_of_lt hcount) (horigin.symm.trans hdevice)).asks_next hruns hnext
      (h.sourced hcount hdevice)

end Scene

/-! ## The machine -/

/-- A device keeps its kind. -/
theorem Device.usual_of_edge {device : Device} {pins : Pins} {address : Bus Word} {data : Bus Byte}
    (h : (device.edge level pins address data).1.Usual) : device.Usual := by
  cases device with
  | unattached => exact .unattached
  | latch l => exact .latch l
  | source s => exact .source s
  | pair first second =>
    cases first with
    | latch l =>
      cases second with
      | source s => exact .both l s
      | unattached | latch | pair => cases h
    | unattached | source | pair => cases h

/-- On a board with a usual device the components take turns. -/
theorem Attended.takesTurns {config : BoardConfig} (h : Attended config b)
    (husual : b.device.Usual) : ∃ held, b.TakesTurns held := by
  induction h with
  | @start device m bytes built size =>
    have hdevice : m.board.device = device := by
      unfold Machine.build at built
      split at built
      · exact nomatch built
      · obtain rfl := Except.ok.inj built
        rfl
    have husual' : m.board.device.Usual := husual
    rw [hdevice] at husual'
    exact ⟨none, (Board.TakesTurns.start husual' built).set m.board.host m.hooks id bytes⟩
  | @edge b h level ih =>
    obtain ⟨-, hdevice, -⟩ := b.edge_parts level
    rw [hdevice] at husual
    obtain ⟨held, hturns⟩ := ih (Device.usual_of_edge husual)
    exact ⟨_, hturns.edge level⟩
  | set _ host hooks f bytes size ih =>
    obtain ⟨held, hturns⟩ := ih husual
    exact ⟨held, hturns.set host hooks f bytes⟩

namespace Machine

variable {m : Machine} {k : Core}

/-- The first edge of an instruction runs its first half-period, on a chip in the state of the scene,
    with what the scene needs at hand. -/
structure Begins (w : Surroundings) (s : Scene) (m : Machine) (k : Core) : Prop where
  orderly : m.board.Orderly w.config
  turns : ∃ held, m.board.TakesTurns held
  engaged : m.board.engaged m.clock.level.flip = some k
  first : k.cycle.half = 0
  nmi : k.nmiPending = false
  logic : s.core.logic = k.logic
  bytes : m.memory.bytes = s.bytes
  given : s.given = 0
  reply : m.device.reply = w.reply
  source : s.core.origin = .device →
    ∃ source, m.device.source? = some source ∧ source.acknowledgeBytes = w.answer
  started : m.core.phase ≠ .powerOn

/-- So the machine comes into the first scene. -/
theorem Begins.visits (h : m.Begins w s k) (hheard : s.Heard w last) :
    m.ends = false ∧ ∃ left, m.Visits w s (fun count b => b.Supplied w s count) 1 0 left := by
  obtain ⟨held, hturns⟩ := h.turns
  obtain ⟨hgoes, hmore, hruns⟩ := h.orderly.runs_first (w := w) (s := s) h.engaged h.first h.logic
    h.bytes
  obtain ⟨left, hleft⟩ : ∃ left, s.span w = left + 2 := ⟨s.span w - 2, by omega⟩
  rw [hleft] at hruns
  refine ⟨hgoes, left, hruns, ?_, ⟨?_, fun hnone => ?_⟩, nmiPending_first h.engaged h.nmi⟩
  · rw [Scene.spent, Scene.spent, hleft]
    omega
  · have hrest : m.board.core.pins.AtRest := by
      have hk := h.orderly.sound.engages h.engaged
      rw [Pins.AtRest, ← hk.strobes]
      exact hk.underway.atRest h.first
    have hone : (m.board.edge m.clock.level.flip).1.core.cycle.half = 1 := by
      have hspent := hruns.left_le
      have hall := hruns.left_of_first (by omega)
      omega
    exact hturns.attends hrest h.started h.source (hheard.sourced (Nat.zero_le _)) h.given hruns hone
  · obtain ⟨-, hkept, -⟩ := Board.device_edge hturns.usual m.clock.level.flip
    exact (hkept (hruns.givesPort (hnone 0 (Nat.le_refl 0)))).trans h.reply

/-- The machine takes the edges that the scenes span, if no interrupt comes at the end. -/
theorem Begins.finishes (h : m.Begins w s k) (hheard : s.Heard w last) (hlasts : s.Lasts w last)
    (hends : (s.nth w last).ends w = true)
    (hclear : ∀ edge, m.Unfinished edge → (m.after edge).board.Clear)
    (hmasked : (s.nth w (last + 1)).core.heeds = false) :
    m.Finishes w.config (s.spent w (last + 1)) (s.nth w (last + 1)).core.complete
      (s.nth w (last + 1)).bytes := by
  obtain ⟨hgoes, left, hfirst⟩ := h.visits hheard
  exact finishes_visits hfirst hgoes hheard.upholds hlasts hends (fun edge _ => hclear edge)
    (Or.inr hmasked)

end Machine

end Z80Board
