import Z80Board.Proofs.Rig.Drivers

/-! # Asked again

    Once a device has answered the pins, and as long as they stay as they are, it gives the same
    answer on every edge: the byte it drives, or nothing.  So does anything that is made of
    devices. -/

namespace Z80Board

variable {level : Level} {pins : Pins} {address : Bus Word} {data : Bus Byte}

/-- A component that drives its byte does not let go. -/
theorem Bus.after_congr {before : Bool} {now : Option Byte} (h : now = none → before = false) :
    data.after before now = data.after false now := by
  cases now with
  | some byte => rfl
  | none => rw [h rfl]

/-- What the pins ask of a device: to answer an acknowledge, for a byte of its own, or for the byte
    of a port. -/
def Pins.question (pins : Pins) : Bool × Bool × Bool :=
  (pins.interruptAcknowledge, InterruptSource.deviceRead pins, pins.asksPort)

/-- A source that is turned to is a device. -/
theorem Pins.turnToDevice_of_source (h : pins.turnToSource = true) : pins.turnToDevice = true := by
  rw [turnToSource, InterruptSource.deviceRead] at h
  rw [turnToDevice]
  revert h
  cases pins.interruptAcknowledge <;> cases pins.rd.isAsserted <;> cases pins.mreq.isAsserted <;>
    cases pins.iorq.isAsserted <;> decide

/-- Who is turned to is asked for the byte of a port, or is a source. -/
theorem Pins.asksPort_or_turnToSource (h : pins.turnToDevice = true) :
    pins.asksPort = true ∨ pins.turnToSource = true := by
  rw [turnToDevice, interruptAcknowledge] at h
  rw [asksPort, portRequest, turnToSource, interruptAcknowledge, InterruptSource.deviceRead]
  revert h
  cases pins.m1.isAsserted <;> cases pins.rd.isAsserted <;> cases pins.mreq.isAsserted <;>
    cases pins.iorq.isAsserted <;> decide

/-- The byte of a device is not read amid an acknowledge. -/
theorem Pins.acknowledge_of_deviceRead (h : InterruptSource.deviceRead pins = true) :
    pins.interruptAcknowledge = false := by
  rw [InterruptSource.deviceRead, Bool.and_eq_true, Bool.not_eq_true'] at h
  rw [interruptAcknowledge, h.2]
  rfl

/-- What a cycle asks of a device as long as it turns to one. -/
def ActiveCycle.question (cycle : ActiveCycle) : Bool × Bool × Bool :=
  (cycle.pattern == .acknowledge, cycle.fromDevice && cycle.pattern != .acknowledge
    && cycle.pattern != .portRead, cycle.pattern == .portRead)

/-- A cycle asks a device for one thing only, and before it goes over to its refresh. -/
theorem ActiveCycle.question_outputs {cycle : ActiveCycle} {half : Nat}
    (h : (cycle.outputs half).turnToDevice = true) :
    (cycle.outputs half).question = cycle.question ∧ 2 ≤ half
      ∧ (cycle.pattern = .fetch ∨ cycle.pattern = .acknowledge → half ≤ 4) := by
  revert h
  rw [question, outputs]
  cases cycle.pattern <;> cases hdevice : cycle.fromDevice
  all_goals
    obtain rfl | rfl | rfl | rfl | rfl | rfl | rfl | rfl | rfl | ⟨n, rfl⟩ := half_cases half <;>
      simp [fetchOutputs, acknowledgeOutputs, readOutputs, writeOutputs, portOutputs, hdevice,
        Pins.turnToDevice, Pins.question, Pins.interruptAcknowledge, InterruptSource.deviceRead,
        Pins.asksPort, Pins.portRequest, Level.isAsserted, Level.isLow]

namespace Core

variable {c : Core}

theorem question_congr {pins pins' : Pins} (h : pins.strobes = pins'.strobes) :
    pins.question = pins'.question := by
  have hport := (ports_congr h).1
  simp only [Pins.strobes, Prod.mk.injEq] at h
  obtain ⟨hm1, hmreq, hiorq, hrd, -⟩ := h
  rw [Pins.question, hport, Pins.interruptAcknowledge, InterruptSource.deviceRead, hm1, hmreq,
    hiorq, hrd]
  rfl

/-- After an edge the pins turn to a device only amid a cycle of a chip that was running, and if they
    did so before, they ask for the same. -/
theorem Sound.turned_edge (h : c.Sound) (level : Level) (inputs : InputLevels) (stopping : Bool)
    (hturned : ((c.edge level inputs).finish stopping).1.pins.turnToDevice = true) :
    c.phase = .running
      ∧ ((c.edge level inputs).finish stopping).1.address = c.address
      ∧ (c.pins.turnToDevice = true →
        ((c.edge level inputs).finish stopping).1.pins.question = c.pins.question) := by
  have houtcome := h.outcome level inputs stopping
  generalize ((c.edge level inputs).finish stopping).1 = after at *
  cases houtcome with
  | rests rest => cases (nobody_asked rest).2.2.symm.trans hturned
  | amid k runs more result =>
    subst result
    have hk := h.engages runs
    have hwired := (hk.underway.amid more).wired
    have hhalf := hk.underway.half_runHalf more
    rw [turnToDevice_congr hwired.strobes] at hturned
    obtain ⟨hasked, hlate, hearly⟩ := ActiveCycle.question_outputs hturned
    obtain ⟨hsame, hphase, -⟩ := hk.amid (by omega)
    have hpattern := pattern_runHalf (c := k)
    have hdevice := fromDevice_of_use (use_runHalf (c := k))
    rw [hpattern] at hearly
    refine ⟨hphase, ?_, fun hbefore => ?_⟩
    · rw [buses_runHalf.1, addressAfter_later (by omega), hk.address]
      by_cases hfour : k.cycle.half = 4
      · refine Or.inr (not_or.mp fun hfetch => ?_)
        have hroom := hearly hfetch
        rcases hhalf with ⟨-, hnext⟩ | ⟨-, -, ⟨hthree, -⟩ | ⟨hfive, -⟩⟩ <;> omega
      · exact Or.inl hfour
    · rw [← turnToDevice_congr hk.strobes, turnToDevice_congr hk.underway.wired.strobes] at hbefore
      rw [question_congr hwired.strobes, hasked, ← question_congr hk.strobes,
        question_congr hk.underway.wired.strobes, (ActiveCycle.question_outputs hbefore).1,
        ActiveCycle.question, hpattern, hdevice, ActiveCycle.question]

end Core

/-! ## The parts -/

/-- The latch follows the strobes. -/
def PortLatch.Answered (l : PortLatch) (pins : Pins) (address : Word) : Prop :=
  l.driving = l.asked pins address

theorem PortLatch.answered_edge (l : PortLatch) :
    (l.edge pins address data).1.Answered pins address.value := by
  rw [Answered, edge_eq, asked, kept]
  split <;> rfl

/-- A latch that has answered goes on driving its byte, or leaves the data bus alone. -/
theorem PortLatch.Answered.again {l : PortLatch} (h : l.Answered pins address.value) :
    (l.edge pins address data).1.driving = l.driving
      ∧ (l.edge pins address data).2 = data.after false (l.driven address.value) := by
  rw [edge_eq, carried, ← h, driven]
  cases l.driving <;> exact ⟨rfl, rfl⟩

namespace InterruptSource

/-- The source knows whether the acknowledge is going on, and drives the data bus if it is asked to
    and has a byte. -/
structure Answered (s : InterruptSource) (pins : Pins) : Prop where
  acknowledging : s.acknowledging = pins.interruptAcknowledge
  driving : s.driving = (pins.interruptAcknowledge || (deviceRead pins && decide (0 < s.cursor)))
  stocked : s.Stocked

variable {s : InterruptSource}

theorem answered_answer (s : InterruptSource) (data : Bus Byte)
    (hstocked : pins.turnToSource = true → s.Stocked)
    (hidle : deviceRead pins = true → s.acknowledging = false) :
    (s.answer pins data).1.Answered pins := by
  have hnext := (s.utters_answer data hstocked).2
  refine ⟨?_, ?_, hnext⟩
  · rw [answer]
    cases hack : pins.interruptAcknowledge with
    | true => rfl
    | false =>
      rw [if_neg Bool.false_ne_true]
      split
      · rw [stopDriving_eq]
      next hquiet =>
      have hquiet := Bool.eq_false_iff.mpr hquiet
      split
      · split <;> exact hquiet
      split
      · rw [stopDriving_eq]
        exact hquiet
      split <;> exact hquiet
  · rw [answer]
    cases hack : pins.interruptAcknowledge with
    | true => rfl
    | false =>
      rw [if_neg Bool.false_ne_true, Bool.false_or]
      split
      · next hacknowledging =>
        have hunread : deviceRead pins = false := by
          refine Bool.eq_false_iff.mpr fun hread => ?_
          cases hacknowledging.symm.trans (hidle hread)
        rw [hunread, stopDriving_eq]
        rfl
      next hquiet =>
      have hturned (hread : deviceRead pins = true) : pins.turnToSource = true := by
        rw [Pins.turnToSource, hread, Bool.or_true]
      -- a source that drives the data bus amid its answer has its cursor on a byte
      have hcursor (hread : deviceRead pins = true) (hdrives : s.driving = true) :
          0 < s.cursor ∧ s.cursor < s.acknowledgeBytes.length :=
        (hstocked (hturned hread) hdrives).resolve_left hquiet
      split
      · next hreads =>
        obtain ⟨hplace, hread⟩ := Bool.and_eq_true_iff.mp hreads
        split
        · rw [hread]
          exact hplace.symm
        · next hnone =>
          have hsilent : s.driving = false := by
            refine Bool.eq_false_iff.mpr fun hdrives => ?_
            rw [List.getElem?_eq_none_iff] at hnone
            have := (hcursor hread hdrives).2
            omega
          show s.driving = (_ && decide (0 < 0))
          rw [hsilent]
          exact (Bool.and_false _).symm
      next hidle' =>
      split
      · next hdrives =>
        have hunread : deviceRead pins = false := by
          refine Bool.eq_false_iff.mpr fun hread => hidle' ?_
          rw [hread, Bool.and_true]
          exact decide_eq_true (hcursor hread hdrives).1
        rw [hunread, stopDriving_eq]
        rfl
      next hsilent =>
      have hsilent := Bool.eq_false_iff.mpr hsilent
      split
      · show s.driving = (_ && decide (0 < 0))
        rw [hsilent]
        exact (Bool.and_false _).symm
      · rw [hsilent, Bool.and_comm]
        exact (Bool.eq_false_iff.mpr hidle').symm

/-- After an edge the source has answered, unless a read follows an acknowledge at once. -/
theorem answered_edge (s : InterruptSource) (level : Level) (data : Bus Byte)
    (hstocked : pins.turnToSource = true → s.Stocked)
    (hidle : deviceRead pins = true → s.acknowledging = false) :
    (s.edge level pins data).1.Answered pins := by
  have hset (s : InterruptSource) (h : s.Answered pins) : s.setLevels.Answered pins :=
    ⟨h.acknowledging, h.driving, h.stocked⟩
  cases level with
  | low => exact hset _ (answered_answer s data hstocked hidle)
  | high =>
    exact hset _ (answered_answer { s with risingEdges := s.risingEdges + 1 } data hstocked hidle)

theorem Answered.again_answer (h : s.Answered pins) (data : Bus Byte) :
    (s.answer pins data).1.driving = s.driving
      ∧ (s.answer pins data).2 = data.after false s.driven := by
  have hacknowledging := h.acknowledging
  have hdriving := h.driving
  rw [answer, driven]
  cases hack : pins.interruptAcknowledge with
  | true =>
    rw [hack] at hacknowledging hdriving
    rw [if_pos rfl, hacknowledging, hdriving, ready, hacknowledging]
    exact ⟨rfl, rfl⟩
  | false =>
    rw [hack] at hacknowledging hdriving
    rw [Bool.false_or, Bool.and_comm] at hdriving
    rw [if_neg Bool.false_ne_true, hacknowledging, if_neg Bool.false_ne_true]
    cases hreads : decide (s.cursor > 0) && deviceRead pins with
    | true =>
      have hdrives : s.driving = true := hdriving.trans hreads
      obtain ⟨-, hroom⟩ := (h.stocked hdrives).resolve_left (by rw [hacknowledging]; decide)
      rw [if_pos rfl, hdrives, ready, hacknowledging, List.getElem?_eq_getElem hroom]
      exact ⟨rfl, rfl⟩
    | false =>
      have hsilent : s.driving = false := hdriving.trans hreads
      rw [if_neg Bool.false_ne_true, hsilent, if_neg Bool.false_ne_true]
      split
      · exact ⟨rfl, rfl⟩
      · exact ⟨hsilent, rfl⟩

/-- A source that has answered goes on driving its byte, or leaves the data bus alone. -/
theorem Answered.again (h : s.Answered pins) (level : Level) (data : Bus Byte) :
    (s.edge level pins data).1.driving = s.driving
      ∧ (s.edge level pins data).2 = data.after false s.driven := by
  cases level with
  | low => exact h.again_answer data
  | high =>
    have hcounted : { s with risingEdges := s.risingEdges + 1 }.Answered pins :=
      ⟨h.acknowledging, h.driving, h.stocked⟩
    exact hcounted.again_answer data

end InterruptSource

/-! ## Devices -/

namespace Device

/-- Every part of the device has answered. -/
def Answered (pins : Pins) (address : Word) : Device → Prop
  | .unattached => True
  | .latch l => l.Answered pins address
  | .source s => s.Answered pins
  | .pair first second => first.Answered pins address ∧ second.Answered pins address

/-- The byte that the device drives: of two parts the second one prevails. -/
def driven (address : Word) : Device → Option Byte
  | .unattached => none
  | .latch l => l.driven address
  | .source s => s.driven
  | .pair first second => second.driven address <|> first.driven address

/-- A device that does not drive the data bus has no byte for it. -/
theorem driven_of_silent {device : Device} {address : Word} (h : device.driving = false) :
    device.driven address = none := by
  induction device with
  | unattached => rfl
  | latch l => exact if_neg (Bool.eq_false_iff.mp h)
  | source s => exact if_neg (Bool.eq_false_iff.mp h)
  | pair first second ihfirst ihsecond =>
    obtain ⟨hfirst, hsecond⟩ := Bool.or_eq_false_iff.mp h
    rw [driven, ihfirst hfirst, ihsecond hsecond]
    rfl

/-- Every source knows what it drives, and whether an acknowledge is going on. -/
def Prepared (pins before : Pins) : Device → Prop
  | .unattached | .latch _ => True
  | .source s => (pins.turnToSource = true → s.Stocked)
      ∧ (InterruptSource.deviceRead pins = true → s.acknowledging = before.interruptAcknowledge)
  | .pair first second => first.Prepared pins before ∧ second.Prepared pins before

variable {before : Pins} {device : Device}

theorem Answered.prepared (h : device.Answered before address.value) :
    device.Prepared pins before := by
  induction device with
  | unattached | latch => trivial
  | source s => exact ⟨fun _ => h.stocked, fun _ => h.acknowledging⟩
  | pair first second ihfirst ihsecond => exact ⟨ihfirst h.1, ihsecond h.2⟩

/-- A device to whose sources the pins do not turn has nothing to prepare. -/
theorem prepared_of_unasked (h : pins.turnToSource = false) (device : Device) :
    device.Prepared pins before := by
  induction device with
  | unattached | latch => trivial
  | source s =>
    refine ⟨fun hturned => (nomatch h.symm.trans hturned), fun hread => ?_⟩
    rw [Pins.turnToSource, hread, Bool.or_true] at h
    cases h
  | pair first second ihfirst ihsecond => exact ⟨ihfirst, ihsecond⟩

/-- After an edge the device has answered. -/
theorem Prepared.answered_edge (h : device.Prepared pins before)
    (hidle : InterruptSource.deviceRead pins = true → before.interruptAcknowledge = false)
    (level : Level) (data : Bus Byte) :
    (device.edge level pins address data).1.Answered pins address.value := by
  induction device generalizing data with
  | unattached => trivial
  | latch l => exact l.answered_edge
  | source s => exact s.answered_edge level data h.1 fun hread => (h.2 hread).trans (hidle hread)
  | pair first second ihfirst ihsecond => exact ⟨ihfirst h.1 data, ihsecond h.2 _⟩

/-- A device that has answered goes on driving its byte, or leaves the data bus alone. -/
theorem Answered.again (h : device.Answered pins address.value) (level : Level) (data : Bus Byte) :
    (device.edge level pins address data).2 = data.after false (device.driven address.value) := by
  induction device generalizing data with
  | unattached => rfl
  | latch l => exact (PortLatch.Answered.again h).2
  | source s => exact (InterruptSource.Answered.again h level data).2
  | pair first second ihfirst ihsecond =>
    show (second.edge level pins address (first.edge level pins address data).2).2 = _
    rw [ihsecond h.2, ihfirst h.1, driven]
    cases second.driven address.value <;> cases first.driven address.value <;> rfl

/-- Whatever drives the data bus has answered these pins already. -/
def Uninterrupted (pins : Pins) (address : Word) : Device → Prop
  | .unattached => True
  | .latch l => l.driving = true → l.Answered pins address
  | .source s => s.driving = true → s.Answered pins
  | .pair first second => first.Uninterrupted pins address ∧ second.Uninterrupted pins address

/-- A device goes by what the pins ask. -/
theorem Answered.congr {pins' : Pins} {address : Word} (hsame : pins'.question = pins.question)
    (h : device.Answered pins address) : device.Answered pins' address := by
  simp only [Pins.question, Prod.mk.injEq] at hsame
  obtain ⟨hack, hread, hport⟩ := hsame
  induction device with
  | unattached => trivial
  | latch l =>
    show l.driving = (pins'.asksPort && _)
    rw [hport]
    exact h
  | source s =>
    refine ⟨?_, ?_, h.stocked⟩
    · rw [hack]
      exact h.acknowledging
    · rw [hack, hread]
      exact h.driving
  | pair first second ihfirst ihsecond => exact ⟨ihfirst h.1, ihsecond h.2⟩

theorem Answered.uninterrupted {address : Word} (h : device.Answered pins address) :
    device.Uninterrupted pins address := by
  induction device with
  | unattached => trivial
  | latch | source => exact fun _ => h
  | pair first second ihfirst ihsecond => exact ⟨ihfirst h.1, ihsecond h.2⟩

theorem uninterrupted_of_silent {address : Word} (h : device.driving = false) :
    device.Uninterrupted pins address := by
  induction device with
  | unattached => trivial
  | latch | source => exact fun hdrives => nomatch h.symm.trans hdrives
  | pair first second ihfirst ihsecond =>
    obtain ⟨hfirst, hsecond⟩ := Bool.or_eq_false_iff.mp h
    exact ⟨ihfirst hfirst, ihsecond hsecond⟩

/-- Unless a part lets go of the data bus, it carries the byte that the device drives. -/
theorem Prepared.edge_data (h : device.Prepared pins before)
    (huninterrupted : device.Uninterrupted pins address.value)
    (hgives : pins.asksPort = true → pins.givesPort = false) (level : Level) (data : Bus Byte) :
    (device.edge level pins address data).2
      = data.after false ((device.edge level pins address data).1.driven address.value) := by
  induction device generalizing data with
  | unattached => rfl
  | latch l =>
    refine (l.utters address data hgives).data.trans (Bus.after_congr fun hnone => ?_)
    refine Bool.eq_false_iff.mpr fun hdrives => ?_
    have hkept := (@PortLatch.Answered.again _ _ data _ (huninterrupted hdrives)).1
    rw [hdrives, ← PortLatch.isSome_driven _ address.value, hnone] at hkept
    cases hkept
  | source s =>
    refine (s.utters level data h.1).1.data.trans (Bus.after_congr fun hnone => ?_)
    refine Bool.eq_false_iff.mpr fun hdrives => ?_
    have hkept := ((huninterrupted hdrives).again level data).1
    rw [hdrives, ← InterruptSource.isSome_driven, hnone] at hkept
    cases hkept
  | pair first second ihfirst ihsecond =>
    show (second.edge level pins address (first.edge level pins address data).2).2
      = data.after false (_ <|> _)
    rw [ihsecond h.2 huninterrupted.2, ihfirst h.1 huninterrupted.1]
    cases (second.edge level pins address _).1.driven address.value <;>
      cases (first.edge level pins address data).1.driven address.value <;> rfl

end Device

/-! ## The board -/

namespace Board

variable {b : Board}

/-- Once the chip has started, the device has answered the pins, and the byte that it drives is on the
    data bus. -/
structure Heeded (b : Board) : Prop where
  answered : b.core.phase ≠ .powerOn → b.device.Answered b.core.pins b.core.address.value
  carried : b.core.phase ≠ .powerOn → ∀ byte, b.device.driven b.core.address.value = some byte →
    b.core.data.value = byte

/-- A device to which the pins do not turn answers with nothing. -/
theorem heeded_unasked {level : Level} (h : (b.moved level).pins.turnToDevice = false) :
    (b.edge level).1.Heeded := by
  obtain ⟨-, hdevice, hcore⟩ := b.edge_parts level
  have hunasked : (b.moved level).pins.turnToSource = false := by
    refine Bool.eq_false_iff.mpr fun hturned => ?_
    cases h.symm.trans (Pins.turnToDevice_of_source hturned)
  refine ⟨fun _ => ?_, fun _ byte hdriven => ?_⟩
  · rw [hdevice, hcore]
    have hprepared : b.device.Prepared (b.moved level).pins {} :=
      Device.prepared_of_unasked hunasked b.device
    exact hprepared.answered_edge (fun _ => rfl) level _
  · rw [hdevice, Device.driven_of_silent (b.device.edge_unasked h).1] at hdriven
    cases hdriven

/-- Every edge leaves a device that has answered. -/
theorem Heeded.edge (h : b.Heeded) (hsound : b.core.Sound)
    (hcalled : b.core.phase ≠ .powerOn → b.device.driving = true →
      b.core.pins.turnToDevice = true) (level : Level) : (b.edge level).1.Heeded := by
  obtain ⟨stopping, hstep⟩ := b.moved_eq level
  obtain ⟨-, hdevice, hcore⟩ := b.edge_parts level
  have hmoved : (b.moved level).Sound := by
    rw [hstep]
    exact (hsound.edge level b.inputs).finish stopping
  -- only what the chip turns to has to have answered, and it has let it answer undisturbed
  cases hturned : (b.moved level).pins.turnToDevice with
  | false => exact heeded_unasked hturned
  | true =>
    have hasked := hturned
    rw [hstep] at hasked
    obtain ⟨hphase, haddress, hquestion⟩ := hsound.turned_edge level b.inputs stopping hasked
    rw [← hstep] at haddress hquestion
    have hstarted : b.core.phase ≠ .powerOn := by
      rw [hphase]
      exact nofun
    have hanswered := h.answered hstarted
    have huninterrupted :
        b.device.Uninterrupted (b.moved level).pins (b.moved level).address.value := by
      cases hbefore : b.core.pins.turnToDevice with
      | true =>
        rw [haddress]
        exact (hanswered.congr (hquestion hbefore)).uninterrupted
      | false =>
        refine Device.uninterrupted_of_silent (Bool.eq_false_iff.mpr fun hdrives => ?_)
        cases hbefore.symm.trans (hcalled hstarted hdrives)
    have hidle : InterruptSource.deviceRead (b.moved level).pins = true →
        b.core.pins.interruptAcknowledge = false := by
      refine fun hread => Bool.eq_false_iff.mpr fun hack => ?_
      have hbefore : b.core.pins.turnToDevice = true := by
        rw [Pins.turnToDevice, hack]
        rfl
      have hsame := (Prod.mk.injEq .. ▸ hquestion hbefore).1.trans hack
      cases hsame.symm.trans (Pins.acknowledge_of_deviceRead hread)
    refine ⟨fun _ => ?_, fun _ byte hdriven => ?_⟩
    · rw [hdevice, hcore]
      exact hanswered.prepared.answered_edge hidle level _
    · rw [hcore] at hdriven ⊢
      rw [hdevice] at hdriven
      have hdata := hanswered.prepared.edge_data huninterrupted hmoved.givesPort_of_asksPort level
        (b.memory.answered (b.moved level).pins (b.moved level).address (b.moved level).data)
      rw [hdriven] at hdata
      exact congrArg Bus.value hdata

end Board

end Z80Board
