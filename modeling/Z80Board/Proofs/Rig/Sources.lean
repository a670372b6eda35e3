import Z80Board.Proofs.Rig.Drivers
import Z80Board.Proofs.Rig.Spans
import Z80Board.Proofs.Rig.Waits

/-! # What a device answers

    An interrupt source answers an acknowledge with its first byte, and the reads that turn to it
    afterwards with the others, one byte for each.  It goes by the pins alone: its cursor moves on when
    a read lets go of its strobe, and not when the chip turns to memory or to a port in between.  So on
    its way through an instruction that comes from the source, the cursor has moved over as many bytes
    as the chip has taken. -/

namespace Z80Board

/-! ## The pins -/

/-- A fetch turns to memory. -/
def Pins.fetchesMemory (pins : Pins) : Bool :=
  pins.m1.isAsserted && pins.mreq.isAsserted

namespace ActiveCycle

variable {cycle : ActiveCycle} {half : Nat}

/-- A source is turned to in the middle of the cycles that are given to it, up to their sample. -/
theorem turnToSource_outputs_eq : (cycle.outputs half).turnToSource
    = (decide (cycle.talker = some .source) && decide (2 ≤ half ∧ half ≤ cycle.pattern.sampleHalf)
      && (cycle.pattern != .acknowledge || decide (cycle.autoWaits < 2))) := by
  rw [talker, outputs]
  cases cycle.pattern <;> cases hdevice : cycle.fromDevice
  all_goals
    obtain rfl | rfl | rfl | rfl | rfl | rfl | rfl | rfl | rfl | ⟨n, rfl⟩ := half_cases half <;>
      by_cases hwaits : cycle.autoWaits < 2 <;>
        simp [fetchOutputs, acknowledgeOutputs, readOutputs, writeOutputs, portOutputs, hdevice,
          hwaits, Pins.turnToSource, Pins.interruptAcknowledge, InterruptSource.deviceRead,
          Level.isAsserted, Level.isLow, BusPattern.sampleHalf]

/-- A fetch turns to memory unless it is given to a source. -/
theorem fetchesMemory_outputs (h : (cycle.outputs half).fetchesMemory = true) :
    cycle.pattern = .fetch ∧ cycle.fromDevice = false := by
  revert h
  rw [outputs]
  cases cycle.pattern <;> cases hdevice : cycle.fromDevice
  all_goals
    obtain rfl | rfl | rfl | rfl | rfl | rfl | rfl | rfl | rfl | ⟨n, rfl⟩ := half_cases half <;>
      simp [fetchOutputs, acknowledgeOutputs, readOutputs, writeOutputs, portOutputs, hdevice,
        Pins.fetchesMemory, Level.isAsserted, Level.isLow]

end ActiveCycle

namespace Core

variable {c : Core} {half : Nat}

theorem Wired.turnToSource (h : c.Wired half) : c.pins.turnToSource
    = (decide (c.cycle.talker = some .source)
      && decide (2 ≤ half ∧ half ≤ c.cycle.pattern.sampleHalf)
      && (c.cycle.pattern != .acknowledge || decide (c.cycle.autoWaits < 2))) := by
  rw [turnToSource_congr h.strobes]
  exact ActiveCycle.turnToSource_outputs_eq

theorem Wired.fetchesMemory (h : c.Wired half) (hup : c.pins.fetchesMemory = true) :
    c.cycle.pattern = .fetch ∧ c.cycle.fromDevice = false := by
  have hstrobes := h.strobes
  simp only [Pins.strobes, Prod.mk.injEq] at hstrobes
  rw [Pins.fetchesMemory, hstrobes.1, hstrobes.2.1] at hup
  exact ActiveCycle.fetchesMemory_outputs hup

end Core

/-! ## The source -/

namespace InterruptSource

variable {answer : List Byte} {pins pins' : Pins} {taken taken' : Nat} {s : InterruptSource}
  {level : Level}

/-- What the pins ask of a source on an edge, as the chip goes on from some bytes of the answer to as
    many or one more. -/
inductive Asks (answer : List Byte) (pins : Pins) (taken : Nat) (pins' : Pins) : Nat → Prop
  /-- An acknowledge begins, or goes on. -/
  | acknowledge (now : pins'.interruptAcknowledge = true) : Asks answer pins taken pins' 0
  /-- An acknowledge is over. -/
  | first {taken' : Nat} (before : pins.interruptAcknowledge = true)
    (now : pins'.turnToSource = false) (room : taken' ≤ 1) : Asks answer pins taken pins' taken'
  /-- A read begins, or goes on. -/
  | read (before : pins.interruptAcknowledge = false) (other : pins'.interruptAcknowledge = false)
    (now : pins'.turnToSource = true) (later : 0 < taken) (room : taken < answer.length) :
    Asks answer pins taken pins' taken
  /-- A read is over. -/
  | next (other : pins.interruptAcknowledge = false) (before : pins.turnToSource = true)
    (now : pins'.turnToSource = false) (later : 0 < taken) : Asks answer pins taken pins' (taken + 1)
  /-- The chip does not turn to the source, and fetches nothing from memory. -/
  | rest (before : pins.turnToSource = false) (now : pins'.turnToSource = false)
    (memory : pins'.fetchesMemory = false) : Asks answer pins taken pins' taken

/-- The source is in the middle of this answer, of which so many bytes have been taken. -/
structure Serves (answer : List Byte) (pins : Pins) (taken : Nat) (s : InterruptSource) : Prop where
  bytes : s.acknowledgeBytes = answer
  acknowledging : s.acknowledging = pins.interruptAcknowledge
  driving : s.driving = pins.turnToSource
  cursor : 0 < taken → taken < answer.length → s.cursor = taken

theorem turnToSource_of_acknowledge (h : pins.interruptAcknowledge = true) :
    pins.turnToSource = true := by
  rw [Pins.turnToSource, h]
  rfl

theorem not_acknowledge_of_turned (h : pins.turnToSource = false) :
    pins.interruptAcknowledge = false :=
  (Bool.or_eq_false_iff.mp h).1

/-- What the source answers goes on with its answer. -/
theorem Serves.answered (h : s.Serves answer pins taken) (hasks : Asks answer pins taken pins' taken')
    (data : Bus Byte) : (s.answer pins' data).1.Serves answer pins' taken' := by
  rw [InterruptSource.answer]
  -- one case for each way in which the chip can go on asking
  cases hasks with
  | acknowledge now =>
    rw [if_pos now]
    have hturned := turnToSource_of_acknowledge now
    cases s.acknowledging <;>
      exact ⟨h.bytes, now.symm, hturned.symm, fun hlater => absurd hlater (Nat.lt_irrefl 0)⟩
  | first before now room =>
    have hother := not_acknowledge_of_turned now
    rw [if_neg (Bool.eq_false_iff.mp hother), if_pos (h.acknowledging.trans before), stopDriving_eq]
    exact ⟨h.bytes, hother.symm, now.symm, fun hlater _ => by show 1 = _; omega⟩
  | read before other now later room =>
    have hcursor := h.cursor later room
    have hreads : (decide (s.cursor > 0) && deviceRead pins') = true := by
      rw [Pins.turnToSource, other, Bool.false_or] at now
      rw [now, Bool.and_true, hcursor]
      exact decide_eq_true later
    have hbyte : s.acknowledgeBytes[s.cursor]? = some answer[taken] := by
      rw [h.bytes, hcursor]
      exact List.getElem?_eq_getElem room
    rw [if_neg (Bool.eq_false_iff.mp other),
      if_neg (Bool.eq_false_iff.mp (h.acknowledging.trans before)), if_pos hreads, hbyte]
    exact ⟨h.bytes, h.acknowledging.trans (before.trans other.symm), now.symm, h.cursor⟩
  | next other before now later =>
    have hnone := not_acknowledge_of_turned now
    have hread : ¬ (decide (s.cursor > 0) && deviceRead pins') = true := by
      rw [Bool.and_eq_true, not_and, Bool.not_eq_true]
      exact fun _ => (Bool.or_eq_false_iff.mp now).2
    rw [if_neg (Bool.eq_false_iff.mp hnone),
      if_neg (Bool.eq_false_iff.mp (h.acknowledging.trans other)), if_neg hread,
      if_pos (h.driving.trans before), stopDriving_eq]
    refine ⟨h.bytes, h.acknowledging.trans (other.trans hnone.symm), now.symm, fun _ hroom => ?_⟩
    show (if s.cursor + 1 ≥ s.acknowledgeBytes.length then 0 else s.cursor + 1) = _
    rw [h.bytes, h.cursor later (by omega), if_neg (by omega)]
  | rest before now memory =>
    have hnone := not_acknowledge_of_turned now
    have hother := not_acknowledge_of_turned before
    have hread : ¬ (decide (s.cursor > 0) && deviceRead pins') = true := by
      rw [Bool.and_eq_true, not_and, Bool.not_eq_true]
      exact fun _ => (Bool.or_eq_false_iff.mp now).2
    rw [if_neg (Bool.eq_false_iff.mp hnone),
      if_neg (Bool.eq_false_iff.mp (h.acknowledging.trans hother)), if_neg hread,
      if_neg (Bool.eq_false_iff.mp (h.driving.trans before)),
      if_neg (show ¬ (pins'.m1.isAsserted && pins'.mreq.isAsserted) = true from
        Bool.eq_false_iff.mp memory)]
    exact ⟨h.bytes, h.acknowledging.trans (hother.trans hnone.symm),
      h.driving.trans (before.trans now.symm), h.cursor⟩

/-- An edge goes on with the answer. -/
theorem Serves.edge (h : s.Serves answer pins taken) (hasks : Asks answer pins taken pins' taken')
    (level : Level) (data : Bus Byte) : (s.edge level pins' data).1.Serves answer pins' taken' := by
  have hcounted : ({ s with risingEdges := s.risingEdges + 1 } : InterruptSource).Serves answer pins
      taken :=
    ⟨h.bytes, h.acknowledging, h.driving, h.cursor⟩
  have hset {s' : InterruptSource} (h' : s'.Serves answer pins' taken') :
      s'.setLevels.Serves answer pins' taken' :=
    ⟨h'.bytes, h'.acknowledging, h'.driving, h'.cursor⟩
  cases level with
  | low => exact hset (h.answered hasks data)
  | high => exact hset (hcounted.answered hasks data)

/-- A source that drives nothing and is not turned to is ready for an answer. -/
theorem serves_rest (hsilent : s.driving = false) (hnow : pins'.turnToSource = false)
    (level : Level) (data : Bus Byte) :
    (s.edge level pins' data).1.Serves s.acknowledgeBytes pins' 0 := by
  have hnone := not_acknowledge_of_turned hnow
  have hread (s' : InterruptSource) : ¬ (decide (s'.cursor > 0) && deviceRead pins') = true := by
    rw [Bool.and_eq_true, not_and, Bool.not_eq_true]
    exact fun _ => (Bool.or_eq_false_iff.mp hnow).2
  have hanswered (s' : InterruptSource) (hsame : s'.driving = false) :
      (s'.answer pins' data).1.setLevels.Serves s'.acknowledgeBytes pins' 0 := by
    have hstill (s'' : InterruptSource) (hanswer : s''.acknowledgeBytes = s'.acknowledgeBytes)
        (hidle : s''.acknowledging = false) (hquiet : s''.driving = false) :
        s''.setLevels.Serves s'.acknowledgeBytes pins' 0 :=
      ⟨hanswer, hidle.trans hnone.symm, hquiet.trans hnow.symm,
        fun hlater => absurd hlater (Nat.lt_irrefl 0)⟩
    rw [InterruptSource.answer, if_neg (Bool.eq_false_iff.mp hnone)]
    split
    · rw [stopDriving_eq]
      exact hstill _ rfl rfl rfl
    next hidle =>
    have hidle := Bool.eq_false_iff.mpr hidle
    rw [if_neg (hread s'), if_neg (Bool.eq_false_iff.mp hsame)]
    split <;> exact hstill _ rfl hidle hsame
  cases level with
  | low => exact hanswered s hsilent
  | high => exact hanswered { s with risingEdges := s.risingEdges + 1 } hsilent

end InterruptSource

end Z80Board
