import Z80Board.Wire.Bus
import Z80Board.Wire.Pins

/-! # Scripted interrupt source

    A device that pulls INT, NMI and WAIT at times a script gives, and answers interrupt
    acknowledges with a fixed row of bytes.  The first byte is put out during the acknowledge, as
    the vector or the first byte of an instruction; the rest answer the reads that follow it. -/

namespace Z80Board

/-- One assertion of a pin: from a period on, for a number of periods.  Period zero starts with the
    first rising edge. -/
structure Pulse where
  pin : InputPin
  start : Nat
  duration : Nat
deriving DecidableEq, Repr

namespace Pulse

/-- Assert NMI for some periods. -/
def nmi (start duration : Nat) : Pulse :=
  ⟨.nmi, start, duration⟩

/-- Assert INT until the chip acknowledges it. -/
def intUntilAcknowledged (start : Nat) : Pulse :=
  ⟨.int, start, maxCount⟩

/-- The period lies in the pulse.  A pulse lasts no longer than there are counts. -/
def covers (p : Pulse) (period : Nat) : Bool :=
  p.start ≤ period && period < min (p.start + p.duration) maxCount

end Pulse

/-- A pulse of the script, and whether an acknowledge has ended it. -/
structure ScriptedPulse where
  pulse : Pulse
  acknowledged : Bool := false
deriving DecidableEq, Repr

/-- A device that follows a script. -/
structure InterruptSource where
  pulses : List ScriptedPulse := []
  /-- The answer to an acknowledge; by itself it is a restart at 38h in mode 0. -/
  firstByte : Byte := 0xFF
  /-- The bytes after the first one. -/
  moreBytes : List Byte := []
  risingEdges : Nat := 0
  /-- An acknowledge is going on. -/
  acknowledging : Bool := false
  /-- Position of the byte to supply next; zero when there is none. -/
  cursor : Nat := 0
  /-- The device drives the data bus. -/
  driving : Bool := false
  /-- Acknowledges seen so far. -/
  acknowledges : Nat := 0
  int : Level := .released
  nmi : Level := .released
  wait : Level := .released
deriving DecidableEq, Repr

namespace InterruptSource

/-- Add a pulse to the script.  RESET and BUSREQ belong to the host and have no effect here. -/
def withPulse (s : InterruptSource) (pulse : Pulse) : InterruptSource :=
  { s with pulses := s.pulses ++ [⟨pulse, false⟩] }

/-- Answer acknowledges with these bytes.  Without any, the answer stays as it was. -/
def withAcknowledgeBytes (s : InterruptSource) : List Byte → InterruptSource
  | [] => s
  | first :: more => { s with firstByte := first, moreBytes := more }

/-- All bytes of the answer. -/
def acknowledgeBytes (s : InterruptSource) : List Byte :=
  s.firstByte :: s.moreBytes

/-- The period the device is in. -/
def period (s : InterruptSource) : Nat :=
  s.risingEdges - 1

/-- Level of a pin in the current period. -/
def levelOf (s : InterruptSource) (pin : InputPin) : Level :=
  .activeLow (s.pulses.any fun scripted =>
    scripted.pulse.pin == pin && !scripted.acknowledged && scripted.pulse.covers s.period)

/-- An acknowledge begins: it is counted, and it ends every pulse of INT. -/
def beginAcknowledge (s : InterruptSource) : InterruptSource :=
  { s with
    acknowledges := s.acknowledges + 1
    pulses := s.pulses.map fun scripted =>
      if scripted.pulse.pin = .int then { scripted with acknowledged := true } else scripted }

/-- Put a byte on the data bus. -/
def drive (s : InterruptSource) (byte : Byte) (data : Bus Byte) : InterruptSource × Bus Byte :=
  ({ s with driving := true }, data.drive byte)

/-- Let the data bus go, if the device drives it. -/
def stopDriving (s : InterruptSource) (data : Bus Byte) : InterruptSource × Bus Byte :=
  if s.driving then ({ s with driving := false }, data.release) else (s, data)

/-- A read that no memory and no port answers. -/
def deviceRead (pins : Pins) : Bool :=
  pins.rd.isAsserted && !pins.mreq.isAsserted && !pins.iorq.isAsserted

/-- Answer an acknowledge and the reads after it.  A fetch from memory ends the answer. -/
def answer (s : InterruptSource) (pins : Pins) (data : Bus Byte) : InterruptSource × Bus Byte :=
  if pins.interruptAcknowledge then
    let s := if s.acknowledging then s else s.beginAcknowledge
    { s with acknowledging := true }.drive s.firstByte data
  else if s.acknowledging then
    { s with acknowledging := false, cursor := 1 }.stopDriving data
  else if s.cursor > 0 && deviceRead pins then
    match s.acknowledgeBytes[s.cursor]? with
    | some byte => s.drive byte data
    | none => ({ s with cursor := 0 }, data)
  else if s.driving then
    let next := s.cursor + 1
    { s with cursor := if next ≥ s.acknowledgeBytes.length then 0 else next }.stopDriving data
  else if pins.m1.isAsserted && pins.mreq.isAsserted then ({ s with cursor := 0 }, data)
  else (s, data)

/-- Set the levels of the current period. -/
def setLevels (s : InterruptSource) : InterruptSource :=
  { s with int := s.levelOf .int, nmi := s.levelOf .nmi, wait := s.levelOf .wait }

/-- One clock edge, after memory's. -/
def edge (s : InterruptSource) (level : Level) (pins : Pins) (data : Bus Byte) :
    InterruptSource × Bus Byte :=
  let s := if level.isHigh then { s with risingEdges := s.risingEdges + 1 } else s
  let (s, data) := s.answer pins data
  (s.setLevels, data)

end InterruptSource

end Z80Board
