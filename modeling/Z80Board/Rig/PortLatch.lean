import Z80Board.Text.Hex
import Z80Board.Wire.Bus
import Z80Board.Wire.Pins

/-! # Port latch

    A bank of 256 byte registers behind a range of ports.  The low byte of the address names the
    port; the log of writes keeps the whole address.  A write counts once, on the edge that its
    strobe comes up, however long it lasts. -/

namespace Z80Board

/-- One write to a port, as the latch saw it. -/
structure PortWrite where
  address : Word
  value : Byte
deriving DecidableEq, Repr

/-- The address and the value in hexadecimal, with an equals sign between. -/
def PortWrite.render (w : PortWrite) : String :=
  w.address.hex ++ "=" ++ w.value.hex

/-- A bank of registers behind a range of ports. -/
structure PortLatch where
  /-- The first port that is answered. -/
  first : Byte := 0
  /-- The last port that is answered; before the first one, none is. -/
  last : Byte := 0xFF
  registers : Vector Byte 256 := Vector.replicate 256 0
  /-- The writes since the log was last drained. -/
  writes : List PortWrite := []
  /-- The latch drives the data bus. -/
  driving : Bool := false
  /-- A write strobe is up. -/
  writing : Bool := false
deriving DecidableEq, Repr

namespace PortLatch

/-- Answer only the ports of a range. -/
def withPorts (latch : PortLatch) (first last : Byte) : PortLatch :=
  { latch with first, last }

/-- The register of a port. -/
def get (latch : PortLatch) (port : Byte) : Byte :=
  latch.registers.get ⟨port.toNat, port.toNat_lt⟩

/-- Set the register of a port. -/
def set (latch : PortLatch) (port v : Byte) : PortLatch :=
  { latch with registers := latch.registers.set port.toNat v (port.toNat_lt) }

/-- Drain the log of writes. -/
def takeWrites (latch : PortLatch) : PortLatch × List PortWrite :=
  ({ latch with writes := [] }, latch.writes)

/-- The port is in the range. -/
def answers (latch : PortLatch) (port : Byte) : Bool :=
  latch.first ≤ port && port ≤ latch.last

/-- The pins and the address select a port of the latch. -/
def selected (latch : PortLatch) (pins : Pins) (address : Word) : Bool :=
  pins.portRequest && latch.answers (Word.low address)

/-- Drive the data bus for a read, or let it go after one. -/
def drive (latch : PortLatch) (pins : Pins) (address : Word) (data : Bus Byte) :
    PortLatch × Bus Byte :=
  if latch.selected pins address && pins.rd.isAsserted then
    ({ latch with driving := true }, data.drive (latch.get (Word.low address)))
  else if latch.driving then ({ latch with driving := false }, data.release)
  else (latch, data)

/-- Store and log what is on the data bus when a write strobe comes up. -/
def capture (latch : PortLatch) (pins : Pins) (address : Word) (data : Bus Byte) : PortLatch :=
  let writing := latch.selected pins address && pins.wr.isAsserted
  let stored :=
    if writing && !latch.writing then
      { latch.set (Word.low address) data.value with
        writes := latch.writes ++ [⟨address, data.value⟩] }
    else latch
  { stored with writing }

/-- One clock edge, after memory's. -/
def edge (latch : PortLatch) (pins : Pins) (address : Bus Word) (data : Bus Byte) :
    PortLatch × Bus Byte :=
  let (latch, data) := latch.drive pins address.value data
  (latch.capture pins address.value data, data)

end PortLatch

end Z80Board
