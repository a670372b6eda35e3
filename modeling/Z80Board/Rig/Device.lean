import Z80Board.Rig.InterruptSource
import Z80Board.Rig.PortLatch

/-! # Devices

    What can stand on the buses besides memory: nothing, a port latch, an interrupt source, or two
    devices, whose outputs are wired together. -/

namespace Z80Board

/-- What is attached to the board. -/
inductive Device where
  | unattached
  | latch (latch : PortLatch)
  | source (source : InterruptSource)
  | pair (first second : Device)
deriving DecidableEq, Repr

namespace Device

/-- One clock edge, after memory's.  The first of two devices comes first. -/
def edge (level : Level) (pins : Pins) (address : Bus Word) :
    Device → Bus Byte → Device × Bus Byte
  | .unattached, data => (.unattached, data)
  | .latch l, data =>
    let (l, data) := l.edge pins address data
    (.latch l, data)
  | .source s, data =>
    let (s, data) := s.edge level pins data
    (.source s, data)
  | .pair first second, data =>
    let (first, data) := edge level pins address first data
    let (second, data) := edge level pins address second data
    (.pair first second, data)

/-- Level driven onto INT. -/
def int : Device → Level
  | .unattached | .latch _ => .released
  | .source s => s.int
  | .pair first second => first.int.wiredAnd second.int

/-- Level driven onto NMI. -/
def nmi : Device → Level
  | .unattached | .latch _ => .released
  | .source s => s.nmi
  | .pair first second => first.nmi.wiredAnd second.nmi

/-- Level driven onto WAIT. -/
def wait : Device → Level
  | .unattached | .latch _ => .released
  | .source s => s.wait
  | .pair first second => first.wait.wiredAnd second.wait

/-- The first port latch among the devices. -/
def latch? : Device → Option PortLatch
  | .latch l => some l
  | .pair first second => first.latch? <|> second.latch?
  | _ => none

/-- Change every port latch among the devices. -/
def modifyLatch (f : PortLatch → PortLatch) : Device → Device
  | .latch l => .latch (f l)
  | .pair first second => .pair (first.modifyLatch f) (second.modifyLatch f)
  | device => device

/-- The first interrupt source among the devices. -/
def source? : Device → Option InterruptSource
  | .source s => some s
  | .pair first second => first.source? <|> second.source?
  | _ => none

end Device

end Z80Board
