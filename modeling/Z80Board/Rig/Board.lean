import Z80Board.Rig.Device
import Z80Board.Rig.Memory
import Z80Board.Time.Clock
import Z80Board.Watch.Processor

/-! # The board

    A chip, its memory and its devices on one clock.  On every edge the chip comes first, then
    memory, then the devices.  The input pins are put together beforehand, from the host's levels
    and from what the components left on the edge before, so a component that pulls a pin is seen
    one edge later. -/

namespace Z80Board

/-- Everything that the clock drives. -/
structure Board where
  processor : Processor
  memory : Memory
  device : Device
  /-- The levels that the host drives. -/
  host : InputLevels := {}

namespace Board

/-- The levels of the input pins. -/
def inputs (b : Board) : InputLevels :=
  { wait := (b.host.wait.wiredAnd b.memory.wait).wiredAnd b.device.wait
    int := b.host.int.wiredAnd b.device.int
    nmi := b.host.nmi.wiredAnd b.device.nmi
    reset := b.host.reset
    busreq := b.host.busreq }

/-- Let the other components act on what the chip has put on its pins and buses. -/
def answer (b : Board) (level : Level) : Board :=
  let core := b.processor.core
  let (memory, data) := b.memory.edge level core.pins core.address core.data
  let (device, data) := b.device.edge level core.pins core.address data
  { b with processor.core.data := data, memory, device }

/-- One clock edge, with the stop that it has brought about. -/
def edge (b : Board) (level : Level) : Board × Option StopReason :=
  let b := { b with processor := b.processor.step level b.inputs }.answer level
  let (hooks, stop) := b.processor.hooks.takeStop
  ({ b with processor.hooks := hooks }, stop)

end Board

instance : Wiring Board StopReason := ⟨Board.edge⟩

end Z80Board
