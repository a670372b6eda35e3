import Z80Board.Chip.Edge
import Z80Board.Watch.Hooks

/-! # The watched chip

    A chip together with those who follow it.  Each edge runs the chip and tells what it emits.  The
    only way back is the question at the end of an instruction whether somebody asks to stop. -/

namespace Z80Board

/-- A chip and those who follow it. -/
structure Processor where
  core : Core
  hooks : Hooks := {}

namespace Processor

/-- A chip at power-on that nobody follows. -/
def powerOn (address : Bus Word) (data : Bus Byte) : Processor :=
  { core := .powerOn address data }

/-- Tell one emission, if somebody wants it. -/
def deliver (hooks : Hooks) (e : Emission) : Hooks :=
  if hooks.wants e.event then hooks.dispatch e.core.snapshot e.event else hooks

/-- Tell some emissions in order. -/
def deliverAll (hooks : Hooks) (emitted : List Emission) : Hooks :=
  emitted.foldl deliver hooks

/-- One clock edge. -/
def step (p : Processor) (level : Level) (inputs : InputLevels) : Processor :=
  let e := p.core.edge level inputs
  let hooks := deliverAll p.hooks e.emitted
  let (core, emitted) := e.finish hooks.isStopping
  ⟨core, deliverAll hooks emitted⟩

/-- Change the registers from outside, between edges. -/
def modifyRegs (p : Processor) (f : Registers → Registers) : Processor :=
  { p with core := p.core.modifyRegs f }

end Processor

end Z80Board
