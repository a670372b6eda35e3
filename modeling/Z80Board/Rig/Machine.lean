import Z80Board.Rig.Board

/-! # The whole machine

    A board on its clock, driven by the host.  Nothing moves until the host ticks the clock, and
    stepping stops at the first exit condition that is met; a breakpoint is an exit condition too.
    A run that need not end takes the number of ticks it may use. -/

namespace Z80Board

/-- A board on its clock, with what was loaded into it. -/
structure Machine where
  clock : Clock Board
  /-- The loaded images that map lines, oldest first. -/
  images : List ProgramImage := []

namespace Machine

/-! ## Construction -/

/-- Number of the address bus among the buses of the board. -/
def addressBus : Nat := 0

/-- Build a machine from a configuration, with a device on its buses.  All bus lines float high. -/
def build (config : BoardConfig) (device : Device) : Except ConfigError Machine :=
  match config.validate with
  | .error e => .error e
  | .ok () =>
    let memory : Memory :=
      { Memory.ofSize (.truncated addressBus config.addressLines) config.memorySize with
        rom := config.rom
        waitStates := config.waitStates }
    let board : Board :=
      { processor := .powerOn (.released 0xFFFF) (.released 0xFF)
        memory
        device }
    .ok { clock := .atRest board config.frequencyHz }

/-! ## Parts -/

/-- The board. -/
def board (m : Machine) : Board :=
  m.clock.wiring

/-- The chip. -/
def core (m : Machine) : Core :=
  m.board.processor.core

/-- Those who follow the chip. -/
def hooks (m : Machine) : Hooks :=
  m.board.processor.hooks

/-- The memory. -/
def memory (m : Machine) : Memory :=
  m.board.memory

/-- What is attached. -/
def device (m : Machine) : Device :=
  m.board.device

/-- The progress of the chip. -/
def snapshot (m : Machine) : Snapshot :=
  m.core.snapshot

/-- Change the board between edges. -/
def modifyBoard (m : Machine) (f : Board → Board) : Machine :=
  { m with clock := m.clock.modifyWiring f }

/-- Change those who follow the chip. -/
def modifyHooks (m : Machine) (f : Hooks → Hooks) : Machine :=
  m.modifyBoard fun b => { b with processor.hooks := f b.processor.hooks }

/-- Change the registers. -/
def modifyRegs (m : Machine) (f : Registers → Registers) : Machine :=
  m.modifyBoard fun b => { b with processor := b.processor.modifyRegs f }

/-- Change the memory. -/
def modifyMemory (m : Machine) (f : Memory → Memory) : Machine :=
  m.modifyBoard fun b => { b with memory := f b.memory }

/-- Change what is attached. -/
def modifyDevice (m : Machine) (f : Device → Device) : Machine :=
  m.modifyBoard fun b => { b with device := f b.device }

/-- Drive an input pin from the host; the chip sees it from the next edge on. -/
def setInput (m : Machine) (pin : InputPin) (level : Level) : Machine :=
  m.modifyBoard fun b => { b with host := b.host.set level pin }

/-- The level that the host drives onto a pin. -/
def input (m : Machine) (pin : InputPin) : Level :=
  m.board.host.get pin

/-! ## Observers and conditions -/

/-- Register an observer. -/
def observe (m : Machine) (events : EventSet) : Machine × ObserverId :=
  let (hooks, id) := m.hooks.observe events
  (m.modifyHooks fun _ => hooks, id)

/-- Remove an observer; tells whether it was registered. -/
def removeObserver (m : Machine) (id : ObserverId) : Machine × Bool :=
  let (hooks, removed) := m.hooks.removeObserver id
  (m.modifyHooks fun _ => hooks, removed)

/-- Register an exit condition. -/
def addExitCondition (m : Machine) (condition : ExitCondition) : Machine × ConditionId :=
  let (hooks, id) := m.hooks.addExitCondition condition
  (m.modifyHooks fun _ => hooks, id)

/-- Remove an exit condition; tells whether it was registered. -/
def removeExitCondition (m : Machine) (id : ConditionId) : Machine × Bool :=
  let (hooks, removed) := m.hooks.removeExitCondition id
  (m.modifyHooks fun _ => hooks, removed)

/-- Take the notices that have piled up. -/
def drainNotices (m : Machine) : Machine × Array Notice :=
  let (hooks, notices) := m.hooks.drainNotices
  (m.modifyHooks fun _ => hooks, notices)

/-! ## Programs and breakpoints -/

/-- Copy a program into memory.  An image that maps lines is remembered. -/
def load (m : Machine) (image : ProgramImage) : Except LoadError Machine :=
  match m.memory.load image with
  | .error e => .error e
  | .ok memory =>
    let m := m.modifyMemory fun _ => memory
    .ok (if image.lines.isEmpty then m else { m with images := m.images ++ [image] })

/-- Stop when an instruction fetched from an address is about to start. -/
def addBreakpoint (m : Machine) (address : Word) : Machine × ConditionId :=
  m.addExitCondition (.addressReached address)

/-- The address of a source line, by the latest image that maps it. -/
def addressOfLine (m : Machine) (line : Nat) : Except LoadError Word :=
  match m.images.reverse.findSome? fun image => image.lines.lookup line with
  | some address => .ok address
  | none => .error (.unknownLine line)

/-- Stop at the first instruction of a source line. -/
def addLineBreakpoint (m : Machine) (line : Nat) : Except LoadError (Machine × ConditionId) :=
  match m.addressOfLine line with
  | .error e => .error e
  | .ok address => .ok (m.addBreakpoint address)

/-! ## Stepping -/

/-- One clock edge. -/
def halfTick (m : Machine) : Machine × Option StopReason :=
  let (clock, stop) := m.clock.halfTick
  ({ m with clock }, stop)

/-- One period, or the rest of one. -/
def tick (m : Machine) : Machine × Option StopReason :=
  let (clock, stop) := m.clock.tick
  ({ m with clock }, stop)

/-- Tick until an exit condition is met, for at most the given number of ticks. -/
def run (m : Machine) (limit : Nat) : Machine × Option StopReason :=
  let (clock, stop) := m.clock.run limit
  ({ m with clock }, stop)

/-- Run with one more condition, which is gone afterwards. -/
def runWith (m : Machine) (condition : ExitCondition) (limit : Nat) : Machine × Option StopReason :=
  let (m, id) := m.addExitCondition condition
  let (m, stop) := m.run limit
  ((m.removeExitCondition id).1, stop)

/-- Run in some way, with a stop after some more periods at the latest; tells whether it was that
    stop.  The periods also bound the ticks: two more leave room for the one that is under way. -/
def runGuarded (m : Machine) (periods : Nat) (go : Machine → Nat → Machine × Option StopReason) :
    Machine × Option StopReason × Bool :=
  let (m, guard) := m.addExitCondition (.tStatesElapsed (m.core.halfTStates / 2 + periods))
  let (m, stop) := go m (periods + 2)
  ((m.removeExitCondition guard).1, stop, stop.any fun stop => stop.condition = guard)

/-- A count that lies ahead by at least one, as a 64-bit count. -/
def target (current count : Nat) : Nat :=
  (current + max count 1) % countModulus

/-- Run until some more instructions have completed, or an earlier condition is met.  At least one
    instruction runs. -/
def stepInstructions (m : Machine) (count limit : Nat) : Machine × Option StopReason :=
  m.runWith (.instructionCountReached (target m.core.instructionCounter count)) limit

/-- Run some more periods, or until an earlier condition is met.  At least one period runs.  The
    ticks it takes are known beforehand: each delivers an edge, and the periods take two edges
    each. -/
def stepTStates (m : Machine) (count : Nat) : Machine × Option StopReason :=
  m.runWith (.tStatesElapsed (target (m.core.halfTStates / 2) count)) (2 * max count 1)

/-! ## Text -/

/-- The clock level and half-period, the cycle, the asserted pins and both buses on one line. -/
def renderEdge (m : Machine) : String :=
  let snapshot := m.snapshot
  " ".intercalate
    [m.clock.level.letter ++ toString snapshot.halfTState, snapshot.cycleText, m.core.pins.render,
      m.core.address.value.hex, m.core.data.value.hex]

end Machine

end Z80Board
