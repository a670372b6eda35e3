import Z80Board.Wire.Level

/-! # Control pins

    The control pins of the package.  The chip drives the first eight; the board drives the last
    five and the chip sees them on the next edge.  Three combinations have a meaning of their own:
    a memory access, a port access and an interrupt acknowledge. -/

namespace Z80Board

/-- Level of every control pin after the chip's last step. -/
structure Pins where
  /-- Opcode fetch or interrupt acknowledge. -/
  m1 : Level := .released
  /-- Memory request. -/
  mreq : Level := .released
  /-- Port request. -/
  iorq : Level := .released
  /-- Read strobe. -/
  rd : Level := .released
  /-- Write strobe. -/
  wr : Level := .released
  /-- The address lines carry a refresh address. -/
  rfsh : Level := .released
  /-- The chip has halted. -/
  halt : Level := .released
  /-- The buses are granted to another master. -/
  busack : Level := .released
  wait : Level := .released
  int : Level := .released
  nmi : Level := .released
  reset : Level := .released
  busreq : Level := .released
deriving DecidableEq, Repr

/-- The pins that the board drives. -/
inductive InputPin where
  | wait
  | int
  | nmi
  | reset
  | busreq
deriving DecidableEq, Repr

/-- Every input pin. -/
def InputPin.all : List InputPin :=
  [.wait, .int, .nmi, .reset, .busreq]

/-- The name of an input pin. -/
def InputPin.name : InputPin → String
  | .wait => "wait"
  | .int => "int"
  | .nmi => "nmi"
  | .reset => "reset"
  | .busreq => "busreq"

/-- One level for each input pin. -/
structure InputLevels where
  wait : Level := .released
  int : Level := .released
  nmi : Level := .released
  reset : Level := .released
  busreq : Level := .released
deriving DecidableEq, Repr

namespace InputLevels

/-- Change the level of one pin. -/
def set (inputs : InputLevels) (l : Level) : InputPin → InputLevels
  | .wait => { inputs with wait := l }
  | .int => { inputs with int := l }
  | .nmi => { inputs with nmi := l }
  | .reset => { inputs with reset := l }
  | .busreq => { inputs with busreq := l }

/-- Level of one pin. -/
def get (inputs : InputLevels) : InputPin → Level
  | .wait => inputs.wait
  | .int => inputs.int
  | .nmi => inputs.nmi
  | .reset => inputs.reset
  | .busreq => inputs.busreq

/-- A pin reads back as it was set. -/
@[simp] theorem get_set (inputs : InputLevels) (l : Level) (p : InputPin) :
    (inputs.set l p).get p = l := by
  cases p <;> rfl

/-- Setting one pin leaves the others alone. -/
theorem get_set_of_ne (inputs : InputLevels) (l : Level) {p q : InputPin} (h : p ≠ q) :
    (inputs.set l p).get q = inputs.get q := by
  cases p <;> cases q <;> first | rfl | exact absurd rfl h

/-- Assert some pins and release the others. -/
def ofAsserted (pins : List InputPin) : InputLevels :=
  pins.foldl (fun inputs p => inputs.set .asserted p) {}

end InputLevels

namespace Pins

/-- Assert the pin of a name; a name that no pin has changes nothing. -/
def assert (pins : Pins) : String → Pins
  | "m1" => { pins with m1 := .asserted }
  | "mreq" => { pins with mreq := .asserted }
  | "iorq" => { pins with iorq := .asserted }
  | "rd" => { pins with rd := .asserted }
  | "wr" => { pins with wr := .asserted }
  | "rfsh" => { pins with rfsh := .asserted }
  | "halt" => { pins with halt := .asserted }
  | "busack" => { pins with busack := .asserted }
  | "wait" => { pins with wait := .asserted }
  | "int" => { pins with int := .asserted }
  | "nmi" => { pins with nmi := .asserted }
  | "reset" => { pins with reset := .asserted }
  | "busreq" => { pins with busreq := .asserted }
  | _ => pins

/-- Assert the pins of some names and release the others. -/
def ofAsserted (names : List String) : Pins :=
  names.foldl assert {}

/-- Take over new input levels; the outputs stay as they are. -/
def applyInputs (pins : Pins) (inputs : InputLevels) : Pins :=
  { pins with
    wait := inputs.wait
    int := inputs.int
    nmi := inputs.nmi
    reset := inputs.reset
    busreq := inputs.busreq }

/-- Release every output that controls the buses.  HALT and BUSACK stay as they are. -/
def releaseBusControls (pins : Pins) : Pins :=
  { pins with
    m1 := .released
    mreq := .released
    iorq := .released
    rd := .released
    wr := .released
    rfsh := .released }

/-- An ordinary access to memory, not a refresh. -/
def memoryRequest (pins : Pins) : Bool :=
  pins.mreq.isAsserted && !pins.rfsh.isAsserted

/-- An access to a port, not an interrupt acknowledge. -/
def portRequest (pins : Pins) : Bool :=
  pins.iorq.isAsserted && !pins.m1.isAsserted

/-- An interrupt acknowledge: the port request together with M1. -/
def interruptAcknowledge (pins : Pins) : Bool :=
  pins.iorq.isAsserted && pins.m1.isAsserted

/-- Every pin with its name, outputs first. -/
def named (pins : Pins) : List (String × Level) :=
  [("m1", pins.m1), ("mreq", pins.mreq), ("iorq", pins.iorq), ("rd", pins.rd), ("wr", pins.wr),
    ("rfsh", pins.rfsh), ("halt", pins.halt), ("busack", pins.busack), ("wait", pins.wait),
    ("int", pins.int), ("nmi", pins.nmi), ("reset", pins.reset), ("busreq", pins.busreq)]

/-- The asserted pins by name, joined by commas; a dash when there is none. -/
def render (pins : Pins) : String :=
  match pins.named.filter (fun p => p.2.isAsserted) with
  | [] => "-"
  | asserted => ",".intercalate (asserted.map Prod.fst)

end Pins

end Z80Board
