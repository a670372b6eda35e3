import Z80Board.Rig.Config
import Z80Board.Rig.Image
import Z80Board.Wire.Bus
import Z80Board.Wire.Pins

/-! # Memory

    Bytes behind the address bus.  A memory request selects them, the strobes choose the direction,
    and addresses beyond the size repeat.  The processor cannot write the read-only window; the host
    can.  A slow memory holds WAIT from the edge that selects it until it has seen its number of
    rising edges and one more. -/

namespace Z80Board

/-- Memory with a read-only window and a number of waits for each access. -/
structure Memory where
  bytes : Array Byte
  /-- The address lines the memory sees. -/
  address : Connector Word
  rom : Option RomRange := none
  waitStates : Nat := 0
  /-- An access is going on. -/
  selected : Bool := false
  /-- Memory drives the data bus. -/
  driving : Bool := false
  /-- Rising edges of the access so far; the count stops at 255. -/
  risingEdges : Nat := 0
  /-- Level that memory drives onto WAIT. -/
  wait : Level := .released
deriving DecidableEq, Repr

namespace Memory

/-- A memory of zeros. -/
def ofSize (address : Connector Word) (size : Nat) : Memory :=
  { bytes := Array.replicate size 0, address }

/-- How many bytes there are. -/
def size (m : Memory) : Nat :=
  m.bytes.size

/-- Where an address leads: its low bits, as many as the size has. -/
def index (m : Memory) (address : Word) : Nat :=
  address.toNat &&& (m.size - 1)

/-- The index lies in the read-only window. -/
def isRom (m : Memory) (index : Nat) : Bool :=
  match m.rom with
  | some rom => rom.contains index
  | none => false

/-! ## Access by the host -/

/-- The byte at an address. -/
def peek (m : Memory) (address : Word) : Byte :=
  m.bytes.getD (m.index address) 0

/-- Set the byte at an address, read-only or not. -/
def poke (m : Memory) (address : Word) (v : Byte) : Memory :=
  { m with bytes := m.bytes.setIfInBounds (m.index address) v }

/-- Set the bytes from an address on; the address wraps. -/
def pokeAll (m : Memory) (start : Word) : List Byte → Memory
  | [] => m
  | v :: rest => (m.poke start v).pokeAll (start + 1) rest

/-- The indices whose bytes differ from those of an earlier time, with the byte then and now. -/
def changesSince (m : Memory) (before : Array Byte) : List (Nat × Byte × Byte) :=
  (m.bytes.zip before).toList.zipIdx.filterMap fun ((now, earlier), i) =>
    if now = earlier then none else some (i, earlier, now)

/-- The bytes from an address on, as many as asked for or as there are. -/
def slice (m : Memory) (start : Word) (length : Nat) : List Byte :=
  let first := m.index start
  (m.bytes.extract first (first + length)).toList

/-- Write bytes one after the other from an index on. -/
def store (bytes : Array Byte) (start : Nat) (image : List Byte) : Array Byte :=
  (image.foldl (fun (bytes, i) v => (bytes.setIfInBounds i v, i + 1)) (bytes, start)).1

/-- Copy an image in, also into the read-only window.  An image that fails the check changes
    nothing. -/
def load (m : Memory) (image : ProgramImage) : Except LoadError Memory :=
  match image.check m.size with
  | .error e => .error e
  | .ok () =>
    .ok { m with bytes := store m.bytes image.loadAddress.toNat image.bytes.toList }

/-! ## Access on the buses -/

/-- Follow the pins: whether the access goes on, how long it has lasted, and whether WAIT is to be
    held. -/
def track (m : Memory) (level : Level) (pins : Pins) : Memory :=
  let selected := pins.memoryRequest
  let before := if selected && !m.selected then 0 else m.risingEdges
  let risingEdges := if selected && level.isHigh then min 255 (before + 1) else before
  { m with
    selected
    risingEdges
    wait := .activeLow (selected && m.waitStates > 0 && risingEdges ≤ m.waitStates) }

/-- Drive the data bus for a read, or let it go after one. -/
def drive (m : Memory) (pins : Pins) (index : Nat) (data : Bus Byte) : Memory × Bus Byte :=
  if m.selected && pins.rd.isAsserted then
    ({ m with driving := true }, data.drive (m.bytes.getD index 0))
  else if m.driving then ({ m with driving := false }, data.release)
  else (m, data)

/-- Store what is on the data bus for a write outside the read-only window. -/
def capture (m : Memory) (pins : Pins) (index : Nat) (data : Bus Byte) : Memory :=
  if m.selected && pins.wr.isAsserted && !m.isRom index then
    { m with bytes := m.bytes.setIfInBounds index data.value }
  else m

/-- One clock edge, after the chip's. -/
def edge (m : Memory) (level : Level) (pins : Pins) (address : Bus Word) (data : Bus Byte) :
    Memory × Bus Byte :=
  let m := m.track level pins
  let index := m.index (m.address.read address)
  let (m, data) := m.drive pins index data
  (m.capture pins index data, data)

end Memory

end Z80Board
