import Z80Board.Word

/-! # Buses and connectors

    A bus carries one value.  The last component to drive it decides the value, and when a driver
    lets go the lines float back to the level the board pulls them to.  A connector is one
    component's attachment: it may be soldered to fewer lines than the bus has, and then reads only
    those. -/

namespace Z80Board

/-- Numbers that travel on a bus: how many lines a full bus has, and the mask of its low lines. -/
class BusWord (α : Type) extends AndOp α where
  /-- Lines of a full bus. -/
  width : Nat
  /-- Ones on the given number of low lines, or on all of them when there are not that many. -/
  lowLines : Nat → α

instance : BusWord Byte where
  width := 8
  lowLines n := if n ≥ 8 then 0xFF else (1 <<< n.toUInt8) - 1

instance : BusWord Word where
  width := 16
  lowLines n := if n ≥ 16 then 0xFFFF else (1 <<< n.toUInt16) - 1

/-- The value on a bundle of lines, and the value it floats to with no driver. -/
structure Bus (α : Type) where
  value : α
  floating : α
deriving DecidableEq, Repr

namespace Bus

variable {α : Type}

/-- A bus nobody drives yet. -/
def released (floating : α) : Bus α :=
  ⟨floating, floating⟩

/-- Put a value on the lines. -/
def drive (b : Bus α) (v : α) : Bus α :=
  { b with value := v }

/-- Let the lines float. -/
def release (b : Bus α) : Bus α :=
  { b with value := b.floating }

/-- The lines carry what was driven last. -/
@[simp] theorem value_drive (b : Bus α) (v : α) : (b.drive v).value = v := rfl

/-- Lines that nobody drives float. -/
@[simp] theorem value_release (b : Bus α) : b.release.value = b.floating := rfl

/-- Driving a bus leaves the value it floats to. -/
@[simp] theorem floating_drive (b : Bus α) (v : α) : (b.drive v).floating = b.floating := rfl

/-- Letting a bus go leaves the value it floats to. -/
@[simp] theorem floating_release (b : Bus α) : b.release.floating = b.floating := rfl

end Bus

/-- One component's attachment to a bus, which the board knows by number. -/
structure Connector (α : Type) where
  bus : Nat
  mask : α
deriving DecidableEq, Repr

namespace Connector

variable {α : Type} [BusWord α]

/-- Attach to the low lines of a bus only. -/
def truncated (bus lines : Nat) : Connector α :=
  ⟨bus, BusWord.lowLines lines⟩

/-- Attach to every line of a bus. -/
def full (bus : Nat) : Connector α :=
  truncated bus (BusWord.width α)

/-- What this connector sees of the bus it is attached to. -/
def read (c : Connector α) (b : Bus α) : α :=
  b.value &&& c.mask

/-- Both connectors are attached to one bus. -/
def sharesBus (c d : Connector α) : Bool :=
  c.bus == d.bus

end Connector

end Z80Board
