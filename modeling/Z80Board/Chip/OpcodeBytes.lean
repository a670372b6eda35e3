import Z80Board.Text.Hex

/-! # Opcode bytes

    A buffer of four cells that collects the opcode bytes of one instruction, prefixes included.
    Bytes beyond the fourth are dropped.  Starting over only sets the count back: the cells keep
    what they held, and the next bytes are written over them. -/

namespace Z80Board

/-- Four cells and the number of them in use. -/
structure OpcodeBytes where
  cells : Vector Byte 4 := Vector.replicate 4 0
  count : Nat := 0
  count_le : count ≤ 4 := by omega
deriving DecidableEq, Repr

namespace OpcodeBytes

/-- The buffer before any instruction. -/
def empty : OpcodeBytes := {}

/-- Add a byte, if there is a free cell. -/
def push (opcode : OpcodeBytes) (byte : Byte) : OpcodeBytes :=
  if h : opcode.count < 4 then
    ⟨opcode.cells.set opcode.count byte h, opcode.count + 1, h⟩
  else opcode

/-- Start over. -/
def clear (opcode : OpcodeBytes) : OpcodeBytes :=
  ⟨opcode.cells, 0, Nat.zero_le 4⟩

/-- The bytes in use, in order. -/
def toList (opcode : OpcodeBytes) : List Byte :=
  opcode.cells.toList.take opcode.count

/-- Starting over leaves no byte in use. -/
@[simp] theorem toList_clear (opcode : OpcodeBytes) : opcode.clear.toList = [] := rfl

end OpcodeBytes

end Z80Board
