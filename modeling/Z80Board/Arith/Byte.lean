import Z80Board.Arith.Flags

/-! # Arithmetic and logic on bytes

    Every operation is a function of its inputs and gives the result with a complete flag byte; an
    instruction that preserves some flags puts the old ones back itself.  Carries and borrows are
    decided on the natural numbers, so each flag says what its definition says. -/

namespace Z80Board

/-- The sum of two bytes and a carry.  P is set on signed overflow: the operands agree in sign and
    the result does not. -/
def add8 (a b : Byte) (carry : Bool) : Flagged Byte :=
  let wide := a.toNat + b.toNat + carry.toNat
  let value := wide.toUInt8
  { value
    flags := sz53 value
      ||| Flag.when ((a &&& 0x0F).toNat + (b &&& 0x0F).toNat + carry.toNat > 0x0F) Flag.half
      ||| Flag.when ((a ^^^ b) &&& 0x80 == 0 && (a ^^^ value) &&& 0x80 != 0) Flag.parity
      ||| Flag.when (wide > 0xFF) Flag.carry }

/-- The difference of two bytes less a borrow.  P is set on signed overflow: the operands differ in
    sign and the result has left the sign of the first. -/
def sub8 (a b : Byte) (carry : Bool) : Flagged Byte :=
  let value := a - b - carry.toUInt8
  { value
    flags := sz53 value ||| Flag.subtract
      ||| Flag.when ((a &&& 0x0F).toNat < (b &&& 0x0F).toNat + carry.toNat) Flag.half
      ||| Flag.when ((a ^^^ b) &&& 0x80 != 0 && (a ^^^ value) &&& 0x80 != 0) Flag.parity
      ||| Flag.when (a.toNat < b.toNat + carry.toNat) Flag.carry }

/-- A subtraction that keeps only the flags; X and Y come from the second operand. -/
def cp8 (a b : Byte) : Flagged Byte :=
  ⟨a, ((sub8 a b false).flags &&& ~~~Flag.xy) ||| (b &&& Flag.xy)⟩

/-- Bitwise conjunction. -/
def and8 (a b : Byte) : Flagged Byte :=
  let value := a &&& b
  ⟨value, sz53p value ||| Flag.half⟩

/-- Bitwise disjunction. -/
def or8 (a b : Byte) : Flagged Byte :=
  let value := a ||| b
  ⟨value, sz53p value⟩

/-- Bitwise exclusive disjunction. -/
def xor8 (a b : Byte) : Flagged Byte :=
  let value := a ^^^ b
  ⟨value, sz53p value⟩

/-- One more.  The carry flag is left clear for the caller to fill in. -/
def inc8 (a : Byte) : Flagged Byte :=
  let value := a + 1
  { value
    flags := sz53 value
      ||| Flag.when (a &&& 0x0F == 0x0F) Flag.half
      ||| Flag.when (a == 0x7F) Flag.parity }

/-- One less.  The carry flag is left clear for the caller to fill in. -/
def dec8 (a : Byte) : Flagged Byte :=
  let value := a - 1
  { value
    flags := sz53 value ||| Flag.subtract
      ||| Flag.when (a &&& 0x0F == 0) Flag.half
      ||| Flag.when (a == 0x80) Flag.parity }

/-! ## Rotates and shifts -/

/-- The eight rotates and shifts, in the order of their opcodes. -/
inductive Shift where
  /-- Left, the top bit coming in at the bottom. -/
  | rlc
  /-- Right, the bottom bit coming in at the top. -/
  | rrc
  /-- Left through the carry. -/
  | rl
  /-- Right through the carry. -/
  | rr
  /-- Left, a zero coming in. -/
  | sla
  /-- Right, the sign staying. -/
  | sra
  /-- Left, a one coming in. -/
  | sll
  /-- Right, a zero coming in. -/
  | srl
deriving DecidableEq, Repr

/-- The bit a shift pushes out: the top one to the left, the bottom one to the right. -/
def Shift.out : Shift → Byte → Bool
  | .rlc, a | .rl, a | .sla, a | .sll, a => a &&& 0x80 != 0
  | .rrc, a | .rr, a | .sra, a | .srl, a => a &&& 0x01 != 0

/-- The byte after a shift, given the old carry. -/
def Shift.value (carry : Bool) : Shift → Byte → Byte
  | .rlc, a => (a <<< 1) ||| (a >>> 7)
  | .rrc, a => (a >>> 1) ||| (a <<< 7)
  | .rl, a => (a <<< 1) ||| carry.toUInt8
  | .rr, a => (a >>> 1) ||| (carry.toUInt8 <<< 7)
  | .sla, a => a <<< 1
  | .sra, a => (a >>> 1) ||| (a &&& 0x80)
  | .sll, a => (a <<< 1) ||| 0x01
  | .srl, a => a >>> 1

/-- A shift with S, Z, parity and the bit pushed out as carry. -/
def shift8 (op : Shift) (a : Byte) (carry : Bool) : Flagged Byte :=
  let value := op.value carry a
  ⟨value, sz53p value ||| Flag.when (op.out a) Flag.carry⟩

/-- A rotate of the accumulator, which keeps S, Z and P of the old flags. -/
def rotateA (op : Shift) (a f : Byte) : Flagged Byte :=
  let full := shift8 op a (Flag.test f Flag.carry)
  ⟨full.value, (f &&& Flag.szp) ||| (full.value &&& Flag.xy) ||| (full.flags &&& Flag.carry)⟩

end Z80Board
