import Z80Board.Word

/-! # Bits of the flag byte

    F holds eight flags.  Two of them, X and Y, copy bits of a result and have no documented
    meaning, but every operation defines them. -/

namespace Z80Board

namespace Flag

/-- Sign: the top bit of the result. -/
def sign : Byte := 0x80

/-- The result is zero. -/
def zero : Byte := 0x40

/-- Copy of bit 5 of the result. -/
def y : Byte := 0x20

/-- Carry out of bit 3, or of bit 11 of a word. -/
def half : Byte := 0x10

/-- Copy of bit 3 of the result. -/
def x : Byte := 0x08

/-- Parity or overflow, by operation. -/
def parity : Byte := 0x04

/-- The last operation was a subtraction. -/
def subtract : Byte := 0x02

/-- Carry out of the top bit. -/
def carry : Byte := 0x01

/-- Bits X and Y together. -/
def xy : Byte := y ||| x

/-- The three flags that accumulator rotates and word additions leave alone. -/
def szp : Byte := sign ||| zero ||| parity

/-- The given bits when the condition holds, and none otherwise. -/
def when (condition : Bool) (mask : Byte) : Byte :=
  if condition then mask else 0

/-- One of the bits of the mask is set. -/
def test (f mask : Byte) : Bool :=
  f &&& mask != 0

end Flag

/-- The byte has an even number of ones. -/
def evenParity (b : Byte) : Bool :=
  (List.range 8).countP b.toNat.testBit % 2 == 0

/-- Flags S, Z, Y and X of a byte result. -/
def sz53 (b : Byte) : Byte :=
  (b &&& (Flag.sign ||| Flag.xy)) ||| Flag.when (b == 0) Flag.zero

/-- Flags S, Z, Y and X of a byte result, and its parity in P. -/
def sz53p (b : Byte) : Byte :=
  sz53 b ||| Flag.when (evenParity b) Flag.parity

/-- A result with the flag byte it leaves. -/
structure Flagged (α : Type) where
  value : α
  flags : Byte
deriving DecidableEq, Repr

end Z80Board
