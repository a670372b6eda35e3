import Z80Board.Arith.Flags

/-! # Arithmetic on words

    Sums and differences of words.  The flags that describe a byte come from the high byte of the
    result, the half carry from bit 11, and zero from the whole word. -/

namespace Z80Board

/-- The sum of two words.  Only H, C, X and Y are produced; the rest is for the caller. -/
def add16 (a b : Word) : Flagged Word :=
  let wide := a.toNat + b.toNat
  let value := wide.toUInt16
  { value
    flags := (Word.high value &&& Flag.xy)
      ||| Flag.when ((a &&& 0x0FFF).toNat + (b &&& 0x0FFF).toNat > 0x0FFF) Flag.half
      ||| Flag.when (wide > 0xFFFF) Flag.carry }

/-- The sum of two words and a carry, with every flag. -/
def adc16 (a b : Word) (carry : Bool) : Flagged Word :=
  let wide := a.toNat + b.toNat + carry.toNat
  let value := wide.toUInt16
  { value
    flags := (Word.high value &&& (Flag.sign ||| Flag.xy))
      ||| Flag.when (value == 0) Flag.zero
      ||| Flag.when ((a &&& 0x0FFF).toNat + (b &&& 0x0FFF).toNat + carry.toNat > 0x0FFF) Flag.half
      ||| Flag.when ((a ^^^ b) &&& 0x8000 == 0 && (a ^^^ value) &&& 0x8000 != 0) Flag.parity
      ||| Flag.when (wide > 0xFFFF) Flag.carry }

/-- The difference of two words less a borrow, with every flag. -/
def sbc16 (a b : Word) (carry : Bool) : Flagged Word :=
  let value := a - b - carry.toUInt16
  { value
    flags := (Word.high value &&& (Flag.sign ||| Flag.xy)) ||| Flag.subtract
      ||| Flag.when (value == 0) Flag.zero
      ||| Flag.when ((a &&& 0x0FFF).toNat < (b &&& 0x0FFF).toNat + carry.toNat) Flag.half
      ||| Flag.when ((a ^^^ b) &&& 0x8000 != 0 && (a ^^^ value) &&& 0x8000 != 0) Flag.parity
      ||| Flag.when (a.toNat < b.toNat + carry.toNat) Flag.carry }

end Z80Board
