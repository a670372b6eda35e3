import Z80Board.Arith.Byte

/-! # Decimal adjustment

    After a sum or difference of two packed decimal numbers the accumulator holds a binary result.
    The adjustment adds or subtracts six in each digit that has run over ten, which it knows from
    the digit itself and from the half carry and carry the operation left. -/

namespace Z80Board

/-- Adjust a byte to two decimal digits, by the flags of the operation that made it. -/
def daa (a f : Byte) : Flagged Byte :=
  let subtract := Flag.test f Flag.subtract
  let digit : Byte := a &&& 0x0F
  let lower : Bool := Flag.test f Flag.half || digit > 9
  let upper : Bool := Flag.test f Flag.carry || a > 0x99
  let correction := Flag.when lower 0x06 ||| Flag.when upper 0x60
  let value := if subtract then a - correction else a + correction
  let half : Bool := if subtract then Flag.test f Flag.half && digit < 6 else digit > 9
  { value
    flags := sz53p value ||| (f &&& Flag.subtract)
      ||| Flag.when half Flag.half
      ||| Flag.when upper Flag.carry }

/-- Exchange digits between the accumulator and a byte, to the right: the byte's low digit goes to
    the accumulator, whose own goes to the top of the byte.  Gives the new accumulator and byte. -/
def rotateDigitRight (a m : Byte) : Byte × Byte :=
  let top : Byte := m >>> 4
  ((a &&& 0xF0) ||| (m &&& 0x0F), (a <<< 4) ||| top)

/-- Exchange digits between the accumulator and a byte, to the left: the byte's high digit goes to
    the accumulator, whose own goes to the bottom of the byte.  Gives the new accumulator and
    byte. -/
def rotateDigitLeft (a m : Byte) : Byte × Byte :=
  let top : Byte := m >>> 4
  ((a &&& 0xF0) ||| top, (m <<< 4) ||| (a &&& 0x0F))

end Z80Board
