/-! # Bytes, words and counts

    The machine moves two sizes of number: bytes on the data lines and words on the address lines.
    A word is a pair of bytes, high byte first when it is written down.  Arithmetic on both wraps.
    What is counted over a whole run is a natural number; where a count is limited, the limit is
    that of 64 bits. -/

namespace Z80Board

/-- What eight data lines carry. -/
abbrev Byte := UInt8

/-- What sixteen address lines carry. -/
abbrev Word := UInt16

/-- How many counts of 64 bits there are. -/
def countModulus : Nat := 0x10000000000000000

/-- The largest count of 64 bits. -/
def maxCount : Nat := 0xFFFFFFFFFFFFFFFF

namespace Word

/-- The word with the given halves. -/
def ofBytes (high low : Byte) : Word :=
  (high.toUInt16 <<< 8) ||| low.toUInt16

/-- The byte on the upper eight lines. -/
def high (w : Word) : Byte :=
  (w >>> 8).toUInt8

/-- The byte on the lower eight lines. -/
def low (w : Word) : Byte :=
  w.toUInt8

/-- The word with its upper byte exchanged. -/
def withHigh (w : Word) (b : Byte) : Word :=
  ofBytes b (low w)

/-- The word with its lower byte exchanged. -/
def withLow (w : Word) (b : Byte) : Word :=
  ofBytes (high w) b

/-- A displacement byte read as a two's complement number, as wide as an address. -/
def ofDisplacement (d : Byte) : Word :=
  if d < 0x80 then ofBytes 0 d else ofBytes 0xFF d

end Word

end Z80Board
