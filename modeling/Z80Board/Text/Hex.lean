import Z80Board.Word

/-! # Hexadecimal text

    Every number the machine shows in base sixteen is written by one function: a case, a least
    number of digits, and the number.  Rows of bytes are read back from the same form. -/

namespace Z80Board

/-- Which letters stand for the digits above nine. -/
inductive DigitCase where
  | lower
  | upper
deriving DecidableEq, Repr

/-- A number in base sixteen, padded with zeros on the left to a least width. -/
def hexText (letters : DigitCase) (width n : Nat) : String :=
  let digits := Nat.toDigits 16 n
  let padded := List.replicate (width - digits.length) '0' ++ digits
  String.ofList (match letters with
    | .lower => padded
    | .upper => padded.map Char.toUpper)

/-- A byte as two upper-case digits. -/
def Byte.hex (b : Byte) : String :=
  hexText .upper 2 b.toNat

/-- A word as four upper-case digits. -/
def Word.hex (w : Word) : String :=
  hexText .upper 4 w.toNat

/-- Bytes one after the other, two digits each. -/
def hexBytes (bytes : List Byte) : String :=
  String.join (bytes.map Byte.hex)

/-- The value of a digit of either case; another character counts as zero. -/
def digitValue (c : Char) : Nat :=
  if c.isDigit then c.toNat - '0'.toNat
  else if 'A' ≤ c && c ≤ 'F' then c.toNat - 'A'.toNat + 10
  else if 'a' ≤ c && c ≤ 'f' then c.toNat - 'a'.toNat + 10
  else 0

/-- The bytes that pairs of digits stand for; a digit left over at the end stands for none. -/
def bytesOfDigits : List Char → List Byte
  | a :: b :: rest => (digitValue a * 16 + digitValue b).toUInt8 :: bytesOfDigits rest
  | _ => []

/-- The bytes of a text with two digits each. -/
def bytesOfHex (text : String) : List Byte :=
  bytesOfDigits text.toList

end Z80Board
