import Z80Board.Text.Hex

/-! # Program images

    A row of bytes with the address it is loaded at, and a map from source lines to addresses.  An
    image that cannot be loaded says why; of several faults the first in the order below counts. -/

namespace Z80Board

/-- A program to load. -/
structure ProgramImage where
  loadAddress : Word
  bytes : Array Byte
  /-- The addresses of source lines, by rising line number. -/
  lines : List (Nat × Word) := []
deriving DecidableEq, Repr

/-- A program that cannot be loaded. -/
inductive LoadError where
  | empty
  | doesNotFit (loadAddress : Word) (length memorySize : Nat)
  | lineOutsideImage (line : Nat) (address : Word)
  | unknownLine (line : Nat)
deriving DecidableEq, Repr

/-- What the error says. -/
def LoadError.message : LoadError → String
  | .empty => "program image is empty"
  | .doesNotFit loadAddress length memorySize =>
    toString length ++ " bytes at 0x" ++ hexText .lower 4 loadAddress.toNat ++ " do not fit in 0x"
      ++ hexText .lower 1 memorySize ++ " bytes of memory"
  | .lineOutsideImage line address =>
    "line " ++ toString line ++ " maps to 0x" ++ hexText .lower 4 address.toNat
      ++ ", outside the image"
  | .unknownLine line => "no address recorded for line " ++ toString line

namespace ProgramImage

/-- An image without a line map. -/
def ofBytes (loadAddress : Word) (bytes : Array Byte) : ProgramImage :=
  { loadAddress, bytes }

/-- Enter a line in a map sorted by line, in place of an older entry for it. -/
def insertLine (line : Nat) (address : Word) : List (Nat × Word) → List (Nat × Word)
  | [] => [(line, address)]
  | (l, a) :: rest =>
    if line < l then (line, address) :: (l, a) :: rest
    else if line = l then (line, address) :: rest
    else (l, a) :: insertLine line address rest

/-- Record that a source line stands at an address. -/
def withLine (image : ProgramImage) (line : Nat) (address : Word) : ProgramImage :=
  { image with lines := insertLine line address image.lines }

/-- One past the address of the last byte, which may lie past the address space. -/
def stop (image : ProgramImage) : Nat :=
  image.loadAddress.toNat + image.bytes.size

/-- The address of a source line. -/
def addressOfLine (image : ProgramImage) (line : Nat) : Except LoadError Word :=
  match image.lines.lookup line with
  | some address => .ok address
  | none => .error (.unknownLine line)

/-- The address belongs to a byte of the image. -/
def spans (image : ProgramImage) (address : Word) : Bool :=
  image.loadAddress.toNat ≤ address.toNat && address.toNat < image.stop

/-- Check the image against a size of memory: it has bytes, they fit, and every line of the map
    stands in it. -/
def check (image : ProgramImage) (memorySize : Nat) : Except LoadError Unit :=
  if image.bytes.isEmpty then .error .empty
  else if image.stop > memorySize then
    .error (.doesNotFit image.loadAddress image.bytes.size memorySize)
  else
    match image.lines.find? fun (_, address) => !image.spans address with
    | some (line, address) => .error (.lineOutsideImage line address)
    | none => .ok ()

end ProgramImage

end Z80Board
