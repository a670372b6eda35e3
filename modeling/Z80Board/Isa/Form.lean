import Z80Board.Isa.Mnemonic
import Z80Board.Isa.Operand
import Z80Board.Isa.Page
import Z80Board.Isa.Timing

/-! # Opcode patterns

    An instruction comes in forms, one for each combination of addressing modes.  A form is a
    pattern: a base opcode and one slot for each operand, where a slot either names one operand or
    a list of operands whose codes go into the opcode at a given bit.  Expanding a form gives one
    encoding for every choice of operands, in order, with the last slot varying fastest. -/

namespace Z80Board

/-- One operand position of a form. -/
inductive Slot where
  /-- Always this operand, which leaves no trace in the opcode. -/
  | fixed (operand : Operand)
  /-- One of these operands, whose field code is shifted into the opcode. -/
  | field (operands : List Operand) (shift : Nat)
deriving DecidableEq, Repr

namespace Slot

/-- The operands that can stand in the slot. -/
def operands : Slot → List Operand
  | .fixed operand => [operand]
  | .field operands _ => operands

/-- What an operand in this slot adds to the opcode. -/
def bits : Slot → Operand → Byte
  | .fixed _, _ => 0
  | .field _ shift, operand => operand.fieldCode <<< shift.toUInt8

end Slot

/-- Opcodes that decode to a form without being part of its pattern. -/
inductive Duplicates where
  | none
  /-- Pairs of a byte and the byte of the pattern that it behaves like. -/
  | repeats (pairs : List (Byte × Byte))
  /-- The low three bits of the opcode do not count. -/
  | ignoredLowBits
  /-- Every byte of the page that nothing else claims. -/
  | fillUnused
deriving DecidableEq, Repr

/-- One combination of addressing modes of an instruction. -/
structure Form where
  /-- The page of the opcode; an operation the chip performs by itself has none. -/
  page : Option Page
  /-- The opcode with every field zero. -/
  opcode : Byte
  /-- Bytes of the instruction, with prefixes, displacement and immediates. -/
  size : Nat
  timing : Timings
  slots : List Slot := []
  undocumented : Bool := false
  duplicates : Duplicates := .none
deriving DecidableEq, Repr

namespace Form

/-- The encodings of some slots on top of an opcode. -/
def expand (opcode : Byte) : List Slot → List (Byte × List Operand)
  | [] => [(opcode, [])]
  | slot :: rest =>
    slot.operands.flatMap fun operand =>
      (expand (opcode ||| slot.bits operand) rest).map fun (byte, operands) =>
        (byte, operand :: operands)

/-- Every opcode of the pattern with its operands, in field order. -/
def encodings (form : Form) : List (Byte × List Operand) :=
  expand form.opcode form.slots

/-- How many encodings the pattern has. -/
def opcodeCount (form : Form) : Nat :=
  (form.slots.map fun slot => slot.operands.length).foldl (· * ·) 1

end Form

/-- One operation with all its forms. -/
structure InstructionType where
  mnemonic : Mnemonic
  forms : List Form
deriving DecidableEq, Repr

namespace InstructionType

/-- The manual lists at least one form. -/
def documented (type : InstructionType) : Bool :=
  type.forms.any fun form => !form.undocumented

/-- The chip performs it by itself. -/
def isInternal (type : InstructionType) : Bool :=
  type.mnemonic.isInternal

/-- Add a form under its mnemonic, at the end of the type that has the mnemonic already or as a new
    type at the end. -/
def insert (types : List InstructionType) (mnemonic : Mnemonic) (form : Form) :
    List InstructionType :=
  match types with
  | [] => [⟨mnemonic, [form]⟩]
  | type :: rest =>
    if type.mnemonic = mnemonic then ⟨type.mnemonic, type.forms ++ [form]⟩ :: rest
    else type :: insert rest mnemonic form

/-- Collect forms by mnemonic, in the order in which the mnemonics first appear. -/
def collect (forms : List (Mnemonic × Form)) : List InstructionType :=
  forms.foldl (fun types (mnemonic, form) => insert types mnemonic form) []

end InstructionType

end Z80Board
