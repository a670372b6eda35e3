import Z80Board.Isa.Form

/-! # Decoded instructions

    What an opcode byte means on a page: an instruction with its operands resolved, or a step
    towards one.  An entry that only leads on describes the no-op that fetching it amounts to. -/

namespace Z80Board

/-- What the chip does after it has fetched a byte. -/
inductive Action where
  /-- The byte completes the opcode. -/
  | execute
  /-- Fetch another byte and look it up on this page. -/
  | fetchNext (page : Page)
  /-- Read a displacement, then the last opcode byte, and look that up on this page. -/
  | fetchDisplacement (page : Page)
  /-- The prefix in front has no effect on the byte: look it up again on this page. -/
  | redecode (page : Page)
deriving DecidableEq, Repr

/-- Operations the chip performs without an opcode. -/
inductive InternalOp where
  /-- Push PC and go to the handler of the non-maskable interrupt. -/
  | nmi
  /-- Push PC and go to the handler of mode 1. -/
  | intMode1
  /-- Push PC and take the handler's address from the vector table. -/
  | intMode2
  /-- The idle fetch of a halted chip. -/
  | haltNop
deriving DecidableEq, Repr

namespace InternalOp

/-- Every internal operation. -/
def all : List InternalOp :=
  [.nmi, .intMode1, .intMode2, .haltNop]

/-- The name in traces. -/
def name : InternalOp → String
  | .nmi => "Nmi"
  | .intMode1 => "IntMode1"
  | .intMode2 => "IntMode2"
  | .haltNop => "HaltNop"

/-- The mnemonic and the number of the form in the catalog. -/
def form : InternalOp → Mnemonic × Nat
  | .nmi => (.nmi, 0)
  | .intMode1 => (.int, 0)
  | .intMode2 => (.int, 1)
  | .haltNop => (.haltNop, 0)

end InternalOp

/-- One entry of a page: an opcode with its operands resolved. -/
structure Instruction where
  /-- The page of the entry; an internal operation has none. -/
  page : Option Page
  opcode : Byte
  action : Action
  /-- Position of the instruction type in the catalog. -/
  typeId : Nat
  /-- Position of the form in its type. -/
  variant : Nat
  mnemonic : Mnemonic
  operands : List Operand
  /-- Bytes of the instruction, with prefixes. -/
  size : Nat
  timing : Timings
  undocumented : Bool
  /-- The opcode is not part of the form's own pattern. -/
  duplicate : Bool
deriving DecidableEq, Repr

namespace Instruction

/-- The first operand that is a place in memory. -/
def memoryOperand? (code : Instruction) : Option Operand :=
  code.operands.find? Operand.isMemory

/-- The index register of a displaced operand. -/
def index? (code : Instruction) : Option Index :=
  code.operands.findSome? Operand.index?

/-- The operand occurs in the instruction. -/
def hasOperand (code : Instruction) (operand : Operand) : Bool :=
  code.operands.contains operand

/-- The instruction as text: the mnemonic, and after a blank the operands with commas between. -/
def render (code : Instruction) : String :=
  if code.action ≠ .execute then
    "prefix " ++ code.opcode.hex
  else
    match code.operands with
    | [] => code.mnemonic.name
    | operands => code.mnemonic.name ++ " " ++ ",".intercalate (operands.map Operand.render)

end Instruction

end Z80Board
