import Z80Board.Isa.Catalog.Extended
import Z80Board.Isa.Catalog.Indexed

/-! # The instruction set

    All forms of all instructions, and after them the operations the chip performs by itself.
    Collected by mnemonic they are the instruction types; the position of a type and of a form in it
    identify a form everywhere else. -/

namespace Z80Board

namespace Catalog

/-- The operations without an opcode. -/
def internalOps : List (Mnemonic × Form) :=
  [(.nmi, ⟨none, 0, 0, interruptPush, [], false, .none⟩),
    (.int, ⟨none, 0, 0, interruptPush, [.fixed (.mode 1)], false, .none⟩),
    (.int, ⟨none, 0, 0, interruptVector, [.fixed (.mode 2)], false, .none⟩),
    (.haltNop, ⟨none, 0, 0, single, [], false, .none⟩)]

/-- Every form in order. -/
def forms : List (Mnemonic × Form) :=
  unprefixed ++ bitPage ++ extendedPage ++ indexPage .dd .ix ++ indexPage .fd .iy
    ++ indexBitPage .ddcb .ix ++ indexBitPage .fdcb .iy ++ internalOps

/-- Every instruction type in order. -/
def types : List InstructionType :=
  InstructionType.collect forms

end Catalog

end Z80Board
