import Z80Board.Text.Hex

/-! # Operands

    What the text of an instruction names: registers, register pairs, conditions, memory and port
    locations, and constants.  An operand that varies within one opcode pattern also has a field
    code, the bits it puts into the opcode. -/

namespace Z80Board

/-! ## Registers -/

/-- The byte registers, with the halves of the index registers. -/
inductive Reg8 where
  | a | b | c | d | e | h | l
  | ixh | ixl | iyh | iyl
  | i | r
deriving DecidableEq, Repr

namespace Reg8

/-- Every byte register. -/
def all : List Reg8 :=
  [.a, .b, .c, .d, .e, .h, .l, .ixh, .ixl, .iyh, .iyl, .i, .r]

/-- The three bits that name the register in an opcode.  An index half takes the code of the half
    of HL it stands for; I and R are never in a field. -/
def code : Reg8 → Byte
  | .b => 0
  | .c => 1
  | .d => 2
  | .e => 3
  | .h | .ixh | .iyh => 4
  | .l | .ixl | .iyl => 5
  | .a => 7
  | .i | .r => 0

/-- The name in instruction text. -/
def name : Reg8 → String
  | .a => "A"
  | .b => "B"
  | .c => "C"
  | .d => "D"
  | .e => "E"
  | .h => "H"
  | .l => "L"
  | .ixh => "IXH"
  | .ixl => "IXL"
  | .iyh => "IYH"
  | .iyl => "IYL"
  | .i => "I"
  | .r => "R"

end Reg8

/-- The register pairs.  The shadow of AF is named by one exchange only. -/
inductive Reg16 where
  | af | afAlt | bc | de | hl | sp | ix | iy
deriving DecidableEq, Repr

namespace Reg16

/-- Every register pair. -/
def all : List Reg16 :=
  [.af, .afAlt, .bc, .de, .hl, .sp, .ix, .iy]

/-- The two bits that name the pair in an opcode. -/
def code : Reg16 → Byte
  | .bc => 0
  | .de => 1
  | .hl | .ix | .iy => 2
  | .sp | .af | .afAlt => 3

/-- The name in instruction text. -/
def name : Reg16 → String
  | .af => "AF"
  | .afAlt => "AF'"
  | .bc => "BC"
  | .de => "DE"
  | .hl => "HL"
  | .sp => "SP"
  | .ix => "IX"
  | .iy => "IY"

end Reg16

/-- The index registers, one for each index page. -/
inductive Index where
  | ix
  | iy
deriving DecidableEq, Repr

namespace Index

/-- The register itself. -/
def pair : Index → Reg16
  | .ix => .ix
  | .iy => .iy

/-- Its upper half. -/
def high : Index → Reg8
  | .ix => .ixh
  | .iy => .iyh

/-- Its lower half. -/
def low : Index → Reg8
  | .ix => .ixl
  | .iy => .iyl

end Index

/-! ## Conditions -/

/-- Branch conditions, in the order of their codes. -/
inductive Condition where
  | nz | z | nc | c | po | pe | p | m
deriving DecidableEq, Repr

namespace Condition

/-- Every condition. -/
def all : List Condition :=
  [.nz, .z, .nc, .c, .po, .pe, .p, .m]

/-- The three bits that name the condition in an opcode. -/
def code : Condition → Byte
  | .nz => 0
  | .z => 1
  | .nc => 2
  | .c => 3
  | .po => 4
  | .pe => 5
  | .p => 6
  | .m => 7

/-- The name in instruction text. -/
def name : Condition → String
  | .nz => "NZ"
  | .z => "Z"
  | .nc => "NC"
  | .c => "C"
  | .po => "PO"
  | .pe => "PE"
  | .p => "P"
  | .m => "M"

end Condition

/-! ## Operands -/

/-- One operand position of an instruction. -/
inductive Operand where
  | reg8 (reg : Reg8)
  | reg16 (rr : Reg16)
  /-- Memory at the address in a register pair. -/
  | indirect (rr : Reg16)
  /-- Memory at an index register plus a displacement. -/
  | indexed (x : Index)
  /-- A byte of the instruction. -/
  | immediate8
  /-- A word of the instruction. -/
  | immediate16
  /-- Memory at an address in the instruction. -/
  | absolute
  /-- The port whose number is in the instruction, with A on the upper lines. -/
  | port
  /-- The port whose number is in BC. -/
  | portC
  /-- A signed jump offset. -/
  | relative
  | condition (cc : Condition)
  | bit (n : Byte)
  /-- The target of a restart. -/
  | restart (target : Byte)
  /-- The number of an interrupt mode. -/
  | mode (n : Byte)
  /-- The zero that one port output sends. -/
  | zero
  /-- The flags, as the target of one port input. -/
  | flags
deriving DecidableEq, Repr

namespace Operand

/-- The bits the operand puts into an opcode field, before they are shifted into place. -/
def fieldCode : Operand → Byte
  | .reg8 reg => reg.code
  | .reg16 rr => rr.code
  | .condition cc => cc.code
  | .bit n => n
  | .restart target => target >>> 3
  | .mode n => if n = 0 then 0 else if n = 1 then 2 else 3
  | _ => 0

/-- The operand is a place in memory. -/
def isMemory : Operand → Bool
  | .indirect _ | .indexed _ | .absolute => true
  | _ => false

/-- The index register of a displaced operand. -/
def index? : Operand → Option Index
  | .indexed x => some x
  | _ => none

/-- The operand as it stands in instruction text. -/
def render : Operand → String
  | .reg8 reg => reg.name
  | .reg16 rr => rr.name
  | .indirect rr => "(" ++ rr.name ++ ")"
  | .indexed x => "(" ++ x.pair.name ++ "+d)"
  | .immediate8 => "n"
  | .immediate16 => "nn"
  | .absolute => "(nn)"
  | .port => "(n)"
  | .portC => "(C)"
  | .relative => "e"
  | .condition cc => cc.name
  | .bit n => toString n.toNat
  | .restart target => target.hex ++ "H"
  | .mode n => toString n.toNat
  | .zero => "0"
  | .flags => "F"

end Operand

end Z80Board
