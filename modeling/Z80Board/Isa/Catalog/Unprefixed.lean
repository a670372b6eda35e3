import Z80Board.Isa.Catalog.Timings
import Z80Board.Isa.Form

/-! # Instructions without a prefix byte, and the bit page

    The forms of the main page and of the CB page, with the operand lists that the other pages
    share. -/

namespace Z80Board.Catalog

/-! ## Operand lists -/

/-- The accumulator. -/
def a : Operand := .reg8 .a

/-- The pair HL. -/
def hl : Operand := .reg16 .hl

/-- The stack pointer. -/
def sp : Operand := .reg16 .sp

/-- Memory at HL. -/
def atHl : Operand := .indirect .hl

/-- The seven byte registers that a field can name. -/
def bytes : List Operand :=
  [.b, .c, .d, .e, .h, .l, .a].map .reg8

/-- Those of them that an index page leaves as they are. -/
def bytesBesidesHl : List Operand :=
  [.b, .c, .d, .e, .a].map .reg8

/-- The pairs that a field can name. -/
def pairs : List Operand :=
  [.bc, .de, .hl, .sp].map .reg16

/-- The pairs that a field of PUSH and POP can name. -/
def stackPairs : List Operand :=
  [.bc, .de, .hl, .af].map .reg16

/-- The conditions that a field can name. -/
def conditions : List Operand :=
  Condition.all.map .condition

/-- The conditions that a relative jump can test. -/
def shortConditions : List Operand :=
  [.nz, .z, .nc, .c].map .condition

/-- The bits of a byte. -/
def bitNumbers : List Operand :=
  [0, 1, 2, 3, 4, 5, 6, 7].map .bit

/-- The targets of RST. -/
def restarts : List Operand :=
  [0x00, 0x08, 0x10, 0x18, 0x20, 0x28, 0x30, 0x38].map .restart

/-- The interrupt modes. -/
def modes : List Operand :=
  [0, 1, 2].map .mode

/-! ## Families -/

/-- A form on a page. -/
def on (page : Page) (opcode : Byte) (size : Nat) (timing : Timings) (slots : List Slot) : Form :=
  { page := some page, opcode, size, timing, slots }

/-- A form that the manual does not list. -/
def unlisted (form : Form) : Form :=
  { form with undocumented := true }

/-- The form of a family member with the flag that says whether the manual leaves it out. -/
def listedUnless (undocumented : Bool) (form : Form) : Form :=
  { form with undocumented }

/-- The byte operations on the accumulator in field order: the name, the field in place, and
    whether the text names the accumulator. -/
def accumulatorOps : List (Mnemonic × Byte × Bool) :=
  [(.add, 0x00, true), (.adc, 0x08, true), (.sub, 0x10, false), (.sbc, 0x18, true),
    (.and, 0x20, false), (.xor, 0x28, false), (.or, 0x30, false), (.cp, 0x38, false)]

/-- The slots of such an operation, given the source. -/
def accumulatorSlots (namesA : Bool) (source : Slot) : List Slot :=
  if namesA then [.fixed a, source] else [source]

/-- The rotates and shifts in field order: the name, the field in place, and whether the manual
    leaves it out. -/
def shiftOps : List (Mnemonic × Byte × Bool) :=
  [(.rlc, 0x00, false), (.rrc, 0x08, false), (.rl, 0x10, false), (.rr, 0x18, false),
    (.sla, 0x20, false), (.sra, 0x28, false), (.sll, 0x30, true), (.srl, 0x38, false)]

/-! ## The main page -/

/-- The loads of bytes. -/
def byteLoads : List (Mnemonic × Form) :=
  [(.ld, on .main 0x40 1 single [.field bytes 3, .field bytes 0]),
    (.ld, on .main 0x06 2 immediateByte [.field bytes 3, .fixed .immediate8]),
    (.ld, on .main 0x46 1 memoryRead [.field bytes 3, .fixed atHl]),
    (.ld, on .main 0x70 1 memoryWrite [.fixed atHl, .field bytes 0]),
    (.ld, on .main 0x36 2 immediateToMemory [.fixed atHl, .fixed .immediate8]),
    (.ld, on .main 0x0A 1 memoryRead [.fixed a, .fixed (.indirect .bc)]),
    (.ld, on .main 0x1A 1 memoryRead [.fixed a, .fixed (.indirect .de)]),
    (.ld, on .main 0x02 1 memoryWrite [.fixed (.indirect .bc), .fixed a]),
    (.ld, on .main 0x12 1 memoryWrite [.fixed (.indirect .de), .fixed a]),
    (.ld, on .main 0x3A 3 loadByteAbsolute [.fixed a, .fixed .absolute]),
    (.ld, on .main 0x32 3 storeByteAbsolute [.fixed .absolute, .fixed a])]

/-- The loads of words, with PUSH and POP. -/
def wordLoads : List (Mnemonic × Form) :=
  [(.ld, on .main 0x01 3 immediateWord [.field pairs 4, .fixed .immediate16]),
    (.ld, on .main 0x2A 3 loadWordAbsolute [.fixed hl, .fixed .absolute]),
    (.ld, on .main 0x22 3 storeWordAbsolute [.fixed .absolute, .fixed hl]),
    (.ld, on .main 0xF9 1 singleLong [.fixed sp, .fixed hl]),
    (.push, on .main 0xC5 1 push [.field stackPairs 4]),
    (.pop, on .main 0xC1 1 pop [.field stackPairs 4])]

/-- The exchanges. -/
def exchanges : List (Mnemonic × Form) :=
  [(.ex, on .main 0xEB 1 single [.fixed (.reg16 .de), .fixed hl]),
    (.ex, on .main 0x08 1 single [.fixed (.reg16 .af), .fixed (.reg16 .afAlt)]),
    (.ex, on .main 0xE3 1 exchangeStack [.fixed (.indirect .sp), .fixed hl]),
    (.exx, on .main 0xD9 1 single [])]

/-- Arithmetic and logic on the accumulator, steps up and down, and the sum of pairs. -/
def arithmetic : List (Mnemonic × Form) :=
  accumulatorOps.flatMap (fun (mnemonic, row, namesA) =>
    [(mnemonic, on .main (0x80 ||| row) 1 single (accumulatorSlots namesA (.field bytes 0))),
      (mnemonic, on .main (0x86 ||| row) 1 memoryRead (accumulatorSlots namesA (.fixed atHl))),
      (mnemonic,
        on .main (0xC6 ||| row) 2 immediateByte (accumulatorSlots namesA (.fixed .immediate8)))])
  ++ [(.inc, on .main 0x04 1 single [.field bytes 3]),
    (.inc, on .main 0x34 1 readModifyWrite [.fixed atHl]),
    (.inc, on .main 0x03 1 singleLong [.field pairs 4]),
    (.dec, on .main 0x05 1 single [.field bytes 3]),
    (.dec, on .main 0x35 1 readModifyWrite [.fixed atHl]),
    (.dec, on .main 0x0B 1 singleLong [.field pairs 4]),
    (.add, on .main 0x09 1 addWord [.fixed hl, .field pairs 4])]

/-- What works on the accumulator and the flags alone. -/
def accumulatorAndFlags : List (Mnemonic × Form) :=
  [(.rlca, on .main 0x07 1 single []),
    (.rrca, on .main 0x0F 1 single []),
    (.rla, on .main 0x17 1 single []),
    (.rra, on .main 0x1F 1 single []),
    (.daa, on .main 0x27 1 single []),
    (.cpl, on .main 0x2F 1 single []),
    (.scf, on .main 0x37 1 single []),
    (.ccf, on .main 0x3F 1 single [])]

/-- Jumps, calls, returns, and what controls the chip itself. -/
def control : List (Mnemonic × Form) :=
  [(.halt, on .main 0x76 1 single []),
    (.di, on .main 0xF3 1 single []),
    (.ei, on .main 0xFB 1 single []),
    (.jp, on .main 0xC3 3 immediateWord [.fixed .immediate16]),
    (.jp, on .main 0xC2 3 immediateWord [.field conditions 3, .fixed .immediate16]),
    (.jp, on .main 0xE9 1 single [.fixed atHl]),
    (.jr, on .main 0x18 2 jumpRelative [.fixed .relative]),
    (.jr, on .main 0x20 2 jumpRelativeIf [.field shortConditions 3, .fixed .relative]),
    (.djnz, on .main 0x10 2 countAndJump [.fixed .relative]),
    (.call, on .main 0xCD 3 call [.fixed .immediate16]),
    (.call, on .main 0xC4 3 callIf [.field conditions 3, .fixed .immediate16]),
    (.ret, on .main 0xC9 1 pop []),
    (.ret, on .main 0xC0 1 returnIf [.field conditions 3]),
    (.rst, on .main 0xC7 1 push [.field restarts 3])]

/-- Input and output by a port that the instruction names. -/
def ports : List (Mnemonic × Form) :=
  [(.input, on .main 0xDB 2 inputImmediate [.fixed a, .fixed .port]),
    (.output, on .main 0xD3 2 outputImmediate [.fixed .port, .fixed a])]

/-- Every form of the main page. -/
def unprefixed : List (Mnemonic × Form) :=
  [(.nop, on .main 0x00 1 single [])] ++ byteLoads ++ wordLoads ++ exchanges ++ arithmetic
    ++ accumulatorAndFlags ++ control ++ ports

/-! ## The bit page -/

/-- Every form of the CB page. -/
def bitPage : List (Mnemonic × Form) :=
  shiftOps.flatMap (fun (mnemonic, row, undocumented) =>
    [(mnemonic, listedUnless undocumented (on .cb row 2 prefixed [.field bytes 0])),
      (mnemonic, listedUnless undocumented (on .cb (0x06 ||| row) 2 bitModify [.fixed atHl]))])
  ++ [(.bit, on .cb 0x40 2 prefixed [.field bitNumbers 3, .field bytes 0]),
    (.bit, on .cb 0x46 2 bitTest [.field bitNumbers 3, .fixed atHl]),
    (.res, on .cb 0x80 2 prefixed [.field bitNumbers 3, .field bytes 0]),
    (.res, on .cb 0x86 2 bitModify [.field bitNumbers 3, .fixed atHl]),
    (.set, on .cb 0xC0 2 prefixed [.field bitNumbers 3, .field bytes 0]),
    (.set, on .cb 0xC6 2 bitModify [.field bitNumbers 3, .fixed atHl])]

end Z80Board.Catalog
