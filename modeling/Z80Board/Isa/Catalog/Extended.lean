import Z80Board.Isa.Catalog.Unprefixed

/-! # The extended page

    The forms of the ED page.  Some of its opcodes repeat others, and every byte that none of them
    claims is a no-op of two bytes. -/

namespace Z80Board.Catalog

/-- A form that other opcodes of the page repeat. -/
def repeated (base : Byte) (others : List Byte) (form : Form) : Form :=
  { form with duplicates := .repeats (others.map fun other => (other, base)) }

/-- Input and output by the port in BC. -/
def extendedPorts : List (Mnemonic × Form) :=
  [(.input, on .ed 0x40 2 inputC [.field bytes 3, .fixed .portC]),
    (.input, unlisted (on .ed 0x70 2 inputC [.fixed .flags, .fixed .portC])),
    (.output, on .ed 0x41 2 outputC [.fixed .portC, .field bytes 3]),
    (.output, unlisted (on .ed 0x71 2 outputC [.fixed .portC, .fixed .zero]))]

/-- Sums and differences of pairs with carry, and loads of pairs. -/
def extendedWords : List (Mnemonic × Form) :=
  [(.sbc, on .ed 0x42 2 prefixedAddWord [.fixed hl, .field pairs 4]),
    (.adc, on .ed 0x4A 2 prefixedAddWord [.fixed hl, .field pairs 4]),
    (.ld, on .ed 0x43 4 prefixedStoreWord [.fixed .absolute, .field pairs 4]),
    (.ld, on .ed 0x4B 4 prefixedLoadWord [.field pairs 4, .fixed .absolute])]

/-- Interrupt control, the registers I and R, and the exchanges of digits. -/
def extendedControl : List (Mnemonic × Form) :=
  [(.neg, repeated 0x44 [0x4C, 0x54, 0x5C, 0x64, 0x6C, 0x74, 0x7C] (on .ed 0x44 2 prefixed [])),
    (.retn, repeated 0x45 [0x55, 0x5D, 0x65, 0x6D, 0x75, 0x7D] (on .ed 0x45 2 prefixedPop [])),
    (.reti, on .ed 0x4D 2 prefixedPop []),
    (.im,
      { on .ed 0x46 2 prefixed [.field modes 3] with
        duplicates := .repeats
          [(0x4E, 0x46), (0x66, 0x46), (0x6E, 0x46), (0x76, 0x56), (0x7E, 0x5E)] }),
    (.ld, on .ed 0x47 2 interruptRegister [.fixed (.reg8 .i), .fixed a]),
    (.ld, on .ed 0x4F 2 interruptRegister [.fixed (.reg8 .r), .fixed a]),
    (.ld, on .ed 0x57 2 interruptRegister [.fixed a, .fixed (.reg8 .i)]),
    (.ld, on .ed 0x5F 2 interruptRegister [.fixed a, .fixed (.reg8 .r)]),
    (.rrd, on .ed 0x67 2 rotateDigit []),
    (.rld, on .ed 0x6F 2 rotateDigit [])]

/-- The block instructions. -/
def blocks : List (Mnemonic × Form) :=
  [(.ldi, on .ed 0xA0 2 (once blockLoad) []),
    (.cpi, on .ed 0xA1 2 (once blockCompare) []),
    (.ini, on .ed 0xA2 2 (once blockInput) []),
    (.outi, on .ed 0xA3 2 (once blockOutput) []),
    (.ldd, on .ed 0xA8 2 (once blockLoad) []),
    (.cpd, on .ed 0xA9 2 (once blockCompare) []),
    (.ind, on .ed 0xAA 2 (once blockInput) []),
    (.outd, on .ed 0xAB 2 (once blockOutput) []),
    (.ldir, on .ed 0xB0 2 (repeating blockLoad) []),
    (.cpir, on .ed 0xB1 2 (repeating blockCompare) []),
    (.inir, on .ed 0xB2 2 (repeating blockInput) []),
    (.otir, on .ed 0xB3 2 (repeating blockOutput) []),
    (.lddr, on .ed 0xB8 2 (repeating blockLoad) []),
    (.cpdr, on .ed 0xB9 2 (repeating blockCompare) []),
    (.indr, on .ed 0xBA 2 (repeating blockInput) []),
    (.otdr, on .ed 0xBB 2 (repeating blockOutput) [])]

/-- Every form of the ED page. -/
def extendedPage : List (Mnemonic × Form) :=
  extendedPorts ++ extendedWords ++ extendedControl ++ blocks
    ++ [(.nop, { unlisted (on .ed 0x00 2 prefixed []) with duplicates := .fillUnused })]

end Z80Board.Catalog
