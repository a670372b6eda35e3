import Z80Board.Isa.Catalog.Unprefixed

/-! # The index pages

    On the DD and FD pages an index register stands in for HL, its halves for H and L, and memory
    at a displacement from it for memory at HL.  Everything is given once, for either register.  A
    byte that has no form here is decoded as if the prefix were not there. -/

namespace Z80Board.Catalog

/-- The register pairs a field can name, with the index register for HL. -/
def indexPairs (x : Index) : List Operand :=
  [.reg16 .bc, .reg16 .de, .reg16 x.pair, sp]

/-- The halves of the index register. -/
def indexHalves (x : Index) : List Operand :=
  [.reg8 x.high, .reg8 x.low]

/-- Every form of the page that a prefix byte selects. -/
def indexPage (page : Page) (x : Index) : List (Mnemonic × Form) :=
  let xx : Slot := .fixed (.reg16 x.pair)
  let displaced : Slot := .fixed (.indexed x)
  let halves := indexHalves x
  [(.add, on page 0x09 2 prefixedAddWord [xx, .field (indexPairs x) 4]),
    (.ld, on page 0x21 4 prefixedImmediateWord [xx, .fixed .immediate16]),
    (.ld, on page 0x22 4 prefixedStoreWord [.fixed .absolute, xx]),
    (.ld, on page 0x2A 4 prefixedLoadWord [xx, .fixed .absolute]),
    (.inc, on page 0x23 2 indexLong [xx]),
    (.dec, on page 0x2B 2 indexLong [xx]),
    (.inc, unlisted (on page 0x04 2 prefixed [.field halves 3])),
    (.dec, unlisted (on page 0x05 2 prefixed [.field halves 3])),
    (.ld, unlisted (on page 0x06 3 indexHalfImmediate [.field halves 3, .fixed .immediate8])),
    (.inc, on page 0x34 3 indexModify [displaced]),
    (.dec, on page 0x35 3 indexModify [displaced]),
    (.ld, on page 0x36 4 indexStoreImmediate [displaced, .fixed .immediate8]),
    (.ld, unlisted (on page 0x40 2 prefixed [.field bytesBesidesHl 3, .field halves 0])),
    (.ld, unlisted (on page 0x40 2 prefixed [.field halves 3, .field bytesBesidesHl 0])),
    (.ld, unlisted (on page 0x40 2 prefixed [.field halves 3, .field halves 0])),
    (.ld, on page 0x46 3 indexRead [.field bytes 3, displaced]),
    (.ld, on page 0x70 3 indexWrite [displaced, .field bytes 0])]
  ++ accumulatorOps.flatMap (fun (mnemonic, row, namesA) =>
    [(mnemonic,
        unlisted (on page (0x80 ||| row) 2 prefixed (accumulatorSlots namesA (.field halves 0)))),
      (mnemonic, on page (0x86 ||| row) 3 indexRead (accumulatorSlots namesA displaced))])
  ++ [(.pop, on page 0xE1 2 prefixedPop [xx]),
    (.push, on page 0xE5 2 indexPush [xx]),
    (.ex, on page 0xE3 2 indexExchangeStack [.fixed (.indirect .sp), xx]),
    (.jp, on page 0xE9 2 prefixed [.fixed (.indirect x.pair)]),
    (.ld, on page 0xF9 2 indexLong [.fixed sp, xx])]

/-- Every form of the bit page behind an index prefix.  The result goes to memory, and in the
    unlisted forms to a register as well. -/
def indexBitPage (page : Page) (x : Index) : List (Mnemonic × Form) :=
  let displaced : Slot := .fixed (.indexed x)
  let copy : Slot := .field bytes 0
  let number : Slot := .field bitNumbers 3
  shiftOps.flatMap (fun (mnemonic, row, undocumented) =>
    [(mnemonic, listedUnless undocumented (on page (0x06 ||| row) 4 indexBitModify [displaced])),
      (mnemonic, unlisted (on page row 4 indexBitModify [displaced, copy]))])
  ++ [(.bit,
      { on page 0x46 4 indexBitTest [number, displaced] with duplicates := .ignoredLowBits }),
    (.res, on page 0x86 4 indexBitModify [number, displaced]),
    (.res, unlisted (on page 0x80 4 indexBitModify [number, displaced, copy])),
    (.set, on page 0xC6 4 indexBitModify [number, displaced]),
    (.set, unlisted (on page 0xC0 4 indexBitModify [number, displaced, copy]))]

end Z80Board.Catalog
