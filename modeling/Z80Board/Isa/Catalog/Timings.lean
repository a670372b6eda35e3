import Z80Board.Isa.Timing

/-! # Timing templates

    The timings that occur in the instruction set, each under a name that says what is moved. -/

namespace Z80Board.Catalog

/-! ## Machine cycles -/

/-- Opcode fetch. -/
def fetch (t : Nat) : MachineCycle := ⟨.opcodeFetch, t⟩

/-- Read of a one-byte operand. -/
def operand (t : Nat) : MachineCycle := ⟨.operand, t⟩

/-- Read of the low byte of an operand. -/
def operandLow (t : Nat) : MachineCycle := ⟨.operandLow, t⟩

/-- Read of the high byte of an operand. -/
def operandHigh (t : Nat) : MachineCycle := ⟨.operandHigh, t⟩

/-- Read from memory. -/
def read (t : Nat) : MachineCycle := ⟨.memoryRead, t⟩

/-- Write to memory. -/
def write (t : Nat) : MachineCycle := ⟨.memoryWrite, t⟩

/-- Read of a word from memory, low byte first. -/
def readWord : List MachineCycle := [⟨.memoryReadLow, 3⟩, ⟨.memoryReadHigh, 3⟩]

/-- Write of a word to memory, low byte first. -/
def writeWord : List MachineCycle := [⟨.memoryWriteLow, 3⟩, ⟨.memoryWriteHigh, 3⟩]

/-- Read of a word operand. -/
def operandWord : List MachineCycle := [operandLow 3, operandHigh 3]

/-- Pop of a word, the second byte taking the given time. -/
def popWord (second : Nat) : List MachineCycle := [⟨.stackReadLow, 3⟩, ⟨.stackReadHigh, second⟩]

/-- Push of a word, the second byte taking the given time. -/
def pushWord (second : Nat) : List MachineCycle := [⟨.stackWriteHigh, 3⟩, ⟨.stackWriteLow, second⟩]

/-- Read of a port. -/
def input : MachineCycle := ⟨.portRead, 4⟩

/-- Write of a port. -/
def output : MachineCycle := ⟨.portWrite, 4⟩

/-- Internal work. -/
def inside (t : Nat) : MachineCycle := ⟨.internal, t⟩

/-! ## Without a prefix byte -/

/-- A fetch is all there is. -/
def single : Timings := .fixed ⟨[fetch 4], 4⟩

/-- A fetch that works on a pair. -/
def singleLong : Timings := .fixed ⟨[fetch 6], 6⟩

/-- A byte of the instruction is used. -/
def immediateByte : Timings := .fixed ⟨[fetch 4, operand 3], 7⟩

/-- A byte of memory is used. -/
def memoryRead : Timings := .fixed ⟨[fetch 4, read 3], 7⟩

/-- A byte goes to memory. -/
def memoryWrite : Timings := .fixed ⟨[fetch 4, write 3], 7⟩

/-- A byte of the instruction goes to memory. -/
def immediateToMemory : Timings := .fixed ⟨[fetch 4, operand 3, write 3], 10⟩

/-- A word of the instruction is used. -/
def immediateWord : Timings := .fixed ⟨fetch 4 :: operandWord, 10⟩

/-- A word comes from an address in the instruction. -/
def loadWordAbsolute : Timings := .fixed ⟨fetch 4 :: (operandWord ++ readWord), 16⟩

/-- A word goes to an address in the instruction. -/
def storeWordAbsolute : Timings := .fixed ⟨fetch 4 :: (operandWord ++ writeWord), 16⟩

/-- A byte comes from an address in the instruction. -/
def loadByteAbsolute : Timings := .fixed ⟨fetch 4 :: (operandWord ++ [read 3]), 13⟩

/-- A byte goes to an address in the instruction. -/
def storeByteAbsolute : Timings := .fixed ⟨fetch 4 :: (operandWord ++ [write 3]), 13⟩

/-- Two pairs are added. -/
def addWord : Timings := .fixed ⟨[fetch 4, inside 4, inside 3], 11⟩

/-- A byte of memory is changed. -/
def readModifyWrite : Timings := .fixed ⟨[fetch 4, read 4, write 3], 11⟩

/-- A jump by an offset. -/
def jumpRelative : Timings := .fixed ⟨[fetch 4, operand 3, inside 5], 12⟩

/-- A jump by an offset, if it is taken. -/
def jumpRelativeIf : Timings :=
  .conditional ⟨[fetch 4, operand 3], 7⟩ ⟨[fetch 4, operand 3, inside 5], 12⟩

/-- A count, and a jump by an offset while it runs. -/
def countAndJump : Timings :=
  .conditional ⟨[fetch 5, operand 3], 8⟩ ⟨[fetch 5, operand 3, inside 5], 13⟩

/-- A call. -/
def call : Timings := .fixed ⟨[fetch 4, operandLow 3, operandHigh 4] ++ pushWord 3, 17⟩

/-- A call, if it is taken. -/
def callIf : Timings :=
  .conditional ⟨fetch 4 :: operandWord, 10⟩
    ⟨[fetch 4, operandLow 3, operandHigh 4] ++ pushWord 3, 17⟩

/-- A word comes off the stack. -/
def pop : Timings := .fixed ⟨fetch 4 :: popWord 3, 10⟩

/-- A return, if it is taken. -/
def returnIf : Timings := .conditional ⟨[fetch 5], 5⟩ ⟨fetch 5 :: popWord 3, 11⟩

/-- A word goes on the stack. -/
def push : Timings := .fixed ⟨fetch 5 :: pushWord 3, 11⟩

/-- A word is exchanged with the top of the stack. -/
def exchangeStack : Timings := .fixed ⟨fetch 4 :: (popWord 4 ++ pushWord 5), 19⟩

/-- A byte comes from a port that the instruction names. -/
def inputImmediate : Timings := .fixed ⟨[fetch 4, operand 3, input], 11⟩

/-- A byte goes to a port that the instruction names. -/
def outputImmediate : Timings := .fixed ⟨[fetch 4, operand 3, output], 11⟩

/-! ## On the CB and ED pages -/

/-- Two fetches are all there is. -/
def prefixed : Timings := .fixed ⟨[fetch 4, fetch 4], 8⟩

/-- A byte of memory is changed, behind a prefix. -/
def bitModify : Timings := .fixed ⟨[fetch 4, fetch 4, read 4, write 3], 15⟩

/-- A bit of memory is tested, behind a prefix. -/
def bitTest : Timings := .fixed ⟨[fetch 4, fetch 4, read 4], 12⟩

/-- A byte comes from the port in BC. -/
def inputC : Timings := .fixed ⟨[fetch 4, fetch 4, input], 12⟩

/-- A byte goes to the port in BC. -/
def outputC : Timings := .fixed ⟨[fetch 4, fetch 4, output], 12⟩

/-- Two pairs are added, behind a prefix. -/
def prefixedAddWord : Timings := .fixed ⟨[fetch 4, fetch 4, inside 4, inside 3], 15⟩

/-- A word of the instruction is used, behind a prefix. -/
def prefixedImmediateWord : Timings := .fixed ⟨[fetch 4, fetch 4] ++ operandWord, 14⟩

/-- A word comes from an address in the instruction, behind a prefix. -/
def prefixedLoadWord : Timings := .fixed ⟨[fetch 4, fetch 4] ++ operandWord ++ readWord, 20⟩

/-- A word goes to an address in the instruction, behind a prefix. -/
def prefixedStoreWord : Timings := .fixed ⟨[fetch 4, fetch 4] ++ operandWord ++ writeWord, 20⟩

/-- A word comes off the stack, behind a prefix. -/
def prefixedPop : Timings := .fixed ⟨[fetch 4, fetch 4] ++ popWord 3, 14⟩

/-- A byte moves between the accumulator and I or R. -/
def interruptRegister : Timings := .fixed ⟨[fetch 4, fetch 5], 9⟩

/-- A digit is exchanged with memory. -/
def rotateDigit : Timings := .fixed ⟨[fetch 4, fetch 4, read 3, inside 4, write 3], 18⟩

/-! ## Block instructions

    A repeating one spends five more periods on an internal cycle before it runs again. -/

/-- A block instruction that does not repeat. -/
def once (cycles : List MachineCycle) : Timings :=
  .fixed ⟨cycles, 16⟩

/-- A block instruction that repeats while its condition holds. -/
def repeating (cycles : List MachineCycle) : Timings :=
  .conditional ⟨cycles, 16⟩ ⟨cycles ++ [inside 5], 21⟩

/-- A byte is copied. -/
def blockLoad : List MachineCycle := [fetch 4, fetch 4, read 3, write 5]

/-- A byte is compared. -/
def blockCompare : List MachineCycle := [fetch 4, fetch 4, read 3, inside 5]

/-- A byte comes from a port to memory. -/
def blockInput : List MachineCycle := [fetch 4, fetch 5, input, write 3]

/-- A byte goes from memory to a port. -/
def blockOutput : List MachineCycle := [fetch 4, fetch 5, read 3, output]

/-! ## On the index pages -/

/-- An index register is stepped or moved. -/
def indexLong : Timings := .fixed ⟨[fetch 4, fetch 6], 10⟩

/-- A byte of the instruction goes to an index half. -/
def indexHalfImmediate : Timings := .fixed ⟨[fetch 4, fetch 4, operand 3], 11⟩

/-- A byte at a displacement is changed. -/
def indexModify : Timings :=
  .fixed ⟨[fetch 4, fetch 4, operand 3, inside 5, read 4, write 3], 23⟩

/-- A byte of the instruction goes to a displacement. -/
def indexStoreImmediate : Timings :=
  .fixed ⟨[fetch 4, fetch 4, operand 3, operand 5, write 3], 19⟩

/-- A byte at a displacement is used. -/
def indexRead : Timings := .fixed ⟨[fetch 4, fetch 4, operand 3, inside 5, read 3], 19⟩

/-- A byte goes to a displacement. -/
def indexWrite : Timings := .fixed ⟨[fetch 4, fetch 4, operand 3, inside 5, write 3], 19⟩

/-- An index register goes on the stack. -/
def indexPush : Timings := .fixed ⟨[fetch 4, fetch 5] ++ pushWord 3, 15⟩

/-- An index register is exchanged with the top of the stack. -/
def indexExchangeStack : Timings := .fixed ⟨[fetch 4, fetch 4] ++ popWord 4 ++ pushWord 5, 23⟩

/-- A byte at a displacement is changed, on a bit page. -/
def indexBitModify : Timings :=
  .fixed ⟨[fetch 4, fetch 4, operand 3, fetch 5, read 4, write 3], 23⟩

/-- A bit at a displacement is tested. -/
def indexBitTest : Timings := .fixed ⟨[fetch 4, fetch 4, operand 3, fetch 5, read 4], 20⟩

/-! ## Interrupts -/

/-- Entry of the non-maskable interrupt and acknowledge in mode 1: a long fetch, then a push. -/
def interruptPush : Timings := .fixed ⟨fetch 5 :: pushWord 3, 11⟩

/-- Acknowledge in mode 2: the same, then a read of the vector. -/
def interruptVector : Timings := .fixed ⟨fetch 5 :: (pushWord 3 ++ readWord), 17⟩

end Z80Board.Catalog
