import Z80Board.Text.Hex

/-! # Board configuration

    What a board is built from: the clock, the size of memory, a read-only window in it, and the
    waits it puts into every access.  The faults of a configuration are looked for in this order,
    and the first one found is the one reported.

    Sizes and lengths are 64-bit counts, and so is the end of the window: a length that takes it
    past the largest count brings it round to zero. -/

namespace Z80Board

/-- A read-only window of memory. -/
structure RomRange where
  start : Word
  length : Nat
deriving DecidableEq, Repr

namespace RomRange

/-- One past the last index of the window, as a 64-bit count. -/
def stop (rom : RomRange) : Nat :=
  (rom.start.toNat + rom.length) % countModulus

/-- The index lies in the window. -/
def contains (rom : RomRange) (index : Nat) : Bool :=
  rom.start.toNat ≤ index && index < rom.stop

end RomRange

/-- What a board is built from. -/
structure BoardConfig where
  /-- Nominal clock, which only turns periods into time. -/
  frequencyHz : Nat := 3500000
  /-- Bytes of memory; fewer than the whole address space repeat through it. -/
  memorySize : Nat := 0x10000
  rom : Option RomRange := none
  /-- Waits that memory puts into every access. -/
  waitStates : Nat := 0
deriving DecidableEq, Repr

/-- A configuration that no board can be built from. -/
inductive ConfigError where
  | zeroFrequency
  | memorySize (size : Nat)
  | romOutsideMemory (rom : RomRange) (memorySize : Nat)
  | tooManyWaitStates (waits : Nat)
deriving DecidableEq, Repr

namespace BoardConfig

/-- The most memory there can be: the whole address space. -/
def maxMemorySize : Nat := 0x10000

/-- The least memory there can be. -/
def minMemorySize : Nat := 0x400

/-- The most waits that memory can put into an access. -/
def maxWaitStates : Nat := 16

/-- The number of zeros below the lowest one of a number, which is less than two to the given
    power. -/
def trailingZeros : Nat → Nat → Nat
  | 0, _ => 0
  | bits + 1, n => if n % 2 = 1 then 0 else trailingZeros bits (n / 2) + 1

/-- Address lines that the memory decodes: the zeros at the end of its size as a 64-bit count. -/
def addressLines (config : BoardConfig) : Nat :=
  trailingZeros 64 config.memorySize

/-- The size is a power of two that a memory can have. -/
def sizeFits (size : Nat) : Bool :=
  size != 0 && size &&& (size - 1) == 0 && minMemorySize ≤ size && size ≤ maxMemorySize

/-- The window is not empty and ends inside memory. -/
def romFits (rom : RomRange) (memorySize : Nat) : Bool :=
  rom.length != 0 && rom.stop ≤ memorySize

/-- The first fault of the configuration, if it has one. -/
def validate (config : BoardConfig) : Except ConfigError Unit :=
  if config.frequencyHz = 0 then .error .zeroFrequency
  else if !sizeFits config.memorySize then .error (.memorySize config.memorySize)
  else
    match config.rom.filter fun rom => !romFits rom config.memorySize with
    | some rom => .error (.romOutsideMemory rom config.memorySize)
    | none =>
      if config.waitStates > maxWaitStates then .error (.tooManyWaitStates config.waitStates)
      else .ok ()

end BoardConfig

/-- What the error says. -/
def ConfigError.message : ConfigError → String
  | .zeroFrequency => "clock frequency must be non-zero"
  | .memorySize size =>
    "memory size 0x" ++ hexText .lower 1 size ++ " is not a power of two between 1 KiB and 64 KiB"
  | .romOutsideMemory rom size =>
    "ROM at 0x" ++ hexText .lower 4 rom.start.toNat ++ " (" ++ toString rom.length
      ++ " bytes) does not fit in 0x" ++ hexText .lower 1 size ++ " bytes of memory"
  | .tooManyWaitStates waits =>
    toString waits ++ " wait states exceeds the maximum of " ++ toString BoardConfig.maxWaitStates

end Z80Board
