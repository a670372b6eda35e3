import Z80Board.Chip.Core

/-! # Looking inside

    A property of the chip has a path, such as a register's name or a pin's behind a dot.  Asking
    for a path gives a value of its own kind, or nothing when there is no such path, and changes
    nothing. -/

namespace Z80Board

/-- A value that an inspection returns. -/
inductive Value where
  | bool (b : Bool)
  | byte (b : Byte)
  | word (w : Word)
  | count (n : Nat)
  | level (l : Level)
  | text (s : String)
deriving DecidableEq, Repr

/-- The value as text.  Bytes and words are hexadecimal with all their digits. -/
def Value.render : Value → String
  | .bool b => if b then "true" else "false"
  | .byte b => "0x" ++ b.hex
  | .word w => "0x" ++ w.hex
  | .count n => toString n
  | .level .low => "LOW"
  | .level .high => "HIGH"
  | .text s => s

namespace Core

/-- The registers and flip-flops by path. -/
def registerProbes : List (String × (Core → Value)) :=
  [("pc", fun c => .word c.regs.pc), ("sp", fun c => .word c.regs.sp),
    ("a", fun c => .byte c.regs.a), ("f", fun c => .byte c.regs.f),
    ("b", fun c => .byte c.regs.b), ("c", fun c => .byte c.regs.c),
    ("d", fun c => .byte c.regs.d), ("e", fun c => .byte c.regs.e),
    ("h", fun c => .byte c.regs.h), ("l", fun c => .byte c.regs.l),
    ("af", fun c => .word c.regs.af), ("bc", fun c => .word c.regs.bc),
    ("de", fun c => .word c.regs.de), ("hl", fun c => .word c.regs.hl),
    ("ix", fun c => .word c.regs.ix), ("iy", fun c => .word c.regs.iy),
    ("i", fun c => .byte c.regs.i), ("r", fun c => .byte c.regs.r),
    ("wz", fun c => .word c.regs.wz), ("af'", fun c => .word c.regs.afAlt),
    ("bc'", fun c => .word c.regs.bcAlt), ("de'", fun c => .word c.regs.deAlt),
    ("hl'", fun c => .word c.regs.hlAlt), ("iff1", fun c => .bool c.regs.iff1),
    ("iff2", fun c => .bool c.regs.iff2), ("im", fun c => .byte c.regs.im),
    ("halted", fun c => .bool c.halted)]

/-- The flags by path. -/
def flagProbes : List (String × (Core → Value)) :=
  [("flags.s", Flag.sign), ("flags.z", Flag.zero), ("flags.y", Flag.y), ("flags.h", Flag.half),
    ("flags.x", Flag.x), ("flags.p", Flag.parity), ("flags.n", Flag.subtract),
    ("flags.c", Flag.carry)].map fun (path, mask) => (path, fun c => .bool (c.regs.flag mask))

/-- The pins by path. -/
def pinProbes : List (String × (Core → Value)) :=
  [("pins.m1", Pins.m1), ("pins.mreq", Pins.mreq), ("pins.iorq", Pins.iorq), ("pins.rd", Pins.rd),
    ("pins.wr", Pins.wr), ("pins.rfsh", Pins.rfsh), ("pins.halt", Pins.halt),
    ("pins.busack", Pins.busack), ("pins.wait", Pins.wait), ("pins.int", Pins.int),
    ("pins.nmi", Pins.nmi), ("pins.reset", Pins.reset), ("pins.busreq", Pins.busreq)].map
    fun (path, level) => (path, fun c => .level (level c.pins))

/-- The buses and the progress of the chip by path. -/
def progressProbes : List (String × (Core → Value)) :=
  [("address", fun c => .word c.address.value), ("data", fun c => .byte c.data.value),
    ("instructions", fun c => .count c.instructionCounter),
    ("t_states", fun c => .count (c.halfTStates / 2)),
    ("cycle", fun c => .text (c.cycle.kind.tag ++ toString c.cycle.length)),
    ("instruction", fun c => .text c.snapshot.instructionText)]

/-- Every property of the chip by path. -/
def probes : List (String × (Core → Value)) :=
  registerProbes ++ flagProbes ++ pinProbes ++ progressProbes

/-- The paths there are, in order. -/
def queryPaths : List String :=
  probes.map Prod.fst

/-- The value behind a path, if there is such a path. -/
def query (c : Core) (path : String) : Option Value :=
  (probes.lookup path).map fun probe => probe c

end Core

end Z80Board
