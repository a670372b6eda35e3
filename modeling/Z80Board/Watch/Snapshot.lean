import Z80Board.Chip.OpcodeBytes
import Z80Board.Isa.Instruction

/-! # Snapshots

    What the chip shows of its progress to whoever watches it: where the current instruction comes
    from and how far it has come, and the counters.  A snapshot is a value and changes nothing. -/

namespace Z80Board

/-- Where the current instruction comes from. -/
inductive Origin where
  /-- Fetched from memory, beginning at this address. -/
  | memory (address : Word)
  /-- Made by the chip itself. -/
  | internal (op : InternalOp)
  /-- Put on the data bus by the interrupting device. -/
  | device
  /-- There is no instruction yet. -/
  | none
deriving DecidableEq, Repr

/-- The origin as it stands in traces. -/
def Origin.render : Origin → String
  | .memory address => "mem:" ++ address.hex
  | .internal op => "internal:" ++ op.name
  | .device => "device"
  | .none => "none"

/-- Progress of the chip at one event. -/
structure Snapshot where
  /-- Instructions completed since power-on. -/
  instructionCounter : Nat
  origin : Origin
  opcode : OpcodeBytes
  /-- The instruction, once its opcode is decoded. -/
  instruction : Option Instruction
  /-- Position of the current cycle in the timing. -/
  cycleIndex : Nat
  /-- Kind of the current cycle, while the chip runs. -/
  cycleKind : Option CycleKind
  /-- Whole periods spent in the current cycle, waits included. -/
  cycleTStates : Nat
  /-- Number of the last half-period within the cycle. -/
  halfTState : Nat
  /-- Wait periods put into the current cycle. -/
  waitStates : Nat
  /-- Whole periods since power-on. -/
  tStates : Nat
  /-- Clock edges since power-on. -/
  halfTStates : Nat
  halted : Bool
  busReleased : Bool
  inReset : Bool
deriving DecidableEq, Repr

namespace Snapshot

/-- The address of the current instruction, if it comes from memory. -/
def address? (s : Snapshot) : Option Word :=
  match s.origin with
  | .memory address => some address
  | _ => none

/-- The instruction as text; a dash while there is none. -/
def instructionText (s : Snapshot) : String :=
  match s.instruction with
  | some code => code.render
  | none => "-"

/-- The tag of the current cycle; a dash when the chip is not running. -/
def cycleText (s : Snapshot) : String :=
  match s.cycleKind with
  | some kind => kind.tag
  | none => "-"

/-- The letters of the flags that hold: halted, bus released, in reset; a dash when none does. -/
def flagText (s : Snapshot) : String :=
  let letters := (if s.halted then "H" else "") ++ (if s.busReleased then "B" else "")
    ++ (if s.inReset then "R" else "")
  if letters = "" then "-" else letters

/-- The whole snapshot on one line. -/
def render (s : Snapshot) : String :=
  let opcode := if s.opcode.toList = [] then "-" else hexBytes s.opcode.toList
  " ".intercalate
    ["n=" ++ toString s.instructionCounter, "from=" ++ s.origin.render, "op=" ++ opcode,
      "cy=" ++ s.cycleText ++ "#" ++ toString s.cycleIndex, "ct=" ++ toString s.cycleTStates,
      "h=" ++ toString s.halfTState, "w=" ++ toString s.waitStates, "t=" ++ toString s.tStates,
      "ht=" ++ toString s.halfTStates, "flags=" ++ s.flagText, "ins=" ++ s.instructionText]

end Snapshot

end Z80Board
