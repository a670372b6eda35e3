/-! # Machine cycles and timings

    An instruction is a list of machine cycles, each with a kind and a length in clock periods.  A
    timing is such a list with the total it declares; an instruction that may branch or repeat has
    a second one.  The rules a timing must keep are checked in order, and the first one broken is
    the one reported. -/

namespace Z80Board

/-! ## Machine cycles -/

/-- The kind of bus transaction a machine cycle performs. -/
inductive CycleKind where
  | opcodeFetch
  /-- Read of a one-byte operand at PC. -/
  | operand
  /-- Read of the low byte of a two-byte operand at PC. -/
  | operandLow
  /-- Read of its high byte. -/
  | operandHigh
  /-- Read of a byte at the address latch. -/
  | memoryRead
  | memoryReadLow
  | memoryReadHigh
  /-- Write of a byte at the address latch. -/
  | memoryWrite
  | memoryWriteLow
  | memoryWriteHigh
  /-- Pop of the low byte, which comes first. -/
  | stackReadLow
  | stackReadHigh
  /-- Push of the high byte, which goes first. -/
  | stackWriteHigh
  | stackWriteLow
  | portRead
  | portWrite
  /-- Work inside the chip, with the buses idle. -/
  | internal
deriving DecidableEq, Repr

namespace CycleKind

/-- Every kind. -/
def all : List CycleKind :=
  [.opcodeFetch, .operand, .operandLow, .operandHigh, .memoryRead, .memoryReadLow, .memoryReadHigh,
    .memoryWrite, .memoryWriteLow, .memoryWriteHigh, .stackReadLow, .stackReadHigh,
    .stackWriteHigh, .stackWriteLow, .portRead, .portWrite, .internal]

/-- The short tag of the timing diagrams. -/
def tag : CycleKind → String
  | .opcodeFetch => "OCF"
  | .operand => "OD"
  | .operandLow => "ODL"
  | .operandHigh => "ODH"
  | .memoryRead => "MR"
  | .memoryReadLow => "MRL"
  | .memoryReadHigh => "MRH"
  | .memoryWrite => "MW"
  | .memoryWriteLow => "MWL"
  | .memoryWriteHigh => "MWH"
  | .stackReadLow => "SRL"
  | .stackReadHigh => "SRH"
  | .stackWriteHigh => "SWH"
  | .stackWriteLow => "SWL"
  | .portRead => "PR"
  | .portWrite => "PW"
  | .internal => "CPU"

/-- The cycle that must come right after this one, when it moves the first half of a word. -/
def requiredSuccessor : CycleKind → Option CycleKind
  | .operandLow => some .operandHigh
  | .memoryReadLow => some .memoryReadHigh
  | .memoryWriteLow => some .memoryWriteHigh
  | .stackReadLow => some .stackReadHigh
  | .stackWriteHigh => some .stackWriteLow
  | _ => none

/-- The cycle reads an operand byte of the instruction. -/
def isOperandRead : CycleKind → Bool
  | .operand | .operandLow | .operandHigh => true
  | _ => false

/-- The shortest such a cycle can be.  Fetches and port accesses need a period more. -/
def minimumLength : CycleKind → Nat
  | .opcodeFetch | .portRead | .portWrite => 4
  | _ => 3

end CycleKind

/-- One machine cycle of a timing: its kind, and its length before any wait. -/
structure MachineCycle where
  kind : CycleKind
  tStates : Nat
deriving DecidableEq, Repr

/-- The tag with the length after it. -/
def MachineCycle.render (c : MachineCycle) : String :=
  c.kind.tag ++ toString c.tStates

/-! ## Timings -/

/-- An ordered list of machine cycles with the total it declares. -/
structure Timing where
  cycles : List MachineCycle
  tStates : Nat
deriving DecidableEq, Repr

/-- A rule that a timing breaks. -/
inductive TimingError where
  | empty
  | firstCycleNotFetch (kind : CycleKind)
  | misplacedFetch (position : Nat)
  | unpaired (position : Nat) (kind expected : CycleKind)
  | badDuration (position : Nat) (kind : CycleKind) (tStates : Nat)
  | totalMismatch (declared actual : Nat)
deriving DecidableEq, Repr

/-- What the error says. -/
def TimingError.message : TimingError → String
  | .empty => "timing has no cycles"
  | .firstCycleNotFetch kind => "timing starts with " ++ kind.tag ++ " instead of OCF"
  | .misplacedFetch position =>
    "OCF at position " ++ toString position ++ " does not follow an OD"
  | .unpaired position kind expected =>
    kind.tag ++ " at position " ++ toString position ++ " is not followed by " ++ expected.tag
  | .badDuration position kind tStates =>
    kind.tag ++ " at position " ++ toString position ++ " lasts " ++ toString tStates
      ++ " T-states"
  | .totalMismatch declared actual =>
    "declared " ++ toString declared ++ " T-states but cycles sum to " ++ toString actual

namespace Timing

/-- The cycles separated by blanks, and the declared total. -/
def render (t : Timing) : String :=
  " ".intercalate (t.cycles.map MachineCycle.render) ++ " = " ++ toString t.tStates

/-- Check one cycle, given its position, the kind of the cycle before it and that of the one after
    it.  From the third cycle on, a fetch is the last byte of a displaced opcode and follows the
    displacement. -/
def checkCycle (position : Nat) (previous : CycleKind) (c : MachineCycle) (next : Option CycleKind) :
    Except TimingError Unit :=
  if c.kind = .opcodeFetch ∧ position > 1 ∧ previous ≠ .operand then
    .error (.misplacedFetch position)
  else
    match c.kind.requiredSuccessor.filter (fun expected => next ≠ some expected) with
    | some expected => .error (.unpaired position c.kind expected)
    | none =>
      if c.kind.minimumLength ≤ c.tStates ∧ c.tStates ≤ 6 then .ok ()
      else .error (.badDuration position c.kind c.tStates)

/-- Check the cycles from a position on, given the kind of the cycle before them. -/
def checkFrom (position : Nat) (previous : CycleKind) : List MachineCycle → Except TimingError Unit
  | [] => .ok ()
  | c :: rest =>
    match checkCycle position previous c (rest.head?.map MachineCycle.kind) with
    | .error e => .error e
    | .ok () => checkFrom (position + 1) c.kind rest

/-- Sum of the lengths of the cycles. -/
def sum (cycles : List MachineCycle) : Nat :=
  cycles.foldr (fun c total => c.tStates + total) 0

/-- Check every rule: there are cycles, the first one is a fetch, each one stands where it may and
    lasts as long as it may, and the lengths add up to the declared total. -/
def validate (t : Timing) : Except TimingError Unit :=
  match t.cycles with
  | [] => .error .empty
  | first :: _ =>
    if first.kind ≠ .opcodeFetch then
      .error (.firstCycleNotFetch first.kind)
    else
      match checkFrom 0 first.kind t.cycles with
      | .error e => .error e
      | .ok () =>
        if sum t.cycles ≠ t.tStates then .error (.totalMismatch t.tStates (sum t.cycles)) else .ok ()

end Timing

/-- The timing of one form of an instruction, and the one it takes instead when its branch is taken
    or it repeats. -/
structure Timings where
  primary : Timing
  alternate : Option Timing := none
deriving DecidableEq, Repr

namespace Timings

/-- A timing that is always the same. -/
def fixed (primary : Timing) : Timings :=
  ⟨primary, none⟩

/-- A timing with an alternate. -/
def conditional (primary alternate : Timing) : Timings :=
  ⟨primary, some alternate⟩

/-- The timing to run.  The alternate is taken when there is one and the condition is met. -/
def select (t : Timings) (met : Bool) : Timing :=
  match t.alternate, met with
  | some alternate, true => alternate
  | _, _ => t.primary

/-- The cycles to run. -/
def cycles (t : Timings) (met : Bool) : List MachineCycle :=
  (t.select met).cycles

/-- Check the primary timing, then the alternate. -/
def validate (t : Timings) : Except TimingError Unit :=
  match t.primary.validate, t.alternate with
  | .error e, _ => .error e
  | .ok (), none => .ok ()
  | .ok (), some alternate => alternate.validate

end Timings

end Z80Board
