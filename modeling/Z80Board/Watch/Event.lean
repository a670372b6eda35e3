/-! # Lifecycle events

    The points of an edge that somebody can listen to, and sets of them. -/

namespace Z80Board

/-- A point in the progress of the chip. -/
inductive Event where
  /-- The end of every clock edge. -/
  | halfTState
  | cycleStart
  | cycleEnd
  | instructionStart
  | instructionEnd
deriving DecidableEq, Repr

namespace Event

/-- Every event. -/
def all : List Event :=
  [.halfTState, .cycleStart, .cycleEnd, .instructionStart, .instructionEnd]

/-- The name in traces. -/
def name : Event → String
  | .halfTState => "HalfTState"
  | .cycleStart => "CycleStart"
  | .cycleEnd => "CycleEnd"
  | .instructionStart => "InstructionStart"
  | .instructionEnd => "InstructionEnd"

/-- The bit that stands for the event in a set written as a number. -/
def bit : Event → Nat
  | .halfTState => 1
  | .cycleStart => 2
  | .cycleEnd => 4
  | .instructionStart => 8
  | .instructionEnd => 16

end Event

/-- A set of events. -/
structure EventSet where
  halfTState : Bool := false
  cycleStart : Bool := false
  cycleEnd : Bool := false
  instructionStart : Bool := false
  instructionEnd : Bool := false
deriving DecidableEq, Repr

namespace EventSet

/-- The set without events. -/
def empty : EventSet := {}

/-- The event is in the set. -/
def contains (events : EventSet) : Event → Bool
  | .halfTState => events.halfTState
  | .cycleStart => events.cycleStart
  | .cycleEnd => events.cycleEnd
  | .instructionStart => events.instructionStart
  | .instructionEnd => events.instructionEnd

/-- The events of either set. -/
def union (s t : EventSet) : EventSet :=
  { halfTState := s.halfTState || t.halfTState
    cycleStart := s.cycleStart || t.cycleStart
    cycleEnd := s.cycleEnd || t.cycleEnd
    instructionStart := s.instructionStart || t.instructionStart
    instructionEnd := s.instructionEnd || t.instructionEnd }

/-- The set of one event. -/
def single : Event → EventSet
  | .halfTState => { halfTState := true }
  | .cycleStart => { cycleStart := true }
  | .cycleEnd => { cycleEnd := true }
  | .instructionStart => { instructionStart := true }
  | .instructionEnd => { instructionEnd := true }

/-- The set of the listed events. -/
def ofList (events : List Event) : EventSet :=
  events.foldl (fun set event => set.union (single event)) empty

/-- The events of the set in order. -/
def toList (events : EventSet) : List Event :=
  Event.all.filter events.contains

/-- No event is in the empty set. -/
@[simp] theorem contains_empty (e : Event) : empty.contains e = false := by
  cases e <;> rfl

/-- An event is in a union when it is in one of its parts. -/
@[simp] theorem contains_union (s t : EventSet) (e : Event) :
    (s.union t).contains e = (s.contains e || t.contains e) := by
  cases e <;> rfl

/-- A set of one event holds that event alone. -/
@[simp] theorem contains_single (d e : Event) : (single d).contains e = decide (d = e) := by
  cases d <;> cases e <;> rfl

end EventSet

end Z80Board
