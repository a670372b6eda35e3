import Z80Board.Watch.Event
import Z80Board.Watch.Snapshot

/-! # Exit conditions

    A condition says at which events it is to be asked, and whether a snapshot meets it.  Asking
    changes nothing. -/

namespace Z80Board

/-- A reason to stop. -/
inductive ExitCondition where
  /-- An instruction fetched from this address is about to start. -/
  | addressReached (address : Word)
  /-- This many instructions have completed since power-on. -/
  | instructionCountReached (count : Nat)
  /-- This many whole periods have passed since power-on. -/
  | tStatesElapsed (count : Nat)
  /-- The chip has halted. -/
  | halted
  /-- Anything else that an event and a snapshot decide. -/
  | predicate (events : EventSet) (test : Snapshot → Event → Bool)

namespace ExitCondition

/-- The events at which the condition is asked. -/
def events : ExitCondition → EventSet
  | .addressReached _ => .single .instructionStart
  | .instructionCountReached _ => .single .instructionEnd
  | .tStatesElapsed _ => .single .halfTState
  | .halted => .single .instructionStart
  | .predicate events _ => events

/-- The snapshot meets the condition.  A number of periods is compared as a number of edges, which
    stops doubling at the largest count. -/
def isMet : ExitCondition → Snapshot → Event → Bool
  | .addressReached address, s, _ => s.address? == some address
  | .instructionCountReached count, s, _ => s.instructionCounter ≥ count
  | .tStatesElapsed count, s, _ => s.halfTStates ≥ min (2 * count) maxCount
  | .halted, s, _ => s.halted
  | .predicate _ test, s, e => test s e

/-- Short text for the condition. -/
def describe : ExitCondition → String
  | .addressReached address => "address " ++ address.hex
  | .instructionCountReached count => toString count ++ " instructions"
  | .tStatesElapsed count => toString count ++ "T"
  | .halted => "halted"
  | .predicate _ _ => "custom condition"

end ExitCondition

/-- The number under which a condition is registered. -/
structure ConditionId where
  number : Nat
deriving DecidableEq, Repr

/-- A hash sign and the number. -/
def ConditionId.render (id : ConditionId) : String :=
  "#" ++ toString id.number

/-- Why stepping stopped: the condition, and the event and snapshot that met it. -/
structure StopReason where
  condition : ConditionId
  event : Event
  state : Snapshot
deriving DecidableEq, Repr

end Z80Board
