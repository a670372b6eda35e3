import Z80Board.Watch.ExitCondition

/-! # Observers and exit conditions

    Whoever wants to follow the chip registers here: observers, which are told every event they
    subscribe to, and exit conditions, which are asked.  Both are served in the order of
    registration, and one counter numbers them all.  What observers are told is kept as a log of
    notices until somebody drains it.

    The first condition that is met is held until it is taken; until then no other one is looked
    at.  The unions of all subscriptions are kept beside the lists, so that an event nobody wants
    costs no more than a look at them. -/

namespace Z80Board

/-- The number under which an observer is registered. -/
structure ObserverId where
  number : Nat
deriving DecidableEq, Repr

/-- An observer: its number and the events it is told. -/
structure Subscription where
  id : ObserverId
  events : EventSet
deriving DecidableEq, Repr

/-- One event as one observer was told it. -/
structure Notice where
  observer : ObserverId
  event : Event
  state : Snapshot
deriving DecidableEq, Repr

/-- The machine cycles that notices tell of: the kind and length of each, and a stroke after each
    instruction. -/
def cycleTrace (notices : List Notice) : String :=
  let line := String.join (notices.map fun n =>
    match n.event with
    | .cycleEnd => n.state.cycleText ++ toString n.state.cycleTStates ++ " "
    | .instructionEnd => "/"
    | _ => "")
  String.ofList ((line.toList.reverse.dropWhile fun c => c = ' ').reverse)

/-- Everyone who follows one chip. -/
structure Hooks where
  observers : List Subscription := []
  conditions : List (ConditionId × ExitCondition) := []
  /-- The events some observer subscribes to. -/
  observed : EventSet := {}
  /-- The events some condition subscribes to. -/
  watched : EventSet := {}
  /-- The stop that has not been taken yet. -/
  tripped : Option StopReason := none
  /-- The last number given out. -/
  lastId : Nat := 0
  /-- What observers were told and nobody has drained yet, latest last. -/
  notices : Array Notice := #[]

namespace Hooks

/-- Nobody follows the chip. -/
def empty : Hooks := {}

/-! ## Registration -/

/-- Register an observer under the next number. -/
def observe (hooks : Hooks) (events : EventSet) : Hooks × ObserverId :=
  let id : ObserverId := ⟨hooks.lastId + 1⟩
  ({ hooks with
      observers := hooks.observers ++ [⟨id, events⟩]
      observed := hooks.observed.union events
      lastId := hooks.lastId + 1 },
    id)

/-- The events of some observers together. -/
def unionOfObservers (observers : List Subscription) : EventSet :=
  observers.foldl (fun set o => set.union o.events) .empty

/-- The events of some conditions together. -/
def unionOfConditions (conditions : List (ConditionId × ExitCondition)) : EventSet :=
  conditions.foldl (fun set c => set.union c.2.events) .empty

/-- Remove an observer; tells whether it was registered. -/
def removeObserver (hooks : Hooks) (id : ObserverId) : Hooks × Bool :=
  let kept := hooks.observers.filter fun o => o.id ≠ id
  ({ hooks with observers := kept, observed := unionOfObservers kept },
    kept.length != hooks.observers.length)

/-- Register a condition under the next number. -/
def addExitCondition (hooks : Hooks) (condition : ExitCondition) : Hooks × ConditionId :=
  let id : ConditionId := ⟨hooks.lastId + 1⟩
  ({ hooks with
      conditions := hooks.conditions ++ [(id, condition)]
      watched := hooks.watched.union condition.events
      lastId := hooks.lastId + 1 },
    id)

/-- Remove a condition; tells whether it was registered. -/
def removeExitCondition (hooks : Hooks) (id : ConditionId) : Hooks × Bool :=
  let kept := hooks.conditions.filter fun c => c.1 ≠ id
  ({ hooks with conditions := kept, watched := unionOfConditions kept },
    kept.length != hooks.conditions.length)

/-- How many conditions are registered. -/
def exitConditionCount (hooks : Hooks) : Nat :=
  hooks.conditions.length

/-! ## Delivery -/

/-- Somebody subscribes to the event. -/
def wants (hooks : Hooks) (event : Event) : Bool :=
  (hooks.observed.union hooks.watched).contains event

/-- What the observers are told of an event. -/
def noticesOf (hooks : Hooks) (s : Snapshot) (event : Event) : List Notice :=
  if hooks.observed.contains event then
    (hooks.observers.filter fun o => o.events.contains event).map fun o => ⟨o.id, event, s⟩
  else []

/-- The stop that an event brings about, if no other one is held. -/
def stopAt (hooks : Hooks) (s : Snapshot) (event : Event) : Option StopReason :=
  if hooks.watched.contains event then
    (hooks.conditions.find? fun c => c.2.events.contains event && c.2.isMet s event).map fun c =>
      ⟨c.1, event, s⟩
  else none

/-- Tell the observers of an event, then ask the conditions. -/
def dispatch (hooks : Hooks) (s : Snapshot) (event : Event) : Hooks :=
  let told := hooks.noticesOf s event
  let tripped := hooks.tripped <|> hooks.stopAt s event
  { hooks with notices := hooks.notices ++ told, tripped }

/-- A condition has been met and not been taken yet. -/
def isStopping (hooks : Hooks) : Bool :=
  hooks.tripped.isSome

/-- Take the stop that is held. -/
def takeStop (hooks : Hooks) : Hooks × Option StopReason :=
  ({ hooks with tripped := none }, hooks.tripped)

/-- Take the notices that have piled up. -/
def drainNotices (hooks : Hooks) : Hooks × Array Notice :=
  ({ hooks with notices := #[] }, hooks.notices)

end Hooks

end Z80Board
