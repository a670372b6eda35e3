import Mathlib.Data.List.Induction
import Z80Board.Proofs.Rig.Breakpoints

/-! # The books of those who follow a chip

    Hooks are called in any order: observers and conditions come and go, events are dispatched, and
    stops are taken.  Whatever the calls, what the hooks hold is what the calls say.  An entry is
    registered if a call has entered it and none has undone that since.  Numbers are given out one
    after the other, so they tell who has come first.  The unions of subscriptions that stand beside
    the lists are those of the entries, and the stop that is held is of the first condition met at the
    earliest dispatch, since a stop was last taken, at which any was. -/

namespace Z80Board

/-- What can be called on hooks. -/
inductive HookCall where
  | observe (events : EventSet)
  | removeObserver (id : ObserverId)
  | addExitCondition (condition : ExitCondition)
  | removeExitCondition (id : ConditionId)
  | dispatch (s : Snapshot) (event : Event)
  | takeStop

namespace HookCall

/-- The call enters somebody. -/
def enters : HookCall → Bool
  | .observe _ | .addExitCondition _ => true
  | _ => false

/-- The call undoes the entry that another one has made under this number. -/
def Undoes : HookCall → HookCall → Nat → Prop
  | .removeObserver id, .observe _, number => id.number = number
  | .removeExitCondition id, .addExitCondition _, number => id.number = number
  | _, _, _ => False

end HookCall

open HookCall in
/-- How many have been entered. -/
def entries (calls : List HookCall) : Nat :=
  calls.countP enters

/-- The call has made an entry under this number, which has not been undone. -/
def Registered (calls : List HookCall) (call : HookCall) (number : Nat) : Prop :=
  ∃ before after, calls = before ++ call :: after ∧ call.enters = true
    ∧ number = entries before + 1 ∧ ∀ undo ∈ after, ¬ undo.Undoes call number

/-- The event has been dispatched after the first calls, and no stop has been taken since. -/
def DispatchedSince (calls first : List HookCall) (s : Snapshot) (event : Event) : Prop :=
  ∃ after, calls = first ++ .dispatch s event :: after ∧ .takeStop ∉ after

/-- No registered condition has been met since a stop was last taken. -/
def Untripped (calls : List HookCall) : Prop :=
  ∀ first s event, DispatchedSince calls first s event →
    ∀ condition number, Registered first (.addExitCondition condition) number →
      ¬ Hooks.Meets condition s event

/-- Of the registered conditions this one has been entered first among those that are met. -/
def FirstMet (calls : List HookCall) (s : Snapshot) (event : Event) (number : Nat) : Prop :=
  (∃ condition, Registered calls (.addExitCondition condition) number
      ∧ Hooks.Meets condition s event)
    ∧ ∀ condition other, Registered calls (.addExitCondition condition) other →
      Hooks.Meets condition s event → number ≤ other

/-- The stop is that of the first condition met, at the earliest dispatch, since a stop was last taken,
    at which any was. -/
def Holds (calls : List HookCall) (stop : StopReason) : Prop :=
  ∃ first, DispatchedSince calls first stop.state stop.event ∧ Untripped first
    ∧ FirstMet first stop.state stop.event stop.condition.number

/-! ## One more call -/

section OneMoreCall

variable {calls first : List HookCall} {call entry : HookCall} {number : Nat} {s : Snapshot}
  {event : Event} {stop : StopReason}

theorem entries_append (calls : List HookCall) (call : HookCall) :
    entries (calls ++ [call]) = entries calls + if call.enters then 1 else 0 := by
  rw [entries, List.countP_append, List.countP_singleton]
  rfl

/-- A call stands among one more if it is the last one, or has stood among them before. -/
theorem append_eq_iff (after : List HookCall) :
    calls ++ [call] = first ++ entry :: after ↔
      (after = [] ∧ first = calls ∧ entry = call)
        ∨ ∃ after', after = after' ++ [call] ∧ calls = first ++ entry :: after' := by
  constructor
  · intro hsplit
    rcases List.eq_nil_or_concat after with rfl | ⟨after', last, rfl⟩
    · obtain ⟨hfirst, hlast⟩ := List.append_inj' hsplit rfl
      exact Or.inl ⟨rfl, hfirst.symm, (List.singleton_inj.mp hlast).symm⟩
    · rw [List.concat_eq_append, ← List.cons_append, ← List.append_assoc] at hsplit
      obtain ⟨hfirst, hlast⟩ := List.append_inj' hsplit rfl
      obtain rfl := List.singleton_inj.mp hlast
      exact Or.inr ⟨after', List.concat_eq_append, hfirst⟩
  · rintro (⟨rfl, rfl, rfl⟩ | ⟨after', rfl, rfl⟩)
    · rfl
    · rw [List.append_assoc, List.cons_append]

/-- An entry stays unless the call undoes it, and a call that enters somebody makes a new one. -/
theorem registered_append : Registered (calls ++ [call]) entry number ↔
    (Registered calls entry number ∧ ¬ call.Undoes entry number)
      ∨ entry = call ∧ call.enters = true ∧ number = entries calls + 1 := by
  constructor
  · rintro ⟨before, after, hsplit, henters, hnumber, hkept⟩
    rcases (append_eq_iff after).mp hsplit with ⟨rfl, rfl, rfl⟩ | ⟨after', rfl, rfl⟩
    · exact Or.inr ⟨rfl, henters, hnumber⟩
    · refine Or.inl ⟨⟨before, after', rfl, henters, hnumber, fun undo hundo => ?_⟩, ?_⟩
      · exact hkept undo (List.mem_append_left _ hundo)
      · exact hkept call (List.mem_append_right _ (List.mem_singleton.mpr rfl))
  · rintro (⟨⟨before, after, rfl, henters, hnumber, hkept⟩, hstays⟩ | ⟨rfl, henters, hnumber⟩)
    · refine ⟨before, after ++ [call], by rw [List.append_assoc, List.cons_append], henters, hnumber,
        fun undo hundo => ?_⟩
      rcases List.mem_append.mp hundo with hundo | hundo
      · exact hkept undo hundo
      · rw [List.mem_singleton.mp hundo]
        exact hstays
    · exact ⟨calls, [], rfl, henters, hnumber, fun _ h => absurd h List.not_mem_nil⟩

/-- Numbers that are registered have been given out. -/
theorem Registered.le_entries (h : Registered calls entry number) : number ≤ entries calls := by
  obtain ⟨before, after, rfl, henters, rfl, -⟩ := h
  rw [entries, entries, List.countP_append, List.countP_cons, if_pos henters]
  omega

/-- Unless it takes a stop, one more call leaves what has been dispatched, and may dispatch
    something. -/
theorem dispatchedSince_append : DispatchedSince (calls ++ [call]) first s event ↔
    (DispatchedSince calls first s event ∧ call ≠ .takeStop)
      ∨ first = calls ∧ call = .dispatch s event := by
  constructor
  · rintro ⟨after, hsplit, hnone⟩
    rcases (append_eq_iff after).mp hsplit with ⟨rfl, rfl, rfl⟩ | ⟨after', rfl, rfl⟩
    · exact Or.inr ⟨rfl, rfl⟩
    · refine Or.inl ⟨⟨after', rfl, fun htaken => ?_⟩, fun htakes => ?_⟩
      · exact hnone (List.mem_append_left _ htaken)
      · exact hnone (List.mem_append_right _ (List.mem_singleton.mpr htakes.symm))
  · rintro (⟨⟨after, rfl, hnone⟩, hother⟩ | ⟨rfl, rfl⟩)
    · refine ⟨after ++ [call], by rw [List.append_assoc, List.cons_append], fun htaken => ?_⟩
      rcases List.mem_append.mp htaken with htaken | htaken
      · exact hnone htaken
      · exact hother (List.mem_singleton.mp htaken).symm
    · exact ⟨[], rfl, List.not_mem_nil⟩

/-- When a stop has just been taken, nothing has been dispatched since. -/
theorem not_dispatchedSince_takeStop : ¬ DispatchedSince (calls ++ [.takeStop]) first s event := by
  rw [dispatchedSince_append]
  rintro (⟨-, hother⟩ | ⟨-, hcall⟩)
  · exact hother rfl
  · cases hcall

/-- A call that neither dispatches nor takes a stop leaves what has been dispatched. -/
theorem dispatchedSince_other (hstop : call ≠ .takeStop)
    (hdispatch : ∀ s event, call ≠ .dispatch s event) :
    DispatchedSince (calls ++ [call]) first s event ↔ DispatchedSince calls first s event := by
  rw [dispatchedSince_append]
  exact ⟨fun h => h.elim And.left fun ⟨_, hcall⟩ => absurd hcall (hdispatch s event),
    fun h => Or.inl ⟨h, hstop⟩⟩

/-- A dispatch goes behind the earlier ones. -/
theorem dispatchedSince_dispatch {s' : Snapshot} {event' : Event} :
    DispatchedSince (calls ++ [.dispatch s event]) first s' event' ↔
      DispatchedSince calls first s' event' ∨ first = calls ∧ s = s' ∧ event = event' := by
  rw [dispatchedSince_append]
  refine or_congr (and_iff_left nofun) (and_congr_right fun _ => ?_)
  rw [HookCall.dispatch.injEq]

/-- After a dispatch nothing has tripped if nothing had before, and nothing is met. -/
theorem untripped_dispatch : Untripped (calls ++ [.dispatch s event]) ↔
    Untripped calls ∧ ∀ condition number, Registered calls (.addExitCondition condition) number →
      ¬ Hooks.Meets condition s event := by
  constructor
  · intro h
    refine ⟨fun first s' event' hsince => h first s' event' ?_, h calls s event ?_⟩
    · exact dispatchedSince_dispatch.mpr (Or.inl hsince)
    · exact dispatchedSince_dispatch.mpr (Or.inr ⟨rfl, rfl, rfl⟩)
  · rintro ⟨hbefore, hnow⟩ first s' event' hsince
    rcases dispatchedSince_dispatch.mp hsince with hsince | ⟨rfl, rfl, rfl⟩
    · exact hbefore first s' event' hsince
    · exact hnow

/-- After a dispatch the stop is the one that was held before, or, if nothing had tripped, that of the
    first condition which is met now. -/
theorem holds_dispatch : Holds (calls ++ [.dispatch s event]) stop ↔
    Holds calls stop ∨ Untripped calls ∧ s = stop.state ∧ event = stop.event
      ∧ FirstMet calls s event stop.condition.number := by
  constructor
  · rintro ⟨first, hsince, huntripped, hfirst⟩
    rcases dispatchedSince_dispatch.mp hsince with hsince | ⟨rfl, rfl, rfl⟩
    · exact Or.inl ⟨first, hsince, huntripped, hfirst⟩
    · exact Or.inr ⟨huntripped, rfl, rfl, hfirst⟩
  · rintro (⟨first, hsince, huntripped, hfirst⟩ | ⟨huntripped, rfl, rfl, hfirst⟩)
    · exact ⟨first, dispatchedSince_dispatch.mpr (Or.inl hsince), huntripped, hfirst⟩
    · exact ⟨calls, dispatchedSince_dispatch.mpr (Or.inr ⟨rfl, rfl, rfl⟩), huntripped, hfirst⟩

end OneMoreCall

namespace Hooks

variable {hooks : Hooks} {calls : List HookCall} {s : Snapshot} {event : Event}

/-- The hooks after a call, and the number that it gives out, if it enters somebody. -/
def call (hooks : Hooks) : HookCall → Hooks × Option Nat
  | .observe events => ((hooks.observe events).1, some (hooks.observe events).2.number)
  | .removeObserver id => ((hooks.removeObserver id).1, none)
  | .addExitCondition condition =>
    ((hooks.addExitCondition condition).1, some (hooks.addExitCondition condition).2.number)
  | .removeExitCondition id => ((hooks.removeExitCondition id).1, none)
  | .dispatch s event => (hooks.dispatch s event, none)
  | .takeStop => (hooks.takeStop.1, none)

/-- The hooks after some calls. -/
def after (hooks : Hooks) (calls : List HookCall) : Hooks :=
  calls.foldl (fun hooks c => (hooks.call c).1) hooks

/-- The numbers that the calls give out, in order. -/
def numbers (hooks : Hooks) : List HookCall → List Nat
  | [] => []
  | c :: rest => (hooks.call c).2.toList ++ (hooks.call c).1.numbers rest

theorem after_append (hooks : Hooks) (calls : List HookCall) (c : HookCall) :
    hooks.after (calls ++ [c]) = ((hooks.after calls).call c).1 :=
  List.foldl_append

/-- Numbers are given out one after the other. -/
theorem numbers_eq (hooks : Hooks) (calls : List HookCall) :
    hooks.numbers calls = List.range' (hooks.lastId + 1) (entries calls) := by
  induction calls generalizing hooks with
  | nil => rfl
  | cons c rest ih =>
    rw [numbers, ih, entries, entries, List.countP_cons]
    cases c with
    | observe | addExitCondition => rfl
    | removeObserver | removeExitCondition | dispatch | takeStop => rfl

/-! ## The unions beside the lists -/

/-- What is observed and watched are the events that somebody subscribes to. -/
structure Exact (hooks : Hooks) : Prop where
  observed : ∀ event, hooks.observed.contains event = hooks.observers.any fun o =>
    o.events.contains event
  watched : ∀ event, hooks.watched.contains event = hooks.conditions.any fun c =>
    c.2.events.contains event

theorem exact_empty : ({} : Hooks).Exact :=
  ⟨fun event => EventSet.contains_empty event, fun event => EventSet.contains_empty event⟩

theorem Exact.call (h : hooks.Exact) (c : HookCall) : (hooks.call c).1.Exact := by
  cases c with
  | observe events =>
    refine ⟨fun event => ?_, h.watched⟩
    show (hooks.observed.union events).contains event = (hooks.observers ++ [_]).any _
    rw [EventSet.contains_union, h.observed, List.any_append, List.any_cons, List.any_nil,
      Bool.or_false]
  | addExitCondition condition =>
    refine ⟨h.observed, fun event => ?_⟩
    show (hooks.watched.union condition.events).contains event = (hooks.conditions ++ [_]).any _
    rw [EventSet.contains_union, h.watched, List.any_append, List.any_cons, List.any_nil,
      Bool.or_false]
  | removeObserver id => exact ⟨contains_unionOfObservers _, h.watched⟩
  | removeExitCondition id => exact ⟨h.observed, contains_unionOfConditions _⟩
  | dispatch | takeStop => exact ⟨h.observed, h.watched⟩

/-- Somebody who follows the chip subscribes to what is wanted. -/
theorem Exact.wants_iff (h : hooks.Exact) : hooks.wants event = true ↔
    (∃ o ∈ hooks.observers, o.events.contains event = true)
      ∨ ∃ c ∈ hooks.conditions, c.2.events.contains event = true := by
  rw [wants, EventSet.contains_union, h.observed, h.watched, Bool.or_eq_true, List.any_eq_true,
    List.any_eq_true]

/-- Observers who subscribe to the event are told. -/
theorem Exact.noticesOf_eq (h : hooks.Exact) : hooks.noticesOf s event =
    (hooks.observers.filter fun o => o.events.contains event).map fun o => ⟨o.id, event, s⟩ := by
  rw [noticesOf]
  split
  · rfl
  · next hnone =>
    rw [h.observed, Bool.not_eq_true, List.any_eq_false] at hnone
    rw [List.filter_eq_nil_iff.mpr hnone]
    rfl

/-- Of the conditions that subscribe to the event, the first one that is met stops. -/
theorem Exact.stopAt_eq (h : hooks.Exact) : hooks.stopAt s event =
    (hooks.conditions.find? fun c => c.2.events.contains event && c.2.isMet s event).map fun c =>
      ⟨c.1, event, s⟩ := by
  rw [stopAt]
  split
  · rfl
  · next hnone =>
    rw [h.watched, Bool.not_eq_true, List.any_eq_false] at hnone
    rw [List.find?_eq_none.mpr fun c hc => ?_]
    · rfl
    · rw [Bool.and_eq_true]
      exact fun hmeets => hnone c hc hmeets.1

/-- Nothing happens when nobody wants the event. -/
theorem dispatch_unwanted (hnone : hooks.wants event = false) :
    hooks.dispatch s event = hooks := by
  rw [wants, EventSet.contains_union, Bool.or_eq_false_iff] at hnone
  have hstop : hooks.stopAt s event = none := if_neg (Bool.eq_false_iff.mp hnone.2)
  have hnotices : hooks.noticesOf s event = [] := if_neg (Bool.eq_false_iff.mp hnone.1)
  have hheld : (hooks.tripped <|> none) = hooks.tripped := by cases hooks.tripped <;> rfl
  rw [dispatch, hstop, hnotices, hheld]
  exact congrArg (fun notices => { hooks with notices }) (Array.appendList_nil ..)

/-! ## The books -/

/-- A list holds the registered entries of one sort, in the order of their numbers. -/
structure Lists {Entry : Type} (calls : List HookCall) (entry : Entry → HookCall)
    (number : Entry → Nat) (list : List Entry) : Prop where
  mem_iff : ∀ x, x ∈ list ↔ Registered calls (entry x) (number x)
  rising : list.Pairwise fun x y => number x < number y

namespace Lists

variable {Entry : Type} {entry : Entry → HookCall} {number : Entry → Nat} {list : List Entry}
  {c : HookCall}

theorem empty : Lists [] entry number [] := by
  refine ⟨fun x => ⟨fun h => absurd h List.not_mem_nil, ?_⟩, .nil⟩
  rintro ⟨before, after, hsplit, -⟩
  cases before <;> cases hsplit

/-- A call that enters another entry puts it behind the others. -/
theorem enters (h : Lists calls entry number list) (new : Entry)
    (hundoes : ∀ x, ¬ c.Undoes (entry x) (number x)) (henters : c.enters = true)
    (hnew : ∀ x, x = new ↔ entry x = c ∧ number x = entries calls + 1) :
    Lists (calls ++ [c]) entry number (list ++ [new]) := by
  refine ⟨fun x => ?_, ?_⟩
  · rw [List.mem_append, List.mem_singleton, registered_append, h.mem_iff, hnew]
    exact or_congr (and_iff_left (hundoes x)).symm
      (and_congr_right fun _ => (and_iff_right henters).symm)
  · refine List.pairwise_append.mpr ⟨h.rising, List.pairwise_singleton _ _, fun x hx y hy => ?_⟩
    rw [List.mem_singleton.mp hy, ((hnew new).mp rfl).2]
    exact Nat.lt_succ_of_le ((h.mem_iff x).mp hx).le_entries

/-- A call that undoes some entries leaves the others. -/
theorem leaves (h : Lists calls entry number list) (keeps : Entry → Bool)
    (hkeeps : ∀ x, keeps x = true ↔ ¬ c.Undoes (entry x) (number x)) (hother : ∀ x, entry x ≠ c) :
    Lists (calls ++ [c]) entry number (list.filter keeps) := by
  refine ⟨fun x => ?_, h.rising.filter _⟩
  rw [registered_append, List.mem_filter, h.mem_iff, hkeeps]
  exact ⟨Or.inl, fun h => h.resolve_right fun h => absurd h.1 (hother x)⟩

/-- Any other call leaves them all. -/
theorem stays (h : Lists calls entry number list) (hundoes : ∀ x, ¬ c.Undoes (entry x) (number x))
    (hother : ∀ x, entry x ≠ c) : Lists (calls ++ [c]) entry number list := by
  have hall := h.leaves (c := c) (fun _ => true) (fun x => ⟨fun _ => hundoes x, fun _ => rfl⟩) hother
  rw [List.filter_eq_self.mpr fun _ _ => rfl] at hall
  exact hall

end Lists

/-- The call that has entered an observer. -/
def observing (o : Subscription) : HookCall :=
  .observe o.events

/-- The call that has entered a condition. -/
def watching (c : ConditionId × ExitCondition) : HookCall :=
  .addExitCondition c.2

/-- What the hooks hold is what the calls say. -/
structure Accounts (calls : List HookCall) (hooks : Hooks) : Prop where
  given : hooks.lastId = entries calls
  exact : hooks.Exact
  observers : Lists calls observing (fun o => o.id.number) hooks.observers
  conditions : Lists calls watching (fun c => c.1.number) hooks.conditions
  free : hooks.tripped = none ↔ Untripped calls
  held : ∀ stop, hooks.tripped = some stop ↔ Holds calls stop

theorem accounts_empty : ({} : Hooks).Accounts [] := by
  refine ⟨rfl, exact_empty, .empty, .empty, ⟨fun _ first s event h => ?_, fun _ => rfl⟩,
    fun stop => ⟨nofun, ?_⟩⟩
  · obtain ⟨after, hsplit, -⟩ := h
    cases first <;> cases hsplit
  · rintro ⟨first, ⟨after, hsplit, -⟩, -⟩
    cases first <;> cases hsplit

namespace Accounts

variable {c : HookCall}

/-- The first condition that is met at an event is the one whose stop it brings about. -/
theorem stopAt_iff (h : hooks.Accounts calls) (stop : StopReason) :
    hooks.stopAt s event = some stop ↔
      s = stop.state ∧ event = stop.event ∧ FirstMet calls s event stop.condition.number := by
  rw [h.exact.stopAt_eq, Option.map_eq_some_iff]
  simp only [find?_eq_some_iff_least h.conditions.rising, Bool.and_eq_true]
  constructor
  · rintro ⟨c, ⟨hmem, hmeets, hleast⟩, rfl⟩
    refine ⟨rfl, rfl, ⟨c.2, (h.conditions.mem_iff c).mp hmem, hmeets⟩,
      fun condition other hother hmet => ?_⟩
    exact hleast (⟨other⟩, condition) ((h.conditions.mem_iff (⟨other⟩, condition)).mpr hother) hmet
  · rintro ⟨rfl, rfl, ⟨condition, hregistered, hmeets⟩, hleast⟩
    refine ⟨(stop.condition, condition),
      ⟨(h.conditions.mem_iff (stop.condition, condition)).mpr hregistered, hmeets,
        fun d hd hmet => ?_⟩, rfl⟩
    exact hleast d.2 d.1.number ((h.conditions.mem_iff d).mp hd) hmet

/-- Without a condition that is met, an event brings about no stop. -/
theorem stopAt_eq_none (h : hooks.Accounts calls) : hooks.stopAt s event = none ↔
    ∀ condition number, Registered calls (.addExitCondition condition) number →
      ¬ Meets condition s event := by
  rw [h.exact.stopAt_eq, Option.map_eq_none_iff, List.find?_eq_none]
  simp only [Bool.and_eq_true]
  constructor
  · exact fun hnone condition number hregistered =>
      hnone (⟨number⟩, condition) ((h.conditions.mem_iff (⟨number⟩, condition)).mpr hregistered)
  · exact fun hnone c hc => hnone c.2 c.1.number ((h.conditions.mem_iff c).mp hc)

/-- What is held is held still after a call that neither dispatches nor takes a stop. -/
theorem holds_still (h : hooks.Accounts calls) (hstop : c ≠ .takeStop)
    (hdispatch : ∀ s event, c ≠ .dispatch s event) :
    (hooks.tripped = none ↔ Untripped (calls ++ [c]))
      ∧ ∀ stop, hooks.tripped = some stop ↔ Holds (calls ++ [c]) stop := by
  refine ⟨h.free.trans ?_, fun stop => (h.held stop).trans ?_⟩
  · simp only [Untripped, dispatchedSince_other hstop hdispatch]
  · simp only [Holds, dispatchedSince_other hstop hdispatch]

/-- One more call keeps the books. -/
theorem call (h : hooks.Accounts calls) (c : HookCall) :
    (hooks.call c).1.Accounts (calls ++ [c]) := by
  have hexact := h.exact.call c
  have hgiven : (hooks.call c).1.lastId = entries (calls ++ [c]) := by
    rw [entries_append, ← h.given]
    cases c <;> rfl
  cases c with
  | observe events =>
    obtain ⟨hfree, hheld⟩ := h.holds_still (c := .observe events) nofun fun _ _ => nofun
    refine ⟨hgiven, hexact, h.observers.enters _ (fun _ h => h) rfl fun o => ?_,
      h.conditions.stays (fun _ h => h) fun _ => nofun, hfree, hheld⟩
    rw [← h.given]
    refine ⟨fun ho => ho ▸ ⟨rfl, rfl⟩, fun ⟨hevents, hnumber⟩ => ?_⟩
    obtain ⟨⟨number⟩, events'⟩ := o
    cases hevents
    cases hnumber
    rfl
  | addExitCondition condition =>
    obtain ⟨hfree, hheld⟩ := h.holds_still (c := .addExitCondition condition) nofun fun _ _ => nofun
    refine ⟨hgiven, hexact, h.observers.stays (fun _ h => h) fun _ => nofun,
      h.conditions.enters _ (fun _ h => h) rfl fun d => ?_, hfree, hheld⟩
    rw [← h.given]
    refine ⟨fun hd => hd ▸ ⟨rfl, rfl⟩, fun ⟨hsame, hnumber⟩ => ?_⟩
    obtain ⟨⟨number⟩, condition'⟩ := d
    cases hsame
    cases hnumber
    rfl
  | removeObserver id =>
    obtain ⟨hfree, hheld⟩ := h.holds_still (c := .removeObserver id) nofun fun _ _ => nofun
    refine ⟨hgiven, hexact, h.observers.leaves _ (fun o => ?_) fun _ => nofun,
      h.conditions.stays (fun _ h => h) fun _ => nofun, hfree, hheld⟩
    rw [decide_eq_true_eq]
    refine not_congr ⟨fun hsame => congrArg ObserverId.number hsame.symm, fun hsame => ?_⟩
    exact congrArg ObserverId.mk hsame.symm
  | removeExitCondition id =>
    obtain ⟨hfree, hheld⟩ := h.holds_still (c := .removeExitCondition id) nofun fun _ _ => nofun
    refine ⟨hgiven, hexact, h.observers.stays (fun _ h => h) fun _ => nofun,
      h.conditions.leaves _ (fun d => ?_) fun _ => nofun, hfree, hheld⟩
    rw [decide_eq_true_eq]
    refine not_congr ⟨fun hsame => congrArg ConditionId.number hsame.symm, fun hsame => ?_⟩
    exact congrArg ConditionId.mk hsame.symm
  | dispatch s event =>
    refine ⟨hgiven, hexact, h.observers.stays (fun _ h => h) fun _ => nofun,
      h.conditions.stays (fun _ h => h) fun _ => nofun, ?_, fun stop => ?_⟩
    · show (hooks.tripped <|> hooks.stopAt s event) = none ↔ _
      rw [untripped_dispatch, ← h.free, ← h.stopAt_eq_none]
      cases hooks.tripped <;> simp
    · show (hooks.tripped <|> hooks.stopAt s event) = some stop ↔ _
      rw [holds_dispatch, ← h.free, ← h.held, ← h.stopAt_iff]
      cases hooks.tripped <;> simp
  | takeStop =>
    refine ⟨hgiven, hexact, h.observers.stays (fun _ h => h) fun _ => nofun,
      h.conditions.stays (fun _ h => h) fun _ => nofun, ?_, fun stop => ?_⟩
    · exact ⟨fun _ first s event hsince => absurd hsince not_dispatchedSince_takeStop, fun _ => rfl⟩
    · exact ⟨nofun, fun ⟨_, hsince, _⟩ => absurd hsince not_dispatchedSince_takeStop⟩

end Accounts

/-- After any calls the books are kept. -/
theorem accounts_after (calls : List HookCall) : (({} : Hooks).after calls).Accounts calls := by
  induction calls using List.reverseRecOn with
  | nil => exact accounts_empty
  | append_singleton calls c ih =>
    rw [after_append]
    exact ih.call c

/-- A list loses an entry when one of its entries is removed, and then only. -/
theorem length_filter_ne {Entry : Type} (list : List Entry) (keeps : Entry → Bool) :
    ((list.filter keeps).length != list.length) = true ↔ ∃ x ∈ list, keeps x = false := by
  rw [bne_iff_ne, Ne, List.length_filter_eq_length_iff]
  simp only [not_forall, exists_prop, Bool.not_eq_true]

/-- Whatever has been called, the numbers given out differ.  An event is wanted just when somebody who
    is registered subscribes to it, and one that is not wanted changes nothing.  An event is told to
    each observer who is registered for it once, in the order in which they have come.  The stop to be
    taken is that of the first condition met at the earliest dispatch, since a stop was last taken, at
    which any was.  A removal tells whether the number was registered, and removes nobody else. -/
theorem keeps_books (calls : List HookCall) :
    let hooks := ({} : Hooks).after calls
    (({} : Hooks).numbers calls).Nodup
      ∧ (∀ event, hooks.wants event = true ↔
        (∃ events number, Registered calls (.observe events) number ∧ events.contains event = true)
          ∨ ∃ condition number, Registered calls (.addExitCondition condition) number
            ∧ condition.events.contains event = true)
      ∧ (∀ event s, hooks.wants event = false → hooks.dispatch s event = hooks)
      ∧ (∀ event s, ∃ told : List Notice, (hooks.dispatch s event).notices = hooks.notices ++ told
        ∧ told.Pairwise (fun m n => m.observer.number < n.observer.number)
        ∧ ∀ n, n ∈ told ↔ n.event = event ∧ n.state = s
          ∧ ∃ events, Registered calls (.observe events) n.observer.number
            ∧ events.contains event = true)
      ∧ (∀ stop, hooks.takeStop.2 = some stop ↔ Holds calls stop)
      ∧ (∀ id, ((hooks.removeObserver id).2 = true ↔
          ∃ events, Registered calls (.observe events) id.number)
        ∧ (∀ o, o ∈ (hooks.removeObserver id).1.observers ↔
          Registered calls (.observe o.events) o.id.number ∧ o.id ≠ id)
        ∧ (hooks.removeObserver id).1.conditions = hooks.conditions
        ∧ (hooks.removeObserver id).1.tripped = hooks.tripped)
      ∧ (∀ id, ((hooks.removeExitCondition id).2 = true ↔
          ∃ condition, Registered calls (.addExitCondition condition) id.number)
        ∧ (∀ c, c ∈ (hooks.removeExitCondition id).1.conditions ↔
          Registered calls (.addExitCondition c.2) c.1.number ∧ c.1 ≠ id)
        ∧ (hooks.removeExitCondition id).1.observers = hooks.observers
        ∧ (hooks.removeExitCondition id).1.tripped = hooks.tripped) := by
  intro hooks
  have h := accounts_after calls
  have hobservers (o : Subscription) :
      o ∈ hooks.observers ↔ Registered calls (.observe o.events) o.id.number :=
    h.observers.mem_iff o
  have hconditions (c : ConditionId × ExitCondition) :
      c ∈ hooks.conditions ↔ Registered calls (.addExitCondition c.2) c.1.number :=
    h.conditions.mem_iff c
  refine ⟨?_, fun event => ?_, fun event s => dispatch_unwanted, fun event s => ?_, h.held,
    fun id => ⟨?_, fun o => ?_, rfl, rfl⟩, fun id => ⟨?_, fun c => ?_, rfl, rfl⟩⟩
  · rw [numbers_eq]
    exact List.nodup_range'
  · rw [h.exact.wants_iff]
    refine or_congr ⟨fun ⟨o, ho, hevent⟩ => ⟨o.events, o.id.number, (hobservers o).mp ho, hevent⟩, ?_⟩
      ⟨fun ⟨c, hc, hevent⟩ => ⟨c.2, c.1.number, (hconditions c).mp hc, hevent⟩, ?_⟩
    · rintro ⟨events, number, hregistered, hevent⟩
      exact ⟨⟨⟨number⟩, events⟩, (hobservers ⟨⟨number⟩, events⟩).mpr hregistered, hevent⟩
    · rintro ⟨condition, number, hregistered, hevent⟩
      exact ⟨(⟨number⟩, condition), (hconditions (⟨number⟩, condition)).mpr hregistered, hevent⟩
  · refine ⟨hooks.noticesOf s event, rfl, ?_, fun n => ?_⟩
    · rw [h.exact.noticesOf_eq, List.pairwise_map]
      exact h.observers.rising.filter _
    · rw [h.exact.noticesOf_eq, List.mem_map]
      constructor
      · rintro ⟨o, ho, rfl⟩
        obtain ⟨ho, hevent⟩ := List.mem_filter.mp ho
        exact ⟨rfl, rfl, o.events, (hobservers o).mp ho, hevent⟩
      · rintro ⟨rfl, rfl, events, hregistered, hevent⟩
        refine ⟨⟨n.observer, events⟩, List.mem_filter.mpr ⟨?_, hevent⟩, rfl⟩
        exact (hobservers ⟨n.observer, events⟩).mpr hregistered
  · refine (length_filter_ne hooks.observers fun o => o.id ≠ id).trans ?_
    simp only [hobservers, decide_eq_false_iff_not, not_not]
    exact ⟨fun ⟨o, hregistered, hsame⟩ => ⟨o.events, hsame ▸ hregistered⟩,
      fun ⟨events, hregistered⟩ => ⟨⟨id, events⟩, hregistered, rfl⟩⟩
  · show o ∈ hooks.observers.filter (fun o => o.id ≠ id) ↔ _
    rw [List.mem_filter, hobservers, decide_eq_true_eq]
  · refine (length_filter_ne hooks.conditions fun c => c.1 ≠ id).trans ?_
    simp only [hconditions, decide_eq_false_iff_not, not_not]
    exact ⟨fun ⟨c, hregistered, hsame⟩ => ⟨c.2, hsame ▸ hregistered⟩,
      fun ⟨condition, hregistered⟩ => ⟨(id, condition), hregistered, rfl⟩⟩
  · show c ∈ hooks.conditions.filter (fun c => c.1 ≠ id) ↔ _
    rw [List.mem_filter, hconditions, decide_eq_true_eq]

end Hooks

end Z80Board
