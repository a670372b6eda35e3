import Z80Board.Proofs.Rig.Blocks
import Z80Board.Proofs.Rig.Chronicle
import Z80Board.Proofs.Rig.Registry

/-! # Steps of an exact length

    To step is to run with one more condition, which is gone afterwards.  That condition looks at a
    count which every edge takes on by one at most, so it trips as soon as the count has come to its
    goal, and not before.  The count of half-periods goes on at every edge, whatever the chip does: a
    step by periods always returns, with the clock low.  The count of instructions goes on when one
    ends, which leaves the next one to be chosen.  A condition of somebody else may trip earlier, and
    the step returns on the first edge on which any does. -/

namespace Z80Board

/-! ## What an edge tells -/

namespace Board

variable {b : Board} {level : Level} {e : Emission}

/-- The end of an instruction is told once, if there is one, and the end of the edge last. -/
theorem emissions_eq (b : Board) (level : Level) :
    ∃ before after, b.emissions level
        = before ++ (b.core.edge level b.inputs).ending ++ after ++ [⟨.halfTState, b.moved level⟩]
      ∧ ∀ e ∈ before ++ after, e.event ≠ .instructionEnd ∧ e.event ≠ .halfTState := by
  obtain ⟨before, htold, hbefore⟩ := b.core.emitted_edge level b.inputs
  obtain ⟨after, hfinish, hafter⟩ : ∃ after,
      ((b.core.edge level b.inputs).finish (b.stops level)).2
        = after ++ [⟨.halfTState, b.moved level⟩]
      ∧ ∀ e ∈ after, e.event ≠ .instructionEnd ∧ e.event ≠ .halfTState := by
    rw [show b.moved level = ((b.core.edge level b.inputs).finish (b.stops level)).1 from rfl,
      Edge.finish]
    split
    · split
      · exact ⟨[], rfl, fun _ he => absurd he List.not_mem_nil⟩
      · refine ⟨[_], rfl, fun e he => ?_⟩
        rw [List.mem_singleton.mp he]
        exact ⟨(fun hsame => by cases hsame), fun hsame => by cases hsame⟩
    · exact ⟨[], rfl, fun _ he => absurd he List.not_mem_nil⟩
  refine ⟨before, after, ?_, fun e he => (List.mem_append.mp he).elim (hbefore e) (hafter e)⟩
  rw [emissions, htold, hfinish, ← List.append_assoc]

theorem mem_emissions (he : e ∈ b.emissions level) :
    (e.event = .instructionEnd →
        (b.core.edge level b.inputs).ended = true ∧ e.core = (b.core.edge level b.inputs).core)
      ∧ (e.event = .halfTState → e.core = b.moved level) := by
  obtain ⟨before, after, htold, hothers⟩ := b.emissions_eq level
  rw [htold] at he
  rcases List.mem_append.mp he with he | he
  · rcases List.mem_append.mp he with he | he
    · rcases List.mem_append.mp he with he | he
      · obtain ⟨hend, hhalf⟩ := hothers e (List.mem_append_left after he)
        exact ⟨fun h => absurd h hend, fun h => absurd h hhalf⟩
      · obtain ⟨hended, rfl⟩ := Edge.of_mem_ending he
        exact ⟨fun _ => ⟨hended, rfl⟩, nofun⟩
    · obtain ⟨hend, hhalf⟩ := hothers e (List.mem_append_right before he)
      exact ⟨fun h => absurd h hend, fun h => absurd h hhalf⟩
  · rw [List.mem_singleton.mp he]
    exact ⟨nofun, fun _ => rfl⟩

theorem halfTState_mem (b : Board) (level : Level) :
    ⟨.halfTState, b.moved level⟩ ∈ b.emissions level := by
  obtain ⟨before, after, htold, -⟩ := b.emissions_eq level
  rw [htold]
  exact List.mem_append_right _ (List.mem_singleton.mpr rfl)

theorem instructionEnd_mem (h : (b.core.edge level b.inputs).ended = true) :
    ⟨.instructionEnd, (b.core.edge level b.inputs).core⟩ ∈ b.emissions level := by
  obtain ⟨before, after, htold, -⟩ := b.emissions_eq level
  rw [htold, Edge.ending, if_pos h]
  simp

/-- As many ends of instructions are told as the chip counts. -/
theorem endings_emissions (b : Board) (level : Level) :
    endings (b.emissions level) = (b.core.edge level b.inputs).ended.toNat := by
  obtain ⟨before, after, htold, hothers⟩ := b.emissions_eq level
  have hnone (told : List Emission) (h : ∀ e ∈ told, e.event ≠ .instructionEnd) :
      endings told = 0 :=
    List.countP_eq_zero.mpr fun e he hend => h e he (eq_of_beq hend)
  have hbefore := hnone before fun e he => (hothers e (List.mem_append_left after he)).1
  have hafter := hnone after fun e he => (hothers e (List.mem_append_right before he)).1
  rw [htold, endings_append, endings_append, endings_append, hbefore, hafter, Edge.ending]
  cases (b.core.edge level b.inputs).ended <;> rfl

/-! ## Conditions that trip -/

/-- One of the conditions is met at something that the edge tells. -/
def Trips (b : Board) (level : Level) (conditions : List (ConditionId × ExitCondition)) : Prop :=
  ∃ e ∈ b.emissions level, ∃ c ∈ conditions, Hooks.Meets c.2 e.core.snapshot e.event

/-- An edge ends with a stop if a condition trips, and then with that of one that does. -/
theorem stop_cases (h : b.processor.hooks.Ranked) (level : Level) :
    ((b.edge level).2 = none ∧ ¬ b.Trips level b.processor.hooks.conditions)
      ∨ ∃ e ∈ b.emissions level, ∃ c ∈ b.processor.hooks.conditions,
        Hooks.Meets c.2 e.core.snapshot e.event
          ∧ (b.edge level).2 = some ⟨c.1, e.event, e.core.snapshot⟩ := by
  rw [stop_edge]
  refine (h.deliverAll (b.emissions level)).imp_left fun ⟨hranked, hnone⟩ => ⟨hranked.free, ?_⟩
  rintro ⟨e, he, c, hc, hmeets⟩
  exact hnone e he c hc hmeets

variable {conditions : List (ConditionId × ExitCondition)} {id : ConditionId} {count : Nat}

/-- A condition on the time trips when an edge has made up its periods. -/
theorem trips_of_time (hown : (id, .tStatesElapsed count) ∈ conditions)
    (htime : min (2 * count) maxCount ≤ b.core.halfTStates + 1) : b.Trips level conditions := by
  refine ⟨_, b.halfTState_mem level, _, hown, rfl, decide_eq_true ?_⟩
  show (b.moved level).halfTStates ≥ _
  rw [(b.counters_moved level).2]
  exact htime

theorem time_of_meets (he : e ∈ b.emissions level)
    (h : Hooks.Meets (.tStatesElapsed count) e.core.snapshot e.event) :
    min (2 * count) maxCount ≤ b.core.halfTStates + 1 := by
  obtain ⟨hevent, hmeets⟩ := h
  rw [ExitCondition.events, EventSet.contains_single] at hevent
  have hcore := (mem_emissions he).2 (of_decide_eq_true hevent).symm
  have htime : min (2 * count) maxCount ≤ e.core.halfTStates := of_decide_eq_true hmeets
  rwa [hcore, (b.counters_moved level).2] at htime

/-- A condition on the instructions trips when one has ended that makes up their number. -/
theorem trips_of_instructions (hown : (id, .instructionCountReached count) ∈ conditions)
    (hended : (b.core.edge level b.inputs).ended = true)
    (hcount : count ≤ b.core.instructionCounter + 1) : b.Trips level conditions := by
  refine ⟨_, instructionEnd_mem hended, _, hown, rfl, decide_eq_true ?_⟩
  show (b.core.edge level b.inputs).core.instructionCounter ≥ _
  rw [b.core.counter_edge, hended]
  exact hcount

theorem instructions_of_meets (he : e ∈ b.emissions level)
    (h : Hooks.Meets (.instructionCountReached count) e.core.snapshot e.event) :
    e.event = .instructionEnd ∧ (b.core.edge level b.inputs).ended = true
      ∧ count ≤ b.core.instructionCounter + 1 := by
  obtain ⟨hevent, hmeets⟩ := h
  rw [ExitCondition.events, EventSet.contains_single] at hevent
  have hend := (of_decide_eq_true hevent).symm
  obtain ⟨hended, hcore⟩ := (mem_emissions he).1 hend
  have hcount : count ≤ e.core.instructionCounter := of_decide_eq_true hmeets
  rw [hcore, b.core.counter_edge, hended] at hcount
  exact ⟨hend, hended, hcount⟩

end Board

/-! ## Runs -/

namespace Clock

variable {W Stop : Type} [Wiring W Stop] {c d : Clock W} {tape : List (W × Level)}
  {stop : Option Stop}

theorem Delivers.halfTicks (h : c.Delivers tape d stop) :
    d.halfTicks = c.halfTicks + tape.length := by
  induction h with
  | start => rfl
  | @edge tape d _ ih =>
    rw [List.length_append, ← Nat.add_assoc, ← ih]
    rfl

theorem halfTicks_tick (c : Clock W) : c.halfTicks + 1 ≤ c.tick.1.halfTicks := by
  rw [Clock.tick]
  split
  · split
    · next e stop hfirst =>
      rw [← show c.halfTick.1.halfTicks = e.halfTicks by rw [hfirst]]
      exact Nat.le_refl _
    · next e hfirst =>
      show _ ≤ e.halfTicks + 1
      rw [← show c.halfTick.1.halfTicks = e.halfTicks by rw [hfirst]]
      exact Nat.le_succ _
  · exact Nat.le_refl _

/-- A run that has not been stopped has used up its ticks, each of them at least an edge. -/
theorem halfTicks_run {limit : Nat} (hgoes : (c.run limit).2 = none) :
    c.halfTicks + limit ≤ (c.run limit).1.halfTicks := by
  induction limit generalizing c with
  | zero => exact Nat.le_refl _
  | succ limit ih =>
    have hfirst := c.halfTicks_tick
    rw [Clock.run] at hgoes ⊢
    cases htick : c.tick with
    | mk e stop =>
      rw [htick] at hgoes hfirst
      cases stop with
      | some stop => cases hgoes
      | none =>
        have hrest := ih hgoes
        dsimp only at hfirst ⊢
        omega

end Clock

/-! ## A count with a goal -/

/-- A count on a board, and the edges on which the conditions see to it that it does not pass its
    goal. -/
structure Gauge (conditions : List (ConditionId × ExitCondition)) where
  count : Board → Nat
  goal : Nat
  next : ∀ b level, count b ≤ count (b.edge level).1 ∧ count (b.edge level).1 ≤ count b + 1
  trips : ∀ b level, count b < goal → goal ≤ count (b.edge level).1 → b.Trips level conditions

namespace Gauge

variable {conditions : List (ConditionId × ExitCondition)} {c d : Clock Board}
  {tape : List (Board × Level)} {stop : Option StopReason} (g : Gauge conditions)

/-- The count does not go back. -/
theorem rises (h : c.Delivers tape d stop) : g.count c.wiring ≤ g.count d.wiring := by
  induction h with
  | start => exact Nat.le_refl _
  | @edge tape d _ ih => exact Nat.le_trans ih (g.next d.wiring d.level.flip).1

/-- As long as no condition trips, the goal lies ahead. -/
theorem ahead (h : c.Delivers tape d stop) (hstart : g.count c.wiring < g.goal)
    (hgoes : ∀ edge ∈ tape, ¬ edge.1.Trips edge.2 conditions) : g.count d.wiring < g.goal := by
  induction h with
  | start => exact hstart
  | @edge tape d _ ih =>
    have hbefore := ih fun edge hedge => hgoes edge (List.mem_append_left _ hedge)
    refine Nat.lt_of_not_le fun hreached => ?_
    exact hgoes (d.wiring, d.level.flip) (List.mem_append_right _ (List.mem_singleton.mpr rfl))
      (g.trips d.wiring d.level.flip hbefore hreached)

/-- The count of half-periods, and a condition on the periods. -/
def ofTStates {id : ConditionId} {periods : Nat}
    (hown : (id, .tStatesElapsed periods) ∈ conditions) : Gauge conditions where
  count b := b.core.halfTStates
  goal := min (2 * periods) maxCount
  next b level := by
    rw [(b.edge_parts level).2.2]
    show _ ≤ (b.moved level).halfTStates ∧ (b.moved level).halfTStates ≤ _
    rw [(b.counters_moved level).2]
    exact ⟨Nat.le_succ _, Nat.le_refl _⟩
  trips b level _ hreached := by
    rw [(b.edge_parts level).2.2] at hreached
    replace hreached : _ ≤ (b.moved level).halfTStates := hreached
    rw [(b.counters_moved level).2] at hreached
    exact Board.trips_of_time hown hreached

/-- The count of instructions, and a condition on their number that trips at the goal. -/
def ofInstructions {id : ConditionId} {number goal : Nat}
    (hown : (id, .instructionCountReached number) ∈ conditions) (hgoal : number ≤ goal) :
    Gauge conditions where
  count b := b.core.instructionCounter
  goal := goal
  next b level := by
    rw [(b.edge_parts level).2.2]
    show _ ≤ (b.moved level).instructionCounter ∧ (b.moved level).instructionCounter ≤ _
    rw [(b.counters_moved level).1]
    cases (b.core.edge level b.inputs).ended
    · exact ⟨Nat.le_refl _, Nat.le_succ _⟩
    · exact ⟨Nat.le_succ _, Nat.le_refl _⟩
  trips b level hbefore hreached := by
    rw [(b.edge_parts level).2.2] at hreached
    replace hreached : goal ≤ (b.moved level).instructionCounter := hreached
    rw [(b.counters_moved level).1] at hreached
    cases hended : (b.core.edge level b.inputs).ended with
    | false =>
      rw [hended] at hreached
      exact absurd hbefore (Nat.not_lt_of_le hreached)
    | true =>
      rw [hended] at hreached
      exact Board.trips_of_instructions hown hended (Nat.le_trans hgoal hreached)

end Gauge

/-! ## Calls -/

namespace Machine

variable {m : Machine} {log : List (Board × Level)} {call : Call}

/-- The call returns on this edge, the first one on which a condition trips, with the stop of one that
    does. -/
structure ReturnsOn (m : Machine) (call : Call) (front : List (Board × Level)) (b : Board)
    (level : Level) : Prop where
  tape : m.tape call = front ++ [(b, level)]
  before : ∀ edge ∈ front, ¬ edge.1.Trips edge.2 (m.calling call).hooks.conditions
  stop : ∃ e ∈ b.emissions level, ∃ c ∈ (m.calling call).hooks.conditions,
    Hooks.Meets c.2 e.core.snapshot e.event
      ∧ (m.perform call).2 = some ⟨c.1, e.event, e.core.snapshot⟩

/-- A call that is not stopped sees no condition trip; one that is returns with the first that does,
    and the count has its goal ahead until then. -/
theorem Driven.returns (h : m.Driven log) (call : Call) :
    ((m.perform call).2 = none
        ∧ ∀ edge ∈ m.tape call, ¬ edge.1.Trips edge.2 (m.calling call).hooks.conditions)
      ∨ ∃ front b level, m.ReturnsOn call front b level
        ∧ b.processor.hooks.Ranked ∧ b.edge level = ((m.driven call).board, (m.perform call).2)
        ∧ ∀ g : Gauge (m.calling call).hooks.conditions, g.count (m.calling call).board < g.goal →
          g.count (m.calling call).board ≤ g.count b ∧ g.count b < g.goal := by
  have hdelivers := m.delivers_call call
  obtain ⟨hall, -, -⟩ := ranked_delivers hdelivers (ranked_calling h.ranked call)
  have hquiet {edge : Board × Level} (hedge : edge ∈ m.tape call)
      (hgoes : (edge.1.edge edge.2).2 = none) :
      ¬ edge.1.Trips edge.2 (m.calling call).hooks.conditions := by
    obtain ⟨hranked, hsame⟩ := hall edge hedge
    rcases Board.stop_cases hranked edge.2 with ⟨-, hnone⟩ | ⟨e, -, c, -, -, hstop⟩
    · rw [hsame] at hnone
      exact hnone
    · cases hgoes.symm.trans hstop
  cases hstop : (m.perform call).2 with
  | none => exact Or.inl ⟨rfl, fun edge hedge => hquiet hedge (hdelivers.unstopped hstop edge hedge)⟩
  | some stop =>
    obtain ⟨front, d, htape, hfront, hlast⟩ := hdelivers.final (by rw [hstop]; exact Option.some_ne_none _)
    have hmem : (d.wiring, d.level.flip) ∈ m.tape call := by
      rw [htape]
      exact List.mem_append_right _ (List.mem_singleton.mpr rfl)
    have hbefore : ∀ edge ∈ front, ¬ edge.1.Trips edge.2 (m.calling call).hooks.conditions :=
      fun edge hedge => hquiet (htape ▸ List.mem_append_left _ hedge)
        (hfront.unstopped rfl edge hedge)
    have hedge : (d.wiring.edge d.level.flip).2 = some stop :=
      (congrArg Prod.snd hlast).trans hstop
    obtain ⟨hranked, hsame⟩ := hall _ hmem
    refine Or.inr ⟨front, d.wiring, d.level.flip, ⟨htape, hbefore, ?_⟩, hranked, ?_,
      fun g hstart => ⟨g.rises hfront, g.ahead hfront hstart hbefore⟩⟩
    · rcases Board.stop_cases hranked d.level.flip with ⟨hgoes, -⟩ | ⟨e, he, c, hc, hmeets, hheld⟩
      · cases hgoes.symm.trans hedge
      · rw [hsame] at hc
        exact ⟨e, he, c, hc, hmeets, hstop.trans (hedge.symm.trans hheld)⟩
    · exact Prod.ext (congrArg (fun r : Clock Board × Option StopReason => r.1.wiring) hlast) hedge

/-- The count does not pass its goal while a call lasts, and comes to it only with a stop. -/
theorem Driven.gauged (h : m.Driven log) (g : Gauge (m.calling call).hooks.conditions)
    (hstart : g.count (m.calling call).board < g.goal) :
    g.count (m.driven call).board ≤ g.goal
      ∧ ((m.perform call).2 = none → g.count (m.driven call).board < g.goal) := by
  rcases h.returns call with ⟨-, hnone⟩ | ⟨front, b, level, hreturns, -, hedge, hahead⟩
  · have hshort := g.ahead (m.delivers_call call) hstart hnone
    exact ⟨Nat.le_of_lt hshort, fun _ => hshort⟩
  · obtain ⟨e, -, c, -, -, hstop⟩ := hreturns.stop
    obtain ⟨-, hbefore⟩ := hahead g hstart
    rw [← show (b.edge level).1 = (m.driven call).board from congrArg Prod.fst hedge]
    refine ⟨Nat.le_trans (g.next b level).2 hbefore, fun hgoes => ?_⟩
    cases hgoes.symm.trans hstop

/-- What the chip has counted after a call. -/
theorem counters_delivers {c d : Clock Board} {tape : List (Board × Level)}
    {stop : Option StopReason} (h : c.Delivers tape d stop) :
    d.wiring.core.instructionCounter = c.wiring.core.instructionCounter
        + endings (tape.flatMap fun edge => edge.1.emissions edge.2)
      ∧ d.wiring.core.halfTStates = c.wiring.core.halfTStates + tape.length := by
  induction h with
  | start => exact ⟨rfl, rfl⟩
  | @edge tape d _ ih =>
    have hcore : d.halfTick.1.wiring.core = (d.wiring.edge d.level.flip).1.core := rfl
    obtain ⟨hcount, htime⟩ := d.wiring.counters_moved d.level.flip
    rw [hcore, (d.wiring.edge_parts d.level.flip).2.2, List.flatMap_append, endings_append,
      List.length_append, ← Nat.add_assoc, ← Nat.add_assoc, ← ih.1, ← ih.2, List.flatMap_cons,
      List.flatMap_nil, List.append_nil, Board.endings_emissions]
    exact ⟨hcount, htime⟩

/-! ## What is registered -/

theorem exact_delivers {c d : Clock Board} {tape : List (Board × Level)} {stop : Option StopReason}
    (h : c.Delivers tape d stop) (hexact : c.wiring.processor.hooks.Exact) :
    d.wiring.processor.hooks.Exact
      ∧ d.wiring.processor.hooks.observers = c.wiring.processor.hooks.observers := by
  induction h with
  | start => exact ⟨hexact, rfl⟩
  | @edge tape d _ ih =>
    obtain ⟨hnow, hsame⟩ := ih
    obtain ⟨notices, tripped, htold⟩ :=
      Hooks.deliverAll_eq d.wiring.processor.hooks (d.wiring.emissions d.level.flip)
    have hnext : d.halfTick.1.wiring.processor.hooks
        = (d.wiring.edge d.level.flip).1.processor.hooks := rfl
    rw [hnext, Board.hooks_edge, htold]
    exact ⟨⟨hnow.observed, hnow.watched⟩, hsame⟩

theorem exact_driven (h : m.hooks.Exact) (call : Call) :
    (m.driven call).hooks.Exact ∧ (m.driven call).hooks.observers = m.hooks.observers := by
  have hcalling : (m.calling call).hooks.Exact
      ∧ (m.calling call).hooks.observers = m.hooks.observers := by
    cases call with
    | halfTick | tick | run => exact ⟨h, rfl⟩
    | stepInstructions | stepTStates => exact ⟨h.call (.addExitCondition _), rfl⟩
  obtain ⟨hexact, hsame⟩ := exact_delivers (m.delivers_call call) hcalling.1
  exact ⟨hexact, hsame.trans hcalling.2⟩

theorem exact_perform (h : m.hooks.Exact) (call : Call) :
    (m.perform call).1.hooks.Exact ∧ (m.perform call).1.hooks.observers = m.hooks.observers := by
  obtain ⟨hexact, hsame⟩ := exact_driven h call
  rcases m.perform_eq call with hperform | ⟨id, hperform⟩
  · rw [hperform]
    exact ⟨hexact, hsame⟩
  · rw [hperform]
    exact ⟨hexact.call (.removeExitCondition id), hsame⟩

theorem Driven.exact (h : m.Driven log) : m.hooks.Exact := by
  induction h with
  | built build =>
    rw [Machine.build] at build
    split at build
    · cases build
    · cases build
      exact Hooks.exact_empty
  | call _ call ih => exact (exact_perform ih call).1
  | observe _ events ih => exact ih.call (.observe events)
  | removeObserver _ id ih => exact ih.call (.removeObserver id)
  | addExitCondition _ condition ih => exact ih.call (.addExitCondition condition)
  | removeExitCondition _ id ih => exact ih.call (.removeExitCondition id)
  | drainNotices _ ih => exact ⟨ih.observed, ih.watched⟩
  | regs _ _ ih | memory _ _ ih | device _ _ ih | input _ _ _ ih | images _ _ ih => exact ih

/-- A call leaves what is registered, and what is wanted, as it was. -/
theorem Driven.keeps_registered (h : m.Driven log) (call : Call) :
    (m.perform call).1.hooks.conditions = m.hooks.conditions
      ∧ ∀ event, (m.perform call).1.hooks.wants event = m.hooks.wants event := by
  have hconditions := conditions_perform h.ranked call
  obtain ⟨hexact, hobservers⟩ := exact_perform h.exact call
  refine ⟨hconditions, fun event => ?_⟩
  rw [Bool.eq_iff_iff, hexact.wants_iff, h.exact.wants_iff, hconditions, hobservers]

/-! ## Steps -/

/-- The edges from now to the end of some more periods, of which the rest of the one under way is the
    first.  At least one period is ahead. -/
def edgesAhead (m : Machine) (periods : Nat) : Nat :=
  2 * (m.core.halfTStates / 2 + max periods 1) - m.core.halfTStates

/-- The instructions that are completed while a call lasts. -/
def completed (m : Machine) (call : Call) : Nat :=
  endings ((m.tape call).flatMap fun edge => edge.1.emissions edge.2)

/-- When the only condition is that of the call, it is the one that trips. -/
theorem ReturnsOn.lone {front : List (Board × Level)} {b : Board} {level : Level}
    (h : m.ReturnsOn call front b level) {own : ConditionId × ExitCondition}
    (hown : (m.calling call).hooks.conditions = m.hooks.conditions ++ [own])
    (hnobody : m.hooks.conditions = []) :
    ∃ e ∈ b.emissions level, Hooks.Meets own.2 e.core.snapshot e.event
      ∧ (m.perform call).2 = some ⟨own.1, e.event, e.core.snapshot⟩ := by
  obtain ⟨e, he, c, hc, hmeets, hstop⟩ := h.stop
  rw [hown, hnobody] at hc
  obtain rfl := List.mem_singleton.mp hc
  exact ⟨e, he, hmeets, hstop⟩

/-- A step by periods always returns, when its condition is met if nobody has asked to stop earlier. -/
theorem Driven.steps_until (h : m.Driven log) {count goal : Nat}
    (hgoal : min (2 * target (m.core.halfTStates / 2) count) maxCount = goal)
    (hstart : m.core.halfTStates < goal) :
    (∃ front b level, m.ReturnsOn (.stepTStates count) front b level)
      ∧ m.core.halfTStates + (m.tape (.stepTStates count)).length ≤ goal
      ∧ (m.hooks.conditions = [] →
        m.core.halfTStates + (m.tape (.stepTStates count)).length = goal) := by
  have hdelivers := m.delivers_call (.stepTStates count)
  let g : Gauge (m.calling (.stepTStates count)).hooks.conditions :=
    .ofTStates (List.mem_append_right _ (List.mem_singleton.mpr rfl))
  have hsame : g.goal = goal := hgoal
  obtain ⟨hlimit, hgoes⟩ := h.gauged g (by rw [hsame]; exact hstart)
  obtain ⟨-, htime⟩ := counters_delivers hdelivers
  have hcount : g.count (m.driven (.stepTStates count)).board
      = m.core.halfTStates + (m.tape (.stepTStates count)).length := htime
  rw [hcount, hsame] at hlimit hgoes
  have htarget : target (m.core.halfTStates / 2) count ≤ m.core.halfTStates / 2 + max count 1 :=
    Nat.mod_le _ _
  rcases h.returns (.stepTStates count) with ⟨hnone, -⟩ | ⟨front, b, level, hreturns, -, hedge, -⟩
  · -- every tick is an edge at least, and there are twice as many as periods
    have hticks := Clock.halfTicks_run (c := (m.calling (.stepTStates count)).clock) hnone
    have hedges := hdelivers.halfTicks
    have hshort := hgoes hnone
    rw [Call.drive] at hedges
    omega
  · refine ⟨⟨front, b, level, hreturns⟩, hlimit, fun hnobody => Nat.le_antisymm hlimit ?_⟩
    obtain ⟨e, he, hmeets, -⟩ := hreturns.lone rfl hnobody
    have hreached : g.goal ≤ b.core.halfTStates + 1 := Board.time_of_meets he hmeets
    have hlast : g.count (m.driven (.stepTStates count)).board = b.core.halfTStates + 1 := by
      rw [← show (b.edge level).1 = (m.driven (.stepTStates count)).board from
        congrArg Prod.fst hedge]
      show (b.edge level).1.core.halfTStates = _
      rw [(b.edge_parts level).2.2]
      exact (b.counters_moved level).2
    rw [← hcount, hlast, ← hsame]
    exact hreached

/-- The level of the clock after a call, by the number of edges since power-on. -/
theorem Driven.level_perform (h : m.Driven log) (call : Call) :
    (m.perform call).1.clock.level
      = if (m.core.halfTStates + (m.tape call).length) % 2 = 0 then .low else .high := by
  obtain ⟨hsteady, -⟩ := (h.steady.1.calling call).delivers (m.delivers_call call)
  have hnumber : m.core.halfTStates = log.length := h.steady.1.counted
  rw [m.level_perform call, hnumber]
  exact hsteady.level

/-- Then it takes just the edges up to the end of the periods, and leaves the clock low. -/
theorem Driven.steps_periods (h : m.Driven log) {count : Nat}
    (hroom : m.core.halfTStates / 2 + max count 1 < 2 ^ 63) :
    (∃ front b level, m.ReturnsOn (.stepTStates count) front b level)
      ∧ (m.tape (.stepTStates count)).length ≤ m.edgesAhead count
      ∧ (m.hooks.conditions = [] → (m.tape (.stepTStates count)).length = m.edgesAhead count
        ∧ (m.perform (.stepTStates count)).1.clock.level = .low) := by
  have hgoal : min (2 * target (m.core.halfTStates / 2) count) maxCount
      = 2 * (m.core.halfTStates / 2 + max count 1) := by
    rw [target, countModulus, maxCount]
    omega
  obtain ⟨hreturns, hlimit, hexact⟩ := h.steps_until hgoal (by omega)
  refine ⟨hreturns, by rw [edgesAhead]; omega, fun hnobody => ?_⟩
  have hlength := hexact hnobody
  refine ⟨by rw [edgesAhead]; omega, ?_⟩
  rw [h.level_perform, hlength]
  exact if_pos (Nat.mul_mod_right _ _)

/-- A step by instructions that returns has completed as many, if nobody has asked to stop earlier, and
    leaves the next one to be chosen. -/
theorem Driven.steps_instructions (h : m.Driven log) {count limit : Nat}
    (hroom : m.core.instructionCounter + count < 2 ^ 64) :
    ((m.perform (.stepInstructions count limit)).2 = none →
        limit ≤ (m.tape (.stepInstructions count limit)).length
        ∧ ∀ edge ∈ m.tape (.stepInstructions count limit),
          ¬ edge.1.Trips edge.2 (m.calling (.stepInstructions count limit)).hooks.conditions)
      ∧ m.completed (.stepInstructions count limit) ≤ max count 1
      ∧ ∀ stop, (m.perform (.stepInstructions count limit)).2 = some stop →
        (∃ front b level, m.ReturnsOn (.stepInstructions count limit) front b level)
        ∧ (m.hooks.conditions = [] →
          m.completed (.stepInstructions count limit) = max count 1
            ∧ stop.event = .instructionEnd
            ∧ (m.perform (.stepInstructions count limit)).1.core.instructionCounter
              = m.core.instructionCounter + max count 1
            ∧ (m.perform (.stepInstructions count limit)).1.core.boundaryPending = true) := by
  have hdelivers := m.delivers_call (.stepInstructions count limit)
  let g : Gauge (m.calling (.stepInstructions count limit)).hooks.conditions :=
    .ofInstructions (List.mem_append_right _ (List.mem_singleton.mpr rfl))
      (show _ ≤ m.core.instructionCounter + max count 1 from Nat.mod_le _ _)
  have hstart : g.count (m.calling (.stepInstructions count limit)).board < g.goal :=
    Nat.lt_add_of_pos_right (Nat.lt_of_lt_of_le Nat.zero_lt_one (Nat.le_max_right _ _))
  obtain ⟨hlimit, -⟩ := h.gauged g hstart
  obtain ⟨hcompleted, -⟩ := counters_delivers hdelivers
  have hcount : g.count (m.driven (.stepInstructions count limit)).board
      = m.core.instructionCounter + m.completed (.stepInstructions count limit) := hcompleted
  refine ⟨fun hnone => ?_, ?_, fun stop hstop => ?_⟩
  · rcases h.returns (.stepInstructions count limit) with ⟨-, hquiet⟩ | ⟨front, b, level, hreturns, -⟩
    · have hticks := Clock.halfTicks_run
        (c := (m.calling (.stepInstructions count limit)).clock) hnone
      have hedges := hdelivers.halfTicks
      rw [Call.drive] at hedges
      exact ⟨by omega, hquiet⟩
    · obtain ⟨e, -, c, -, -, hstop⟩ := hreturns.stop
      cases hnone.symm.trans hstop
  · rw [hcount] at hlimit
    exact Nat.le_of_add_le_add_left hlimit
  · rcases h.returns (.stepInstructions count limit) with
      ⟨hnone, -⟩ | ⟨front, b, level, hreturns, hranked, hedge, hahead⟩
    · cases hnone.symm.trans hstop
    refine ⟨⟨front, b, level, hreturns⟩, fun hnobody => ?_⟩
    obtain ⟨e, he, hmeets, hheld⟩ := hreturns.lone rfl hnobody
    obtain ⟨hend, hended, hreached⟩ := Board.instructions_of_meets he hmeets
    obtain ⟨hfirst, hbefore⟩ := hahead g hstart
    have hevent : stop.event = .instructionEnd := by
      obtain rfl := Option.some.inj (hstop.symm.trans hheld)
      exact hend
    have hboard : (b.edge level).1 = (m.driven (.stepInstructions count limit)).board :=
      congrArg Prod.fst hedge
    have hlast : g.count (m.driven (.stepInstructions count limit)).board
        = b.core.instructionCounter + 1 := by
      rw [← hboard]
      show (b.edge level).1.core.instructionCounter = _
      rw [(b.edge_parts level).2.2]
      exact (b.counters_moved level).1.trans (by rw [hended]; rfl)
    have hexact : m.completed (.stepInstructions count limit) = max count 1 := by
      replace hfirst : m.core.instructionCounter ≤ b.core.instructionCounter := hfirst
      replace hbefore : b.core.instructionCounter < m.core.instructionCounter + max count 1 := hbefore
      rw [hcount] at hlast
      rw [target, countModulus] at hreached
      omega
    refine ⟨hexact, hevent, ?_, ?_⟩
    · rw [core_perform, ← hexact]
      exact hcompleted
    · rw [core_perform]
      have hpending := Board.pending_of_stop hranked ((congrArg Prod.snd hedge).trans hstop) hevent
      rw [hboard] at hpending
      exact hpending

/-- Stepping is exact.  A step by periods always returns, whatever the chip does, and a step by
    instructions that returns has completed as many as it was asked for.  Where somebody else has
    registered conditions, the step returns on the first edge on which any trips, and not later than
    on its own account.  What is registered stays. -/
theorem Driven.steps_exactly (h : m.Driven log) (count limit : Nat) :
    (m.core.halfTStates / 2 + max count 1 < 2 ^ 63 →
        (∃ front b level, m.ReturnsOn (.stepTStates count) front b level)
          ∧ (m.tape (.stepTStates count)).length ≤ m.edgesAhead count
          ∧ (m.hooks.conditions = [] →
            (m.tape (.stepTStates count)).length = m.edgesAhead count
              ∧ (m.perform (.stepTStates count)).1.clock.level = .low))
      ∧ (m.core.instructionCounter + count < 2 ^ 64 →
        ((m.perform (.stepInstructions count limit)).2 = none →
            limit ≤ (m.tape (.stepInstructions count limit)).length
            ∧ ∀ edge ∈ m.tape (.stepInstructions count limit),
              ¬ edge.1.Trips edge.2 (m.calling (.stepInstructions count limit)).hooks.conditions)
          ∧ m.completed (.stepInstructions count limit) ≤ max count 1
          ∧ ∀ stop, (m.perform (.stepInstructions count limit)).2 = some stop →
            (∃ front b level, m.ReturnsOn (.stepInstructions count limit) front b level)
            ∧ (m.hooks.conditions = [] →
              m.completed (.stepInstructions count limit) = max count 1
                ∧ stop.event = .instructionEnd
                ∧ (m.perform (.stepInstructions count limit)).1.core.instructionCounter
                  = m.core.instructionCounter + max count 1
                ∧ (m.perform (.stepInstructions count limit)).1.core.boundaryPending = true))
      ∧ ∀ call : Call, (m.perform call).1.hooks.conditions = m.hooks.conditions
        ∧ ∀ event, (m.perform call).1.hooks.wants event = m.hooks.wants event :=
  ⟨h.steps_periods, h.steps_instructions, h.keeps_registered⟩

/-- Three periods from a high clock on are five edges, and two instructions are two of them. -/
theorem steps_from_high_clock :
    ((idling.perform .halfTick).1.tape (.stepTStates 3)).length = 5
      ∧ ((idling.perform .halfTick).1.perform (.stepTStates 3)).1.clock.level = .low
      ∧ (idling.perform .halfTick).1.completed (.stepInstructions 2 20) = 2 := by
  have hbuilt : Machine.build { memorySize := 0x400 } .unattached = .ok idling := rfl
  obtain ⟨hperiods, hinstructions, -⟩ := ((Driven.built hbuilt).call .halfTick).steps_exactly 3 20
  obtain ⟨-, hcount, -⟩ := ((Driven.built hbuilt).call .halfTick).steps_exactly 2 20
  obtain ⟨-, -, hlone⟩ := hperiods (by decide +kernel)
  obtain ⟨hlength, hlevel⟩ := hlone (by decide +kernel)
  obtain ⟨-, -, hstops⟩ := hcount (by decide +kernel)
  obtain ⟨stop, hstop⟩ := Option.isSome_iff_exists.mp
    (show ((idling.perform .halfTick).1.perform (.stepInstructions 2 20)).2.isSome = true by
      decide +kernel)
  exact ⟨hlength, hlevel, ((hstops stop hstop).2 rfl).1⟩

/-- There is a machine after any number of edges. -/
theorem exists_driven (edges : Nat) :
    ∃ (m : Machine) (log : List (Board × Level)), m.Driven log ∧ m.hooks.conditions = []
      ∧ m.core.halfTStates = edges := by
  obtain ⟨m, log, hdriven, hnobody, hlength⟩ : ∃ (m : Machine) (log : List (Board × Level)),
      m.Driven log ∧ m.hooks.conditions = [] ∧ log.length = edges := by
    induction edges with
    | zero =>
      have hbuilt : Machine.build { memorySize := 0x400 } .unattached = .ok idling := rfl
      exact ⟨idling, [], .built hbuilt, rfl, rfl⟩
    | succ edges ih =>
      obtain ⟨m, log, hdriven, hnobody, hlength⟩ := ih
      refine ⟨_, _, hdriven.call .halfTick, ?_, ?_⟩
      · rw [conditions_perform hdriven.ranked, hnobody]
      · rw [tape_halfTick, List.length_append, hlength]
        rfl
  exact ⟨m, log, hdriven, hnobody, hdriven.steady.1.counted.trans hlength⟩

/-- The count of edges that a condition on the time looks for stops doubling at the largest one, which
    is odd: a step of no periods that is to end past it ends on it, with the clock high. -/
theorem step_to_largest_count :
    ¬ ∀ (m : Machine) (log : List (Board × Level)) (count : Nat), m.Driven log →
      m.hooks.conditions = [] → m.core.halfTStates / 2 + count < 2 ^ 63 →
      (m.tape (.stepTStates count)).length = m.edgesAhead count
        ∧ (m.perform (.stepTStates count)).1.clock.level = .low := by
  intro hall
  obtain ⟨m, log, hdriven, hnobody, hedges⟩ := exists_driven (2 ^ 64 - 2)
  obtain ⟨hlength, -⟩ := hall m log 0 hdriven hnobody (by omega)
  have hgoal : min (2 * target (m.core.halfTStates / 2) 0) maxCount = 2 ^ 64 - 1 := by
    rw [target, countModulus, maxCount]
    omega
  obtain ⟨-, hlimit, -⟩ := hdriven.steps_until hgoal (by omega)
  rw [edgesAhead] at hlength
  omega

end Machine

end Z80Board
