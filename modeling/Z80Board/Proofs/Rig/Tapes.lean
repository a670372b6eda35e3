import Z80Board.Proofs.Rig.Restart

/-! # The edges of a call

    A host makes a machine go on by calls: half a period, a period, until a stop, some instructions or
    some periods.  What a call delivers to the board is put on a tape: the clock runs the same way on
    wiring that notes every edge, and comes to the same.  Over any number of calls, with the host
    changing the machine in between, the edges on the tape alternate from a rising one on, the clock
    and the chip count them alike, and the chip runs its even half-periods on the rising ones. -/

namespace Z80Board

/-! ## Wiring with a tape -/

/-- Wiring with a tape of its edges: the wiring as it was before each of them, and the level after
    it. -/
structure Taped (W : Type) where
  wiring : W
  tape : List (W × Level)

variable {W Stop : Type}

instance [Wiring W Stop] : Wiring (Taped W) Stop where
  edge t level :=
    let (wiring, stop) := Wiring.edge t.wiring level
    (⟨wiring, t.tape ++ [(t.wiring, level)]⟩, stop)

namespace Clock

/-- The clock on its wiring with an empty tape. -/
def taped (c : Clock W) : Clock (Taped W) :=
  ⟨c.level, c.halfTicks, c.frequencyHz, ⟨c.wiring, []⟩⟩

/-- The clock on its wiring alone. -/
def untaped (c : Clock (Taped W)) : Clock W :=
  ⟨c.level, c.halfTicks, c.frequencyHz, c.wiring.wiring⟩

/-- Edge by edge one clock leads to another.  Only the last edge may have brought about a stop. -/
inductive Delivers [Wiring W Stop] (c : Clock W) : List (W × Level) → Clock W → Option Stop → Prop where
  | start : Delivers c [] c none
  | edge {tape : List (W × Level)} {d : Clock W} (h : Delivers c tape d none) :
    Delivers c (tape ++ [(d.wiring, d.level.flip)]) d.halfTick.1 d.halfTick.2

variable [Wiring W Stop] {c : Clock W} {d : Clock (Taped W)}

/-- What is on the tape has been delivered. -/
def Kept (c : Clock W) (r : Clock (Taped W) × Option Stop) : Prop :=
  c.Delivers r.1.wiring.tape r.1.untaped r.2

theorem Kept.halfTick (h : c.Kept (d, none)) : c.Kept d.halfTick := by
  have hedge : c.Delivers (d.wiring.tape ++ [(d.wiring.wiring, d.level.flip)])
      d.untaped.halfTick.1 d.untaped.halfTick.2 := h.edge
  exact hedge

/-- An edge, and another one unless there has been a stop. -/
theorem Kept.tick (h : c.Kept (d, none)) : c.Kept d.tick := by
  have hfirst := h.halfTick
  rw [Clock.tick]
  split
  · split
    · next e stop hstop =>
      rw [hstop] at hfirst
      exact hfirst
    · next e hgoes =>
      rw [hgoes] at hfirst
      exact hfirst.halfTick
  · exact hfirst

theorem Kept.run (h : c.Kept (d, none)) (limit : Nat) : c.Kept (d.run limit) := by
  induction limit generalizing d with
  | zero => exact h
  | succ limit ih =>
    have htick := h.tick
    rw [Clock.run]
    split
    · next e stop hstop =>
      rw [hstop] at htick
      exact htick
    · next e hgoes =>
      rw [hgoes] at htick
      exact ih htick

/-! ## The tape does not matter -/

theorem untaped_halfTick (d : Clock (Taped W)) :
    (d.halfTick.1.untaped, d.halfTick.2) = d.untaped.halfTick := rfl

theorem untaped_tick (d : Clock (Taped W)) : (d.tick.1.untaped, d.tick.2) = d.untaped.tick := by
  have hfirst := d.untaped_halfTick
  rw [Clock.tick, Clock.tick]
  show _ = if d.level.isLow = true then _ else _
  split
  · rw [← hfirst]
    cases hedge : d.halfTick with
    | mk e stop => cases stop <;> rfl
  · rfl

theorem untaped_run (d : Clock (Taped W)) (limit : Nat) :
    ((d.run limit).1.untaped, (d.run limit).2) = d.untaped.run limit := by
  induction limit generalizing d with
  | zero => rfl
  | succ limit ih =>
    have htick := d.untaped_tick
    rw [Clock.run, Clock.run, ← htick]
    cases hedge : d.tick with
    | mk e stop =>
      cases stop with
      | some stop => rfl
      | none => exact ih e

end Clock

/-! ## Calls -/

/-- What a host calls to make a machine go on. -/
inductive Call where
  | halfTick
  | tick
  | run (limit : Nat)
  | stepInstructions (count limit : Nat)
  | stepTStates (count : Nat)

/-- What the call makes of a clock. -/
def Call.drive [Wiring W Stop] (c : Clock W) : Call → Clock W × Option Stop
  | .halfTick => c.halfTick
  | .tick => c.tick
  | .run limit => c.run limit
  | .stepInstructions _ limit => c.run limit
  | .stepTStates count => c.run (2 * max count 1)

namespace Machine

/-- The machine after the call, and the stop that has ended it. -/
def perform (m : Machine) : Call → Machine × Option StopReason
  | .halfTick => m.halfTick
  | .tick => m.tick
  | .run limit => m.run limit
  | .stepInstructions count limit => m.stepInstructions count limit
  | .stepTStates count => m.stepTStates count

/-- The machine while the call lasts: stepping has a condition of its own. -/
def calling (m : Machine) : Call → Machine
  | .stepInstructions count _ =>
    (m.addExitCondition (.instructionCountReached (target m.core.instructionCounter count))).1
  | .stepTStates count =>
    (m.addExitCondition (.tStatesElapsed (target (m.core.halfTStates / 2) count))).1
  | _ => m

/-- The edges of the call: the board before each of them, and the level after it. -/
def tape (m : Machine) (call : Call) : List (Board × Level) :=
  (call.drive (m.calling call).clock.taped).1.wiring.tape

variable {m : Machine} {call : Call} {log : List (Board × Level)}

/-- The edges of a call are those on its tape, and lead to its stop. -/
theorem delivers_call (m : Machine) (call : Call) :
    (m.calling call).clock.Delivers (m.tape call) (call.drive (m.calling call).clock).1
      (m.perform call).2 := by
  have hstart : (m.calling call).clock.Kept ((m.calling call).clock.taped, none) := .start
  have hboth : (m.calling call).clock.Kept (call.drive (m.calling call).clock.taped)
      ∧ ((call.drive (m.calling call).clock.taped).1.untaped,
          (call.drive (m.calling call).clock.taped).2) = call.drive (m.calling call).clock := by
    cases call with
    | halfTick => exact ⟨hstart.halfTick, Clock.untaped_halfTick _⟩
    | tick => exact ⟨hstart.tick, Clock.untaped_tick _⟩
    | run limit => exact ⟨hstart.run limit, Clock.untaped_run _ _⟩
    | stepInstructions count limit => exact ⟨hstart.run limit, Clock.untaped_run _ _⟩
    | stepTStates count => exact ⟨hstart.run _, Clock.untaped_run _ _⟩
  have hstop : (m.perform call).2 = (call.drive (m.calling call).clock).2 := by cases call <;> rfl
  have hkept := hboth.1
  rw [Clock.Kept, (Prod.mk.inj hboth.2).1, (Prod.mk.inj hboth.2).2] at hkept
  rw [hstop]
  exact hkept

/-- The machine when the edges of a call have been delivered. -/
def driven (m : Machine) (call : Call) : Machine :=
  { m.calling call with clock := (call.drive (m.calling call).clock).1 }

/-- A call leaves that machine, less the condition of its own. -/
theorem perform_eq (m : Machine) (call : Call) :
    (m.perform call).1 = m.driven call
      ∨ ∃ id, (m.perform call).1 = ((m.driven call).removeExitCondition id).1 := by
  cases call with
  | halfTick | tick | run => exact Or.inl rfl
  | stepInstructions | stepTStates => exact Or.inr ⟨_, rfl⟩

theorem core_perform (m : Machine) (call : Call) :
    (m.perform call).1.core = (m.driven call).core := by
  rcases m.perform_eq call with hperform | ⟨id, hperform⟩
  · rw [hperform]
  · rw [hperform]
    rfl

theorem level_perform (m : Machine) (call : Call) :
    (m.perform call).1.clock.level = (m.driven call).clock.level := by
  rcases m.perform_eq call with hperform | ⟨id, hperform⟩
  · rw [hperform]
  · rw [hperform]
    rfl

/-- A machine with the tape of all of its edges: it has been built from a configuration, driven by
    calls, and changed by the host in between. -/
inductive Driven : Machine → List (Board × Level) → Prop where
  | built {config : BoardConfig} {device : Device} {m : Machine}
    (build : Machine.build config device = .ok m) : Driven m []
  | call {m : Machine} {log : List (Board × Level)} (h : Driven m log) (call : Call) :
    Driven (m.perform call).1 (log ++ m.tape call)
  | observe {m : Machine} {log : List (Board × Level)} (h : Driven m log) (events : EventSet) :
    Driven (m.observe events).1 log
  | removeObserver {m : Machine} {log : List (Board × Level)} (h : Driven m log) (id : ObserverId) :
    Driven (m.removeObserver id).1 log
  | addExitCondition {m : Machine} {log : List (Board × Level)} (h : Driven m log)
    (condition : ExitCondition) : Driven (m.addExitCondition condition).1 log
  | removeExitCondition {m : Machine} {log : List (Board × Level)} (h : Driven m log)
    (id : ConditionId) : Driven (m.removeExitCondition id).1 log
  | drainNotices {m : Machine} {log : List (Board × Level)} (h : Driven m log) :
    Driven m.drainNotices.1 log
  | regs {m : Machine} {log : List (Board × Level)} (h : Driven m log) (f : Registers → Registers) :
    Driven (m.modifyRegs f) log
  | memory {m : Machine} {log : List (Board × Level)} (h : Driven m log) (f : Memory → Memory) :
    Driven (m.modifyMemory f) log
  | device {m : Machine} {log : List (Board × Level)} (h : Driven m log) (f : Device → Device) :
    Driven (m.modifyDevice f) log
  | input {m : Machine} {log : List (Board × Level)} (h : Driven m log) (pin : InputPin)
    (level : Level) : Driven (m.setInput pin level) log
  | images {m : Machine} {log : List (Board × Level)} (h : Driven m log)
    (images : List ProgramImage) : Driven { m with images } log

/-! ## Edges and half-periods -/

/-- The edge with this number is delivered to a board whose chip has counted the edges before it, and
    a half-period that it runs has an even number just if it rises. -/
structure Timed (number : Nat) (edge : Board × Level) : Prop where
  level : edge.2 = if number % 2 = 0 then .high else .low
  counted : edge.1.core.halfTStates = number
  half : ∀ k, edge.1.engaged edge.2 = some k →
    (∃ emitted, edge.1.core.edge edge.2 edge.1.inputs = k.runEdge emitted)
      ∧ (k.cycle.half % 2 = 0 ↔ edge.2 = .high)

/-- A clock that has delivered so many edges to the board on it. -/
structure Steady (clock : Clock Board) (count : Nat) : Prop where
  level : clock.level = if count % 2 = 0 then .low else .high
  halfTicks : clock.halfTicks = count
  counted : clock.wiring.core.halfTStates = count
  sound : clock.wiring.core.Sound
  inStep : clock.wiring.core.InStep clock.level

variable {clock next : Clock Board} {count : Nat}

theorem Steady.timed (h : Steady clock count) : Timed count (clock.wiring, clock.level.flip) := by
  refine ⟨?_, h.counted, fun k hk => ⟨Core.edge_of_engaged hk, ?_⟩⟩
  · show clock.level.flip = _
    rw [h.level]
    split <;> rfl
  · rw [h.inStep.engaged h.sound hk]
    show _ ↔ clock.level.flip = .high
    cases clock.level <;> decide

theorem Steady.halfTick (h : Steady clock count) : Steady clock.halfTick.1 (count + 1) := by
  obtain ⟨-, -, hcore⟩ := clock.wiring.edge_parts clock.level.flip
  obtain ⟨stopping, hmoved⟩ := clock.wiring.moved_eq clock.level.flip
  have hmoorings := clock.wiring.core.moorings_edge clock.level.flip clock.wiring.inputs stopping
  simp only [Core.moorings, Prod.mk.injEq] at hmoorings
  rw [← hmoved] at hmoorings
  refine ⟨?_, congrArg (· + 1) h.halfTicks, ?_, ?_, ?_⟩
  · show clock.level.flip = _
    rw [h.level]
    rcases Nat.mod_two_eq_zero_or_one count with hparity | hparity
    · rw [if_pos hparity, if_neg (by omega)]
      rfl
    · rw [if_neg (by omega), if_pos (by omega)]
      rfl
  · show (clock.wiring.edge clock.level.flip).1.core.halfTStates = _
    rw [hcore]
    exact hmoorings.2.2.trans (congrArg (· + 1) h.counted)
  · show (clock.wiring.edge clock.level.flip).1.core.Sound
    rw [hcore, hmoved]
    exact ((h.sound.edge _ _).finish stopping).withData _
  · show (clock.wiring.edge clock.level.flip).1.core.InStep clock.level.flip
    rw [hcore, hmoved]
    exact (h.inStep.edge h.sound stopping).2

/-- The edges of a row have the numbers from one on. -/
def TimedFrom (first : Nat) (edges : List (Board × Level)) : Prop :=
  ∀ i (hi : i < edges.length), Timed (first + i) edges[i]

theorem TimedFrom.append {edges more : List (Board × Level)} (h : TimedFrom count edges)
    (hmore : TimedFrom (count + edges.length) more) : TimedFrom count (edges ++ more) := by
  intro i hi
  rw [List.length_append] at hi
  rw [List.getElem_append]
  split
  · exact h i _
  · next hlate =>
    have hnumber : count + i = count + edges.length + (i - edges.length) := by omega
    rw [hnumber]
    exact hmore (i - edges.length) (by omega)

/-- What a clock delivers is in time. -/
theorem Steady.delivers {edges : List (Board × Level)} {stop : Option StopReason}
    (h : Steady clock count) (hdelivers : clock.Delivers edges next stop) :
    Steady next (count + edges.length) ∧ TimedFrom count edges := by
  induction hdelivers with
  | start => exact ⟨h, fun i hi => absurd hi (Nat.not_lt_zero i)⟩
  | edge _ ih =>
    obtain ⟨hsteady, htimed⟩ := ih
    refine ⟨?_, htimed.append fun i hi => ?_⟩
    · rw [List.length_append, ← Nat.add_assoc]
      exact hsteady.halfTick
    · obtain rfl : i = 0 := Nat.lt_one_iff.mp hi
      exact hsteady.timed

/-- The condition that a call has of its own changes nothing on the clock. -/
theorem Steady.calling (h : Steady m.clock count) (call : Call) :
    Steady (m.calling call).clock count := by
  cases call <;> exact ⟨h.level, h.halfTicks, h.counted, h.sound, h.inStep⟩

theorem Driven.steady (h : m.Driven log) : Steady m.clock log.length ∧ TimedFrom 0 log := by
  induction h with
  | @built config device m build =>
    rw [Machine.build] at build
    split at build
    · cases build
    · cases build
      exact ⟨⟨rfl, rfl, rfl, Core.sound_powerOn _ _, fun hphase => Phase.noConfusion hphase⟩,
        fun i hi => absurd hi (Nat.not_lt_zero i)⟩
  | @call m log h call ih =>
    obtain ⟨hsteady, htimed⟩ := ih
    obtain ⟨hnext, hmore⟩ := (hsteady.calling call).delivers (m.delivers_call call)
    refine ⟨?_, htimed.append (by rw [Nat.zero_add]; exact hmore)⟩
    rw [List.length_append]
    rcases m.perform_eq call with hperform | ⟨id, hperform⟩
    · rw [hperform]
      exact hnext
    · rw [hperform]
      exact ⟨hnext.level, hnext.halfTicks, hnext.counted, hnext.sound, hnext.inStep⟩
  | observe _ _ ih | removeObserver _ _ ih | addExitCondition _ _ ih | removeExitCondition _ _ ih
  | drainNotices _ ih | memory _ _ ih | device _ _ ih | input _ _ _ ih | images _ _ ih =>
    exact ⟨⟨ih.1.level, ih.1.halfTicks, ih.1.counted, ih.1.sound, ih.1.inStep⟩, ih.2⟩
  | regs _ f ih =>
    exact ⟨⟨ih.1.level, ih.1.halfTicks, ih.1.counted, ih.1.sound.modifyRegs f, ih.1.inStep⟩, ih.2⟩

/-- A tick is a rising edge and, unless there has been a stop, a falling one, or the falling edge that
    is left over. -/
theorem tape_tick (m : Machine) :
    m.tape .tick = if m.clock.level = .high then [(m.board, .low)]
      else if (m.board.edge .high).2.isSome then [(m.board, .high)]
      else [(m.board, .high), ((m.board.edge .high).1, .low)] := by
  show m.clock.taped.tick.1.wiring.tape = _
  have hedge : m.clock.taped.halfTick.2 = (m.board.edge m.clock.level.flip).2 := rfl
  have htape : m.clock.taped.halfTick.1.wiring.tape = [(m.board, m.clock.level.flip)] := rfl
  have hboard : m.clock.taped.halfTick.1.wiring.wiring = (m.board.edge m.clock.level.flip).1 := rfl
  have hlevel : m.clock.taped.halfTick.1.level = m.clock.level.flip := rfl
  rw [Clock.tick, show m.clock.taped.level = m.clock.level from rfl]
  cases hclock : m.clock.level <;> rw [hclock] at hedge htape hboard hlevel
  · cases hfirst : m.clock.taped.halfTick with
    | mk c stop =>
      rw [hfirst] at hedge htape hboard hlevel
      dsimp only at hedge htape hboard hlevel
      rw [if_pos (show Level.low.isLow = true from rfl), if_neg (show Level.low ≠ .high by decide),
        show (Level.high : Level) = Level.low.flip from rfl, ← hedge]
      cases stop with
      | some stop =>
        rw [if_pos (show (some stop).isSome = true from rfl)]
        exact htape
      | none =>
        rw [if_neg (show ¬ (none : Option StopReason).isSome = true from Bool.false_ne_true), ← hboard]
        show c.wiring.tape ++ [(c.wiring.wiring, c.level.flip)] = _
        rw [htape, hlevel]
        rfl
  · rw [if_neg (show ¬ Level.high.isLow = true by decide), if_pos (show Level.high = .high from rfl)]
    exact htape

/-- Every edge is delivered once and at its time, from a rising one on.  The clock and the chip count
    them alike, and the clock is high between an edge that rises and the next.  A call delivers its
    edges one by one until it is stopped. -/
theorem Driven.keeps_time (h : m.Driven log) :
    (∀ i (hi : i < log.length), Timed i log[i])
      ∧ m.clock.halfTicks = log.length ∧ m.core.halfTStates = m.clock.halfTicks
      ∧ (m.clock.level = .high ↔ m.clock.halfTicks % 2 = 1)
      ∧ (∀ call, (m.calling call).clock.Delivers (m.tape call) (m.driven call).clock
          (m.perform call).2)
      ∧ m.tape .tick = if m.clock.level = .high then [(m.board, .low)]
          else if (m.board.edge .high).2.isSome then [(m.board, .high)]
          else [(m.board, .high), ((m.board.edge .high).1, .low)] := by
  obtain ⟨hsteady, htimed⟩ := h.steady
  refine ⟨fun i hi => ?_, hsteady.halfTicks, ?_, ?_, m.delivers_call, m.tape_tick⟩
  · have hhere := htimed i hi
    rw [Nat.zero_add] at hhere
    exact hhere
  · exact hsteady.counted.trans hsteady.halfTicks.symm
  · rw [hsteady.level, hsteady.halfTicks]
    rcases Nat.mod_two_eq_zero_or_one log.length with hparity | hparity <;> rw [hparity] <;> decide

/-- A machine that stops on its third edge, which rises. -/
def tripping : Machine :=
  (idling.addExitCondition (.predicate (.single .halfTState) fun s _ => s.halfTStates = 3)).1

/-- A tick after that stop delivers the falling edge that is left over. -/
theorem tick_after_rising_stop :
    ∃ log, ((tripping.perform (.run 5)).1.perform .tick).1.Driven log
      ∧ log.map Prod.snd = [.high, .low, .high, .low]
      ∧ ((tripping.perform (.run 5)).1.perform .tick).1.clock.halfTicks = log.length := by
  have hbuilt : Machine.build { memorySize := 0x400 } .unattached = .ok idling := rfl
  have hdriven : tripping.Driven [] := (Driven.built hbuilt).addExitCondition _
  have hcalled := (hdriven.call (.run 5)).call .tick
  refine ⟨_, hcalled, ?_, hcalled.keeps_time.2.1⟩
  decide +kernel

end Machine

end Z80Board
