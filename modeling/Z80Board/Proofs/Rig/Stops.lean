import Z80Board.Proofs.Chip.Deferral
import Z80Board.Proofs.Rig.Answer
import Z80Board.Rig.Machine

/-! # Stops do not change the machine

    Two machines are alike but for those who follow the chip.  Nobody stops the first one.  The
    second one is stopped at will and resumed.  They stay alike, edge by edge, with one exception:
    when an instruction ends on an edge that stops, the second one has still to choose the next
    instruction.  Memory, the device and the buses are the same even then, and on the next edge the
    machines are alike again.

    The reason is that an instruction ends on a falling edge with no acknowledge in sight, and then
    no device changes the levels that it drives onto INT and NMI. -/

namespace Z80Board

/-! ## The levels of a device -/

/-- The levels that the device drives onto INT and NMI are those of the current period. -/
def Device.Levelled : Device → Prop
  | .unattached | .latch _ => True
  | .source s => s.int = s.levelOf .int ∧ s.nmi = s.levelOf .nmi
  | .pair first second => first.Levelled ∧ second.Levelled

variable {level : Level} {pins : Pins} {address : Bus Word} {data : Bus Byte}

/-- Without an acknowledge the script stays as it is. -/
theorem InterruptSource.script_answer (s : InterruptSource) (data : Bus Byte)
    (h : pins.interruptAcknowledge = false) : (s.answer pins data).1.pulses = s.pulses
      ∧ (s.answer pins data).1.risingEdges = s.risingEdges := by
  have hstop (s : InterruptSource) : (s.stopDriving data).1.pulses = s.pulses
      ∧ (s.stopDriving data).1.risingEdges = s.risingEdges := by
    rw [stopDriving]
    split <;> exact ⟨rfl, rfl⟩
  rw [answer]
  rw [h, if_neg Bool.false_ne_true]
  split
  · exact hstop _
  split
  · split <;> exact ⟨rfl, rfl⟩
  split
  · exact hstop _
  · split <;> exact ⟨rfl, rfl⟩

/-- The level of a pin follows from the script. -/
theorem InterruptSource.levelOf_congr {s s' : InterruptSource} (hpulses : s'.pulses = s.pulses)
    (hedges : s'.risingEdges = s.risingEdges) (pin : InputPin) : s'.levelOf pin = s.levelOf pin := by
  simp only [levelOf, period]
  rw [hpulses, hedges]

/-- After every edge the levels are those of the current period. -/
theorem Device.levelled_edge (device : Device) :
    (device.edge level pins address data).1.Levelled := by
  induction device generalizing data with
  | unattached | latch => trivial
  | source s => exact ⟨rfl, rfl⟩
  | pair first second ihfirst ihsecond => exact ⟨ihfirst, ihsecond⟩

/-- A falling edge without an acknowledge keeps the levels. -/
theorem Device.interrupts_edge_low (device : Device) (h : device.Levelled)
    (hpins : pins.interruptAcknowledge = false) :
    (device.edge .low pins address data).1.int = device.int
      ∧ (device.edge .low pins address data).1.nmi = device.nmi := by
  induction device generalizing data with
  | unattached | latch => exact ⟨rfl, rfl⟩
  | source s =>
    obtain ⟨hpulses, hedges⟩ := s.script_answer data hpins
    refine ⟨?_, ?_⟩
    · show (s.answer pins data).1.levelOf .int = s.int
      rw [InterruptSource.levelOf_congr hpulses hedges, h.1]
    · show (s.answer pins data).1.levelOf .nmi = s.nmi
      rw [InterruptSource.levelOf_congr hpulses hedges, h.2]
  | pair first second ihfirst ihsecond =>
    obtain ⟨hint, hnmi⟩ := @ihfirst data h.1
    obtain ⟨hint', hnmi'⟩ := @ihsecond (first.edge .low pins address data).2 h.2
    refine ⟨?_, ?_⟩
    · show Level.wiredAnd _ _ = Level.wiredAnd _ _
      rw [hint, hint']
    · show Level.wiredAnd _ _ = Level.wiredAnd _ _
      rw [hnmi, hnmi']

/-- No device looks at HALT. -/
theorem Device.edge_halt (device : Device) (halt : Level) :
    device.edge level { pins with halt } address data = device.edge level pins address data := by
  induction device generalizing data with
  | unattached | latch | source => rfl
  | pair first second ihfirst ihsecond =>
    show (Device.pair (first.edge level { pins with halt } address data).1 _, _) = _
    rw [ihfirst, ihsecond]
    rfl

/-! ## Those who do not stop -/

/-- There are no conditions, and no stop is held. -/
structure Hooks.Quiet (hooks : Hooks) : Prop where
  conditions : hooks.conditions = []
  tripped : hooks.tripped = none

namespace Hooks.Quiet

variable {hooks : Hooks}

/-- Without conditions nothing that is told brings about a stop. -/
theorem deliver (h : hooks.Quiet) (e : Emission) : (Processor.deliver hooks e).Quiet := by
  rw [Processor.deliver]
  split
  · refine ⟨h.conditions, ?_⟩
    show (hooks.tripped <|> hooks.stopAt e.core.snapshot e.event) = none
    rw [h.tripped, stopAt, h.conditions]
    split <;> rfl
  · exact h

theorem deliverAll (h : hooks.Quiet) (emitted : List Emission) :
    (Processor.deliverAll hooks emitted).Quiet := by
  induction emitted generalizing hooks with
  | nil => exact h
  | cons e rest ih => exact ih (h.deliver e)

end Hooks.Quiet

/-! ## The board apart from those who follow the chip -/

namespace Board

variable {a b : Board} {c : Core}

/-- The board with nobody following the chip. -/
def bare (b : Board) : Board :=
  { b with processor.hooks := {} }

/-- The board after an edge that the chip has left as `c`, with nobody following it. -/
def answered (b : Board) (level : Level) (c : Core) : Board :=
  ({ b with processor := ⟨c, {}⟩ } : Board).answer level

/-- Somebody asks to stop when an instruction ends on the next edge. -/
def stops (b : Board) (level : Level) : Bool :=
  (Processor.deliverAll b.processor.hooks (b.core.edge level b.inputs).emitted).isStopping

/-- An edge, apart from those who follow the chip. -/
theorem bare_edge (b : Board) (level : Level) :
    (b.edge level).1.bare
      = b.bare.answered level ((b.core.edge level b.inputs).finish (b.stops level)).1 := by
  rw [edge]
  rfl

/-- What an edge leads to follows from the board apart from the hooks, and from whether somebody asks
    to stop when an instruction has ended. -/
theorem bare_edge_congr (h : a.bare = b.bare)
    (hstops : (b.core.edge level b.inputs).ended = true → a.stops level = b.stops level) :
    (a.edge level).1.bare = (b.edge level).1.bare := by
  have hcore : a.core = b.core := show a.bare.core = b.bare.core from congrArg _ h
  have hinputs : a.inputs = b.inputs := show a.bare.inputs = b.bare.inputs from congrArg _ h
  rw [bare_edge, bare_edge, h, hcore, hinputs]
  cases hended : (b.core.edge level b.inputs).ended with
  | true => rw [hstops hended]
  | false =>
    simp only [Edge.finish]
    rw [hended]
    rfl

/-- Nobody asks to stop when there are no conditions. -/
theorem stops_of_quiet (h : b.processor.hooks.Quiet) (level : Level) : b.stops level = false := by
  rw [stops, Hooks.isStopping, (h.deliverAll _).tripped]
  rfl

/-- There are no conditions after an edge when there were none before it. -/
theorem quiet_edge (h : b.processor.hooks.Quiet) (level : Level) :
    (b.edge level).1.processor.hooks.Quiet := by
  have htold := (h.deliverAll (b.core.edge level b.inputs).emitted).deliverAll
    ((b.core.edge level b.inputs).finish (b.stops level)).2
  exact ⟨htold.conditions, rfl⟩

/-! ## A choice that is put off -/

/-- Choosing the next instruction is all that sets the first board apart from the second one, which
    has put it off.  The chip at the end of the instruction is `c`. -/
structure Defers (a b : Board) (c : Core) : Prop where
  chosen : ∃ data, a.core = { c.resolveNext with data }
    ∧ b.core = { c with boundaryPending := true, data }
  running : c.phase = .running
  pending : c.boundaryPending = false
  memory : a.memory = b.memory
  device : a.device = b.device
  host : a.host = b.host
  /-- INT and NMI are still at the levels that the chip has seen. -/
  levels : ∃ before, c.Remembers before ∧ b.inputs.int = before.int ∧ b.inputs.nmi = before.nmi
  reset : b.inputs.reset.isAsserted = false

/-- The pins that the chip leaves when an instruction ends do not acknowledge an interrupt. -/
theorem acknowledge_of_atRest {pins : Pins} (h : pins.AtRest) :
    pins.interruptAcknowledge = false := by
  have hturned := (Core.nobody_asked h).2.2
  rw [Pins.turnToDevice, Bool.or_eq_false_iff] at hturned
  exact hturned.1

/-- A chip that ends an instruction is not being reset. -/
theorem reset_of_ended {inputs : InputLevels} (h : (c.edge level inputs).ended = true) :
    inputs.reset.isAsserted = false := by
  refine Bool.eq_false_iff.mpr fun hreset => ?_
  rw [c.edge_eq, if_pos hreset] at h
  exact nomatch h

/-- What the chip leaves on its pins and buses does not show whether the choice has been made. -/
theorem answer_leaves {moved moved' : Core} (h : moved.Leaves moved') (memory : Memory)
    (device : Device) (level : Level) :
    memory.edge level moved'.pins moved'.address moved'.data
        = memory.edge level moved.pins moved.address moved.data
      ∧ memory.answered moved'.pins moved'.address moved'.data
        = memory.answered moved.pins moved.address moved.data
      ∧ ∀ data, device.edge level moved'.pins moved'.address data
        = device.edge level moved.pins moved.address data := by
  rw [h.pins, h.address, h.data]
  exact ⟨rfl, rfl, fun _ => device.edge_halt _⟩

/-- When an instruction ends on an edge that stops only the second board, all that sets the first
    one apart from it is its choice of the next instruction. -/
theorem defers_edge (halike : a.bare = b.bare) (hsound : b.core.Sound)
    (hstep : b.core.InStep level) (hfits : level = .high → b.device.Levelled)
    (hended : (b.core.edge level.flip b.inputs).ended = true)
    (hgoes : a.stops level.flip = false) (hstops : b.stops level.flip = true) :
    (a.edge level.flip).1.Defers (b.edge level.flip).1 (b.core.edge level.flip b.inputs).core := by
  have hcore : a.core = b.core := show a.bare.core = b.bare.core from congrArg _ halike
  have hinputs : a.inputs = b.inputs := show a.bare.inputs = b.bare.inputs from congrArg _ halike
  have hmemory : a.memory = b.memory := show a.bare.memory = b.bare.memory from congrArg _ halike
  have hdevice : a.device = b.device := show a.bare.device = b.bare.device from congrArg _ halike
  have hhost : a.host = b.host := show a.bare.host = b.bare.host from congrArg _ halike
  have hhigh : level = .high := (hstep.edge hsound true).1 hended
  have hreset : b.inputs.reset.isAsserted = false := reset_of_ended hended
  have hseen := b.core.remembers_edge level.flip b.inputs
  have hend := hsound.edge level.flip b.inputs
  rw [Core.Edge.Sound, if_pos hended] at hend
  obtain ⟨hrest, hrunning, hchosen⟩ := hend
  -- the one chooses now, and the other one later
  have hnow : a.moved level.flip = (b.core.edge level.flip b.inputs).core.resolveNext := by
    show ((a.core.edge level.flip a.inputs).finish (a.stops level.flip)).1 = _
    rw [hcore, hinputs, hgoes, Edge.finish, if_pos hended]
    rfl
  have hlater : b.moved level.flip
      = { (b.core.edge level.flip b.inputs).core with boundaryPending := true } := by
    show ((b.core.edge level.flip b.inputs).finish (b.stops level.flip)).1 = _
    rw [hstops, Edge.finish, if_pos hended]
    rfl
  obtain ⟨hmemA, hdevA, hcoreA⟩ := a.edge_parts level.flip
  obtain ⟨hmemB, hdevB, hcoreB⟩ := b.edge_parts level.flip
  generalize (b.core.edge level.flip b.inputs).core = c at *
  have hleaves : (b.moved level.flip).Leaves (a.moved level.flip) := by
    rw [hnow, hlater]
    exact ⟨Core.leaves_resolveNext.pins, Core.leaves_resolveNext.address,
      Core.leaves_resolveNext.data⟩
  obtain ⟨hfetched, hcarried, hdriven⟩ :=
    answer_leaves hleaves b.memory b.device level.flip
  rw [hmemory, hfetched, ← hmemB] at hmemA
  rw [hmemory, hdevice, hcarried, hdriven] at hdevA hcoreA
  -- and no device has changed the levels of INT and NMI
  have hkept : (b.edge level.flip).1.device.int = b.device.int
      ∧ (b.edge level.flip).1.device.nmi = b.device.nmi := by
    rw [hdevB, hlater, hhigh]
    exact b.device.interrupts_edge_low (hfits hhigh) (acknowledge_of_atRest hrest)
  have hlevels : (b.edge level.flip).1.inputs.int = b.inputs.int
      ∧ (b.edge level.flip).1.inputs.nmi = b.inputs.nmi := by
    refine ⟨?_, ?_⟩
    · show b.host.int.wiredAnd (b.edge level.flip).1.device.int = _
      rw [hkept.1]
      rfl
    · show b.host.nmi.wiredAnd (b.edge level.flip).1.device.nmi = _
      rw [hkept.2]
      rfl
  obtain ⟨data, hdataA, hdataB⟩ : ∃ data,
      (a.edge level.flip).1.core = { a.moved level.flip with data }
        ∧ (b.edge level.flip).1.core = { b.moved level.flip with data } := ⟨_, hcoreA, hcoreB⟩
  rw [hnow] at hdataA
  rw [hlater] at hdataB
  exact {
    chosen := ⟨data, hdataA, hdataB⟩
    running := hrunning
    pending := hchosen
    memory := hmemA
    device := hdevA.trans hdevB.symm
    host := hhost
    levels := ⟨_, hseen, hlevels⟩
    reset := hreset }

/-- The next edge leads both boards to the same, if nobody asks the first one to stop. -/
theorem Defers.edge (h : a.Defers b c) (hgoes : (b.core.edge level b.inputs).ended = false) :
    (a.edge level).1.bare = (b.edge level).1.bare := by
  obtain ⟨data, hnow, hlater⟩ := h.chosen
  obtain ⟨before, hseen, hint, hnmi⟩ := h.levels
  have hinputs : a.inputs = b.inputs := by
    show InputLevels.mk _ _ _ _ _ = InputLevels.mk _ _ _ _ _
    rw [h.memory, h.device, h.host]
  obtain ⟨hcore, hended⟩ := Core.edge_deferred data level h.running h.pending hseen
    h.reset hint hnmi
  rw [← hlater, ← hnow] at hcore hended
  have hbare (k : Core) : a.bare.answered level k = b.bare.answered level k := by
    show Board.answer (Board.mk _ a.memory a.device a.host) level = _
    rw [h.memory, h.device, h.host]
    rfl
  rw [bare_edge, bare_edge, hbare, hinputs, Edge.finish, Edge.finish, ← hended, hgoes, hcore]
  rfl

end Board

/-! ## Machines between edges -/

namespace Machine

/-- A machine that a host can have brought about: built from a configuration, driven by its clock,
    and changed by the host in between.  A device that the host puts in while the clock is high
    drives the levels of the current period already. -/
inductive Reached : Machine → Prop where
  | built {config : BoardConfig} {device : Device} {m : Machine}
    (build : Machine.build config device = .ok m) : Reached m
  | halfTick {m : Machine} (h : Reached m) : Reached m.halfTick.1
  | hooks {m : Machine} (h : Reached m) (f : Hooks → Hooks) : Reached (m.modifyHooks f)
  | regs {m : Machine} (h : Reached m) (f : Registers → Registers) : Reached (m.modifyRegs f)
  | memory {m : Machine} (h : Reached m) (f : Memory → Memory) : Reached (m.modifyMemory f)
  | device {m : Machine} (h : Reached m) (f : Device → Device)
    (fits : m.clock.level = .high → (f m.device).Levelled) : Reached (m.modifyDevice f)
  | input {m : Machine} (h : Reached m) (pin : InputPin) (level : Level) :
    Reached (m.setInput pin level)
  | images {m : Machine} (h : Reached m) (images : List ProgramImage) : Reached { m with images }

/-- What holds of a machine between edges. -/
structure Coherent (m : Machine) : Prop where
  sound : m.core.Sound
  inStep : m.core.InStep m.clock.level
  levelled : m.clock.level = .high → m.device.Levelled

variable {a b m : Machine}

/-- Every edge leaves the machine coherent. -/
theorem Coherent.halfTick (h : m.Coherent) : m.halfTick.1.Coherent := by
  have hcore := (m.board.edge_parts m.clock.level.flip).2.2
  have hdevice := (m.board.edge_parts m.clock.level.flip).2.1
  obtain ⟨stopping, hmoved⟩ := m.board.moved_eq m.clock.level.flip
  rw [hmoved] at hcore
  refine ⟨?_, ?_, fun _ => ?_⟩
  · show (m.board.edge m.clock.level.flip).1.core.Sound
    rw [hcore]
    exact ((h.sound.edge _ _).finish stopping).withData _
  · show (m.board.edge m.clock.level.flip).1.core.InStep m.clock.level.flip
    rw [hcore]
    exact (h.inStep.edge h.sound stopping).2
  · show (m.board.edge m.clock.level.flip).1.device.Levelled
    rw [hdevice]
    exact m.board.device.levelled_edge

/-- Every machine that a host can have brought about is coherent. -/
theorem Reached.coherent (h : m.Reached) : m.Coherent := by
  induction h with
  | @built config device m build =>
    rw [Machine.build] at build
    split at build
    · exact nomatch build
    · cases build
      exact ⟨Core.sound_powerOn _ _, nofun, nofun⟩
  | halfTick _ ih => exact ih.halfTick
  | hooks _ _ ih | memory _ _ ih | input _ _ _ ih | images _ _ ih =>
    exact ⟨ih.sound, ih.inStep, ih.levelled⟩
  | regs _ f ih => exact ⟨ih.sound.modifyRegs f, ih.inStep, ih.levelled⟩
  | device _ _ fits ih => exact ⟨ih.sound, ih.inStep, fits⟩

/-! ## Edge by edge -/

/-- The machine after a number of edges. -/
def after (m : Machine) : Nat → Machine
  | 0 => m
  | n + 1 => (m.after n).halfTick.1

/-- The machine with another board. -/
def onBoard (m : Machine) (b : Board) : Machine :=
  m.modifyBoard fun _ => b

/-- The machine with nobody following its chip. -/
def bare (m : Machine) : Machine :=
  m.onBoard m.board.bare

/-- The next edge ends an instruction, and somebody asks to stop there. -/
def StopsAtEnd (m : Machine) : Prop :=
  (m.core.edge m.clock.level.flip m.board.inputs).ended = true
    ∧ m.board.stops m.clock.level.flip = true

/-- What a host does to go on. -/
inductive Resume where
  | halfTick
  | tick
  | run (limit : Nat)

/-- The machine after the host has gone on, until the next stop at the latest. -/
def resume (m : Machine) : Resume → Machine
  | .halfTick => m.halfTick.1
  | .tick => m.tick.1
  | .run limit => (m.run limit).1

theorem after_add (m : Machine) (n k : Nat) : m.after (n + k) = (m.after n).after k := by
  induction k with
  | zero => rfl
  | succ k ih =>
    show (m.after (n + k)).halfTick.1 = ((m.after n).after k).halfTick.1
    rw [ih]

theorem tick_after (m : Machine) : ∃ n, m.tick.1 = m.after n := by
  have htick : m.tick.1 = { m with clock := m.clock.tick.1 } := rfl
  rw [htick, Clock.tick]
  split
  · split
    · next c _ hedge => exact ⟨1, by rw [after, after, Machine.halfTick, hedge]⟩
    · next c hedge => exact ⟨2, by rw [after, after, after, Machine.halfTick, Machine.halfTick, hedge]⟩
  · exact ⟨1, rfl⟩

theorem run_after (m : Machine) (limit : Nat) : ∃ n, (m.run limit).1 = m.after n := by
  induction limit generalizing m with
  | zero => exact ⟨0, rfl⟩
  | succ limit ih =>
    obtain ⟨n, hn⟩ := m.tick_after
    have hclock : m.clock.tick.1 = (m.after n).clock := congrArg Machine.clock hn
    have hrun : (m.run (limit + 1)).1 = { m with clock := (m.clock.run (limit + 1)).1 } := rfl
    rw [Clock.run] at hrun
    split at hrun
    · next c stop hstop =>
      rw [hstop] at hclock
      refine ⟨n, hrun.trans ?_⟩
      rw [← hn]
      show { m with clock := c } = { m with clock := m.clock.tick.1 }
      rw [hstop]
    · next c hgoes =>
      obtain ⟨k, hk⟩ := ih { m with clock := c }
      refine ⟨n + k, hrun.trans ?_⟩
      rw [after_add, ← hn]
      show (({ m with clock := c } : Machine).run limit).1 = ({ m with clock := m.clock.tick.1 } : Machine).after k
      rw [hgoes]
      exact hk

/-- However the host goes on, it is by a number of edges. -/
theorem resume_after (m : Machine) (command : Resume) : ∃ n, m.resume command = m.after n := by
  cases command with
  | halfTick => exact ⟨1, rfl⟩
  | tick => exact m.tick_after
  | run limit => exact m.run_after limit

/-- So it is for any number of commands. -/
theorem resumes_after (m : Machine) (commands : List Resume) :
    ∃ n, commands.foldl resume m = m.after n := by
  induction commands generalizing m with
  | nil => exact ⟨0, rfl⟩
  | cons command rest ih =>
    obtain ⟨n, hn⟩ := m.resume_after command
    obtain ⟨k, hk⟩ := ih (m.after n)
    refine ⟨n + k, ?_⟩
    rw [List.foldl_cons, hn, hk, after_add]

/-! ## With and without stops -/

/-- How a machine that nobody stops stands to one that is stopped at will: they are alike, or the
    second one has still to choose its next instruction, while the clock is low. -/
inductive Accompanies (a b : Machine) : Prop where
  | alike (same : a.bare = b.bare)
  | ahead (c : Core) (defers : a.board.Defers b.board c) (low : b.clock.level = .low)
    (apart : ∀ board, a.onBoard board = b.onBoard board)

/-- Machines with the same board, apart from the hooks, are alike when they are so apart from the
    board. -/
theorem bare_of_board (hboard : a.board.bare = b.board.bare)
    (hapart : ∀ board, a.onBoard board = b.onBoard board) : a.bare = b.bare := by
  rw [bare, bare, hboard, hapart]

theorem apart_of_bare (h : a.bare = b.bare) (board : Board) : a.onBoard board = b.onBoard board :=
  show a.bare.onBoard board = b.bare.onBoard board from congrArg (onBoard · board) h

/-- Apart from the board an edge does the same to both machines. -/
theorem apart_halfTick (h : ∀ board, a.onBoard board = b.onBoard board) (board : Board) :
    a.halfTick.1.onBoard board = b.halfTick.1.onBoard board := by
  have hsame := congrArg (fun m : Machine => m.halfTick.1.onBoard board) (h board)
  exact hsame

/-- One edge: the machines become alike, unless it stops the second one at the end of an
    instruction. -/
theorem Accompanies.halfTick (h : a.Accompanies b) (hb : b.Coherent) (hquiet : a.hooks.Quiet) :
    (¬ b.StopsAtEnd → a.halfTick.1.bare = b.halfTick.1.bare)
      ∧ a.halfTick.1.Accompanies b.halfTick.1 := by
  have hgoes (level : Level) : a.board.stops level = false := Board.stops_of_quiet hquiet level
  cases h with
  | alike same =>
    have hlevel : a.clock.level = b.clock.level :=
      show a.bare.clock.level = b.bare.clock.level by rw [same]
    have hboard : a.board.bare = b.board.bare :=
      show a.bare.board = b.bare.board from congrArg _ same
    have hapart := apart_halfTick (apart_of_bare same)
    by_cases hstops : b.StopsAtEnd
    · refine ⟨fun hnot => absurd hstops hnot, ?_⟩
      have hhigh : b.clock.level = .high := (hb.inStep.edge hb.sound true).1 hstops.1
      refine .ahead (b.core.edge b.clock.level.flip b.board.inputs).core ?_
        (show b.clock.level.flip = .low by rw [hhigh]; rfl) hapart
      show (a.board.edge a.clock.level.flip).1.Defers (b.board.edge b.clock.level.flip).1 _
      rw [hlevel]
      exact Board.defers_edge hboard hb.sound hb.inStep hb.levelled hstops.1 (hgoes _) hstops.2
    · have hbare : a.halfTick.1.bare = b.halfTick.1.bare := by
        refine bare_of_board ?_ hapart
        show (a.board.edge a.clock.level.flip).1.bare = (b.board.edge b.clock.level.flip).1.bare
        rw [hlevel]
        refine Board.bare_edge_congr hboard fun hended => ?_
        rw [hgoes]
        exact (Bool.eq_false_iff.mpr fun hasks => hstops ⟨hended, hasks⟩).symm
      exact ⟨fun _ => hbare, .alike hbare⟩
  | ahead c defers low apart =>
    have hlevel : a.clock.level = b.clock.level :=
      show (a.onBoard b.board).clock.level = (b.onBoard b.board).clock.level by rw [apart]
    have hnone : (b.core.edge b.clock.level.flip b.board.inputs).ended = false := by
      refine Bool.eq_false_iff.mpr fun hended => ?_
      exact nomatch low.symm.trans ((hb.inStep.edge hb.sound true).1 hended)
    have hbare : a.halfTick.1.bare = b.halfTick.1.bare := by
      refine bare_of_board ?_ (apart_halfTick apart)
      show (a.board.edge a.clock.level.flip).1.bare = (b.board.edge b.clock.level.flip).1.bare
      rw [hlevel]
      exact defers.edge hnone
    exact ⟨fun _ => hbare, .alike hbare⟩

/-- Memory, the device and the buses are always the same. -/
theorem Accompanies.memory (h : a.Accompanies b) : a.memory = b.memory := by
  cases h with
  | alike same => exact show a.bare.memory = b.bare.memory by rw [same]
  | ahead c defers => exact defers.memory

theorem Accompanies.device (h : a.Accompanies b) : a.device = b.device := by
  cases h with
  | alike same => exact show a.bare.device = b.bare.device by rw [same]
  | ahead c defers => exact defers.device

theorem Accompanies.addressLines (h : a.Accompanies b) : a.core.address = b.core.address := by
  cases h with
  | alike same => exact show a.bare.core.address = b.bare.core.address by rw [same]
  | ahead c defers =>
    obtain ⟨data, hnow, hlater⟩ := defers.chosen
    show a.board.core.address = b.board.core.address
    rw [hnow, hlater]
    exact Core.leaves_resolveNext.address

theorem Accompanies.dataLines (h : a.Accompanies b) : a.core.data = b.core.data := by
  cases h with
  | alike same => exact show a.bare.core.data = b.bare.core.data by rw [same]
  | ahead c defers =>
    obtain ⟨data, hnow, hlater⟩ := defers.chosen
    show a.board.core.data = b.board.core.data
    rw [hnow, hlater]

/-- Nobody who stops the machine changes it.  Between two machines that are alike but for those who
    follow their chips, the first of which nobody stops, there is no difference after any number of
    edges, however the second one is stopped and resumed.  Only where an edge has ended an instruction
    with a stop are memory, the device and the buses all that is the same; the next edge makes up for
    the rest. -/
theorem Reached.stops_unseen (hb : b.Reached) (hquiet : a.hooks.Quiet) (halike : a.bare = b.bare) :
    (∀ commands : List Resume, ∃ n, commands.foldl resume b = b.after n)
      ∧ ∀ n, (¬ (b.after n).StopsAtEnd → (a.after (n + 1)).bare = (b.after (n + 1)).bare)
        ∧ ((b.after n).StopsAtEnd →
          (a.after (n + 1)).memory = (b.after (n + 1)).memory
            ∧ (a.after (n + 1)).device = (b.after (n + 1)).device
            ∧ (a.after (n + 1)).core.address = (b.after (n + 1)).core.address
            ∧ (a.after (n + 1)).core.data = (b.after (n + 1)).core.data
            ∧ (a.after (n + 2)).bare = (b.after (n + 2)).bare) := by
  have hreached (n : Nat) : (b.after n).Reached := by
    induction n with
    | zero => exact hb
    | succ n ih => exact ih.halfTick
  have hquiet' (n : Nat) : (a.after n).hooks.Quiet := by
    induction n with
    | zero => exact hquiet
    | succ n ih => exact Board.quiet_edge ih _
  have hstep (n : Nat) (h : (a.after n).Accompanies (b.after n)) :=
    h.halfTick (hreached n).coherent (hquiet' n)
  have htogether (n : Nat) : (a.after n).Accompanies (b.after n) := by
    induction n with
    | zero => exact .alike halike
    | succ n ih => exact (hstep n ih).2
  refine ⟨b.resumes_after, fun n => ⟨(hstep n (htogether n)).1, fun hstops => ?_⟩⟩
  -- the clock is low after such an edge, so that the next one ends no instruction
  have hcoherent := (hreached n).coherent
  have hcoherent' := (hreached (n + 1)).coherent
  have hhigh : (b.after n).clock.level = .high :=
    (hcoherent.inStep.edge hcoherent.sound true).1 hstops.1
  have hgoes : ¬ (b.after (n + 1)).StopsAtEnd := by
    intro hagain
    have hhigh' := (hcoherent'.inStep.edge hcoherent'.sound true).1 hagain.1
    have hlow : (b.after (n + 1)).clock.level = .low :=
      show (b.after n).clock.level.flip = .low by rw [hhigh]; rfl
    exact nomatch hlow.symm.trans hhigh'
  have hnext := (hstep (n + 1) (htogether (n + 1))).1 hgoes
  exact ⟨(htogether (n + 1)).memory, (htogether (n + 1)).device, (htogether (n + 1)).addressLines,
    (htogether (n + 1)).dataLines, hnext⟩

/-- A machine over zeros, each of which is an instruction that does nothing. -/
def idling : Machine :=
  { clock := .atRest
      { processor := .powerOn (.released 0xFFFF) (.released 0xFF)
        memory := .ofSize (.truncated addressBus 10) 0x400
        device := .unattached } 3500000 }

/-- The same machine with a stop at the end of every instruction. -/
def stopping : Machine :=
  idling.modifyHooks fun hooks =>
    (hooks.addExitCondition (.predicate (.single .instructionEnd) fun _ _ => true)).1

/-- The first instruction ends on the eighth edge, and nothing of the stop is left after the
    ninth. -/
theorem stop_of_first_instruction :
    stopping.Reached ∧ idling.hooks.Quiet ∧ idling.bare = stopping.bare
      ∧ (stopping.after 7).StopsAtEnd
      ∧ (idling.after 8).memory = (stopping.after 8).memory
      ∧ (idling.after 9).bare = (stopping.after 9).bare := by
  have hbuilt : Machine.build { memorySize := 0x400 } .unattached = .ok idling := rfl
  have hreached : stopping.Reached := (Reached.built hbuilt).hooks _
  have hquiet : idling.hooks.Quiet := ⟨rfl, rfl⟩
  have hstops : (stopping.after 7).StopsAtEnd := by
    constructor <;> decide +kernel
  have hunseen := (hreached.stops_unseen hquiet rfl).2 7
  obtain ⟨hmemory, -, -, -, hbare⟩ := hunseen.2 hstops
  exact ⟨hreached, hquiet, rfl, hstops, hmemory, hbare⟩

end Machine

end Z80Board
