import Z80Board.Proofs.Chip.Afresh
import Z80Board.Proofs.Rig.Stops

/-! # After a reset the machine starts afresh

    A reset ends whatever is in progress but clears only part of the chip, and memory keeps a count
    of the access that was going on.  Even so the machine goes on as a new one would that has the
    same bytes in memory: from the first rising edge on, both show the same after every edge and
    emit the same events, however the host drives them and whoever follows them, as long as both are
    stopped together or neither is.  Only the counters tell them apart, and by a constant. -/

namespace Z80Board

/-! ## Memory -/

namespace Memory

/-- Two memories that differ at most in the edges they have counted, and not while they are being
    accessed. -/
structure Twin (m m' : Memory) : Prop where
  same : m' = { m with risingEdges := m'.risingEdges }
  counts : m.selected = true → m'.risingEdges = m.risingEdges

/-- An edge drives the same onto the data bus, and leaves such memories as they are. -/
theorem Twin.edge {m m' : Memory} (h : m.Twin m') (level : Level) (pins : Pins)
    (address : Bus Word) (data : Bus Byte) :
    m'.answered pins address data = m.answered pins address data
      ∧ (m.edge level pins address data).1.Twin (m'.edge level pins address data).1 := by
  obtain ⟨hsame, hcounts⟩ := h
  generalize m'.risingEdges = edges at hsame hcounts
  subst hsame
  refine ⟨rfl, ?_⟩
  rw [edge_eq, edge_eq]
  have htracked : pins.memoryRequest = true →
      ({ m with risingEdges := edges } : Memory).track level pins = m.track level pins := by
    intro hrequest
    cases hselected : m.selected with
    | true => simp only [track, hrequest, hselected, hcounts hselected]
    | false => simp only [track, hrequest, hselected, Bool.not_false, Bool.and_self, if_true]
  cases hrequest : pins.memoryRequest with
  | true =>
    rw [htracked hrequest]
    exact ⟨rfl, fun _ => rfl⟩
  | false =>
    simp only [track, hrequest]
    exact ⟨rfl, nofun⟩

/-- Memory at rest, with the same bytes. -/
def atRest (m : Memory) : Memory :=
  { m with selected := false, driving := false, risingEdges := 0, wait := .released }

/-- While no strobe is up, memory comes to rest, and leaves a data bus alone that it did not drive. -/
theorem rests_edge (m : Memory) (level : Level) {pins : Pins} (h : pins.AtRest)
    (address : Bus Word) (data : Bus Byte) :
    m.answered pins address data = (if m.driving then data.release else data)
      ∧ (m.edge level pins address data).1.atRest.Twin (m.edge level pins address data).1 := by
  obtain ⟨hasks, -, -⟩ := Core.nobody_asked h
  have hrequest : pins.memoryRequest = false := by
    simp only [Pins.AtRest, Pins.strobes, Prod.mk.injEq] at h
    rw [Pins.memoryRequest, h.2.1]
    rfl
  rw [answered, edge_eq, hasks]
  refine ⟨rfl, ?_, by rintro ⟨⟩⟩
  simp only [track, atRest, hrequest]
  rfl

end Memory

/-! ## The data bus -/

/-- No device changes what the data bus floats to. -/
theorem Device.floating_edge (device : Device) (level : Level) (pins : Pins) (address : Bus Word)
    (data : Bus Byte) : (device.edge level pins address data).2.floating = data.floating := by
  have hstop (s : InterruptSource) (data : Bus Byte) :
      (s.stopDriving data).2.floating = data.floating := by
    rw [InterruptSource.stopDriving]
    split <;> rfl
  induction device generalizing data with
  | unattached => rfl
  | latch l =>
    show (l.drive pins address.value data).2.floating = data.floating
    rw [PortLatch.drive]
    split
    · rfl
    · split <;> rfl
  | source s =>
    have hanswer (s : InterruptSource) : (s.answer pins data).2.floating = data.floating := by
      rw [InterruptSource.answer]
      split
      · rfl
      split
      · exact hstop _ _
      split
      · split <;> rfl
      split
      · exact hstop _ _
      · split <;> rfl
    exact hanswer _
  | pair first second ihfirst ihsecond => exact (ihsecond _).trans (ihfirst data)

namespace Board

variable {b : Board} {level : Level}

/-- What an edge tells, in order. -/
def emissions (b : Board) (level : Level) : List Emission :=
  (b.core.edge level b.inputs).emitted
    ++ ((b.core.edge level b.inputs).finish (b.stops level)).2

/-- Those who follow the chip are told just that. -/
theorem hooks_step (b : Board) (level : Level) :
    (b.processor.step level b.inputs).hooks
      = Processor.deliverAll b.processor.hooks (b.emissions level) := by
  rw [emissions, Processor.deliverAll, List.foldl_append]
  rfl

/-- An edge with nothing but memory on the buses. -/
theorem edge_unattached (b : Board) (level : Level) (h : b.device = .unattached) :
    (b.edge level).1.device = .unattached
      ∧ (b.edge level).1.core = { b.moved level with
        data := b.memory.answered (b.moved level).pins (b.moved level).address
          (b.moved level).data } := by
  obtain ⟨-, hdevice, hcore⟩ := b.edge_parts level
  rw [h] at hdevice hcore
  exact ⟨hdevice, hcore⟩

/-! ## Boards that run alike -/

variable {a : Board} {n t : Nat}

/-- The board `b` is the board `a`, but for what another run has left in it and is not used any
    more. -/
structure Mirrors (a b : Board) (n t : Nat) : Prop where
  cores : a.core.Mirrors b.core n t
  sound : a.core.Sound
  memory : a.memory.Twin b.memory
  alone : a.device = .unattached ∧ b.device = .unattached
  host : b.host = a.host

/-- The chips on boards that are alike around them get the same inputs. -/
theorem inputs_alike (hmemory : a.memory.Twin b.memory)
    (halone : a.device = .unattached ∧ b.device = .unattached) (hhost : b.host = a.host) :
    b.inputs = a.inputs := by
  have hwait : b.memory.wait = a.memory.wait := by
    rw [hmemory.same]
  rw [inputs, inputs, hwait, halone.1, halone.2, hhost]

/-- If an edge comes to the same for the chips, then it does for the boards. -/
theorem mirrors_edge (hsound : a.core.Sound) (hmemory : a.memory.Twin b.memory)
    (halone : a.device = .unattached ∧ b.device = .unattached) (hhost : b.host = a.host)
    (hedge : Core.Edge.Mirrors (a.core.edge level a.inputs) (b.core.edge level b.inputs) n t)
    (hstops : (a.core.edge level a.inputs).ended = true → b.stops level = a.stops level) :
    (a.edge level).1.Mirrors (b.edge level).1 n t
      ∧ (b.emissions level).map Emission.event = (a.emissions level).map Emission.event := by
  obtain ⟨hmoved, htold⟩ := hedge.finish hstops
  have hmoved : (a.moved level).Mirrors (b.moved level) n t := hmoved
  have hwires : (b.moved level).pins = (a.moved level).pins
      ∧ (b.moved level).address = (a.moved level).address
      ∧ (b.moved level).data = (a.moved level).data := by
    obtain ⟨r, -, -, -, hr⟩ := hmoved.alike
    rw [hr]
    exact ⟨rfl, rfl, rfl⟩
  obtain ⟨hanswered, htwin⟩ := hmemory.edge level (a.moved level).pins (a.moved level).address
    (a.moved level).data
  obtain ⟨hdeviceA, hcoreA⟩ := a.edge_unattached level halone.1
  obtain ⟨hdeviceB, hcoreB⟩ := b.edge_unattached level halone.2
  rw [hwires.1, hwires.2.1, hwires.2.2, hanswered] at hcoreB
  refine ⟨⟨?_, ?_, ?_, ⟨hdeviceA, hdeviceB⟩, hhost⟩, ?_⟩
  · rw [hcoreA, hcoreB]
    exact hmoved.map (f := fun c => { c with data := _ }) (fun _ _ => rfl) rfl rfl rfl id
  · rw [hcoreA]
    exact ((hsound.edge level a.inputs).finish (a.stops level)).withData _
  · rw [(a.edge_parts level).1, (b.edge_parts level).1, hwires.1, hwires.2.1, hwires.2.2]
    exact htwin
  · rw [emissions, emissions, List.map_append, List.map_append, hedge.events, htold]

/-- Every edge comes to the same, if somebody asks to stop on both boards or on neither. -/
theorem Mirrors.edge (h : a.Mirrors b n t)
    (hstops : (a.core.edge level a.inputs).ended = true → b.stops level = a.stops level) :
    (a.edge level).1.Mirrors (b.edge level).1 n t
      ∧ (b.emissions level).map Emission.event = (a.emissions level).map Emission.event := by
  refine mirrors_edge h.sound h.memory h.alone h.host ?_ hstops
  rw [inputs_alike h.memory h.alone h.host]
  exact h.cores.edge h.sound level a.inputs

end Board

namespace Machine

variable {m a b : Machine} {n t : Nat}

/-! ## What every machine keeps -/

/-- All lines float high, and the edges are counted from a low clock. -/
structure Regular (m : Machine) : Prop where
  address : m.core.address.floating = 0xFFFF
  data : m.core.data.floating = 0xFF
  parity : m.core.halfTStates % 2 = if m.clock.level = .low then 0 else 1

theorem Regular.halfTick (h : m.Regular) : m.halfTick.1.Regular := by
  obtain ⟨-, -, hcore⟩ := m.board.edge_parts m.clock.level.flip
  obtain ⟨stopping, hmoved⟩ := m.board.moved_eq m.clock.level.flip
  have hstanding := m.board.core.moorings_edge m.clock.level.flip m.board.inputs stopping
  simp only [Core.moorings, Prod.mk.injEq] at hstanding
  rw [← hmoved] at hstanding
  obtain ⟨haddress, hdata, htime⟩ := hstanding
  refine ⟨?_, ?_, ?_⟩
  · show (m.board.edge m.clock.level.flip).1.core.address.floating = _
    rw [hcore]
    exact haddress.trans h.address
  · show (m.board.edge m.clock.level.flip).1.core.data.floating = _
    rw [hcore]
    exact (Device.floating_edge _ _ _ _ _).trans
      ((Memory.floating_answered _ _ _ _).trans (hdata.trans h.data))
  · show (m.board.edge m.clock.level.flip).1.core.halfTStates % 2
      = if m.clock.level.flip = .low then 0 else 1
    have hparity := h.parity
    rw [hcore, show Core.halfTStates _ = m.core.halfTStates + 1 from htime]
    cases hlevel : m.clock.level <;> rw [hlevel] at hparity
    · have hparity : m.core.halfTStates % 2 = 0 := hparity
      show (m.core.halfTStates + 1) % 2 = 1
      omega
    · have hparity : m.core.halfTStates % 2 = 1 := hparity
      show (m.core.halfTStates + 1) % 2 = 0
      omega

theorem Reached.regular (h : m.Reached) : m.Regular := by
  induction h with
  | @built config device m build =>
    rw [Machine.build] at build
    split at build
    · cases build
    · cases build
      exact ⟨rfl, rfl, rfl⟩
  | halfTick _ ih => exact ih.halfTick
  | hooks _ _ ih | regs _ _ ih | memory _ _ ih | device _ _ _ ih | input _ _ _ ih | images _ _ ih =>
    exact ⟨ih.address, ih.data, ih.parity⟩

/-! ## The machine after a reset -/

/-- The machine is about to start: the last edge was one with RESET, and whatever came since then was
    a falling edge. -/
inductive Released : Machine → Prop where
  /-- An edge with RESET and without NMI, and with nothing but memory on the buses. -/
  | reset {m : Machine} (h : m.Reached) (alone : m.device = .unattached)
    (reset : m.board.host.reset.isAsserted = true) (nmi : m.board.host.nmi.isAsserted = false) :
    Released m.halfTick.1
  /-- A falling edge without NMI. -/
  | falls {m : Machine} (h : Released m) (falling : m.clock.level = .high)
    (reset : m.board.host.reset.isAsserted = false) (nmi : m.board.host.nmi.isAsserted = false) :
    Released m.halfTick.1
  | input {m : Machine} (h : Released m) (pin : InputPin) (level : Level) :
    Released (m.setInput pin level)
  | hooks {m : Machine} (h : Released m) (f : Hooks → Hooks) : Released (m.modifyHooks f)

/-- The machine as it is built, with the same bytes in memory and nothing on the buses besides.  The
    host drives what it drives. -/
def renewed (m : Machine) : Machine :=
  { m with
    clock := .atRest
      { processor := .powerOn (.released 0xFFFF) (.released 0xFF)
        memory := m.memory.atRest
        device := .unattached
        host := m.board.host }
      m.clock.frequencyHz }

/-- A machine that has just been built is as new. -/
theorem renewed_built {config : BoardConfig} (h : build config .unattached = .ok m) :
    m.renewed = m := by
  rw [build] at h
  split at h
  · cases h
  · cases h
    rfl

/-- What is known of a machine that is about to start. -/
structure Waiting (m : Machine) : Prop where
  core : m.core.Unstarted
  address : m.core.address = .released 0xFFFF
  data : m.core.data = .released 0xFF
  memory : m.memory.atRest.Twin m.memory
  alone : m.device = .unattached

/-- A machine that is about to start is one that a host can have brought about. -/
theorem Released.reached (h : m.Released) : m.Reached := by
  induction h with
  | reset h => exact h.halfTick
  | falls _ _ _ _ ih => exact ih.halfTick
  | input _ pin level ih => exact ih.input pin level
  | hooks _ f ih => exact ih.hooks f

/-- An edge that leaves the chip waiting leaves the machine waiting. -/
theorem waiting_halfTick {k : Core} (hmoved : m.board.moved m.clock.level.flip = k)
    (hcore : k.Unstarted) (haddress : k.address = .released 0xFFFF)
    (hdata : k.data = .released 0xFF) (halone : m.device = .unattached) : m.halfTick.1.Waiting := by
  obtain ⟨hdevice, hleft⟩ := m.board.edge_unattached m.clock.level.flip halone
  obtain ⟨hanswered, hmemory⟩ := m.memory.rests_edge m.clock.level.flip hcore.atRest
    k.address k.data
  have hcarried : m.memory.answered k.pins k.address k.data = .released 0xFF := by
    rw [hanswered, hdata]
    exact ite_self _
  have hedge := (m.board.edge_parts m.clock.level.flip).1
  rw [hmoved] at hleft hedge
  have hleft : m.halfTick.1.core = { k with data := .released 0xFF } := by
    rw [← hcarried]
    exact hleft
  have hedge : m.halfTick.1.memory
      = (m.memory.edge m.clock.level.flip k.pins k.address k.data).1 := hedge
  refine ⟨?_, ?_, ?_, ?_, hdevice⟩
  · rw [hleft]
    exact ⟨hcore.phase, hcore.regs, hcore.released, hcore.quiet, hcore.ready⟩
  · rw [hleft]
    exact haddress
  · rw [hleft]
  · rw [hedge]
    exact hmemory

theorem Released.waiting (h : m.Released) : m.Waiting := by
  induction h with
  | @reset m h alone reset nmi =>
    have hnmi : m.board.inputs.nmi.isAsserted = false := by
      show (m.board.host.nmi.wiredAnd m.device.nmi).isAsserted = false
      rw [alone, Level.isAsserted_wiredAnd, nmi]
      rfl
    refine waiting_halfTick (m.core.edge_reset _ _ reset) (m.core.unstarted_holdReset hnmi) ?_ ?_ alone
    · show Bus.mk m.core.address.floating m.core.address.floating = _
      rw [h.regular.address]
      rfl
    · show Bus.mk m.core.data.floating m.core.data.floating = _
      rw [h.regular.data]
      rfl
  | @falls m h falling reset nmi ih =>
    have hnmi : m.board.inputs.nmi.isAsserted = false := by
      show (m.board.host.nmi.wiredAnd m.device.nmi).isAsserted = false
      rw [ih.alone, Level.isAsserted_wiredAnd, nmi]
      rfl
    have hreset : m.board.inputs.reset.isAsserted = false := reset
    have hfalls := ih.core.falls (m.board.stops .low) hreset hnmi
    refine waiting_halfTick ?_ hfalls.2 ih.address ih.data ih.alone
    rw [falling]
    exact hfalls.1
  | input _ _ _ ih | hooks _ _ ih => exact ⟨ih.core, ih.address, ih.data, ih.memory, ih.alone⟩

/-! ## Side by side -/

/-- The events of the next edge, in order. -/
def events (m : Machine) : List Event :=
  (m.board.emissions m.clock.level.flip).map Emission.event

/-- The machine that has been reset, with what it emits, beside a new one. -/
inductive Abreast (m : Machine) : Machine → List Event → Machine → List Event → Prop where
  /-- The first rising edge. -/
  | first (released : m.Released) (low : m.clock.level = .low)
    (reset : m.board.host.reset.isAsserted = false) :
    Abreast m m.renewed.halfTick.1 m.renewed.events m.halfTick.1 m.events
  /-- Another edge, on which both are asked to stop or neither is. -/
  | halfTick {a b : Machine} {log log' : List Event} (h : Abreast m a log b log')
    (stops : a.StopsAtEnd ↔ b.StopsAtEnd) :
    Abreast m a.halfTick.1 (log ++ a.events) b.halfTick.1 (log' ++ b.events)
  | input {a b : Machine} {log log' : List Event} (h : Abreast m a log b log') (pin : InputPin)
    (level : Level) : Abreast m (a.setInput pin level) log (b.setInput pin level) log'
  | regs {a b : Machine} {log log' : List Event} (h : Abreast m a log b log')
    (f : Registers → Registers) : Abreast m (a.modifyRegs f) log (b.modifyRegs f) log'
  | hooks {a b : Machine} {log log' : List Event} (h : Abreast m a log b log')
    (f g : Hooks → Hooks) : Abreast m (a.modifyHooks f) log (b.modifyHooks g) log'

/-- The machine `b` shows what the machine `a` does.  Its counts are ahead. -/
structure Indistinct (a b : Machine) (instructions tStates : Nat) : Prop where
  regs : b.core.regs = a.core.regs
  pins : b.core.pins = a.core.pins
  address : b.core.address.value = a.core.address.value
  data : b.core.data.value = a.core.data.value
  bytes : b.memory.bytes = a.memory.bytes
  halted : b.snapshot.halted = a.snapshot.halted
  busReleased : b.snapshot.busReleased = a.snapshot.busReleased
  inReset : b.snapshot.inReset = a.snapshot.inReset
  origin : b.snapshot.origin = a.snapshot.origin
  opcode : b.snapshot.opcode.toList = a.snapshot.opcode.toList
  instruction : b.snapshot.instruction = a.snapshot.instruction
  instructionCounter :
    b.snapshot.instructionCounter = instructions + a.snapshot.instructionCounter
  tStates : b.snapshot.tStates = tStates + a.snapshot.tStates

/-- What is known of machines side by side. -/
structure Mirrors (a b : Machine) (n t : Nat) : Prop where
  level : b.clock.level = a.clock.level
  boards : a.board.Mirrors b.board n t

/-- Machines on which an instruction ends at once, and which are stopped together or neither is, have
    somebody ask to stop on both or on neither. -/
theorem stops_alike (hlevel : b.clock.level = a.clock.level)
    (hended : (b.core.edge b.clock.level.flip b.board.inputs).ended
      = (a.core.edge a.clock.level.flip a.board.inputs).ended)
    (hstops : a.StopsAtEnd ↔ b.StopsAtEnd)
    (hends : (a.core.edge a.clock.level.flip a.board.inputs).ended = true) :
    b.board.stops a.clock.level.flip = a.board.stops a.clock.level.flip := by
  refine Bool.eq_iff_iff.mpr ⟨fun hasks => (hstops.mpr ⟨hended.trans hends, ?_⟩).2, fun hasks => ?_⟩
  · rw [hlevel]
    exact hasks
  · rw [← hlevel]
    exact (hstops.mp ⟨hends, hasks⟩).2

/-- A machine with no conditions does not stop. -/
theorem goes_of_quiet (h : m.hooks.Quiet) : ¬ m.StopsAtEnd := by
  rintro ⟨-, hasks⟩
  exact nomatch (Board.stops_of_quiet h _).symm.trans hasks

/-- The first rising edge comes to the same as for a new machine. -/
theorem Released.first_edge (h : m.Released) (low : m.clock.level = .low)
    (reset : m.board.host.reset.isAsserted = false) :
    m.renewed.halfTick.1.Mirrors m.halfTick.1 m.core.instructionCounter m.core.halfTStates
      ∧ m.events = m.renewed.events := by
  have hwaiting := h.waiting
  have hsound : m.renewed.core.Sound := Core.sound_powerOn _ _
  have hinputs : m.board.inputs = m.renewed.board.inputs :=
    Board.inputs_alike (a := m.renewed.board) hwaiting.memory ⟨rfl, hwaiting.alone⟩ rfl
  have hedge : Core.Edge.Mirrors (m.renewed.board.core.edge .high m.renewed.board.inputs)
      (m.board.core.edge .high m.board.inputs) m.core.instructionCounter m.core.halfTStates := by
    rw [hinputs]
    exact (Core.unstarted_powerOn _ _).first_edge hwaiting.core hsound hwaiting.address
      hwaiting.data rfl rfl reset
  -- no instruction ends on a rising edge
  have hgoes : (m.renewed.core.edge .high m.renewed.board.inputs).ended ≠ true := by
    intro hended
    have hstep : m.renewed.core.InStep .low := nofun
    exact nomatch (hstep.edge hsound true).1 hended
  obtain ⟨hboards, htold⟩ := Board.mirrors_edge hsound hwaiting.memory ⟨rfl, hwaiting.alone⟩ rfl
    hedge fun hended => absurd hended hgoes
  have hrises : m.clock.level.flip = .high := by rw [low]; rfl
  refine ⟨⟨hrises, ?_⟩, ?_⟩
  · show Board.Mirrors _ (m.board.edge m.clock.level.flip).1 _ _
    rw [hrises]
    exact hboards
  · rw [events, hrises]
    exact htold

/-- Every later edge does, too. -/
theorem Mirrors.halfTick (h : a.Mirrors b n t) (hstops : a.StopsAtEnd ↔ b.StopsAtEnd) :
    a.halfTick.1.Mirrors b.halfTick.1 n t ∧ b.events = a.events := by
  have hinputs : b.board.inputs = a.board.inputs :=
    Board.inputs_alike h.boards.memory h.boards.alone h.boards.host
  have hended : (b.core.edge b.clock.level.flip b.board.inputs).ended
      = (a.core.edge a.clock.level.flip a.board.inputs).ended := by
    rw [h.level, hinputs]
    exact (h.boards.cores.edge h.boards.sound a.clock.level.flip a.board.inputs).ended
  obtain ⟨hboards, htold⟩ := h.boards.edge (stops_alike h.level hended hstops)
  refine ⟨⟨congrArg Level.flip h.level, ?_⟩, ?_⟩
  · show Board.Mirrors _ (b.board.edge b.clock.level.flip).1 _ _
    rw [h.level]
    exact hboards
  · rw [events, h.level]
    exact htold

/-- Machines side by side mirror each other, and have emitted the same. -/
theorem Abreast.mirrors {log log' : List Event} (h : Abreast m a log b log') :
    a.Mirrors b m.core.instructionCounter m.core.halfTStates ∧ log' = log
      ∧ m.core.halfTStates % 2 = 0 := by
  induction h with
  | first released low reset =>
    obtain ⟨hmirrors, hevents⟩ := released.first_edge low reset
    have hparity := released.reached.regular.parity
    rw [low] at hparity
    exact ⟨hmirrors, hevents, hparity⟩
  | halfTick _ stops ih =>
    obtain ⟨hmirrors, hlogs, heven⟩ := ih
    obtain ⟨hnext, hevents⟩ := hmirrors.halfTick stops
    exact ⟨hnext, by rw [hlogs, hevents], heven⟩
  | input _ pin level ih =>
    obtain ⟨⟨hlevel, hboards⟩, hlogs, heven⟩ := ih
    exact ⟨⟨hlevel, hboards.cores, hboards.sound, hboards.memory, hboards.alone,
      congrArg (fun host => host.set level pin) hboards.host⟩, hlogs, heven⟩
  | regs _ f ih =>
    obtain ⟨⟨hlevel, hboards⟩, hlogs, heven⟩ := ih
    exact ⟨⟨hlevel, hboards.cores.map (f := fun c => c.modifyRegs f) (fun _ _ => rfl) rfl rfl rfl id,
      hboards.sound.modifyRegs f, hboards.memory, hboards.alone, hboards.host⟩, hlogs, heven⟩
  | hooks _ f g ih =>
    obtain ⟨⟨hlevel, hboards⟩, hlogs, heven⟩ := ih
    exact ⟨⟨hlevel, hboards.cores, hboards.sound, hboards.memory, hboards.alone, hboards.host⟩,
      hlogs, heven⟩

/-- Machines that mirror each other show the same. -/
theorem Mirrors.indistinct (h : a.Mirrors b n t) (heven : t % 2 = 0) : a.Indistinct b n (t / 2) := by
  have hbytes : b.memory.bytes = a.memory.bytes := by
    rw [show b.memory = _ from h.boards.memory.same]
    rfl
  obtain ⟨r, rfl, rfl, hopcode, hr⟩ := h.boards.cores.alike
  have hr : b.core = a.core.bearing {} r := hr
  refine ⟨?_, ?_, ?_, ?_, hbytes, ?_, ?_, ?_, ?_, ?_, ?_, ?_, ?_⟩
  all_goals first | rw [snapshot, snapshot, hr] | rw [hr]
  all_goals first | rfl | skip
  · exact hopcode
  · show (r.edges + a.core.halfTStates) / 2 = r.edges / 2 + a.core.halfTStates / 2
    omega

/-- Held in reset, the machine shows the reset values and no output.  Once it is released, with NMI
    released from the last edge with RESET on, it does from the first rising edge on what a new one
    does that has the same bytes in memory: the same is shown after every edge, and the same is
    emitted.  The counts of instructions and periods are ahead by what they were. -/
theorem reset_renews :
    (∀ m : Machine, m.board.host.reset.isAsserted = true →
      m.halfTick.1.core.regs = .afterReset
        ∧ m.halfTick.1.core.pins = ({} : Pins).applyInputs m.board.inputs)
    ∧ ∀ (m a b : Machine) (log log' : List Event), m.Abreast a log b log' →
      a.Indistinct b m.core.instructionCounter m.snapshot.tStates ∧ log' = log := by
  refine ⟨fun m hreset => ?_, fun m a b log log' h => ?_⟩
  · obtain ⟨-, -, hcore⟩ := m.board.edge_parts m.clock.level.flip
    have hmoved : m.board.moved m.clock.level.flip = (m.core.sampleInputs m.board.inputs).holdReset :=
      m.core.edge_reset _ _ hreset
    rw [hmoved] at hcore
    show (m.board.edge m.clock.level.flip).1.core.regs = _
      ∧ (m.board.edge m.clock.level.flip).1.core.pins = _
    rw [hcore]
    exact ⟨rfl, rfl⟩
  · obtain ⟨hmirrors, hlogs, heven⟩ := h.mirrors
    exact ⟨hmirrors.indistinct heven, hlogs⟩

/-- There are no conditions after an edge when there were none before it. -/
theorem quiet_halfTick (h : m.hooks.Quiet) : m.halfTick.1.hooks.Quiet :=
  Board.quiet_edge h _

theorem quiet_after (h : m.hooks.Quiet) (n : Nat) : (m.after n).hooks.Quiet := by
  induction n with
  | zero => exact h
  | succ n ih => exact quiet_halfTick ih

/-- What is not attached stays away. -/
theorem alone_after (h : m.device = .unattached) (n : Nat) : (m.after n).device = .unattached := by
  induction n with
  | zero => exact h
  | succ n ih => exact (Board.edge_unattached _ _ ih).1

/-- Machines that nobody stops go on side by side. -/
theorem Abreast.after {log log' : List Event} (h : m.Abreast a log b log') (ha : a.hooks.Quiet)
    (hb : b.hooks.Quiet) (n : Nat) : ∃ log log', m.Abreast (a.after n) log (b.after n) log' := by
  induction n with
  | zero => exact ⟨log, log', h⟩
  | succ n ih =>
    obtain ⟨before, before', hbefore⟩ := ih
    exact ⟨_, _, hbefore.halfTick
      (iff_of_false (goes_of_quiet (quiet_after ha n)) (goes_of_quiet (quiet_after hb n)))⟩

/-- A run goes on. -/
theorem Reached.after (h : m.Reached) (n : Nat) : (m.after n).Reached := by
  induction n with
  | zero => exact h
  | succ n ih => exact ih.halfTick

/-- The machine after a reset of one edge, and another edge. -/
def restarted (m : Machine) : Machine :=
  ((m.setInput .reset .asserted).halfTick.1.setInput .reset .released).halfTick.1

/-- While the clock is low, these are a rising and a falling edge. -/
theorem released_restarted (h : m.Reached) (alone : m.device = .unattached)
    (low : m.clock.level = .low) (nmi : m.board.host.nmi = .released) :
    m.restarted.Released ∧ m.restarted.clock.level = .low
      ∧ m.restarted.board.host.reset.isAsserted = false := by
  have hnmi : m.board.host.nmi.isAsserted = false := congrArg Level.isAsserted nmi
  have hheld : (m.setInput .reset .asserted).halfTick.1.Released :=
    .reset (h.input .reset .asserted) alone rfl hnmi
  refine ⟨(hheld.input .reset .released).falls (congrArg Level.flip low) rfl hnmi, ?_, rfl⟩
  show m.clock.level.flip.flip = .low
  rw [Level.flip_flip, low]

theorem quiet_restarted (h : m.hooks.Quiet) : m.restarted.hooks.Quiet :=
  quiet_halfTick (m := (m.setInput .reset .asserted).halfTick.1.setInput .reset .released)
    (quiet_halfTick (m := m.setInput .reset .asserted) h)

/-- A machine that has taken in the prefix DD. -/
def prefixed : Machine :=
  (idling.modifyMemory fun memory => memory.poke 0 0xDD).after 6

/-- After a reset the prefix is still in the chip, and shows nowhere. -/
theorem restart_behind_prefix :
    (prefixed.setInput .reset .asserted).halfTick.1.core.regs = .afterReset
      ∧ prefixed.restarted.core.page = .dd
      ∧ (prefixed.restarted.renewed.halfTick.1.after 40).Indistinct
        (prefixed.restarted.halfTick.1.after 40) prefixed.restarted.core.instructionCounter
        prefixed.restarted.snapshot.tStates := by
  have hbuilt : Machine.build { memorySize := 0x400 } .unattached = .ok idling := rfl
  have hreached : prefixed.Reached := ((Reached.built hbuilt).memory _).after 6
  have halone : prefixed.device = .unattached := alone_after (m := idling.modifyMemory _) rfl 6
  have hquiet : prefixed.hooks.Quiet := quiet_after (m := idling.modifyMemory _) ⟨rfl, rfl⟩ 6
  have hlevel : prefixed.clock.level = .low ∧ prefixed.board.host.nmi = .released := by
    decide +kernel
  have hpage : prefixed.restarted.core.page = .dd := by decide +kernel
  obtain ⟨hreleased, hlow, hreset⟩ := released_restarted hreached halone hlevel.1 hlevel.2
  have hnew : prefixed.restarted.renewed.hooks.Quiet := ⟨rfl, rfl⟩
  obtain ⟨log, log', hafter⟩ := (Abreast.first hreleased hlow hreset).after (quiet_halfTick hnew)
    (quiet_halfTick (quiet_restarted hquiet)) 40
  exact ⟨(reset_renews.1 _ rfl).1, hpage, (reset_renews.2 _ _ _ _ _ hafter).1⟩

end Machine

end Z80Board
