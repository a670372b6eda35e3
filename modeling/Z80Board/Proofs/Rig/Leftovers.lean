import Z80Board.Proofs.Chip.FlipFlops
import Z80Board.Proofs.Rig.Restart

/-! # No instruction reads what another one has left

    Every instruction stages its operands in latches that all instructions share, and nothing clears
    them in between.  Even so no instruction reads one that it has not filled: take two machines that
    have just chosen the same instruction and are alike around their chips, whatever is in the
    latches and in the cells of the two opcode buffers.  They show the same after every later edge and
    emit the same events, however many instructions, interrupts and bus grants come, as long as the
    host does the same to both and both are stopped together or neither is.

    The two chips need not count alike either, so neither is ahead of the other in both counts.  That
    is why they are compared by way of a third one whose counts start at zero: each of the two is that
    chip with a residue of its own. -/

namespace Z80Board

/-! ## The outset of an instruction -/

/-- The cycles that are known of an instruction before its first byte is read. -/
def Origin.plan (origin : Origin) : List MachineCycle :=
  match origin.own with
  | some code => code.timing.primary.cycles
  | Option.none => []

namespace Core

variable {b c d k : Core} {level : Level} {inputs : InputLevels} {emitted : List Emission}
  {e : Emission}

/-- The chip has just chosen its next instruction and has done nothing for it yet.  What is on the
    data bus may have changed since then. -/
inductive AtOutset : Core → Prop where
  | chosen {b : Core} (running : b.phase = .running) (settled : b.boundaryPending = false)
    (rests : b.pins.AtRest) (data : Bus Byte) : AtOutset { b.resolveNext with data }

/-- Where an instruction stands, and what is known of it. -/
def stand (c : Core) :
    Option Instruction × List MachineCycle × Page × Chain × Bool × Nat × Option Byte :=
  (c.instruction, c.cycles, c.page, c.chain, c.conditionMet, c.position, c.displacement)

/-- At the outset of an instruction its origin says all of that. -/
theorem stand_resolveNext (c : Core) :
    c.resolveNext.stand
      = (c.resolveNext.origin.own, c.resolveNext.origin.plan, .main, .opcode, false, 0, none) := by
  have fetches (d : Core) (origin : Origin) (hstand : d.stand = c.cleared.stand)
      (hown : origin.own = none) :
      (d.startFetch origin).stand
        = (origin.own, origin.plan, .main, .opcode, false, 0, none) := by
    rw [Origin.plan, hown]
    exact hstand
  have performs (d : Core) (op : InternalOp) (hstand : d.stand = c.cleared.stand) :
      (d.startInternal op).stand
        = (some (decoder.internal op), (decoder.internal op).timing.primary.cycles, .main, .opcode,
          false, 0, none) := by
    simp only [stand, Prod.mk.injEq] at hstand
    obtain ⟨-, -, hpage, hchain, hmet, hposition, hdisplacement⟩ := hstand
    show (_, _, d.page, d.chain, d.conditionMet, d.position, d.displacement) = _
    rw [hpage, hchain, hmet, hposition, hdisplacement]
    rfl
  have hleft : c.cleared.leaveHalt.stand = c.cleared.stand := by
    rw [leaveHalt_eq]
    rfl
  rw [resolveNext_eq, acceptNmi_eq, acceptInt_eq]
  split
  · exact performs c.cleared.leaveHalt.takeNmi _ hleft
  split
  · split
    · exact fetches c.cleared.leaveHalt.takeInt _ hleft rfl
    split <;> exact performs c.cleared.leaveHalt.takeInt _ hleft
  split
  · exact performs _ _ rfl
  · exact fetches _ _ rfl rfl

/-- A chip at the outset of an instruction has nothing left to choose. -/
theorem AtOutset.settled (h : c.AtOutset) : c.boundaryPending = false := by
  cases h with
  | @chosen b running settled rests data => exact b.phase_resolveNext.2.trans settled

/-- It is sound. -/
theorem AtOutset.sound (h : c.AtOutset) : c.Sound := by
  cases h with
  | @chosen b running settled rests data =>
    obtain ⟨hphase, hpending⟩ := b.phase_resolveNext
    exact ((underway_resolveNext rests).sound (hphase.trans running)
      (hpending.trans settled)).withData data

/-- It starts from nothing. -/
theorem AtOutset.starts (h : c.AtOutset) : c.Starts := by
  cases h with
  | @chosen b running settled rests data =>
    obtain ⟨hchain, hposition, hdisplacement, hopcode, hhalf, hpattern, hown⟩ :=
      starts_resolveNext b
    exact ⟨hchain, hposition, hdisplacement, hopcode, hhalf, hpattern, hown⟩

/-- The origin of the instruction says where it stands. -/
theorem AtOutset.stand (h : c.AtOutset) :
    c.stand = (c.origin.own, c.origin.plan, .main, .opcode, false, 0, none) := by
  cases h with
  | @chosen b running settled rests data => exact b.stand_resolveNext

/-- What is on the data bus does not matter to that. -/
theorem AtOutset.withData (h : c.AtOutset) (data : Bus Byte) : ({ c with data } : Core).AtOutset := by
  cases h with
  | chosen running settled rests _ => exact .chosen running settled rests data

/-- Neither does what is in the latches and in the cells of the opcode buffer. -/
theorem AtOutset.bearing (h : c.AtOutset) (r : Residue) :
    (c.bearing {} { r with opcode := r.opcode.clear }).AtOutset := by
  cases h with
  | @chosen b running settled rests data =>
    have houtset : AtOutset { (b.bearing {} r).resolveNext with data } :=
      .chosen (b := b.bearing {} r) running settled rests data
    rw [resolveNext_bearing] at houtset
    exact houtset

/-- A chip that is made ready tells that an instruction starts just when it has chosen one. -/
theorem Readied.outset (h : c.Readied k emitted) (hsound : c.Sound) (he : e ∈ emitted) :
    e.core.AtOutset := by
  cases h with
  | running | returned => exact absurd he List.not_mem_nil
  | @started d phase running =>
    have hsettled : c.boundaryPending = false := by
      refine Bool.eq_false_iff.mpr fun hpending => ?_
      exact nomatch phase.symm.trans (hsound.pending hpending).1
    subst running
    obtain rfl := List.mem_singleton.mp he
    exact .chosen (b := { c with phase := .running }) rfl hsettled (hsound.waiting (Or.inl phase)) _
  | @resolved d phase pending cleared =>
    subst cleared
    obtain rfl := List.mem_singleton.mp he
    exact .chosen (b := { c with boundaryPending := false }) phase rfl (hsound.pending pending).2 _
  | returnedResolved phase pending cleared =>
    subst cleared
    obtain rfl := List.mem_singleton.mp he
    exact nomatch phase.symm.trans (hsound.pending pending).1

/-- At the end of an instruction the chip chooses the next one, unless it is stopped. -/
theorem Sound.outset (h : c.Sound) (hended : (c.edge level inputs).ended = true) :
    ((c.edge level inputs).finish false).1.AtOutset := by
  have hedge := h.edge level inputs
  rw [Edge.Sound, if_pos hended] at hedge
  obtain ⟨hrests, hphase, hsettled⟩ := hedge
  rw [Edge.finish, if_pos hended]
  exact .chosen hphase hsettled hrests (c.edge level inputs).core.resolveNext.data

/-- Running a half-period does not start an instruction. -/
theorem started_runEdge (he : e ∈ (k.runEdge emitted).emitted) (hstart : e.event = .instructionStart) :
    e ∈ emitted := by
  rw [runEdge_eq, endCycle_eq] at he
  split at he
  · split at he
    · simp only [List.append_assoc, List.mem_append, List.mem_singleton] at he
      rcases he with he | rfl | rfl
      · exact he
      · cases hstart
      · cases hstart
    · simp only [List.mem_append, List.mem_singleton] at he
      rcases he with he | rfl
      · exact he
      · cases hstart
  · exact he

/-- Whenever it is told that an instruction starts, the chip is at its outset. -/
theorem Sound.started (h : c.Sound) (stopping : Bool)
    (he : e ∈ (c.edge level inputs).emitted ++ ((c.edge level inputs).finish stopping).2)
    (hstart : e.event = .instructionStart) : e.core.AtOutset := by
  have hsampled := (h.sampleInputs inputs).leaveReset
  rcases List.mem_append.mp he with he | he
  · have hturn := c.turn level inputs
    generalize c.engaged level inputs = engaged at hturn
    generalize c.edge level inputs = edge at hturn he
    cases hturn with
    | resets | passes => exact absurd he List.not_mem_nil
    | grants ready => exact ready.outset hsampled he
    | continues ready => exact ready.outset hsampled (started_runEdge he hstart)
    | begins ready =>
      rcases List.mem_append.mp (started_runEdge he hstart) with he | he
      · exact ready.outset hsampled he
      · obtain rfl := List.mem_singleton.mp he
        cases hstart
  · have hgoes (hended : (c.edge level inputs).ended = true) :
        ((c.edge level inputs).finish false).1.AtOutset := h.outset hended
    rw [Edge.finish] at he hgoes
    split at he
    · next hended =>
      rw [if_pos hended] at hgoes
      split at he
      · obtain rfl := List.mem_singleton.mp he
        cases hstart
      · simp only [List.mem_cons, List.not_mem_nil, or_false] at he
        rcases he with rfl | rfl
        · exact hgoes hended
        · cases hstart
    · obtain rfl := List.mem_singleton.mp he
      cases hstart

/-! ## Chips with residues of their own -/

/-- The chips show the same, and know the same of interrupts. -/
structure Agree (c d : Core) : Prop where
  regs : d.regs = c.regs
  pins : d.pins = c.pins
  address : d.address = c.address
  data : d.data = c.data
  phase : d.phase = c.phase
  origin : d.origin = c.origin
  halted : d.halted = c.halted
  nmiPending : d.nmiPending = c.nmiPending
  nmiSeen : d.nmiSeen = c.nmiSeen
  intBlocked : d.intBlocked = c.intBlocked

/-- The same is known of the instruction, as far as it has been read. -/
structure Understand (c d : Core) : Prop where
  instruction : d.instruction = c.instruction
  opcode : d.opcode.toList = c.opcode.toList
  position : d.position = c.position

/-- Each of the chips is the same third one with a residue of its own. -/
inductive Kin (c d : Core) : Prop where
  | of {k : Core} {n t n' t' : Nat} (sound : k.Sound) (left : k.Mirrors c n t)
    (right : k.Mirrors d n' t') : Kin c d

/-- Such chips show the same. -/
theorem Kin.agree (h : c.Kin d) : c.Agree d ∧ c.Understand d := by
  cases h with
  | of sound left right =>
    obtain ⟨r, -, -, hlist, rfl⟩ := left.alike
    obtain ⟨r', -, -, hlist', rfl⟩ := right.alike
    exact ⟨⟨rfl, rfl, rfl, rfl, rfl, rfl, rfl, rfl, rfl, rfl⟩, rfl, hlist'.trans hlist.symm, rfl⟩

/-- The chip with its counts at zero. -/
def uncounted (c : Core) : Core :=
  { c with instructionCounter := 0, halfTStates := 0 }

/-- The counts do not matter to soundness. -/
theorem Sound.uncounted (h : c.Sound) : c.uncounted.Sound := by
  have keep (hc : c.Underway) : c.uncounted.Underway :=
    ⟨hc.course.congr rfl rfl, hc.wired.strobes, hc.wired.refresh, hc.wired.waits⟩
  exact ⟨fun hphase hchosen => keep (h.running hphase hchosen), h.pending,
    fun hphase => ⟨keep (h.released hphase).1, (h.released hphase).2⟩, h.waiting⟩

/-- A chip that agrees at the outset of an instruction differs by a residue. -/
theorem AtOutset.echoes (hc : c.AtOutset) (hd : d.AtOutset) (h : c.Agree d)
    (hcycle : d.cycle = c.cycle) :
    c.uncounted.Echoes d {} d.instructionCounter d.halfTStates := by
  refine ⟨⟨d.latches, d.opcode, d.cycle.lastHalf, d.instructionCounter, d.halfTStates⟩, rfl, rfl,
    hd.starts.opcode.trans hc.starts.opcode.symm, ?_⟩
  have hstand : d.stand = c.stand := by rw [hd.stand, hc.stand, h.origin]
  have hsettled : d.boundaryPending = c.boundaryPending := hd.settled.trans hc.settled.symm
  obtain ⟨hregs, hpins, haddress, hdata, hphase, horigin, hhalted, hpending, hseen, hblocked⟩ := h
  simp only [Core.stand, Prod.mk.injEq] at hstand
  obtain ⟨hinstruction, hcycles, hpage, hchain, hmet, hposition, hdisplacement⟩ := hstand
  cases c
  cases d
  subst hregs hpins haddress hdata hphase horigin hhalted hpending hseen hblocked hcycle hsettled
  subst hinstruction hcycles hpage hchain hmet hposition hdisplacement
  rfl

/-- Chips that have just chosen the same instruction are akin. -/
theorem AtOutset.kin (hc : c.AtOutset) (hd : d.AtOutset) (h : c.Agree d)
    (hcycle : d.cycle = c.cycle) : c.Kin d := by
  have hstarts : c.uncounted.Starts := by
    obtain ⟨hchain, hposition, hdisplacement, hopcode, hhalf, hpattern, hown⟩ := hc.starts
    exact ⟨hchain, hposition, hdisplacement, hopcode, hhalf, hpattern, hown⟩
  have hself : c.Agree c := ⟨rfl, rfl, rfl, rfl, rfl, rfl, rfl, rfl, rfl, rfl⟩
  exact .of hc.sound.uncounted (hstarts.mirrors (hc.echoes hc hself rfl))
    (hstarts.mirrors (hc.echoes hd h hcycle))

/-- An edge leaves chips akin, and they emit the same events. -/
theorem Kin.edge (h : c.Kin d) (level : Level) (inputs : InputLevels) {stopping stopping' : Bool}
    (hstops : (c.edge level inputs).ended = true → stopping' = stopping) :
    ((c.edge level inputs).finish stopping).1.Kin ((d.edge level inputs).finish stopping').1
      ∧ ((d.edge level inputs).emitted
          ++ ((d.edge level inputs).finish stopping').2).map Emission.event
        = ((c.edge level inputs).emitted
          ++ ((c.edge level inputs).finish stopping).2).map Emission.event := by
  cases h with
  | of sound left right =>
    have hleft := left.edge sound level inputs
    have hright := right.edge sound level inputs
    obtain ⟨hleft', htold⟩ := hleft.finish fun _ => rfl
    obtain ⟨hright', htold'⟩ := hright.finish fun hended => hstops (hleft.ended.trans hended)
    refine ⟨.of ((sound.edge level inputs).finish stopping) hleft' hright', ?_⟩
    rw [List.map_append, List.map_append, hright.events, hleft.events, htold', htold]

/-- An instruction ends on both or on neither. -/
theorem Kin.ended (h : c.Kin d) (level : Level) (inputs : InputLevels) :
    (d.edge level inputs).ended = (c.edge level inputs).ended := by
  cases h with
  | of sound left right =>
    exact (right.edge sound level inputs).ended.trans (left.edge sound level inputs).ended.symm

/-- They stay akin with the same on their data buses. -/
theorem Kin.withData (h : c.Kin d) (data : Bus Byte) :
    ({ c with data } : Core).Kin { d with data } := by
  cases h with
  | of sound left right =>
    exact .of (sound.withData data)
      (left.map (f := fun c => { c with data }) (fun _ _ => rfl) rfl rfl rfl id)
      (right.map (f := fun c => { c with data }) (fun _ _ => rfl) rfl rfl rfl id)

theorem Kin.modifyRegs (h : c.Kin d) (f : Registers → Registers) :
    (c.modifyRegs f).Kin (d.modifyRegs f) := by
  cases h with
  | of sound left right =>
    exact .of (sound.modifyRegs f)
      (left.map (f := fun c => c.modifyRegs f) (fun _ _ => rfl) rfl rfl rfl id)
      (right.map (f := fun c => c.modifyRegs f) (fun _ _ => rfl) rfl rfl rfl id)

end Core

/-! ## Boards around such chips -/

namespace Board

variable {a b : Board} {level : Level} {e : Emission}

/-- Boards that are alike around chips that are akin. -/
structure Kin (a b : Board) : Prop where
  cores : a.core.Kin b.core
  memory : b.memory = a.memory
  device : b.device = a.device
  host : b.host = a.host

theorem Kin.inputs (h : a.Kin b) : b.inputs = a.inputs := by
  rw [Board.inputs, Board.inputs, h.memory, h.device, h.host]

/-- An edge leaves the boards akin, if somebody asks to stop on both or on neither. -/
theorem Kin.edge (h : a.Kin b)
    (hstops : (a.core.edge level a.inputs).ended = true → b.stops level = a.stops level) :
    (a.edge level).1.Kin (b.edge level).1
      ∧ (b.emissions level).map Emission.event = (a.emissions level).map Emission.event := by
  obtain ⟨hmoved, htold⟩ := h.cores.edge level a.inputs hstops
  have hmoved : (a.moved level).Kin (b.moved level) := by
    rw [show b.moved level = ((b.core.edge level b.inputs).finish (b.stops level)).1 from rfl,
      h.inputs]
    exact hmoved
  obtain ⟨hagree, -⟩ := hmoved.agree
  obtain ⟨hmemoryA, hdeviceA, hcoreA⟩ := a.edge_parts level
  obtain ⟨hmemoryB, hdeviceB, hcoreB⟩ := b.edge_parts level
  rw [hagree.pins, hagree.address, hagree.data, h.memory] at hmemoryB
  rw [hagree.pins, hagree.address, hagree.data, h.memory, h.device] at hdeviceB hcoreB
  refine ⟨⟨?_, hmemoryB.trans hmemoryA.symm, hdeviceB.trans hdeviceA.symm, h.host⟩, ?_⟩
  · rw [hcoreA, hcoreB]
    exact hmoved.withData _
  · rw [emissions, emissions, h.inputs]
    exact htold

end Board

namespace Machine

variable {m a b : Machine} {log log' : List Event}

/-! ## Machines beside each other -/

/-- The machines show the same, and nothing around their chips tells them apart. -/
structure Agree (a b : Machine) : Prop where
  core : a.core.Agree b.core
  memory : b.memory = a.memory
  device : b.device = a.device
  host : b.board.host = a.board.host
  level : b.clock.level = a.clock.level

/-- Two machines with the events that they have emitted since they chose the same instruction.  The
    host does the same to both. -/
inductive Beside : Machine → List Event → Machine → List Event → Prop where
  /-- Both have just chosen the instruction. -/
  | outset {a b : Machine} (left : a.core.AtOutset) (right : b.core.AtOutset) (agree : a.Agree b)
    (cycle : b.core.cycle = a.core.cycle) : Beside a [] b []
  /-- An edge, on which both are asked to stop or neither is. -/
  | halfTick {a b : Machine} {log log' : List Event} (h : Beside a log b log')
    (stops : a.StopsAtEnd ↔ b.StopsAtEnd) :
    Beside a.halfTick.1 (log ++ a.events) b.halfTick.1 (log' ++ b.events)
  | input {a b : Machine} {log log' : List Event} (h : Beside a log b log') (pin : InputPin)
    (level : Level) : Beside (a.setInput pin level) log (b.setInput pin level) log'
  | regs {a b : Machine} {log log' : List Event} (h : Beside a log b log')
    (f : Registers → Registers) : Beside (a.modifyRegs f) log (b.modifyRegs f) log'
  | memory {a b : Machine} {log log' : List Event} (h : Beside a log b log')
    (f : Memory → Memory) : Beside (a.modifyMemory f) log (b.modifyMemory f) log'
  | device {a b : Machine} {log log' : List Event} (h : Beside a log b log')
    (f : Device → Device) : Beside (a.modifyDevice f) log (b.modifyDevice f) log'
  | hooks {a b : Machine} {log log' : List Event} (h : Beside a log b log')
    (f g : Hooks → Hooks) : Beside (a.modifyHooks f) log (b.modifyHooks g) log'

/-- The boards are akin, and on the same clock level. -/
structure Kin (a b : Machine) : Prop where
  boards : a.board.Kin b.board
  level : b.clock.level = a.clock.level

theorem Kin.agree (h : a.Kin b) : a.Agree b ∧ a.core.Understand b.core :=
  ⟨⟨h.boards.cores.agree.1, h.boards.memory, h.boards.device, h.boards.host, h.level⟩,
    h.boards.cores.agree.2⟩

/-- An edge leaves the machines akin. -/
theorem Kin.halfTick (h : a.Kin b) (hstops : a.StopsAtEnd ↔ b.StopsAtEnd) :
    a.halfTick.1.Kin b.halfTick.1 ∧ b.events = a.events := by
  have hended : (b.core.edge b.clock.level.flip b.board.inputs).ended
      = (a.core.edge a.clock.level.flip a.board.inputs).ended := by
    rw [h.level, h.boards.inputs]
    exact h.boards.cores.ended a.clock.level.flip a.board.inputs
  obtain ⟨hboards, htold⟩ := h.boards.edge (stops_alike h.level hended hstops)
  refine ⟨⟨?_, congrArg Level.flip h.level⟩, ?_⟩
  · show Board.Kin _ (b.board.edge b.clock.level.flip).1
    rw [h.level]
    exact hboards
  · rw [events, h.level]
    exact htold

/-- Machines beside each other are akin, and have emitted the same. -/
theorem Beside.kin (h : Beside a log b log') : a.Kin b ∧ log' = log := by
  induction h with
  | outset left right agree cycle =>
    exact ⟨⟨⟨left.kin right agree.core cycle, agree.memory, agree.device, agree.host⟩, agree.level⟩,
      rfl⟩
  | halfTick _ stops ih =>
    obtain ⟨hkin, hlogs⟩ := ih
    obtain ⟨hnext, hevents⟩ := hkin.halfTick stops
    exact ⟨hnext, by rw [hlogs, hevents]⟩
  | input _ pin level ih =>
    obtain ⟨⟨hboards, hlevel⟩, hlogs⟩ := ih
    exact ⟨⟨⟨hboards.cores, hboards.memory, hboards.device,
      congrArg (fun host => host.set level pin) hboards.host⟩, hlevel⟩, hlogs⟩
  | regs _ f ih =>
    obtain ⟨⟨hboards, hlevel⟩, hlogs⟩ := ih
    exact ⟨⟨⟨hboards.cores.modifyRegs f, hboards.memory, hboards.device, hboards.host⟩, hlevel⟩,
      hlogs⟩
  | memory _ f ih =>
    obtain ⟨⟨hboards, hlevel⟩, hlogs⟩ := ih
    exact ⟨⟨⟨hboards.cores, congrArg f hboards.memory, hboards.device, hboards.host⟩, hlevel⟩, hlogs⟩
  | device _ f ih =>
    obtain ⟨⟨hboards, hlevel⟩, hlogs⟩ := ih
    exact ⟨⟨⟨hboards.cores, hboards.memory, congrArg f hboards.device, hboards.host⟩, hlevel⟩, hlogs⟩
  | hooks _ f g ih =>
    obtain ⟨⟨hboards, hlevel⟩, hlogs⟩ := ih
    exact ⟨⟨⟨hboards.cores, hboards.memory, hboards.device, hboards.host⟩, hlevel⟩, hlogs⟩

/-- Machines that have chosen the same instruction, and are alike but for the latches, the leftover
    bytes of the opcode and the counts, show the same after every later edge: the registers, the pins,
    both buses, memory and the device, and each instruction with what is known of it.  They have
    emitted the same events. -/
theorem Beside.leftovers_unread (h : Beside a log b log') :
    a.Agree b ∧ a.core.Understand b.core ∧ log' = log := by
  obtain ⟨hkin, hlogs⟩ := h.kin
  exact ⟨hkin.agree.1, hkin.agree.2, hlogs⟩

/-- Unless the machine is stopped, the end of an instruction is the outset of another one. -/
theorem Coherent.outset (h : m.Coherent)
    (hended : (m.core.edge m.clock.level.flip m.board.inputs).ended = true)
    (hgoes : ¬ m.StopsAtEnd) : m.halfTick.1.core.AtOutset := by
  have hstops : m.board.stops m.clock.level.flip = false :=
    Bool.eq_false_iff.mpr fun hasks => hgoes ⟨hended, hasks⟩
  have hmoved : (m.board.moved m.clock.level.flip).AtOutset := by
    have houtset := h.sound.outset hended
    rw [← hstops] at houtset
    exact houtset
  show (m.board.edge m.clock.level.flip).1.core.AtOutset
  rw [(m.board.edge_parts m.clock.level.flip).2.2]
  exact hmoved.withData _

/-- The machine with anything at all in the latches and in the cells of the opcode buffer. -/
def soiled (m : Machine) (r : Residue) : Machine :=
  m.modifyBoard fun b => { b with
    processor.core := b.processor.core.bearing {}
      { r with opcode := r.opcode.clear, lastHalf := b.processor.core.cycle.lastHalf } }

/-- At the outset of an instruction a machine may be soiled. -/
theorem beside_soiled (h : m.core.AtOutset) (r : Residue) : Beside m [] (m.soiled r) [] :=
  .outset h (h.bearing { r with lastHalf := m.core.cycle.lastHalf })
    ⟨⟨rfl, rfl, rfl, rfl, rfl, rfl, rfl, rfl, rfl, rfl⟩, rfl, rfl, rfl, rfl⟩ rfl

theorem quiet_soiled (h : m.hooks.Quiet) (r : Residue) : (m.soiled r).hooks.Quiet := h

/-- Machines that nobody stops go on beside each other. -/
theorem Beside.after (h : Beside a log b log') (ha : a.hooks.Quiet) (hb : b.hooks.Quiet) (n : Nat) :
    ∃ log log', Beside (a.after n) log (b.after n) log' := by
  induction n with
  | zero => exact ⟨log, log', h⟩
  | succ n ih =>
    obtain ⟨before, before', hbefore⟩ := ih
    exact ⟨_, _, hbefore.halfTick
      (iff_of_false (goes_of_quiet (quiet_after ha n)) (goes_of_quiet (quiet_after hb n)))⟩

/-- A machine over `NOP` and `LD A, (3401h)`. -/
def loader : Machine :=
  idling.modifyMemory fun memory => ((memory.poke 1 0x3A).poke 2 0x01).poke 3 0x34

/-- The machine about to load. -/
def loading : Machine :=
  (loader.after 7).halfTick.1

/-- Bytes from nowhere. -/
def stale : Residue where
  latches := ⟨0xA1, 0xA2A2, 0xA3A3, 0xA4, 0xA5, 0xA6, 0xA7, 0xA8, 0xA9⟩
  opcode := ⟨.replicate 4 0xAA, 4, Nat.le_refl 4⟩
  lastHalf := 0
  instructions := 5
  edges := 7

/-- The load brings in what is in memory, whatever has been in the latches. -/
theorem load_over_stale :
    (loading.soiled stale).core.latches ≠ loading.core.latches
      ∧ (loading.after 26).core.regs.a = 0x3A
      ∧ (loading.after 26).Agree ((loading.soiled stale).after 26) := by
  have hbuilt : Machine.build { memorySize := 0x400 } .unattached = .ok idling := rfl
  have hreached : loader.Reached := (Reached.built hbuilt).memory _
  have hquiet : (loader.after 7).hooks.Quiet := quiet_after ⟨rfl, rfl⟩ 7
  have hended : ((loader.after 7).core.edge (loader.after 7).clock.level.flip
      (loader.after 7).board.inputs).ended = true := by decide +kernel
  have houtset := (hreached.after 7).coherent.outset hended (goes_of_quiet hquiet)
  have hafter : loading.hooks.Quiet := quiet_halfTick hquiet
  obtain ⟨log, log', hbeside⟩ := (beside_soiled (m := loading) houtset stale).after hafter
    (quiet_soiled hafter stale) 26
  exact ⟨by decide +kernel, by decide +kernel, hbeside.leftovers_unread.1⟩

end Machine

end Z80Board
