import Z80Board.Proofs.Chip.Slumber
import Z80Board.Proofs.Chip.Standstill
import Z80Board.Proofs.Rig.Echoes
import Z80Board.Proofs.Rig.Reading
import Z80Board.Proofs.Rig.Restart

/-! # The board at a standstill

    There are three ways to keep a board from getting on: to take its buses, to hold a cycle by WAIT,
    and to let it sleep in a HALT.  However long it lasts and whatever else is put on its pins, nothing
    changes meanwhile that a program could see, but for R in a HALT.

    Over each of them an invariant is carried from edge to edge.  Without the buses it is the chip
    itself; under WAIT it takes the other components too, which go on answering the pins and have to
    give the same answer every time; in a HALT it is what the chip executes. -/

namespace Z80Board

/-- The board with other levels of the host, and others who follow the chip. -/
def Board.attend (b : Board) (host : InputLevels) (hooks : Hooks) : Board :=
  b.set host hooks id b.memory.bytes

/-- The board after some edges, each of which passes a test.  Before each of them the host may drive
    the input pins and follow the chip; registers and memory it leaves alone. -/
inductive Board.Spends (test : Board → Level → Prop) (start : Board) : Board → Prop
  | start : Spends test start start
  | edge {b : Board} (h : Spends test start b) (host : InputLevels) (hooks : Hooks) (level : Level)
    (passed : test (b.attend host hooks) level) :
    Spends test start ((b.attend host hooks).edge level).1

variable {config : BoardConfig} {b start : Board} {level : Level}

/-- Where the pins turn to a device, somebody other than memory is called on. -/
theorem Core.calls_of_turned {c : Core} (h : c.pins.turnToDevice = true) :
    ∃ talker, talker ≠ .memory ∧ c.Calls talker := by
  rcases Pins.asksPort_or_turnToSource h with hport | hsource
  · exact ⟨.port, nofun, hport⟩
  · exact ⟨.source, nofun, hsource⟩

/-- Nothing but the edge itself is told. -/
def Board.Uneventful (b : Board) (level : Level) : Prop :=
  (b.emissions level).map Emission.event = [.halfTState]

namespace Board

/-- An edge that does nothing more is uneventful. -/
theorem uneventful_idle {d : Core} (h : b.core.edge level b.inputs = d.idle []) :
    b.Uneventful level ∧ b.moved level = d := by
  obtain ⟨stopping, hstep⟩ := b.moved_eq level
  refine ⟨?_, ?_⟩
  · rw [Uneventful, emissions, h]
    rfl
  · rw [hstep, h]
    rfl

/-! ## Without the buses -/

/-- The host keeps asking for the buses, and leaves RESET alone. -/
def Requested (b : Board) (_ : Level) : Prop :=
  b.host.reset.isAsserted = false ∧ b.host.busreq.isAsserted = true

/-- Where nobody is asked for anything, and nobody drives the data bus, it stays as the chip leaves
    it. -/
theorem Orderly.data_quiet (h : b.Orderly config) (hstarted : b.core.phase ≠ .powerOn)
    (hbefore : b.core.pins.AtRest) (hnow : (b.moved level).pins.AtRest) :
    (b.edge level).1.core = b.moved level ∧ (b.edge level).1.memory.bytes = b.memory.bytes := by
  obtain ⟨hmemory, hdevice, hcore⟩ := b.edge_parts level
  obtain ⟨hasked, -, hturned⟩ := Core.nobody_asked hbefore
  obtain ⟨hasks, hgives, hturns⟩ := Core.nobody_asked hnow
  have hsilent : b.device.driving = false := by
    refine Bool.eq_false_iff.mpr fun hdrives => ?_
    cases hturned.symm.trans (h.turned hstarted hdrives)
  have hanswered : b.memory.answered (b.moved level).pins (b.moved level).address
      (b.moved level).data = (b.moved level).data := by
    rw [Memory.answered, hasks, h.driving, hasked]
    rfl
  refine ⟨?_, ?_⟩
  · rw [hcore, (b.device.edge_unasked hturns).2 hsilent, hanswered]
  · rw [hmemory, Memory.edge_eq, hgives]
    rfl

/-- The chip is without its buses, and the board is as it has been. -/
structure Released (start b : Board) : Prop where
  phase : b.core.phase = .busReleased
  same : b.core.aside = start.core.aside
  bytes : b.memory.bytes = start.memory.bytes

theorem Released.edge (h : start.Released b) (horderly : b.Orderly config)
    (hrequested : b.Requested level) : start.Released (b.edge level).1 := by
  obtain ⟨hreset, hrequest⟩ := hrequested
  have hedge : b.core.edge level b.inputs = (b.core.sampleInputs b.inputs).idle [] :=
    Core.edge_released h.phase hreset hrequest
  have hmoved := (uneventful_idle hedge).2
  have hrest : b.core.pins.AtRest := by
    obtain ⟨hunderway, hfirst⟩ := horderly.sound.released h.phase
    exact hunderway.atRest hfirst
  have hstarted : b.core.phase ≠ .powerOn := by
    rw [h.phase]
    exact nofun
  have hnow : (b.moved level).pins.AtRest := by
    rw [hmoved]
    exact hrest
  obtain ⟨hcore, hbytes⟩ := horderly.data_quiet hstarted hrest hnow
  refine ⟨?_, ?_, hbytes.trans h.bytes⟩
  · rw [hcore, hmoved]
    exact h.phase
  · rw [hcore, hmoved, Core.aside_sampleInputs]
    exact h.same

/-! ## Held by WAIT -/

/-- The host leaves RESET alone, and WAIT is asserted whenever the cycle has come to where it is
    sampled. -/
def Holds (b : Board) (_ : Level) : Prop :=
  b.host.reset.isAsserted = false
    ∧ (b.core.cycle.pattern.WaitsAt b.core.cycle.half → b.inputs.wait.isAsserted = true)

/-- A byte that memory is asked for is on the data bus after an edge. -/
theorem Orderly.asked_edge (h : b.Orderly config) (level : Level)
    (hasks : (b.edge level).1.core.pins.asksMemory = true) :
    (b.edge level).1.core.data.value
      = (b.edge level).1.memory.byteAt (b.edge level).1.core.address := by
  obtain ⟨stopping, hstep⟩ := b.moved_eq level
  obtain ⟨hmemory, -, hcore⟩ := b.edge_parts level
  have hmoved : (b.moved level).Sound := by
    rw [hstep]
    exact (h.sound.edge level b.inputs).finish stopping
  have haddress : (b.edge level).1.core.address = (b.moved level).address := by rw [hcore]
  have hcalls : (b.moved level).Calls .memory := by
    rw [← Board.TakesTurns.calls_moved]
    exact hasks
  have hasks : (b.moved level).pins.asksMemory = true := hcalls
  -- nobody else is called on now, and nobody else was before
  have hunasked : (b.moved level).pins.turnToDevice = false := by
    refine Bool.eq_false_iff.mpr fun hturned => ?_
    obtain ⟨talker, hother, hcalled⟩ := Core.calls_of_turned hturned
    exact hother (hmoved.calls_unique hcalled hcalls)
  have hsilent : b.device.driving = false := by
    refine Bool.eq_false_iff.mpr fun hdrives => ?_
    rw [hstep] at hmoved hcalls
    have hstarted : b.core.phase ≠ .powerOn := by
      rw [h.sound.running_of_calls level stopping hmoved hcalls]
      exact nofun
    obtain ⟨talker, hother, hcalled⟩ := Core.calls_of_turned (h.turned hstarted hdrives)
    exact hother (h.sound.calls_edge level stopping hmoved hcalls hcalled)
  have hdata : (b.edge level).1.core.data
      = (b.moved level).data.drive (b.memory.byteAt (b.moved level).address) := by
    rw [hcore]
    show (b.device.edge level _ _ _).2 = _
    rw [(b.device.edge_unasked hunasked).2 hsilent, Memory.answered, if_pos hasks]
  rw [hdata, haddress, hmemory, Memory.edge_eq, hmoved.givesMemory_of_asksMemory hasks]
  rfl

/-- The cycle has been held, and the board is as it has been. -/
structure Held (start b : Board) : Prop where
  lingers : b.core.Lingers
  same : b.core.stilled = start.core.stilled
  bytes : b.memory.bytes = start.memory.bytes
  asked : b.core.pins.asksMemory = true → b.core.data.value = b.memory.byteAt b.core.address

/-- Memory is not given a byte as long as WAIT may hold the cycle. -/
theorem Held.gives (h : start.Held b) (hsound : b.core.Sound) :
    b.core.pins.givesMemory = false := by
  have hwired := (hsound.running h.lingers.phase h.lingers.chosen).wired
  refine Bool.eq_false_iff.mpr fun hgives => ?_
  obtain ⟨hwrite, hlate, -⟩ := hwired.givesMemory_iff.mp hgives
  have hearly := h.lingers.early (by rw [hwrite]; decide) (by rw [hwrite]; decide)
  omega

/-- Amid a cycle that is held memory and the device put out what is on the data bus already. -/
theorem Held.data_edge (h : start.Held b) (horderly : b.Orderly config) (hheeded : b.Heeded)
    {d : Core} (hmoved : b.moved level = d) (hstilled : d.stilled = b.core.stilled) :
    (b.edge level).1.core = d ∧ (b.edge level).1.memory.bytes = b.memory.bytes := by
  have hstrobes : d.pins.strobes = b.core.pins.strobes :=
    congrArg (fun c => c.pins.strobes) hstilled
  have hrefresh : d.pins.rfsh = b.core.pins.rfsh := congrArg (fun c => c.pins.rfsh) hstilled
  have haddress : d.address = b.core.address := congrArg (fun c => c.address) hstilled
  have hdata : d.data = b.core.data := congrArg (fun c => c.data) hstilled
  obtain ⟨hasks, hgives⟩ := Core.memory_congr hstrobes fun _ => hrefresh
  have hstarted : b.core.phase ≠ .powerOn := by
    rw [h.lingers.phase]
    exact nofun
  obtain ⟨hmemory, -, hcore⟩ := b.edge_parts level
  rw [hmoved] at hmemory hcore
  have hagain (byte : Byte) (hcarries : b.core.data.value = byte) :
      b.core.data.drive byte = b.core.data := by rw [← hcarries]; rfl
  have hanswered : b.memory.answered d.pins d.address d.data = d.data := by
    rw [Memory.answered, horderly.driving, hasks, haddress, hdata]
    cases hasked : b.core.pins.asksMemory with
    | true => exact hagain _ (h.asked hasked)
    | false => rfl
  have hdevice : (b.device.edge level d.pins d.address d.data).2 = d.data := by
    have hheard : b.device.Answered d.pins d.address.value := by
      rw [haddress]
      exact (hheeded.answered hstarted).congr (Core.question_congr hstrobes)
    rw [hheard.again level, haddress, hdata]
    cases hdriven : b.device.driven b.core.address.value with
    | none => rfl
    | some byte => exact hagain _ (hheeded.carried hstarted byte hdriven)
  refine ⟨?_, ?_⟩
  · rw [hcore, hanswered, hdevice]
  · rw [hmemory, Memory.edge_eq, hgives, h.gives horderly.sound]
    rfl

/-- An edge on which the cycle is held. -/
theorem Held.edge (h : start.Held b) (horderly : b.Orderly config) (hheeded : b.Heeded)
    (hholds : b.Holds level) : start.Held (b.edge level).1 ∧ b.Uneventful level := by
  obtain ⟨hreset, hheld⟩ := hholds
  have hedge : ∃ d : Core, b.core.edge level b.inputs = d.idle [] ∧ d.stilled = b.core.stilled
      ∧ d.Lingers := h.lingers.edge horderly.sound hreset hheld
  obtain ⟨d, hidle, hstilled, hlingers⟩ := hedge
  obtain ⟨hquiet, hmoved⟩ := uneventful_idle hidle
  obtain ⟨hcore, hbytes⟩ := h.data_edge horderly hheeded hmoved hstilled
  refine ⟨⟨?_, ?_, hbytes.trans h.bytes, horderly.asked_edge level⟩, hquiet⟩
  · rw [hcore]
    exact hlingers
  · rw [hcore]
    exact hstilled.trans h.same

/-- Once WAIT is released the chip runs the half-period that comes next in the cycle. -/
theorem Held.released (h : start.Held b) (hsound : b.core.Sound)
    (hreset : b.host.reset.isAsserted = false)
    (hhere : b.core.cycle.pattern.WaitsAt b.core.cycle.half)
    (hreleased : b.inputs.wait.isAsserted = false) :
    b.Uneventful level ∧ b.moved level = b.core.resumed b.inputs := by
  have hedge : b.core.edge level b.inputs = (b.core.resumed b.inputs).idle [] :=
    h.lingers.edge_released hsound hreset hhere hreleased
  exact uneventful_idle hedge

/-- The write strobe is not up while WAIT holds a write. -/
theorem Held.unstruck (h : start.Held b) (hsound : b.core.Sound)
    (hwrite : b.core.cycle.pattern = .write) : b.core.pins.wr.isAsserted = false := by
  have hwired := (hsound.running h.lingers.phase h.lingers.chosen).wired
  have hearly := h.lingers.early (by rw [hwrite]; decide) (by rw [hwrite]; decide)
  refine Bool.eq_false_iff.mpr fun hup => ?_
  have hlate := ((hwired.wr_iff hwrite).mp hup).1
  omega

/-! ## In a HALT -/

/-- The host leaves RESET alone, and the edge starts no interrupt. -/
def Slumbers (b : Board) (level : Level) : Prop :=
  b.host.reset.isAsserted = false ∧ Core.Undisturbed (b.emissions level)

/-- The chip is asleep, and the board is as it has been. -/
structure Asleep (start b : Board) : Prop where
  halted : b.core.halted = true
  sleeps : start.core.Sleeps b.core
  bytes : b.memory.bytes = start.memory.bytes

theorem Asleep.edge (h : start.Asleep b) (hsound : b.core.Sound) (hdrowsy : b.core.Drowsy)
    (hslumbers : b.Slumbers level) : start.Asleep (b.edge level).1 := by
  obtain ⟨hreset, hquiet⟩ := hslumbers
  obtain ⟨hmemory, -, hcore⟩ := b.edge_parts level
  have hstep : b.moved level = ((b.core.edge level b.inputs).finish (b.stops level)).1 := rfl
  have hasleep := hsound.dozes_edge h.halted level b.inputs (b.stops level) hreset hquiet
  have hunwritten := (hdrowsy.edge hsound level b.inputs (b.stops level)).unwritten
    ((hsound.edge level b.inputs).finish (b.stops level)) hasleep
  have hslept := hdrowsy.sleeps_edge hsound h.halted level b.inputs (b.stops level) hasleep
  rw [← hstep] at hasleep hunwritten hslept
  refine ⟨?_, h.sleeps.trans ?_, ?_⟩
  · rw [hcore]
    exact hasleep
  · rw [hcore]
    exact ⟨hslept.regs, hslept.counted⟩
  · rw [hmemory, Memory.edge_eq, hunwritten]
    exact h.bytes

end Board

/-! ## On every run -/

theorem Attended.attend (h : Attended config b) (host : InputLevels) (hooks : Hooks) :
    Attended config (b.attend host hooks) :=
  h.set host hooks id b.memory.bytes h.orderly.fits.size

/-- The chip of a machine that has just been built. -/
theorem Machine.core_build {device : Device} {m : Machine}
    (built : Machine.build config device = .ok m) :
    m.board.core = .powerOn (.released 0xFFFF) (.released 0xFF) := by
  unfold Machine.build at built
  split at built
  · cases built
  · obtain rfl := Except.ok.inj built
    rfl

theorem Attended.heeded (h : Attended config b) : b.Heeded := by
  induction h with
  | start built size =>
    have hphase : Core.phase _ = .powerOn := congrArg Core.phase (Machine.core_build built)
    exact ⟨fun hstarted => absurd hphase hstarted, fun hstarted => absurd hphase hstarted⟩
  | edge h level ih => exact ih.edge h.orderly.sound h.orderly.turned level
  | set _ host hooks f bytes size ih => exact ⟨ih.answered, ih.carried⟩

theorem Attended.drowsy (h : Attended config b) : b.core.Drowsy := by
  induction h with
  | @start _ m _ built size =>
    have hdrowsy : m.board.core.Drowsy := by
      rw [Machine.core_build built]
      exact ⟨⟨fun _ hsome => (by cases hsome), fun hhalted => (by cases hhalted)⟩, fun _ => rfl⟩
    exact ⟨hdrowsy.imprint, hdrowsy.awake⟩
  | @edge b h level ih =>
    obtain ⟨stopping, hstep⟩ := b.moved_eq level
    have hnext := ih.edge h.orderly.sound level b.inputs stopping
    rw [← hstep] at hnext
    rw [(b.edge_parts level).2.2]
    exact ⟨hnext.imprint, hnext.awake⟩
  | set _ host hooks f bytes size ih =>
    refine ⟨⟨ih.imprint.brief, ih.imprint.resting⟩, ih.awake⟩

namespace Board.Spends

variable {test : Board → Level → Prop}

theorem attended (h : Spends test start b) (hstart : Attended config start) : Attended config b := by
  induction h with
  | start => exact hstart
  | edge _ host hooks level _ ih => exact (ih.attend host hooks).edge level

theorem released (h : Spends Requested start b) (hstart : Attended config start)
    (hphase : start.core.phase = .busReleased) : start.Released b := by
  induction h with
  | start => exact ⟨hphase, rfl, rfl⟩
  | @edge b h host hooks level passed ih =>
    have hattended := (h.attended hstart).attend host hooks
    have hsame : start.Released (b.attend host hooks) := ⟨ih.phase, ih.same, ih.bytes⟩
    exact hsame.edge hattended.orderly passed

theorem held (h : Spends Holds start b) (hstart : Attended config start)
    (hheld : start.Held start) : start.Held b := by
  induction h with
  | start => exact hheld
  | @edge b h host hooks level passed ih =>
    have hattended := (h.attended hstart).attend host hooks
    have hsame : start.Held (b.attend host hooks) := ⟨ih.lingers, ih.same, ih.bytes, ih.asked⟩
    exact (hsame.edge hattended.orderly hattended.heeded passed).1

theorem asleep (h : Spends Slumbers start b) (hstart : Attended config start)
    (hhalted : start.core.halted = true) : start.Asleep b := by
  induction h with
  | start => exact ⟨hhalted, .refl _, rfl⟩
  | @edge b h host hooks level passed ih =>
    have hattended := (h.attended hstart).attend host hooks
    have hsame : start.Asleep (b.attend host hooks) := ⟨ih.halted, ih.sleeps, ih.bytes⟩
    exact hsame.edge hattended.orderly.sound hattended.drowsy passed

end Board.Spends

/-- However many edges a board spends without its buses, with a cycle held by WAIT, or in a HALT, and
    whatever levels the other inputs have meanwhile, nothing else changes.

    Without the buses the chip is as it was but for its inputs, the flip-flops of NMI and the count of
    edges, memory is as it was, and no output that goes with the buses is up.

    While WAIT holds a cycle the chip, with both buses and all its outputs, is as it was but for how
    far and how long the cycle has run, memory is as it was, no write strobe is up, and nobody is told
    of anything but the edges; and when WAIT is released the cycle goes on.

    In a HALT, until an interrupt starts or RESET is asserted, the chip stays halted, all registers but
    R are as they were, and so is memory, and R has counted the no-ops. -/
theorem Attended.stands_still (h : Attended config start) :
    (start.core.phase = .busReleased → ∀ b, Board.Spends Board.Requested start b →
      b.core.aside = start.core.aside ∧ b.memory.bytes = start.memory.bytes
        ∧ b.core.pins.AtRest ∧ b.core.pins.rfsh = .released)
    ∧ (∀ level, (start.edge level).1.core.Lingers →
      ∀ b, Board.Spends Board.Holds (start.edge level).1 b →
        b.core.stilled = (start.edge level).1.core.stilled
          ∧ b.memory.bytes = (start.edge level).1.memory.bytes
          ∧ (b.core.cycle.pattern = .write → b.core.pins.wr.isAsserted = false)
          ∧ ∀ host hooks next,
            ((b.attend host hooks).Holds next → (b.attend host hooks).Uneventful next)
              ∧ (host.reset.isAsserted = false →
                b.core.cycle.pattern.WaitsAt b.core.cycle.half →
                (b.attend host hooks).inputs.wait.isAsserted = false →
                (b.attend host hooks).Uneventful next
                  ∧ (b.attend host hooks).moved next
                    = b.core.resumed (b.attend host hooks).inputs))
    ∧ (start.core.halted = true → ∀ b, Board.Spends Board.Slumbers start b →
      b.core.halted = true ∧ start.core.Sleeps b.core
        ∧ b.memory.bytes = start.memory.bytes) := by
  refine ⟨fun hphase b hspends => ?_, fun level hlingers b hspends => ?_, fun hhalted b hspends => ?_⟩
  · have hreleased := hspends.released h hphase
    have horderly := (hspends.attended h).orderly
    obtain ⟨hunderway, hfirst⟩ := horderly.sound.released hreleased.phase
    exact ⟨hreleased.same, hreleased.bytes, hunderway.atRest hfirst,
      horderly.phased.refresh (Or.inl hreleased.phase)⟩
  · have hheld := hspends.held (h.edge level) ⟨hlingers, rfl, rfl, h.orderly.asked_edge level⟩
    have hattended := hspends.attended (h.edge level)
    refine ⟨hheld.same, hheld.bytes, hheld.unstruck hattended.orderly.sound,
      fun host hooks next => ⟨fun hholds => ?_, fun hreset hhere hreleased => ?_⟩⟩
    all_goals
      have hnow := hattended.attend host hooks
      have hsame : (start.edge level).1.Held (b.attend host hooks) :=
        ⟨hheld.lingers, hheld.same, hheld.bytes, hheld.asked⟩
    · exact (hsame.edge hnow.orderly hnow.heeded hholds).2
    · exact hsame.released hnow.orderly.sound hreset hhere hreleased
  · have hasleep := hspends.asleep h hhalted
    exact ⟨hasleep.halted, hasleep.sleeps, hasleep.bytes⟩

/-- The board after edges before which the host drives the input pins. -/
def Board.exposed (b : Board) : List (InputLevels × Level) → Board
  | [] => b
  | (host, level) :: rest => ((b.attend host {}).edge level).1.exposed rest

theorem Attended.exposed (h : Attended config b) (edges : List (InputLevels × Level)) :
    Attended config (b.exposed edges) := by
  induction edges generalizing b with
  | nil => exact h
  | cons edge rest ih => exact ih ((h.attend edge.1 {}).edge edge.2)

/-- A board with a HALT at address zero. -/
def haltBoard : Board :=
  { smallMachine.board with memory.bytes := (Array.replicate 0x400 0).setIfInBounds 0 0x76 }

/-- Edges with the host's levels as given. -/
def evenly (host : InputLevels) (count : Nat) : List (InputLevels × Level) :=
  (List.range count).map fun edge => (host, .ofBool (edge % 2 == 0))

/-- The board lends its buses before the HALT, is held while it fetches it, and goes to sleep. -/
theorem stands_still_three_times :
    let lent := haltBoard.exposed (evenly { busreq := .asserted } 1)
    let begun := haltBoard.exposed (evenly {} 2)
    let asleep := haltBoard.exposed (evenly {} 12)
    (lent.core.phase = .busReleased
        ∧ ((lent.attend { busreq := .asserted } {}).edge .low).1.core.aside = lent.core.aside)
      ∧ ((begun.edge .high).1.core.Lingers
        ∧ (((begun.edge .high).1.attend { wait := .asserted } {}).edge .low).1.core.stilled
          = (begun.edge .high).1.core.stilled)
      ∧ (asleep.core.halted = true
        ∧ asleep.core.Sleeps ((asleep.attend {} {}).edge .high).1.core
        ∧ ((asleep.attend {} {}).edge .high).1.core.regs.r = asleep.core.regs.r + 1) := by
  intro lent begun asleep
  have hbuilt : Machine.build smallConfig .unattached = .ok smallMachine := rfl
  have hstart : Attended smallConfig haltBoard := .start hbuilt (by decide +kernel)
  have hphase : lent.core.phase = .busReleased := by decide +kernel
  have hlingers : (begun.edge .high).1.core.Lingers :=
    ⟨by decide +kernel, by decide +kernel, by decide +kernel, by decide +kernel, by decide +kernel⟩
  have hhalted : asleep.core.halted = true := by decide +kernel
  have hrequested : (lent.attend { busreq := .asserted } {}).Requested .low := ⟨rfl, rfl⟩
  have hholds : ((begun.edge .high).1.attend { wait := .asserted } {}).Holds .low :=
    ⟨rfl, fun _ => by decide +kernel⟩
  have hslumbers : (asleep.attend {} {}).Slumbers .high := by
    refine ⟨rfl, fun e he hstart => ?_⟩
    have hplain : ∀ event ∈ ((asleep.attend {} {}).emissions .high).map Emission.event,
        event ≠ .instructionStart := by
      decide +kernel
    exact absurd hstart (hplain _ (List.mem_map_of_mem he))
  have hlent := (Attended.stands_still (hstart.exposed (evenly { busreq := .asserted } 1))).1 hphase
    _ (.edge .start { busreq := .asserted } {} .low hrequested)
  have hheld := (Attended.stands_still (hstart.exposed (evenly {} 2))).2.1 .high hlingers
    _ (.edge .start { wait := .asserted } {} .low hholds)
  have hslept := (Attended.stands_still (hstart.exposed (evenly {} 12))).2.2 hhalted
    _ (.edge .start {} {} .high hslumbers)
  exact ⟨⟨hphase, hlent.1⟩, ⟨hlingers, hheld.1⟩, hhalted, hslept.2.1, by decide +kernel⟩

end Z80Board
