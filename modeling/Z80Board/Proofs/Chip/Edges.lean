import Z80Board.Chip.Edge
import Z80Board.Proofs.Chip.Diagram

/-! # What an edge comes to

    An edge resets the chip, or passes without effect, or grants the buses, or runs a half-period.
    In the last two cases the chip has been made ready for it: it was running, or it has got its
    buses back, or it has chosen its next instruction.  The chip that runs the half-period is the
    one that the edge engages.

    From power-on, whatever the levels, the bytes on the data bus, the stops and what the host does
    to the registers, the chip is sound: when it is running it is on course and wired as the diagram
    has it; between instructions and without the buses it has no strobe up. -/

namespace Z80Board.Core

/-! ## Making ready -/

/-- The chip with its instruction chosen, if that was still to be done. -/
def chosen (c : Core) : Core × List Emission :=
  if c.boundaryPending then
    let (c, start) := { c with boundaryPending := false }.startInstruction
    (c, [start])
  else (c, [])

/-- The chip made ready to run, unless it waits for a rising edge or for its buses. -/
def readied (c : Core) (level : Level) : Option (Core × List Emission) :=
  match c.phase with
  | .powerOn =>
    if level.isLow then none
    else
      let (c, start) := { c with phase := .running }.startInstruction
      some (c, [start])
  | .busReleased =>
    if level.isLow || c.pins.busreq.isAsserted then none else some c.returnBus.chosen
  | .running | .reset => some c.chosen

/-- The chip that runs a half-period on this edge, just before it does. -/
def engaged (c : Core) (level : Level) (inputs : InputLevels) : Option Core :=
  let c := c.sampleInputs inputs
  if c.pins.reset.isAsserted then none
  else
    match c.leaveReset.readied level with
    | none => none
    | some (k, _) => if k.cycle.half = 0 ∧ k.pins.busreq.isAsserted then none else some k

/-- How a chip can be made ready. -/
inductive Readied (c : Core) : Core → List Emission → Prop where
  /-- It was running. -/
  | running (phase : c.phase = .running) (chosen : c.boundaryPending = false) : Readied c c []
  /-- It has its buses back. -/
  | returned (phase : c.phase = .busReleased) (chosen : c.boundaryPending = false) :
    Readied c c.returnBus []
  /-- It has been started. -/
  | started {d : Core} (phase : c.phase = .powerOn) (running : d = { c with phase := .running }) :
    Readied c d.resolveNext [⟨.instructionStart, d.resolveNext⟩]
  /-- It has chosen its next instruction. -/
  | resolved {d : Core} (phase : c.phase = .running) (pending : c.boundaryPending = true)
    (cleared : d = { c with boundaryPending := false }) :
    Readied c d.resolveNext [⟨.instructionStart, d.resolveNext⟩]
  /-- It has its buses back, and has chosen its next instruction. -/
  | returnedResolved {d : Core} (phase : c.phase = .busReleased)
    (pending : c.boundaryPending = true) (cleared : d = { c.returnBus with boundaryPending := false }) :
    Readied c d.resolveNext [⟨.instructionStart, d.resolveNext⟩]

/-- What an edge comes to, with the chip that it engages. -/
inductive Turn (c : Core) (inputs : InputLevels) : Option Core → Edge → Prop where
  /-- The chip is reset. -/
  | resets (reset : inputs.reset.isAsserted = true) :
    Turn c inputs none ((c.sampleInputs inputs).holdReset.idle [])
  /-- The chip waits for a rising edge, or for its buses. -/
  | passes {s : Core} (sampled : s = (c.sampleInputs inputs).leaveReset)
    (phase : s.phase = .powerOn ∨ s.phase = .busReleased) : Turn c inputs none (s.idle [])
  /-- The buses are granted before a cycle. -/
  | grants {k : Core} {emitted : List Emission}
    (ready : (c.sampleInputs inputs).leaveReset.Readied k emitted) (first : k.cycle.half = 0) :
    Turn c inputs none (k.releaseBus.idle emitted)
  /-- The first half-period of a cycle is run. -/
  | begins {k : Core} {emitted : List Emission}
    (ready : (c.sampleInputs inputs).leaveReset.Readied k emitted) (first : k.cycle.half = 0) :
    Turn c inputs (some k) (k.runEdge (emitted ++ [⟨.cycleStart, k⟩]))
  /-- A later half-period of a cycle is run. -/
  | continues {k : Core} {emitted : List Emission}
    (ready : (c.sampleInputs inputs).leaveReset.Readied k emitted) (later : k.cycle.half ≠ 0) :
    Turn c inputs (some k) (k.runEdge emitted)

variable {c k : Core} {level : Level} {inputs : InputLevels} {emitted : List Emission}

theorem readied_chosen (h : c.phase = .running) : c.Readied c.chosen.1 c.chosen.2 := by
  rw [chosen]
  split
  · next hpending => exact .resolved h hpending rfl
  · next hchosen => exact .running h (Bool.eq_false_iff.mpr hchosen)

theorem readied_returnBus_chosen (h : c.phase = .busReleased) :
    c.Readied c.returnBus.chosen.1 c.returnBus.chosen.2 := by
  rw [chosen]
  split
  · next hpending => exact .returnedResolved h hpending rfl
  · next hchosen => exact .returned h (Bool.eq_false_iff.mpr hchosen)

/-- Once reset is left, the phase is another one. -/
theorem phase_leaveReset (c : Core) : c.leaveReset.phase ≠ .reset := by
  rw [leaveReset]
  split
  · exact Phase.noConfusion
  · next hphase => exact hphase

/-- The chip is made ready in one of these ways, or waits. -/
theorem readied_cases (hphase : c.phase ≠ .reset) (level : Level) :
    (c.readied level = none ∧ (c.phase = .powerOn ∨ c.phase = .busReleased))
      ∨ ∃ k emitted, c.readied level = some (k, emitted) ∧ c.Readied k emitted := by
  rw [readied]
  cases h : c.phase with
  | powerOn =>
    dsimp only
    split
    · exact Or.inl ⟨rfl, Or.inl rfl⟩
    · exact Or.inr ⟨_, _, rfl, .started h rfl⟩
  | busReleased =>
    dsimp only
    split
    · exact Or.inl ⟨rfl, Or.inr rfl⟩
    · exact Or.inr ⟨_, _, rfl, readied_returnBus_chosen h⟩
  | running => exact Or.inr ⟨_, _, rfl, readied_chosen h⟩
  | reset => exact absurd h hphase

/-- An edge by way of the chip that is made ready. -/
theorem edge_eq (c : Core) (level : Level) (inputs : InputLevels) :
    c.edge level inputs =
      if inputs.reset.isAsserted then (c.sampleInputs inputs).holdReset.idle []
      else
        match (c.sampleInputs inputs).leaveReset.readied level with
        | none => (c.sampleInputs inputs).leaveReset.idle []
        | some (k, emitted) => k.advance emitted := by
  have hproceed (d : Core) : d.proceed = d.chosen.1.advance d.chosen.2 := by
    rw [proceed, chosen]
    split <;> rfl
  show (if inputs.reset.isAsserted then (c.sampleInputs inputs).holdReset.idle [] else _) = _
  split
  · rfl
  · rw [readied]
    cases (c.sampleInputs inputs).leaveReset.phase <;> dsimp only
    case powerOn => split <;> rfl
    case busReleased =>
      split
      · rfl
      · exact hproceed _
    case running => exact hproceed _
    case reset => exact hproceed _

/-- Every edge comes to one of these turns. -/
theorem turn (c : Core) (level : Level) (inputs : InputLevels) :
    c.Turn inputs (c.engaged level inputs) (c.edge level inputs) := by
  rw [edge_eq]
  rw [engaged]
  show c.Turn inputs (if inputs.reset.isAsserted then none else _) _
  split
  · next hreset => exact .resets hreset
  · rcases readied_cases (phase_leaveReset _) level with ⟨hnone, hphase⟩ | ⟨k, emitted, hsome, hready⟩
    · rw [hnone]
      exact .passes rfl hphase
    · rw [hsome]
      dsimp only
      rw [advance]
      by_cases hfirst : k.cycle.half = 0
      · rw [if_pos hfirst]
        by_cases hrequest : k.pins.busreq.isAsserted = true
        · rw [if_pos hrequest, if_pos ⟨hfirst, hrequest⟩]
          exact .grants hready hfirst
        · rw [if_neg hrequest, if_neg fun h => hrequest h.2]
          exact .begins hready hfirst
      · rw [if_neg hfirst, if_neg fun h => hfirst h.1]
        exact .continues hready hfirst

/-- An edge runs the half-period of the chip that it engages. -/
theorem edge_of_engaged (h : c.engaged level inputs = some k) :
    ∃ emitted, c.edge level inputs = k.runEdge emitted := by
  have hturn := c.turn level inputs
  rw [h] at hturn
  generalize c.edge level inputs = e at hturn ⊢
  cases hturn with
  | begins | continues => exact ⟨_, rfl⟩

/-- The chip that an edge engages has been made ready. -/
theorem readied_engaged (h : c.engaged level inputs = some k) :
    ∃ emitted, (c.sampleInputs inputs).leaveReset.Readied k emitted := by
  have hturn := c.turn level inputs
  rw [h] at hturn
  generalize c.edge level inputs = e at hturn
  cases hturn with
  | begins ready => exact ⟨_, ready⟩
  | continues ready => exact ⟨_, ready⟩

/-- One more instruction has been completed. -/
def complete (c : Core) : Core :=
  { c with instructionCounter := c.instructionCounter + 1 }

/-- A half-period, and the end of the cycle if it was the last one. -/
theorem runEdge_eq (c : Core) (emitted : List Emission) :
    c.runEdge emitted =
      if c.runHalf.2 then c.runHalf.1.endCycle emitted else c.runHalf.1.idle emitted := by
  rw [runEdge]
  split
  · next d hd => rw [hd, if_neg Bool.false_ne_true]
  · next d hd => rw [hd, if_pos rfl]

/-- The end of a cycle, and of the instruction if that has no other one. -/
theorem endCycle_eq (c : Core) (emitted : List Emission) :
    c.endCycle emitted =
      if c.latchResult.nextCycle.2 then
        ⟨c.latchResult.nextCycle.1.complete, emitted ++ [⟨.cycleEnd, c.latchResult⟩]
          ++ [⟨.instructionEnd, c.latchResult.nextCycle.1.complete⟩], true⟩
      else ⟨c.latchResult.nextCycle.1, emitted ++ [⟨.cycleEnd, c.latchResult⟩], false⟩ := by
  rw [endCycle]
  dsimp only
  split
  · next d hd => rw [hd, if_neg Bool.false_ne_true]
  · next d hd =>
    rw [hd, if_pos rfl]
    rfl

/-! ## Soundness -/

/-- The chip is on course, and wired as the diagram has it. -/
structure Underway (c : Core) : Prop where
  course : c.Course c.cycle.half
  wired : c.Wired c.cycle.half

/-- What is known of the chip between edges. -/
structure Sound (c : Core) : Prop where
  running : c.phase = .running → c.boundaryPending = false → c.Underway
  pending : c.boundaryPending = true → c.phase = .running ∧ c.pins.AtRest
  released : c.phase = .busReleased → c.Underway ∧ c.cycle.half = 0
  waiting : c.phase = .powerOn ∨ c.phase = .reset → c.pins.AtRest

/-- The chip at power-on is sound. -/
theorem sound_powerOn (address : Bus Word) (data : Bus Byte) : (powerOn address data).Sound :=
  ⟨nofun, nofun, nofun, fun _ => rfl⟩

/-- The next instruction starts under way. -/
theorem underway_resolveNext (h : c.pins.AtRest) : c.resolveNext.Underway := by
  obtain ⟨hcourse, hhalf, -⟩ := course_resolveNext c
  constructor
  · rw [hhalf]
    exact hcourse
  · rw [hhalf]
    exact wired_resolveNext h

/-- Choosing the next instruction changes neither the phase nor what is still to be chosen. -/
theorem phase_resolveNext (c : Core) :
    c.resolveNext.phase = c.phase ∧ c.resolveNext.boundaryPending = c.boundaryPending := by
  obtain ⟨d, length, hnext, hbetween⟩ := c.resolveNext_begins
  rw [hnext]
  exact ⟨hbetween.phase, hbetween.pending⟩

/-- Before the first half-period of a cycle no strobe is up. -/
theorem Underway.atRest (h : c.Underway) (hfirst : c.cycle.half = 0) : c.pins.AtRest := by
  rw [Pins.AtRest, h.wired.strobes, hfirst]
  rw [ActiveCycle.outputs]
  split <;> rfl

/-- The inputs do not matter to soundness. -/
theorem Sound.sampleInputs (h : c.Sound) (inputs : InputLevels) : (c.sampleInputs inputs).Sound := by
  have keep (hc : c.Underway) : (c.sampleInputs inputs).Underway :=
    ⟨hc.course.congr rfl rfl, hc.wired.strobes, hc.wired.refresh, hc.wired.waits⟩
  exact ⟨fun hphase hchosen => keep (h.running hphase hchosen), h.pending,
    fun hphase => ⟨keep (h.released hphase).1, (h.released hphase).2⟩, h.waiting⟩

/-- Neither does the value on the data bus. -/
theorem Sound.withData (h : c.Sound) (data : Bus Byte) : ({ c with data } : Core).Sound := by
  have keep (hc : c.Underway) : ({ c with data } : Core).Underway :=
    ⟨hc.course.congr rfl rfl, hc.wired.strobes, hc.wired.refresh, hc.wired.waits⟩
  exact ⟨fun hphase hchosen => keep (h.running hphase hchosen), h.pending,
    fun hphase => ⟨keep (h.released hphase).1, (h.released hphase).2⟩, h.waiting⟩

/-- Nor what the registers hold. -/
theorem Sound.modifyRegs (h : c.Sound) (f : Registers → Registers) : (c.modifyRegs f).Sound := by
  have keep (hc : c.Underway) : (c.modifyRegs f).Underway :=
    ⟨hc.course.congr rfl rfl, hc.wired.strobes, hc.wired.refresh, hc.wired.waits⟩
  exact ⟨fun hphase hchosen => keep (h.running hphase hchosen), h.pending,
    fun hphase => ⟨keep (h.released hphase).1, (h.released hphase).2⟩, h.waiting⟩

/-- A chip that leaves reset is sound. -/
theorem Sound.leaveReset (h : c.Sound) : c.leaveReset.Sound := by
  rw [Core.leaveReset]
  split
  · next hphase =>
    have hrest := h.waiting (Or.inr hphase)
    refine ⟨nofun, fun hpending => ?_, nofun, fun _ => hrest⟩
    exact nomatch hphase.symm.trans (h.pending hpending).1
  · exact h

/-- A sound chip that is made ready is under way, with nothing left to choose. -/
theorem Readied.underway (hready : c.Readied k emitted) (h : c.Sound) :
    k.Underway ∧ k.phase = .running ∧ k.boundaryPending = false := by
  cases hready with
  | running phase chosen => exact ⟨h.running phase chosen, phase, chosen⟩
  | returned phase chosen =>
    obtain ⟨⟨hcourse, hwired⟩, -⟩ := h.released phase
    exact ⟨⟨hcourse.congr rfl rfl, hwired.strobes, hwired.refresh, hwired.waits⟩, rfl, chosen⟩
  | @started d phase running =>
    have hrest : d.pins.AtRest := running ▸ h.waiting (Or.inl phase)
    have hchosen : d.boundaryPending = false := by
      rw [running]
      refine Bool.eq_false_iff.mpr fun hpending => ?_
      exact nomatch phase.symm.trans (h.pending hpending).1
    obtain ⟨hphase, hpending⟩ := phase_resolveNext d
    exact ⟨underway_resolveNext hrest, hphase.trans (by rw [running]), hpending.trans hchosen⟩
  | @resolved d phase pending cleared =>
    have hrest : d.pins.AtRest := cleared ▸ (h.pending pending).2
    obtain ⟨hphase, hpending⟩ := phase_resolveNext d
    refine ⟨underway_resolveNext hrest, hphase.trans ?_, hpending.trans ?_⟩
    · rw [cleared]
      exact phase
    · rw [cleared]
  | @returnedResolved d phase pending cleared =>
    exact nomatch phase.symm.trans (h.pending pending).1

/-- A chip that has been reset has no strobe up. -/
theorem sound_holdReset (c : Core) : c.holdReset.Sound :=
  ⟨nofun, nofun, nofun, fun _ => rfl⟩

/-- Granting the buses before a cycle takes nothing from it. -/
theorem Underway.releaseBus (h : c.Underway) (hfirst : c.cycle.half = 0)
    (hchosen : c.boundaryPending = false) : c.releaseBus.Sound := by
  refine ⟨nofun, fun hpending => (nomatch hchosen.symm.trans hpending),
    fun _ => ⟨⟨?_, ?_⟩, hfirst⟩, fun hphase => ?_⟩
  · exact h.course.congr rfl rfl
  · have hstrobes := h.wired.strobes
    rw [show c.pins.strobes = _ from h.atRest hfirst] at hstrobes
    exact ⟨hstrobes, fun hlater => absurd hfirst hlater, h.wired.waits⟩
  · rcases hphase with hphase | hphase <;> exact nomatch hphase

/-- What is known of the chip at the end of an edge, before the next instruction is chosen. -/
def Edge.Sound (e : Edge) : Prop :=
  if e.ended then
    e.core.pins.AtRest ∧ e.core.phase = .running ∧ e.core.boundaryPending = false
  else e.core.Sound

/-- A chip under way in a running phase is sound. -/
theorem Underway.sound (h : c.Underway) (hphase : c.phase = .running)
    (hchosen : c.boundaryPending = false) : c.Sound := by
  refine ⟨fun _ _ => h, fun hpending => (nomatch hchosen.symm.trans hpending),
    fun hreleased => (nomatch hphase.symm.trans hreleased), fun hwaiting => ?_⟩
  rcases hwaiting with hwaiting | hwaiting <;> exact nomatch hphase.symm.trans hwaiting

/-- What running a half-period of a chip under way leads to: it stays under way, or the cycle is at
    its end with no strobe up. -/
theorem Underway.runHalf (h : c.Underway) :
    (c.runHalf.2 = false ∧ c.runHalf.1.Underway)
      ∨ (c.runHalf.2 = true ∧ c.runHalf.1.Closes
        ∧ c.runHalf.1.Wired (c.runHalf.1.cycle.half + 1)) := by
  have hwired := h.wired.runHalf
  cases hwaits : c.waits with
  | true =>
    obtain ⟨hmore, hcourse, -⟩ := h.course.runHalf_waits hwaits
    rw [hmore] at hwired
    exact Or.inl ⟨hmore, hcourse, hwired⟩
  | false =>
    rcases h.course.runHalf_runs hwaits with ⟨hmore, hcourse, -⟩ | ⟨hlast, hcloses, hhalf, -⟩
    · rw [hmore] at hwired
      exact Or.inl ⟨hmore, hcourse, hwired⟩
    · rw [hlast] at hwired
      refine Or.inr ⟨hlast, hcloses, ?_⟩
      rw [hhalf]
      exact hwired

/-- The end of a cycle keeps the chip sound. -/
theorem Closes.endCycle (h : c.Closes) (hwired : c.Wired (c.cycle.half + 1))
    (hphase : c.phase = .running) (hchosen : c.boundaryPending = false) (emitted : List Emission) :
    Edge.Sound (c.endCycle emitted) := by
  have hsteady := (steady_latchResult (c := c)).trans (steady_nextCycle c.latchResult)
  have hphase' := hsteady.phase.trans hphase
  have hchosen' := hsteady.pending.trans hchosen
  obtain ⟨hset, hrest⟩ := h.wired_next hwired
  rw [endCycle_eq]
  rcases h.next with ⟨hmore, hcourse, hhalf, -⟩ | ⟨hend, -⟩
  · rw [hmore]
    have hunderway : c.latchResult.nextCycle.1.Underway := by
      constructor <;> rw [hhalf]
      · exact hcourse
      · exact hset hmore
    exact hunderway.sound hphase' hchosen'
  · rw [if_pos hend]
    exact ⟨hrest hend, hphase', hchosen'⟩

/-- A half-period, and the end of the cycle if it was the last one, keep the chip sound. -/
theorem Underway.runEdge (h : c.Underway) (hphase : c.phase = .running)
    (hchosen : c.boundaryPending = false) (emitted : List Emission) :
    Edge.Sound (c.runEdge emitted) := by
  have hsteady := steady_runHalf (c := c)
  have hphase' := hsteady.phase.trans hphase
  have hchosen' := hsteady.pending.trans hchosen
  rw [runEdge_eq]
  rcases h.runHalf with ⟨hmore, hunderway⟩ | ⟨hlast, hcloses, hwired⟩
  · rw [hmore]
    exact hunderway.sound hphase' hchosen'
  · rw [if_pos hlast]
    exact hcloses.endCycle hwired hphase' hchosen' emitted

/-- Every edge keeps the chip sound. -/
theorem Sound.edge (h : c.Sound) (level : Level) (inputs : InputLevels) :
    Edge.Sound (c.edge level inputs) := by
  have hsampled := (h.sampleInputs inputs).leaveReset
  have hturn := c.turn level inputs
  generalize c.engaged level inputs = engaged at hturn
  generalize c.edge level inputs = e at hturn ⊢
  cases hturn with
  | resets => exact sound_holdReset _
  | passes sampled => exact sampled ▸ hsampled
  | grants ready first =>
    obtain ⟨hunderway, -, hchosen⟩ := ready.underway hsampled
    exact hunderway.releaseBus first hchosen
  | begins ready =>
    obtain ⟨hunderway, hphase, hchosen⟩ := ready.underway hsampled
    exact hunderway.runEdge hphase hchosen _
  | continues ready =>
    obtain ⟨hunderway, hphase, hchosen⟩ := ready.underway hsampled
    exact hunderway.runEdge hphase hchosen _

/-- So does the rest of the edge, whether the next instruction is chosen now or later. -/
theorem Edge.Sound.finish {e : Edge} (h : Edge.Sound e) (stopping : Bool) :
    (e.finish stopping).1.Sound := by
  rw [Edge.Sound] at h
  rw [Edge.finish]
  split
  · next hended =>
    rw [if_pos hended] at h
    obtain ⟨hrest, hphase, hchosen⟩ := h
    split
    · refine ⟨fun _ hchosen' => (nomatch hchosen'), fun _ => ⟨hphase, hrest⟩,
        fun hreleased => (nomatch hphase.symm.trans hreleased), fun hwaiting => ?_⟩
      rcases hwaiting with hwaiting | hwaiting <;> exact nomatch hphase.symm.trans hwaiting
    · obtain ⟨hphase', hchosen'⟩ := phase_resolveNext e.core
      exact (underway_resolveNext hrest).sound (hphase'.trans hphase) (hchosen'.trans hchosen)
  · next hended =>
    rw [if_neg hended] at h
    exact h

end Z80Board.Core
