import Z80Board.Proofs.Chip.Buses

/-! # Choosing the next instruction later

    A chip keeps in step with its clock: the half-periods with an even number fall on rising edges,
    so an instruction ends on a falling one.  If the next instruction is not chosen on that edge but
    on the following one, with INT and NMI at the same levels, the following edge leads to the same
    chip either way. -/

namespace Z80Board

/-- The levels on the input pins. -/
def Pins.inputs (pins : Pins) : InputLevels :=
  { wait := pins.wait
    int := pins.int
    nmi := pins.nmi
    reset := pins.reset
    busreq := pins.busreq }

namespace Core

variable {c d k : Core} {half : Nat} {level : Level} {inputs : InputLevels}

/-! ## The input pins -/

theorem Leaves.inputPins (h : c.Leaves d) : d.pins.inputs = c.pins.inputs := by
  rw [h.pins]
  rfl

/-- What no half-period touches: the pins that the board drives, BUSACK, and the counts of the
    cycle. -/
def standing (c : Core) : InputLevels × Level × Nat × UInt32 :=
  (c.pins.inputs, c.pins.busack, c.cycle.waitStates, c.cycle.edges)

theorem Decodes.standing (h : c.Decodes d) : d.standing = c.standing := by
  rw [Core.standing, h.leaves.pins, h.cycle]
  rfl

theorem standing_sampleRead : c.sampleRead.standing = c.standing := by
  have hclosed : c.closeRead.standing = c.standing := by
    rw [closeRead]
    rw [movePointer_eq]
    rfl
  rw [sampleRead_eq]
  split
  · exact (decodes_dispatch _ _).standing.trans hclosed
  · exact hclosed

theorem standing_patternHalf : (c.patternHalf half).1.standing = c.standing := by
  rw [patternHalf]
  split
  case h_1 | h_2 =>
    simp only [fetchHalf]
    split
    case h_2 | h_3 => split <;> rfl
    case h_4 => exact (decodes_takeOpcodeByte c.turnToRefresh c.data.value).standing
    all_goals rfl
  case h_3 | h_4 =>
    simp only [readHalf]
    split
    case h_4 => exact standing_sampleRead
    all_goals rfl
  case h_5 =>
    simp only [writeHalf]
    split
    case h_1 =>
      rw [addressWrite]
      split <;> rfl
    case h_3 => split <;> rfl
    all_goals rfl
  case h_6 =>
    simp only [portReadHalf]
    split <;> rfl
  case h_7 =>
    simp only [portWriteHalf]
    split <;> rfl
  case h_8 =>
    simp only [internalHalf]
    split <;> rfl

/-- Running a half-period touches no pin that the board drives, nor BUSACK. -/
theorem driven_runHalf :
    c.runHalf.1.pins.inputs = c.pins.inputs ∧ c.runHalf.1.pins.busack = c.pins.busack := by
  have hpattern : (c.countEdge.patternHalf c.cycle.half).1.standing = c.countEdge.standing :=
    standing_patternHalf
  simp only [standing, Prod.mk.injEq] at hpattern
  obtain ⟨hinputs, hbusack, -⟩ := hpattern
  rw [runHalf_eq]
  dsimp only
  split
  · exact ⟨hinputs, hbusack⟩
  · split <;> exact ⟨hinputs, hbusack⟩

/-- The waits in the cycle are counted. -/
theorem waitStates_runHalf : c.runHalf.1.cycle.waitStates
    = if c.waits then min 255 (c.cycle.waitStates + 1) else c.cycle.waitStates := by
  have hpattern : (c.countEdge.patternHalf c.cycle.half).1.standing = c.countEdge.standing :=
    standing_patternHalf
  simp only [standing, Prod.mk.injEq] at hpattern
  obtain ⟨-, -, hcount, -⟩ := hpattern
  rw [runHalf_eq]
  dsimp only
  split
  · rw [hcount]
    rfl
  · split <;> exact hcount

/-- The chip remembers the inputs that it has sampled last. -/
structure Remembers (c : Core) (inputs : InputLevels) : Prop where
  pins : c.pins.inputs = inputs
  nmi : c.nmiSeen = inputs.nmi.isAsserted

/-- Choosing an instruction, or setting up a cycle, does not change what the chip remembers. -/
theorem Remembers.of_leaves (h : c.Remembers inputs) (hleaves : c.Leaves d)
    (hseen : d.nmiSeen = c.nmiSeen) : d.Remembers inputs :=
  ⟨hleaves.inputPins.trans h.pins, hseen.trans h.nmi⟩

theorem Remembers.resolveNext (h : c.Remembers inputs) : c.resolveNext.Remembers inputs := by
  refine h.of_leaves leaves_resolveNext ?_
  obtain ⟨d, length, hnext, hbetween⟩ := c.resolveNext_begins
  rw [hnext]
  exact hbetween.seen

/-- Neither does a half-period. -/
theorem Remembers.runHalf (h : c.Remembers inputs) : c.runHalf.1.Remembers inputs :=
  ⟨driven_runHalf.1.trans h.pins, steady_runHalf.nmiSeen.trans h.nmi⟩

theorem Remembers.runEdge (h : c.Remembers inputs) (emitted : List Emission) :
    (c.runEdge emitted).core.Remembers inputs := by
  rw [runEdge_eq, endCycle_eq]
  have hclosed : c.runHalf.1.latchResult.nextCycle.1.Remembers inputs :=
    h.runHalf.of_leaves (leaves_latchResult.trans leaves_nextCycle)
      (steady_latchResult.trans (steady_nextCycle _)).nmiSeen
  split
  · split
    · exact ⟨hclosed.pins, hclosed.nmi⟩
    · exact hclosed
  · exact h.runHalf

theorem Readied.remembers {emitted : List Emission} (h : c.Readied k emitted)
    (hc : c.Remembers inputs) : k.Remembers inputs := by
  cases h with
  | running => exact hc
  | returned => exact ⟨hc.pins, hc.nmi⟩
  | @started d _ hd | @resolved d _ _ hd | @returnedResolved d _ _ hd =>
    have hremembers : d.Remembers inputs := by
      rw [hd]
      exact ⟨hc.pins, hc.nmi⟩
    exact hremembers.resolveNext

theorem remembers_sampled (c : Core) (inputs : InputLevels) :
    (c.sampleInputs inputs).leaveReset.Remembers inputs := by
  rw [leaveReset]
  split <;> exact ⟨rfl, rfl⟩

/-- The chip that an edge engages has sampled the inputs. -/
theorem remembers_engaged (h : c.engaged level inputs = some k) : k.Remembers inputs := by
  obtain ⟨emitted, hready⟩ := readied_engaged h
  exact hready.remembers (c.remembers_sampled inputs)

/-- After every edge the chip remembers the inputs of that edge. -/
theorem remembers_edge (c : Core) (level : Level) (inputs : InputLevels) :
    (c.edge level inputs).core.Remembers inputs := by
  have hsampled := c.remembers_sampled inputs
  have hturn := c.turn level inputs
  generalize c.engaged level inputs = engaged at hturn
  generalize c.edge level inputs = e at hturn ⊢
  cases hturn with
  | resets => exact ⟨rfl, rfl⟩
  | passes sampled => exact sampled ▸ hsampled
  | grants ready =>
    have hready := ready.remembers hsampled
    exact ⟨hready.pins, hready.nmi⟩
  | begins ready | continues ready => exact (ready.remembers hsampled).runEdge _

/-! ## In step with the clock -/

/-- The chip is in step with a clock at the given level: a half-period with an even number comes on
    a rising edge, and the next instruction is still to be chosen only while the clock is low. -/
def InStep (c : Core) (level : Level) : Prop :=
  c.phase = .running →
    if c.boundaryPending then level = .low else c.cycle.half % 2 = if level = .low then 0 else 1

theorem inStep_of_first (hchosen : c.boundaryPending = false) (hfirst : c.cycle.half = 0) :
    c.InStep .low := by
  intro _
  rw [hchosen, hfirst]
  rfl

/-- On a falling edge only a running chip is engaged. -/
theorem phase_of_engaged_low (hk : c.engaged .low inputs = some k) : c.phase = .running := by
  simp only [engaged] at hk
  split at hk
  · cases hk
  · have hphase : (c.sampleInputs inputs).leaveReset.phase = .running → c.phase = .running := by
      rw [leaveReset]
      split
      · rintro ⟨⟩
      · exact id
    rw [readied] at hk
    split at hk
    · cases hk
    · next hready =>
      split at hready
      · cases hready
      · cases hready
      · next hrunning => exact hphase hrunning
      · next hreset => exact absurd hreset (phase_leaveReset _)

/-- A chip in step is engaged at the half-period that the edge is for. -/
theorem InStep.engaged (h : c.InStep level) (hsound : c.Sound)
    (hk : c.engaged level.flip inputs = some k) :
    k.cycle.half % 2 = if level.flip = .low then 1 else 0 := by
  have hengages := hsound.engages hk
  by_cases hfirst : k.cycle.half = 0
  · -- the clock is low, or else nothing begins
    cases level with
    | low =>
      rw [hfirst]
      rfl
    | high =>
      have hphase := phase_of_engaged_low hk
      have hhalf := h hphase
      split at hhalf
      · exact nomatch hhalf
      · next hchosen =>
        have hsame := hengages.kept hphase (Bool.eq_false_iff.mpr hchosen)
        rw [hsame] at hfirst
        have hnone : c.cycle.half = 0 := hfirst
        rw [hnone] at hhalf
        exact nomatch hhalf
  · obtain ⟨hsame, hphase, hchosen⟩ := hengages.amid hfirst
    have hhalf := h hphase
    rw [hchosen, if_neg Bool.false_ne_true] at hhalf
    rw [hsame]
    cases level <;> exact hhalf

/-- Running a half-period leaves the chip in step. -/
theorem Underway.inStep (h : c.Underway) (hchosen : c.boundaryPending = false)
    (hhalf : c.cycle.half % 2 = if level.flip = .low then 1 else 0) (emitted : List Emission)
    (stopping : Bool) :
    ((c.runEdge emitted).ended = true → level = .high)
      ∧ ((c.runEdge emitted).finish stopping).1.InStep level.flip := by
  rw [runEdge_eq]
  rcases h.runHalf with ⟨hmore, -⟩ | ⟨hlast, hcloses, -⟩
  · rw [hmore]
    refine ⟨nofun, fun _ => ?_⟩
    show if c.runHalf.1.boundaryPending then _ else c.runHalf.1.cycle.half % 2 = _
    rw [steady_runHalf.pending, hchosen, if_neg Bool.false_ne_true]
    have hnext := h.half_runHalf hmore
    split at hhalf
    · next hlow =>
      rw [if_pos hlow]
      omega
    · next hhigh =>
      rw [if_neg hhigh]
      omega
  · -- the cycle has an even number of half-periods
    have hlow : level.flip = .low := by
      have hlast' := hcloses.last
      have hsame := (h.last hlast).2.2.1
      rw [hsame] at hlast'
      split at hhalf
      · next hlow => exact hlow
      · omega
    have hhigh : level = .high := by
      cases level
      · exact nomatch hlow
      · rfl
    have hkept : c.runHalf.1.latchResult.nextCycle.1.boundaryPending = false :=
      (steady_latchResult.trans (steady_nextCycle _)).pending.trans
        (steady_runHalf.pending.trans hchosen)
    rw [if_pos hlast, endCycle_eq, hlow]
    rcases hcloses.next with ⟨hmore, -, hfirst, -⟩ | ⟨hend, -⟩
    · rw [if_neg (Bool.eq_false_iff.mp hmore)]
      exact ⟨nofun, inStep_of_first hkept hfirst⟩
    · rw [if_pos hend]
      refine ⟨fun _ => hhigh, ?_⟩
      cases stopping with
      | true => exact fun _ => rfl
      | false =>
        have hchosen' := (phase_resolveNext c.runHalf.1.latchResult.nextCycle.1.complete).2
        exact inStep_of_first (hchosen'.trans hkept) (course_resolveNext _).2.1

/-- An instruction ends on a falling edge, and every edge leaves the chip in step. -/
theorem InStep.edge (h : c.InStep level) (hsound : c.Sound) (stopping : Bool) :
    ((c.edge level.flip inputs).ended = true → level = .high)
      ∧ ((c.edge level.flip inputs).finish stopping).1.InStep level.flip := by
  have hengaged (k : Core) (hk : c.engaged level.flip inputs = some k) :
      k.Underway ∧ k.boundaryPending = false
        ∧ k.cycle.half % 2 = if level.flip = .low then 1 else 0 :=
    ⟨(hsound.engages hk).underway, (hsound.engages hk).chosen, h.engaged hsound hk⟩
  have hturn := c.turn level.flip inputs
  generalize c.engaged level.flip inputs = engaged at hturn hengaged
  generalize c.edge level.flip inputs = e at hturn ⊢
  cases hturn with
  | resets => exact ⟨nofun, fun hphase => nomatch hphase⟩
  | passes sampled phase =>
    refine ⟨nofun, fun hphase => ?_⟩
    rcases phase with hother | hother <;> exact nomatch hother.symm.trans hphase
  | grants => exact ⟨nofun, fun hphase => nomatch hphase⟩
  | @begins k | @continues k =>
    obtain ⟨hunderway, hchosen, hhalf⟩ := hengaged k rfl
    exact hunderway.inStep hchosen hhalf _ stopping

/-! ## The following edge -/

/-- The chip that an edge leads to does not depend on what it has emitted before. -/
theorem runEdge_core (emitted : List Emission) :
    (c.runEdge emitted).core = (c.runEdge []).core
      ∧ (c.runEdge emitted).ended = (c.runEdge []).ended := by
  rw [runEdge_eq, runEdge_eq, endCycle_eq, endCycle_eq]
  split
  · split <;> exact ⟨rfl, rfl⟩
  · exact ⟨rfl, rfl⟩

theorem advance_core (emitted : List Emission) :
    (c.advance emitted).core = (c.advance []).core
      ∧ (c.advance emitted).ended = (c.advance []).ended := by
  simp only [advance]
  split
  · split
    · exact ⟨rfl, rfl⟩
    · obtain ⟨hcore, hended⟩ := runEdge_core (c := c) (emitted ++ [⟨.cycleStart, c⟩])
      obtain ⟨hcore', hended'⟩ := runEdge_core (c := c) ([] ++ [⟨.cycleStart, c⟩])
      exact ⟨hcore.trans hcore'.symm, hended.trans hended'.symm⟩
  · exact runEdge_core emitted

/-- The chip with other data, and other levels on the pins that do not interrupt. -/
def resampled (c : Core) (inputs : InputLevels) (data : Bus Byte) : Core :=
  { c with
    pins := { c.pins with wait := inputs.wait, reset := inputs.reset, busreq := inputs.busreq }
    data
    halfTStates := c.halfTStates + 1 }

/-- With INT and NMI as they were, sampling the inputs changes nothing that interrupts. -/
theorem Remembers.sampleInputs {before : InputLevels} (h : c.Remembers before)
    (hint : inputs.int = before.int) (hnmi : inputs.nmi = before.nmi) (data : Bus Byte) :
    ({ c with data } : Core).sampleInputs inputs = c.resampled inputs data := by
  obtain ⟨hpins, hseen⟩ := h
  subst hpins
  have hint' : inputs.int = c.pins.int := hint
  have hnmi' : inputs.nmi = c.pins.nmi := hnmi
  have hseen' : c.nmiSeen = c.pins.nmi.isAsserted := hseen
  rw [Core.sampleInputs, latchNmi, Pins.applyInputs, hint', hnmi', resampled, ← hseen']
  dsimp only
  rw [Bool.and_not_self, Bool.or_false]

/-- The chip with its last instruction forgotten. -/
def cleared (c : Core) : Core :=
  { c.clearInstruction with intBlocked := false }

/-- What comes next. -/
theorem resolveNext_eq (c : Core) :
    c.resolveNext =
      if c.nmiPending then c.cleared.acceptNmi
      else if c.pins.int.isAsserted && c.regs.iff1 && !c.intBlocked then c.cleared.acceptInt
      else if c.halted then c.cleared.startInternal .haltNop
      else c.cleared.startFetch (.memory c.regs.pc) := rfl

/-- The flip-flops as an accepted NMI leaves them. -/
def takeNmi (c : Core) : Core :=
  { c with nmiPending := false, regs.iff1 := false }

/-- The flip-flops as an accepted INT leaves them. -/
def takeInt (c : Core) : Core :=
  { c with regs.iff1 := false, regs.iff2 := false }

theorem acceptNmi_eq (c : Core) : c.acceptNmi = c.leaveHalt.takeNmi.startInternal .nmi := rfl

theorem acceptInt_eq (c : Core) : c.acceptInt =
    if c.leaveHalt.regs.im = 0 then c.leaveHalt.takeInt.startFetch .device
    else if c.leaveHalt.regs.im = 1 then c.leaveHalt.takeInt.startInternal .intMode1
    else c.leaveHalt.takeInt.startInternal .intMode2 := rfl

variable (data : Bus Byte)

theorem leaveHalt_resampled :
    (c.resampled inputs data).leaveHalt = c.leaveHalt.resampled inputs data := by
  simp only [leaveHalt]
  rw [show (c.resampled inputs data).halted = c.halted from rfl]
  split <;> rfl

theorem startInternal_resampled (op : InternalOp) :
    (c.resampled inputs data).startInternal op = (c.startInternal op).resampled inputs data := rfl

theorem startFetch_resampled (origin : Origin) :
    (c.resampled inputs data).startFetch origin = (c.startFetch origin).resampled inputs data := rfl

theorem acceptNmi_resampled :
    (c.resampled inputs data).acceptNmi = c.acceptNmi.resampled inputs data := by
  rw [acceptNmi_eq, leaveHalt_resampled]
  exact startInternal_resampled (c := c.leaveHalt.takeNmi) data .nmi

theorem acceptInt_resampled :
    (c.resampled inputs data).acceptInt = c.acceptInt.resampled inputs data := by
  rw [acceptInt_eq, acceptInt_eq, leaveHalt_resampled,
    show (c.leaveHalt.resampled inputs data).regs.im = c.leaveHalt.regs.im from rfl]
  split
  · exact startFetch_resampled (c := c.leaveHalt.takeInt) data .device
  split
  · exact startInternal_resampled (c := c.leaveHalt.takeInt) data .intMode1
  · exact startInternal_resampled (c := c.leaveHalt.takeInt) data .intMode2

/-- What comes next does not depend on the data bus, nor on the pins that do not interrupt. -/
theorem resolveNext_resampled :
    (c.resampled inputs data).resolveNext = c.resolveNext.resampled inputs data := by
  rw [resolveNext_eq, resolveNext_eq, show (c.resampled inputs data).cleared
    = c.cleared.resampled inputs data from rfl, acceptNmi_resampled, acceptInt_resampled,
    startInternal_resampled, startFetch_resampled,
    show (c.resampled inputs data).nmiPending = c.nmiPending from rfl,
    show (c.resampled inputs data).pins.int = c.pins.int from rfl,
    show (c.resampled inputs data).regs.iff1 = c.regs.iff1 from rfl,
    show (c.resampled inputs data).regs.pc = c.regs.pc from rfl,
    show (c.resampled inputs data).intBlocked = c.intBlocked from rfl,
    show (c.resampled inputs data).halted = c.halted from rfl]
  split
  · rfl
  split
  · rfl
  split <;> rfl

/-- A running chip goes on from what it has chosen. -/
theorem edge_of_running (hphase : c.phase = .running) (hreset : inputs.reset.isAsserted = false) :
    c.edge level inputs
      = (c.sampleInputs inputs).chosen.1.advance (c.sampleInputs inputs).chosen.2 := by
  have hkept : (c.sampleInputs inputs).leaveReset = c.sampleInputs inputs := by
    refine if_neg fun hwas => ?_
    have hwas' : c.phase = .reset := hwas
    exact nomatch hphase.symm.trans hwas'
  have hrunning : (c.sampleInputs inputs).phase = .running := hphase
  rw [edge_eq, hreset, if_neg Bool.false_ne_true, hkept, readied, hrunning]

/-- A chip that has ended an instruction, and chooses the next one on the following edge, is led by
    that edge to where it would have been led if it had chosen at once. -/
theorem edge_deferred (level : Level) {before : InputLevels} (hphase : c.phase = .running)
    (hchosen : c.boundaryPending = false) (h : c.Remembers before)
    (hreset : inputs.reset.isAsserted = false) (hint : inputs.int = before.int)
    (hnmi : inputs.nmi = before.nmi) :
    (({ c with boundaryPending := true, data } : Core).edge level inputs).core
        = (({ c.resolveNext with data } : Core).edge level inputs).core
      ∧ (({ c with boundaryPending := true, data } : Core).edge level inputs).ended
        = (({ c.resolveNext with data } : Core).edge level inputs).ended := by
  have hlater : ({ c with boundaryPending := true, data } : Core).sampleInputs inputs
      = ({ c with boundaryPending := true } : Core).resampled inputs data :=
    Remembers.sampleInputs (c := { c with boundaryPending := true }) ⟨h.pins, h.nmi⟩ hint hnmi data
  have hcleared : ({ ({ c with boundaryPending := true } : Core).resampled inputs data with
      boundaryPending := false } : Core) = c.resampled inputs data := by
    cases c
    cases hchosen
    rfl
  have hnow : ({ c.resolveNext with data } : Core).sampleInputs inputs
      = c.resolveNext.resampled inputs data := h.resolveNext.sampleInputs hint hnmi data
  have hsettled : (c.resolveNext.resampled inputs data).boundaryPending = false :=
    (phase_resolveNext c).2.trans hchosen
  rw [edge_of_running (c := { c with boundaryPending := true, data }) hphase hreset,
    edge_of_running (c := { c.resolveNext with data }) ((phase_resolveNext c).1.trans hphase) hreset,
    hlater, hnow]
  have hchoice : (({ c with boundaryPending := true } : Core).resampled inputs data).chosen.1
      = c.resolveNext.resampled inputs data := by
    rw [← resolveNext_resampled, ← hcleared]
    rfl
  have hkept : (c.resolveNext.resampled inputs data).chosen.1
      = c.resolveNext.resampled inputs data := by
    rw [chosen]
    rw [hsettled]
    rfl
  rw [hchoice, hkept]
  obtain ⟨hcore, hended⟩ := advance_core (c := c.resolveNext.resampled inputs data)
    (({ c with boundaryPending := true } : Core).resampled inputs data).chosen.2
  obtain ⟨hcore', hended'⟩ := advance_core (c := c.resolveNext.resampled inputs data)
    (c.resolveNext.resampled inputs data).chosen.2
  exact ⟨hcore.trans hcore'.symm, hended.trans hended'.symm⟩

end Core

end Z80Board
