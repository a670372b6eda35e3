import Z80Board.Proofs.Chip.Arbitration
import Z80Board.Proofs.Chip.Logic

/-! # Buses granted between two instructions

    The next instruction is chosen when the last one ends, or after a stop on the edge that follows.
    The buses are granted in place of the first half-period of a cycle, so between two instructions
    the grant comes after the choice.  What the choice has made of the flip-flops and of a HALT is
    what the chip has for as long as it is without its buses.  When it gets them back it runs the
    instruction that it has chosen, whatever NMI and INT have done in between. -/

namespace Z80Board

/-- Another master asks for the buses, and nobody resets the chip. -/
structure InputLevels.AskForBuses (inputs : InputLevels) : Prop where
  reset : inputs.reset.isAsserted = false
  busreq : inputs.busreq.isAsserted = true

/-- The chip that has chosen its next instruction after an edge that has ended one: at once, or
    after a stop with the inputs of the following edge. -/
def Edge.choice (e : Edge) (stopping : Bool) (following : InputLevels) : Core :=
  if stopping then (e.core.sampleInputs following).resolveNext else e.core.resolveNext

/-- What has come to pass when it chooses. -/
def History.atChoice (history : History) (c : Core) (level : Level) (inputs : InputLevels)
    (stopping : Bool) (following : InputLevels) : History :=
  let ended := (c.edge level inputs).emitted.foldl note (.sampled inputs :: history)
  if stopping then .sampled following :: ended else ended

namespace Core

variable {c d k : Core} {level : Level} {inputs : InputLevels}

/-! ## The grant -/

/-- The chip `k` has come to be without its buses, as `d`, before the first half-period of a
    cycle. -/
structure Lends (k d : Core) : Prop where
  phase : d.phase = .busReleased
  chosen : d.boundaryPending = false
  first : d.cycle.half = 0
  busack : d.pins.busack = .asserted
  logic : d.logic = k.logic

/-- A chip that is about to begin a cycle grants its buses. -/
theorem lends_step (hphase : c.phase = .running) (hchosen : c.boundaryPending = false)
    (hfirst : c.cycle.half = 0) (h : inputs.AskForBuses) : c.Lends (c.step level inputs) := by
  have hkept : (c.sampleInputs inputs).chosen = (c.sampleInputs inputs, []) := by
    rw [chosen, show (c.sampleInputs inputs).boundaryPending = false from hchosen]
    rfl
  have hgrants : c.edge level inputs = (c.sampleInputs inputs).releaseBus.idle [] := by
    rw [edge_of_running hphase h.reset, hkept, advance,
      if_pos (show (c.sampleInputs inputs).cycle.half = 0 from hfirst),
      if_pos (show (c.sampleInputs inputs).pins.busreq.isAsserted = true from h.busreq)]
  rw [step, hgrants]
  exact ⟨rfl, hchosen, hfirst, rfl, rfl⟩

/-- After a stop it chooses its next instruction first. -/
theorem lends_step_pending (hphase : c.phase = .running) (hchosen : c.boundaryPending = false)
    (h : inputs.AskForBuses) : (c.sampleInputs inputs).resolveNext.Lends
      (({ c with boundaryPending := true } : Core).step level inputs) := by
  have hcleared : ({ ({ c with boundaryPending := true } : Core).sampleInputs inputs with
      boundaryPending := false } : Core) = c.sampleInputs inputs := by
    cases c
    cases hchosen
    rfl
  have hnext := course_resolveNext (c.sampleInputs inputs)
  have hpins : (c.sampleInputs inputs).resolveNext.pins.busreq = inputs.busreq := by
    obtain ⟨d, length, hbegins, hbetween⟩ := (c.sampleInputs inputs).resolveNext_begins
    rw [hbegins]
    show d.pins.busreq = _
    rw [hbetween.pins]
    rfl
  have hready : (({ c with boundaryPending := true } : Core).sampleInputs inputs).chosen
      = ((c.sampleInputs inputs).resolveNext,
        [⟨.instructionStart, (c.sampleInputs inputs).resolveNext⟩]) := by
    rw [← hcleared]
    rfl
  have hgrants : ({ c with boundaryPending := true } : Core).edge level inputs
      = (c.sampleInputs inputs).resolveNext.releaseBus.idle
        [⟨.instructionStart, (c.sampleInputs inputs).resolveNext⟩] := by
    rw [edge_of_running (c := { c with boundaryPending := true }) hphase h.reset, hready, advance,
      if_pos hnext.2.1, hpins, if_pos h.busreq]
  rw [step, hgrants]
  exact ⟨rfl, (phase_resolveNext _).2.trans hchosen, hnext.2.1, rfl, rfl⟩

/-- As long as the buses are asked for, nothing but the wires changes. -/
theorem Lends.held (h : k.Lends d) (hinputs : inputs.AskForBuses) :
    k.Lends (d.step level inputs) := by
  have hkept : (d.sampleInputs inputs).leaveReset = d.sampleInputs inputs := by
    refine if_neg fun hreset => ?_
    have hreset' : d.phase = .reset := hreset
    exact nomatch h.phase.symm.trans hreset'
  have hwaits : (d.sampleInputs inputs).readied level = none := by
    rw [readied, show (d.sampleInputs inputs).phase = .busReleased from h.phase]
    dsimp only
    rw [if_pos]
    rw [show (d.sampleInputs inputs).pins.busreq = inputs.busreq from rfl, hinputs.busreq,
      Bool.or_true]
  have hidle : d.edge level inputs = (d.sampleInputs inputs).idle [] := by
    rw [edge_eq, hinputs.reset, if_neg Bool.false_ne_true, hkept, hwaits]
  rw [step, hidle]
  exact ⟨h.phase, h.chosen, h.first, h.busack, h.logic⟩

/-- So it is over any number of edges. -/
theorem Lends.steps (h : k.Lends d) (edges : List (Level × InputLevels))
    (hheld : ∀ edge ∈ edges, edge.2.AskForBuses) : k.Lends (d.steps edges) := by
  induction edges generalizing d with
  | nil => exact h
  | cons edge rest ih =>
    exact ih (h.held (hheld edge (List.mem_cons_self ..)))
      fun other hother => hheld other (List.mem_cons_of_mem _ hother)

/-- When the buses come back, the cycle that was about to begin begins, and nothing is chosen. -/
theorem Lends.returns (h : k.Lends d) (hreset : inputs.reset.isAsserted = false)
    (hbusreq : inputs.busreq.isAsserted = false) :
    ∃ r, d.engaged .high inputs = some r ∧ r.logic = k.logic
      ∧ d.edge .high inputs = r.runEdge [⟨.cycleStart, r⟩] := by
  have hkept : (d.sampleInputs inputs).leaveReset = d.sampleInputs inputs := by
    refine if_neg fun hwas => ?_
    have hwas' : d.phase = .reset := hwas
    exact nomatch h.phase.symm.trans hwas'
  have hready : (d.sampleInputs inputs).readied .high
      = some ((d.sampleInputs inputs).returnBus, []) := by
    have hchosen : (d.sampleInputs inputs).returnBus.chosen
        = ((d.sampleInputs inputs).returnBus, []) := by
      rw [Core.chosen, show (d.sampleInputs inputs).returnBus.boundaryPending = false from h.chosen]
      rfl
    rw [readied, show (d.sampleInputs inputs).phase = .busReleased from h.phase]
    dsimp only
    rw [show (d.sampleInputs inputs).pins.busreq = inputs.busreq from rfl, hbusreq, hchosen]
    rfl
  have hfirst : (d.sampleInputs inputs).returnBus.cycle.half = 0 := h.first
  have hrequest : ¬ (d.sampleInputs inputs).returnBus.pins.busreq.isAsserted = true :=
    Bool.eq_false_iff.mp hbusreq
  refine ⟨(d.sampleInputs inputs).returnBus, ?_, h.logic, ?_⟩
  · rw [engaged, hkept, hready]
    dsimp only
    rw [if_neg (show ¬ (d.sampleInputs inputs).pins.reset.isAsserted = true from
      Bool.eq_false_iff.mp hreset), if_neg fun hboth => hrequest hboth.2]
  · rw [edge_eq, hreset, if_neg Bool.false_ne_true, hkept, hready]
    dsimp only
    rw [advance, if_pos hfirst, if_neg hrequest]
    rfl

/-! ## The choice -/

/-- A choice that accepts no interrupt touches neither the registers nor a HALT. -/
theorem resolveNext_uninterrupted (h : c.resolveNext.origin.interrupts = false) :
    c.resolveNext.regs = c.regs ∧ c.resolveNext.halted = c.halted := by
  rw [resolveNext_eq] at h ⊢
  split
  · next hnmi =>
    rw [if_pos hnmi] at h
    exact nomatch h
  · next hnmi =>
    rw [if_neg hnmi] at h
    split
    · next hint =>
      rw [if_pos hint, acceptInt_eq] at h
      split at h
      · exact nomatch h
      · split at h <;> exact nomatch h
    · split <;> exact ⟨rfl, rfl⟩

/-- One that accepts an interrupt clears the first flip-flop and ends a HALT. -/
theorem resolveNext_interrupted (h : c.resolveNext.origin.interrupts = true) :
    c.resolveNext.regs.iff1 = false ∧ c.resolveNext.halted = false := by
  have hleft (d : Core) : d.leaveHalt.halted = false := by
    rw [leaveHalt]
    split
    · rfl
    · next hgoes => exact Bool.eq_false_iff.mpr hgoes
  rw [resolveNext_eq] at h ⊢
  split
  · exact ⟨rfl, hleft c.cleared⟩
  · next hnmi =>
    rw [if_neg hnmi] at h
    split
    · rw [acceptInt_eq]
      split
      · exact ⟨rfl, hleft c.cleared⟩
      · split <;> exact ⟨rfl, hleft c.cleared⟩
    · next hint =>
      rw [if_neg hint] at h
      split at h <;> cases h

/-- The last event of an edge that ends an instruction shows the chip as the edge leaves it. -/
theorem emitted_of_ended (hended : (c.edge level inputs).ended = true) : ∃ before,
    (c.edge level inputs).emitted
      = before ++ [⟨.instructionEnd, (c.edge level inputs).core⟩] := by
  have hran (d : Core) (emitted : List Emission) (hends : (d.runEdge emitted).ended = true) :
      ∃ before, (d.runEdge emitted).emitted
        = before ++ [⟨.instructionEnd, (d.runEdge emitted).core⟩] := by
    rw [runEdge_eq, endCycle_eq] at hends ⊢
    split at hends
    · split at hends
      · next hlast hend =>
        rw [if_pos hlast, if_pos hend]
        exact ⟨_, rfl⟩
      · exact nomatch hends
    · exact nomatch hends
  have hturn := c.turn level inputs
  generalize c.engaged level inputs = engaged at hturn
  generalize c.edge level inputs = e at hturn hended ⊢
  cases hturn with
  | resets | passes | grants => exact nomatch hended
  | begins | continues => exact hran _ _ hended

/-- The choice after an edge that has ended an instruction is the one that the history asks for,
    whether it is made at once or on the following edge. -/
theorem Informed.choice {history : History} (h : c.Informed history) (hsound : c.Sound)
    (hreset : inputs.reset.isAsserted = false) (hended : (c.edge level inputs).ended = true)
    (stopping : Bool) (following : InputLevels) :
    Chosen (history.atChoice c level inputs stopping following) (c.edge level inputs).core
      ((c.edge level inputs).choice stopping following) := by
  obtain ⟨before, hemitted⟩ := emitted_of_ended hended
  have hclosed := hsound.edge level inputs
  rw [Edge.Sound, if_pos hended] at hclosed
  obtain ⟨-, hphase, hchosen⟩ := hclosed
  obtain ⟨hrightly, hinformed⟩ := h.edge hsound level inputs hreset stopping
  rw [History.atChoice, Edge.choice]
  rw [History.edge, Edge.finish, if_pos hended] at hinformed
  rw [Edge.finish, if_pos hended] at hrightly
  generalize c.edge level inputs = e at hended hemitted hphase hchosen hrightly hinformed ⊢
  cases stopping with
  | false =>
    rw [if_neg Bool.false_ne_true, rightly_append] at hrightly
    have hseen : c.lastSeen e.emitted = e.core := by
      rw [hemitted, lastSeen, List.foldl_append]
      rfl
    have hchoice := hrightly.2.1 rfl
    rw [hseen] at hchoice
    rw [if_neg Bool.false_ne_true, if_neg Bool.false_ne_true]
    exact hchoice
  | true =>
    rw [if_pos rfl, List.foldl_append] at hinformed
    have hsampled := hinformed.sampled following
    have hkept : (({ e.core with boundaryPending := true } : Core).sampleInputs
        following).leaveReset
        = ({ e.core with boundaryPending := true } : Core).sampleInputs following := by
      refine if_neg fun hwas => ?_
      have hwas' : e.core.phase = .reset := hwas
      cases hphase.symm.trans hwas'
    rw [hkept] at hsampled
    have hready : (({ e.core with boundaryPending := true } : Core).sampleInputs following).Readied
        (e.core.sampleInputs following).resolveNext
        [⟨.instructionStart, (e.core.sampleInputs following).resolveNext⟩] := by
      refine .resolved hphase rfl ?_
      cases hcore : e.core
      rw [hcore] at hchosen
      cases hchosen
      rfl
    have hregs : e.core.regs = (({ e.core with boundaryPending := true } : Core).sampleInputs
        following).regs := rfl
    have hchoice := (hready.occupied hsampled hregs).2.1 rfl
    rw [if_pos rfl, if_pos rfl]
    exact hchoice

end Core

/-! ## Runs -/

variable {c : Core} {history : History} {level : Level} {inputs : InputLevels}

/-- On every run without a reset, when the buses are asked for from the end of an instruction on,
    they are granted after the next instruction has been chosen.  The choice is made from what has
    come to pass up to the end of the last instruction, and after a stop up to the edge of the grant.
    If it accepts an interrupt, the first flip-flop is clear and a HALT has ended when the buses are
    granted, and otherwise the registers are those that the last instruction has left.  All this
    stays as it is until the buses come back, and then the chosen instruction starts. -/
theorem Unreset.grants_after_choice (h : Unreset c history)
    (hreset : inputs.reset.isAsserted = false) (hended : (c.edge level inputs).ended = true)
    (stopping : Bool) (following : Level × InputLevels) (rest : List (Level × InputLevels))
    (hheld : ∀ edge ∈ following :: rest, edge.2.AskForBuses) :
    let ended := (c.edge level inputs).core
    let k := (c.edge level inputs).choice stopping following.2
    let d := ((c.edge level inputs).finish stopping).1.steps (following :: rest)
    Core.Chosen (history.atChoice c level inputs stopping following.2) ended k
      ∧ (k.origin.interrupts = false → d.regs = ended.regs ∧ d.halted = ended.halted)
      ∧ (k.origin.interrupts = true → d.regs.iff1 = false ∧ d.halted = false)
      ∧ d.pins.busack.isAsserted = true ∧ d.snapshot.busReleased = true
      ∧ d.regs = k.regs ∧ d.origin = k.origin ∧ d.instruction = k.instruction
      ∧ ∀ back : InputLevels, back.reset.isAsserted = false → back.busreq.isAsserted = false →
        ∃ r, d.engaged .high back = some r ∧ r.regs = k.regs ∧ r.origin = k.origin
          ∧ r.instruction = k.instruction
          ∧ d.edge .high back = r.runEdge [⟨.cycleStart, r⟩] := by
  intro ended k d
  obtain ⟨hsound, hinformed⟩ := h.informed
  have hclosed := hsound.edge level inputs
  rw [Core.Edge.Sound, if_pos hended] at hclosed
  obtain ⟨-, hphase, hchosen⟩ := hclosed
  have hasks := hheld following (List.mem_cons_self ..)
  have hlends : k.Lends (((c.edge level inputs).finish stopping).1.step following.1
      following.2) := by
    show Core.Lends (Edge.choice _ _ _) _
    rw [Edge.choice, Edge.finish, if_pos hended]
    cases stopping with
    | false =>
      obtain ⟨hrunning, hpending⟩ := Core.phase_resolveNext ended
      exact Core.lends_step (hrunning.trans hphase) (hpending.trans hchosen)
        (Core.course_resolveNext ended).2.1 hasks
    | true => exact Core.lends_step_pending hphase hchosen hasks
  have hgranted : k.Lends d := hlends.steps rest fun edge hedge =>
    hheld edge (List.mem_cons_of_mem _ hedge)
  have hregs : d.regs = k.regs := show d.logic.regs = k.logic.regs by rw [hgranted.logic]
  have hhalted : d.halted = k.halted := show d.logic.halted = k.logic.halted by rw [hgranted.logic]
  have hkept (hquiet : k.origin.interrupts = false) : k.regs = ended.regs
      ∧ k.halted = ended.halted := by
    have hquiet' : (Edge.choice _ stopping following.2).origin.interrupts = false := hquiet
    show (Edge.choice _ _ _).regs = _ ∧ (Edge.choice _ _ _).halted = _
    rw [Edge.choice] at hquiet' ⊢
    cases stopping with
    | false => exact Core.resolveNext_uninterrupted hquiet'
    | true => exact Core.resolveNext_uninterrupted (c := ended.sampleInputs following.2) hquiet'
  have hcut (haccepts : k.origin.interrupts = true) : k.regs.iff1 = false ∧ k.halted = false := by
    have haccepts' : (Edge.choice _ stopping following.2).origin.interrupts = true := haccepts
    show (Edge.choice _ _ _).regs.iff1 = _ ∧ (Edge.choice _ _ _).halted = _
    rw [Edge.choice] at haccepts' ⊢
    cases stopping with
    | false => exact Core.resolveNext_interrupted haccepts'
    | true => exact Core.resolveNext_interrupted haccepts'
  refine ⟨hinformed.choice hsound hreset hended stopping following.2, ?_, ?_, ?_, ?_, hregs, ?_, ?_,
    fun back hrelease hrequest => ?_⟩
  · rw [hregs, hhalted]
    exact hkept
  · rw [hregs, hhalted]
    exact hcut
  · rw [hgranted.busack]
    rfl
  · exact decide_eq_true hgranted.phase
  · exact show d.logic.origin = k.logic.origin by rw [hgranted.logic]
  · exact show d.logic.instruction = k.logic.instruction by rw [hgranted.logic]
  · obtain ⟨r, hengaged, hlogic, hedge⟩ := hgranted.returns hrelease hrequest
    refine ⟨r, hengaged, ?_, ?_, ?_, hedge⟩
    · exact show r.logic.regs = k.logic.regs by rw [hlogic]
    · exact show r.logic.origin = k.logic.origin by rw [hlogic]
    · exact show r.logic.instruction = k.logic.instruction by rw [hlogic]

/-- The chip amid a NOP, seven edges after power-on, with interrupts enabled. -/
def nopUnderway : Core :=
  ((Core.powerOn (.released 0xFFFF) (.released 0)).modifyRegs fun regs =>
    { regs with iff1 := true, iff2 := true }).steps
      ((List.range 7).map fun edge => (.ofBool (edge % 2 == 0), {}))

/-- NMI and BUSREQ at once. -/
def nmiAndRequest : InputLevels :=
  { nmi := .asserted, busreq := .asserted }

theorem unreset_nopUnderway : ∃ history, Unreset nopUnderway history :=
  ((Unreset.powerOn (.released 0xFFFF) (.released 0)).regs _).exists_steps _ (by decide)

/-- NMI and BUSREQ come on the edge that ends the NOP.  The interrupt is accepted, and then the buses
    are granted. -/
theorem grant_after_nmi : ∃ history, Unreset nopUnderway history
    ∧ (nopUnderway.edge .low nmiAndRequest).ended = true
    ∧ ((nopUnderway.edge .low nmiAndRequest).choice false nmiAndRequest).origin = .internal .nmi
    ∧ Core.Chosen (history.atChoice nopUnderway .low nmiAndRequest false nmiAndRequest)
        (nopUnderway.edge .low nmiAndRequest).core
        ((nopUnderway.edge .low nmiAndRequest).choice false nmiAndRequest)
    ∧ (((nopUnderway.edge .low nmiAndRequest).finish false).1.steps
        [(.high, nmiAndRequest)]).snapshot.busReleased = true
    ∧ (((nopUnderway.edge .low nmiAndRequest).finish false).1.steps
        [(.high, nmiAndRequest)]).regs.iff1 = false := by
  obtain ⟨history, hrun⟩ := unreset_nopUnderway
  have hended : (nopUnderway.edge .low nmiAndRequest).ended = true := by decide +kernel
  have hnmi : ((nopUnderway.edge .low nmiAndRequest).choice false nmiAndRequest).origin
      = .internal .nmi := by decide +kernel
  have hreset : nmiAndRequest.reset.isAsserted = false := rfl
  obtain ⟨hchoice, -, hcut, -, hreleased, -⟩ := Unreset.grants_after_choice hrun hreset hended
    false (.high, nmiAndRequest) [] (List.forall_mem_singleton.mpr ⟨rfl, rfl⟩)
  exact ⟨history, hrun, hended, hnmi, hchoice, hreleased, (hcut (by rw [hnmi]; rfl)).1⟩

/-- The first flip-flop does not keep through the grant what the NOP has left in it. -/
theorem grant_finds_flip_flop_clear : ¬ ∀ (c : Core) (history : History) (inputs : InputLevels),
    Unreset c history → (c.edge .low inputs).ended = true → inputs.AskForBuses →
    ((c.step .low inputs).step .high inputs).regs.iff1 = (c.edge .low inputs).core.regs.iff1 := by
  intro hkept
  obtain ⟨history, hrun⟩ := unreset_nopUnderway
  have hsame := hkept nopUnderway history nmiAndRequest hrun (by decide +kernel) ⟨rfl, rfl⟩
  have hother : ((nopUnderway.step .low nmiAndRequest).step .high nmiAndRequest).regs.iff1
      ≠ (nopUnderway.edge .low nmiAndRequest).core.regs.iff1 := by decide +kernel
  exact hother hsame

end Z80Board
