import Z80Board.Proofs.Chip.Deferral

/-! # Left to itself

    A chip to which nobody puts an interrupt, and which nobody resets, is held up by waits and grants
    and by nothing else.  An edge either stalls it, so that all but its wires stays as it was, or has
    it run a half-period of the cycle in progress, or complete the cycle.  What it becomes in the end
    depends on no wire. -/

namespace Z80Board

variable {c d k : Core} {half : Nat} {level : Level} {inputs : InputLevels}

namespace Core

/-! ## Apart from the wires -/

/-- The chip on the wires of one that has just been powered on. -/
def logic (c : Core) : Core :=
  c.wiredAs (.powerOn (.released 0) (.released 0))

theorem effect_logic (byte : Byte) : (c.effect half byte).logic = c.logic.effect half byte :=
  (c.effect_wiredAs _ half byte).symm

theorem latchResult_logic : c.latchResult.logic = c.logic.latchResult :=
  (c.latchResult_wiredAs _).symm

theorem beginCycle_logic (kind : CycleKind) (length : Nat) :
    (c.beginCycle kind length).logic = (c.logic.beginCycle kind length).logic := rfl

theorem nextCycle_logic :
    c.nextCycle.1.logic = c.logic.nextCycle.1.logic ∧ c.nextCycle.2 = c.logic.nextCycle.2 := by
  cases h : c.instruction with
  | none =>
    rw [nextCycle_of_none h, nextCycle_of_none (c := c.logic) h,
      show c.logic.chain = c.chain from rfl]
    cases c.chain <;> exact ⟨beginCycle_logic (c := c.stepOn) _ _, rfl⟩
  | some code =>
    rw [nextCycle_of_some h, nextCycle_of_some (c := c.logic) h,
      show c.logic.cycles[c.logic.position + 1]? = c.cycles[c.position + 1]? from rfl]
    cases c.cycles[c.position + 1]? with
    | none => exact ⟨rfl, rfl⟩
    | some next => exact ⟨beginCycle_logic (c := c.stepOn) _ _, rfl⟩

/-- The next instruction when nothing interrupts. -/
def carryOn (c : Core) : Core :=
  if c.halted then c.cleared.startInternal .haltNop else c.cleared.startFetch (.memory c.regs.pc)

theorem carryOn_logic : c.carryOn.logic = c.logic.carryOn.logic := by
  have hinternal (op : InternalOp) (e : Core) :
      (e.startInternal op).logic = (e.logic.startInternal op).logic := rfl
  unfold carryOn
  rw [show c.logic.halted = c.halted from rfl]
  split
  · exact hinternal .haltNop c.cleared
  · rfl

theorem phase_carryOn : c.carryOn.phase = c.phase := by
  unfold carryOn
  split <;> rfl

/-- It leaves alone all that a program can see. -/
theorem carryOn_visible : c.carryOn.regs = c.regs ∧ c.carryOn.halted = c.halted
    ∧ c.carryOn.instructionCounter = c.instructionCounter := by
  unfold carryOn
  split <;> exact ⟨rfl, rfl, rfl⟩

/-- Nothing interrupts a chip that has seen neither an NMI nor an INT. -/
theorem resolveNext_carryOn (hnmi : c.nmiPending = false) (hint : c.pins.int.isAsserted = false) :
    c.resolveNext = c.carryOn := by
  rw [resolveNext_eq, hnmi, hint]
  rfl

/-- The chip would accept an INT. -/
def heeds (c : Core) : Bool :=
  c.regs.iff1 && !c.intBlocked

/-- No INT interrupts a chip that would not accept it. -/
theorem resolveNext_masked (hnmi : c.nmiPending = false) (hmasked : c.heeds = false) :
    c.resolveNext = c.carryOn := by
  rw [resolveNext_eq, hnmi, Bool.and_assoc, show (c.regs.iff1 && !c.intBlocked) = false from hmasked,
    Bool.and_false]
  rfl

/-- What follows a cycle whose result has been latched. -/
def followed (c : Core) : Core :=
  if c.nextCycle.2 then c.nextCycle.1.complete.carryOn else c.nextCycle.1

theorem followed_logic : c.followed.logic = c.logic.followed.logic := by
  obtain ⟨hcore, hend⟩ := nextCycle_logic (c := c)
  unfold followed
  rw [← hend]
  split
  · rw [carryOn_logic, carryOn_logic (c := c.logic.nextCycle.1.complete),
      show c.nextCycle.1.complete.logic = c.nextCycle.1.logic.complete from rfl, hcore]
    rfl
  · exact hcore

/-! ## Nothing from outside -/

/-- The instruction in progress is the chip's own, and so are its cycles. -/
structure Calm (c : Core) : Prop where
  origin : c.acknowledging = false
  memory : c.cycle.fromDevice = false
  pattern : c.cycle.pattern ≠ .acknowledge

theorem Calm.of_logic (h : c.Calm) (hlogic : d.logic = c.logic) : d.Calm := by
  have hcalm : c.logic.Calm := ⟨h.origin, h.memory, h.pattern⟩
  rw [← hlogic] at hcalm
  exact ⟨hcalm.origin, hcalm.memory, hcalm.pattern⟩

/-- A cycle of the chip's own is set up. -/
theorem calm_beginCycle (h : c.acknowledging = false) (kind : CycleKind) (length : Nat) :
    (c.beginCycle kind length).Calm := by
  refine ⟨h, ?_, fun hpattern => ?_⟩
  · have horigin : c.origin ≠ .device := by
      intro hdevice
      rw [acknowledging, hdevice] at h
      exact nomatch h
    show (decide (c.origin = .device) && _) = false
    rw [decide_eq_false horigin]
    rfl
  · exact nomatch h.symm.trans (acknowledge_of_busPattern hpattern).1

theorem calm_carryOn : c.carryOn.Calm := by
  unfold carryOn
  split
  · exact calm_beginCycle rfl _ _
  · exact calm_beginCycle rfl _ _

theorem Calm.runHalf (h : c.Calm) : c.runHalf.1.Calm := by
  have huse := use_runHalf (c := c)
  refine ⟨?_, (fromDevice_of_use huse).trans h.memory, ?_⟩
  · rw [acknowledging, steady_runHalf.origin]
    exact h.origin
  · rw [pattern_of_use huse]
    exact h.pattern

theorem Calm.followed (h : c.Calm) : c.latchResult.followed.Calm := by
  have hquiet : c.latchResult.acknowledging = false := by
    rw [acknowledging, steady_latchResult.origin]
    exact h.origin
  unfold Core.followed
  split
  · exact calm_carryOn
  · next hmore =>
    cases hcode : c.latchResult.instruction with
    | none =>
      rw [nextCycle_of_none hcode]
      cases c.latchResult.chain <;> exact calm_beginCycle (c := c.latchResult.stepOn) hquiet _ _
    | some code =>
      rw [nextCycle_of_some hcode] at hmore ⊢
      cases hnext : c.latchResult.cycles[c.latchResult.position + 1]? with
      | none =>
        rw [hnext] at hmore
        exact absurd rfl hmore
      | some next => exact calm_beginCycle (c := c.latchResult.stepOn) hquiet _ _

/-! ## An edge that nobody interrupts -/

/-- The chip is not being reset, and no interrupt or choice is pending. -/
structure Free (c : Core) : Prop where
  phase : c.phase ≠ .reset
  chosen : c.boundaryPending = false
  nmi : c.nmiPending = false

/-- The chip with its first instruction chosen, if it has just been powered on. -/
def ready (c : Core) : Core :=
  if c.phase = .powerOn then c.carryOn else c

theorem ready_of_running (h : c.phase = .running) : c.ready = c := by
  rw [ready, h]
  rfl

theorem ready_of_powerOn (h : c.phase = .powerOn) : c.ready = c.carryOn := by
  rw [ready, if_pos h]

theorem half_carryOn (c : Core) : c.carryOn.cycle.half = 0 := by
  unfold carryOn
  split <;> rfl

/-- Choosing the next instruction touches neither the phase nor what is pending. -/
theorem Free.carryOn (h : c.Free) : c.carryOn.Free := by
  unfold Core.carryOn
  split <;> exact ⟨h.phase, h.chosen, h.nmi⟩

theorem Free.of_steady (h : c.Free) (hsteady : c.Steady d) : d.Free := by
  refine ⟨?_, hsteady.pending.trans h.chosen, hsteady.nmiPending.trans h.nmi⟩
  rw [hsteady.phase]
  exact h.phase

/-- What follows a cycle leaves the wires alone. -/
theorem leaves_followed : c.Leaves c.followed := by
  have hcarried (e : Core) : e.Leaves e.carryOn := by
    unfold carryOn
    split <;> exact ⟨rfl, rfl, rfl⟩
  have hnext := leaves_nextCycle (c := c)
  unfold followed
  split
  · have hcompleted : c.Leaves c.nextCycle.1.complete := ⟨hnext.pins, hnext.address, hnext.data⟩
    exact hcompleted.trans (hcarried _)
  · exact hnext

theorem Free.followed (h : c.Free) : c.latchResult.followed.Free := by
  have hnext := h.of_steady (steady_latchResult.trans (steady_nextCycle c.latchResult))
  unfold Core.followed
  split
  · exact Free.carryOn (c := c.latchResult.nextCycle.1.complete) ⟨hnext.phase, hnext.chosen, hnext.nmi⟩
  · exact hnext

end Core

/-- None of RESET, NMI and INT is asserted. -/
structure InputLevels.Gentle (inputs : InputLevels) : Prop where
  reset : inputs.reset.isAsserted = false
  nmi : inputs.nmi.isAsserted = false
  int : inputs.int.isAsserted = false

namespace Core

theorem Free.sampleInputs (h : c.Free) (hinputs : inputs.Gentle) :
    (c.sampleInputs inputs).Free ∧ (c.sampleInputs inputs).leaveReset = c.sampleInputs inputs := by
  refine ⟨⟨h.phase, h.chosen, ?_⟩, if_neg h.phase⟩
  show (c.nmiPending || (inputs.nmi.isAsserted && !c.nmiSeen)) = false
  rw [h.nmi, hinputs.nmi]
  rfl

/-- A chip that is made ready has what it had, apart from its wires. -/
theorem Readied.of_free {emitted : List Emission}
    (h : (c.sampleInputs inputs).leaveReset.Readied k emitted) (hfree : c.Free)
    (hinputs : inputs.Gentle) :
    k.logic = c.ready.logic ∧ k.cycle.half = c.ready.cycle.half ∧ k.Free := by
  obtain ⟨hsampled, hkept⟩ := hfree.sampleInputs hinputs
  rw [hkept] at h
  cases h with
  | running phase =>
    have hphase : c.phase = .running := phase
    rw [ready_of_running hphase]
    exact ⟨rfl, rfl, hsampled⟩
  | returned phase =>
    have hphase : c.phase = .busReleased := phase
    rw [ready, hphase]
    exact ⟨rfl, rfl, nofun, hsampled.chosen, hsampled.nmi⟩
  | @started d phase hd =>
    have hphase : c.phase = .powerOn := phase
    have hd' : d.Free := by
      rw [hd]
      exact ⟨nofun, hsampled.chosen, hsampled.nmi⟩
    have hint : d.pins.int.isAsserted = false := by
      rw [hd]
      exact hinputs.int
    have hlogic : d.logic = c.logic := by
      rw [hd]
      rfl
    rw [resolveNext_carryOn hd'.nmi hint, ready, if_pos hphase, half_carryOn, half_carryOn]
    refine ⟨?_, rfl, hd'.carryOn⟩
    rw [carryOn_logic, hlogic, ← carryOn_logic]
  | resolved _ pending | returnedResolved _ pending =>
    exact nomatch hsampled.chosen.symm.trans pending

/-- What an edge comes to when nobody interrupts the chip `c`, with the chip that the edge engages.
    The next instruction is chosen at once. -/
inductive Stride (c : Core) (e : Edge) : Option Core → Prop where
  /-- The chip has to wait for its buses, or for the clock. -/
  | stalls (logic : (e.finish false).1.ready.logic = c.ready.logic)
    (half : (e.finish false).1.ready.cycle.half = c.ready.cycle.half)
    (data : c.phase ≠ .running ∧ (e.finish false).1.data = c.data
      ∨ (e.finish false).1.data = c.data.release)
    (goes : e.ended = false) : Stride c e none
  /-- It runs a half-period, and the cycle goes on. -/
  | runs {k : Core} (logic : k.logic = c.ready.logic) (half : k.cycle.half = c.ready.cycle.half)
    (more : k.runHalf.2 = false) (result : (e.finish false).1 = k.runHalf.1)
    (goes : e.ended = false) : Stride c e (some k)
  /-- It runs the last half-period of the cycle. -/
  | closes {k : Core} (logic : k.logic = c.ready.logic) (half : k.cycle.half = c.ready.cycle.half)
    (last : k.runHalf.2 = true) (result : (e.finish false).1 = k.runHalf.1.latchResult.followed)
    (ended : e.ended = k.runHalf.1.latchResult.nextCycle.2)
    (code : e.core.instruction = k.runHalf.1.latchResult.nextCycle.1.instruction) :
    Stride c e (some k)

/-- Running a half-period is such a stride. -/
theorem stride_runEdge {emitted : List Emission} (hlogic : k.logic = c.ready.logic)
    (hhalf : k.cycle.half = c.ready.cycle.half) (hfree : k.Free)
    (hint : (k.runEdge emitted).core.pins.int.isAsserted = false) :
    Stride c (k.runEdge emitted) (some k) ∧ ((k.runEdge emitted).finish false).1.Free := by
  have hrun := hfree.of_steady steady_runHalf
  rw [runEdge_eq] at hint ⊢
  cases hlast : k.runHalf.2 with
  | false => exact ⟨.runs hlogic hhalf hlast rfl rfl, hrun⟩
  | true =>
    rw [hlast, if_pos rfl, endCycle_eq] at hint
    have hnext := hrun.of_steady (steady_latchResult.trans (steady_nextCycle _))
    have hfollowed : ((k.runHalf.1.endCycle emitted).finish false).1
        = k.runHalf.1.latchResult.followed := by
      rw [endCycle_eq]
      unfold followed
      cases hend : k.runHalf.1.latchResult.nextCycle.2 with
      | false => rfl
      | true =>
        rw [hend, if_pos rfl] at hint
        exact resolveNext_carryOn (c := k.runHalf.1.latchResult.nextCycle.1.complete) hnext.nmi hint
    rw [if_pos rfl, hfollowed]
    refine ⟨.closes hlogic hhalf hlast hfollowed ?_ ?_, hrun.followed⟩
    · rw [endCycle_eq]
      cases k.runHalf.1.latchResult.nextCycle.2 <;> rfl
    · rw [endCycle_eq]
      cases k.runHalf.1.latchResult.nextCycle.2 <;> rfl

/-- Every edge that nobody interrupts is such a stride. -/
theorem Free.stride (h : c.Free) (hinputs : inputs.Gentle) (level : Level) :
    Stride c (c.edge level inputs) (c.engaged level inputs)
      ∧ ((c.edge level inputs).finish false).1.Free := by
  obtain ⟨hsampled, hkept⟩ := h.sampleInputs hinputs
  have hseen := c.remembers_edge level inputs
  have hint : (c.edge level inputs).core.pins.int.isAsserted = false := by
    rw [show (c.edge level inputs).core.pins.int = inputs.int from congrArg InputLevels.int hseen.pins]
    exact hinputs.int
  -- only a chip that is ready runs a half-period; what the others do leaves the logic alone
  have hturn := c.turn level inputs
  generalize c.engaged level inputs = engaged at hturn
  generalize c.edge level inputs = e at hturn hint ⊢
  cases hturn with
  | resets reset => exact nomatch hinputs.reset.symm.trans reset
  | @passes s sampled phase =>
    rw [sampled, hkept] at phase ⊢
    have hphase : c.phase ≠ .running := by
      intro hrunning
      rcases phase with hother | hother <;> exact nomatch hrunning.symm.trans hother
    refine ⟨.stalls ?_ ?_ (Or.inl ⟨hphase, rfl⟩) rfl, hsampled⟩
    · show (c.sampleInputs inputs).ready.logic = c.ready.logic
      unfold ready
      rw [show (c.sampleInputs inputs).phase = c.phase from rfl]
      split
      · rw [carryOn_logic, carryOn_logic (c := c)]
        rfl
      · rfl
    · show (c.sampleInputs inputs).ready.cycle.half = c.ready.cycle.half
      unfold ready
      rw [show (c.sampleInputs inputs).phase = c.phase from rfl]
      split
      · rw [half_carryOn, half_carryOn]
      · rfl
  | grants ready =>
    obtain ⟨hlogic, hhalf, hfree⟩ := ready.of_free h hinputs
    have hdata := ready.leaves.2.2
    rw [hkept] at hdata
    exact ⟨.stalls hlogic hhalf (Or.inr (congrArg Bus.release hdata)) rfl, nofun, hfree.chosen,
      hfree.nmi⟩
  | begins ready | continues ready =>
    obtain ⟨hlogic, hhalf, hfree⟩ := ready.of_free h hinputs
    exact stride_runEdge hlogic hhalf hfree hint

end Core

end Z80Board
