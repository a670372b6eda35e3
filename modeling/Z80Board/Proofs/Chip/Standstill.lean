import Z80Board.Proofs.Chip.Protocol

/-! # The chip at a standstill

    A chip without its buses does nothing at all.  A cycle that WAIT holds goes to and fro between
    the half-period at which WAIT is sampled and the one before, and neither of them does anything;
    once WAIT is released, the cycle goes on from there. -/

namespace Z80Board

/-- WAIT is sampled at this half-period. -/
def BusPattern.WaitsAt (pattern : BusPattern) (half : Nat) : Prop :=
  half = 3 ∧ pattern ≠ .portRead ∧ pattern ≠ .portWrite
    ∨ half = 5 ∧ (pattern = .portRead ∨ pattern = .portWrite)

instance (pattern : BusPattern) (half : Nat) : Decidable (pattern.WaitsAt half) :=
  inferInstanceAs (Decidable (_ ∨ _))

namespace Core

/-- The chip apart from what every edge moves: the levels of its inputs, the flip-flops of NMI, and
    the count of edges. -/
def aside (c : Core) : Core :=
  { c with pins := c.pins.applyInputs {}, nmiPending := false, nmiSeen := false, halfTStates := 0 }

/-- The chip apart from these, and apart from how far and how long the cycle has run. -/
def stilled (c : Core) : Core :=
  { c.aside with cycle.half := 0, cycle.lastHalf := 0, cycle.edges := 0, cycle.waitStates := 0 }

variable {c d k : Core} {half : Nat} {level : Level} {inputs : InputLevels}

theorem aside_sampleInputs : (c.sampleInputs inputs).aside = c.aside := rfl

/-! ## Without the buses -/

/-- A chip without its buses, as long as they are asked for, passes every edge by. -/
theorem edge_released (hphase : c.phase = .busReleased) (hreset : inputs.reset.isAsserted = false)
    (hrequest : inputs.busreq.isAsserted = true) :
    c.edge level inputs = (c.sampleInputs inputs).idle [] := by
  have hleft : (c.sampleInputs inputs).leaveReset = c.sampleInputs inputs := by
    refine if_neg fun hother => ?_
    cases hphase.symm.trans hother
  have hwaits : (c.sampleInputs inputs).readied level = none := by
    have hreleased : (c.sampleInputs inputs).phase = .busReleased := hphase
    have hasked : (level.isLow || (c.sampleInputs inputs).pins.busreq.isAsserted) = true := by
      rw [show (c.sampleInputs inputs).pins.busreq.isAsserted = true from hrequest, Bool.or_true]
    rw [readied, hreleased]
    exact if_pos hasked
  rw [edge_eq, hreset, if_neg Bool.false_ne_true, hleft, hwaits]

/-! ## Held by WAIT -/

/-- A cycle that can be held, without a wait of its own to come, is where WAIT is sampled, or has
    gone back from there. -/
structure Lingers (c : Core) : Prop where
  phase : c.phase = .running
  chosen : c.boundaryPending = false
  external : c.cycle.pattern ≠ .internal
  own : c.cycle.autoWaits = 0
  place : c.cycle.pattern.WaitsAt c.cycle.half ∨ c.cycle.pattern.WaitsAt (c.cycle.half + 1)

theorem Lingers.later (h : c.Lingers) : c.cycle.half ≠ 0 := by
  rcases h.place with hplace | hplace <;> rcases hplace with ⟨hhalf, -⟩ | ⟨hhalf, -⟩ <;> omega

/-- An access to memory can be held early, and only one to a port later. -/
theorem Lingers.early (h : c.Lingers) (hport : c.cycle.pattern ≠ .portRead)
    (hport' : c.cycle.pattern ≠ .portWrite) : c.cycle.half ≤ 3 := by
  have hother : ¬ (c.cycle.pattern = .portRead ∨ c.cycle.pattern = .portWrite) :=
    not_or.mpr ⟨hport, hport'⟩
  rcases h.place with (⟨hhalf, -⟩ | ⟨-, hports⟩) | (⟨hhalf, -⟩ | ⟨-, hports⟩)
  · exact Nat.le_of_eq hhalf
  · exact absurd hports hother
  · omega
  · exact absurd hports hother

/-- Before WAIT is sampled there is a half-period that does nothing. -/
theorem patternHalf_before (h : c.cycle.pattern.WaitsAt (half + 1)) :
    c.patternHalf half = (c, false) := by
  rw [patternHalf]
  rcases h with ⟨hthree, hread, hwrite⟩ | ⟨hfive, hport⟩
  · obtain rfl : half = 2 := by omega
    cases hpattern : c.cycle.pattern with
    | portRead => exact absurd hpattern hread
    | portWrite => exact absurd hpattern hwrite
    | fetch | acknowledge | opcodeRead | read | write | internal => rfl
  · obtain rfl : half = 4 := by omega
    rcases hport with hpattern | hpattern <;> rw [hpattern] <;> rfl

/-- Past the wait a write asserts its strobe. -/
def strike (c : Core) : Core :=
  { c with pins.wr := if c.cycle.pattern = .write then .asserted else c.pins.wr }

/-- Where WAIT is sampled a cycle is held, or goes on. -/
theorem patternHalf_waitsAt (h : c.cycle.pattern.WaitsAt half)
    (hexternal : c.cycle.pattern ≠ .internal) (hown : c.cycle.autoWaits = 0) :
    c.patternHalf half = if c.held then (c, true) else (c.strike, false) := by
  have hplain (hother : c.cycle.pattern ≠ .write) :
      (c, c.held) = if c.held then (c, true) else (c.strike, false) := by
    have hsame : c.strike = c := by rw [strike, if_neg hother]
    rw [hsame]
    cases c.held <;> rfl
  rw [patternHalf]
  rcases h with ⟨rfl, hread, hwrite⟩ | ⟨rfl, hport⟩
  · cases hpattern : c.cycle.pattern with
    | portRead => exact absurd hpattern hread
    | portWrite => exact absurd hpattern hwrite
    | internal => exact absurd hpattern hexternal
    | write =>
      have hstrikes : c.strike = { c with pins.wr := .asserted } := by rw [strike, if_pos hpattern]
      rw [hstrikes]
      rfl
    | fetch | acknowledge =>
      have hnone : ¬ c.cycle.autoWaits > 0 := by omega
      exact (if_neg hnone).trans (hplain (by rw [hpattern]; decide))
    | opcodeRead | read => exact hplain (by rw [hpattern]; decide)
  · rcases hport with hpattern | hpattern <;> rw [hpattern] <;>
      exact hplain (by rw [hpattern]; decide)

/-- Behind the half-period where WAIT is sampled the cycle has room for one more. -/
theorem Underway.room_waitsAt (h : c.Underway) (hhere : c.cycle.pattern.WaitsAt half) :
    half + 1 < 2 * c.cycle.length := by
  have hleast := h.course.room
  rcases hhere with ⟨hthree, -⟩ | ⟨hfive, hport⟩
  · have hshortest := c.cycle.pattern.three_le_minimumLength
    omega
  · have hshortest : c.cycle.pattern.minimumLength = 4 := by
      rcases hport with hport | hport <;> rw [hport] <;> rfl
    omega

/-- WAIT holds the cycle, which goes back by one half-period. -/
theorem Lingers.runHalf_held (h : c.Lingers) (hhere : c.cycle.pattern.WaitsAt c.cycle.half)
    (hheld : c.pins.wait.isAsserted = true) :
    c.runHalf = ({ c.countEdge with
      cycle.half := c.cycle.half - 1
      cycle.waitStates := min 255 (c.cycle.waitStates + 1) }, false) := by
  have hwaits : c.countEdge.patternHalf c.cycle.half = (c.countEdge, true) :=
    (patternHalf_waitsAt (c := c.countEdge) hhere h.external h.own).trans (if_pos hheld)
  rw [runHalf_eq, ← waits_countEdge, hwaits]
  rfl

/-- The half-period before runs again. -/
theorem Underway.runHalf_again (hunderway : c.Underway)
    (hbefore : c.cycle.pattern.WaitsAt (c.cycle.half + 1)) :
    c.runHalf = ({ c.countEdge with cycle.half := c.cycle.half + 1 }, false) := by
  have hruns : c.countEdge.patternHalf c.cycle.half = (c.countEdge, false) :=
    patternHalf_before (c := c.countEdge) hbefore
  rw [runHalf_eq, ← waits_countEdge, hruns]
  exact if_neg (Nat.not_le_of_lt (Nat.lt_of_succ_lt (hunderway.room_waitsAt hbefore)))

/-- Once WAIT is released, the cycle goes on. -/
theorem Lingers.runHalf_released (h : c.Lingers) (hunderway : c.Underway)
    (hhere : c.cycle.pattern.WaitsAt c.cycle.half) (hreleased : c.pins.wait.isAsserted = false) :
    c.runHalf = ({ c.countEdge.strike with cycle.half := c.cycle.half + 1 }, false) := by
  have hruns : c.countEdge.patternHalf c.cycle.half = (c.countEdge.strike, false) :=
    (patternHalf_waitsAt (c := c.countEdge) hhere h.external h.own).trans
      (if_neg (Bool.eq_false_iff.mp hreleased))
  rw [runHalf_eq, ← waits_countEdge, hruns]
  exact if_neg (Nat.not_le_of_lt (hunderway.room_waitsAt hhere))

/-- Neither half-period of a cycle that is held does anything. -/
theorem Lingers.runHalf (h : c.Lingers) (hunderway : c.Underway)
    (hheld : c.cycle.pattern.WaitsAt c.cycle.half → c.pins.wait.isAsserted = true) :
    c.runHalf.2 = false ∧ c.runHalf.1.stilled = c.stilled ∧ c.runHalf.1.Lingers := by
  by_cases hhere : c.cycle.pattern.WaitsAt c.cycle.half
  · have hback : c.cycle.half - 1 + 1 = c.cycle.half :=
      Nat.sub_add_cancel (Nat.pos_of_ne_zero h.later)
    rw [h.runHalf_held hhere (hheld hhere)]
    refine ⟨rfl, rfl, h.phase, h.chosen, h.external, h.own, Or.inr ?_⟩
    show c.cycle.pattern.WaitsAt (c.cycle.half - 1 + 1)
    rw [hback]
    exact hhere
  · have hbefore : c.cycle.pattern.WaitsAt (c.cycle.half + 1) := h.place.resolve_left hhere
    rw [hunderway.runHalf_again hbefore]
    exact ⟨rfl, rfl, h.phase, h.chosen, h.external, h.own, Or.inl hbefore⟩

theorem Lingers.sampled (h : c.Lingers) (inputs : InputLevels) : (c.sampleInputs inputs).Lingers :=
  ⟨h.phase, h.chosen, h.external, h.own, h.place⟩

/-- A cycle in progress needs no making ready. -/
theorem Lingers.readied_eq (h : c.Lingers) :
    (c.sampleInputs inputs).readied level = some (c.sampleInputs inputs, []) := by
  have hrunning : (c.sampleInputs inputs).phase = .running := h.phase
  have hchosen : (c.sampleInputs inputs).boundaryPending = false := h.chosen
  rw [readied, hrunning]
  show some (c.sampleInputs inputs).chosen = _
  rw [Core.chosen, hchosen, if_neg Bool.false_ne_true]

/-- An edge engages the chip as it is, with the inputs of the edge. -/
theorem Lingers.engaged_eq (h : c.Lingers) (hreset : inputs.reset.isAsserted = false) :
    c.engaged level inputs = some (c.sampleInputs inputs) := by
  have hleft : (c.sampleInputs inputs).leaveReset = c.sampleInputs inputs := by
    refine if_neg fun hother => ?_
    cases h.phase.symm.trans hother
  show (if inputs.reset.isAsserted then none else _) = _
  rw [hreset, if_neg Bool.false_ne_true, hleft, h.readied_eq]
  exact if_neg fun hfirst => h.later hfirst.1

/-- An edge amid a cycle runs its half-period and does nothing before that. -/
theorem Lingers.edge_eq (h : c.Lingers) (hreset : inputs.reset.isAsserted = false) :
    c.edge level inputs = (c.sampleInputs inputs).runEdge [] := by
  have hleft : (c.sampleInputs inputs).leaveReset = c.sampleInputs inputs := by
    refine if_neg fun hother => ?_
    cases h.phase.symm.trans hother
  rw [Core.edge_eq, hreset, if_neg Bool.false_ne_true, hleft, h.readied_eq]
  exact if_neg h.later

/-- An edge on which a cycle is held, or runs again before it is held. -/
theorem Lingers.edge (h : c.Lingers) (hsound : c.Sound) (hreset : inputs.reset.isAsserted = false)
    (hheld : c.cycle.pattern.WaitsAt c.cycle.half → inputs.wait.isAsserted = true) :
    ∃ d : Core, c.edge level inputs = d.idle [] ∧ d.stilled = c.stilled ∧ d.Lingers := by
  have hunderway := (hsound.sampleInputs inputs).running h.phase h.chosen
  obtain ⟨hmore, hstilled, hlingers⟩ := (h.sampled inputs).runHalf hunderway hheld
  refine ⟨(c.sampleInputs inputs).runHalf.1, ?_, hstilled, hlingers⟩
  rw [h.edge_eq hreset, runEdge_eq, hmore, if_neg Bool.false_ne_true]

/-- The chip that goes on with a cycle that has been held. -/
def resumed (c : Core) (inputs : InputLevels) : Core :=
  { (c.sampleInputs inputs).countEdge.strike with cycle.half := c.cycle.half + 1 }

/-- An edge on which WAIT is found released. -/
theorem Lingers.edge_released (h : c.Lingers) (hsound : c.Sound)
    (hreset : inputs.reset.isAsserted = false) (hhere : c.cycle.pattern.WaitsAt c.cycle.half)
    (hreleased : inputs.wait.isAsserted = false) :
    c.edge level inputs = (c.resumed inputs).idle [] := by
  have hunderway := (hsound.sampleInputs inputs).running h.phase h.chosen
  rw [h.edge_eq hreset, runEdge_eq, (h.sampled inputs).runHalf_released hunderway hhere hreleased,
    if_neg Bool.false_ne_true]
  rfl

end Core

end Z80Board
