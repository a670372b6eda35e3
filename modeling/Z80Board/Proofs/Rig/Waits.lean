import Z80Board.Proofs.Chip.Tally
import Z80Board.Proofs.Rig.Stops
import Z80Board.Proofs.Rig.Stores

/-! # The waits of a cycle

    Memory holds WAIT while it counts rising edges, and the chip samples WAIT on falling edges, each
    seeing the other one edge late.  Between them they put the number of waits that the board is
    configured for into every cycle that turns to memory, the chip by itself puts two into an
    interrupt acknowledge, and no other cycle has any, as long as nobody else pulls WAIT.

    The two counts go together: while a cycle is before its sample, memory has counted one rising
    edge for each wait so far, and one more once the middle of the period has passed. -/

namespace Z80Board

/-! ## Where a cycle can be held -/

/-- The half-period at which WAIT is sampled. -/
def BusPattern.waitHalf : BusPattern → Option Nat
  | .fetch | .acknowledge | .opcodeRead | .read | .write => some 3
  | .portRead | .portWrite => some 5
  | .internal => none

/-- The cycle turns to memory. -/
def ActiveCycle.takesMemory (cycle : ActiveCycle) : Bool :=
  cycle.readsMemory || cycle.pattern == .write

/-- Memory is requested from the second half-period of such a cycle to its sample. -/
theorem ActiveCycle.memoryRequest_outputs {cycle : ActiveCycle} {half : Nat} :
    (cycle.outputs half).memoryRequest
      = (cycle.takesMemory && decide (2 ≤ half ∧ half ≤ cycle.pattern.sampleHalf)) := by
  rw [outputs]
  rw [takesMemory, readsMemory]
  cases cycle.pattern <;> cases hdevice : cycle.fromDevice
  all_goals
    obtain rfl | rfl | rfl | rfl | rfl | rfl | rfl | rfl | rfl | ⟨n, rfl⟩ := half_cases half <;>
      simp [fetchOutputs, acknowledgeOutputs, readOutputs, writeOutputs, portOutputs, hdevice,
        Pins.memoryRequest, Level.isAsserted, Level.isLow, BusPattern.sampleHalf]

/-- M1 with the port request comes with the first wait of an acknowledge. -/
theorem ActiveCycle.interruptAcknowledge_outputs {cycle : ActiveCycle} {half : Nat} :
    (cycle.outputs half).interruptAcknowledge
      = (cycle.pattern == .acknowledge && decide (cycle.autoWaits < 2 ∧ 2 ≤ half ∧ half ≤ 4)) := by
  rw [outputs]
  cases cycle.pattern <;> cases hdevice : cycle.fromDevice
  all_goals
    obtain rfl | rfl | rfl | rfl | rfl | rfl | rfl | rfl | rfl | ⟨n, rfl⟩ := half_cases half <;>
      by_cases hwaits : cycle.autoWaits < 2 <;>
        simp [fetchOutputs, acknowledgeOutputs, readOutputs, writeOutputs, portOutputs, hdevice,
          hwaits, Pins.interruptAcknowledge, Level.isAsserted, Level.isLow]

namespace Core

variable {c k : Core} {half : Nat}

/-- A cycle is held at its sample: by itself, or by WAIT. -/
theorem waits_eq (h : c.cycle.WaitsDue c.cycle.half) : c.waits
    = (c.cycle.pattern.waitHalf == some c.cycle.half && (c.cycle.autoWaits != 0 || c.held)) := by
  have hnone (hpattern : c.cycle.pattern ≠ .acknowledge) : c.cycle.autoWaits = 0 := h.eq_zero hpattern
  rw [waits, patternHalf]
  generalize c.cycle.half = half
  cases hpattern : c.cycle.pattern <;> dsimp only [BusPattern.waitHalf]
  case fetch | acknowledge =>
    obtain rfl | rfl | rfl | rfl | rfl | rfl | rfl | rfl | rfl | ⟨n, rfl⟩ := ActiveCycle.half_cases half
    case inr.inr.inr.inl =>
      by_cases hmore : c.cycle.autoWaits > 0
      · rw [fetchHalf, if_pos hmore, bne_iff_ne.mpr (Nat.ne_of_gt hmore)]
        rfl
      · rw [fetchHalf, if_neg hmore, Nat.eq_zero_of_not_pos hmore]
        rfl
    all_goals rfl
  case opcodeRead | read | portRead | portWrite =>
    rw [hnone (by rw [hpattern]; decide)]
    obtain rfl | rfl | rfl | rfl | rfl | rfl | rfl | rfl | rfl | ⟨n, rfl⟩ := ActiveCycle.half_cases half <;> rfl
  case write =>
    rw [hnone (by rw [hpattern]; decide)]
    obtain rfl | rfl | rfl | rfl | rfl | rfl | rfl | rfl | rfl | ⟨n, rfl⟩ := ActiveCycle.half_cases half
    case inr.inr.inr.inl =>
      rw [writeHalf]
      cases c.held <;> rfl
    all_goals rfl
  case internal =>
    cases half <;> rfl

/-- A chip that keeps to the diagram requests memory as the diagram does. -/
theorem Wired.memoryRequest (h : c.Wired half) : c.pins.memoryRequest
    = (c.cycle.takesMemory && decide (2 ≤ half ∧ half ≤ c.cycle.pattern.sampleHalf)) := by
  rw [memoryRequest_congr h.strobes h.refresh_of_request, ActiveCycle.memoryRequest_outputs]

/-- So it does when it acknowledges an interrupt. -/
theorem Wired.interruptAcknowledge (h : c.Wired half) : c.pins.interruptAcknowledge
    = (c.cycle.pattern == .acknowledge
      && decide (c.cycle.autoWaits < 2 ∧ 2 ≤ half ∧ half ≤ 4)) := by
  have hstrobes := h.strobes
  simp only [Pins.strobes, Prod.mk.injEq] at hstrobes
  rw [← ActiveCycle.interruptAcknowledge_outputs, Pins.interruptAcknowledge,
    Pins.interruptAcknowledge, hstrobes.1, hstrobes.2.2.1]

theorem takesMemory_runHalf : c.runHalf.1.cycle.takesMemory = c.cycle.takesMemory := by
  rw [ActiveCycle.takesMemory, readsMemory_runHalf, pattern_runHalf]
  rfl

end Core

/-! ## The cycle in progress -/

/-- What has been seen of the cycle in progress. -/
structure CycleLog where
  /-- Edges that it has taken. -/
  edges : Nat := 0
  /-- The memory request has been up, outside a refresh. -/
  requested : Bool := false
  /-- M1 has been up with the port request. -/
  acknowledged : Bool := false
  /-- Somebody other than memory has pulled WAIT on one of its edges. -/
  disturbed : Bool := false
deriving DecidableEq, Repr

namespace CycleLog

/-- The log when the chip is about to run a half-period: a cycle that begins has a new one. -/
def begin (log : CycleLog) (k : Core) : CycleLog :=
  if k.cycle.half = 0 then {} else log

/-- The log with the half-period that a chip is about to run. -/
def note (log : CycleLog) (k : Core) (pulled : Bool) : CycleLog :=
  { edges := (log.begin k).edges + 1
    requested := (log.begin k).requested || k.runHalf.1.pins.memoryRequest
    acknowledged := (log.begin k).acknowledged || k.runHalf.1.pins.interruptAcknowledge
    disturbed := (log.begin k).disturbed || pulled }

end CycleLog

/-- A request starts a new count, and while it lasts every rising edge is counted. -/
theorem Memory.risingEdges_track (m : Memory) (level : Level) {pins : Pins}
    (hup : pins.memoryRequest = true) :
    (m.track level pins).risingEdges
      = let before := if m.selected then m.risingEdges else 0
        if level.isHigh then min 255 (before + 1) else before := by
  simp only [track, hup]
  cases m.selected <;> rfl

namespace Core

/-- The cycle, the log of it, and the rising edges that memory has counted go together before a
    half-period.  Nobody but memory has pulled WAIT, and memory is to put in `waits`. -/
structure Paced (c : Core) (waits rising : Nat) (log : CycleLog) (half : Nat) : Prop where
  edges : log.edges = half + 2 * c.cycle.waitStates
  requested : log.requested = (c.cycle.takesMemory && decide (2 ≤ half))
  acknowledged : log.acknowledged
    = (c.cycle.pattern == .acknowledge && decide (c.cycle.autoWaits < 2))
  early : c.cycle.takesMemory = true → half ≤ 1 → c.cycle.waitStates = 0
  counted : c.cycle.takesMemory = true → 2 ≤ half → half ≤ 3 →
    rising + 2 = c.cycle.waitStates + half ∧ c.cycle.waitStates ≤ waits
  sampled : c.cycle.takesMemory = true → 4 ≤ half → c.cycle.waitStates = waits
  acknowledge : c.cycle.pattern = .acknowledge → c.cycle.waitStates + c.cycle.autoWaits = 2
  others : c.cycle.takesMemory = false → c.cycle.pattern ≠ .acknowledge → c.cycle.waitStates = 0

variable {c k : Core} {m : Memory} {log : CycleLog} {waits : Nat}

/-- Only the cycle of the chip counts. -/
theorem Paced.congr {rising half : Nat} (h : c.Paced waits rising log half)
    (hcycle : k.cycle = c.cycle) : k.Paced waits rising log half := by
  cases c
  cases k
  cases hcycle
  exact ⟨h.edges, h.requested, h.acknowledged, h.early, h.counted, h.sampled, h.acknowledge,
    h.others⟩

/-- WAIT is up only by memory, which counts. -/
def HeldBy (k : Core) (m : Memory) (waits : Nat) : Prop :=
  k.held = (m.selected && decide (0 < waits ∧ m.risingEdges ≤ waits))

/-- A cycle that turns to memory is no acknowledge. -/
theorem not_acknowledge_of_takesMemory (h : c.cycle.takesMemory = true) :
    c.cycle.pattern ≠ .acknowledge := by
  intro hack
  rw [ActiveCycle.takesMemory, ActiveCycle.readsMemory, hack] at h
  cases h

/-- A cycle is held at its fourth half-period, by memory that has not counted far enough, or as an
    acknowledge that has waits of its own left. -/
theorem Paced.holds (h : k.Paced waits m.risingEdges log k.cycle.half) (hunderway : k.Underway)
    (hselected : m.selected = k.pins.memoryRequest) (hheld : k.HeldBy m waits)
    (hwaits : k.waits = true) : k.cycle.half = 3
      ∧ (k.cycle.takesMemory = true ∧ k.cycle.waitStates < waits
        ∨ k.cycle.takesMemory = false ∧ k.cycle.pattern = .acknowledge
          ∧ 0 < k.cycle.autoWaits) := by
  have hdue := hunderway.wired.waits
  rw [waits_eq hdue, Bool.and_eq_true, beq_iff_eq] at hwaits
  obtain ⟨hhere, hwaits⟩ := hwaits
  by_cases hown : k.cycle.autoWaits = 0
  · -- WAIT is up, so memory is selected
    have hup : k.held = true := by
      rw [hown] at hwaits
      exact hwaits
    rw [hheld, hselected, hunderway.wired.memoryRequest, Bool.and_eq_true, Bool.and_eq_true,
      decide_eq_true_eq, decide_eq_true_eq] at hup
    obtain ⟨⟨htakes, hfrom, hto⟩, -, hcount⟩ := hup
    have hthree : k.cycle.half = 3 := by
      rw [ActiveCycle.takesMemory, ActiveCycle.readsMemory] at htakes
      cases hpattern : k.cycle.pattern <;> rw [hpattern] at hhere htakes
      case fetch | opcodeRead | read | write => exact (Option.some.inj hhere).symm
      all_goals cases htakes
    obtain ⟨hcounted, -⟩ := h.counted htakes (by omega) (by omega)
    exact ⟨hthree, Or.inl ⟨htakes, by omega⟩⟩
  · have hack : k.cycle.pattern = .acknowledge :=
      Decidable.of_not_not fun hother => hown (hdue.eq_zero hother)
    rw [hack] at hhere
    have hnone : k.cycle.takesMemory = false :=
      Bool.eq_false_iff.mpr fun htakes => not_acknowledge_of_takesMemory htakes hack
    exact ⟨(Option.some.inj hhere).symm, Or.inr ⟨hnone, hack, Nat.pos_of_ne_zero hown⟩⟩

/-- Past its sample a cycle has had all the waits that memory asks for. -/
theorem Paced.done (h : k.Paced waits m.risingEdges log 3) (hunderway : k.Underway)
    (hthree : k.cycle.half = 3) (hselected : m.selected = k.pins.memoryRequest)
    (hheld : k.HeldBy m waits) (htakes : k.cycle.takesMemory = true) (hgoes : k.waits = false) :
    k.cycle.waitStates = waits := by
  obtain ⟨hcounted, hleast⟩ := h.counted htakes (by decide) (by decide)
  have hhere : k.cycle.pattern.waitHalf = some 3 ∧ 3 ≤ k.cycle.pattern.sampleHalf := by
    rw [ActiveCycle.takesMemory, ActiveCycle.readsMemory] at htakes
    cases hpattern : k.cycle.pattern <;> rw [hpattern] at htakes
    case fetch | opcodeRead | read | write => exact ⟨rfl, by decide⟩
    all_goals cases htakes
  have hdown : k.held = false := by
    rw [waits_eq hunderway.wired.waits, hhere.1, hthree, beq_self_eq_true, Bool.true_and,
      Bool.or_eq_false_iff] at hgoes
    exact hgoes.2
  rw [hheld, hselected, hunderway.wired.memoryRequest, htakes, hthree, Bool.true_and,
    decide_eq_true ⟨by decide, hhere.2⟩, Bool.true_and, decide_eq_false_iff_not] at hdown
  omega

/-- A wait that an acknowledge has of its own is used up. -/
theorem autoWaits_wait (h : k.Wired k.cycle.half) (hwaits : k.waits = true)
    (hleft : 0 < k.cycle.autoWaits) : k.runHalf.1.cycle.autoWaits + 1 = k.cycle.autoWaits := by
  have hauto := autoWaits_runHalf h
  rw [hwaits, Bool.true_and, bne_iff_ne.mpr (Nat.ne_of_gt hleft)] at hauto
  exact hauto

/-- On the falling edge of a wait memory stays selected, and goes on with its count. -/
theorem Paced.counted_wait (h : k.Paced waits m.risingEdges log k.cycle.half)
    (hunderway : k.Underway) (hselected : m.selected = k.pins.memoryRequest)
    (hthree : k.cycle.half = 3) (htakes : k.cycle.takesMemory = true)
    (hup : k.runHalf.1.pins.memoryRequest = true) :
    (m.track .low k.runHalf.1.pins).risingEdges + 2 = k.cycle.waitStates + 3 := by
  have hleast := k.cycle.pattern.four_le_sampleHalf
  obtain ⟨hcounted, -⟩ := h.counted htakes (by omega) (by omega)
  have hkept : m.selected = true := by
    rw [hselected, hunderway.wired.memoryRequest, htakes, hthree,
      decide_eq_true ⟨by decide, by omega⟩]
    rfl
  rw [m.risingEdges_track .low hup, hkept, ← hthree]
  exact hcounted

/-- Up to the sample the falling edge of the request starts the count, and the rising edge after it
    is counted. -/
theorem Paced.counted_go (h : k.Paced waits m.risingEdges log k.cycle.half)
    (hunderway : k.Underway) (hselected : m.selected = k.pins.memoryRequest) (hmost : waits ≤ 16)
    {level : Level} (hlevel : k.cycle.half % 2 = if level = .low then 1 else 0)
    (htakes : k.cycle.takesMemory = true) (hup : k.runHalf.1.pins.memoryRequest = true)
    (hfrom : 1 ≤ k.cycle.half) (hto : k.cycle.half ≤ 2) :
    (m.track level k.runHalf.1.pins).risingEdges + 2 = k.cycle.waitStates + (k.cycle.half + 1)
      ∧ k.cycle.waitStates ≤ waits := by
  have hleast := k.cycle.pattern.four_le_sampleHalf
  have hwas : m.selected = decide (2 ≤ k.cycle.half) := by
    rw [hselected, hunderway.wired.memoryRequest, htakes, Bool.true_and]
    exact decide_eq_decide.mpr ⟨And.left, fun htwo => ⟨htwo, by omega⟩⟩
  rw [m.risingEdges_track level hup, hwas]
  obtain hone | htwo : k.cycle.half = 1 ∨ k.cycle.half = 2 := by omega
  · have hnone := h.early htakes (by omega)
    rw [hone] at hlevel ⊢
    cases level with
    | high => cases hlevel
    | low =>
      rw [hnone]
      exact ⟨rfl, Nat.zero_le _⟩
  · obtain ⟨hcounted, hfewer⟩ := h.counted htakes (by omega) (by omega)
    rw [htwo] at hlevel hcounted ⊢
    cases level with
    | high =>
      refine ⟨?_, hfewer⟩
      show min 255 (m.risingEdges + 1) + 2 = _
      omega
    | low => cases hlevel

/-- A wait keeps the counts together. -/
theorem Paced.wait (h : k.Paced waits m.risingEdges (log.begin k) k.cycle.half)
    (hunderway : k.Underway) (hselected : m.selected = k.pins.memoryRequest)
    (hheld : k.HeldBy m waits) (hmost : waits ≤ 16) (pulled : Bool) (hwaits : k.waits = true) :
    k.runHalf.1.Paced waits (m.track .low k.runHalf.1.pins).risingEdges (log.note k pulled)
      k.runHalf.1.cycle.half := by
  obtain ⟨hthree, hcases⟩ := h.holds hunderway hselected hheld hwaits
  obtain ⟨hmore, -, hback, -⟩ := hunderway.course.runHalf_waits hwaits
  have htwo : k.runHalf.1.cycle.half = 2 := by omega
  have hwired := (hunderway.amid hmore).wired
  have hleast := k.cycle.pattern.four_le_sampleHalf
  have hacks := h.acknowledge
  have hcount : k.runHalf.1.cycle.waitStates = k.cycle.waitStates + 1 := by
    rw [waitStates_runHalf, if_pos hwaits]
    rcases hcases with ⟨-, hfewer⟩ | ⟨-, hack, -⟩
    · omega
    · have hsum := hacks hack
      omega
  have hrequest : k.runHalf.1.pins.memoryRequest = k.cycle.takesMemory := by
    rw [hwired.memoryRequest, takesMemory_runHalf, pattern_runHalf, htwo,
      decide_eq_true ⟨by decide, by omega⟩, Bool.and_true]
  have hedges := h.edges
  have hrequested := h.requested
  have hacked := h.acknowledged
  rw [hthree] at hedges hrequested
  rw [htwo]
  -- the half-period before is run again: nothing is claimed there of the time before the request,
  -- nor of the time after the sample
  refine
    { edges := ?edges
      requested := ?requested
      acknowledged := ?acknowledged
      early := fun _ hless => absurd hless (by decide)
      counted := fun htakes _ _ => ?counted
      sampled := fun _ hless => absurd hless (by decide)
      acknowledge := fun hack => ?acknowledge
      others := fun hnone hother => ?others }
  case edges =>
    show (log.begin k).edges + 1 = _
    omega
  case requested =>
    show ((log.begin k).requested || _) = _
    rw [hrequested, hrequest, takesMemory_runHalf]
    cases k.cycle.takesMemory <;> rfl
  case acknowledged =>
    show ((log.begin k).acknowledged || _) = _
    rw [hacked, hwired.interruptAcknowledge, pattern_runHalf, htwo]
    rcases hcases with ⟨htakes, -⟩ | ⟨-, hack, hleft⟩
    · rw [beq_eq_false_iff_ne.mpr (not_acknowledge_of_takesMemory htakes)]
      rfl
    · have hauto := autoWaits_wait hunderway.wired hwaits hleft
      have hsum := hacks hack
      have hfewer : k.runHalf.1.cycle.autoWaits < 2 := by omega
      have hnow : decide (k.runHalf.1.cycle.autoWaits < 2 ∧ 2 ≤ 2 ∧ 2 ≤ 4) = true :=
        decide_eq_true ⟨hfewer, by decide, by decide⟩
      rw [hnow, decide_eq_true hfewer, hack]
      exact Bool.or_true _
  case counted =>
    rw [takesMemory_runHalf] at htakes
    have hcounted := h.counted_wait hunderway hselected hthree htakes (hrequest.trans htakes)
    have hfewer : k.cycle.waitStates < waits := by
      rcases hcases with ⟨-, hfewer⟩ | ⟨hnone, -⟩
      · exact hfewer
      · cases htakes.symm.trans hnone
    omega
  case acknowledge =>
    rw [pattern_runHalf] at hack
    have hsum := hacks hack
    rcases hcases with ⟨htakes, -⟩ | ⟨-, -, hleft⟩
    · exact absurd hack (not_acknowledge_of_takesMemory htakes)
    · have hauto := autoWaits_wait hunderway.wired hwaits hleft
      omega
  case others =>
    rw [takesMemory_runHalf] at hnone
    rw [pattern_runHalf] at hother
    rcases hcases with ⟨htakes, -⟩ | ⟨-, hack, -⟩
    · cases htakes.symm.trans hnone
    · exact absurd hack hother

/-- So does a half-period that is not held, up to the end of the cycle. -/
theorem Paced.go (h : k.Paced waits m.risingEdges (log.begin k) k.cycle.half)
    (hunderway : k.Underway) (hselected : m.selected = k.pins.memoryRequest)
    (hheld : k.HeldBy m waits) (hmost : waits ≤ 16) {level : Level}
    (hlevel : k.cycle.half % 2 = if level = .low then 1 else 0) (pulled : Bool)
    (hgoes : k.waits = false) :
    k.runHalf.1.Paced waits (m.track level k.runHalf.1.pins).risingEdges (log.note k pulled)
      (k.cycle.half + 1) := by
  have hwired : k.runHalf.1.Wired (k.cycle.half + 1) := by
    rcases hunderway.runHalf with ⟨hmore, hnext⟩ | ⟨hlast, -, hclosed⟩
    · rcases hunderway.course.runHalf_runs hgoes with ⟨-, -, hhalf, -⟩ | ⟨hlast, -⟩
      · rw [← hhalf]
        exact hnext.wired
      · cases hmore.symm.trans hlast
    · rw [(hunderway.last hlast).2.2.1] at hclosed
      exact hclosed
  have hleast := k.cycle.pattern.four_le_sampleHalf
  have hcount : k.runHalf.1.cycle.waitStates = k.cycle.waitStates := by
    rw [waitStates_runHalf, hgoes, if_neg Bool.false_ne_true]
  have hauto : k.runHalf.1.cycle.autoWaits = k.cycle.autoWaits := by
    have hsum := autoWaits_runHalf hunderway.wired
    rw [hgoes] at hsum
    exact hsum
  have hrequest := hwired.memoryRequest
  have hacks := hwired.interruptAcknowledge
  rw [takesMemory_runHalf, pattern_runHalf] at hrequest
  rw [pattern_runHalf, hauto] at hacks
  have hedges := h.edges
  refine
    { edges := ?edges
      requested := ?requested
      acknowledged := ?acknowledged
      early := fun htakes hfirst => ?early
      counted := fun htakes hfrom hto => ?counted
      sampled := fun htakes hfrom => ?sampled
      acknowledge := ?acknowledge
      others := ?others }
  case edges =>
    show (log.begin k).edges + 1 = _
    omega
  case requested =>
    show ((log.begin k).requested || _) = _
    rw [h.requested, hrequest, takesMemory_runHalf, ← Bool.and_or_distrib_left, ← Bool.decide_or]
    congr 2
    exact propext ⟨by omega, by omega⟩
  case acknowledged =>
    show ((log.begin k).acknowledged || _) = _
    rw [h.acknowledged, hacks, pattern_runHalf, hauto, ← Bool.and_or_distrib_left,
      ← Bool.decide_or]
    congr 2
    exact propext ⟨by omega, by omega⟩
  case early =>
    rw [takesMemory_runHalf] at htakes
    rw [hcount]
    exact h.early htakes (by omega)
  case counted =>
    rw [takesMemory_runHalf] at htakes
    have hup : k.runHalf.1.pins.memoryRequest = true := by
      rw [hrequest, htakes, decide_eq_true ⟨hfrom, by omega⟩]
      rfl
    rw [hcount]
    exact h.counted_go hunderway hselected hmost hlevel htakes hup (by omega) (by omega)
  case sampled =>
    rw [takesMemory_runHalf] at htakes
    rw [hcount]
    by_cases hthree : k.cycle.half = 3
    · rw [hthree] at h
      exact h.done hunderway hthree hselected hheld htakes hgoes
    · exact h.sampled htakes (by omega)
  case acknowledge =>
    rw [pattern_runHalf, hcount, hauto]
    exact h.acknowledge
  case others =>
    rw [takesMemory_runHalf, pattern_runHalf, hcount]
    exact h.others

/-! ## Cycles that have not begun -/

/-- No wait has been counted in a cycle that has not begun. -/
def Unheld (c : Core) : Prop :=
  c.phase = .running ∨ c.phase = .busReleased → c.boundaryPending = false → c.cycle.half = 0 →
    c.cycle.waitStates = 0

theorem waitStates_resolveNext (c : Core) : c.resolveNext.cycle.waitStates = 0 := by
  obtain ⟨d, length, hnext, -⟩ := c.resolveNext_begins
  rw [hnext]
  rfl

/-- A chip that is made ready has counted no wait in a cycle that it begins. -/
theorem Readied.unheld {emitted : List Emission} (hready : c.Readied k emitted) (h : c.Unheld)
    (hfirst : k.cycle.half = 0) : k.cycle.waitStates = 0 := by
  cases hready with
  | running phase chosen => exact h (Or.inl phase) chosen hfirst
  | returned phase chosen => exact h (Or.inr phase) chosen hfirst
  | started | resolved | returnedResolved => exact waitStates_resolveNext _

/-- A cycle that is set up after another has counted no wait. -/
theorem waitStates_nextCycle (h : c.nextCycle.2 = false) : c.nextCycle.1.cycle.waitStates = 0 := by
  cases hcode : c.instruction with
  | none =>
    rw [nextCycle_of_none hcode]
    cases c.chain <;> rfl
  | some code =>
    rw [nextCycle_of_some hcode] at h ⊢
    cases hnext : c.cycles[c.position + 1]? with
    | none =>
      rw [hnext] at h
      exact nomatch h
    | some next => rfl

/-- Running a half-period leads to none, either. -/
theorem Underway.unheld (h : c.Underway) (emitted : List Emission) (stopping : Bool) :
    ((c.runEdge emitted).finish stopping).1.Unheld := by
  intro _ hchosen hfirst
  rw [runEdge_eq, endCycle_eq] at hchosen hfirst ⊢
  cases hlast : c.runHalf.2 with
  | false =>
    rw [hlast] at hfirst
    have hzero : c.runHalf.1.cycle.half = 0 := hfirst
    have hhalf := h.half_runHalf hlast
    omega
  | true =>
    rw [hlast] at hchosen
    cases hend : c.runHalf.1.latchResult.nextCycle.2 with
    | false => exact waitStates_nextCycle hend
    | true =>
      rw [hend] at hchosen
      cases stopping with
      | true => exact nomatch hchosen
      | false => exact waitStates_resolveNext _

theorem Unheld.sampled (h : c.Unheld) (inputs : InputLevels) :
    (c.sampleInputs inputs).leaveReset.Unheld := by
  rw [leaveReset]
  split
  · rintro (hphase | hphase) <;> cases hphase
  · exact h

/-- Every edge keeps it so. -/
theorem Unheld.edge (h : c.Unheld) (hsound : c.Sound) (level : Level) (inputs : InputLevels)
    (stopping : Bool) : ((c.edge level inputs).finish stopping).1.Unheld := by
  have hsampled := (hsound.sampleInputs inputs).leaveReset
  have hunheld := h.sampled inputs
  have hturn := c.turn level inputs
  generalize c.engaged level inputs = engaged at hturn
  generalize c.edge level inputs = e at hturn ⊢
  cases hturn with
  | resets => rintro (hphase | hphase) <;> exact nomatch hphase
  | passes sampled => exact sampled ▸ hunheld
  | grants ready => exact fun _ _ hfirst => ready.unheld hunheld hfirst
  | begins ready | continues ready => exact (ready.underway hsampled).1.unheld _ stopping

end Core

/-! ## Runs -/

/-- The log after an edge of the machine. -/
def CycleLog.edge (log : CycleLog) (m : Machine) : CycleLog :=
  match m.board.engaged m.clock.level.flip with
  | some k => log.note k (m.board.host.wait.isAsserted || m.device.wait.isAsserted)
  | none => log

/-- A run of a machine from its configuration, with the log of the cycle in progress.  Between edges
    the host may drive the input pins, follow the chip, change its registers, the bytes of memory
    and the device. -/
inductive Watched (config : BoardConfig) : Machine → CycleLog → Prop where
  | built {device : Device} {m : Machine} (build : Machine.build config device = .ok m) :
    Watched config m {}
  | halfTick {m : Machine} {log : CycleLog} (h : Watched config m log) :
    Watched config m.halfTick.1 (log.edge m)
  | hooks {m : Machine} {log : CycleLog} (h : Watched config m log) (f : Hooks → Hooks) :
    Watched config (m.modifyHooks f) log
  | regs {m : Machine} {log : CycleLog} (h : Watched config m log) (f : Registers → Registers) :
    Watched config (m.modifyRegs f) log
  | bytes {m : Machine} {log : CycleLog} (h : Watched config m log) (bytes : Array Byte) :
    Watched config (m.modifyMemory fun memory => { memory with bytes }) log
  | device {m : Machine} {log : CycleLog} (h : Watched config m log) (f : Device → Device) :
    Watched config (m.modifyDevice f) log
  | input {m : Machine} {log : CycleLog} (h : Watched config m log) (pin : InputPin)
    (level : Level) : Watched config (m.setInput pin level) log
  | images {m : Machine} {log : CycleLog} (h : Watched config m log)
    (images : List ProgramImage) : Watched config { m with images } log

/-- A cycle that has come to its end in the chip `d` has had the waits that it should: those of the
    configuration if it has requested memory, two if it has acknowledged an interrupt, and otherwise
    none. -/
structure CycleLog.Settles (log : CycleLog) (config : BoardConfig) (d : Core) : Prop where
  memory : log.requested = true → d.cycle.waitStates = config.waitStates
  acknowledge : log.acknowledged = true → d.cycle.waitStates = 2
  others : log.requested = false → log.acknowledged = false → d.cycle.waitStates = 0
  /-- Two edges for each period, and two for each wait. -/
  edges : log.edges = 2 * (d.cycle.length + d.cycle.waitStates)
  /-- Memory is requested by what reads a byte from it, and by what writes to it. -/
  requested : log.requested = d.cycle.takesMemory
  /-- An interrupt is acknowledged by the first cycle of an instruction that it begins. -/
  acknowledged : log.acknowledged = true → d.acknowledging = true ∧ d.position = 0

namespace Machine

variable {config : BoardConfig} {m : Machine} {log : CycleLog} {k : Core}

/-- What holds of the machine and the log between edges. -/
structure KeepsPace (config : BoardConfig) (m : Machine) (log : CycleLog) : Prop where
  sound : m.core.Sound
  inStep : m.core.InStep m.clock.level
  unheld : m.core.Unheld
  waits : m.memory.waitStates = config.waitStates
  most : config.waitStates ≤ 16
  selected : m.memory.selected = m.core.pins.memoryRequest
  wait : m.memory.wait.isAsserted = (m.memory.selected
    && decide (0 < config.waitStates ∧ m.memory.risingEdges ≤ config.waitStates))
  paced : m.core.phase = .running → m.core.boundaryPending = false → m.core.cycle.half ≠ 0 →
    log.disturbed = false →
    m.core.Paced config.waitStates m.memory.risingEdges log m.core.cycle.half

/-- A valid configuration asks for sixteen waits at most. -/
theorem most_of_validate (h : config.validate = .ok ()) : config.waitStates ≤ 16 := by
  unfold BoardConfig.validate at h
  split at h
  · exact nomatch h
  split at h
  · exact nomatch h
  split at h
  · exact nomatch h
  split at h
  · exact nomatch h
  · next hfewer => exact Nat.le_of_not_gt hfewer

/-- Memory sees the pins of the chip that runs a half-period as the edge before has left them. -/
theorem KeepsPace.selected_engaged (h : m.KeepsPace config log)
    (hk : m.core.Engages k m.board.inputs) : m.memory.selected = k.pins.memoryRequest := by
  rw [h.selected]
  by_cases hfirst : k.cycle.half = 0
  · -- no strobe is up
    have hrest := hk.underway.atRest hfirst
    refine Core.memoryRequest_congr hk.strobes.symm fun hup => ?_
    have hdown := hk.strobes.symm.trans hrest
    simp only [Pins.strobes, Prod.mk.injEq] at hdown
    rw [hdown.2.1] at hup
    cases hup
  · rw [(hk.amid hfirst).1]
    rfl

/-- Before a half-period the counts go together, unless somebody else has pulled WAIT. -/
theorem KeepsPace.paced_engaged (h : m.KeepsPace config log)
    (hk : m.board.engaged m.clock.level.flip = some k) (hquiet : (log.begin k).disturbed = false) :
    k.Paced config.waitStates m.memory.risingEdges (log.begin k) k.cycle.half := by
  have hengages := h.sound.engages hk
  by_cases hfirst : k.cycle.half = 0
  · obtain ⟨emitted, hready⟩ := Core.readied_engaged hk
    have hnone := hready.unheld (h.unheld.sampled _) hfirst
    have hdue := hengages.underway.wired.waits
    rw [hfirst] at hdue ⊢
    rw [CycleLog.begin, if_pos hfirst]
    have hown (hack : k.cycle.pattern = .acknowledge) : k.cycle.autoWaits = 2 :=
      hdue.eq_two hack (Nat.zero_le 1)
    -- the log is new, and nothing has come to pass yet
    refine
      { edges := ?edges
        requested := (Bool.and_false _).symm
        acknowledged := ?acknowledged
        early := fun _ _ => hnone
        counted := fun _ hless => absurd hless (by decide)
        sampled := fun _ hless => absurd hless (by decide)
        acknowledge := fun hack => ?acknowledge
        others := fun _ _ => hnone }
    case edges => rw [hnone]
    case acknowledged =>
      by_cases hack : k.cycle.pattern = .acknowledge
      · rw [hown hack]
        exact (Bool.and_false _).symm
      · rw [beq_eq_false_iff_ne.mpr hack]
        rfl
    case acknowledge => rw [hnone, hown hack]
  · obtain ⟨hsame, hphase, hchosen⟩ := hengages.amid hfirst
    rw [CycleLog.begin, if_neg hfirst] at hquiet ⊢
    rw [hsame] at hfirst ⊢
    exact (h.paced hphase hchosen hfirst hquiet).congr rfl

/-- WAIT is up by memory, or somebody else pulls it. -/
theorem KeepsPace.held_engaged (h : m.KeepsPace config log)
    (hk : m.board.engaged m.clock.level.flip = some k)
    (hquiet : (m.board.host.wait.isAsserted || m.device.wait.isAsserted) = false) :
    k.HeldBy m.memory config.waitStates := by
  have hpins := (Core.remembers_engaged hk).pins
  have hwait : k.pins.wait = m.board.inputs.wait := congrArg InputLevels.wait hpins
  rw [Bool.or_eq_false_iff] at hquiet
  show k.pins.wait.isAsserted = _
  rw [hwait, ← h.wait]
  show (Level.wiredAnd (Level.wiredAnd m.board.host.wait m.memory.wait)
    m.device.wait).isAsserted = _
  rw [Level.isAsserted_wiredAnd, Level.isAsserted_wiredAnd, hquiet.1, hquiet.2, Bool.or_false]
  rfl

/-- A half-period keeps the counts together, up to the end of the cycle. -/
theorem KeepsPace.paced_runHalf (h : m.KeepsPace config log)
    (hk : m.board.engaged m.clock.level.flip = some k) (hquiet : (log.edge m).disturbed = false) :
    k.runHalf.1.Paced config.waitStates
      (m.memory.track m.clock.level.flip k.runHalf.1.pins).risingEdges (log.edge m)
      (if k.waits then k.runHalf.1.cycle.half else k.cycle.half + 1) := by
  have hengages := h.sound.engages hk
  have hlevel := h.inStep.engaged h.sound hk
  have hselected := h.selected_engaged hengages
  have hedge : log.edge m
      = log.note k (m.board.host.wait.isAsserted || m.device.wait.isAsserted) := by
    rw [CycleLog.edge, hk]
  rw [hedge] at hquiet ⊢
  obtain ⟨hbefore, hnow⟩ := Bool.or_eq_false_iff.mp hquiet
  have hpaced := h.paced_engaged hk hbefore
  have hheld := h.held_engaged hk hnow
  cases hwaits : k.waits with
  | true =>
    obtain ⟨hthree, -⟩ := hpaced.holds hengages.underway hselected hheld hwaits
    have hlow : m.clock.level.flip = .low := by
      refine Decidable.of_not_not fun hhigh => ?_
      rw [if_neg hhigh, hthree] at hlevel
      exact nomatch hlevel
    rw [hlow]
    exact hpaced.wait hengages.underway hselected hheld h.most _ hwaits
  | false => exact hpaced.go hengages.underway hselected hheld h.most hlevel _ hwaits

/-- What memory tracks at an edge of the board. -/
theorem tracked (m : Machine) :
    m.halfTick.1.memory.waitStates = m.memory.waitStates
      ∧ m.halfTick.1.memory.selected
        = (m.board.moved m.clock.level.flip).pins.memoryRequest
      ∧ m.halfTick.1.memory.risingEdges
        = (m.memory.track m.clock.level.flip (m.board.moved m.clock.level.flip).pins).risingEdges
      ∧ m.halfTick.1.memory.wait = .activeLow (m.halfTick.1.memory.selected
        && decide (0 < m.memory.waitStates) &&
          decide (m.halfTick.1.memory.risingEdges ≤ m.memory.waitStates)) := by
  have hmemory : m.halfTick.1.memory = _ := (m.board.edge_parts m.clock.level.flip).1
  rw [hmemory, Memory.edge_eq]
  exact ⟨rfl, rfl, rfl, rfl⟩

/-- Every edge keeps pace. -/
theorem KeepsPace.halfTick (h : m.KeepsPace config log) :
    m.halfTick.1.KeepsPace config (log.edge m) := by
  obtain ⟨stopping, hmoved⟩ : ∃ stopping, m.board.moved m.clock.level.flip
      = ((m.core.edge m.clock.level.flip m.board.inputs).finish stopping).1 := m.board.moved_eq _
  have hcore : m.halfTick.1.core = _ := (m.board.edge_parts m.clock.level.flip).2.2
  obtain ⟨hwaits, hselected, hrising, hwait⟩ := m.tracked
  refine ⟨?_, ?_, ?_, hwaits.trans h.waits, h.most, ?_, ?_, ?_⟩
  · rw [hcore, hmoved]
    exact ((h.sound.edge _ _).finish stopping).withData _
  · rw [hcore, hmoved]
    exact (h.inStep.edge h.sound stopping).2
  · rw [hcore, hmoved]
    exact h.unheld.edge h.sound _ _ stopping
  · rw [hcore, hselected]
  · rw [hwait, h.waits, Bool.and_assoc, ← Bool.decide_and, Level.isAsserted_activeLow]
  · have houtcome := h.sound.outcome m.clock.level.flip m.board.inputs stopping
    rw [← hmoved] at houtcome
    rw [hcore, hrising]
    cases houtcome with
    | rests _ first => exact fun hphase hchosen hlater => absurd (first hphase hchosen) hlater
    | amid k runs more result =>
      intro _ _ _ hquiet
      have hpaced := h.paced_runHalf runs hquiet
      have hhalf : (if k.waits then k.runHalf.1.cycle.half else k.cycle.half + 1)
          = k.runHalf.1.cycle.half := by
        rcases (h.sound.engages runs).underway.half_runHalf more with ⟨hgoes, hnext⟩ | ⟨hwaits, -⟩
        · rw [hgoes, hnext]
          rfl
        · rw [hwaits]
          rfl
      rw [hhalf] at hpaced
      rw [result]
      exact hpaced.congr rfl

/-- On every run the machine keeps pace with its log. -/
theorem keepsPace (h : Watched config m log) : m.KeepsPace config log := by
  induction h with
  | @built device m build =>
    unfold Machine.build at build
    split at build
    · exact nomatch build
    · next hvalid =>
      obtain rfl := Except.ok.inj build
      refine ⟨Core.sound_powerOn _ _, nofun, ?_, rfl, most_of_validate hvalid, rfl, rfl, nofun⟩
      rintro (hphase | hphase) <;> exact nomatch hphase
  | halfTick _ ih => exact ih.halfTick
  | hooks _ _ ih | bytes _ _ ih | device _ _ ih | input _ _ _ ih | images _ _ ih =>
    exact ⟨ih.sound, ih.inStep, ih.unheld, ih.waits, ih.most, ih.selected, ih.wait, ih.paced⟩
  | regs _ f ih =>
    refine ⟨ih.sound.modifyRegs f, ih.inStep, ih.unheld, ih.waits, ih.most, ih.selected, ih.wait,
      fun hphase hchosen hlater hquiet => ?_⟩
    exact (ih.paced hphase hchosen hlater hquiet).congr rfl

end Machine

variable {config : BoardConfig} {m : Machine} {log : CycleLog}

/-- Whenever a cycle comes to its end, on whatever run, and nobody but memory has pulled WAIT on one
    of its edges, it has had exactly its waits. -/
theorem Watched.settles_waits (h : Watched config m log) {k : Core}
    (hk : m.board.engaged m.clock.level.flip = some k) (hlast : k.runHalf.2 = true)
    (hquiet : (log.edge m).disturbed = false) : (log.edge m).Settles config k.runHalf.1 := by
  have hpace := Machine.keepsPace h
  have hpaced := hpace.paced_runHalf hk hquiet
  have hunderway := (hpace.sound.engages hk).underway
  obtain ⟨hgoes, hcloses, hsame, hroom⟩ := hunderway.last hlast
  have hdone : k.runHalf.1.cycle.autoWaits = 0 := by
    rcases hunderway.runHalf with ⟨hmore, -⟩ | ⟨-, -, hwired⟩
    · exact nomatch hmore.symm.trans hlast
    · exact hcloses.autoWaits hwired
  rw [hgoes, if_neg Bool.false_ne_true] at hpaced
  obtain ⟨hedges, hrequested, hacked, -, -, hsampled, hack, hothers⟩ := hpaced
  have hend := hcloses.last
  rw [hsame] at hend
  have hlate : 4 ≤ k.cycle.half + 1 := by
    have hlength := k.cycle.pattern.three_le_minimumLength
    omega
  rw [decide_eq_true (Nat.le_trans (by decide) hlate), Bool.and_true] at hrequested
  rw [hdone, decide_eq_true (by decide), Bool.and_true] at hacked
  refine ⟨fun hmemory => ?_, fun hup => ?_, fun hnone hother => ?_, ?_, hrequested, fun hup => ?_⟩
  · exact hsampled (hrequested.symm.trans hmemory) hlate
  · have hsum := hack (eq_of_beq (hacked.symm.trans hup))
    omega
  · exact hothers (hrequested.symm.trans hnone) (ne_of_beq_false (hacked.symm.trans hother))
  · omega
  · exact hcloses.course.acknowledges (eq_of_beq (hacked.symm.trans hup))

/-- The log after a number of edges. -/
def CycleLog.after (log : CycleLog) (m : Machine) : Nat → CycleLog
  | 0 => log
  | n + 1 => (log.after m n).edge (m.after n)

/-- A run goes on. -/
theorem Watched.after (h : Watched config m log) (n : Nat) :
    Watched config (m.after n) (log.after m n) := by
  induction n with
  | zero => exact h
  | succ n ih => exact ih.halfTick

/-- A board whose memory puts in three waits. -/
def patientConfig : BoardConfig :=
  { memorySize := 0x400, waitStates := 3 }

/-- A machine over zeros with it. -/
def patientMachine : Machine :=
  { clock := .atRest
      { processor := .powerOn (.released 0xFFFF) (.released 0xFF)
        memory := { Memory.ofSize (.truncated Machine.addressBus 10) 0x400 with waitStates := 3 }
        device := .unattached } 3500000 }

/-- The first fetch takes seven periods: the fourteenth edge is its last one. -/
theorem patient_fetch : Watched patientConfig (patientMachine.after 13) (.after {} patientMachine 13)
    ∧ ∃ k, (patientMachine.after 13).board.engaged
        (patientMachine.after 13).clock.level.flip = some k
      ∧ k.runHalf.2 = true
      ∧ ((CycleLog.after {} patientMachine 13).edge (patientMachine.after 13)).disturbed = false
      ∧ ((CycleLog.after {} patientMachine 13).edge (patientMachine.after 13)).Settles
        patientConfig k.runHalf.1 := by
  have hbuilt : Machine.build patientConfig .unattached = .ok patientMachine := rfl
  have hwatched := (Watched.built hbuilt).after 13
  have hlast : ((patientMachine.after 13).board.engaged
      (patientMachine.after 13).clock.level.flip).map (fun k => k.runHalf.2) = some true := by
    decide +kernel
  obtain ⟨k, hk, hend⟩ := Option.map_eq_some_iff.mp hlast
  have hquiet : ((CycleLog.after {} patientMachine 13).edge
      (patientMachine.after 13)).disturbed = false := by
    decide +kernel
  exact ⟨hwatched, k, hk, hend, hquiet, Watched.settles_waits hwatched hk hend hquiet⟩

end Z80Board
