import Z80Board.Proofs.Chip.Edges

/-! # How long an instruction takes

    From the start of an instruction on, a tally is kept of what comes to pass: the cycles that end,
    with the length each had before any wait, the edges since the first cycle started, the prefixes
    that turned out to have no effect, the waits, and the edges that passed with the buses released.

    On every run, whatever the levels, the bytes and the stops, the tally is in balance with the
    chip: the cycles are those of the dropped prefixes and those of the plan so far, and every edge
    is accounted for.  So when an instruction ends it has run the cycles of its timing and no other,
    and has taken the time that the timing declares, apart from prefixes, waits and grants. -/

namespace Z80Board

/-! ## Keeping the tally -/

/-- What has come to pass since an instruction started. -/
structure Tally where
  /-- The cycles that have ended, with their lengths before any wait. -/
  cycles : List MachineCycle := []
  /-- The first cycle has started. -/
  begun : Bool := false
  /-- Edges since then, with the one it started on. -/
  edges : Nat := 0
  /-- Prefixes without effect. -/
  dropped : Nat := 0
  /-- Waits that the chip has put in by itself. -/
  automatic : Nat := 0
  /-- Waits that WAIT has put in. -/
  held : Nat := 0
  /-- Edges that have left the buses with another master. -/
  released : Nat := 0

namespace Tally

/-- Note an event. -/
def note (t : Tally) (e : Emission) : Tally :=
  match e.event with
  | .instructionStart => {}
  | .cycleStart => { t with begun := true }
  | .cycleEnd => { t with cycles := t.cycles ++ [⟨e.core.cycle.kind, e.core.cycle.length⟩] }
  | _ => t

/-- Count the half-period that a chip is about to run. -/
def countHalf (t : Tally) (k : Core) : Tally :=
  { t with
    dropped := t.dropped + k.dropsPrefix.toNat
    automatic := t.automatic + (k.waits && k.cycle.autoWaits != 0).toNat
    held := t.held + (k.waits && k.cycle.autoWaits == 0).toNat }

/-- Count an edge of the instruction, once its first cycle has started. -/
def countEdge (t : Tally) (engaged : Option Core) (after : Core) : Tally :=
  if t.begun then
    let t := { t with
      edges := t.edges + 1
      released := t.released + (decide (after.phase = .busReleased)).toNat }
    match engaged with
    | some k => t.countHalf k
    | none => t
  else t

/-- The tally after an edge, before the next instruction is chosen. -/
def edge (t : Tally) (c : Core) (level : Level) (inputs : InputLevels) : Tally :=
  let e := c.edge level inputs
  (e.emitted.foldl note t).countEdge (c.engaged level inputs) e.core

end Tally

/-- The tally of an instruction that has run its timing: after the dropped prefixes its cycles and
    no other, and two edges for each period of the time it declares, for each wait, and for each
    period of a dropped prefix, besides the edges without the buses.  An instruction that begins
    with an acknowledge has put in two waits by itself. -/
structure Tally.Settles (t : Tally) (timing : Timings) (met acknowledged : Bool) : Prop where
  cycles : t.cycles = List.replicate t.dropped ⟨.opcodeFetch, 4⟩ ++ timing.cycles met
  edges : t.edges
    = 2 * (4 * t.dropped + (timing.select met).tStates + (t.automatic + t.held)) + t.released
  automatic : t.automatic = if acknowledged then 2 else 0

/-- A run of the chip from power-on, with the tally of the instruction in progress.  Between edges
    anybody may drive the data bus, and the host may change the registers. -/
inductive Metered : Core → Tally → Prop where
  | powerOn (address : Bus Word) (data : Bus Byte) : Metered (.powerOn address data) {}
  | edge {c : Core} {t : Tally} (h : Metered c t) (level : Level) (inputs : InputLevels)
    (stopping : Bool) :
    Metered ((c.edge level inputs).finish stopping).1
      (((c.edge level inputs).finish stopping).2.foldl Tally.note (t.edge c level inputs))
  | data {c : Core} {t : Tally} (h : Metered c t) (data : Bus Byte) : Metered { c with data } t
  | regs {c : Core} {t : Tally} (h : Metered c t) (f : Registers → Registers) :
    Metered (c.modifyRegs f) t

namespace Core

variable {c k : Core} {t : Tally} {level : Level} {inputs : InputLevels}

/-! ## The balance -/

/-- The tally is in balance with a chip that has come to a half-period. -/
structure Balanced (c : Core) (t : Tally) (half : Nat) : Prop where
  cycles : t.cycles = List.replicate t.dropped ⟨.opcodeFetch, 4⟩ ++ c.ran
  edges : t.edges
    = 2 * (Timing.sum t.cycles + (t.automatic + t.held)) + half + t.released
  waits : t.automatic + c.cycle.autoWaits = if c.acknowledging then 2 else 0
  fresh : t.begun = false → t.edges = 0

/-- The tally agrees with the chip between edges.  When the next instruction is still to be chosen,
    there is nothing to agree on. -/
def Tallied (c : Core) (t : Tally) : Prop :=
  c.phase = .running ∧ c.boundaryPending = false ∨ c.phase = .busReleased → c.Balanced t c.cycle.half

/-- The sum of two rows of cycles. -/
theorem sum_append (first second : List MachineCycle) :
    Timing.sum (first ++ second) = Timing.sum first + Timing.sum second := by
  induction first with
  | nil => exact (Nat.zero_add _).symm
  | cons cycle rest ih =>
    show cycle.tStates + Timing.sum (rest ++ second) = cycle.tStates + Timing.sum rest + _
    rw [ih, Nat.add_assoc]

/-- The sum of some cycles of one length. -/
theorem sum_replicate (count : Nat) (cycle : MachineCycle) :
    Timing.sum (List.replicate count cycle) = cycle.tStates * count := by
  induction count with
  | zero => rfl
  | succ count ih =>
    show cycle.tStates + Timing.sum (List.replicate count cycle) = _
    rw [ih, Nat.mul_succ, Nat.add_comm]

/-- The first cycle of an instruction still has its own waits to put in. -/
theorem autoWaits_resolveNext (c : Core) :
    c.resolveNext.cycle.autoWaits = if c.resolveNext.acknowledging then 2 else 0 := by
  obtain ⟨d, length, hnext, hbetween⟩ := c.resolveNext_begins
  rw [hnext]
  show (if d.busPattern .opcodeFetch = .acknowledge then 2 else 0) = if d.acknowledging then 2 else 0
  rw [busPattern_first hbetween.chain hbetween.position]
  cases d.acknowledging <;> rfl

/-- An instruction starts with an empty tally. -/
theorem balanced_resolveNext (c : Core) : c.resolveNext.Balanced {} 0 := by
  obtain ⟨-, -, hran⟩ := course_resolveNext c
  refine ⟨?_, rfl, ?_, fun _ => rfl⟩
  · rw [hran]
    rfl
  · rw [autoWaits_resolveNext]
    exact Nat.zero_add _

/-! ## One half-period -/

/-- A half-period that leaves the count alone accounts for it, if it is not held while there are
    waits left. -/
theorem autoWaits_of_same {r : Core × Bool} (hsame : r.1.cycle.autoWaits = c.cycle.autoWaits)
    (hnone : r.2 = true → c.cycle.autoWaits = 0) :
    r.1.cycle.autoWaits + (r.2 && c.cycle.autoWaits != 0).toNat = c.cycle.autoWaits := by
  rw [hsame]
  cases hr : r.2 with
  | false => rfl
  | true =>
    rw [hnone hr]
    rfl

/-- Only the half-period of a fetch that samples WAIT takes a wait off the count, and is held by
    it. -/
theorem autoWaits_fetchHalf {half : Nat} : (c.fetchHalf half).1.cycle.autoWaits
    + ((c.fetchHalf half).2 && c.cycle.autoWaits != 0).toNat = c.cycle.autoWaits := by
  simp only [fetchHalf]
  split
  case h_2 => split <;> exact autoWaits_of_same rfl (by rintro ⟨⟩)
  case h_3 =>
    split
    · next hmore =>
      have hcount : (c.cycle.autoWaits != 0) = true := bne_iff_ne.mpr (Nat.ne_of_gt hmore)
      rw [hcount]
      exact Nat.sub_add_cancel hmore
    · next hdone => exact autoWaits_of_same rfl fun _ => Nat.eq_zero_of_not_pos hdone
  case h_4 =>
    refine autoWaits_of_same ?_ (by rintro ⟨⟩)
    show (c.turnToRefresh.takeOpcodeByte c.data.value).cycle.autoWaits = _
    rw [(decodes_takeOpcodeByte _ _).cycle]
    rfl
  all_goals exact autoWaits_of_same rfl (by rintro ⟨⟩)

/-- Of its own waits an acknowledge has one less when it has put one in. -/
theorem autoWaits_patternHalf {half : Nat} (h : c.cycle.WaitsDue half) :
    (c.patternHalf half).1.cycle.autoWaits
        + ((c.patternHalf half).2 && c.cycle.autoWaits != 0).toNat
      = c.cycle.autoWaits := by
  -- but for an acknowledge there is nothing to count
  have hnone (hother : c.cycle.pattern ≠ .acknowledge) : c.cycle.autoWaits = 0 := h.eq_zero hother
  rw [patternHalf]
  split
  case h_1 | h_2 => exact autoWaits_fetchHalf
  case h_3 hpattern | h_4 hpattern =>
    refine autoWaits_of_same ?_ fun _ => hnone (by rw [hpattern]; decide)
    simp only [readHalf]
    split
    case h_4 =>
      have hclosed : c.closeRead.cycle = c.cycle := by
        rw [closeRead]
        rw [movePointer_eq]
      show c.sampleRead.cycle.autoWaits = _
      rw [sampleRead_eq]
      by_cases hread : c.cycle.pattern = .opcodeRead
      · rw [if_pos hread, (decodes_dispatch _ _).cycle, hclosed]
      · rw [if_neg hread]
        exact congrArg ActiveCycle.autoWaits hclosed
    all_goals rfl
  case h_5 hpattern =>
    refine autoWaits_of_same ?_ fun _ => hnone (by rw [hpattern]; decide)
    simp only [writeHalf]
    split
    case h_1 =>
      rw [addressWrite]
      split <;> rfl
    case h_3 => split <;> rfl
    all_goals rfl
  case h_6 hpattern =>
    refine autoWaits_of_same ?_ fun _ => hnone (by rw [hpattern]; decide)
    simp only [portReadHalf]
    split <;> rfl
  case h_7 hpattern =>
    refine autoWaits_of_same ?_ fun _ => hnone (by rw [hpattern]; decide)
    simp only [portWriteHalf]
    split <;> rfl
  case h_8 =>
    simp only [internalHalf]
    split <;> exact autoWaits_of_same rfl (by rintro ⟨⟩)

/-- The same when the half-period is run. -/
theorem autoWaits_runHalf (h : c.Wired c.cycle.half) :
    c.runHalf.1.cycle.autoWaits + (c.waits && c.cycle.autoWaits != 0).toNat
      = c.cycle.autoWaits := by
  have hwaits : c.countEdge.cycle.WaitsDue c.cycle.half := h.waits
  have hcounted := autoWaits_patternHalf hwaits
  rw [waits_countEdge] at hcounted
  rw [runHalf_eq]
  dsimp only
  split
  · exact hcounted
  · split <;> exact hcounted

/-- Running a half-period keeps the balance, with the half-period counted. -/
theorem Balanced.runHalf (h : c.Balanced t c.cycle.half) (hunderway : c.Underway)
    (hbegun : t.begun = true) :
    c.runHalf.1.Balanced ({ t with edges := t.edges + 1 }.countHalf c)
      (if c.runHalf.2 then c.cycle.half + 1 else c.runHalf.1.cycle.half) := by
  obtain ⟨hcycles, hedges, hwaits, -⟩ := h
  have hauto := autoWaits_runHalf hunderway.wired
  have hsame : c.runHalf.1.acknowledging = c.acknowledging := by
    simp only [acknowledging]
    rw [steady_runHalf.origin]
  have hfresh {edges : Nat} : t.begun = false → edges = 0 := fun hnot => nomatch hbegun.symm.trans hnot
  -- the waits of either kind add up to the waits
  have hsplit : (c.waits && c.cycle.autoWaits != 0).toNat
      + (c.waits && c.cycle.autoWaits == 0).toNat = c.waits.toNat := by
    cases c.waits <;> cases hzero : c.cycle.autoWaits == 0 <;> simp [bne, hzero]
  have hwaits' : t.automatic + (c.waits && c.cycle.autoWaits != 0).toNat
      + c.runHalf.1.cycle.autoWaits = if c.runHalf.1.acknowledging then 2 else 0 := by
    rw [hsame]
    omega
  -- so what is left is to follow the half-period, and the cycles if a prefix is dropped
  have hsum {half : Nat} (hhalf : half = c.cycle.half + 1 - 2 * c.waits.toNat)
      (hroom : 2 * c.waits.toNat ≤ c.cycle.half + 1) :
      t.edges + 1 = 2 * (Timing.sum t.cycles
        + (t.automatic + (c.waits && c.cycle.autoWaits != 0).toNat
          + (t.held + (c.waits && c.cycle.autoWaits == 0).toNat))) + half + t.released := by
    omega
  have hcyclesKept {d : Core} (hkept : c.dropsPrefix = false) (hran : d.ran = c.ran) :
      t.cycles = List.replicate (t.dropped + c.dropsPrefix.toNat) ⟨.opcodeFetch, 4⟩ ++ d.ran := by
    rw [hkept, hran]
    exact hcycles
  cases hheld : c.waits with
  | true =>
    obtain ⟨hmore, -, hback, hran⟩ := hunderway.course.runHalf_waits hheld
    have hkept : c.dropsPrefix = false := by
      rw [dropsPrefix, decide_eq_false (not_takesByte_of_waits hheld)]
      rfl
    have hone : c.waits.toNat = 1 := by rw [hheld, Bool.toNat_true]
    rw [hmore]
    refine ⟨hcyclesKept hkept hran, hsum ?_ ?_, hwaits', hfresh⟩
    · rw [if_neg Bool.false_ne_true]
      omega
    · omega
  | false =>
    have hzero : c.waits.toNat = 0 := by rw [hheld, Bool.toNat_false]
    rcases hunderway.course.runHalf_runs hheld with
      ⟨hmore, -, hnext, hran⟩ | ⟨hlast, -, -, hkept, hran⟩
    · rw [hmore]
      refine ⟨?_, hsum (by rw [hzero]; exact hnext) (by omega), hwaits', hfresh⟩
      show t.cycles = List.replicate (t.dropped + c.dropsPrefix.toNat) _ ++ c.runHalf.1.ran
      cases hdrops : c.dropsPrefix with
      | false =>
        rw [hdrops] at hran
        rw [hran]
        exact hcycles
      | true =>
        -- the fetch of the prefix now counts as dropped
        rw [hdrops] at hran
        rw [hran.2, hcycles, hran.1, Bool.toNat_true, List.replicate_succ', List.append_nil]
    · rw [hlast]
      exact ⟨hcyclesKept hkept hran, hsum (by rw [hzero]; rfl) (by omega), hwaits', hfresh⟩

/-! ## The end of a cycle -/

/-- Of the waits that an acknowledge puts in by itself none is left at the end of its cycle. -/
theorem Closes.autoWaits (h : c.Closes) (hwired : c.Wired (c.cycle.half + 1)) :
    c.cycle.autoWaits = 0 := by
  have hroom := h.course.room
  have hlast := h.last
  have hleast := c.cycle.pattern.three_le_minimumLength
  exact hwired.waits.eq_zero_of_late (by omega)

/-- The next cycle stands one position further on. -/
theorem position_next (c : Core) : c.latchResult.nextCycle.1.position = c.position + 1 := by
  have hstep : c.latchResult.nextCycle.1.position = c.latchResult.position + 1 := by
    cases hcode : c.latchResult.instruction with
    | none =>
      rw [nextCycle_of_none hcode]
      cases c.latchResult.chain <;> rfl
    | some code =>
      rw [nextCycle_of_some hcode]
      cases c.latchResult.cycles[c.latchResult.position + 1]? <;> rfl
  have hplace : c.latchResult.position = c.position := by
    cases hcode : c.instruction with
    | none =>
      rw [latchResult_of_none hcode]
      split <;> rfl
    | some code =>
      exact position_of_place (latchResult_turns hcode).1
  rw [hstep, hplace]

/-- The end of a cycle adds it to the tally, and the last one settles it. -/
theorem Balanced.next (h : c.Balanced t (c.cycle.half + 1)) (hcloses : c.Closes)
    (hwired : c.Wired (c.cycle.half + 1)) (hbegun : t.begun = true) :
    (c.latchResult.nextCycle.2 = false
        ∧ c.latchResult.nextCycle.1.Balanced (t.note ⟨.cycleEnd, c.latchResult⟩) 0)
      ∨ (c.latchResult.nextCycle.2 = true
        ∧ ∃ code, c.latchResult.nextCycle.1.instruction = some code
          ∧ (t.note ⟨.cycleEnd, c.latchResult⟩).Settles code.timing
            c.latchResult.nextCycle.1.conditionMet c.latchResult.nextCycle.1.acknowledging) := by
  obtain ⟨hcycles, hedges, hwaits, -⟩ := h
  have hlast := hcloses.last
  have hdone := hcloses.autoWaits hwired
  have hsame : c.latchResult.nextCycle.1.acknowledging = c.acknowledging := by
    simp only [acknowledging]
    rw [((steady_latchResult (c := c)).trans (steady_nextCycle _)).origin]
  have hnoted : t.note ⟨.cycleEnd, c.latchResult⟩
      = { t with cycles := t.cycles ++ [⟨c.cycle.kind, c.cycle.length⟩] } := by
    show ({ t with cycles := t.cycles
      ++ [⟨c.latchResult.cycle.kind, c.latchResult.cycle.length⟩] } : Tally) = _
    rw [cycle_latchResult]
  have hsum : Timing.sum (t.cycles ++ [⟨c.cycle.kind, c.cycle.length⟩])
      = Timing.sum t.cycles + c.cycle.length := sum_append _ _
  rw [hdone, Nat.add_zero] at hwaits
  rw [hnoted]
  rcases hcloses.next with ⟨hmore, hcourse, hhalf, hran⟩ | ⟨hend, code, hcode, ⟨page, hscheduled⟩, hran⟩
  · refine Or.inl ⟨hmore, ?_, ?_, ?_, fun hnot => absurd hbegun (Bool.eq_false_iff.mp hnot)⟩
    · show t.cycles ++ _ = List.replicate t.dropped _ ++ _
      rw [hran, hcycles, List.append_assoc]
    · show t.edges = 2 * (Timing.sum (t.cycles ++ _) + (t.automatic + t.held)) + 0 + t.released
      rw [hsum]
      omega
    · have hnone : c.latchResult.nextCycle.1.cycle.autoWaits = 0 := by
        -- an acknowledge is the first cycle of its instruction only
        refine ((hcloses.wired_next hwired).1 hmore).waits.eq_zero fun hack => ?_
        have hfirst := (hcourse.acknowledges hack).2
        rw [position_next] at hfirst
        cases hfirst
      rw [hnone, hsame]
      exact hwaits
  · have htotal : Timing.sum (t.cycles ++ [⟨c.cycle.kind, c.cycle.length⟩])
        = 4 * t.dropped + (code.timing.select c.latchResult.nextCycle.1.conditionMet).tStates := by
      rw [hcycles, List.append_assoc, hran, sum_append, sum_replicate, hscheduled.leads.sum]
    refine Or.inr ⟨hend, code, hcode, ?_, ?_, ?_⟩
    · show t.cycles ++ _ = List.replicate t.dropped _ ++ _
      rw [hcycles, List.append_assoc, hran]
    · show t.edges = 2 * (4 * t.dropped + _ + (t.automatic + t.held)) + t.released
      rw [← htotal, hsum]
      omega
    · rw [hsame]
      exact hwaits

/-! ## One edge -/

/-- The balance follows from what has been run, the waits to come, and how the instruction began. -/
theorem Balanced.congr {d : Core} {half : Nat} (h : c.Balanced t half) (hran : d.ran = c.ran)
    (hwaits : d.cycle.autoWaits = c.cycle.autoWaits) (hack : d.acknowledging = c.acknowledging) :
    d.Balanced t half := by
  refine ⟨?_, h.edges, ?_, h.fresh⟩
  · rw [hran]
    exact h.cycles
  · rw [hwaits, hack]
    exact h.waits

/-- The edge that a chip in balance has just begun to count. -/
theorem countEdge_some {after : Core} (hbegun : t.begun = true) (hphase : after.phase = .running) :
    t.countEdge (some k) after = { t with edges := t.edges + 1 }.countHalf k := by
  rw [Tally.countEdge]
  rw [if_pos hbegun, hphase]
  rfl

/-- The same edge when it ends a cycle. -/
theorem countEdge_cycleEnd {after d : Core} (hbegun : t.begun = true)
    (hphase : after.phase = .running) :
    (t.note ⟨.cycleEnd, d⟩).countEdge (some k) after
      = ({ t with edges := t.edges + 1 }.countHalf k).note ⟨.cycleEnd, d⟩ :=
  countEdge_some (t := t.note ⟨.cycleEnd, d⟩) hbegun hphase

/-- The tally agrees with the chip at the end of an edge: when the instruction has ended it has run
    its timing. -/
def Edge.Tallied (e : Edge) (t : Tally) : Prop :=
  if e.ended then
    ∃ code, e.core.instruction = some code
      ∧ t.Settles code.timing e.core.conditionMet e.core.acknowledging
  else e.core.Tallied t

/-- A half-period, and the end of the cycle if it was the last one, keep the balance. -/
theorem Balanced.runEdge {start : Tally} {emitted : List Emission}
    (h : c.Balanced (emitted.foldl Tally.note start) c.cycle.half)
    (hbegun : (emitted.foldl Tally.note start).begun = true) (hunderway : c.Underway)
    (hphase : c.phase = .running) :
    Edge.Tallied (c.runEdge emitted)
      (((c.runEdge emitted).emitted.foldl Tally.note start).countEdge (some c)
        (c.runEdge emitted).core) := by
  generalize ht : emitted.foldl Tally.note start = t at h hbegun
  have hhalf := h.runHalf hunderway hbegun
  have hphase' : c.runHalf.1.phase = .running := steady_runHalf.phase.trans hphase
  rw [runEdge_eq]
  rcases hunderway.runHalf with ⟨hmore, -⟩ | ⟨hlast, hcloses, hwired⟩
  · rw [hmore]
    rw [hmore] at hhalf
    show c.runHalf.1.Tallied ((emitted.foldl Tally.note start).countEdge (some c) c.runHalf.1)
    rw [ht, countEdge_some hbegun hphase']
    exact fun _ => hhalf
  · rw [if_pos hlast]
    rw [if_pos hlast] at hhalf
    have hsteady := (steady_latchResult (c := c.runHalf.1)).trans (steady_nextCycle _)
    have hnext : c.runHalf.1.latchResult.nextCycle.1.phase = .running :=
      hsteady.phase.trans hphase'
    -- a held half-period is not the last one, so nothing has been put back here
    have hroom : c.runHalf.1.cycle.half = c.cycle.half := by
      cases hheld : c.waits with
      | true =>
        obtain ⟨hmore, -⟩ := hunderway.course.runHalf_waits hheld
        exact nomatch hmore.symm.trans hlast
      | false =>
        rcases hunderway.course.runHalf_runs hheld with ⟨hmore, -⟩ | ⟨-, -, hsame, -⟩
        · exact nomatch hmore.symm.trans hlast
        · exact hsame
    rw [← hroom] at hhalf
    have hclosed := hhalf.next hcloses hwired hbegun
    rw [endCycle_eq]
    rcases hclosed with ⟨hmore, hbalanced⟩ | ⟨hend, code, hcode, hsettles⟩
    · rw [if_neg (Bool.eq_false_iff.mp hmore)]
      show c.runHalf.1.latchResult.nextCycle.1.Tallied
        (((emitted ++ [_]).foldl Tally.note start).countEdge (some c) _)
      rw [List.foldl_append, ht]
      show c.runHalf.1.latchResult.nextCycle.1.Tallied
        ((t.note ⟨.cycleEnd, c.runHalf.1.latchResult⟩).countEdge (some c) _)
      rw [countEdge_cycleEnd hbegun hnext]
      intro _
      obtain ⟨-, -, hzero, -⟩ := hcloses.next.resolve_right fun hended =>
        nomatch hmore.symm.trans hended.1
      rw [hzero]
      exact hbalanced
    · rw [if_pos hend]
      refine ⟨code, hcode, ?_⟩
      show Tally.Settles (((emitted ++ [_] ++ [_]).foldl Tally.note start).countEdge (some c) _) _ _ _
      rw [List.foldl_append, List.foldl_append, ht]
      show Tally.Settles
        ((t.note ⟨.cycleEnd, c.runHalf.1.latchResult⟩).countEdge (some c) _) _ _ _
      rw [countEdge_cycleEnd hbegun (by exact hnext)]
      exact hsettles

/-- The inputs of an edge, and leaving reset, do not touch the balance. -/
theorem Tallied.sampled (h : c.Tallied t) (inputs : InputLevels) :
    (c.sampleInputs inputs).leaveReset.Tallied t := by
  rw [leaveReset]
  split
  · rintro (⟨hphase, -⟩ | hphase) <;> cases hphase
  · exact fun hphase => (h hphase).congr rfl rfl rfl

/-- A chip that is made ready is in balance, with the start of an instruction noted. -/
theorem Readied.balanced {emitted : List Emission} (hready : c.Readied k emitted)
    (h : c.Tallied t) : k.Balanced (emitted.foldl Tally.note t) k.cycle.half := by
  cases hready with
  | running phase chosen => exact h (Or.inl ⟨phase, chosen⟩)
  | returned phase => exact (h (Or.inr phase)).congr rfl rfl rfl
  | started | resolved | returnedResolved =>
    rw [(course_resolveNext _).2.1]
    exact balanced_resolveNext _

/-- An edge without the buses is counted as such. -/
theorem Balanced.countReleased {half : Nat} (after : Core) (h : c.Balanced t half)
    (hphase : after.phase = .busReleased) : c.Balanced (t.countEdge none after) half := by
  rw [Tally.countEdge]
  split
  · next hbegun =>
    refine ⟨h.cycles, ?_, h.waits, fun hnot => nomatch hbegun.symm.trans hnot⟩
    show t.edges + 1 = 2 * (Timing.sum t.cycles + (t.automatic + t.held)) + half
      + (t.released + (decide (after.phase = .busReleased)).toNat)
    rw [h.edges, decide_eq_true hphase]
    rfl
  · exact h

/-- The start of a cycle is noted. -/
theorem Balanced.noteStart {half : Nat} (h : c.Balanced t half) :
    c.Balanced (t.note ⟨.cycleStart, k⟩) half :=
  ⟨h.cycles, h.edges, h.waits, nofun⟩

/-- Within a cycle, the first one has started. -/
theorem Balanced.begun_of_later {half : Nat} (h : c.Balanced t half) (hlater : half ≠ 0) :
    t.begun = true := by
  refine Bool.of_not_eq_false fun hnot => ?_
  have hnone := h.fresh hnot
  have hedges := h.edges
  omega

/-- An edge keeps the tally in agreement with the chip. -/
theorem Tallied.edge (h : c.Tallied t) (hsound : c.Sound) (level : Level) (inputs : InputLevels) :
    Edge.Tallied (c.edge level inputs) (t.edge c level inputs) := by
  have hsampled := (hsound.sampleInputs inputs).leaveReset
  have htallied := h.sampled inputs
  unfold Tally.edge
  dsimp only
  have hturn := c.turn level inputs
  generalize c.engaged level inputs = engaged at hturn ⊢
  generalize c.edge level inputs = e at hturn ⊢
  cases hturn with
  | resets =>
    rintro (⟨hphase, -⟩ | hphase) <;> exact nomatch hphase
  | @passes s sampled phase =>
    subst sampled
    rcases phase with hwaiting | hreleased
    · rintro (⟨hphase, -⟩ | hphase) <;> exact nomatch hwaiting.symm.trans hphase
    · exact fun _ => (htallied (Or.inr hreleased)).countReleased _ hreleased
  | @grants k emitted ready first =>
    have hbalanced := (ready.balanced htallied).countReleased k.releaseBus rfl
    exact fun _ => hbalanced.congr rfl rfl rfl
  | @begins k emitted ready first =>
    obtain ⟨hunderway, hphase, -⟩ := ready.underway hsampled
    have hbalanced := (ready.balanced htallied).noteStart (k := k)
    refine Balanced.runEdge ?_ ?_ hunderway hphase <;> rw [List.foldl_append]
    · exact hbalanced
    · rfl
  | continues ready later =>
    obtain ⟨hunderway, hphase, -⟩ := ready.underway hsampled
    have hbalanced := ready.balanced htallied
    exact hbalanced.runEdge (hbalanced.begun_of_later later) hunderway hphase

/-- The next instruction starts with an empty tally, now or later. -/
theorem Edge.Tallied.finish {e : Edge} (h : Edge.Tallied e t) (stopping : Bool) (hsound: Edge.Sound e) :
    (e.finish stopping).1.Tallied ((e.finish stopping).2.foldl Tally.note t) := by
  rw [Edge.Tallied] at h
  rw [Edge.Sound] at hsound
  rw [Edge.finish]
  split
  · next hended =>
    rw [if_pos hended] at hsound
    split
    · rintro (⟨-, hchosen⟩ | hphase)
      · cases hchosen
      · cases hsound.2.1.symm.trans hphase
    · intro _
      show Balanced _ _ e.core.resolveNext.cycle.half
      rw [(course_resolveNext _).2.1]
      exact balanced_resolveNext _
  · next hended =>
    rw [if_neg hended] at h
    exact h

end Core

/-! ## Runs -/

/-- Edges in a row, with nobody listening. -/
def Core.steps (c : Core) : List (Level × InputLevels) → Core
  | [] => c
  | (level, inputs) :: rest => (c.step level inputs).steps rest

variable {c : Core} {t : Tally}

/-- A run goes on with whatever edges there are. -/
theorem Metered.exists_steps (h : Metered c t) (edges : List (Level × InputLevels)) :
    ∃ t', Metered (c.steps edges) t' := by
  induction edges generalizing c t with
  | nil => exact ⟨t, h⟩
  | cons edge rest ih => exact ih (h.edge edge.1 edge.2 false)

/-- On every run the chip is sound, and the tally agrees with it. -/
theorem Metered.tallied (h : Metered c t) : c.Sound ∧ c.Tallied t := by
  induction h with
  | powerOn address data =>
    refine ⟨Core.sound_powerOn address data, ?_⟩
    rintro (⟨hphase, -⟩ | hphase) <;> exact nomatch hphase
  | edge _ level inputs stopping ih =>
    obtain ⟨hsound, htallied⟩ := ih
    have hended := hsound.edge level inputs
    exact ⟨hended.finish stopping, (htallied.edge hsound level inputs).finish stopping hended⟩
  | data _ data ih => exact ⟨ih.1.withData data, fun hphase => (ih.2 hphase).congr rfl rfl rfl⟩
  | regs _ f ih => exact ⟨ih.1.modifyRegs f, fun hphase => (ih.2 hphase).congr rfl rfl rfl⟩

/-- Whenever an instruction ends, on whatever run, it has run the cycles of its timing and no other,
    after those of its dropped prefixes, and has taken the time that the timing declares. -/
theorem Metered.settles (h : Metered c t) (level : Level) (inputs : InputLevels)
    (hended : (c.edge level inputs).ended = true) :
    ∃ code, (c.edge level inputs).core.instruction = some code
      ∧ (t.edge c level inputs).Settles code.timing (c.edge level inputs).core.conditionMet
        (c.edge level inputs).core.acknowledging := by
  obtain ⟨hsound, htallied⟩ := h.tallied
  have hsettled := htallied.edge hsound level inputs
  rw [Core.Edge.Tallied, if_pos hended] at hsettled
  exact hsettled

/-- The chip after 21 edges from power-on with NMI asserted. -/
def nmiUnderway : Core :=
  (Core.powerOn (.released 0xFFFF) (.released 0xFF)).steps
    ((List.range 21).map fun edge => (.ofBool (edge % 2 == 0), { nmi := .asserted }))

/-- The non-maskable interrupt ends on the next edge, and settles. -/
theorem nmi_settles : ∃ t, Metered nmiUnderway t
    ∧ (nmiUnderway.edge .low { nmi := .asserted }).ended = true
    ∧ ∃ code, (nmiUnderway.edge .low { nmi := .asserted }).core.instruction = some code
      ∧ (t.edge nmiUnderway .low { nmi := .asserted }).Settles code.timing
        (nmiUnderway.edge .low { nmi := .asserted }).core.conditionMet
        (nmiUnderway.edge .low { nmi := .asserted }).core.acknowledging := by
  obtain ⟨t, hmetered⟩ : ∃ t, Metered nmiUnderway t :=
    (Metered.powerOn (.released 0xFFFF) (.released 0xFF)).exists_steps _
  have hended : (nmiUnderway.edge .low { nmi := .asserted }).ended = true := by decide +kernel
  exact ⟨t, hmetered, hended, Metered.settles hmetered .low { nmi := .asserted } hended⟩

end Z80Board
