import Z80Board.Proofs.Chip.Cycles

/-! # The timing diagrams

    Which strobes are up between two half-periods of a cycle: a table for each way to use the buses,
    read off before the half-period that comes next.  A chip whose cycle leaves
    room for its pattern keeps to the table from one half-period to the next, waits or not, and at
    the end of every cycle all strobes are back.  Only the refresh strobe may last until the next
    cycle. -/

namespace Z80Board

namespace ActiveCycle

/-- The outputs of a fetch before a half-period. -/
def fetchOutputs (cycle : ActiveCycle) : Nat → Pins
  | 1 => { m1 := .asserted }
  | 2 | 3 | 4 =>
    { m1 := .asserted
      mreq := if cycle.fromDevice then .released else .asserted
      rd := .asserted }
  | 5 | 8 => { rfsh := .asserted }
  | 6 | 7 => { mreq := .asserted, rfsh := .asserted }
  | _ => {}

/-- The outputs of an acknowledge, which asserts the port request with the first wait. -/
def acknowledgeOutputs (cycle : ActiveCycle) : Nat → Pins
  | 1 => { m1 := .asserted }
  | 2 | 3 | 4 => { m1 := .asserted, iorq := if cycle.autoWaits < 2 then .asserted else .released }
  | 5 | 8 => { rfsh := .asserted }
  | 6 | 7 => { mreq := .asserted, rfsh := .asserted }
  | _ => {}

/-- The outputs of a read. -/
def readOutputs (cycle : ActiveCycle) : Nat → Pins
  | 2 | 3 | 4 | 5 => { mreq := if cycle.fromDevice then .released else .asserted, rd := .asserted }
  | _ => {}

/-- The outputs of a write, whose strobe is up for one period. -/
def writeOutputs : Nat → Pins
  | 2 | 3 => { mreq := .asserted }
  | 4 | 5 => { mreq := .asserted, wr := .asserted }
  | _ => {}

/-- The outputs of a port access, with those of its direction given. -/
def portOutputs (access : Pins) : Nat → Pins
  | 3 | 4 | 5 | 6 | 7 => { access with iorq := .asserted }
  | _ => {}

/-- The outputs that a cycle has up before a half-period. -/
def outputs (cycle : ActiveCycle) (half : Nat) : Pins :=
  match cycle.pattern with
  | .fetch => cycle.fetchOutputs half
  | .acknowledge => cycle.acknowledgeOutputs half
  | .opcodeRead | .read => cycle.readOutputs half
  | .write => writeOutputs half
  | .portRead => portOutputs { rd := .asserted } half
  | .portWrite => portOutputs { wr := .asserted } half
  | .internal => {}

/-- The half-periods that the diagrams tell apart, and all behind them. -/
theorem half_cases (half : Nat) : half = 0 ∨ half = 1 ∨ half = 2 ∨ half = 3 ∨ half = 4 ∨ half = 5 ∨
    half = 6 ∨ half = 7 ∨ half = 8 ∨ ∃ n, half = n + 9 := by
  by_cases hbehind : 9 ≤ half
  · have hmore : ∃ n, half = n + 9 := Nat.exists_eq_add_of_le' hbehind
    simp only [hmore, or_true]
  · omega

end ActiveCycle

/-- The strobes that choose what happens on the buses. -/
def Pins.strobes (pins : Pins) : Level × Level × Level × Level × Level :=
  (pins.m1, pins.mreq, pins.iorq, pins.rd, pins.wr)

/-- No strobe is up. -/
def Pins.AtRest (pins : Pins) : Prop :=
  pins.strobes = (.released, .released, .released, .released, .released)

/-- Behind the room that its pattern needs, a cycle has no strobe up. -/
theorem ActiveCycle.outputs_atRest {cycle : ActiveCycle} {half : Nat}
    (h : 2 * cycle.pattern.minimumLength ≤ half) : (cycle.outputs half).AtRest := by
  rw [outputs]
  cases hpattern : cycle.pattern <;> rw [hpattern] at h
  case fetch | acknowledge | portRead | portWrite =>
    obtain ⟨n, rfl⟩ := Nat.exists_eq_add_of_le' h
    match n with
    | 0 | n + 1 => rfl
  case opcodeRead | read | write | internal =>
    obtain ⟨n, rfl⟩ := Nat.exists_eq_add_of_le' h
    rfl

/-- The waits that the cycle still puts in by itself: an acknowledge has two, and has put them in
    when its byte is due. -/
def ActiveCycle.WaitsDue (cycle : ActiveCycle) (half : Nat) : Prop :=
  if cycle.pattern = .acknowledge then
    cycle.autoWaits ≤ 2 ∧ (half ≤ 1 → cycle.autoWaits = 2) ∧ (4 ≤ half → cycle.autoWaits = 0)
  else cycle.autoWaits = 0

namespace ActiveCycle.WaitsDue

variable {cycle : ActiveCycle} {half : Nat}

/-- No other cycle has waits of its own. -/
theorem eq_zero (h : cycle.WaitsDue half) (hother : cycle.pattern ≠ .acknowledge) :
    cycle.autoWaits = 0 := by
  rw [WaitsDue, if_neg hother] at h
  exact h

theorem eq_two (h : cycle.WaitsDue half) (hack : cycle.pattern = .acknowledge)
    (hfirst : half ≤ 1) : cycle.autoWaits = 2 := by
  rw [WaitsDue, if_pos hack] at h
  exact h.2.1 hfirst

/-- Whatever the cycle is, none of them is left when a byte is due. -/
theorem eq_zero_of_late (h : cycle.WaitsDue half) (hlate : 4 ≤ half) : cycle.autoWaits = 0 := by
  rw [WaitsDue] at h
  split at h
  · exact h.2.2 hlate
  · exact h

end ActiveCycle.WaitsDue

namespace Core

/-- The strobes are as the diagram has them before a half-period. -/
structure Wired (c : Core) (half : Nat) : Prop where
  strobes : c.pins.strobes = (c.cycle.outputs half).strobes
  refresh : half ≠ 0 → c.pins.rfsh = (c.cycle.outputs half).rfsh
  waits : c.cycle.WaitsDue half

variable {c c' : Core} {half : Nat}


/-- Decoding and acting touch no strobe. -/
theorem Wired.of_decodes (h : c.Wired half) (hdecodes : c.Decodes c') : c'.Wired half := by
  have hpins : c'.pins = { c.pins with halt := c'.pins.halt } := by
    rw [← hdecodes.wires]
    rfl
  have houtputs : c'.cycle.outputs half = c.cycle.outputs half := by
    rw [hdecodes.cycle]
    rfl
  refine ⟨?_, fun hhalf => ?_, ?_⟩
  · rw [houtputs, hpins]
    exact h.strobes
  · rw [houtputs, hpins]
    exact h.refresh hhalf
  · rw [hdecodes.cycle]
    exact h.waits

/-- What a half-period leads to: the next one, or the one before it when the cycle is held. -/
def Wired.After (r : Core × Bool) (half : Nat) : Prop :=
  r.1.Wired (if r.2 then half - 1 else half + 1)

theorem Wired.fetchHalf (h : c.Wired half) (hpattern : c.cycle.pattern = .fetch)
    (hhalf : half ≠ 4) : After (c.fetchHalf half) half := by
  obtain ⟨hstrobes, hrefresh, hwaits⟩ := h
  rw [Pins.strobes, ActiveCycle.outputs, hpattern] at hstrobes
  rw [ActiveCycle.outputs, hpattern] at hrefresh
  rw [ActiveCycle.WaitsDue, hpattern] at hwaits
  match half with
  | 0 | 1 | 2 | 5 | 6 | 7 | 8 | n + 9 =>
    constructor <;>
      simp_all [Core.fetchHalf, releaseRefresh, requestRead, ActiveCycle.outputs,
        ActiveCycle.fetchOutputs, Pins.strobes, ActiveCycle.WaitsDue]
  | 3 =>
    cases hheld : c.held <;> constructor <;>
      simp_all [Core.fetchHalf, ActiveCycle.outputs, ActiveCycle.fetchOutputs, Pins.strobes,
        ActiveCycle.WaitsDue]

theorem Wired.acknowledgeHalf (h : c.Wired half) (hpattern : c.cycle.pattern = .acknowledge)
    (hhalf : half ≠ 4) : After (c.fetchHalf half) half := by
  obtain ⟨hstrobes, hrefresh, hwaits⟩ := h
  rw [Pins.strobes, ActiveCycle.outputs, hpattern] at hstrobes
  rw [ActiveCycle.outputs, hpattern] at hrefresh
  rw [ActiveCycle.WaitsDue, hpattern] at hwaits
  match half with
  | 0 | 1 | 2 | 5 | 6 | 7 | 8 | n + 9 =>
    constructor <;>
      simp_all [Core.fetchHalf, releaseRefresh, ActiveCycle.outputs,
        ActiveCycle.acknowledgeOutputs, Pins.strobes, ActiveCycle.WaitsDue]
  | 3 =>
    have hcount : c.cycle.autoWaits = 0 ∨ c.cycle.autoWaits = 1 ∨ c.cycle.autoWaits = 2 := by
      have := hwaits.1
      omega
    rcases hcount with hcount | hcount | hcount
    · cases hheld : c.held <;> constructor <;>
        simp_all [Core.fetchHalf, ActiveCycle.outputs, ActiveCycle.acknowledgeOutputs,
          Pins.strobes, ActiveCycle.WaitsDue]
    · constructor <;>
        simp_all [Core.fetchHalf, ActiveCycle.outputs, ActiveCycle.acknowledgeOutputs,
          Pins.strobes, ActiveCycle.WaitsDue]
    · constructor <;>
        simp_all [Core.fetchHalf, ActiveCycle.outputs, ActiveCycle.acknowledgeOutputs,
          Pins.strobes, ActiveCycle.WaitsDue]

theorem Wired.readHalf (h : c.Wired half)
    (hpattern : c.cycle.pattern = .opcodeRead ∨ c.cycle.pattern = .read) (hhalf : half ≠ 5) :
    After (c.readHalf half) half := by
  obtain ⟨hstrobes, hrefresh, hwaits⟩ := h
  rw [Pins.strobes, ActiveCycle.outputs] at hstrobes
  rw [ActiveCycle.outputs] at hrefresh
  rw [ActiveCycle.WaitsDue] at hwaits
  match half with
  | 0 | 1 | 2 | 4 | 6 | 7 | 8 | n + 9 =>
    rcases hpattern with hpattern | hpattern <;> constructor <;>
      simp_all [Core.readHalf, releaseRefresh, requestRead, ActiveCycle.outputs,
        ActiveCycle.readOutputs, Pins.strobes, ActiveCycle.WaitsDue]
  | 3 =>
    cases hheld : c.held <;> rcases hpattern with hpattern | hpattern <;> constructor <;>
      simp_all [Core.readHalf, ActiveCycle.outputs, ActiveCycle.readOutputs, Pins.strobes,
        ActiveCycle.WaitsDue]

theorem Wired.writeHalf (h : c.Wired half) (hpattern : c.cycle.pattern = .write) :
    After (c.writeHalf half) half := by
  obtain ⟨hstrobes, hrefresh, hwaits⟩ := h
  rw [Pins.strobes, ActiveCycle.outputs, hpattern] at hstrobes
  rw [ActiveCycle.outputs, hpattern] at hrefresh
  rw [ActiveCycle.WaitsDue, hpattern] at hwaits
  match half with
  | 0 =>
    cases hkind : c.cycle.kind <;> constructor <;>
      simp_all [Core.writeHalf, releaseRefresh, addressWrite, ActiveCycle.outputs,
        ActiveCycle.writeOutputs, Pins.strobes, ActiveCycle.WaitsDue]
  | 1 | 2 | 4 | 5 | 6 | 7 | 8 | n + 9 =>
    constructor <;>
      simp_all [Core.writeHalf, ActiveCycle.outputs, ActiveCycle.writeOutputs, Pins.strobes,
        ActiveCycle.WaitsDue]
  | 3 =>
    cases hheld : c.held <;> constructor <;>
      simp_all [Core.writeHalf, ActiveCycle.outputs, ActiveCycle.writeOutputs, Pins.strobes,
        ActiveCycle.WaitsDue]

theorem Wired.portReadHalf (h : c.Wired half) (hpattern : c.cycle.pattern = .portRead) :
    After (c.portReadHalf half) half := by
  obtain ⟨hstrobes, hrefresh, hwaits⟩ := h
  rw [Pins.strobes, ActiveCycle.outputs, hpattern] at hstrobes
  rw [ActiveCycle.outputs, hpattern] at hrefresh
  rw [ActiveCycle.WaitsDue, hpattern] at hwaits
  match half with
  | 0 | 1 | 2 | 3 | 4 | 6 | 7 | 8 | n + 9 =>
    constructor <;>
      simp_all [Core.portReadHalf, releaseRefresh, ActiveCycle.outputs, ActiveCycle.portOutputs,
        Pins.strobes, ActiveCycle.WaitsDue]
  | 5 =>
    cases hheld : c.held <;> constructor <;>
      simp_all [Core.portReadHalf, ActiveCycle.outputs, ActiveCycle.portOutputs, Pins.strobes,
        ActiveCycle.WaitsDue]

theorem Wired.portWriteHalf (h : c.Wired half) (hpattern : c.cycle.pattern = .portWrite) :
    After (c.portWriteHalf half) half := by
  obtain ⟨hstrobes, hrefresh, hwaits⟩ := h
  rw [Pins.strobes, ActiveCycle.outputs, hpattern] at hstrobes
  rw [ActiveCycle.outputs, hpattern] at hrefresh
  rw [ActiveCycle.WaitsDue, hpattern] at hwaits
  match half with
  | 0 | 1 | 2 | 3 | 4 | 6 | 7 | 8 | n + 9 =>
    constructor <;>
      simp_all [Core.portWriteHalf, releaseRefresh, ActiveCycle.outputs, ActiveCycle.portOutputs,
        Pins.strobes, ActiveCycle.WaitsDue]
  | 5 =>
    cases hheld : c.held <;> constructor <;>
      simp_all [Core.portWriteHalf, ActiveCycle.outputs, ActiveCycle.portOutputs, Pins.strobes,
        ActiveCycle.WaitsDue]

theorem Wired.internalHalf (h : c.Wired half) (hpattern : c.cycle.pattern = .internal) :
    After (c.internalHalf half) half := by
  obtain ⟨hstrobes, hrefresh, hwaits⟩ := h
  rw [Pins.strobes, ActiveCycle.outputs, hpattern] at hstrobes
  rw [ActiveCycle.outputs, hpattern] at hrefresh
  rw [ActiveCycle.WaitsDue, hpattern] at hwaits
  match half with
  | 0 | n + 1 =>
    constructor <;>
      simp_all [Core.internalHalf, releaseRefresh, ActiveCycle.outputs, Pins.strobes,
        ActiveCycle.WaitsDue]

/-- The byte of a fetch is taken in. -/
theorem Wired.sampleOpcode (h : c.Wired 4)
    (hpattern : c.cycle.pattern = .fetch ∨ c.cycle.pattern = .acknowledge) :
    c.sampleOpcode.Wired 5 := by
  have hrefresh : c.turnToRefresh.Wired 5 := by
    obtain ⟨hstrobes, hrefresh, hwaits⟩ := h
    rw [Pins.strobes, ActiveCycle.outputs] at hstrobes
    rw [ActiveCycle.outputs] at hrefresh
    rw [ActiveCycle.WaitsDue] at hwaits
    rcases hpattern with hpattern | hpattern <;> constructor <;>
      simp_all [turnToRefresh, ActiveCycle.outputs, ActiveCycle.fetchOutputs,
        ActiveCycle.acknowledgeOutputs, Pins.strobes, ActiveCycle.WaitsDue]
  rw [sampleOpcode_eq]
  exact hrefresh.of_decodes (decodes_takeOpcodeByte _ _)

/-- The byte of a read is taken in. -/
theorem Wired.sampleRead (h : c.Wired 5)
    (hpattern : c.cycle.pattern = .opcodeRead ∨ c.cycle.pattern = .read) :
    c.sampleRead.Wired 6 := by
  have hclosed : c.closeRead.Wired 6 := by
    rw [closeRead]
    rw [movePointer_eq]
    obtain ⟨hstrobes, hrefresh, hwaits⟩ := h
    rw [Pins.strobes, ActiveCycle.outputs] at hstrobes
    rw [ActiveCycle.outputs] at hrefresh
    rw [ActiveCycle.WaitsDue] at hwaits
    rcases hpattern with hpattern | hpattern <;> constructor <;>
      simp_all [ActiveCycle.outputs, ActiveCycle.readOutputs, Pins.strobes,
        ActiveCycle.WaitsDue]
  rw [sampleRead_eq]
  split
  · exact hclosed.of_decodes (decodes_dispatch _ _)
  · exact hclosed.of_decodes ⟨rfl, rfl, rfl, rfl, rfl, rfl⟩

/-- Every half-period keeps to the diagram. -/
theorem Wired.patternHalf (h : c.Wired half) : After (c.patternHalf half) half := by
  rw [Core.patternHalf]
  split
  case h_1 hpattern =>
    by_cases hhalf : half = 4
    · subst hhalf
      exact h.sampleOpcode (Or.inl hpattern)
    · exact h.fetchHalf hpattern hhalf
  case h_2 hpattern =>
    by_cases hhalf : half = 4
    · subst hhalf
      exact h.sampleOpcode (Or.inr hpattern)
    · exact h.acknowledgeHalf hpattern hhalf
  case h_3 hpattern =>
    by_cases hhalf : half = 5
    · subst hhalf
      exact h.sampleRead (Or.inl hpattern)
    · exact h.readHalf (Or.inl hpattern) hhalf
  case h_4 hpattern =>
    by_cases hhalf : half = 5
    · subst hhalf
      exact h.sampleRead (Or.inr hpattern)
    · exact h.readHalf (Or.inr hpattern) hhalf
  case h_5 hpattern => exact h.writeHalf hpattern
  case h_6 hpattern => exact h.portReadHalf hpattern
  case h_7 hpattern => exact h.portWriteHalf hpattern
  case h_8 hpattern => exact h.internalHalf hpattern

/-- A half-period that is run keeps to the diagram.  When it was the last one, the diagram is read
    after it. -/
theorem Wired.runHalf (h : c.Wired c.cycle.half) :
    c.runHalf.1.Wired (if c.runHalf.2 then c.cycle.half + 1 else c.runHalf.1.cycle.half) := by
  have hcounted : c.countEdge.Wired c.cycle.half := ⟨h.strobes, h.refresh, h.waits⟩
  have hafter := hcounted.patternHalf
  rw [After, waits_countEdge] at hafter
  rw [runHalf_eq]
  dsimp only
  cases hwaits : c.waits with
  | true =>
    rw [hwaits] at hafter
    exact ⟨hafter.strobes, hafter.refresh, hafter.waits⟩
  | false =>
    rw [hwaits] at hafter
    rw [if_neg Bool.false_ne_true]
    split
    · exact hafter
    · exact ⟨hafter.strobes, hafter.refresh, hafter.waits⟩

/-! ## Between cycles -/

/-- A cycle on course has the room that its pattern needs. -/
theorem Course.room (h : c.Course half) : c.cycle.pattern.minimumLength ≤ c.cycle.length := by
  have hkinds : c.cycle.kind.minimumLength ≤ c.cycle.length
      → c.cycle.pattern.minimumLength ≤ c.cycle.length :=
    Nat.le_trans h.uses.minimumLength_le
  have hcurrent := h.current
  cases hcode : c.instruction with
  | some code =>
    obtain ⟨hcycles, ⟨page, hscheduled, -⟩, -⟩ := h.scheduled code hcode
    rw [plan, hcode] at hcurrent
    exact hkinds (hscheduled.leads.minimumLength _ _ (hcycles ▸ List.mem_of_getElem? hcurrent))
  | none =>
    rw [plan, hcode] at hcurrent
    dsimp only at hcurrent
    cases h.seeking hcode with
    | fetching plain here chain pattern early =>
      rw [here, List.getElem?_append_right (Nat.le_refl _), Nat.sub_self, plain] at hcurrent
      obtain ⟨hkind, hlength⟩ := MachineCycle.mk.inj (Option.some.inj hcurrent)
      refine hkinds ?_
      rw [← hkind, ← hlength]
      exact Nat.le_refl 4
    | reading displaced here chain pattern early =>
      rw [here, Page.approach_displaced displaced, displaced] at hcurrent
      obtain ⟨-, hlength⟩ := MachineCycle.mk.inj (Option.some.inj hcurrent)
      rw [pattern, ← hlength]
      exact Nat.le_refl 3
    | leading short started chain late pattern =>
      have hlong : ∀ cycle ∈ c.page.approach, cycle.kind.minimumLength ≤ cycle.tStates := by
        cases c.page <;> decide
      rw [List.getElem?_append_left short] at hcurrent
      exact hkinds (hlong _ (List.mem_of_getElem? hcurrent))

/-- At the end of a cycle no strobe is up. -/
theorem Closes.atRest (h : c.Closes) (hwired : c.Wired (c.cycle.half + 1)) : c.pins.AtRest := by
  have hroom := h.course.room
  have hlast := h.last
  rw [Pins.AtRest, hwired.strobes]
  exact ActiveCycle.outputs_atRest (by omega)

/-- A cycle that is set up has everything before it. -/
theorem wired_beginCycle (h : c.pins.AtRest) (kind : CycleKind) (length : Nat) :
    (c.beginCycle kind length).Wired 0 := by
  refine ⟨?_, fun hhalf => absurd rfl hhalf, ?_⟩
  · show c.pins.strobes = _
    rw [h]
    rw [ActiveCycle.outputs]
    split <;> rfl
  · show ActiveCycle.WaitsDue { c.cycle with
      kind, length, half := 0, edges := 0, waitStates := 0, pattern := c.busPattern kind,
      autoWaits := if c.busPattern kind = .acknowledge then 2 else 0, fromDevice := _ } 0
    rw [ActiveCycle.WaitsDue]
    dsimp only
    split
    · exact ⟨Nat.le_refl 2, fun _ => rfl, fun hfour => nomatch hfour⟩
    · rfl

/-- Latching keeps the pins but HALT. -/
theorem atRest_latchResult (h : c.pins.AtRest) : c.latchResult.pins.AtRest := by
  have hwires : c.latchResult = c.latchResult.wiredAs c := by
    rw [← latchResult_wiredAs, wiredAs_self]
  rw [hwires]
  exact h

/-- The cycle after the finished one is set up with no strobe up, or the instruction is complete
    with none up. -/
theorem Closes.wired_next (h : c.Closes) (hwired : c.Wired (c.cycle.half + 1)) :
    (c.latchResult.nextCycle.2 = false → c.latchResult.nextCycle.1.Wired 0)
      ∧ (c.latchResult.nextCycle.2 = true → c.latchResult.nextCycle.1.pins.AtRest) := by
  have hrest := atRest_latchResult (h.atRest hwired)
  have begins (kind : CycleKind) (length : Nat) :
      (c.latchResult.stepOn.beginCycle kind length).Wired 0 :=
    wired_beginCycle (c := c.latchResult.stepOn) hrest kind length
  cases hcode : c.latchResult.instruction with
  | none =>
    rw [nextCycle_of_none hcode]
    cases c.latchResult.chain <;>
      exact ⟨fun _ => begins _ _, fun hend => nomatch hend⟩
  | some code =>
    rw [nextCycle_of_some hcode]
    cases c.latchResult.cycles[c.latchResult.position + 1]? with
    | none => exact ⟨fun hend => (nomatch hend), fun _ => hrest⟩
    | some next => exact ⟨fun _ => begins _ _, fun hend => nomatch hend⟩

/-- The chip `d` has come from `c` by forgetting the last instruction: the buses and all pins but
    HALT are as they were. -/
structure Between (c d : Core) : Prop where
  chain : d.chain = .opcode
  position : d.position = 0
  pins : d.pins = { c.pins with halt := d.pins.halt }
  address : d.address = c.address
  data : d.data = c.data
  phase : d.phase = c.phase
  pending : d.boundaryPending = c.boundaryPending
  seen : d.nmiSeen = c.nmiSeen

/-- Whichever instruction comes next, its first cycle is set up from where the chip is. -/
theorem resolveNext_begins (c : Core) :
    ∃ (d : Core) (length : Nat), c.resolveNext = d.beginCycle .opcodeFetch length ∧ c.Between d := by
  have hcleared : c.Between { c.clearInstruction with intBlocked := false } :=
    ⟨rfl, rfl, rfl, rfl, rfl, rfl, rfl, rfl⟩
  have hleft : c.Between ({ c.clearInstruction with intBlocked := false } : Core).leaveHalt := by
    rw [leaveHalt]
    split
    · exact ⟨rfl, rfl, rfl, rfl, rfl, rfl, rfl, rfl⟩
    · exact hcleared
  -- what is accepted changes the registers and what is known of interrupts
  have accepts {d e : Core} (h : c.Between d) (hchain : e.chain = d.chain := by rfl)
      (hposition : e.position = d.position := by rfl) (hpins : e.pins = d.pins := by rfl)
      (haddress : e.address = d.address := by rfl) (hdata : e.data = d.data := by rfl)
      (hphase : e.phase = d.phase := by rfl)
      (hpending : e.boundaryPending = d.boundaryPending := by rfl)
      (hseen : e.nmiSeen = d.nmiSeen := by rfl) : c.Between e :=
    ⟨hchain.trans h.chain, hposition.trans h.position, by rw [hpins]; exact h.pins,
      haddress.trans h.address, hdata.trans h.data, hphase.trans h.phase,
      hpending.trans h.pending, hseen.trans h.seen⟩
  rw [resolveNext]
  dsimp only
  split
  · exact ⟨_, _, rfl, accepts hleft⟩
  split
  · rw [acceptInt]
    dsimp only
    split
    · exact ⟨_, _, rfl, accepts hleft⟩
    split
    · exact ⟨_, _, rfl, accepts hleft⟩
    · exact ⟨_, _, rfl, accepts hleft⟩
  split
  · exact ⟨_, _, rfl, accepts hcleared⟩
  · exact ⟨_, _, rfl, accepts hcleared⟩

/-- The next instruction starts with no strobe up. -/
theorem wired_resolveNext (h : c.pins.AtRest) : c.resolveNext.Wired 0 := by
  obtain ⟨d, length, hnext, hbetween⟩ := c.resolveNext_begins
  rw [hnext]
  refine wired_beginCycle ?_ _ _
  rw [hbetween.pins]
  exact h

end Core

end Z80Board
