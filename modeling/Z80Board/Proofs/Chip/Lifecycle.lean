import Z80Board.Proofs.Chip.Afresh
import Z80Board.Proofs.Chip.Tally

/-! # The order of events

    An instruction starts, its machine cycles start and end one after the other, and the instruction
    ends.  How far the events have come can be told from the chip between edges, and so every event
    of an edge is one that is in order: it is due, it comes on the right edge of the clock and with
    the right count of instructions, and it finds the chip in possession of its buses.  A reset
    alone breaks the order, and starts it over. -/

namespace Z80Board

/-! ## Rows of events -/

/-- The events of some machine cycles, of one at least. -/
inductive CycleRow : List Event → Prop where
  | one : CycleRow [.cycleStart, .cycleEnd]
  | more {events : List Event} (h : CycleRow events) :
    CycleRow (events ++ [.cycleStart, .cycleEnd])

/-- The events of some instructions, each with its machine cycles. -/
inductive InstructionRow : List Event → Prop where
  | none : InstructionRow []
  | more {events cycles : List Event} (h : InstructionRow events) (row : CycleRow cycles) :
    InstructionRow (events ++ .instructionStart :: (cycles ++ [.instructionEnd]))

/-- How far the events have come. -/
inductive Progress where
  /-- No instruction is under way. -/
  | boundary
  /-- An instruction has started, and no cycle of it. -/
  | started
  /-- A cycle has started. -/
  | amid
  /-- A cycle has ended. -/
  | paused
deriving DecidableEq, Repr

/-- The events have come so far, from a boundary on. -/
def Progress.Reaches (events : List Event) : Progress → Prop
  | .boundary => InstructionRow events
  | .started => ∃ row, InstructionRow row ∧ events = row ++ [.instructionStart]
  | .amid => ∃ row cycles, InstructionRow row ∧ (cycles = [] ∨ CycleRow cycles)
    ∧ events = row ++ .instructionStart :: (cycles ++ [.cycleStart])
  | .paused => ∃ row cycles, InstructionRow row ∧ CycleRow cycles
    ∧ events = row ++ .instructionStart :: cycles

/-- What the events have come to: how far they are, and how many instructions have ended. -/
structure Account where
  progress : Progress
  completed : Nat

/-- An event that is in order on an edge to the given level, and what it leads to. -/
inductive Account.Admits (level : Level) : Account → Emission → Account → Prop where
  | instructionStart {c : Core} {n : Nat} (counter : c.instructionCounter = n) :
    Admits level ⟨.boundary, n⟩ ⟨.instructionStart, c⟩ ⟨.started, n⟩
  | cycleStart {c : Core} {n : Nat} {before : Progress}
    (due : before = .started ∨ before = .paused) (rising : level = .high)
    (running : c.phase = .running) (counter : c.instructionCounter = n) :
    Admits level ⟨before, n⟩ ⟨.cycleStart, c⟩ ⟨.amid, n⟩
  | cycleEnd {c : Core} {n : Nat} (falling : level = .low) (running : c.phase = .running)
    (counter : c.instructionCounter = n) :
    Admits level ⟨.amid, n⟩ ⟨.cycleEnd, c⟩ ⟨.paused, n⟩
  | instructionEnd {c : Core} {n : Nat} (falling : level = .low)
    (counter : c.instructionCounter = n + 1) :
    Admits level ⟨.paused, n⟩ ⟨.instructionEnd, c⟩ ⟨.boundary, n + 1⟩

/-- Events that are in order on an edge to the given level, one after the other. -/
inductive Account.Tells (level : Level) (a : Account) : List Emission → Account → Prop where
  | nothing : Tells level a [] a
  | another {row : List Emission} {b c : Account} {e : Emission} (h : Tells level a row b)
    (admits : b.Admits level e c) : Tells level a (row ++ [e]) c

namespace Account

variable {a b d : Account} {level : Level} {e : Emission} {row row' : List Emission}

theorem Tells.trans (h : a.Tells level row b) (h' : b.Tells level row' d) :
    a.Tells level (row ++ row') d := by
  induction h' with
  | nothing =>
    rw [List.append_nil]
    exact h
  | another _ admits ih =>
    rw [← List.append_assoc]
    exact ih.another admits

/-- An event that is in order takes the row of events on. -/
theorem Admits.reaches (h : a.Admits level e b) {events : List Event}
    (hreaches : a.progress.Reaches events) : b.progress.Reaches (events ++ [e.event]) := by
  cases h with
  | instructionStart => exact ⟨events, hreaches, rfl⟩
  | cycleStart due =>
    rcases due with rfl | rfl
    · obtain ⟨row, hrow, rfl⟩ := hreaches
      exact ⟨row, [], hrow, Or.inl rfl, by simp⟩
    · obtain ⟨row, cycles, hrow, hcycles, rfl⟩ := hreaches
      exact ⟨row, cycles, hrow, Or.inr hcycles, by simp⟩
  | cycleEnd =>
    obtain ⟨row, cycles, hrow, rfl | hcycles, rfl⟩ := hreaches
    · exact ⟨row, _, hrow, .one, by simp⟩
    · exact ⟨row, _, hrow, hcycles.more, by simp⟩
  | instructionEnd =>
    obtain ⟨row, cycles, hrow, hcycles, rfl⟩ := hreaches
    show InstructionRow _
    rw [List.append_assoc]
    exact hrow.more hcycles

theorem Tells.reaches (h : a.Tells level row b) {events : List Event}
    (hreaches : a.progress.Reaches events) :
    b.progress.Reaches (events ++ row.map Emission.event) := by
  induction h with
  | nothing =>
    rw [List.map_nil, List.append_nil]
    exact hreaches
  | another _ admits ih =>
    rw [List.map_append, ← List.append_assoc]
    exact admits.reaches ih

end Account

/-- Whatever events have come so far, they can go on to a row of whole instructions. -/
theorem Progress.Reaches.completes {progress : Progress} {events : List Event}
    (h : progress.Reaches events) : ∃ rest, InstructionRow (events ++ rest) := by
  cases progress with
  | boundary => exact ⟨[], by rw [List.append_nil]; exact h⟩
  | started =>
    obtain ⟨row, hrow, rfl⟩ := h
    refine ⟨[.cycleStart, .cycleEnd, .instructionEnd], ?_⟩
    rw [List.append_assoc]
    exact hrow.more .one
  | amid =>
    obtain ⟨row, cycles, hrow, rfl | hcycles, rfl⟩ := h
    · refine ⟨[.cycleEnd, .instructionEnd], ?_⟩
      rw [List.append_assoc]
      exact hrow.more .one
    · refine ⟨[.cycleEnd, .instructionEnd], ?_⟩
      have hrows := hrow.more hcycles.more
      simpa using hrows
  | paused =>
    obtain ⟨row, cycles, hrow, hcycles, rfl⟩ := h
    refine ⟨[.instructionEnd], ?_⟩
    rw [List.append_assoc]
    exact hrow.more hcycles

/-! ## The chip between edges -/

namespace Core

variable {c k : Core} {level : Level} {inputs : InputLevels} {emitted : List Emission}

/-- How far the events have come. -/
def progress (c : Core) : Progress :=
  if c.phase = .powerOn ∨ c.phase = .reset ∨ c.boundaryPending = true then .boundary
  else if c.cycle.half = 0 then if c.position = 0 then .started else .paused
  else .amid

/-- What the events have come to. -/
def account (c : Core) : Account :=
  ⟨c.progress, c.instructionCounter⟩

/-- Where no instruction has been chosen, none is under way. -/
theorem account_boundary (h : c.phase = .powerOn ∨ c.phase = .reset ∨ c.boundaryPending = true) :
    c.account = ⟨.boundary, c.instructionCounter⟩ := by
  rw [account, progress, if_pos h]

/-- With its instruction chosen, a chip that has started tells by its place how far it is. -/
theorem progress_chosen (hphase : c.phase = .running ∨ c.phase = .busReleased)
    (hchosen : c.boundaryPending = false) :
    c.progress =
      if c.cycle.half = 0 then if c.position = 0 then .started else .paused else .amid := by
  refine if_neg ?_
  rintro (hpower | hreset | hpending)
  · rw [hpower] at hphase
    exact nomatch hphase
  · rw [hreset] at hphase
    exact nomatch hphase
  · exact nomatch hchosen.symm.trans hpending

/-- Amid a cycle, its end is what is due. -/
theorem account_amid (hphase : c.phase = .running) (hchosen : c.boundaryPending = false)
    (hlater : c.cycle.half ≠ 0) : c.account = ⟨.amid, c.instructionCounter⟩ := by
  rw [account, progress_chosen (Or.inl hphase) hchosen, if_neg hlater]

/-- Before a cycle, its start is what is due. -/
theorem account_first (hphase : c.phase = .running) (hchosen : c.boundaryPending = false)
    (hfirst : c.cycle.half = 0) :
    ∃ before, c.account = ⟨before, c.instructionCounter⟩ ∧ (before = .started ∨ before = .paused) := by
  refine ⟨_, rfl, ?_⟩
  rw [progress_chosen (Or.inl hphase) hchosen, if_pos hfirst]
  split
  · exact Or.inl rfl
  · exact Or.inr rfl

/-- Choosing the next instruction completes none. -/
theorem counter_resolveNext (c : Core) :
    c.resolveNext.instructionCounter = c.instructionCounter := by
  have hleft : c.cleared.leaveHalt.instructionCounter = c.instructionCounter := by
    rw [leaveHalt_eq]
    rfl
  rw [resolveNext_eq, acceptNmi_eq, acceptInt_eq]
  split
  · exact hleft
  split
  · split
    · exact hleft
    split <;> exact hleft
  split <;> rfl

/-- The choice of the next instruction is in order at a boundary. -/
theorem tells_resolveNext (hphase : c.phase = .running ∨ c.phase = .busReleased)
    (hchosen : c.boundaryPending = false) {n : Nat} (hcounter : c.instructionCounter = n) :
    Account.Tells level ⟨.boundary, n⟩ [⟨.instructionStart, c.resolveNext⟩]
      c.resolveNext.account := by
  obtain ⟨hsame, hpending⟩ := phase_resolveNext c
  have hstarts := starts_resolveNext c
  have haccount : c.resolveNext.account = ⟨.started, n⟩ := by
    rw [account, progress_chosen (by rw [hsame]; exact hphase) (hpending.trans hchosen),
      if_pos hstarts.half, if_pos hstarts.position, counter_resolveNext, hcounter]
  rw [haccount]
  exact Account.Tells.nothing.another (.instructionStart ((counter_resolveNext c).trans hcounter))

/-- A chip that is made ready has its instruction chosen, in order. -/
theorem Readied.tells (hready : c.Readied k emitted) (hsound : c.Sound) :
    c.account.Tells level emitted k.account := by
  obtain ⟨-, hphase, hchosen⟩ := hready.underway hsound
  cases hready with
  | running => exact .nothing
  | returned phase chosen =>
    have haccount : c.returnBus.account = c.account := by
      rw [account, account, progress_chosen (Or.inr phase) chosen,
        progress_chosen (Or.inl hphase) hchosen]
      rfl
    rw [haccount]
    exact .nothing
  | @started d phase running =>
    rw [account_boundary (Or.inl phase)]
    subst running
    obtain ⟨-, hpending⟩ := phase_resolveNext { c with phase := .running }
    exact tells_resolveNext (Or.inl rfl) (hpending.symm.trans hchosen) rfl
  | @resolved d phase pending cleared =>
    rw [account_boundary (Or.inr (Or.inr pending))]
    subst cleared
    exact tells_resolveNext (c := { c with boundaryPending := false }) (Or.inl phase) rfl rfl
  | @returnedResolved d phase pending cleared =>
    rw [account_boundary (Or.inr (Or.inr pending))]
    subst cleared
    exact tells_resolveNext (Or.inl rfl) rfl rfl

/-! ## One edge -/

/-- The events that an edge tells are in order, and the end of the edge is the last of them. -/
def Edge.InOrder (e : Edge) (stopping : Bool) (level : Level) (a : Account) : Prop :=
  ∃ row, e.emitted ++ (e.finish stopping).2 = row ++ [⟨.halfTState, (e.finish stopping).1⟩]
    ∧ a.Tells level row (e.finish stopping).1.account

/-- Where nothing ends, nothing more is told. -/
theorem inOrder_idle (h : Account.Tells level a emitted c.account) (stopping : Bool) :
    Edge.InOrder (c.idle emitted) stopping level a :=
  ⟨emitted, rfl, h⟩

/-- A half-period, and the end of the cycle if it was the last one, are told in order. -/
theorem Underway.inOrder {a : Account} (hunderway : c.Underway) (hphase : c.phase = .running)
    (hchosen : c.boundaryPending = false)
    (hhalf : c.cycle.half % 2 = if level = .low then 1 else 0)
    (h : a.Tells level emitted ⟨.amid, c.instructionCounter⟩) (stopping : Bool) :
    Edge.InOrder (c.runEdge emitted) stopping level a := by
  have hran := steady_runHalf (c := c)
  rw [runEdge_eq]
  rcases hunderway.runHalf with ⟨hmore, -⟩ | ⟨hlast, hcloses, -⟩
  · rw [if_neg (Bool.eq_false_iff.mp hmore)]
    refine inOrder_idle ?_ stopping
    have hlater : c.runHalf.1.cycle.half ≠ 0 := by
      have := hunderway.half_runHalf hmore
      omega
    rw [account_amid (hran.phase.trans hphase) (hran.pending.trans hchosen) hlater, hran.counter]
    exact h
  · -- the cycle has an even number of half-periods, so it ends on a falling edge
    have hfalling : level = .low := by
      have hlast' := hcloses.last
      rw [(hunderway.last hlast).2.2.1] at hlast'
      split at hhalf
      · next hlow => exact hlow
      · omega
    have hlatched := hran.trans (steady_latchResult (c := c.runHalf.1))
    have hnext := hlatched.trans (steady_nextCycle _)
    have hclosed := h.another (Account.Admits.cycleEnd hfalling (hlatched.phase.trans hphase)
      hlatched.counter)
    rw [if_pos hlast, endCycle_eq]
    rcases hcloses.next with hgoes | ⟨hend, -⟩
    · rw [if_neg (Bool.eq_false_iff.mp hgoes.more)]
      refine inOrder_idle ?_ stopping
      have hposition : c.runHalf.1.latchResult.nextCycle.1.position ≠ 0 := by
        rw [position_next]
        exact Nat.succ_ne_zero _
      rw [account, progress_chosen (Or.inl (hnext.phase.trans hphase)) (hnext.pending.trans hchosen),
        if_pos hgoes.first, if_neg hposition, hnext.counter]
      exact hclosed
    · rw [if_pos hend]
      have hended := hclosed.another (Account.Admits.instructionEnd
        (c := c.runHalf.1.latchResult.nextCycle.1.complete) hfalling
        (congrArg (· + 1) hnext.counter))
      cases stopping with
      | true =>
        refine ⟨_, rfl, ?_⟩
        show Account.Tells level a _ ({ c.runHalf.1.latchResult.nextCycle.1.complete with
          boundaryPending := true } : Core).account
        rw [account_boundary (Or.inr (Or.inr rfl))]
        show Account.Tells level a _
          ⟨.boundary, c.runHalf.1.latchResult.nextCycle.1.instructionCounter + 1⟩
        rw [hnext.counter]
        exact hended
      | false =>
        refine ⟨_, (List.append_assoc _ [_] [_]).symm, hended.trans ?_⟩
        exact tells_resolveNext (c := c.runHalf.1.latchResult.nextCycle.1.complete)
          (Or.inl (hnext.phase.trans hphase)) (hnext.pending.trans hchosen)
          (congrArg (· + 1) hnext.counter)

/-- Every edge tells its events in order, unless it resets the chip. -/
theorem InStep.inOrder (h : c.InStep level) (hsound : c.Sound)
    (hreset : inputs.reset.isAsserted = false) (stopping : Bool) :
    Edge.InOrder (c.edge level.flip inputs) stopping level.flip c.account := by
  have hsampled := (hsound.sampleInputs inputs).leaveReset
  have haccount : (c.sampleInputs inputs).leaveReset.account = c.account := by
    rw [leaveReset]
    split
    · next hphase =>
      rw [account_boundary (c := c) (Or.inr (Or.inl hphase)), account_boundary (Or.inl rfl)]
      rfl
    · rfl
  have hengaged (k : Core) (hk : c.engaged level.flip inputs = some k) :
      k.cycle.half % 2 = if level.flip = .low then 1 else 0 := h.engaged hsound hk
  have hturn := c.turn level.flip inputs
  generalize c.engaged level.flip inputs = engaged at hturn hengaged
  generalize c.edge level.flip inputs = e at hturn ⊢
  cases hturn with
  | resets reset => exact absurd (hreset.symm.trans reset) Bool.false_ne_true
  | passes sampled phase =>
    refine inOrder_idle ?_ stopping
    rw [sampled, haccount]
    exact .nothing
  | @grants k emitted ready first =>
    refine inOrder_idle ?_ stopping
    obtain ⟨-, hphase, hchosen⟩ := ready.underway hsampled
    have hreleased : k.releaseBus.account = k.account := by
      rw [account, account, progress_chosen (c := k.releaseBus) (Or.inr rfl) hchosen,
        progress_chosen (Or.inl hphase) hchosen]
      rfl
    rw [hreleased, ← haccount]
    exact ready.tells hsampled
  | @begins k emitted ready first =>
    obtain ⟨hunderway, hphase, hchosen⟩ := ready.underway hsampled
    have hhalf := hengaged k rfl
    -- a cycle starts on a rising edge, since its half-periods and the levels run in step
    have hrising : level.flip = .high := by
      rw [first] at hhalf
      cases hflip : level.flip with
      | low => rw [hflip] at hhalf; exact absurd hhalf (by decide)
      | high => rfl
    obtain ⟨before, hbefore, hdue⟩ := account_first hphase hchosen first
    have htold : Account.Tells level.flip _ emitted k.account := ready.tells hsampled
    rw [haccount, hbefore] at htold
    exact hunderway.inOrder hphase hchosen hhalf
      (htold.another (.cycleStart hdue hrising hphase rfl)) stopping
  | @continues k emitted ready later =>
    obtain ⟨hunderway, hphase, hchosen⟩ := ready.underway hsampled
    have htold : Account.Tells level.flip _ emitted k.account := ready.tells hsampled
    rw [haccount, account_amid hphase hchosen later] at htold
    exact hunderway.inOrder hphase hchosen (hengaged k rfl) htold stopping

/-- An edge with RESET tells nothing but its end, and no instruction is under way after it. -/
theorem edge_resets (c : Core) (level : Level) (hreset : inputs.reset.isAsserted = true)
    (stopping : Bool) :
    (c.edge level inputs).emitted ++ ((c.edge level inputs).finish stopping).2
        = [⟨.halfTState, ((c.edge level inputs).finish stopping).1⟩]
      ∧ ((c.edge level inputs).finish stopping).1.account = ⟨.boundary, c.instructionCounter⟩ := by
  rw [edge_eq, if_pos hreset]
  exact ⟨rfl, rfl⟩

end Core

end Z80Board
