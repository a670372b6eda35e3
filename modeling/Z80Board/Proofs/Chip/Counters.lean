import Z80Board.Proofs.Chip.Afresh
import Z80Board.Proofs.Chip.Lifecycle
import Z80Board.Proofs.Chip.Standstill

/-! # The counters of a cycle

    A chip counts the edges of the cycle in progress, the waits in it, the instructions, and all edges.
    Here they are compared with counts that have no bounds, kept beside the chip on any run.

    The waits are counted up to 255 and stay there, and the count of all edges is exact.  The edges of
    a cycle are counted modulo 2 ^ 32: what the chip shows of them is right for that many edges, and a
    cycle that WAIT holds for longer starts over. -/

namespace Z80Board

/-- Counts without bounds: the edges that have run a half-period of the cycle in progress, the waits
    put into it, and all edges. -/
structure Counts where
  edges : Nat := 0
  waits : Nat := 0
  total : Nat := 0

/-- One more edge, with the chip that it engages.  The first half-period of a cycle begins its
    counts. -/
def Counts.edge (n : Counts) : Option Core → Counts
  | none => { n with total := n.total + 1 }
  | some k =>
    if k.cycle.half = 0 then { edges := 1, waits := 0, total := n.total + 1 }
    else { edges := n.edges + 1, waits := n.waits + k.waits.toNat, total := n.total + 1 }

theorem Counts.total_edge (n : Counts) (engaged : Option Core) :
    (n.edge engaged).total = n.total + 1 := by
  cases engaged with
  | none => rfl
  | some k =>
    rw [Counts.edge]
    split <;> rfl

/-- A run of the chip from power-on, with the counts.  Between edges anybody may drive the data bus,
    and the host may change the registers. -/
inductive Counted : Core → Counts → Prop where
  | powerOn (address : Bus Word) (data : Bus Byte) : Counted (.powerOn address data) {}
  | edge {c : Core} {n : Counts} (h : Counted c n) (level : Level) (inputs : InputLevels)
    (stopping : Bool) :
    Counted ((c.edge level inputs).finish stopping).1 (n.edge (c.engaged level inputs))
  | data {c : Core} {n : Counts} (h : Counted c n) (data : Bus Byte) : Counted { c with data } n
  | regs {c : Core} {n : Counts} (h : Counted c n) (f : Registers → Registers) :
    Counted (c.modifyRegs f) n

namespace Core

variable {c k : Core} {n : Counts} {level : Level} {inputs : InputLevels}

/-- A cycle that is yet to begin has counted nothing, and one in progress has counted its edges modulo
    2 ^ 32 and its waits up to 255. -/
structure Counting (c : Core) (n : Counts) : Prop where
  fresh : c.cycle.half = 0 → c.cycle.edges = 0 ∧ c.cycle.waitStates = 0
  edges : c.cycle.half ≠ 0 → c.cycle.edges.toNat = n.edges % 2 ^ 32
  waits : c.cycle.half ≠ 0 → c.cycle.waitStates = min 255 n.waits

/-- The chip has a cycle, begun or not. -/
def HasCycle (c : Core) : Prop :=
  c.phase = .running ∧ c.boundaryPending = false ∨ c.phase = .busReleased

/-- What the counts say of the chip between edges. -/
structure Accounted (c : Core) (n : Counts) : Prop where
  cycle : c.HasCycle → c.Counting n
  time : c.halfTStates = n.total
  instructions : c.instructionCounter ≤ n.total

theorem edges_runHalf : c.runHalf.1.cycle.edges = c.cycle.edges + 1 := by
  have hpattern : (c.countEdge.patternHalf c.cycle.half).1.standing = c.countEdge.standing :=
    standing_patternHalf
  simp only [standing, Prod.mk.injEq] at hpattern
  obtain ⟨-, -, -, hcount⟩ := hpattern
  rw [runHalf_eq]
  dsimp only
  split
  · exact hcount
  · split <;> exact hcount

/-- A cycle that goes on has begun. -/
theorem Underway.later_runHalf (h : k.Underway) (hmore : k.runHalf.2 = false) :
    k.runHalf.1.cycle.half ≠ 0 := by
  rcases h.half_runHalf hmore with ⟨-, hnext⟩ | ⟨-, hback, ⟨hthree, -⟩ | ⟨hfive, -⟩⟩ <;> omega

/-- A half-period that leaves the cycle unfinished is counted. -/
theorem Underway.counting (h : k.Underway) (hmore : k.runHalf.2 = false) (hcounts : k.Counting n) :
    k.runHalf.1.Counting (n.edge (some k)) := by
  have hedges := edges_runHalf (c := k)
  have hwaits := waitStates_runHalf (c := k)
  have hhalf := h.half_runHalf hmore
  have hlater := h.later_runHalf hmore
  refine ⟨fun hzero => absurd hzero hlater, fun _ => ?_, fun _ => ?_⟩ <;>
    by_cases hfirst : k.cycle.half = 0
  · rw [hedges, (hcounts.fresh hfirst).1, Counts.edge, if_pos hfirst]
    rfl
  · rw [hedges, UInt32.toNat_add, hcounts.edges hfirst, Counts.edge, if_neg hfirst]
    show (n.edges % 2 ^ 32 + 1) % 2 ^ 32 = (n.edges + 1) % 2 ^ 32
    omega
  · have hgoes : k.waits = false := by
      rcases hhalf with ⟨hgoes, -⟩ | ⟨-, -, ⟨hthree, -⟩ | ⟨hfive, -⟩⟩
      · exact hgoes
      · omega
      · omega
    rw [hwaits, hgoes, if_neg Bool.false_ne_true, (hcounts.fresh hfirst).2, Counts.edge,
      if_pos hfirst]
    rfl
  · rw [hwaits, hcounts.waits hfirst, Counts.edge, if_neg hfirst]
    cases k.waits with
    | true =>
      show min 255 (min 255 n.waits + 1) = min 255 (n.waits + 1)
      omega
    | false => rfl

theorem counting_beginCycle (kind : CycleKind) (length : Nat) :
    (c.beginCycle kind length).Counting n :=
  ⟨fun _ => ⟨rfl, rfl⟩, fun hlater => absurd rfl hlater, fun hlater => absurd rfl hlater⟩

theorem counting_resolveNext (c : Core) : c.resolveNext.Counting n := by
  obtain ⟨d, length, hnext, -⟩ := c.resolveNext_begins
  rw [hnext]
  exact counting_beginCycle _ _

/-- The cycle after the finished one has counted nothing either. -/
theorem counting_nextCycle (hmore : c.nextCycle.2 = false) : c.nextCycle.1.Counting n := by
  cases hcode : c.instruction with
  | none =>
    rw [nextCycle_of_none hcode]
    cases c.chain <;> exact counting_beginCycle _ _
  | some code =>
    rw [nextCycle_of_some hcode] at hmore ⊢
    cases hnext : c.cycles[c.position + 1]? with
    | none =>
      rw [hnext] at hmore
      cases hmore
    | some next => exact counting_beginCycle _ _

theorem Counting.congr {d : Core} (h : c.Counting n) (hcycle : d.cycle = c.cycle) :
    d.Counting n := by
  refine ⟨?_, ?_, ?_⟩ <;> rw [hcycle]
  · exact h.fresh
  · exact h.edges
  · exact h.waits

/-- A chip that is made ready has counted what it had, or begins a cycle. -/
theorem Readied.counting {emitted : List Emission} (hready : c.Readied k emitted)
    (h : c.HasCycle → c.Counting n) : k.Counting n := by
  cases hready with
  | running phase chosen => exact h (Or.inl ⟨phase, chosen⟩)
  | returned phase => exact (h (Or.inr phase)).congr rfl
  | started | resolved | returnedResolved => exact counting_resolveNext _

/-- Choosing the next instruction takes no edge. -/
theorem time_resolveNext (c : Core) : c.resolveNext.halfTStates = c.halfTStates :=
  congrArg (fun moorings => moorings.2.2) (moorings_resolveNext (c := c))

/-- Making ready neither takes an edge nor completes an instruction. -/
theorem Readied.counters {emitted : List Emission} (hready : c.Readied k emitted) :
    k.halfTStates = c.halfTStates ∧ k.instructionCounter = c.instructionCounter := by
  cases hready with
  | running | returned => exact ⟨rfl, rfl⟩
  | @started d _ hd | @resolved d _ _ hd | @returnedResolved d _ _ hd =>
    subst hd
    exact ⟨time_resolveNext _, counter_resolveNext _⟩

/-- A half-period, with the end of its cycle. -/
theorem Underway.accounted (h : k.Underway) (hphase : k.phase = .running)
    (hcounts : k.Counting n) (htime : k.halfTStates = n.total + 1)
    (hcounter : k.instructionCounter ≤ n.total) (emitted : List Emission) (stopping : Bool) :
    ((k.runEdge emitted).finish stopping).1.Accounted (n.edge (some k)) := by
  have htotal := n.total_edge (some k)
  have hrun := steady_runHalf (c := k)
  have hnext := hrun.trans (steady_latchResult.trans (steady_nextCycle _))
  rw [runEdge_eq, endCycle_eq]
  cases hlast : k.runHalf.2 with
  | false =>
    refine ⟨fun _ => h.counting hlast hcounts, ?_, ?_⟩
    · exact (hrun.time.trans htime).trans htotal.symm
    · rw [htotal]
      exact Nat.le_succ_of_le (Nat.le_trans (Nat.le_of_eq hrun.counter) hcounter)
  | true =>
    rw [if_pos rfl]
    cases hend : k.runHalf.1.latchResult.nextCycle.2 with
    | false =>
      refine ⟨fun _ => counting_nextCycle hend, ?_, ?_⟩
      · exact (hnext.time.trans htime).trans htotal.symm
      · rw [htotal]
        exact Nat.le_succ_of_le (Nat.le_trans (Nat.le_of_eq hnext.counter) hcounter)
    | true =>
      have hcompleted : k.runHalf.1.latchResult.nextCycle.1.complete.instructionCounter
          ≤ (n.edge (some k)).total := by
        rw [htotal]
        exact Nat.succ_le_succ (Nat.le_trans (Nat.le_of_eq hnext.counter) hcounter)
      have htime' : k.runHalf.1.latchResult.nextCycle.1.complete.halfTStates
          = (n.edge (some k)).total := (hnext.time.trans htime).trans htotal.symm
      cases stopping with
      | true =>
        refine ⟨?_, htime', hcompleted⟩
        rintro (⟨-, hchosen⟩ | hreleased)
        · cases hchosen
        · have hrunning : k.runHalf.1.latchResult.nextCycle.1.phase = .running :=
            hnext.phase.trans hphase
          cases hrunning.symm.trans hreleased
      | false =>
        refine ⟨fun _ => counting_resolveNext _, ?_, ?_⟩
        · exact (time_resolveNext _).trans htime'
        · exact Nat.le_trans (Nat.le_of_eq (counter_resolveNext _)) hcompleted

/-- Every edge is accounted for. -/
theorem Accounted.edge (h : c.Accounted n) (hsound : c.Sound) (level : Level)
    (inputs : InputLevels) (stopping : Bool) :
    ((c.edge level inputs).finish stopping).1.Accounted (n.edge (c.engaged level inputs)) := by
  have hsound' := (hsound.sampleInputs inputs).leaveReset
  have hsampled : ((c.sampleInputs inputs).leaveReset.HasCycle →
        (c.sampleInputs inputs).leaveReset.Counting n)
      ∧ (c.sampleInputs inputs).leaveReset.halfTStates = n.total + 1
      ∧ (c.sampleInputs inputs).leaveReset.instructionCounter ≤ n.total := by
    rw [leaveReset]
    split
    · refine ⟨?_, congrArg (· + 1) h.time, h.instructions⟩
      rintro (⟨hother, -⟩ | hother) <;> cases hother
    · exact ⟨fun hcycle => (h.cycle hcycle).congr rfl, congrArg (· + 1) h.time, h.instructions⟩
  obtain ⟨hcycle, htime, hcounter⟩ := hsampled
  have hturn := c.turn level inputs
  generalize c.engaged level inputs = engaged at hturn ⊢
  generalize c.edge level inputs = e at hturn ⊢
  cases hturn with
  | resets =>
    refine ⟨?_, congrArg (· + 1) h.time, Nat.le_succ_of_le h.instructions⟩
    rintro (⟨hother, -⟩ | hother) <;> cases hother
  | passes sampled =>
    subst sampled
    exact ⟨fun hhas => ⟨(hcycle hhas).fresh, (hcycle hhas).edges, (hcycle hhas).waits⟩, htime,
      Nat.le_succ_of_le hcounter⟩
  | grants ready first =>
    obtain ⟨htime', hcounter'⟩ := ready.counters
    refine ⟨fun _ => ⟨(ready.counting hcycle).fresh, fun hlater => absurd first hlater,
      fun hlater => absurd first hlater⟩, htime'.trans htime, ?_⟩
    exact Nat.le_succ_of_le (Nat.le_trans (Nat.le_of_eq hcounter') hcounter)
  | begins ready | continues ready =>
    obtain ⟨hunderway, hphase, -⟩ := ready.underway hsound'
    obtain ⟨htime', hcounter'⟩ := ready.counters
    exact hunderway.accounted hphase (ready.counting hcycle) (htime'.trans htime)
      (Nat.le_trans (Nat.le_of_eq hcounter') hcounter) _ stopping

end Core

namespace Counted

variable {c k : Core} {n : Counts} {level : Level} {inputs : InputLevels}

theorem sound (h : Counted c n) : c.Sound := by
  induction h with
  | powerOn address data => exact Core.sound_powerOn address data
  | edge _ level inputs stopping ih => exact (ih.edge level inputs).finish stopping
  | data _ data ih => exact ih.withData data
  | regs _ f ih => exact ih.modifyRegs f

/-- On every run the chip is accounted for. -/
theorem accounted (h : Counted c n) : c.Accounted n := by
  induction h with
  | powerOn =>
    refine ⟨?_, rfl, Nat.le_refl 0⟩
    rintro (⟨hother, -⟩ | hother) <;> cases hother
  | edge h level inputs stopping ih => exact ih.edge h.sound level inputs stopping
  | data _ data ih => exact ⟨fun hcycle => (ih.cycle hcycle).congr rfl, ih.time, ih.instructions⟩
  | regs _ f ih => exact ⟨fun hcycle => (ih.cycle hcycle).congr rfl, ih.time, ih.instructions⟩

/-- On every run, after an edge that has run a half-period of a cycle that is still going on, the chip
    shows the waits in it up to 255, and half its edges modulo 2 ^ 32 up to 255, which is half its
    edges up to 255 as long as there are fewer than 2 ^ 32.  The waits never become fewer within a
    cycle, and the periods do so only when the edges come to 2 ^ 32.  Of all edges the chip keeps an
    exact count, and its instructions are no more than they are. -/
theorem shows_counts (h : Counted c n) (hruns : c.engaged level inputs = some k)
    (hmore : k.runHalf.2 = false) (stopping : Bool) :
    let after := ((c.edge level inputs).finish stopping).1
    let now := n.edge (c.engaged level inputs)
    after.snapshot.waitStates = min 255 now.waits
      ∧ after.snapshot.cycleTStates = min 255 (now.edges % 2 ^ 32 / 2)
      ∧ (now.edges < 2 ^ 32 → after.snapshot.cycleTStates = min 255 (now.edges / 2))
      ∧ (k.cycle.half ≠ 0 → c.snapshot.waitStates ≤ after.snapshot.waitStates
        ∧ (now.edges < 2 ^ 32 → c.snapshot.cycleTStates ≤ after.snapshot.cycleTStates))
      ∧ after.snapshot.halfTStates = now.total
      ∧ after.snapshot.instructionCounter ≤ now.total := by
  intro after now
  have hcounted := (h.edge level inputs stopping).accounted
  have hk := h.sound.engages hruns
  obtain ⟨emitted, hedge⟩ := Core.edge_of_engaged hruns
  have hafter : after = k.runHalf.1 := by
    show ((c.edge level inputs).finish stopping).1 = _
    rw [hedge, Core.runEdge_eq, hmore, if_neg Bool.false_ne_true]
    rfl
  have hlater : after.cycle.half ≠ 0 := by
    rw [hafter]
    exact hk.underway.later_runHalf hmore
  have hcycle : after.Counting now := by
    refine hcounted.cycle (Or.inl ⟨?_, ?_⟩)
    · exact (congrArg Core.phase hafter).trans (Core.steady_runHalf.phase.trans hk.phase)
    · exact (congrArg Core.boundaryPending hafter).trans
        (Core.steady_runHalf.pending.trans hk.chosen)
  have hwaits : after.snapshot.waitStates = min 255 now.waits := hcycle.waits hlater
  have hperiods : after.snapshot.cycleTStates = min 255 (now.edges % 2 ^ 32 / 2) := by
    rw [← hcycle.edges hlater]
    rfl
  refine ⟨hwaits, hperiods, fun hfew => ?_, fun hbegun => ?_, hcounted.time, hcounted.instructions⟩
  · rw [hperiods, Nat.mod_eq_of_lt hfew]
  · obtain ⟨hsame, hphase, hchosen⟩ := hk.amid hbegun
    have hbegun' : c.cycle.half ≠ 0 := by
      rw [hsame] at hbegun
      exact hbegun
    have hbefore := h.accounted.cycle (Or.inl ⟨hphase, hchosen⟩)
    have hwaits' : c.snapshot.waitStates = min 255 n.waits := hbefore.waits hbegun'
    have hperiods' : c.snapshot.cycleTStates = min 255 (n.edges % 2 ^ 32 / 2) := by
      rw [← hbefore.edges hbegun']
      rfl
    have hnow : now = ⟨n.edges + 1, n.waits + k.waits.toNat, n.total + 1⟩ := by
      show n.edge (c.engaged level inputs) = _
      rw [hruns, Counts.edge, if_neg hbegun]
    rw [hwaits, hperiods, hwaits', hperiods', hnow]
    dsimp only
    refine ⟨by omega, fun hfew => by omega⟩

end Counted

/-! ## A long wait -/

/-- The chip after some edges from power-on, all of them with WAIT asserted. -/
def waited : Nat → Core
  | 0 => .powerOn (.released 0xFFFF) (.released 0xFF)
  | count + 1 =>
    (((waited count).edge (.ofBool (count % 2 == 0)) { wait := .asserted }).finish false).1

/-- The counts after these edges. -/
def waitedCounts : Nat → Counts
  | 0 => {}
  | count + 1 =>
    (waitedCounts count).edge ((waited count).engaged (.ofBool (count % 2 == 0))
      { wait := .asserted })

theorem counted_waited (count : Nat) : Counted (waited count) (waitedCounts count) := by
  induction count with
  | zero => exact .powerOn _ _
  | succ count ih => exact ih.edge _ _ _

/-- The first fetch is still going on, and every edge has run a half-period of it. -/
theorem lingers_waited (count : Nat) :
    (waited (count + 2)).Lingers ∧ (waitedCounts (count + 2)).edges = count + 2 := by
  induction count with
  | zero =>
    refine ⟨⟨?_, ?_, ?_, ?_, ?_⟩, ?_⟩ <;> decide +kernel
  | succ count ih =>
    obtain ⟨hlingers, hedges⟩ := ih
    have hsound := (counted_waited (count + 2)).sound
    have hreset : ({ wait := .asserted } : InputLevels).reset.isAsserted = false := rfl
    refine ⟨?_, ?_⟩
    · have hedge : ∃ d : Core, (waited (count + 2)).edge (.ofBool ((count + 2) % 2 == 0))
          { wait := .asserted } = d.idle [] ∧ d.stilled = (waited (count + 2)).stilled ∧ d.Lingers :=
        hlingers.edge hsound hreset fun _ => rfl
      obtain ⟨d, hidle, -, hnext⟩ := hedge
      rw [waited, hidle]
      exact hnext
    · have hlater : ((waited (count + 2)).sampleInputs { wait := .asserted }).cycle.half ≠ 0 :=
        hlingers.later
      rw [waitedCounts, hlingers.engaged_eq hreset, Counts.edge, if_neg hlater]
      show (waitedCounts (count + 2)).edges + 1 = _
      rw [hedges]

/-- What the chip shows of the periods of this fetch. -/
theorem periods_waited (count : Nat) :
    (waited (count + 2)).snapshot.cycleTStates = min 255 ((count + 2) % 2 ^ 32 / 2) := by
  obtain ⟨hlingers, hedges⟩ := lingers_waited count
  have hcycle := (counted_waited (count + 2)).accounted.cycle
    (Or.inl ⟨hlingers.phase, hlingers.chosen⟩)
  have hcounted := hcycle.edges hlingers.later
  rw [hedges] at hcounted
  show min 255 ((waited (count + 2)).cycle.edges.toNat / 2) = _
  rw [hcounted]

/-- The eighth edge of the fetch finds WAIT asserted for the third time: four periods and three waits
    show. -/
theorem shows_counts_waited :
    ∃ k, (waited 7).engaged .low { wait := .asserted } = some k ∧ k.runHalf.2 = false
      ∧ (((waited 7).edge .low { wait := .asserted }).finish false).1.snapshot.waitStates = 3
      ∧ (((waited 7).edge .low { wait := .asserted }).finish false).1.snapshot.cycleTStates = 4 := by
  have hreset : ({ wait := .asserted } : InputLevels).reset.isAsserted = false := rfl
  have hengaged : (waited 7).engaged .low { wait := .asserted }
      = some ((waited 7).sampleInputs { wait := .asserted }) :=
    (lingers_waited 5).1.engaged_eq hreset
  have hmore : ((waited 7).sampleInputs { wait := .asserted }).runHalf.2 = false := by
    decide +kernel
  obtain ⟨hwaits, -, hperiods, -⟩ :=
    (counted_waited 7).shows_counts hengaged hmore false
  rw [hengaged] at hwaits hperiods
  refine ⟨_, hengaged, hmore, ?_, ?_⟩
  · rw [hwaits]
    decide +kernel
  · rw [hperiods (by decide +kernel)]
    decide +kernel

/-- When the fetch has been held for 2 ^ 32 edges, the chip shows no period of it. -/
theorem long_wait_starts_over :
    Counted (waited (2 ^ 32)) (waitedCounts (2 ^ 32))
      ∧ (waited (2 ^ 32)).Lingers
      ∧ (waitedCounts (2 ^ 32)).edges = 2 ^ 32
      ∧ (waited (2 ^ 32)).snapshot.cycleTStates = 0
      ∧ (waited (2 ^ 32)).snapshot.cycleTStates < (waited (2 ^ 32 - 1)).snapshot.cycleTStates
      ∧ (waited (2 ^ 32)).snapshot.cycleTStates ≠ min 255 ((waitedCounts (2 ^ 32)).edges / 2) := by
  have hsplit : 2 ^ 32 = (2 ^ 32 - 2) + 2 := rfl
  have hbefore : 2 ^ 32 - 1 = (2 ^ 32 - 3) + 2 := rfl
  obtain ⟨hlingers, hedges⟩ := lingers_waited (2 ^ 32 - 2)
  have hnone := periods_waited (2 ^ 32 - 2)
  have hmany := periods_waited (2 ^ 32 - 3)
  rw [← hsplit] at hlingers hedges hnone
  rw [← hbefore] at hmany
  refine ⟨counted_waited _, hlingers, hedges, hnone, ?_, ?_⟩
  · rw [hnone, hmany]
    decide
  · rw [hnone, hedges]
    decide

end Z80Board
