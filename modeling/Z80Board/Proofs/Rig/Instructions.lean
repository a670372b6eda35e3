import Z80Board.Proofs.Chip.Afresh
import Z80Board.Proofs.Rig.Scenes

/-! # An instruction at a time

    Cycle by cycle a chip comes from the start of an instruction to its end, and memory with it.  A
    board that plays the first cycle plays the others in turn, until the instruction is complete.
    Then the next one is chosen at once, unless somebody has asked to stop: then it is chosen on the
    edge that goes on. -/

namespace Z80Board

namespace Core

variable {config : BoardConfig} {elsewhere : Byte → Prop} {bytes : Array Byte} {c d : Core}
  {level : Level} {inputs : InputLevels}

/-! ## Cycles in a row -/

/-- From the start of one cycle, over these bytes, the chip comes to the start of a later cycle of the
    same instruction. -/
inductive Advances (config : BoardConfig) (elsewhere : Byte → Prop) (bytes : Array Byte) (c : Core) :
    Core → Array Byte → Prop where
  | start : Advances config elsewhere bytes c c bytes
  | cycle {d : Core} {now : Array Byte} {byte : Byte}
    (h : Advances config elsewhere bytes c d now) (takes : d.Takes config elsewhere now byte)
    (goes : (d.closed byte).2 = false) :
    Advances config elsewhere bytes c (d.closed byte).1 (d.leftBytes config now)

/-- The chip when the instruction is complete, and the bytes of memory then. -/
inductive Performs (config : BoardConfig) (elsewhere : Byte → Prop) (bytes : Array Byte) (c : Core) :
    Core → Array Byte → Prop where
  | ends {d : Core} {now : Array Byte} {byte : Byte}
    (h : Advances config elsewhere bytes c d now) (takes : d.Takes config elsewhere now byte)
    (ends : (d.closed byte).2 = true) :
    Performs config elsewhere bytes c (d.closed byte).1.complete (d.leftBytes config now)

/-! ## No new NMI -/

/-- A choice leaves no NMI waiting. -/
theorem nmiPending_resolveNext (c : Core) : c.resolveNext.nmiPending = false := by
  rw [resolveNext_eq]
  split
  · rfl
  · next hnmi =>
    have hleft : c.cleared.leaveHalt.nmiPending = false := by
      rw [leaveHalt_eq]
      exact Bool.eq_false_iff.mpr hnmi
    split
    · rw [acceptInt_eq]
      split
      · exact hleft
      split <;> exact hleft
    split <;> exact Bool.eq_false_iff.mpr hnmi

theorem Readied.nmiPending {k : Core} {emitted : List Emission} (h : c.Readied k emitted)
    (hnmi : c.nmiPending = false) : k.nmiPending = false := by
  cases h with
  | running | returned => exact hnmi
  | started | resolved | returnedResolved => exact nmiPending_resolveNext _

theorem nmiPending_runEdge (emitted : List Emission) :
    (c.runEdge emitted).core.nmiPending = c.nmiPending := by
  rw [runEdge_eq, endCycle_eq]
  have hclosed : c.runHalf.1.latchResult.nextCycle.1.nmiPending = c.nmiPending :=
    (steady_runHalf.trans (steady_latchResult.trans (steady_nextCycle _))).nmiPending
  split
  · split
    · exact hclosed
    · exact hclosed
  · exact steady_runHalf.nmiPending

theorem nmiPending_advance (emitted : List Emission) :
    (c.advance emitted).core.nmiPending = c.nmiPending := by
  rw [advance]
  split
  · split
    · rfl
    · exact nmiPending_runEdge _
  · exact nmiPending_runEdge _

/-- An edge that senses no new NMI leaves none waiting. -/
theorem nmiPending_edge (hnmi : (c.sampleInputs inputs).nmiPending = false) :
    (c.edge level inputs).core.nmiPending = false := by
  have hsampled : (c.sampleInputs inputs).leaveReset.nmiPending = false := by
    rw [leaveReset]
    split <;> exact hnmi
  have hturn := c.turn level inputs
  generalize c.engaged level inputs = engaged at hturn
  generalize c.edge level inputs = e at hturn ⊢
  cases hturn with
  | resets => rfl
  | passes sampled => exact sampled ▸ hsampled
  | grants ready => exact ready.nmiPending hsampled
  | begins ready | continues ready =>
    exact (nmiPending_runEdge _).trans (ready.nmiPending hsampled)

end Core

/-! ## The board amid an instruction -/

namespace Board

variable {config : BoardConfig} {elsewhere : Byte → Prop} {bytes : Array Byte} {b : Board}
  {c k p : Core} {level : Level}

/-- The board is on its way through the instruction that the chip `c` starts over these bytes. -/
inductive Performing (config : BoardConfig) (elsewhere : Byte → Prop) (bytes : Array Byte) (c : Core)
    (b : Board) : Prop where
  | amid {d : Core} {now : Array Byte} (advances : c.Advances config elsewhere bytes d now)
    (plays : b.Plays config elsewhere now d) : Performing config elsewhere bytes c b

/-- An edge completes the instruction. -/
inductive Completing (config : BoardConfig) (elsewhere : Byte → Prop) (bytes : Array Byte) (c : Core)
    (b : Board) (level : Level) : Prop where
  | edge {e : Core} {left : Array Byte} (performs : c.Performs config elsewhere bytes e left)
    (logic : (b.core.edge level b.inputs).core.logic = e.logic)
    (memory : (b.edge level).1.memory.bytes = left) : Completing config elsewhere bytes c b level

/-- Unless it resets the chip, an edge goes on with the instruction or completes it. -/
theorem Performing.edge (h : b.Performing config elsewhere bytes c)
    (hreset : b.host.reset.isAsserted = false) (hsupplies : b.Supplies elsewhere level) :
    ((b.core.edge level b.inputs).ended = false
        ∧ (b.edge level).1.Performing config elsewhere bytes c)
      ∨ ((b.core.edge level b.inputs).ended = true
        ∧ b.Completing config elsewhere bytes c level) := by
  obtain ⟨advances, plays⟩ := h
  rcases plays.edge hreset hsupplies with ⟨hgoes, hplays⟩ | ⟨byte, hends⟩
  · exact Or.inl ⟨hgoes, advances, hplays⟩
  · have hlogic := hends.logic
    cases hend : (Core.closed _ byte).2 with
    | false =>
      exact Or.inl ⟨hends.ended.trans hend, advances.cycle hends.takes hend, hends.goes hend⟩
    | true =>
      rw [hend, if_pos rfl] at hlogic
      exact Or.inr ⟨hends.ended.trans hend, .ends advances hends.takes hend, hlogic, hends.left⟩

theorem Performing.orderly (h : b.Performing config elsewhere bytes c) : b.Orderly config := by
  obtain ⟨-, plays⟩ := h
  exact plays.orderly

theorem Performing.amid_core (h : b.Performing config elsewhere bytes c) : b.core.Amid := by
  obtain ⟨-, plays⟩ := h
  exact plays.amid

/-- The host may drive the pins and follow the chip. -/
theorem Orderly.set (h : b.Orderly config) (host : InputLevels) (hooks : Hooks) :
    ({ b with host, processor.hooks := hooks } : Board).Orderly config := by
  obtain ⟨hsound, hphased, hdriving, hturned, hfits⟩ := h
  exact ⟨hsound, hphased, hdriving, hturned, hfits⟩

theorem Plays.set (h : b.Plays config elsewhere bytes c) (host : InputLevels) (hooks : Hooks) :
    ({ b with host, processor.hooks := hooks } : Board).Plays config elsewhere bytes c := by
  obtain ⟨horderly, hamid, htaken, t, hcarries, haddress, hstores⟩ := h
  obtain ⟨hsettled, hfits, hbytes, hput, hin⟩ := hcarries
  exact ⟨horderly.set host hooks, hamid, htaken, t,
    ⟨⟨hsettled.sound, hsettled.staged, hsettled.driving, hsettled.asked, hsettled.given,
      hsettled.turned⟩, hfits, hbytes, hput, hin⟩, haddress, hstores⟩

theorem Performing.set (h : b.Performing config elsewhere bytes c) (host : InputLevels)
    (hooks : Hooks) :
    ({ b with host, processor.hooks := hooks } : Board).Performing config elsewhere bytes c := by
  obtain ⟨advances, plays⟩ := h
  exact ⟨advances, plays.set host hooks⟩

/-! ## From one instruction to the next -/

/-- Somebody has asked to stop after the instruction that has led to the chip `p`. -/
structure Stopped (config : BoardConfig) (p : Core) (b : Board) : Prop where
  orderly : b.Orderly config
  pending : b.core.boundaryPending = true
  logic : b.core.logic = p.logic

/-- At the end of an instruction the next one starts, or the board stops. -/
theorem Orderly.boundary (h : b.Orderly config)
    (hended : (b.core.edge level b.inputs).ended = true) :
    (b.edge level).1.Stopped config (b.core.edge level b.inputs).core
      ∨ (b.edge level).1.Plays config elsewhere (b.edge level).1.memory.bytes
        (b.core.edge level b.inputs).core.resolveNext := by
  obtain ⟨stopping, hstep⟩ := b.moved_eq level
  obtain ⟨-, -, hcore⟩ := b.edge_parts level
  have hsound := h.sound.edge level b.inputs
  rw [Core.Edge.Sound, if_pos hended] at hsound
  obtain ⟨-, hphase, hchosen⟩ := hsound
  rw [Edge.finish, if_pos hended] at hstep
  cases stopping with
  | true =>
    refine Or.inl ⟨h.edge level, ?_, ?_⟩ <;> rw [hcore, hstep] <;> rfl
  | false =>
    obtain ⟨hsame, hsettled⟩ := (b.core.edge level b.inputs).core.phase_resolveNext
    refine Or.inr (plays_start (h.edge level) ⟨Or.inl ?_, ?_⟩ ?_ ?_) <;> rw [hcore, hstep]
    · exact hsame.trans hphase
    · exact hsettled.trans hchosen
    · exact (Core.starts_resolveNext _).half
    · rfl

/-- No NMI waits on the board that does not wait on its chip. -/
theorem nmiPending_of_edge (h : (b.core.edge level b.inputs).core.nmiPending = false) :
    (b.edge level).1.core.nmiPending = false := by
  obtain ⟨stopping, hstep⟩ := b.moved_eq level
  obtain ⟨-, -, hcore⟩ := b.edge_parts level
  rw [hcore, hstep, Edge.finish]
  split
  · split
    · exact h
    · exact Core.nmiPending_resolveNext _
  · exact h

/-- On an edge that makes a choice before it runs, the first cycle is played. -/
theorem Orderly.starts (h : b.Orderly config) (hreset : b.host.reset.isAsserted = false)
    (hrest : b.core.pins.AtRest)
    (hzero : b.core.phase = .running → b.core.boundaryPending = false → b.core.cycle.half = 0)
    (hsettled : p.boundaryPending = false)
    (hready : ∃ emitted, (b.core.sampleInputs b.inputs).leaveReset.readied level
      = some (p.resolveNext, emitted)) :
    (b.core.edge level b.inputs).ended = false ∧ (b.edge level).1.core.nmiPending = false
      ∧ (b.edge level).1.memory.bytes = b.memory.bytes
      ∧ (b.edge level).1.Plays config elsewhere b.memory.bytes p.resolveNext := by
  obtain ⟨emitted, hready⟩ := hready
  have hreleased : ¬ b.inputs.reset.isAsserted = true := Bool.eq_false_iff.mp hreset
  have hfirst : p.resolveNext.cycle.half = 0 := (Core.starts_resolveNext p).half
  have hedge : b.core.edge level b.inputs = p.resolveNext.advance emitted := by
    rw [Core.edge_eq, if_neg hreleased, hready]
  have hengaged : b.engaged level
      = if p.resolveNext.cycle.half = 0 ∧ p.resolveNext.pins.busreq.isAsserted then none
        else some p.resolveNext := by
    show (if b.inputs.reset.isAsserted = true then none else _) = _
    rw [if_neg hreleased, hready]
  have hnmi : (b.edge level).1.core.nmiPending = false := by
    refine nmiPending_of_edge ?_
    rw [hedge, Core.nmiPending_advance, Core.nmiPending_resolveNext]
  have hbytes := (h.carries_atRest hrest hzero).bytes_edge level
  rw [Traffic.edge, hengaged] at hbytes
  by_cases hrequest : p.resolveNext.pins.busreq.isAsserted = true
  · rw [if_pos ⟨hfirst, hrequest⟩] at hbytes
    -- the choice is made, and then the buses are granted
    have hgranted : b.core.edge level b.inputs = p.resolveNext.releaseBus.idle emitted := by
      rw [hedge, Core.advance, if_pos hfirst, if_pos hrequest]
    have hgoes : (b.core.edge level b.inputs).ended = false := by rw [hgranted]; rfl
    obtain ⟨hlogic, hhalf, hphase, hchosen⟩ := core_edge_of_goes hgoes
    rw [hgranted] at hlogic hhalf hphase hchosen
    have hstart : (b.edge level).1.Plays config elsewhere (b.edge level).1.memory.bytes
        p.resolveNext :=
      plays_start (h.edge level)
        ⟨Or.inr hphase, hchosen.trans (p.phase_resolveNext.2.trans hsettled)⟩
        (hhalf.trans hfirst) hlogic
    rw [show (b.edge level).1.memory.bytes = b.memory.bytes from hbytes] at hstart
    exact ⟨hgoes, hnmi, hbytes, hstart⟩
  · rw [if_neg fun hboth => hrequest hboth.2] at hbytes hengaged
    have hquiet : p.resolveNext.strikes = false := by
      obtain ⟨d, length, hbegins, -⟩ := p.resolveNext_begins
      rw [hbegins]
      rfl
    have hnone : (Traffic.note {} p.resolveNext).stores = [] := by
      show (if p.resolveNext.strikes then _ ++ _ else []) = _
      rw [hquiet]
      rfl
    have hkept : (b.edge level).1.memory.bytes = b.memory.bytes :=
      hbytes.trans (congrArg (List.foldl config.apply b.memory.bytes) hnone)
    obtain ⟨hgoes, hplays⟩ := h.opens hengaged hfirst
    exact ⟨hgoes, hnmi, hkept, hplays⟩

/-- On this edge the chip `p` chooses its next instruction: at the end of the last one, on the edge
    that goes on after a stop, or when it is started. -/
inductive Chooses (b : Board) (level : Level) : Core → Prop where
  | ended (ended : (b.core.edge level b.inputs).ended = true)
    (goes : (b.edge level).1.core.boundaryPending = false) :
    Chooses b level (b.core.edge level b.inputs).core
  | stopped (reset : b.host.reset.isAsserted = false) (pending : b.core.boundaryPending = true) :
    Chooses b level { b.core.sampleInputs b.inputs with boundaryPending := false }
  | started (reset : b.host.reset.isAsserted = false) (rises : level = .high)
    (phase : (b.core.sampleInputs b.inputs).leaveReset.phase = .powerOn) :
    Chooses b level { (b.core.sampleInputs b.inputs).leaveReset with phase := .running }

/-- The edge that goes on after a stop makes the choice. -/
theorem Orderly.resumes (h : b.Orderly config) (hreset : b.host.reset.isAsserted = false)
    (hpending : b.core.boundaryPending = true) :
    (b.core.edge level b.inputs).ended = false ∧ (b.edge level).1.core.nmiPending = false
      ∧ (b.edge level).1.memory.bytes = b.memory.bytes
      ∧ (b.edge level).1.Plays config elsewhere b.memory.bytes
        ({ b.core.sampleInputs b.inputs with boundaryPending := false } : Core).resolveNext := by
  obtain ⟨hphase, hrest⟩ := h.sound.pending hpending
  have hkept : (b.core.sampleInputs b.inputs).leaveReset = b.core.sampleInputs b.inputs :=
    if_neg fun hother => Phase.noConfusion (hphase.symm.trans hother)
  refine h.starts hreset hrest (fun _ hchosen => ?_) rfl ?_
  · exact absurd (hchosen.symm.trans hpending) Bool.false_ne_true
  · have hsame : (b.core.sampleInputs b.inputs).phase = .running := hphase
    have hstill : (b.core.sampleInputs b.inputs).boundaryPending = true := hpending
    rw [hkept, Core.readied, hsame]
    dsimp only
    rw [Core.chosen, if_pos hstill]
    exact ⟨_, rfl⟩

/-- Whenever a choice is made, no NMI waits any longer, and the first cycle is played. -/
theorem Orderly.chooses (h : b.Orderly config) (hchooses : b.Chooses level p) :
    (b.edge level).1.core.nmiPending = false
      ∧ (b.edge level).1.Plays config elsewhere (b.edge level).1.memory.bytes p.resolveNext := by
  cases hchooses with
  | ended ended goes =>
    refine ⟨?_, ?_⟩
    · obtain ⟨stopping, hstep⟩ := b.moved_eq level
      obtain ⟨-, -, hcore⟩ := b.edge_parts level
      rw [Edge.finish, if_pos ended] at hstep
      rw [hcore, hstep] at goes ⊢
      cases stopping with
      | true => exact absurd goes.symm Bool.false_ne_true
      | false => exact Core.nmiPending_resolveNext _
    · rcases h.boundary ended with hstopped | hplays
      · exact absurd (goes.symm.trans hstopped.pending) Bool.false_ne_true
      · exact hplays
  | stopped reset pending =>
    obtain ⟨-, hnmi, hbytes, hplays⟩ := h.resumes reset pending
    rw [hbytes]
    exact ⟨hnmi, hplays⟩
  | started reset rises phase =>
    -- a chip that has waited for its start begins as it comes out of reset
    have hwaits : b.core.phase = .powerOn ∨ b.core.phase = .reset := by
      rw [Core.leaveReset] at phase
      split at phase
      · next hphase => exact Or.inr hphase
      · exact Or.inl phase
    have hrest := h.sound.waiting hwaits
    have hsettled : b.core.boundaryPending = false := by
      refine Bool.eq_false_iff.mpr fun hpending => ?_
      have hphase := (h.sound.pending hpending).1
      rcases hwaits with hother | hother <;> cases hother.symm.trans hphase
    have hkept : ({ (b.core.sampleInputs b.inputs).leaveReset with
        phase := .running } : Core).boundaryPending = false := by
      show (b.core.sampleInputs b.inputs).leaveReset.boundaryPending = false
      rw [Core.leaveReset]
      split <;> exact hsettled
    have hready : ∃ emitted, (b.core.sampleInputs b.inputs).leaveReset.readied level
        = some (({ (b.core.sampleInputs b.inputs).leaveReset with
          phase := .running } : Core).resolveNext, emitted) := by
      rw [Core.readied, phase, rises]
      exact ⟨_, rfl⟩
    obtain ⟨-, hnmi, hbytes, hplays⟩ := h.starts reset hrest
      (fun hphase _ => by rcases hwaits with hother | hother <;> cases hother.symm.trans hphase)
      hkept hready
    rw [hbytes]
    exact ⟨hnmi, hplays⟩

theorem Stopped.set (h : b.Stopped config p) (host : InputLevels) (hooks : Hooks) :
    ({ b with host, processor.hooks := hooks } : Board).Stopped config p :=
  ⟨h.orderly.set host hooks, h.pending, h.logic⟩

/-- No NMI waits after an edge that senses no new one. -/
theorem nmiPending_edge (hnmi : (b.core.sampleInputs b.inputs).nmiPending = false) :
    (b.edge level).1.core.nmiPending = false :=
  nmiPending_of_edge (Core.nmiPending_edge hnmi)

end Board

end Z80Board
