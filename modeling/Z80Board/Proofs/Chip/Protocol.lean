import Z80Board.Proofs.Chip.Deferral
import Z80Board.Proofs.Chip.Tally

/-! # The rules of the pins

    What the components on the buses may rely on.  A transfer has one direction and one address
    space; M1 with the port request is an acknowledge and nothing else; a refresh transfers nothing;
    a chip without the buses, or in reset, keeps its hands off them; and while a request is up the
    address stays where it is.

    Amid a cycle all of it is read off the timing diagrams.  Between cycles no strobe is up, but the
    refresh strobe may be; and BUSACK follows the phase of the chip. -/

namespace Z80Board

/-! ## The diagrams -/

/-- What holds of the strobes at any time. -/
structure Pins.Exclusive (pins : Pins) : Prop where
  direction : ¬ (pins.rd.isAsserted = true ∧ pins.wr.isAsserted = true)
  space : ¬ (pins.mreq.isAsserted = true ∧ pins.iorq.isAsserted = true)
  write : pins.wr.isAsserted = true → pins.mreq.isAsserted = !pins.iorq.isAsserted
  acknowledge : pins.interruptAcknowledge = true →
    pins.mreq = .released ∧ pins.rd = .released ∧ pins.wr = .released
  refresh : pins.rfsh.isAsserted = true →
    pins.m1 = .released ∧ pins.iorq = .released ∧ pins.rd = .released ∧ pins.wr = .released

/-- The strobes decide it, with the refresh strobe. -/
theorem Pins.Exclusive.congr {pins pins' : Pins} (h : pins.Exclusive)
    (hstrobes : pins'.strobes = pins.strobes) (hrefresh : pins'.rfsh = pins.rfsh) :
    pins'.Exclusive := by
  simp only [Pins.strobes, Prod.mk.injEq] at hstrobes
  obtain ⟨hm1, hmreq, hiorq, hrd, hwr⟩ := hstrobes
  obtain ⟨hdirection, hspace, hwrite, hack, hrfsh⟩ := h
  rw [interruptAcknowledge] at hack
  constructor
  · rw [hrd, hwr]
    exact hdirection
  · rw [hmreq, hiorq]
    exact hspace
  · rw [hwr, hmreq, hiorq]
    exact hwrite
  · rw [interruptAcknowledge, hm1, hmreq, hiorq, hrd, hwr]
    exact hack
  · rw [hrefresh, hm1, hiorq, hrd, hwr]
    exact hrfsh

/-- With no strobe up nothing can clash, whether or not a refresh is going on. -/
theorem Pins.AtRest.exclusive {pins : Pins} (h : pins.AtRest) : pins.Exclusive := by
  simp only [AtRest, Pins.strobes, Prod.mk.injEq] at h
  obtain ⟨hm1, hmreq, hiorq, hrd, hwr⟩ := h
  refine ⟨?_, ?_, ?_, ?_, ?_⟩
  · rw [hrd]
    rintro ⟨hup, -⟩
    cases hup
  · rw [hmreq]
    rintro ⟨hup, -⟩
    cases hup
  · intro hup
    rw [hwr] at hup
    cases hup
  · intro _
    exact ⟨hmreq, hrd, hwr⟩
  · intro _
    exact ⟨hm1, hiorq, hrd, hwr⟩

namespace ActiveCycle

variable {cycle : ActiveCycle} {half : Nat}

/-- No diagram lets two strobes clash. -/
theorem exclusive_outputs : (cycle.outputs half).Exclusive := by
  rw [outputs]
  cases cycle.pattern <;> cases hdevice : cycle.fromDevice
  all_goals
    obtain rfl | rfl | rfl | rfl | rfl | rfl | rfl | rfl | rfl | ⟨n, rfl⟩ := half_cases half <;>
      constructor <;>
        simp [fetchOutputs, acknowledgeOutputs, readOutputs, writeOutputs, portOutputs, hdevice,
          Pins.interruptAcknowledge, Level.isAsserted, Level.isLow]

/-- Only an acknowledge has M1 and the port request up together. -/
theorem pattern_of_interruptAcknowledge
    (h : (cycle.outputs half).interruptAcknowledge = true) : cycle.pattern = .acknowledge := by
  revert h
  rw [outputs]
  cases cycle.pattern <;> cases hdevice : cycle.fromDevice
  all_goals
    obtain rfl | rfl | rfl | rfl | rfl | rfl | rfl | rfl | rfl | ⟨n, rfl⟩ := half_cases half <;>
      simp [fetchOutputs, readOutputs, writeOutputs, portOutputs, hdevice,
        Pins.interruptAcknowledge, Level.isAsserted, Level.isLow]

/-- Only a byte of the device is read without a request. -/
theorem fromDevice_of_read (hread : (cycle.outputs half).rd.isAsserted = true)
    (hmemory : (cycle.outputs half).mreq.isAsserted = false)
    (hport : (cycle.outputs half).iorq.isAsserted = false) : cycle.fromDevice = true := by
  revert hread hmemory hport
  rw [outputs]
  cases cycle.pattern <;> cases hdevice : cycle.fromDevice
  all_goals
    obtain rfl | rfl | rfl | rfl | rfl | rfl | rfl | rfl | rfl | ⟨n, rfl⟩ := half_cases half <;>
      simp [fetchOutputs, acknowledgeOutputs, readOutputs, writeOutputs, portOutputs, hdevice,
        Level.isAsserted, Level.isLow]

end ActiveCycle

namespace Core

variable {c d k : Core} {half : Nat} {level : Level} {inputs : InputLevels}

/-! ## What goes along with the phase -/

/-- A byte of the device belongs to an instruction of the device. -/
def Sourced (c : Core) : Prop :=
  c.cycle.fromDevice = true → c.origin = .device

theorem sourced_beginCycle (c : Core) (kind : CycleKind) (length : Nat) :
    (c.beginCycle kind length).Sourced := by
  intro hdevice
  have hboth : (decide (c.origin = .device) && (kind = .opcodeFetch || kind.isOperandRead)) = true :=
    hdevice
  rw [Bool.and_eq_true] at hboth
  exact of_decide_eq_true hboth.1

theorem sourced_resolveNext (c : Core) : c.resolveNext.Sourced := by
  obtain ⟨d, length, hnext, -⟩ := c.resolveNext_begins
  rw [hnext]
  exact sourced_beginCycle d _ _

theorem Sourced.runHalf (h : c.Sourced) : c.runHalf.1.Sourced := by
  intro hdevice
  rw [fromDevice_of_use use_runHalf] at hdevice
  rw [steady_runHalf.origin]
  exact h hdevice

theorem Sourced.nextCycle (h : c.Sourced) : c.latchResult.nextCycle.1.Sourced := by
  have hlatched : c.latchResult.Sourced := by
    intro hdevice
    rw [cycle_latchResult] at hdevice
    rw [steady_latchResult.origin]
    exact h hdevice
  cases hcode : c.latchResult.instruction with
  | none =>
    rw [nextCycle_of_none hcode]
    cases c.latchResult.chain <;> exact sourced_beginCycle _ _ _
  | some code =>
    rw [nextCycle_of_some hcode]
    cases c.latchResult.cycles[c.latchResult.position + 1]? with
    | none => exact hlatched
    | some next => exact sourced_beginCycle _ _ _

/-- What goes along with the phase of the chip: BUSACK, the refresh strobe without the buses, and
    whose bytes are read. -/
structure Phased (c : Core) : Prop where
  granted : c.pins.busack.isAsserted = decide (c.phase = .busReleased)
  refresh : c.phase = .busReleased ∨ c.phase = .reset → c.pins.rfsh = .released
  sourced : c.phase = .running ∨ c.phase = .busReleased → c.Sourced

/-- A running chip has its buses, and knows whose bytes it reads. -/
structure Seated (c : Core) : Prop where
  phase : c.phase = .running
  granted : c.pins.busack = .released
  sourced : c.Sourced

theorem Seated.phased (h : c.Seated) : c.Phased := by
  obtain ⟨hphase, hgranted, hsourced⟩ := h
  refine ⟨?_, ?_, fun _ => hsourced⟩
  · rw [hgranted, hphase]
    rfl
  · rintro (hother | hother) <;> exact nomatch hphase.symm.trans hother

theorem Seated.resolveNext (hphase : c.phase = .running) (hgranted : c.pins.busack = .released) :
    c.resolveNext.Seated := by
  refine ⟨(phase_resolveNext c).1.trans hphase, ?_, sourced_resolveNext c⟩
  rw [leaves_resolveNext.pins]
  exact hgranted

/-- A chip that is made ready is running. -/
theorem Readied.seated {emitted : List Emission} (hready : c.Readied k emitted) (h : c.Phased) :
    k.Seated := by
  have hreleased (hphase : c.phase ≠ .busReleased) : c.pins.busack = .released := by
    have hgranted := h.granted
    rw [decide_eq_false hphase] at hgranted
    cases hlevel : c.pins.busack with
    | high => rfl
    | low =>
      rw [hlevel] at hgranted
      exact nomatch hgranted
  cases hready with
  | running phase =>
    exact ⟨phase, hreleased (by rw [phase]; decide), h.sourced (Or.inl phase)⟩
  | returned phase => exact ⟨rfl, rfl, h.sourced (Or.inr phase)⟩
  | @started d phase running =>
    subst running
    exact Seated.resolveNext rfl (hreleased (by rw [phase]; decide))
  | @resolved d phase pending cleared =>
    subst cleared
    exact Seated.resolveNext phase (hreleased (by rw [phase]; decide))
  | @returnedResolved d phase pending cleared =>
    subst cleared
    exact Seated.resolveNext rfl rfl

/-- A running chip that runs a half-period is still running, whatever comes after it. -/
theorem Seated.finish (h : c.Seated) (emitted : List Emission) (stopping : Bool) :
    ((c.runEdge emitted).finish stopping).1.Seated := by
  have hrun : c.runHalf.1.Seated :=
    ⟨steady_runHalf.phase.trans h.phase, driven_runHalf.2.trans h.granted, h.sourced.runHalf⟩
  have hnext : c.runHalf.1.latchResult.nextCycle.1.Seated := by
    refine ⟨?_, ?_, hrun.sourced.nextCycle⟩
    · exact (steady_latchResult.trans (steady_nextCycle _)).phase.trans hrun.phase
    · rw [(leaves_latchResult.trans leaves_nextCycle).pins]
      exact hrun.granted
  rw [runEdge_eq, endCycle_eq]
  split
  · split
    · cases stopping with
      | true => exact ⟨hnext.phase, hnext.granted, hnext.sourced⟩
      | false =>
        exact Seated.resolveNext (c := c.runHalf.1.latchResult.nextCycle.1.complete) hnext.phase
          hnext.granted
    · exact hnext
  · exact hrun

theorem Phased.sampled (h : c.Phased) (inputs : InputLevels) :
    (c.sampleInputs inputs).leaveReset.Phased := by
  rw [leaveReset]
  split
  · next hreset =>
    have hphase : c.phase = .reset := hreset
    have hgranted := h.granted
    rw [hphase] at hgranted
    refine ⟨hgranted, ?_, ?_⟩ <;> rintro (hother | hother) <;> cases hother
  · exact ⟨h.granted, h.refresh, h.sourced⟩

/-- Every edge keeps to the phase. -/
theorem Phased.edge (h : c.Phased) (level : Level) (inputs : InputLevels) (stopping : Bool) :
    ((c.edge level inputs).finish stopping).1.Phased := by
  have hsampled := h.sampled inputs
  have hturn := c.turn level inputs
  generalize c.engaged level inputs = engaged at hturn
  generalize c.edge level inputs = e at hturn ⊢
  cases hturn with
  | resets =>
    refine ⟨rfl, fun _ => rfl, ?_⟩
    rintro (hother | hother) <;> cases hother
  | passes sampled => exact sampled ▸ hsampled
  | grants ready => exact ⟨rfl, fun _ => rfl, fun _ => (ready.seated hsampled).sourced⟩
  | begins ready | continues ready => exact ((ready.seated hsampled).finish _ stopping).phased

/-! ## The rules -/

/-- The rules that hold of the chip after every edge. -/
structure Protocol (c : Core) : Prop where
  /-- A transfer has one direction. -/
  direction : ¬ (c.pins.rd.isAsserted = true ∧ c.pins.wr.isAsserted = true)
  /-- It is with memory or with a port. -/
  space : ¬ (c.pins.mreq.isAsserted = true ∧ c.pins.iorq.isAsserted = true)
  /-- What is written goes to exactly one of the two. -/
  write : c.pins.wr.isAsserted = true → c.pins.mreq.isAsserted = !c.pins.iorq.isAsserted
  /-- M1 with the port request is the first cycle of an instruction that an interrupt begins, and
      nothing else is up. -/
  acknowledge : c.pins.interruptAcknowledge = true →
    (c.acknowledging = true ∧ c.position = 0 ∧ c.cycle.pattern = .acknowledge)
      ∧ c.pins.mreq = .released ∧ c.pins.rd = .released ∧ c.pins.wr = .released
  /-- A refresh transfers nothing. -/
  refresh : c.pins.rfsh.isAsserted = true →
    c.pins.m1 = .released ∧ c.pins.iorq = .released ∧ c.pins.rd = .released
      ∧ c.pins.wr = .released
  /-- A read from nowhere asks the interrupting device. -/
  elsewhere : c.pins.rd.isAsserted = true → c.pins.mreq.isAsserted = false →
    c.pins.iorq.isAsserted = false → c.origin = .device
  /-- BUSACK tells that the buses are released. -/
  granted : c.pins.busack.isAsserted = c.snapshot.busReleased
  /-- Without the buses, or in reset, nothing is up. -/
  quiet : c.snapshot.busReleased = true ∨ c.snapshot.inReset = true →
    c.pins.m1 = .released ∧ c.pins.mreq = .released ∧ c.pins.iorq = .released
      ∧ c.pins.rd = .released ∧ c.pins.wr = .released ∧ c.pins.rfsh = .released

/-- Before a half-period of a cycle under way the strobes are those of the diagram, and before the
    first one no strobe is up. -/
theorem Underway.exclusive (h : c.Underway) : c.pins.Exclusive := by
  by_cases hfirst : c.cycle.half = 0
  · exact (h.atRest hfirst).exclusive
  · exact ActiveCycle.exclusive_outputs.congr h.wired.strobes (h.wired.refresh hfirst)

/-- A sound chip has no strobe up, or it is running amid an instruction. -/
theorem Sound.rests_or_runs (h : c.Sound) :
    c.pins.AtRest ∨ c.phase = .running ∧ c.Underway := by
  cases hchosen : c.boundaryPending with
  | true => exact Or.inl (h.pending hchosen).2
  | false =>
    cases hphase : c.phase with
    | powerOn => exact Or.inl (h.waiting (Or.inl hphase))
    | reset => exact Or.inl (h.waiting (Or.inr hphase))
    | running => exact Or.inr ⟨rfl, h.running hphase hchosen⟩
    | busReleased =>
      obtain ⟨hunderway, hfirst⟩ := h.released hphase
      exact Or.inl (hunderway.atRest hfirst)

/-- A sound chip that keeps to its phase keeps to the rules. -/
theorem Sound.protocol (h : c.Sound) (hphased : c.Phased) : c.Protocol := by
  have hcases := h.rests_or_runs
  have hexclusive : c.pins.Exclusive := by
    rcases hcases with hrest | ⟨-, hunderway⟩
    · exact hrest.exclusive
    · exact hunderway.exclusive
  refine ⟨hexclusive.direction, hexclusive.space, hexclusive.write, fun hack => ?_,
    hexclusive.refresh, fun hread hmemory hport => ?_, hphased.granted, fun hquiet => ?_⟩
  · refine ⟨?_, hexclusive.acknowledge hack⟩
    rcases hcases with hrest | ⟨-, hunderway⟩
    · -- with no strobe up there is no acknowledge either
      simp only [Pins.AtRest, Pins.strobes, Prod.mk.injEq] at hrest
      rw [Pins.interruptAcknowledge, hrest.1, hrest.2.2.1] at hack
      cases hack
    · have hstrobes := hunderway.wired.strobes
      simp only [Pins.strobes, Prod.mk.injEq] at hstrobes
      rw [Pins.interruptAcknowledge, hstrobes.1, hstrobes.2.2.1] at hack
      have hpattern := ActiveCycle.pattern_of_interruptAcknowledge hack
      obtain ⟨hbegan, hposition⟩ := hunderway.course.acknowledges hpattern
      exact ⟨hbegan, hposition, hpattern⟩
  · rcases hcases with hrest | ⟨hphase, hunderway⟩
    · simp only [Pins.AtRest, Pins.strobes, Prod.mk.injEq] at hrest
      rw [hrest.2.2.2.1] at hread
      cases hread
    · have hstrobes := hunderway.wired.strobes
      simp only [Pins.strobes, Prod.mk.injEq] at hstrobes
      obtain ⟨-, hmreq, hiorq, hrd, -⟩ := hstrobes
      rw [hrd] at hread
      rw [hmreq] at hmemory
      rw [hiorq] at hport
      exact hphased.sourced (Or.inl hphase) (ActiveCycle.fromDevice_of_read hread hmemory hport)
  · have hphase : c.phase = .busReleased ∨ c.phase = .reset :=
      hquiet.imp of_decide_eq_true of_decide_eq_true
    have hrest : c.pins.AtRest := by
      rcases hphase with hreleased | hreset
      · obtain ⟨hunderway, hfirst⟩ := h.released hreleased
        exact hunderway.atRest hfirst
      · exact h.waiting (Or.inr hreset)
    simp only [Pins.AtRest, Pins.strobes, Prod.mk.injEq] at hrest
    obtain ⟨hm1, hmreq, hiorq, hrd, hwr⟩ := hrest
    exact ⟨hm1, hmreq, hiorq, hrd, hwr, hphased.refresh hphase⟩

/-! ## The address during a request -/

/-- A request for memory, not for a refresh, or for a port. -/
inductive Request where
  | memory
  | port
deriving DecidableEq, Repr

/-- The request is up. -/
def Request.up (request : Request) (pins : Pins) : Bool :=
  match request with
  | .memory => pins.memoryRequest
  | .port => pins.iorq.isAsserted

/-- No request is up with no strobe up. -/
theorem Request.down_of_atRest {pins : Pins} (h : pins.AtRest) (request : Request) :
    request.up pins = false := by
  simp only [Pins.AtRest, Pins.strobes, Prod.mk.injEq] at h
  obtain ⟨-, hmreq, hiorq, -, -⟩ := h
  cases request with
  | memory =>
    rw [up, Pins.memoryRequest, hmreq]
    rfl
  | port =>
    rw [up, hiorq]
    rfl

/-- No request is up when a fetch has gone over to its refresh. -/
theorem Request.down_of_refreshing (h : c.Wired 5)
    (hfetch : c.cycle.pattern = .fetch ∨ c.cycle.pattern = .acknowledge) (request : Request) :
    request.up c.pins = false := by
  have hstrobes := h.strobes
  have hrefresh := h.refresh (by decide)
  rw [ActiveCycle.outputs] at hstrobes hrefresh
  rcases hfetch with hpattern | hpattern <;> rw [hpattern] at hstrobes hrefresh <;>
    simp only [Pins.strobes, Prod.mk.injEq] at hstrobes <;> cases request <;>
    simp [up, Pins.memoryRequest, hstrobes, hrefresh, ActiveCycle.fetchOutputs,
      ActiveCycle.acknowledgeOutputs, Level.isAsserted, Level.isLow]

/-- While a request stays up the address does. -/
theorem Sound.address_edge (h : c.Sound) (request : Request) (stopping : Bool)
    (hbefore : request.up c.pins = true)
    (hafter : request.up ((c.edge level inputs).finish stopping).1.pins = true) :
    ((c.edge level inputs).finish stopping).1.address.value = c.address.value := by
  have hrunning : ¬ c.pins.AtRest := by
    intro hrest
    exact nomatch (request.down_of_atRest hrest).symm.trans hbefore
  have houtcome := h.outcome level inputs stopping
  generalize ((c.edge level inputs).finish stopping).1 = d at houtcome hafter ⊢
  cases houtcome with
  | rests rest => exact nomatch (request.down_of_atRest rest).symm.trans hafter
  | amid k runs more result =>
    have hk := h.engages runs
    have hlater : k.cycle.half ≠ 0 := by
      intro hfirst
      have hrest := hk.underway.atRest hfirst
      rw [Pins.AtRest, hk.strobes] at hrest
      exact hrunning hrest
    -- the only half-period within a cycle that moves the address takes the request down
    have hplain : k.cycle.half ≠ 4
        ∨ k.cycle.pattern ≠ .fetch ∧ k.cycle.pattern ≠ .acknowledge := by
      by_cases hfetch : k.cycle.pattern = .fetch ∨ k.cycle.pattern = .acknowledge
      · left
        intro hfour
        have hnext : k.runHalf.1.cycle.half = 5 := by
          rcases hk.underway.half_runHalf more with ⟨-, hnext⟩ | ⟨-, -, ⟨hthree, -⟩ | ⟨hfive, -⟩⟩
          · omega
          · omega
          · omega
        have hwired := (hk.underway.amid more).wired
        rw [hnext] at hwired
        have hdown := Request.down_of_refreshing hwired (by rw [pattern_runHalf]; exact hfetch)
          request
        rw [result] at hafter
        exact nomatch hdown.symm.trans hafter
      · exact Or.inr (not_or.mp hfetch)
    rw [result, buses_runHalf.1, addressAfter_later hlater hplain, hk.address]

/-- The chip `d` has come from `c` by edges after each of which the request was up.  Between edges
    anybody may drive the data bus, and the host may change the registers. -/
inductive Spans (request : Request) (c : Core) : Core → Prop where
  | refl : Spans request c c
  | edge {d : Core} (h : Spans request c d) (level : Level) (inputs : InputLevels) (stopping : Bool)
    (up : request.up ((d.edge level inputs).finish stopping).1.pins = true) :
    Spans request c ((d.edge level inputs).finish stopping).1
  | data {d : Core} (h : Spans request c d) (data : Bus Byte) : Spans request c { d with data }
  | regs {d : Core} (h : Spans request c d) (f : Registers → Registers) :
    Spans request c (d.modifyRegs f)

/-- However long the request stays up, the address is the one that it came up with. -/
theorem Spans.address {request : Request} (h : Spans request c d) (hsound : c.Sound)
    (hup : request.up c.pins = true) :
    d.Sound ∧ request.up d.pins = true ∧ d.address.value = c.address.value := by
  induction h with
  | refl => exact ⟨hsound, hup, rfl⟩
  | edge _ level inputs stopping up ih =>
    obtain ⟨hsound', hup', haddress⟩ := ih
    refine ⟨(hsound'.edge level inputs).finish stopping, up, ?_⟩
    rw [hsound'.address_edge request stopping hup' up]
    exact haddress
  | data _ data ih => exact ⟨ih.1.withData data, ih.2⟩
  | regs _ f ih => exact ⟨ih.1.modifyRegs f, ih.2⟩

end Core

/-! ## Runs -/

variable {c : Core} {t : Tally}

/-- On every run BUSACK and the strobes go along with the phase. -/
theorem Metered.phased (h : Metered c t) : c.Phased := by
  induction h with
  | powerOn address data =>
    refine ⟨rfl, ?_, ?_⟩ <;> rintro (hother | hother) <;> exact nomatch hother
  | edge _ level inputs stopping ih => exact ih.edge level inputs stopping
  | data _ data ih => exact ⟨ih.granted, ih.refresh, ih.sourced⟩
  | regs _ f ih => exact ⟨ih.granted, ih.refresh, ih.sourced⟩

/-- On every run, whatever the levels, the rules of the pins hold after every edge; and from the edge
    on which a request comes up until the edge that takes it down, the address stays the same. -/
theorem Metered.keeps_protocol (h : Metered c t) :
    c.Protocol ∧ ∀ (request : Core.Request) (d : Core), request.up c.pins = true →
      Core.Spans request c d → d.address.value = c.address.value := by
  obtain ⟨hsound, -⟩ := h.tallied
  refine ⟨hsound.protocol h.phased, ?_⟩
  intro request d hup hspans
  exact (hspans.address hsound hup).2.2

/-- The chip after 12 edges from power-on with NMI asserted: it has just put up the request that
    writes the high byte of the program counter. -/
def pushRequested : Core :=
  (Core.powerOn (.released 0xFFFF) (.released 0xFF)).steps
    ((List.range 12).map fun edge => (.ofBool (edge % 2 == 0), { nmi := .asserted }))

/-- Two edges later the write strobe is up too, at the same address. -/
theorem push_keeps_address : ∃ t, Metered pushRequested t ∧ pushRequested.Protocol
    ∧ Core.Request.memory.up pushRequested.pins = true
    ∧ ((pushRequested.step .high {}).step .low {}).pins.wr = .asserted
    ∧ ((pushRequested.step .high {}).step .low {}).address.value
      = pushRequested.address.value := by
  obtain ⟨t, hmetered⟩ : ∃ t, Metered pushRequested t :=
    (Metered.powerOn (.released 0xFFFF) (.released 0xFF)).exists_steps _
  obtain ⟨hprotocol, hstays⟩ := Metered.keeps_protocol hmetered
  have hup : Core.Request.memory.up pushRequested.pins = true := by decide +kernel
  have hfirst : Core.Spans .memory pushRequested (pushRequested.step .high {}) :=
    Core.Spans.refl.edge .high {} false (by decide +kernel)
  have hspans : Core.Spans .memory pushRequested ((pushRequested.step .high {}).step .low {}) :=
    hfirst.edge .low {} false (by decide +kernel)
  have hwrite : ((pushRequested.step .high {}).step .low {}).pins.wr = .asserted := by
    decide +kernel
  exact ⟨t, hmetered, hprotocol, hup, hwrite, hstays .memory _ hup hspans⟩

end Z80Board
