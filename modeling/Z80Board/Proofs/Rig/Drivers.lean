import Z80Board.Proofs.Rig.Ports
import Z80Board.Proofs.Rig.Stores

/-! # Who drives the data bus

    The chip, memory, a port latch and an interrupt source share one data bus, on which the last
    byte put out wins and whoever lets go wipes out whatever is there.  They act in this order on
    every edge, and each goes by the pins alone.

    A cycle gives the data bus to one of them, by the way it uses the buses, and nobody else is
    called on while it lasts.  The others have let go before that one begins.  So at most one of them
    drives the data bus after an edge, its byte is the one on the bus, and when nobody drives it the
    bus floats. -/

namespace Z80Board

/-! ## Taking turns -/

/-- Those who can drive the data bus. -/
inductive Talker where
  | chip
  | memory
  | port
  | source
deriving DecidableEq, Repr

/-- Whom the cycle gives the data bus to. -/
def ActiveCycle.talker (cycle : ActiveCycle) : Option Talker :=
  match cycle.pattern with
  | .write | .portWrite => some .chip
  | .portRead => some .port
  | .acknowledge => some .source
  | .fetch | .opcodeRead | .read => if cycle.fromDevice then some .source else some .memory
  | .internal => none

/-- The pins turn to an interrupt source: to acknowledge an interrupt, or to read from neither memory
    nor a port. -/
def Pins.turnToSource (pins : Pins) : Bool :=
  pins.interruptAcknowledge || InterruptSource.deviceRead pins

/-- A source is turned to in the middle of the cycles that are given to it. -/
theorem ActiveCycle.turnToSource_outputs {cycle : ActiveCycle} {half : Nat}
    (h : (cycle.outputs half).turnToSource = true) : cycle.talker = some .source ∧ 2 ≤ half := by
  revert h
  rw [talker, outputs]
  cases cycle.pattern <;> cases hdevice : cycle.fromDevice
  all_goals
    obtain rfl | rfl | rfl | rfl | rfl | rfl | rfl | rfl | rfl | ⟨n, rfl⟩ := half_cases half <;>
      simp [fetchOutputs, acknowledgeOutputs, readOutputs, writeOutputs, portOutputs, hdevice,
        Pins.turnToSource, Pins.interruptAcknowledge, InterruptSource.deviceRead, Level.isAsserted,
        Level.isLow]

namespace Core

variable {c d k : Core} {half : Nat} {level : Level} {inputs : InputLevels}

theorem talker_of_use (h : c.use = d.use) : c.cycle.talker = d.cycle.talker := by
  rw [ActiveCycle.talker, pattern_of_use h, fromDevice_of_use h]
  rfl

theorem turnToSource_congr {pins pins' : Pins} (h : pins.strobes = pins'.strobes) :
    pins.turnToSource = pins'.turnToSource := by
  simp only [Pins.strobes, Prod.mk.injEq] at h
  obtain ⟨hm1, hmreq, hiorq, hrd, -⟩ := h
  rw [Pins.turnToSource, Pins.interruptAcknowledge, InterruptSource.deviceRead, hm1, hmreq, hiorq,
    hrd]
  rfl

/-! ## The byte of the chip -/

/-- What the chip holds on the data bus after a half-period: a write puts its byte out in the second
    half-period, and lets go with its strobe. -/
def retains (k : Core) (held : Option Byte) : Option Byte :=
  match k.cycle.pattern with
  | .write =>
    if k.cycle.half = 1 then some k.writeByte else if k.cycle.half = 5 then none else held
  | .portWrite =>
    if k.cycle.half = 1 then some k.latches.outLow else if k.cycle.half = 7 then none else held
  | _ => held

/-- What it holds after an edge.  A reset and a grant let go of the data bus, and before the first
    reset an edge changes nothing. -/
def heldAfter (c : Core) (level : Level) (inputs : InputLevels) (held : Option Byte) :
    Option Byte :=
  match c.engaged level inputs with
  | some k => k.retains held
  | none => if (c.edge level inputs).core.phase = .powerOn then held else none

/-- What it holds as its cycle has it. -/
def holding (c : Core) : Option Byte :=
  if c.phase = .running ∧ c.boundaryPending = false then c.staged c.cycle.half else none

theorem holding_of_running (hphase : c.phase = .running) (hchosen : c.boundaryPending = false) :
    c.holding = c.staged c.cycle.half :=
  if_pos ⟨hphase, hchosen⟩

theorem holding_of_phase (hphase : c.phase ≠ .running) : c.holding = none :=
  if_neg fun hruns => hphase hruns.1

/-- A chip that begins a cycle, or has just ended one, holds nothing. -/
theorem holding_of_first
    (hfirst : c.phase = .running → c.boundaryPending = false → c.cycle.half = 0) :
    c.holding = none := by
  unfold holding
  split
  · next hruns => rw [hfirst hruns.1 hruns.2, staged_zero]
  · rfl

/-- The byte that is held is the one that is staged. -/
theorem Underway.retains_eq (h : k.Underway) :
    k.retains (k.staged k.cycle.half)
      = if k.runHalf.2 then none else k.runHalf.1.staged k.runHalf.1.cycle.half := by
  cases hlast : k.runHalf.2 with
  | true =>
    obtain ⟨-, -, -, hroom⟩ := h.last hlast
    rw [if_pos rfl]
    cases hpattern : k.cycle.pattern <;> rw [hpattern] at hroom <;>
      simp only [BusPattern.minimumLength] at hroom <;> simp only [retains, staged, hpattern]
    case write | portWrite => grind
  | false =>
    have hhalf := h.half_runHalf hlast
    rw [if_neg Bool.false_ne_true]
    cases hpattern : k.cycle.pattern <;> rw [hpattern] at hhalf
    case write =>
      have hsame : k.runHalf.1.writeByte = k.writeByte := by
        rw [writeByte, writeByte, kind_of_use use_runHalf, latches_runHalf (Or.inl hpattern)]
      simp only [retains, staged, pattern_runHalf, hpattern, hsame]
      grind
    case portWrite =>
      simp only [retains, staged, pattern_runHalf, hpattern, latches_runHalf (Or.inr hpattern)]
      grind
    all_goals simp only [retains, staged, pattern_runHalf, hpattern]

/-! ## Calls -/

/-- Somebody is called on to drive the data bus. -/
def Calls (c : Core) : Talker → Prop
  | .chip => c.holding ≠ none
  | .memory => c.pins.asksMemory = true
  | .port => c.pins.asksPort = true
  | .source => c.pins.turnToSource = true

/-- With no strobe up, and no write going on, nobody is called on. -/
theorem not_calls (hrest : c.pins.AtRest) (hnone : c.holding = none) (talker : Talker) :
    ¬ c.Calls talker := by
  intro hcalls
  have hrest' : c.pins.strobes = Pins.strobes {} := hrest
  cases talker with
  | chip => exact hcalls hnone
  | memory => exact nomatch (nobody_asked hrest).1.symm.trans hcalls
  | port => exact nomatch (no_port hrest).1.symm.trans hcalls
  | source =>
    have hturned : c.pins.turnToSource = true := hcalls
    rw [turnToSource_congr hrest'] at hturned
    exact nomatch hturned

/-- Who is called on has been given the data bus by the cycle, which is in its middle. -/
theorem Sound.talker_of_calls (h : c.Sound) {talker : Talker} (hcalls : c.Calls talker) :
    c.phase = .running ∧ c.boundaryPending = false ∧ c.cycle.talker = some talker
      ∧ 2 ≤ c.cycle.half := by
  have hruns : c.phase = .running ∧ c.boundaryPending = false := by
    rcases h.rests_or_underway with hrest | ⟨hphase, hchosen, -⟩
    · refine Decidable.byContradiction fun hidle => ?_
      exact not_calls hrest (if_neg hidle) talker hcalls
    · exact ⟨hphase, hchosen⟩
  obtain ⟨hphase, hchosen⟩ := hruns
  have hwired := (h.running hphase hchosen).wired
  refine ⟨hphase, hchosen, ?_⟩
  cases talker with
  | chip =>
    have hstaged : c.holding ≠ none := hcalls
    rw [holding_of_running hphase hchosen, staged] at hstaged
    rw [ActiveCycle.talker]
    split at hstaged
    · next hwrite =>
      rw [hwrite]
      exact ⟨rfl, Decidable.byContradiction fun hearly => hstaged (if_neg fun hroom => hearly hroom.1)⟩
    · next hport =>
      rw [hport]
      exact ⟨rfl, Decidable.byContradiction fun hearly => hstaged (if_neg fun hroom => hearly hroom.1)⟩
    · exact absurd rfl hstaged
  | memory =>
    obtain ⟨hreads, hroom, -⟩ := hwired.asksMemory_iff.mp hcalls
    rw [ActiveCycle.readsMemory] at hreads
    rw [ActiveCycle.talker]
    cases hpattern : c.cycle.pattern <;> rw [hpattern] at hreads <;> simp_all
  | port =>
    obtain ⟨hpattern, hroom, -⟩ := hwired.asksPort_iff.mp hcalls
    rw [ActiveCycle.talker, hpattern]
    exact ⟨rfl, by omega⟩
  | source =>
    have hturned : c.pins.turnToSource = true := hcalls
    rw [turnToSource_congr hwired.strobes] at hturned
    exact ActiveCycle.turnToSource_outputs hturned

/-- Memory is not asked for a byte and given one at once. -/
theorem Sound.givesMemory_of_asksMemory (h : c.Sound) (hasks : c.pins.asksMemory = true) :
    c.pins.givesMemory = false := by
  rcases h.rests_or_underway with hrest | ⟨-, -, hunderway⟩
  · cases (nobody_asked hrest).1.symm.trans hasks
  · refine Bool.eq_false_iff.mpr fun hgives => ?_
    obtain ⟨hreads, -⟩ := hunderway.wired.asksMemory_iff.mp hasks
    obtain ⟨hwrite, -⟩ := hunderway.wired.givesMemory_iff.mp hgives
    rw [ActiveCycle.readsMemory, hwrite] at hreads
    cases hreads

/-- At most one is called on. -/
theorem Sound.calls_unique (h : c.Sound) {talker other : Talker} (hcalls : c.Calls talker)
    (hother : c.Calls other) : talker = other := by
  obtain ⟨-, -, hgiven, -⟩ := h.talker_of_calls hcalls
  obtain ⟨-, -, hgiven', -⟩ := h.talker_of_calls hother
  exact Option.some.inj (hgiven.symm.trans hgiven')

/-- Who is called on after an edge was called on before, or nobody was. -/
theorem Sound.calls_edge (h : c.Sound) (level : Level) (stopping : Bool)
    (hafter : ((c.edge level inputs).finish stopping).1.Sound) {talker other : Talker}
    (hcalls : ((c.edge level inputs).finish stopping).1.Calls talker) (hbefore : c.Calls other) :
    other = talker := by
  obtain ⟨hphase, hchosen, hgiven, hlate⟩ := hafter.talker_of_calls hcalls
  have houtcome := h.outcome level inputs stopping
  generalize ((c.edge level inputs).finish stopping).1 = after at *
  cases houtcome with
  | rests rest first => exact absurd hcalls (not_calls rest (holding_of_first first) talker)
  | amid k runs more result =>
    have hk := h.engages runs
    have hhalf := hk.underway.half_runHalf more
    rw [result] at hgiven hlate
    obtain ⟨hsame, -⟩ := hk.amid (by omega)
    have hcycle : k.cycle = c.cycle := by rw [hsame]; rfl
    rw [talker_of_use use_runHalf, hcycle] at hgiven
    obtain ⟨-, -, hgiven', -⟩ := h.talker_of_calls hbefore
    exact Option.some.inj (hgiven'.symm.trans hgiven)

/-- While somebody is called on after an edge, the chip was running its instruction already. -/
theorem Sound.running_of_calls (h : c.Sound) (level : Level) (stopping : Bool)
    (hafter : ((c.edge level inputs).finish stopping).1.Sound) {talker : Talker}
    (hcalls : ((c.edge level inputs).finish stopping).1.Calls talker) : c.phase = .running := by
  obtain ⟨-, -, -, hlate⟩ := hafter.talker_of_calls hcalls
  have houtcome := h.outcome level inputs stopping
  generalize ((c.edge level inputs).finish stopping).1 = after at *
  cases houtcome with
  | rests rest first => exact absurd hcalls (not_calls rest (holding_of_first first) talker)
  | amid k runs more result =>
    have hk := h.engages runs
    have hhalf := hk.underway.half_runHalf more
    rw [result] at hlate
    exact (hk.amid (by omega)).2.1

/-- Ending a cycle, and choosing the next instruction, leave the data bus alone. -/
theorem data_runEdge (emitted : List Emission) (stopping : Bool) :
    ((k.runEdge emitted).finish stopping).1.data = k.runHalf.1.data := by
  have hnext := (leaves_latchResult (c := k.runHalf.1)).trans leaves_nextCycle
  rw [runEdge_eq, endCycle_eq]
  split
  · split
    · cases stopping with
      | true => exact hnext.data
      | false =>
        exact (leaves_resolveNext (c := k.runHalf.1.latchResult.nextCycle.1.complete)).data.trans
          hnext.data
    · exact hnext.data
  · rfl

/-- What the chip that an edge engages holds is what the chip has held before. -/
theorem Engages.holding (hk : c.Engages k inputs) : c.holding = k.staged k.cycle.half := by
  by_cases hfirst : k.cycle.half = 0
  · rw [hfirst, staged_zero]
    refine holding_of_first fun hphase hchosen => ?_
    rw [hk.kept hphase hchosen] at hfirst
    exact hfirst
  · obtain ⟨hsame, hphase, hchosen⟩ := hk.amid hfirst
    rw [holding_of_running hphase hchosen, hsame]
    rfl

/-- The chip after an edge, from the chip before: it holds the byte that the half-periods have it
    hold, and that is on the data bus; and if it holds none, the bus floats, or the chip has held
    none before and leaves the bus alone. -/
structure Voices (c : Core) (held : Option Byte) (after : Core) : Prop where
  held : held = after.holding
  floating : after.data.floating = c.data.floating
  carried : ∀ byte, after.holding = some byte → after.data.value = byte
  quiet : after.holding = none → after.data = c.data.release
    ∨ c.holding = none ∧ after.data = c.data

/-- A half-period, with the end of its cycle. -/
theorem Engages.voices (hk : c.Engages k inputs)
    (hcarried : ∀ byte, c.holding = some byte → c.data.value = byte)
    (emitted : List Emission) (stopping : Bool) :
    c.Voices (k.retains c.holding) ((k.runEdge emitted).finish stopping).1 := by
  have hbefore := hk.holding
  have hdata := data_runEdge (k := k) emitted stopping
  have houtcome : Outcome (some k) ((k.runEdge emitted).finish stopping).1 :=
    hk.underway.outcome stopping
  have hretains := hk.underway.retains_eq
  have hfloating : k.runHalf.1.data.floating = c.data.floating := by
    rw [floating_runHalf, hk.data]
  generalize ((k.runEdge emitted).finish stopping).1 = after at hdata houtcome ⊢
  rw [hbefore]
  cases houtcome with
  | rests rest first closed =>
    have hnone := holding_of_first first
    obtain ⟨hlast, -⟩ := closed k rfl
    rw [hlast, if_pos rfl] at hretains
    refine ⟨hretains.trans hnone.symm, ?_, fun byte hsome => (nomatch hnone.symm.trans hsome),
      fun _ => ?_⟩
    · rw [hdata, hfloating]
    · rw [hdata, hbefore, ← hk.data]
      rcases hk.underway.data_runHalf with hreleased | hkept | ⟨hmore, -⟩
      · exact Or.inl hreleased
      · exact Or.inr hkept
      · exact nomatch hlast.symm.trans hmore
  | amid d runs more result =>
    obtain rfl := Option.some.inj runs
    have hphase : k.runHalf.1.phase = .running := steady_runHalf.phase.trans hk.phase
    have hchosen : k.runHalf.1.boundaryPending = false := steady_runHalf.pending.trans hk.chosen
    have hnow : after.holding = k.runHalf.1.staged k.runHalf.1.cycle.half := by
      rw [result, holding_of_running hphase hchosen]
    rw [more, if_neg Bool.false_ne_true] at hretains
    refine ⟨hretains.trans hnow.symm, ?_, fun byte hsome => ?_, fun hnone => ?_⟩
    · rw [hdata, hfloating]
    · rw [hdata]
      refine (staged_runHalf hk.underway more (fun byte hstaged => ?_) (hnow.symm.trans hsome)).1
      rw [hk.data]
      exact hcarried byte (hbefore.trans hstaged)
    · rw [hdata, hbefore, ← hk.data]
      rcases hk.underway.data_runHalf with hreleased | hkept | ⟨-, hstaged⟩
      · exact Or.inl hreleased
      · exact Or.inr hkept
      · exact absurd (hnow.symm.trans hnone) hstaged

/-- Every edge. -/
theorem Sound.voices (h : c.Sound) (hcarried : ∀ byte, c.holding = some byte → c.data.value = byte)
    (level : Level) (inputs : InputLevels) (stopping : Bool) :
    c.Voices (c.heldAfter level inputs c.holding) ((c.edge level inputs).finish stopping).1 := by
  have hsampled := (h.sampleInputs inputs).leaveReset
  have hdata : (c.sampleInputs inputs).leaveReset.data = c.data := by
    rw [Core.leaveReset]
    split <;> rfl
  have hturn := c.turn level inputs
  have hengages (k : Core) (hk : c.engaged level inputs = some k) : c.Engages k inputs :=
    h.engages hk
  rw [heldAfter]
  generalize c.engaged level inputs = engaged at hturn hengages ⊢
  generalize c.edge level inputs = e at hturn ⊢
  cases hturn with
  | resets => exact ⟨rfl, rfl, fun _ hsome => (by cases hsome), fun _ => Or.inl rfl⟩
  | @passes s sampled phase =>
    subst sampled
    have hnow : (c.sampleInputs inputs).leaveReset.holding = none :=
      holding_of_phase fun hruns => by
        rcases phase with hwaits | hreleased
        · cases hwaits.symm.trans hruns
        · cases hreleased.symm.trans hruns
    have hbefore : c.holding = none := holding_of_phase fun hruns => by
      have hkept : (c.sampleInputs inputs).leaveReset.phase = .running := by
        have hgoes : (c.sampleInputs inputs).phase = .running := hruns
        rw [Core.leaveReset, hgoes]
        exact hgoes
      rcases phase with hwaits | hreleased
      · cases hwaits.symm.trans hkept
      · cases hreleased.symm.trans hkept
    refine ⟨?_, congrArg Bus.floating hdata, fun _ hsome => (by cases hnow.symm.trans hsome),
      fun _ => Or.inr ⟨hbefore, hdata⟩⟩
    show (if (c.sampleInputs inputs).leaveReset.phase = .powerOn then c.holding else none) = _
    rw [hbefore, ite_self]
    exact hnow.symm
  | @grants k emitted ready first =>
    have hkept := ready.leaves.2.2.trans hdata
    have hfloating := congrArg Bus.floating hkept
    have hreleased := congrArg Bus.release hkept
    exact ⟨rfl, hfloating, fun _ hsome => (by cases hsome), fun _ => Or.inl hreleased⟩
  | begins | continues => exact (hengages _ rfl).voices hcarried _ stopping

end Core

/-! ## Components that drive and let go -/

/-- The data bus after a component has acted, which may have driven it before.  It carries the byte
    that the component drives now, or floats if the component has let go. -/
def Bus.after (data : Bus Byte) (before : Bool) : Option Byte → Bus Byte
  | some byte => data.drive byte
  | none => if before then data.release else data

namespace Bus

variable {data : Bus Byte}

theorem floating_after (before : Bool) (now : Option Byte) :
    (data.after before now).floating = data.floating := by
  cases now with
  | some byte => rfl
  | none => cases before <;> rfl

/-- Components that do not drive the data bus leave it alone, or floating if one of them has let go. -/
theorem value_afters (first second third : Bool) :
    (((data.after first none).after second none).after third none).value =
      if first || second || third then data.floating else data.value := by
  cases first <;> cases second <;> cases third <;> rfl

end Bus

variable {level : Level} {pins : Pins} {address : Bus Word} {data : Bus Byte}

/-- The byte that memory drives. -/
def Memory.driven (m : Memory) (address : Bus Word) : Option Byte :=
  if m.driving then some (m.byteAt address) else none

theorem Memory.isSome_driven (m : Memory) (address : Bus Word) :
    (m.driven address).isSome = m.driving := by
  rw [driven]
  cases m.driving <;> rfl

/-- The byte that a latch drives. -/
def PortLatch.driven (l : PortLatch) (address : Word) : Option Byte :=
  if l.driving then some (l.get (Word.low address)) else none

theorem PortLatch.isSome_driven (l : PortLatch) (address : Word) :
    (l.driven address).isSome = l.driving := by
  rw [driven]
  cases l.driving <;> rfl

namespace InterruptSource

/-- The byte that a source has ready: the first one of its answer during an acknowledge, and later
    the one that its cursor is at. -/
def ready (s : InterruptSource) : Byte :=
  if s.acknowledging then s.firstByte else s.acknowledgeBytes[s.cursor]?.getD 0xFF

/-- The byte that a source drives. -/
def driven (s : InterruptSource) : Option Byte :=
  if s.driving then some s.ready else none

theorem isSome_driven (s : InterruptSource) : s.driven.isSome = s.driving := by
  rw [driven]
  cases s.driving <;> rfl

/-- A source that drives the data bus has a byte for it. -/
def Stocked (s : InterruptSource) : Prop :=
  s.driving = true → s.acknowledging = true ∨ 0 < s.cursor ∧ s.cursor < s.acknowledgeBytes.length

end InterruptSource

/-- A component has its say on an edge: it drives a byte, for which it has been asked, or lets go of
    the data bus if it has driven it. -/
structure Utters (data : Bus Byte) (asked before : Bool) (now : Option Byte) (after : Bus Byte) :
    Prop where
  data : after = data.after before now
  asked : now.isSome = true → asked = true

/-- Memory, which is not asked for a byte and given one at once. -/
theorem Memory.utters (m : Memory) (level : Level) (address : Bus Word) (data : Bus Byte)
    (hgives : pins.asksMemory = true → pins.givesMemory = false) :
    Utters data pins.asksMemory m.driving
      ((m.edge level pins address data).1.driven address) (m.edge level pins address data).2 := by
  rw [edge_eq]
  cases hasks : pins.asksMemory with
  | true =>
    rw [hgives hasks]
    refine ⟨?_, fun _ => rfl⟩
    rw [answered, hasks]
    rfl
  | false =>
    refine ⟨?_, fun hsome => (by cases hsome)⟩
    show m.answered pins address data = data.after m.driving none
    rw [answered, hasks]
    rfl

/-- A latch, while no port is asked for a byte and given one at once. -/
theorem PortLatch.utters (l : PortLatch) (address : Bus Word) (data : Bus Byte)
    (hgives : pins.asksPort = true → pins.givesPort = false) :
    Utters data pins.asksPort l.driving
      ((l.edge pins address data).1.driven address.value) (l.edge pins address data).2 := by
  rw [edge_eq]
  cases hasked : l.asked pins address.value with
  | true =>
    have hport : pins.asksPort = true := (Bool.and_eq_true_iff.mp hasked).1
    refine ⟨?_, fun _ => hport⟩
    rw [carried, hasked, kept, given, hgives hport]
    rfl
  | false =>
    refine ⟨?_, fun hsome => (by cases hsome)⟩
    show l.carried pins address.value data = data.after l.driving none
    rw [carried, hasked]
    rfl

namespace InterruptSource

variable {s : InterruptSource}

theorem stopDriving_eq (s : InterruptSource) :
    s.stopDriving data = ({ s with driving := false }, data.after s.driving none) := by
  rw [stopDriving]
  cases hdriving : s.driving with
  | true => rfl
  | false =>
    cases s
    cases hdriving
    rfl

/-- What a source answers: it drives a byte that it has, if it is turned to, or lets go. -/
theorem utters_answer (s : InterruptSource) (data : Bus Byte)
    (hstocked : pins.turnToSource = true → s.Stocked) :
    Utters data pins.turnToSource s.driving (s.answer pins data).1.driven (s.answer pins data).2
      ∧ (s.answer pins data).1.Stocked := by
  have stops (s' : InterruptSource) (hsame : s'.driving = s.driving) :
      Utters data pins.turnToSource s.driving (s'.stopDriving data).1.driven (s'.stopDriving data).2
        ∧ (s'.stopDriving data).1.Stocked := by
    rw [stopDriving_eq, hsame]
    exact ⟨⟨rfl, fun hsome => (nomatch hsome)⟩, fun hdrives => (nomatch hdrives)⟩
  have passes (hsilent : s.driving = false) (s' : InterruptSource) (hsame : s'.driving = s.driving) :
      Utters data pins.turnToSource s.driving s'.driven data ∧ s'.Stocked := by
    rw [hsilent] at hsame ⊢
    rw [driven, hsame]
    exact ⟨⟨rfl, fun hsome => (nomatch hsome)⟩, fun hdrives => (nomatch hsame.symm.trans hdrives)⟩
  rw [answer]
  cases hacknowledges : pins.interruptAcknowledge with
  | true =>
    have hturned : pins.turnToSource = true := by
      rw [Pins.turnToSource, hacknowledges]
      rfl
    exact ⟨⟨rfl, fun _ => hturned⟩, fun _ => Or.inl rfl⟩
  | false =>
    rw [if_neg Bool.false_ne_true]
    split
    · exact stops _ rfl
    next hidle =>
    have hidle := Bool.eq_false_iff.mpr hidle
    split
    · next hreads =>
      obtain ⟨hcursor, hread⟩ := Bool.and_eq_true_iff.mp hreads
      have hturned : pins.turnToSource = true := by
        rw [Pins.turnToSource, hread, Bool.or_true]
      split
      · next byte hbyte =>
        have hready : { s with driving := true }.ready = byte := by
          rw [ready, hidle]
          exact congrArg (Option.getD · 0xFF) hbyte
        refine ⟨⟨?_, fun _ => hturned⟩, fun _ =>
          Or.inr ⟨of_decide_eq_true hcursor, (List.getElem?_eq_some_iff.mp hbyte).1⟩⟩
        show data.drive byte = data.after s.driving (some { s with driving := true }.ready)
        rw [hready]
        rfl
      · next hnone =>
        -- a source that drives the data bus would have a byte left
        refine passes (Bool.eq_false_iff.mpr fun hdrives => ?_) _ rfl
        rcases hstocked hturned hdrives with hacknowledging | ⟨-, hroom⟩
        · exact nomatch hidle.symm.trans hacknowledging
        · rw [List.getElem?_eq_none_iff] at hnone
          omega
    split
    · exact stops _ rfl
    next hsilent =>
    split <;> exact passes (Bool.eq_false_iff.mpr hsilent) _ rfl

/-- A source on an edge. -/
theorem utters (s : InterruptSource) (level : Level) (data : Bus Byte)
    (hstocked : pins.turnToSource = true → s.Stocked) :
    Utters data pins.turnToSource s.driving (s.edge level pins data).1.driven
        (s.edge level pins data).2
      ∧ (s.edge level pins data).1.Stocked := by
  rw [edge]
  cases level with
  | low => exact s.utters_answer data hstocked
  | high => exact utters_answer { s with risingEdges := s.risingEdges + 1 } data hstocked

end InterruptSource

namespace Device

variable {device : Device}

/-- Nothing, a port latch, an interrupt source, or a port latch and an interrupt source. -/
inductive Usual : Device → Prop
  | unattached : Usual .unattached
  | latch (l : PortLatch) : Usual (.latch l)
  | source (s : InterruptSource) : Usual (.source s)
  | both (l : PortLatch) (s : InterruptSource) : Usual (.pair (.latch l) (.source s))

/-- The byte that the port latch drives. -/
def latchDriven (device : Device) (address : Word) : Option Byte :=
  device.latch?.bind fun latch => latch.driven address

theorem isSome_latchDriven (device : Device) (address address' : Word) :
    (device.latchDriven address).isSome = (device.latchDriven address').isSome := by
  rw [latchDriven, latchDriven]
  cases device.latch? with
  | none => rfl
  | some latch =>
    exact (latch.isSome_driven address).trans (latch.isSome_driven address').symm

/-- The byte that the interrupt source drives. -/
def sourceDriven (device : Device) : Option Byte :=
  device.source?.bind fun source => source.driven

/-- The interrupt source has a byte if it drives the data bus. -/
def Stocked (device : Device) : Prop :=
  ∀ source, device.source? = some source → source.Stocked

/-- The latch of a usual device follows the pins, and finds the data bus as memory leaves it. -/
theorem Usual.latch_edge (h : device.Usual) : (device.edge level pins address data).1.latch?
    = device.latch?.map fun latch => (latch.edge pins address data).1 := by
  cases h <;> rfl

/-- An edge of a usual device: the latch has its say, and then the source has. -/
theorem Usual.edge (h : device.Usual) (level : Level) (address : Bus Word) (data : Bus Byte)
    (hgives : pins.asksPort = true → pins.givesPort = false)
    (hstocked : pins.turnToSource = true → device.Stocked) :
    (device.edge level pins address data).1.Usual
      ∧ (device.edge level pins address data).1.Stocked
      ∧ ∃ between, Utters data pins.asksPort (device.latchDriven address.value).isSome
          ((device.edge level pins address data).1.latchDriven address.value) between
        ∧ Utters between pins.turnToSource device.sourceDriven.isSome
          (device.edge level pins address data).1.sourceDriven
          (device.edge level pins address data).2 := by
  have hquiet (asked : Bool) (data : Bus Byte) : Utters data asked false none data :=
    ⟨rfl, fun hsome => (nomatch hsome)⟩
  cases h with
  | unattached =>
    exact ⟨.unattached, fun _ hnone => (nomatch hnone), data, hquiet _ _, hquiet _ _⟩
  | latch l =>
    have hutters := l.utters address data hgives
    rw [← l.isSome_driven address.value] at hutters
    exact ⟨.latch _, fun _ hnone => (nomatch hnone), _, hutters, hquiet _ _⟩
  | source s =>
    obtain ⟨hutters, hnext⟩ := s.utters level data fun hturned =>
      hstocked hturned s rfl
    rw [← s.isSome_driven] at hutters
    exact ⟨.source _, fun _ hsome => Option.some.inj hsome ▸ hnext, data, hquiet _ _, hutters⟩
  | both l s =>
    have hfirst := l.utters address data hgives
    obtain ⟨hutters, hnext⟩ := s.utters level (l.edge pins address data).2
      fun hturned => hstocked hturned s rfl
    rw [← l.isSome_driven address.value] at hfirst
    rw [← s.isSome_driven] at hutters
    exact ⟨.both _ _, fun _ hsome => Option.some.inj hsome ▸ hnext, _, hfirst, hutters⟩

end Device

/-! ## The board -/

namespace Board

variable {b : Board} {held : Option Byte}

/-- The byte that a component drives, where the chip holds one or none. -/
def spoken (b : Board) (held : Option Byte) : Talker → Option Byte
  | .chip => held
  | .memory => b.memory.driven b.core.address
  | .port => b.device.latchDriven b.core.address.value
  | .source => b.device.sourceDriven

/-- The board with other levels and other hooks of the host, changed registers, and other bytes in
    memory. -/
def set (b : Board) (host : InputLevels) (hooks : Hooks) (f : Registers → Registers)
    (bytes : Array Byte) : Board :=
  { b with
    processor := { b.processor.modifyRegs f with hooks }
    memory.bytes := bytes
    host }

/-- What holds between edges of a board with a usual device. -/
structure TakesTurns (b : Board) (held : Option Byte) : Prop where
  sound : b.core.Sound
  usual : b.device.Usual
  floating : b.core.data.floating = 0xFF
  holds : held = b.core.holding
  carried : ∀ byte, held = some byte → b.core.data.value = byte
  /-- Once the chip has started, who drives the data bus is called on. -/
  called : b.core.phase ≠ .powerOn → ∀ talker, (b.spoken held talker).isSome = true →
    b.core.Calls talker
  stocked : b.core.phase ≠ .powerOn → b.device.Stocked
  floats : (∀ talker, (b.spoken held talker).isSome = false) → b.core.data.value = 0xFF

/-- At most one component drives the data bus, its byte is the one that the bus carries, and without
    any the bus floats. -/
structure OneVoice (b : Board) (held : Option Byte) : Prop where
  alone : ∀ talker other, (b.spoken held talker).isSome = true →
    (b.spoken held other).isSome = true → talker = other
  carried : ∀ talker byte, b.spoken held talker = some byte → b.core.data.value = byte
  floats : (∀ talker, (b.spoken held talker).isSome = false) → b.core.data.value = 0xFF

namespace TakesTurns

/-- What the chip leaves on its buses at an edge. -/
theorem voices (h : b.TakesTurns held) (level : Level) :
    b.core.Voices (b.core.heldAfter level b.inputs held) (b.moved level) := by
  obtain ⟨stopping, hstep⟩ := b.moved_eq level
  have hvoices := h.sound.voices (fun byte hsome => h.carried byte (h.holds.trans hsome)) level
    b.inputs stopping
  rw [hstep, h.holds]
  exact hvoices

theorem sound_moved (h : b.TakesTurns held) (level : Level) : (b.moved level).Sound := by
  obtain ⟨stopping, hstep⟩ := b.moved_eq level
  rw [hstep]
  exact (h.sound.edge level b.inputs).finish stopping

/-- Who is called on after an edge is called on by the chip as it has moved. -/
theorem calls_moved (b : Board) (level : Level) (talker : Talker) :
    (b.edge level).1.core.Calls talker = (b.moved level).Calls talker := by
  rw [(b.edge_parts level).2.2]
  cases talker <;> rfl

/-- Components say on an edge what the cycle has them say: memory, then the latch, then the source. -/
structure Said (b : Board) (held : Option Byte) (level : Level) (after : Board)
    (held' : Option Byte) : Prop where
  data : after.core.data =
    (((b.moved level).data.after (b.spoken held .memory).isSome (after.spoken held' .memory)).after
      (b.spoken held .port).isSome (after.spoken held' .port)).after
      (b.spoken held .source).isSome (after.spoken held' .source)
  called : ∀ talker, (after.spoken held' talker).isSome = true → after.core.Calls talker
  usual : after.device.Usual
  stocked : after.device.Stocked

theorem said (h : b.TakesTurns held) (level : Level) :
    Said b held level (b.edge level).1 (b.core.heldAfter level b.inputs held) := by
  obtain ⟨hmemory, hdevice, hcore⟩ := b.edge_parts level
  have hsound := h.sound_moved level
  have haddress : (b.edge level).1.core.address = (b.moved level).address := by rw [hcore]
  have hheld := (h.voices level).held
  generalize b.core.heldAfter level b.inputs held = held' at hheld ⊢
  -- memory comes first, the port next and the source last, each over the bus that the one before
  -- leaves
  have hfirst : Utters (b.moved level).data (b.moved level).pins.asksMemory
      (b.spoken held .memory).isSome ((b.edge level).1.spoken held' .memory)
      (b.memory.answered (b.moved level).pins (b.moved level).address (b.moved level).data) := by
    have hutters := b.memory.utters level (b.moved level).address (b.moved level).data
      hsound.givesMemory_of_asksMemory
    rw [← hmemory, Memory.edge_eq] at hutters
    rw [show (b.spoken held .memory).isSome = b.memory.driving from Memory.isSome_driven _ _,
      show (b.edge level).1.spoken held' .memory
        = (b.edge level).1.memory.driven (b.edge level).1.core.address from rfl, haddress]
    exact hutters
  have hstocked (hturned : (b.moved level).pins.turnToSource = true) : b.device.Stocked := by
    refine h.stocked ?_
    obtain ⟨stopping, hstep⟩ := b.moved_eq level
    have hcalls : (b.moved level).Calls .source := hturned
    rw [hstep] at hcalls hsound
    rw [h.sound.running_of_calls level stopping hsound hcalls]
    exact nofun
  obtain ⟨husual, hnext, third, hport, hsource⟩ := h.usual.edge level
    (b.moved level).address
    (b.memory.answered (b.moved level).pins (b.moved level).address (b.moved level).data)
    hsound.givesPort_of_asksPort hstocked
  rw [← hdevice] at husual hnext hport hsource
  have hthird : (b.edge level).1.core.data = third.after (b.spoken held .source).isSome
      ((b.edge level).1.spoken held' .source) := by
    rw [hcore]
    exact hsource.data
  have hsecond : third = (b.memory.answered (b.moved level).pins (b.moved level).address
      (b.moved level).data).after (b.spoken held .port).isSome
        ((b.edge level).1.spoken held' .port) := by
    rw [show (b.edge level).1.spoken held' .port
      = (b.edge level).1.device.latchDriven (b.edge level).1.core.address.value from rfl, haddress,
      show (b.spoken held .port).isSome = (b.device.latchDriven b.core.address.value).isSome from rfl,
      b.device.isSome_latchDriven _ (b.moved level).address.value]
    exact hport.data
  refine ⟨by rw [hthird, hsecond, hfirst.data], fun talker hsome => ?_, husual, hnext⟩
  rw [calls_moved]
  cases talker with
  | chip =>
    rw [show (b.edge level).1.spoken held' .chip = held' from rfl, hheld] at hsome
    exact fun hnone => nomatch (congrArg Option.isSome hnone).symm.trans hsome
  | memory => exact hfirst.asked hsome
  | port =>
    refine hport.asked ?_
    rw [← haddress]
    exact hsome
  | source => exact hsource.asked hsome

/-- While one is called on after an edge, the others have not driven the data bus before, and do not
    drive it now. -/
theorem others (h : b.TakesTurns held) {level : Level} {talker other : Talker}
    (hcalls : (b.moved level).Calls talker) (hne : other ≠ talker) :
    (b.spoken held other).isSome = false
      ∧ (b.edge level).1.spoken (b.core.heldAfter level b.inputs held) other = none := by
  have hsound := h.sound_moved level
  refine ⟨?_, Option.isNone_iff_eq_none.mp (Option.isSome_eq_false_iff.mp ?_)⟩
  · obtain ⟨stopping, hstep⟩ := b.moved_eq level
    rw [hstep] at hcalls hsound
    have hruns := h.sound.running_of_calls level stopping hsound hcalls
    refine Bool.eq_false_iff.mpr fun hbefore => hne ?_
    refine h.sound.calls_edge level stopping hsound hcalls (h.called ?_ other hbefore)
    rw [hruns]
    exact nofun
  · refine Bool.eq_false_iff.mpr fun hnow => hne ?_
    have hcalls' := (h.said level).called other hnow
    rw [calls_moved] at hcalls'
    exact hsound.calls_unique hcalls' hcalls

/-- After an edge there is one voice at most. -/
theorem oneVoice (h : b.TakesTurns held) (level : Level) :
    (b.edge level).1.OneVoice (b.core.heldAfter level b.inputs held) := by
  have hsaid := h.said level
  have hvoices := h.voices level
  -- who speaks has been called on, and the chip calls on one component at a time
  have hcalled (talker : Talker) (hspeaks :
      ((b.edge level).1.spoken (b.core.heldAfter level b.inputs held) talker).isSome = true) :
      (b.moved level).Calls talker := by
    rw [← calls_moved]
    exact hsaid.called talker hspeaks
  refine ⟨fun talker other hspeaks hother => ?_, fun talker byte hspeaks => ?_, fun hsilent => ?_⟩
  · exact (h.sound_moved level).calls_unique (hcalled talker hspeaks) (hcalled other hother)
  · have hothers (other : Talker) (hne : other ≠ talker) :=
      h.others (hcalled talker (by rw [hspeaks]; rfl)) hne
    rw [hsaid.data]
    cases talker with
    | chip =>
      obtain ⟨hmemory, hmemory'⟩ := hothers .memory nofun
      obtain ⟨hport, hport'⟩ := hothers .port nofun
      obtain ⟨hsource, hsource'⟩ := hothers .source nofun
      rw [hmemory, hmemory', hport, hport', hsource, hsource']
      exact hvoices.carried byte (hvoices.held.symm.trans hspeaks)
    | memory =>
      obtain ⟨hport, hport'⟩ := hothers .port nofun
      obtain ⟨hsource, hsource'⟩ := hothers .source nofun
      rw [hspeaks, hport, hport', hsource, hsource']
      rfl
    | port =>
      obtain ⟨hsource, hsource'⟩ := hothers .source nofun
      rw [hspeaks, hsource, hsource']
      rfl
    | source =>
      rw [hspeaks]
      rfl
  · have hnone (talker : Talker) :
        (b.edge level).1.spoken (b.core.heldAfter level b.inputs held) talker = none :=
      Option.isNone_iff_eq_none.mp (Option.isSome_eq_false_iff.mp (hsilent talker))
    -- without a voice the bus floats, unless nobody has spoken before either and it is as it was
    have hfloating : (b.moved level).data.floating = 0xFF := hvoices.floating.trans h.floating
    rw [hsaid.data, hnone .memory, hnone .port, hnone .source, Bus.value_afters, hfloating]
    split
    · rfl
    · next hbefore =>
      rcases hvoices.quiet (hvoices.held.symm.trans (hnone .chip)) with hreleased | ⟨hheld, hkept⟩
      · rw [hreleased]
        exact h.floating
      · rw [hkept]
        rw [Bool.or_eq_true, Bool.or_eq_true, not_or, not_or] at hbefore
        obtain ⟨⟨hmemory, hport⟩, hsource⟩ := hbefore
        refine h.floats fun talker => ?_
        cases talker with
        | chip => exact congrArg Option.isSome (h.holds.trans hheld)
        | memory => exact Bool.eq_false_iff.mpr hmemory
        | port => exact Bool.eq_false_iff.mpr hport
        | source => exact Bool.eq_false_iff.mpr hsource

/-- Every edge leaves a board on which the components take turns. -/
theorem edge (h : b.TakesTurns held) (level : Level) :
    (b.edge level).1.TakesTurns (b.core.heldAfter level b.inputs held) := by
  have hsaid := h.said level
  have hvoice := h.oneVoice level
  have hvoices := h.voices level
  have hsound := h.sound_moved level
  have hcore := (b.edge_parts level).2.2
  refine ⟨?_, hsaid.usual, ?_, ?_, fun byte hsome => hvoice.carried .chip byte hsome,
    fun _ => hsaid.called, fun _ => hsaid.stocked, hvoice.floats⟩
  · rw [hcore]
    exact hsound.withData _
  · rw [hsaid.data, Bus.floating_after, Bus.floating_after, Bus.floating_after]
    exact hvoices.floating.trans h.floating
  · rw [hvoices.held, hcore]
    rfl

/-- The host may set what it likes. -/
theorem set (h : b.TakesTurns held) (host : InputLevels) (hooks : Hooks)
    (f : Registers → Registers) (bytes : Array Byte) :
    (b.set host hooks f bytes).TakesTurns held := by
  have hspoken (talker : Talker) :
      ((b.set host hooks f bytes).spoken held talker).isSome = (b.spoken held talker).isSome := by
    cases talker with
    | memory =>
      exact (Memory.isSome_driven _ _).trans (b.memory.isSome_driven b.core.address).symm
    | chip | port | source => rfl
  refine ⟨h.sound.modifyRegs f, h.usual, h.floating, h.holds, h.carried,
    fun hphase talker hspeaks => ?_, h.stocked, fun hsilent => h.floats fun talker => ?_⟩
  · have hcalls := h.called hphase talker ((hspoken talker).symm.trans hspeaks)
    cases talker <;> exact hcalls
  · exact (hspoken talker).symm.trans (hsilent talker)

/-- A machine that has just been built. -/
theorem start {config : BoardConfig} {device : Device} {m : Machine} (husual : device.Usual)
    (built : Machine.build config device = .ok m) : m.board.TakesTurns none := by
  unfold Machine.build at built
  split at built
  · exact nomatch built
  · obtain rfl := Except.ok.inj built
    exact ⟨Core.sound_powerOn _ _, husual, rfl, rfl, nofun, fun hphase => absurd rfl hphase,
      fun hphase => absurd rfl hphase, fun _ => rfl⟩

end TakesTurns

end Board

/-! ## Runs -/

/-- Boards with a usual device, from power-on on, and the byte that the chip holds on the data bus.
    Between edges the host may set anything but the data bus and the device. -/
inductive Shared (config : BoardConfig) : Board → Option Byte → Prop where
  | start {device : Device} {m : Machine} (usual : device.Usual)
    (built : Machine.build config device = .ok m) : Shared config m.board none
  | edge {b : Board} {held : Option Byte} (h : Shared config b held) (level : Level) :
    Shared config (b.edge level).1 (b.core.heldAfter level b.inputs held)
  | set {b : Board} {held : Option Byte} (h : Shared config b held) (host : InputLevels)
    (hooks : Hooks) (f : Registers → Registers) (bytes : Array Byte) :
    Shared config (b.set host hooks f bytes) held

variable {config : BoardConfig} {b : Board} {held : Option Byte}

/-- On every run the components take turns. -/
theorem Shared.takesTurns (h : Shared config b held) : b.TakesTurns held := by
  induction h with
  | start usual built => exact .start usual built
  | edge _ level ih => exact ih.edge level
  | set _ host hooks f bytes ih => exact ih.set host hooks f bytes

/-- After every edge of every run at most one of the chip, memory, the port latch and the interrupt
    source drives the data bus.  The bus carries the byte of the one that does, and 0xFF if none
    does. -/
theorem Shared.one_voice (h : Shared config b held) (level : Level) :
    (b.edge level).1.OneVoice (b.core.heldAfter level b.inputs held) :=
  h.takesTurns.oneVoice level

/-- The board and the byte that the chip holds after some edges. -/
def Board.share (b : Board) (held : Option Byte) : List Level → Board × Option Byte
  | [] => (b, held)
  | level :: rest => (b.edge level).1.share (b.core.heldAfter level b.inputs held) rest

/-- A run goes on over any edges. -/
theorem Shared.share (h : Shared config b held) (levels : List Level) :
    Shared config (b.share held levels).1 (b.share held levels).2 := by
  induction levels generalizing b held with
  | nil => exact h
  | cons level rest ih => exact ih (h.edge level)

/-- A latch, and a source that interrupts and answers with RST 08h. -/
def latchAndSource : Device :=
  .pair (.latch {})
    (.source ((({} : InterruptSource).withPulse (.intUntilAcknowledged 0)).withAcknowledgeBytes
      [0xCF]))

/-- A machine with them. -/
def busyMachine : Machine :=
  { clock := .atRest
      { processor := .powerOn (.released 0xFFFF) (.released 0xFF)
        memory :=
          { Memory.ofSize (.truncated Machine.addressBus smallConfig.addressLines) 0x400 with
            rom := smallConfig.rom }
        device := latchAndSource } smallConfig.frequencyHz }

/-- Its board with interrupts enabled. -/
def busyBoard : Board :=
  busyMachine.board.set {} busyMachine.hooks (fun regs => { regs with iff1 := true, iff2 := true })
    busyMachine.memory.bytes

/-- The interrupt is acknowledged after a NOP, and the source alone puts its answer on the data
    bus. -/
theorem source_speaks_alone :
    let run := busyBoard.share none ((List.range 12).map fun edge => .ofBool (edge % 2 == 0))
    let held := run.1.core.heldAfter .high run.1.inputs run.2
    Shared smallConfig run.1 run.2
      ∧ (run.1.edge .high).1.spoken held .source = some 0xCF
      ∧ (run.1.edge .high).1.OneVoice held := by
  intro run held
  have hbuilt : Machine.build smallConfig latchAndSource = .ok busyMachine := rfl
  have hstart : Shared smallConfig busyBoard none := (Shared.start (.both _ _) hbuilt).set ..
  have hrun : Shared smallConfig run.1 run.2 := hstart.share _
  exact ⟨hrun, by decide +kernel, Shared.one_voice hrun .high⟩

end Z80Board
