import Z80Board.Proofs.Chip.Standstill
import Z80Board.Proofs.Rig.Ports
import Z80Board.Proofs.Rig.Stores

/-! # The gist of a board

    The gist of a board is all of it that waits and bus grants cannot touch: the chip apart from its
    wires, the half-period it has come to, the address of its cycle, the bytes of memory, and the
    registers and the log of the latch.  A gist steps by itself, one half-period at a time and
    without ever waiting.

    An edge of an undisturbed board either leaves the gist as it is, or is one step of it.  A cycle
    that is held goes back by one half-period, and running that one again adds nothing. -/

namespace Z80Board

/-! ## Waits -/

namespace Core

variable {c k : Core} {half : Nat}

/-- What a half-period does does not depend on the byte on the data bus, unless it takes one in. -/
theorem effect_congr {byte byte' : Byte}
    (h : half = c.cycle.pattern.sampleHalf → c.takeIn byte = c.takeIn byte') :
    c.effect half byte = c.effect half byte' := by
  unfold effect
  split
  · rfl
  split
  · next hhere => exact h hhere
  · rfl

/-- Neither where WAIT is sampled nor just before does a half-period do anything. -/
theorem effect_waitsAt (h : c.cycle.pattern.WaitsAt half) (byte : Byte) :
    c.effect half byte = c ∧ c.effect (half - 1) byte = c := by
  unfold effect takeIn
  rcases h with ⟨rfl, hread, hwrite⟩ | ⟨rfl, hport⟩
  · cases hpattern : c.cycle.pattern
    case portRead => exact absurd hpattern hread
    case portWrite => exact absurd hpattern hwrite
    all_goals exact ⟨rfl, rfl⟩
  · rcases hport with hpattern | hpattern
    · rw [hpattern]
      exact ⟨rfl, rfl⟩
    · rw [hpattern]
      exact ⟨rfl, rfl⟩

/-- No half-period counts an instruction. -/
theorem counter_effect {byte : Byte} :
    (c.effect half byte).instructionCounter = c.instructionCounter := by
  have hmoved : c.movePointer.instructionCounter = c.instructionCounter := by rw [movePointer_eq]
  unfold effect
  split
  · unfold pushPointer
    split <;> rfl
  split
  · unfold takeIn
    split
    case h_1 | h_2 => exact (decodes_takeOpcodeByte c.countRefresh byte).counter
    case h_3 => exact (decodes_dispatch _ byte).counter.trans hmoved
    case h_4 => exact hmoved
    all_goals rfl
  · rfl

/-- The chip works on the byte that it finds. -/
theorem runHalf_logic : c.runHalf.1.logic = c.logic.effect c.cycle.half c.data.value := by
  rw [← effect_logic, ← runHalf_wiredAs_self]
  rfl

end Core

/-! ## The gist of a board -/

/-- All of a board that a stall cannot touch. -/
structure Gist where
  /-- The chip apart from its wires. -/
  core : Core
  /-- The half-period to come. -/
  half : Nat
  /-- The address of the cycle. -/
  address : Word
  bytes : Array Byte
  /-- The latch with no access going on. -/
  latch : PortLatch

namespace Gist

variable (config : BoardConfig) (g : Gist)

/-- The address of the cycle, once the half-period to come has put it out. -/
def addressed : Word :=
  if g.half = 0 then g.core.cycleAddress.getD g.address else g.address

/-- The byte that the cycle takes in. -/
def byte : Byte :=
  if g.core.cycle.pattern = .portRead then g.latch.reply g.address
  else config.byteAt g.bytes g.address

/-- The chip after the half-period to come. -/
def worked : Core :=
  g.core.effect g.half (g.byte config)

/-- The half-period to come is the last one of the cycle. -/
def last : Bool :=
  2 * (g.worked config).cycle.length ≤ g.half + 1

/-- The bytes of memory after the half-period to come. -/
def stored : Array Byte :=
  if g.core.cycle.pattern = .write ∧ g.half = 3 then
    config.apply g.bytes ⟨g.address, g.core.writeByte⟩
  else g.bytes

/-- The latch after the half-period to come. -/
def taken : PortLatch :=
  if g.core.cycle.pattern = .portWrite ∧ g.half = 2 then
    g.latch.take g.address g.core.latches.outLow
  else g.latch

/-- The half-period to come, and what follows the cycle if it is the last one. -/
def step : Gist :=
  { core :=
      if g.last config then (g.worked config).latchResult.followed.logic else g.worked config
    half := if g.last config then 0 else g.half + 1
    address := g.addressed
    bytes := g.stored config
    latch := g.taken }

/-- The half-period to come ends an instruction. -/
def ends : Bool :=
  g.last config && (g.worked config).latchResult.nextCycle.2

/-- The instruction that it ends. -/
def completed : Option Instruction :=
  (g.worked config).latchResult.nextCycle.1.instruction

/-- The gist after a number of steps. -/
def after : Nat → Gist
  | 0 => g
  | n + 1 => (after n).step config

end Gist

/-! ## The gist on the board -/

namespace Core

variable {c d : Core}

/-- A running chip goes on running, from the start of the next cycle. -/
theorem followed_running (h : c.phase = .running) :
    c.followed.phase = .running ∧ c.followed.cycle.half = 0 := by
  have hnext := (steady_nextCycle c).phase.trans h
  unfold followed
  split
  · exact ⟨phase_carryOn.trans hnext, half_carryOn _⟩
  · next hmore =>
    refine ⟨hnext, ?_⟩
    cases hcode : c.instruction with
    | none =>
      rw [nextCycle_of_none hcode]
      cases c.chain <;> rfl
    | some code =>
      rw [nextCycle_of_some hcode] at hmore ⊢
      cases hcycle : c.cycles[c.position + 1]? with
      | none =>
        rw [hcycle] at hmore
        exact absurd rfl hmore
      | some next => rfl

/-- The data bus is a wire. -/
theorem ready_withData (data : Bus Byte) :
    ({ c with data } : Core).ready.logic = c.ready.logic
      ∧ ({ c with data } : Core).ready.cycle.half = c.ready.cycle.half := by
  unfold ready
  dsimp only
  split
  · rw [carryOn_logic, carryOn_logic (c := c), half_carryOn, half_carryOn]
    exact ⟨rfl, rfl⟩
  · exact ⟨rfl, rfl⟩

end Core

namespace Board

variable {config : BoardConfig} {bytes : Array Byte} {b : Board} {t : Traffic} {g g' : Gist}
  {k : Core} {level : Level}

/-- The board has the gist `g`. -/
structure Shows (config : BoardConfig) (bytes : Array Byte) (b : Board) (t : Traffic) (g : Gist) :
    Prop where
  undisturbed : b.Undisturbed
  carries : b.Carries config bytes t
  calm : b.core.ready.Calm
  logic : b.core.ready.logic = g.core
  /-- A cycle that is held has gone back by one half-period. -/
  half : b.core.ready.cycle.half = g.half
    ∨ b.core.ready.cycle.half + 1 = g.half ∧ g.core.cycle.pattern.WaitsAt g.half
  address : t.address = g.address
  memory : b.memory.bytes = g.bytes
  latch : b.device.bank.idle = g.latch

/-- Amid a cycle a write strikes in its fourth half-period, once nothing holds it. -/
theorem strikes_runs (h : k.Underway) (hmore : k.runHalf.2 = false) :
    k.strikes = true ↔ k.cycle.pattern = .write ∧ k.cycle.half = 3 ∧ k.waits = false := by
  have hhalf := h.half_runHalf hmore
  rw [strikes_iff h hmore, (h.amid hmore).wired.givesMemory_iff, Core.pattern_runHalf]
  constructor
  · rintro ⟨hthree, hwrite, hroom⟩
    refine ⟨hwrite, hthree, ?_⟩
    rcases hhalf with ⟨hruns, -⟩ | ⟨-, hback, -⟩
    · exact hruns
    · omega
  · rintro ⟨hwrite, hthree, hruns⟩
    rcases hhalf with ⟨-, hnext⟩ | ⟨hwaits, -⟩
    · exact ⟨hthree, hwrite, by omega⟩
    · exact nomatch hruns.symm.trans hwaits

/-- What a board shows after an edge follows from what the chip has come to. -/
theorem Shows.of_moved (h : b.Shows config bytes t g) (level : Level)
    (hcalm : (b.moved level).ready.Calm) (hlogic : (b.moved level).ready.logic = g'.core)
    (hhalf : (b.moved level).ready.cycle.half = g'.half
      ∨ (b.moved level).ready.cycle.half + 1 = g'.half ∧ g'.core.cycle.pattern.WaitsAt g'.half)
    (haddress : (t.edge b level).address = g'.address)
    (hmemory : (b.edge level).1.memory.bytes = g'.bytes)
    (hlatch : (b.edge level).1.device.bank.idle = g'.latch) :
    (b.edge level).1.Shows config bytes (t.edge b level) g' := by
  obtain ⟨-, -, hcore⟩ := b.edge_parts level
  obtain ⟨hsame, hplace⟩ := Core.ready_withData (c := b.moved level) (b.edge level).1.core.data
  have hcore' : (b.edge level).1.core = { b.moved level with data := (b.edge level).1.core.data } := by
    rw [hcore]
  rw [← hcore'] at hsame hplace
  exact {
    undisturbed := h.undisturbed.edge level
    carries := h.carries.edge level
    calm := hcalm.of_logic hsame
    logic := hsame.trans hlogic
    half := hplace ▸ hhalf
    address := haddress
    memory := hmemory
    latch := hlatch }

/-- An edge that engages no chip leaves the gist as it is. -/
theorem Shows.stalls (h : b.Shows config bytes t g)
    (hengaged : b.core.engaged level b.inputs = none)
    (hlogic : (b.moved level).ready.logic = b.core.ready.logic)
    (hhalf : (b.moved level).ready.cycle.half = b.core.ready.cycle.half) :
    (b.edge level).1.Shows config bytes (t.edge b level) g := by
  have hedge := t.edge_eq b level
  rw [hengaged] at hedge
  have hrest : (b.moved level).pins.AtRest := by
    have houtcome := h.carries.settled.sound.outcome level b.inputs false
    rw [hengaged, ← h.undisturbed.moved_eq] at houtcome
    cases houtcome with
    | rests rest => exact rest
    | amid k runs => cases runs
  refine h.of_moved level (h.calm.of_logic hlogic) (hlogic.trans h.logic) ?_ ?_ ?_ ?_
  · rw [hhalf]
    exact h.half
  · rw [hedge]
    exact h.address
  · rw [h.carries.bytes_edge, hedge, ← h.carries.stores]
    exact h.memory
  · rw [h.undisturbed.idle_rests hrest]
    exact h.latch

/-- The chip that an edge engages has what the gist has. -/
structure Engaged (b : Board) (level : Level) (t : Traffic) (g : Gist) (k : Core) : Prop where
  engages : b.core.Engages k b.inputs
  logic : k.logic = g.core
  half : k.cycle.half = g.half ∨ k.cycle.half + 1 = g.half ∧ g.core.cycle.pattern.WaitsAt g.half
  traffic : t.edge b level = t.note k

namespace Engaged

theorem pattern (hk : b.Engaged level t g k) : k.cycle.pattern = g.core.cycle.pattern := by
  rw [← hk.logic]
  rfl

/-- Memory after the edge. -/
theorem bytes_edge (hk : b.Engaged level t g k) (h : b.Shows config bytes t g) :
    (b.edge level).1.memory.bytes =
      if k.strikes then config.apply g.bytes ⟨(t.begin k).address, k.writeByte⟩ else g.bytes := by
  rw [h.carries.bytes_edge, hk.traffic, ← h.memory, h.carries.stores]
  show List.foldl config.apply bytes (if k.strikes then _ else t.stores) = _
  split
  · rw [List.foldl_append]
    rfl
  · rfl

/-- A cycle that is held is where the gist is. -/
theorem held (hk : b.Engaged level t g k) (hwaits : k.waits = true) :
    k.cycle.half = g.half ∧ g.core.cycle.pattern.WaitsAt g.half := by
  have hhere : k.cycle.pattern.WaitsAt k.cycle.half := Core.waits_cases hwaits
  rw [hk.pattern] at hhere
  rcases hk.half with hsame | ⟨hback, hagain⟩
  · rw [← hsame]
    exact ⟨rfl, hhere⟩
  · -- there is no place to wait just before another one
    rcases hhere with ⟨hthree, -⟩ | ⟨hfive, -⟩ <;> rcases hagain with ⟨hthree', -⟩ | ⟨hfive', -⟩ <;>
      omega

/-- The chip works on the byte that the gist has for it. -/
theorem works (hk : b.Engaged level t g k) (h : b.Shows config bytes t g)
    (hhalf : k.cycle.half = g.half) : k.runHalf.1.logic = g.worked config := by
  rw [Core.runHalf_logic, hk.logic, hhalf]
  refine Core.effect_congr fun hsample => ?_
  have hmiddle : k.cycle.half ≠ 0 := by
    rw [hhalf, hsample]
    exact g.core.cycle.pattern.sampleHalf_ne_zero
  have haddress : (t.begin k).address = g.address := by
    rw [Traffic.begin, if_neg hmiddle]
    exact h.address
  have hcalm : k.Calm := h.calm.of_logic (hk.logic.trans h.logic.symm)
  have hreads (hmemory : k.cycle.readsMemory = true) (hport : g.core.cycle.pattern ≠ .portRead) :
      k.data.value = g.byte config := by
    have hsamples : k.samplesMemory = true := by
      rw [Core.samplesMemory, hmemory, hhalf, hk.pattern, beq_iff_eq.mpr hsample]
      rfl
    rw [h.carries.samples hk.engages hsamples, haddress, h.memory, Gist.byte, if_neg hport]
  rw [Core.takeIn, Core.takeIn]
  cases hpattern : g.core.cycle.pattern
  case acknowledge => exact absurd (hk.pattern.trans hpattern) hcalm.pattern
  case portRead =>
    have hseven : k.cycle.half = 7 := by
      rw [hhalf, hsample, hpattern]
      rfl
    have hread : k.cycle.pattern = .portRead := hk.pattern.trans hpattern
    obtain ⟨hsame, hphase, hchosen⟩ := hk.engages.amid hmiddle
    have hplace : k.address.value = g.address := by
      rw [← h.address, hk.engages.address]
      have hpattern' : b.core.cycle.pattern = .portRead := by
        rw [hsame] at hread
        exact hread
      refine h.carries.address hphase hchosen ?_ ?_ ?_
      · rw [hsame] at hmiddle
        exact hmiddle
      · rw [hpattern']
        rintro ⟨⟩
      · rw [ActiveCycle.Addresses, hpattern']
        decide
    rw [h.undisturbed.samples_port hk.engages hread hseven, hplace, Gist.byte, if_pos hpattern,
      ← h.latch]
    rfl
  case fetch | opcodeRead | read =>
    have hmemory : k.cycle.readsMemory = true := by
      rw [ActiveCycle.readsMemory, hk.pattern, hpattern, hcalm.memory]
      rfl
    rw [hreads hmemory (by rw [hpattern]; decide)]
  all_goals rfl

end Engaged

/-- A half-period that is held, or that is run again, leaves the gist as it is. -/
theorem Shows.idles (h : b.Shows config bytes t g) (hk : b.Engaged level t g k)
    (hmoved : b.moved level = k.runHalf.1) (hmore : k.runHalf.2 = false)
    (hidle : k.waits = true ∨ k.cycle.half + 1 = g.half ∧ g.core.cycle.pattern.WaitsAt g.half) :
    (b.edge level).1.Shows config bytes (t.edge b level) g := by
  have hhere : g.core.cycle.pattern.WaitsAt g.half := by
    rcases hidle with hwaits | ⟨-, hagain⟩
    · exact (hk.held hwaits).2
    · exact hagain
  have hplace : k.cycle.half = g.half ∧ k.waits = true ∨ k.cycle.half + 1 = g.half := by
    rcases hidle with hwaits | ⟨hback, -⟩
    · exact Or.inl ⟨(hk.held hwaits).1, hwaits⟩
    · exact Or.inr hback
  have hphase : k.runHalf.1.phase = .running := Core.steady_runHalf.phase.trans hk.engages.phase
  have hlater : k.cycle.half ≠ 0 := by
    rcases hhere with ⟨hthree, -⟩ | ⟨hfive, -⟩ <;> omega
  have hcalm : k.Calm := h.calm.of_logic (hk.logic.trans h.logic.symm)
  -- memory takes a byte in a half-period that is not held any more; this one is held, or before it
  have hdown : k.strikes = false := by
    refine Bool.eq_false_iff.mpr fun hstrikes => ?_
    obtain ⟨-, hthree, hruns⟩ := (strikes_runs hk.engages.underway hmore).mp hstrikes
    rcases hplace with ⟨-, hwaits⟩ | hback
    · exact nomatch hruns.symm.trans hwaits
    · rcases hhere with ⟨hthree', -⟩ | ⟨hfive, -⟩ <;> omega
  refine h.of_moved level ?_ ?_ ?_ ?_ ?_ ?_
  · rw [hmoved, Core.ready_of_running hphase]
    exact hcalm.runHalf
  · obtain ⟨hnow, hbefore⟩ := Core.effect_waitsAt hhere k.data.value
    rw [hmoved, Core.ready_of_running hphase, Core.runHalf_logic, hk.logic]
    rcases hplace with ⟨hsame, -⟩ | hback
    · rw [hsame]
      exact hnow
    · rw [show k.cycle.half = g.half - 1 by omega]
      exact hbefore
  · rw [hmoved, Core.ready_of_running hphase]
    rcases hk.engages.underway.half_runHalf hmore with ⟨hruns, hnext⟩ | ⟨hwaits, hback, -⟩
    · rcases hplace with ⟨-, hwaits⟩ | hagain
      · exact nomatch hruns.symm.trans hwaits
      · exact Or.inl (hnext.trans hagain)
    · refine Or.inr ⟨?_, hhere⟩
      rw [hback]
      exact (hk.held hwaits).1
  · rw [hk.traffic]
    show (t.begin k).address = g.address
    rw [Traffic.begin, if_neg hlater]
    exact h.address
  · rw [hk.bytes_edge h, hdown, if_neg Bool.false_ne_true]
  · rw [h.undisturbed.idle_runs hk.engages hmoved hmore, if_neg, h.latch]
    rintro ⟨hport, htwo⟩
    rw [hk.pattern] at hport
    rcases hhere with ⟨-, -, hother⟩ | ⟨hfive, -⟩
    · exact hother hport
    · rcases hplace with ⟨hsame, -⟩ | hback <;> omega

/-- The address of the cycle, once it has been put out. -/
theorem Engaged.address_note (hk : b.Engaged level t g k) (h : b.Shows config bytes t g)
    (hhalf : k.cycle.half = g.half) : (t.edge b level).address = g.addressed := by
  rw [hk.traffic]
  show (t.begin k).address = g.addressed
  rw [Traffic.begin, Gist.addressed, hhalf, ← hk.logic, ← h.address]
  split <;> rfl

/-- A half-period that is not held, amid a cycle, is a step of the gist. -/
theorem Shows.proceeds (h : b.Shows config bytes t g) (hk : b.Engaged level t g k)
    (hmoved : b.moved level = k.runHalf.1) (hmore : k.runHalf.2 = false)
    (hruns : k.waits = false) (hhalf : k.cycle.half = g.half) :
    g.last config = false
      ∧ (b.edge level).1.Shows config bytes (t.edge b level) (g.step config) := by
  have hphase : k.runHalf.1.phase = .running := Core.steady_runHalf.phase.trans hk.engages.phase
  have hcalm : k.Calm := h.calm.of_logic (hk.logic.trans h.logic.symm)
  have hworks := hk.works h hhalf
  have hlength : k.runHalf.1.cycle.length = (g.worked config).cycle.length := by
    rw [← hworks]
    rfl
  obtain ⟨hnext, hroom⟩ : k.runHalf.1.cycle.half = g.half + 1
      ∧ k.runHalf.1.cycle.half < 2 * k.runHalf.1.cycle.length := by
    rcases hk.engages.underway.course.runHalf_runs hruns with ⟨-, hcourse, hnext, -⟩ | ⟨hlast, -⟩
    · exact ⟨hnext.trans (congrArg (· + 1) hhalf), hcourse.half_lt⟩
    · cases hmore.symm.trans hlast
  have hlast : g.last config = false := by
    rw [Gist.last, decide_eq_false]
    omega
  refine ⟨hlast, h.of_moved level ?_ ?_ (Or.inl ?_) (hk.address_note h hhalf) ?_ ?_⟩
  · rw [hmoved, Core.ready_of_running hphase]
    exact hcalm.runHalf
  · rw [hmoved, Core.ready_of_running hphase, hworks, Gist.step, hlast]
    rfl
  · rw [hmoved, Core.ready_of_running hphase, Gist.step, hlast]
    exact hnext
  · -- a write strikes in its fourth half-period
    rw [hk.bytes_edge h]
    show _ = if g.core.cycle.pattern = .write ∧ g.half = 3 then _ else _
    by_cases hstrikes : k.strikes = true
    · obtain ⟨hwrite, hthree, -⟩ := (strikes_runs hk.engages.underway hmore).mp hstrikes
      rw [if_pos hstrikes, if_pos ⟨hk.pattern.symm.trans hwrite, hhalf.symm.trans hthree⟩,
        Traffic.begin, if_neg (by omega), h.address, ← hk.logic]
      rfl
    · rw [if_neg hstrikes, if_neg]
      rintro ⟨hwrite, hthree⟩
      exact hstrikes ((strikes_runs hk.engages.underway hmore).mpr
        ⟨hk.pattern.trans hwrite, hhalf.trans hthree, hruns⟩)
  · -- a latch takes its byte in the third one
    rw [h.undisturbed.idle_runs hk.engages hmoved hmore, hk.pattern, hhalf]
    show _ = if g.core.cycle.pattern = .portWrite ∧ g.half = 2 then _ else _
    split
    · next htakes =>
      obtain ⟨hport, htwo⟩ := htakes
      have hlater : k.cycle.half ≠ 0 := by omega
      obtain ⟨hsame, hrunning, hchosen⟩ := hk.engages.amid hlater
      have hpattern : b.core.cycle.pattern = .portWrite := by
        have hpattern := hk.pattern.trans hport
        rw [hsame] at hpattern
        exact hpattern
      have haddress : k.address.value = g.address := by
        rw [← h.address, hk.engages.address]
        refine h.carries.address hrunning hchosen ?_ ?_ ?_
        · rw [hsame] at hlater
          exact hlater
        · rw [hpattern]
          rintro ⟨⟩
        · rw [ActiveCycle.Addresses, hpattern]
          decide
      have hbyte : k.latches.outLow = g.core.latches.outLow := by
        rw [← hk.logic]
        rfl
      rw [haddress, hbyte, PortLatch.idle_take, h.latch]
    · exact h.latch

/-- The last half-period of a cycle is a step of the gist. -/
theorem Shows.closes (h : b.Shows config bytes t g) (hk : b.Engaged level t g k)
    (hmoved : b.moved level = k.runHalf.1.latchResult.followed) (hlast : k.runHalf.2 = true) :
    g.last config = true ∧ k.runHalf.1.logic = g.worked config
      ∧ (b.edge level).1.Shows config bytes (t.edge b level) (g.step config) := by
  obtain ⟨hruns, hcloses, hsame, hroom⟩ := hk.engages.underway.last hlast
  -- the last half-period is behind every strobe, so neither memory nor the latch takes anything
  have hlate : 6 ≤ k.cycle.half + 1 ∧ (k.cycle.pattern = .portRead ∨ k.cycle.pattern = .portWrite →
      8 ≤ k.cycle.half + 1) := by
    revert hroom
    cases k.cycle.pattern <;> simp [BusPattern.minimumLength] <;> omega
  have hhalf : k.cycle.half = g.half := by
    rcases hk.half with hhalf | ⟨hback, hagain⟩
    · exact hhalf
    · rcases hagain with ⟨hthree, -⟩ | ⟨hfive, hport⟩
      · omega
      · rw [← hk.pattern] at hport
        have hlate' := hlate.2 hport
        omega
  have hcalm : k.Calm := h.calm.of_logic (hk.logic.trans h.logic.symm)
  have hworks := hk.works h hhalf
  have hrunning : k.runHalf.1.latchResult.phase = .running :=
    (Core.steady_runHalf.trans Core.steady_latchResult).phase.trans hk.engages.phase
  obtain ⟨hphase, hfirst⟩ := Core.followed_running hrunning
  have hend : g.last config = true := by
    have hlast' := hcloses.last
    rw [hsame, hhalf, show k.runHalf.1.cycle.length = (g.worked config).cycle.length by
      rw [← hworks]; rfl] at hlast'
    exact decide_eq_true (Nat.le_of_eq hlast'.symm)
  have hclosed : k.runHalf.1.pins.AtRest := by
    rcases hk.engages.underway.runHalf with ⟨hmore, -⟩ | ⟨-, -, hwired⟩
    · exact nomatch hmore.symm.trans hlast
    · exact hcloses.atRest hwired
  have hrest : (b.moved level).pins.AtRest := by
    rw [hmoved]
    exact (Core.leaves_latchResult.trans Core.leaves_followed).strobes.trans hclosed
  have hdown : k.strikes = false := strikes_rests hclosed
  refine ⟨hend, hworks, h.of_moved level ?_ ?_ (Or.inl ?_) (hk.address_note h hhalf) ?_ ?_⟩
  · rw [hmoved, Core.ready_of_running hphase]
    exact hcalm.runHalf.followed
  · rw [hmoved, Core.ready_of_running hphase, Core.followed_logic, Core.latchResult_logic, hworks,
      Gist.step, hend]
    rfl
  · rw [hmoved, Core.ready_of_running hphase, Gist.step, hend]
    exact hfirst
  · rw [hk.bytes_edge h, hdown, if_neg Bool.false_ne_true]
    refine (if_neg ?_).symm
    rintro ⟨-, hthree⟩
    omega
  · rw [h.undisturbed.idle_rests hrest, h.latch]
    refine (if_neg ?_).symm
    rintro ⟨hport, htwo⟩
    have hlate' := hlate.2 (Or.inr (hk.pattern.trans hport))
    omega

/-- An edge leaves the gist as it is, or it is one step of it.  It ends an instruction just when the
    step does, and then the same one. -/
theorem Shows.edge (h : b.Shows config bytes t g) (level : Level) :
    ((b.edge level).1.Shows config bytes (t.edge b level) g
        ∧ (b.core.edge level b.inputs).ended = false)
      ∨ ((b.edge level).1.Shows config bytes (t.edge b level) (g.step config)
        ∧ (b.core.edge level b.inputs).ended = g.ends config
        ∧ ((b.core.edge level b.inputs).ended = true →
          (b.core.edge level b.inputs).core.instruction = g.completed config)) := by
  have hstride := h.undisturbed.stride level
  have hmoved := h.undisturbed.moved_eq level
  have hedge := t.edge_eq b level
  have hengages (k : Core) (hk : b.core.engaged level b.inputs = some k) :=
    h.carries.settled.sound.engages hk
  generalize hengaged : b.core.engaged level b.inputs = engaged at hstride hedge hengages
  cases hstride with
  | stalls logic half _ goes =>
    rw [← hmoved] at logic half
    exact Or.inl ⟨h.stalls hengaged logic half, goes⟩
  | @runs k logic half more result goes =>
    have hk : b.Engaged level t g k :=
      ⟨hengages k rfl, logic.trans h.logic, half ▸ h.half, hedge⟩
    by_cases hidle : k.waits = true
        ∨ k.cycle.half + 1 = g.half ∧ g.core.cycle.pattern.WaitsAt g.half
    · exact Or.inl ⟨h.idles hk (hmoved.trans result) more hidle, goes⟩
    · have hruns : k.waits = false := Bool.eq_false_iff.mpr fun hwaits => hidle (Or.inl hwaits)
      have hhalf : k.cycle.half = g.half := hk.half.resolve_right fun hback => hidle (Or.inr hback)
      obtain ⟨hlast, hshows⟩ := h.proceeds hk (hmoved.trans result) more hruns hhalf
      refine Or.inr ⟨hshows, ?_, fun hends => absurd hends (Bool.eq_false_iff.mp goes)⟩
      rw [goes, Gist.ends, hlast]
      rfl
  | @closes k logic half last result ended code =>
    have hk : b.Engaged level t g k :=
      ⟨hengages k rfl, logic.trans h.logic, half ▸ h.half, hedge⟩
    obtain ⟨hlast, hworks, hshows⟩ := h.closes hk (hmoved.trans result) last
    obtain ⟨hcore, hend⟩ := Core.nextCycle_logic (c := k.runHalf.1.latchResult)
    rw [Core.latchResult_logic, hworks] at hcore hend
    refine Or.inr ⟨hshows, ?_, fun _ => ?_⟩
    · rw [ended, hend, Gist.ends, hlast]
      rfl
    · rw [code]
      exact show Core.instruction (Core.logic _) = Core.instruction (Core.logic _) by rw [hcore]

/-- What a program can see of the chip is in the gist. -/
theorem Shows.visible (h : b.Shows config bytes t g) :
    b.core.regs = g.core.regs ∧ b.core.halted = g.core.halted
      ∧ b.core.instructionCounter = g.core.instructionCounter := by
  have hready (c : Core) : c.ready.regs = c.regs ∧ c.ready.halted = c.halted
      ∧ c.ready.instructionCounter = c.instructionCounter := by
    unfold Core.ready
    split
    · exact Core.carryOn_visible
    · exact ⟨rfl, rfl, rfl⟩
  obtain ⟨hregs, hhalted, hcounter⟩ := hready b.core
  rw [← h.logic, ← hregs, ← hhalted, ← hcounter]
  exact ⟨rfl, rfl, rfl⟩

/-- The host may drive WAIT and BUSREQ as it likes. -/
theorem Shows.withHost (h : b.Shows config bytes t g) (host : InputLevels) (hgentle : host.Gentle) :
    ({ b with host } : Board).Shows config bytes t g := by
  have hundisturbed := h.undisturbed
  have hsettled : ({ b with host } : Board).Settled := h.carries.settled.withHost host
  exact {
    undisturbed := ⟨hsettled, hundisturbed.free, hgentle, hundisturbed.hooks, hundisturbed.plain,
      hundisturbed.driving, hundisturbed.writing, hundisturbed.shown, hundisturbed.floating,
      hundisturbed.floats⟩
    carries := ⟨hsettled, h.carries.fits, h.carries.stores, h.carries.address, h.carries.taken⟩
    calm := h.calm
    logic := h.logic
    half := h.half
    address := h.address
    memory := h.memory
    latch := h.latch }

end Board

/-! ## The pace of a gist -/

namespace Gist

variable {config config' : BoardConfig} {g : Gist}

/-- Neither the clock nor the waits of a configuration matter. -/
theorem step_congr (hsize : config'.memorySize = config.memorySize)
    (hrom : config'.rom = config.rom) (g : Gist) :
    g.step config' = g.step config ∧ g.ends config' = g.ends config
      ∧ g.completed config' = g.completed config := by
  have hbyte : g.byte config' = g.byte config := by
    rw [byte, byte, BoardConfig.byteAt, BoardConfig.index, hsize]
    rfl
  have hworked : g.worked config' = g.worked config := by rw [worked, hbyte, worked]
  have hlast : g.last config' = g.last config := by rw [last, hworked, last]
  have hstored : g.stored config' = g.stored config := by
    rw [stored, BoardConfig.apply, BoardConfig.isRom, BoardConfig.index, hsize, hrom]
    rfl
  refine ⟨?_, ?_, ?_⟩
  · rw [step, hlast, hworked, hstored, step]
  · rw [ends, hlast, hworked, ends]
  · rw [completed, hworked, completed]

theorem after_congr (hsize : config'.memorySize = config.memorySize)
    (hrom : config'.rom = config.rom) (g : Gist) (n : Nat) : g.after config' n = g.after config n := by
  induction n with
  | zero => rfl
  | succ n ih =>
    show (g.after config' n).step config' = (g.after config n).step config
    rw [ih, (step_congr hsize hrom _).1]

/-- A step counts the instruction that it ends. -/
theorem counter_step (g : Gist) :
    (g.step config).core.instructionCounter
      = g.core.instructionCounter + if g.ends config then 1 else 0 := by
  have hworked : (g.worked config).instructionCounter = g.core.instructionCounter :=
    Core.counter_effect
  have hnext := (Core.steady_latchResult.trans
    (Core.steady_nextCycle (g.worked config).latchResult)).counter.trans hworked
  rw [step, ends]
  cases g.last config with
  | false => exact hworked
  | true =>
    show (g.worked config).latchResult.followed.instructionCounter = _
    unfold Core.followed
    cases (g.worked config).latchResult.nextCycle.2 with
    | false => exact hnext
    | true => exact Core.carryOn_visible.2.2.trans (congrArg (· + 1) hnext)

theorem counter_mono (g : Gist) {n n' : Nat} (h : n ≤ n') :
    (g.after config n).core.instructionCounter ≤ (g.after config n').core.instructionCounter := by
  induction h with
  | refl => exact Nat.le_refl _
  | step _ ih =>
    refine Nat.le_trans ih ?_
    show _ ≤ ((g.after config _).step config).core.instructionCounter
    rw [counter_step]
    exact Nat.le_add_right _ _

/-- No two steps end an instruction with the same count. -/
theorem ends_unique {n n' : Nat} (hends : (g.after config n).ends config = true)
    (hends' : (g.after config n').ends config = true)
    (hcount : (g.after config (n + 1)).core.instructionCounter
      = (g.after config (n' + 1)).core.instructionCounter) : n = n' := by
  have hearlier {n n' : Nat} (hends' : (g.after config n').ends config = true) (hlt : n < n') :
      (g.after config (n + 1)).core.instructionCounter
        < (g.after config (n' + 1)).core.instructionCounter := by
    have hmono : (g.after config (n + 1)).core.instructionCounter
        ≤ (g.after config n').core.instructionCounter := counter_mono g (Nat.succ_le_of_lt hlt)
    have hstep : (g.after config (n' + 1)).core.instructionCounter
        = (g.after config n').core.instructionCounter + 1 := by
      show ((g.after config n').step config).core.instructionCounter = _
      rw [counter_step, hends', if_pos rfl]
    calc (g.after config (n + 1)).core.instructionCounter
        ≤ (g.after config n').core.instructionCounter := hmono
      _ < (g.after config n').core.instructionCounter + 1 := Nat.lt_succ_self _
      _ = (g.after config (n' + 1)).core.instructionCounter := hstep.symm
  rcases Nat.lt_trichotomy n n' with hlt | hsame | hgt
  · exact absurd hcount (Nat.ne_of_lt (hearlier hends' hlt))
  · exact hsame
  · exact absurd hcount.symm (Nat.ne_of_lt (hearlier hends hgt))

end Gist

end Z80Board
