import Z80Board.Proofs.Chip.Grants
import Z80Board.Proofs.Chip.Lifecycle
import Z80Board.Proofs.Rig.Returns
import Z80Board.Proofs.Rig.Spans

/-! # Blocks

    The repeating block instructions copy a block or search one, a byte at a time.  Each byte is an
    instruction of its own: as long as there is more to do it puts PC back on itself, and is fetched
    again. -/

namespace Z80Board

/-! ## A chip that reads an opcode is not halted -/

namespace Core

variable {c k : Core} {level : Level} {inputs : InputLevels} {emitted : List Emission}

/-- As long as no instruction is known the chip is not halted. -/
def Awake (c : Core) : Prop :=
  c.instruction = none → c.halted = false

theorem Awake.of_imprint {d : Core} (h : c.Awake) (himprint : d.imprint = c.imprint) : d.Awake := by
  have hcode : d.instruction = c.instruction := congrArg Imprint.instruction himprint
  have hhalted : d.halted = c.halted := congrArg (fun i => i.shadow.2.1) himprint
  rw [Awake, hcode, hhalted]
  exact h

/-- An instruction that acts is known. -/
theorem holds_awake : Imprint.Holds fun i => i.instruction = none → i.shadow.2.1 = false where
  acts _ _ hcode _ hnone := by cases hcode.symm.trans hnone
  begins _ _ _ _ _ _ hnone := by cases hnone

/-- A chip that is made to read an opcode is woken up first. -/
theorem awake_resolveNext (c : Core) : c.resolveNext.Awake := by
  intro hnone
  cases hinterrupts : c.resolveNext.origin.interrupts with
  | true => exact (resolveNext_interrupted hinterrupts).2
  | false =>
    rw [resolveNext_eq] at hnone hinterrupts ⊢
    split at hinterrupts
    · cases hinterrupts
    next hnmi =>
    rw [if_neg hnmi] at hnone ⊢
    split at hinterrupts
    · rw [acceptInt_eq] at hinterrupts
      split at hinterrupts
      · cases hinterrupts
      split at hinterrupts <;> cases hinterrupts
    next hint =>
    rw [if_neg hint] at hnone ⊢
    split at hnone
    · cases hnone
    next hruns =>
    rw [if_neg hruns]
    exact Bool.eq_false_iff.mpr hruns

theorem Readied.awake (h : c.Readied k emitted) (hc : c.Awake) : k.Awake := by
  cases h with
  | running | returned => exact hc
  | started | resolved | returnedResolved => exact awake_resolveNext _

theorem Awake.runEdge (h : c.Awake) (hunderway : c.Underway) : (c.runEdge emitted).core.Awake := by
  have hrun : c.runHalf.1.Awake := holds_awake.runHalf hunderway h
  have hlatched : c.runHalf.1.latchResult.Awake := by
    rcases c.runHalf.1.imprint_latchResult with ⟨-, hkept⟩ | ⟨code, hcode, hacted⟩
    · exact hrun.of_imprint hkept
    · have hknown : c.runHalf.1.latchResult.instruction = some code :=
        (congrArg Imprint.instruction hacted).trans hcode
      intro hnone
      cases hknown.symm.trans hnone
  have hnext := hlatched.of_imprint (imprint_nextCycle _)
  rw [runEdge_eq, endCycle_eq]
  split
  · split <;> exact hnext
  · exact hrun

theorem Awake.edge (h : c.Awake) (hsound : c.Sound) : (c.edge level inputs).core.Awake := by
  have hsampled : (c.sampleInputs inputs).leaveReset.Awake := by
    rw [leaveReset]
    split <;> exact h
  have hsound' := (hsound.sampleInputs inputs).leaveReset
  have hturn := c.turn level inputs
  generalize c.engaged level inputs = engaged at hturn
  generalize c.edge level inputs = e at hturn ⊢
  cases hturn with
  | resets => exact fun _ => rfl
  | passes sampled => exact sampled ▸ hsampled
  | grants ready => exact ready.awake hsampled
  | begins ready | continues ready =>
    exact (ready.awake hsampled).runEdge (ready.underway hsound').1

end Core

variable {config : BoardConfig} {b : Board} {level : Level} {k : Core}

theorem Board.awake_edge (h : b.core.Awake) (hsound : b.core.Sound) (level : Level) :
    (b.edge level).1.core.Awake := by
  have hedge : (b.core.edge level b.inputs).core.Awake := h.edge hsound
  obtain ⟨stopping, hstep⟩ := b.moved_eq level
  obtain ⟨-, -, hcore⟩ := b.edge_parts level
  have hmoved : (b.moved level).Awake := by
    rw [hstep, Edge.finish]
    split
    · split
      · exact hedge
      · exact Core.awake_resolveNext _
    · exact hedge
  rw [hcore]
  exact hmoved

theorem Attended.awake (h : Attended config b) : b.core.Awake := by
  induction h with
  | start built =>
    rw [Machine.build] at built
    split at built
    · cases built
    · obtain rfl := Except.ok.inj built
      exact fun _ => rfl
  | edge h level ih => exact Board.awake_edge ih h.orderly.sound level
  | set _ _ _ _ _ _ ih => exact ih

/-- An instruction from memory begins on a chip that is not halted. -/
theorem Board.Opens.awake (hopens : b.Opens level k) (h : b.core.Awake) : k.halted = false := by
  obtain ⟨emitted, ready⟩ := Core.readied_engaged hopens.engaged
  refine (ready.awake ?_) hopens.unknown
  rw [Core.leaveReset]
  split <;> exact h

theorem Attended.awake_opens (h : Attended config b) (hopens : b.Opens level k) :
    k.halted = false :=
  hopens.awake h.awake

/-- It begins with a fetch of its first byte. -/
theorem Board.Opens.fetches (h : b.Opens level k) (hb : b.Orderly config) : k.Fetches .main 0 := by
  have hk := hb.sound.engages h.engaged
  have hmain := h.page_eq hk
  have hcourse := hk.underway.course
  obtain ⟨emitted, ready⟩ := Core.readied_engaged h.engaged
  have hsourced : k.Sourced := (ready.seated (hb.phased.sampled b.inputs)).sourced
  obtain ⟨hnone, hother⟩ := Core.origin_of_fromMemory h.memory
  have hcurrent := hcourse.current
  rw [Core.plan, h.unknown, h.position, hmain] at hcurrent
  have hcycle : (⟨.opcodeFetch, 4⟩ : MachineCycle) = ⟨k.cycle.kind, k.cycle.length⟩ :=
    Option.some.inj hcurrent
  obtain ⟨hkind, hlength⟩ := MachineCycle.mk.inj hcycle
  have hown : k.cycle.fromDevice = false :=
    Bool.eq_false_iff.mpr fun hdevice => hother (hsourced hdevice)
  cases hcourse.seeking h.unknown with
  | fetching _ _ hchain hpattern =>
    refine ⟨h.unknown, hmain, hchain, h.position, h.memory, hkind.symm, ?_, hown, hlength.symm⟩
    rcases hpattern with hfetch | hack
    · exact hfetch
    · cases (hcourse.acknowledges hack).1.symm.trans hnone
  | reading displaced =>
    rw [hmain] at displaced
    cases displaced
  | leading short =>
    rw [hmain, h.position] at short
    exact absurd short (Nat.lt_irrefl 0)

/-! ## Scene by scene -/

namespace Scene

variable {w : Surroundings} {s : Scene} {edges : Nat} {p : Core} {bytes : Array Byte}

/-- From this scene on the instruction takes so many edges, reads nothing but memory, and leads to
    this chip over these bytes. -/
inductive Finishes (w : Surroundings) : Scene → Nat → Core → Array Byte → Prop where
  | ends {s : Scene} (own : s.core.cycle.readsElsewhere = false) (ends : s.ends w = true) :
    Finishes w s (s.span w) (s.next w).core (s.next w).bytes
  | goes {s : Scene} {edges : Nat} {p : Core} {bytes : Array Byte}
    (own : s.core.cycle.readsElsewhere = false) (more : s.ends w = false)
    (later : Finishes w (s.next w) edges p bytes) : Finishes w s (s.span w + edges) p bytes

/-- It has so many scenes, of which the last one ends it. -/
theorem Finishes.count (h : s.Finishes w edges p bytes) :
    ∃ count, s.Lasts w count ∧ (s.nth w count).ends w = true
      ∧ (∀ i ≤ count, (s.nth w i).core.cycle.readsElsewhere = false)
      ∧ edges = s.spent w (count + 1) ∧ p = (s.nth w (count + 1)).core
      ∧ bytes = (s.nth w (count + 1)).bytes := by
  induction h with
  | ends own ends =>
    refine ⟨0, fun _ hbefore => absurd hbefore (Nat.not_lt_zero _), ends, fun i hi => ?_, rfl, rfl,
      rfl⟩
    rw [Nat.le_zero.mp hi]
    exact own
  | @goes s edges p bytes own more _ ih =>
    obtain ⟨count, hlasts, hends, hown, hedges, hp, hbytes⟩ := ih
    rw [← nth_succ] at hends hp hbytes
    refine ⟨count + 1, hlasts.succ more, hends, fun i hi => ?_, by rw [spent, hedges], hp, hbytes⟩
    cases i with
    | zero => exact own
    | succ i =>
      rw [nth_succ]
      exact hown i (by omega)

end Scene

namespace Machine

variable {m : Machine} {w : Surroundings} {edges : Nat} {p : Core} {bytes : Array Byte}

/-- A machine that is about to run the first half-period of an instruction comes to its end so. -/
theorem finishes_scene (h : m.board.Opens m.clock.level.flip k) (hb : m.board.Orderly w.config)
    (hfinishes : Scene.Finishes w ⟨k, m.memory.bytes, 0⟩ edges p bytes)
    (hnmi : k.nmiPending = false) (hcalm : m.Calm edges) :
    m.Finishes w.config edges p.complete bytes := by
  obtain ⟨count, hlasts, hends, hown, rfl, rfl, rfl⟩ := hfinishes.count
  exact finishes_opens h hb rfl hlasts hends hown hnmi hcalm

end Machine

/-! ## The instructions -/

/-- Which way a block is gone through. -/
inductive Direction where
  | up
  | down
deriving DecidableEq, Repr

namespace Direction

/-- What is added to a pointer. -/
def stride : Direction → Word
  | .up => 1
  | .down => 0xFFFF

/-- The byte behind the prefix of LDIR or LDDR. -/
def copies : Direction → Byte
  | .up => 0xB0
  | .down => 0xB8

/-- The byte behind the prefix of CPIR or CPDR. -/
def searches : Direction → Byte
  | .up => 0xB1
  | .down => 0xB9

theorem mem_both (d : Direction) : d ∈ [up, down] := by
  cases d <;> decide

end Direction

namespace Instruction

/-- What the tables say of an instruction without operands, which has these cycles behind its prefix. -/
structure Plain (code : Instruction) (length : Nat) (third : MachineCycle) : Prop where
  executes : code.action = .execute
  unindexed : code.index? = none
  unaddressed : code.memoryOperand? = none
  second : (code.timing.cycles false)[1]? = some ⟨.opcodeFetch, length⟩
  third : (code.timing.cycles false)[2]? = some third

/-- What the tables say of a repeating block instruction, which has this cycle behind its read. -/
structure Sweeps (code : Instruction) (d : Direction) (fourth : CycleKind) : Prop where
  executes : code.action = .execute
  unindexed : code.index? = none
  unaddressed : code.memoryOperand? = none
  repeats : code.mnemonic.repeats = true
  stride : code.mnemonic.stride = d.stride
  cycles : ∀ met, code.timing.cycles met
    = [⟨.opcodeFetch, 4⟩, ⟨.opcodeFetch, 4⟩, ⟨.memoryRead, 3⟩, ⟨fourth, 5⟩]
      ++ if met then [⟨.internal, 5⟩] else []

instance decidableSweeps (code : Instruction) (d : Direction) (fourth : CycleKind) :
    Decidable (code.Sweeps d fourth) :=
  decidable_of_iff
    (code.action = .execute ∧ code.index? = none ∧ code.memoryOperand? = none
      ∧ code.mnemonic.repeats = true ∧ code.mnemonic.stride = d.stride
      ∧ ∀ met, code.timing.cycles met
        = [⟨.opcodeFetch, 4⟩, ⟨.opcodeFetch, 4⟩, ⟨.memoryRead, 3⟩, ⟨fourth, 5⟩]
          ++ if met then [⟨.internal, 5⟩] else [])
    ⟨fun ⟨executes, unindexed, unaddressed, repeats, stride, cycles⟩ =>
      ⟨executes, unindexed, unaddressed, repeats, stride, cycles⟩,
     fun h => ⟨h.executes, h.unindexed, h.unaddressed, h.repeats, h.stride, h.cycles⟩⟩

namespace Sweeps

variable {code : Instruction} {d : Direction} {kind : CycleKind}

theorem plain (h : code.Sweeps d kind) : code.Plain 4 ⟨.memoryRead, 3⟩ :=
  ⟨h.executes, h.unindexed, h.unaddressed, by rw [h.cycles]; rfl, by rw [h.cycles]; rfl⟩

theorem fourth (h : code.Sweeps d kind) (met : Bool) :
    (code.timing.cycles met)[3]? = some ⟨kind, 5⟩ := by
  rw [h.cycles]
  rfl

/-- Only another pass takes another cycle. -/
theorem fifth (h : code.Sweeps d kind) (met : Bool) :
    (code.timing.cycles met)[4]? = if met then some ⟨.internal, 5⟩ else none := by
  rw [h.cycles]
  cases met <;> rfl

theorem sixth (h : code.Sweeps d kind) : (code.timing.cycles true)[5]? = none := by
  rw [h.cycles]
  rfl

end Sweeps

end Instruction

theorem Direction.copies_sweeps (d : Direction) :
    (decode .ed d.copies).Sweeps d .memoryWrite
      ∧ ((decode .ed d.copies).mnemonic = .ldir ∨ (decode .ed d.copies).mnemonic = .lddr) := by
  have hboth : ∀ d ∈ [up, down], (decode .ed d.copies).Sweeps d .memoryWrite
      ∧ ((decode .ed d.copies).mnemonic = .ldir ∨ (decode .ed d.copies).mnemonic = .lddr) := by
    decide +kernel
  exact hboth d d.mem_both

theorem Direction.searches_sweeps (d : Direction) :
    (decode .ed d.searches).Sweeps d .internal
      ∧ ((decode .ed d.searches).mnemonic = .cpir ∨ (decode .ed d.searches).mnemonic = .cpdr) := by
  have hboth : ∀ d ∈ [up, down], (decode .ed d.searches).Sweeps d .internal
      ∧ ((decode .ed d.searches).mnemonic = .cpir ∨ (decode .ed d.searches).mnemonic = .cpdr) := by
    decide +kernel
  exact hboth d d.mem_both

namespace Core

variable {c d : Core} {code : Instruction} {met : Bool} {position : Nat} {byte : Byte}

/-- The chip runs the instruction from memory, and stands at this position of its cycles. -/
structure Executes (code : Instruction) (met : Bool) (position : Nat) (c : Core) : Prop where
  known : c.instruction = some code
  cycles : c.cycles = code.timing.cycles met
  place : c.position = position
  origin : c.fromMemory = true
  awake : c.halted = false

/-- The chip is about to run the cycle there. -/
structure Reaches (code : Instruction) (met : Bool) (position : Nat) (c : Core) : Prop
    extends c.Executes code met position where
  pattern : c.cycle.pattern = c.busPattern c.cycle.kind
  memory : c.cycle.fromDevice = false
  here : (code.timing.cycles met)[position]? = some ⟨c.cycle.kind, c.cycle.length⟩

/-- The next cycle comes. -/
theorem Executes.goes (h : (c.acted byte).Executes code met position) {next : MachineCycle}
    (hnext : (code.timing.cycles met)[position + 1]? = some next) :
    c.closed byte = ((c.acted byte).stepOn.beginCycle next.kind next.tStates, false)
      ∧ (c.closed byte).1.Reaches code met (position + 1) := by
  have hclosed : c.closed byte
      = ((c.acted byte).stepOn.beginCycle next.kind next.tStates, false) := by
    show (c.acted byte).nextCycle = _
    rw [nextCycle_of_some h.known, h.cycles, h.place, hnext]
  obtain ⟨-, hdevice⟩ := origin_of_fromMemory h.origin
  refine ⟨hclosed, ?_⟩
  rw [hclosed]
  refine ⟨⟨h.known, h.cycles, congrArg (· + 1) h.place, h.origin, h.awake⟩, ?_, ?_, hnext⟩
  · exact (posed_beginCycle (c.acted byte).stepOn next.kind next.tStates).pattern
  · show (decide ((c.acted byte).origin = .device) && _) = false
    rw [decide_eq_false hdevice]
    rfl

/-- There is no other cycle. -/
theorem Executes.ends (h : (c.acted byte).Executes code met position)
    (hlast : (code.timing.cycles met)[position + 1]? = none) :
    c.closed byte = ((c.acted byte).stepOn, true) := by
  show (c.acted byte).nextCycle = _
  rw [nextCycle_of_some h.known, h.cycles, h.place, hlast]

end Core

namespace Scene

variable {w : Surroundings} {s : Scene} {code : Instruction} {met : Bool} {position : Nat}
  {page : Page} {count edges : Nat} {p : Core} {bytes : Array Byte}

/-- A cycle that is no acknowledge takes as many edges as it has half-periods when its byte is
    latched. -/
theorem span_eq (h : s.core.cycle.pattern ≠ .acknowledge) :
    s.span w = 2 * (s.core.acted (s.byte w)).cycle.length := by
  rw [span, if_neg h, Core.acted, Core.cycle_latchResult]
  rfl

/-- So it does if the work of the instruction leaves its length as it is. -/
theorem span_of_length {length : Nat} (hpattern : s.core.cycle.pattern ≠ .acknowledge)
    (hkept : (s.core.acted (s.byte w)).cycle = s.core.cycle) (hlength : s.core.cycle.length = length) :
    s.span w = 2 * length := by
  rw [span_eq hpattern, hkept, hlength]

/-- A cycle that does not write leaves memory alone. -/
theorem bytes_next (h : s.core.cycle.pattern ≠ .write) : (s.next w).bytes = s.bytes := by
  rw [next, Core.leftBytes, Core.stores_of_reads h]
  rfl

theorem byte_of_fetch (h : s.core.Fetches page count) :
    s.byte w = w.config.byteAt s.bytes s.core.regs.pc := by
  have hreads : s.core.cycle.readsMemory = true := by
    rw [ActiveCycle.readsMemory, h.pattern, h.memory]
    rfl
  rw [byte, if_pos hreads, Core.cycleAddress, h.pattern]
  rfl

theorem own_of_fetch (h : s.core.Fetches page count) : s.core.cycle.readsElsewhere = false := by
  rw [ActiveCycle.readsElsewhere, h.pattern]
  exact h.memory

/-- The prefix is read, and leads to the next scene. -/
theorem leads (h : s.core.Fetches .main 0)
    (hbyte : w.config.byteAt s.bytes s.core.regs.pc = 0xED) :
    s.ends w = false ∧ s.span w = 8 ∧ (s.next w).core.Fetches .ed 1
      ∧ (s.next w).core.regs = { s.core.regs.incrementR with pc := s.core.regs.pc + 1 }
      ∧ (s.next w).core.halted = s.core.halted ∧ (s.next w).bytes = s.bytes := by
  have hnext : (decode .main (s.byte w)).action = .fetchNext .ed := by
    rw [byte_of_fetch h, hbyte]
    exact action_of_lead rfl
  obtain ⟨hacted, hclosed, hfetches⟩ := h.leads hnext
  refine ⟨?_, ?_, hfetches, ?_, ?_, bytes_next (by rw [h.pattern]; decide)⟩
  · rw [ends, hclosed]
  · rw [span_eq (by rw [h.pattern]; decide), hacted]
    show 2 * s.core.cycle.length = 8
    rw [h.length]
  · rw [next, hclosed, hacted]
    rfl
  · rw [next, hclosed, hacted]
    rfl

/-- If the instruction has another cycle, that one comes next. -/
theorem goes_on {following : MachineCycle} (h : (s.core.acted (s.byte w)).Executes code met position)
    (hnext : (code.timing.cycles met)[position + 1]? = some following) :
    s.ends w = false
      ∧ (s.next w).core
        = (s.core.acted (s.byte w)).stepOn.beginCycle following.kind following.tStates
      ∧ (s.next w).core.Reaches code met (position + 1) := by
  obtain ⟨hclosed, hreaches⟩ := h.goes hnext
  exact ⟨by rw [ends, hclosed], by rw [next, hclosed], hreaches⟩

/-- If it has none, it is over. -/
theorem is_over (h : (s.core.acted (s.byte w)).Executes code met position)
    (hlast : (code.timing.cycles met)[position + 1]? = none) :
    s.ends w = true ∧ (s.next w).core = (s.core.acted (s.byte w)).stepOn := by
  have hclosed := h.ends hlast
  exact ⟨by rw [ends, hclosed], by rw [next, hclosed]⟩

/-- The byte behind the prefix completes the opcode of an instruction without operands, which begins
    with some work on the registers and the latches. -/
theorem begins_plain {length : Nat} {third : MachineCycle}
    {work : Registers → Latches → Registers × Latches} (h : s.core.Fetches .ed 1)
    (hawake : s.core.halted = false)
    (hcode : decode .ed (w.config.byteAt s.bytes s.core.regs.pc) = code)
    (hplain : code.Plain length third)
    (hact : ∀ c : Core, c.act code .decoded
      = { c with regs := (work c.regs c.latches).1, latches := (work c.regs c.latches).2 }) :
    s.ends w = false ∧ s.span w = 2 * length ∧ (s.next w).core.Reaches code false 2
      ∧ ((s.next w).core.regs, (s.next w).core.latches)
        = work { s.core.regs.incrementR with pc := s.core.regs.pc + 1 } s.core.latches
      ∧ (s.next w).bytes = s.bytes := by
  generalize hmoved : ({ s.core.regs.incrementR with pc := s.core.regs.pc + 1 } : Registers) = moved
  have hbegun : ({ s.core with
      regs := moved, opcode := s.core.opcode.push (s.byte w) } : Core).beginExecution code
      = { s.core with
        regs := (work moved s.core.latches).1
        latches := (work moved s.core.latches).2
        opcode := s.core.opcode.push (s.byte w)
        instruction := some code
        cycles := code.timing.cycles false
        conditionMet := false
        cycle.length := length } := by
    rw [Core.beginExecution_eq, Core.takeUp, Core.placeDisplacement, hplain.unindexed]
    dsimp only
    rw [Core.execute]
    dsimp only
    rw [if_pos rfl, Core.addressOperand, hplain.unaddressed, hact, Core.fitLength,
      Core.templateLength, ← Timings.cycles_false]
    dsimp only
    rw [h.place, hplain.second]
  rw [← hmoved] at hbegun
  have hacted := h.begins (by rw [byte_of_fetch h]; exact hcode) hplain.executes hplain.unindexed
    hbegun.symm rfl h.kind
  rw [hmoved] at hacted
  have hexecutes : (s.core.acted (s.byte w)).Executes code false 1 := by
    rw [hacted]
    exact ⟨rfl, rfl, h.place, h.origin, hawake⟩
  obtain ⟨hmore, hcore, hreaches⟩ := goes_on hexecutes hplain.third
  refine ⟨hmore, ?_, hreaches, ?_, bytes_next (by rw [h.pattern]; decide)⟩
  · rw [span_eq (by rw [h.pattern]; decide), hacted]
  · rw [hcore, hacted]
    rfl

/-- Two fetches read such an instruction, and it does its work. -/
theorem opens_plain {length : Nat} {third : MachineCycle}
    {work : Registers → Latches → Registers × Latches} (h : s.core.Fetches .main 0)
    (hawake : s.core.halted = false)
    (hlead : w.config.byteAt s.bytes s.core.regs.pc = 0xED)
    (hcode : decode .ed (w.config.byteAt s.bytes (s.core.regs.pc + 1)) = code)
    (hplain : code.Plain length third)
    (hact : ∀ c : Core, c.act code .decoded
      = { c with regs := (work c.regs c.latches).1, latches := (work c.regs c.latches).2 }) :
    (s.ends w = false ∧ s.span w = 8 ∧ (s.next w).core.Fetches .ed 1
        ∧ (s.next w).ends w = false ∧ (s.next w).span w = 2 * length)
      ∧ ((s.next w).next w).core.Reaches code false 2
      ∧ (∃ r latches, (((s.next w).next w).core.regs, ((s.next w).next w).core.latches)
        = work { s.core.regs with r, pc := s.core.regs.pc + 2 } latches)
      ∧ ((s.next w).next w).bytes = s.bytes := by
  obtain ⟨hmore, hspan, hfetches, hregs, hhalted, hbytes⟩ := leads (w := w) h hlead
  have hpc : (s.next w).core.regs.pc = s.core.regs.pc + 1 := by rw [hregs]
  obtain ⟨hmore', hspan', hreaches, hwork, hbytes'⟩ := begins_plain (w := w) hfetches
    (hhalted.trans hawake) (by rw [hpc, hbytes, hcode]) hplain hact
  refine ⟨⟨hmore, hspan, hfetches, hmore', hspan'⟩, hreaches,
    ⟨s.core.regs.incrementR.incrementR.r, (s.next w).core.latches, ?_⟩, hbytes'.trans hbytes⟩
  have htwo : s.core.regs.pc + 1 + 1 = s.core.regs.pc + 2 := by grind
  rw [hwork, hregs, ← htwo]
  rfl

end Scene

/-! ## What is counted -/

namespace Core

variable {c : Core} {emitted : List Emission} {inputs : InputLevels}

theorem counter_runEdge (c : Core) (emitted : List Emission) :
    (c.runEdge emitted).core.instructionCounter
      = c.instructionCounter + (c.runEdge emitted).ended.toNat := by
  have hclosed : c.runHalf.1.latchResult.nextCycle.1.instructionCounter = c.instructionCounter :=
    ((steady_latchResult (c := c.runHalf.1)).trans (steady_nextCycle _)).counter.trans
      steady_runHalf.counter
  rw [runEdge_eq, endCycle_eq]
  split
  · split
    · exact congrArg (· + 1) hclosed
    · exact hclosed
  · exact steady_runHalf.counter

/-- An edge counts the instruction that it completes. -/
theorem counter_edge (c : Core) (level : Level) (inputs : InputLevels) :
    (c.edge level inputs).core.instructionCounter
      = c.instructionCounter + (c.edge level inputs).ended.toNat := by
  have hsampled : (c.sampleInputs inputs).leaveReset.instructionCounter = c.instructionCounter := by
    rw [leaveReset]
    split <;> rfl
  have hready {k : Core} {emitted : List Emission}
      (h : (c.sampleInputs inputs).leaveReset.Readied k emitted) :
      k.instructionCounter = c.instructionCounter := by
    rw [← hsampled]
    cases h with
    | running | returned => rfl
    | started _ changed | resolved _ _ changed | returnedResolved _ _ changed =>
      subst changed
      exact counter_resolveNext _
  have hturn := c.turn level inputs
  generalize c.engaged level inputs = engaged at hturn
  generalize c.edge level inputs = e at hturn ⊢
  cases hturn with
  | resets => rfl
  | passes sampled =>
    subst sampled
    exact hsampled
  | grants ready =>
    have hcounter := hready ready
    exact hcounter
  | begins ready | continues ready => rw [counter_runEdge, hready ready]

end Core

/-- What an edge adds to the counters of the chip. -/
theorem Board.counters_moved (b : Board) (level : Level) :
    (b.moved level).instructionCounter
        = b.core.instructionCounter + (b.core.edge level b.inputs).ended.toNat
      ∧ (b.moved level).halfTStates = b.core.halfTStates + 1 := by
  obtain ⟨stopping, hmoved⟩ := b.moved_eq level
  have htime := b.core.moorings_edge level b.inputs stopping
  simp only [Core.moorings, Prod.mk.injEq] at htime
  rw [← hmoved] at htime
  refine ⟨?_, htime.2.2⟩
  have hedge := b.core.counter_edge level b.inputs
  rw [hmoved, Edge.finish]
  split
  · split
    · exact hedge
    · exact (Core.counter_resolveNext _).trans hedge
  · exact hedge

namespace Machine

variable {m : Machine} {edges passes : Nat} {p : Core} {bytes : Array Byte} {pc : Word}

theorem counters_halfTick (m : Machine) :
    m.halfTick.1.core.instructionCounter = m.core.instructionCounter + m.ends.toNat
      ∧ m.halfTick.1.core.halfTStates = m.core.halfTStates + 1 := by
  obtain ⟨-, -, hcore⟩ := m.board.edge_parts m.clock.level.flip
  have hcounters := m.board.counters_moved m.clock.level.flip
  have hhalf : m.halfTick.1.core = (m.board.edge m.clock.level.flip).1.core := rfl
  rw [hhalf, hcore]
  exact hcounters

/-- Every edge is half a T-state. -/
theorem halfTStates_after (m : Machine) (edges : Nat) :
    (m.after edges).core.halfTStates = m.core.halfTStates + edges := by
  induction edges with
  | zero => rfl
  | succ edges ih =>
    rw [show m.after (edges + 1) = (m.after edges).halfTick.1 from rfl,
      (m.after edges).counters_halfTick.2, ih, Nat.add_assoc]

/-- The instruction is counted on the last edge. -/
theorem Finishes.counter (h : m.Finishes config edges p bytes) {sofar : Nat} (hsofar : sofar ≤ edges)
    (hsome : 0 < edges) : (m.after sofar).core.instructionCounter
      = m.core.instructionCounter + if sofar = edges then 1 else 0 := by
  induction sofar with
  | zero => rw [if_neg (Nat.ne_of_lt hsome)]; rfl
  | succ sofar ih =>
    rw [show m.after (sofar + 1) = (m.after sofar).halfTick.1 from rfl,
      (m.after sofar).counters_halfTick.1, ih (by omega), h.ended sofar hsofar,
      if_neg (Nat.ne_of_lt hsofar), Nat.add_zero]
    by_cases hlast : sofar + 1 = edges
    · rw [decide_eq_true hlast, if_pos hlast]
      rfl
    · rw [decide_eq_false hlast, if_neg hlast]
      rfl

/-- The edges of so many passes over an instruction, with fewer of them in the last one. -/
def passEdges (pass last passes : Nat) : Nat :=
  pass * (passes - 1) + last

/-- The machine completes the instruction at PC so many times, and leaves it with the last one. -/
structure Repeats (m : Machine) (pass last : Nat) (pc : Word) (passes : Nat) : Prop where
  completed : ∀ edges ≤ passEdges pass last passes, (m.after edges).core.instructionCounter
    = m.core.instructionCounter
      + if edges = passEdges pass last passes then passes else edges / pass
  stays : ∀ before, 0 < before → before < passes → (m.after (pass * before)).core.regs.pc = pc

variable {pass last : Nat}

theorem passEdges_one : passEdges pass last 1 = last := by
  rw [passEdges, Nat.sub_self, Nat.mul_zero, Nat.zero_add]

theorem passEdges_succ (pass last passes : Nat) :
    passEdges pass last (passes + 2) = pass + passEdges pass last (passes + 1) := by
  rw [passEdges, passEdges, Nat.add_sub_cancel, show passes + 2 - 1 = passes + 1 from rfl, Nat.mul_succ]
  omega

/-- One pass. -/
theorem Finishes.repeats (h : m.Finishes config last p bytes) (hsome : 0 < last) (hless : last ≤ pass)
    (pc : Word) : m.Repeats pass last pc 1 := by
  refine ⟨fun edges hedges => ?_, fun before hpositive hbefore => by omega⟩
  rw [passEdges_one] at hedges ⊢
  rw [h.counter hedges hsome]
  by_cases hlast : edges = last
  · rw [if_pos hlast, if_pos hlast]
  · rw [if_neg hlast, if_neg hlast, Nat.div_eq_of_lt (by omega)]

/-- A pass that leaves PC on the instruction, and those that follow. -/
theorem Finishes.repeats_again (h : m.Finishes config pass p bytes) (hsome : 0 < pass)
    (hpc : p.regs.pc = pc) (hlater : (m.after pass).Repeats pass last pc (passes + 1)) :
    m.Repeats pass last pc (passes + 2) := by
  have hcount : (m.after pass).core.instructionCounter = m.core.instructionCounter + 1 := by
    rw [h.counter (Nat.le_refl pass) hsome, if_pos rfl]
  refine ⟨fun edges hedges => ?_, fun before hpositive hbefore => ?_⟩
  · have htotal := passEdges_succ pass last passes
    by_cases hfirst : edges < pass
    · rw [h.counter (by omega) hsome, if_neg (by omega), if_neg (by omega),
        Nat.div_eq_of_lt hfirst]
    · obtain ⟨later, rfl⟩ : ∃ later, edges = pass + later := ⟨edges - pass, by omega⟩
      rw [after_add, hlater.completed later (by omega), hcount, htotal]
      by_cases hlast : later = passEdges pass last (passes + 1)
      · rw [if_pos hlast, if_pos (by omega)]
        omega
      · rw [if_neg hlast, if_neg (by omega), Nat.add_div_left _ hsome]
        omega
  · cases before with
    | zero => omega
    | succ before =>
      rw [Nat.mul_succ, Nat.add_comm, after_add]
      by_cases hfirst : before = 0
      · have hregs := h.between.visible.1
        rw [hfirst, Nat.mul_zero, ← hpc, ← hregs]
        generalize m.after pass = later
        rfl
      · exact hlater.stays before (by omega) (by omega)

end Machine

end Z80Board
