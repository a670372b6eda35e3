import Z80Board.Proofs.Chip.Deferral
import Z80Board.Proofs.Chip.Imprint
import Z80Board.Proofs.Chip.Tally

/-! # Which instruction comes next

    The chip keeps a few bits of what has come to pass: an edge on NMI that has not been served, the
    level of NMI, an EI that has just ended, a HALT.  Here the whole history is kept: the levels that
    the edges have sampled, the instructions that have ended, and those that have been chosen.

    On every run without a reset the bits say of the history what they should.  So whenever the next
    instruction is chosen, on the edge that ends the last one or on a later one, the choice is the
    one that the history asks for; and the HALT pin is up exactly while the chip is halted. -/

namespace Z80Board

/-! ## History -/

/-- What comes to pass, as far as the choice of the next instruction depends on it. -/
inductive Happening where
  /-- An edge has sampled the input pins. -/
  | sampled (inputs : InputLevels)
  /-- An instruction has ended. -/
  | ended (code : Option Instruction)
  /-- The next instruction has been chosen. -/
  | chose (origin : Origin)

/-- The chip has accepted an interrupt. -/
def Origin.interrupts : Origin → Bool
  | .internal .nmi | .internal .intMode1 | .internal .intMode2 | .device => true
  | _ => false

/-- The instruction is one of this mnemonic. -/
def Instruction.performs (code : Option Instruction) (mnemonic : Mnemonic) : Bool :=
  code.any fun code => code.mnemonic == mnemonic

/-- What has come to pass, newest first. -/
abbrev History := List Happening

namespace History

/-- The level of INT at the last edge. -/
def int : History → Level
  | [] => .released
  | .sampled inputs :: _ => inputs.int
  | _ :: earlier => int earlier

/-- The level of NMI at the last edge. -/
def nmi : History → Level
  | [] => .released
  | .sampled inputs :: _ => inputs.nmi
  | _ :: earlier => nmi earlier

/-- NMI has gone from released to asserted on some edge since the last choice, or since power-on. -/
def nmiRose : History → Bool
  | [] => false
  | .sampled inputs :: earlier =>
    inputs.nmi.isAsserted && !(nmi earlier).isAsserted || nmiRose earlier
  | .ended _ :: earlier => nmiRose earlier
  | .chose _ :: _ => false

/-- The instruction that has ended last is one of this mnemonic. -/
def endedWith (mnemonic : Mnemonic) : History → Bool
  | [] => false
  | .ended code :: _ => Instruction.performs code mnemonic
  | _ :: earlier => endedWith mnemonic earlier

/-- A HALT has ended, and no interrupt has been accepted since. -/
def halting : History → Bool
  | [] => false
  | .sampled _ :: earlier => halting earlier
  | .ended code :: earlier => Instruction.performs code .halt || halting earlier
  | .chose origin :: earlier => !origin.interrupts && halting earlier

/-- Where the next instruction comes from: NMI first, then INT in the current mode, unless it is
    disabled or an EI has just ended, then the idle fetch of a halted chip, and then PC. -/
def next (history : History) (regs : Registers) : Origin :=
  if history.nmiRose then .internal .nmi
  else if history.int.isAsserted && regs.iff1 && !history.endedWith .ei then
    if regs.im = 0 then .device
    else if regs.im = 1 then .internal .intMode1
    else .internal .intMode2
  else if history.halting then .internal .haltNop
  else .memory regs.pc

/-- The history with an event. -/
def note (history : History) (e : Emission) : History :=
  match e.event with
  | .instructionEnd => .ended e.core.instruction :: history
  | .instructionStart => .chose e.core.origin :: history
  | _ => history

/-- The history after an edge of the chip. -/
def edge (history : History) (c : Core) (level : Level) (inputs : InputLevels)
    (stopping : Bool) : History :=
  ((c.edge level inputs).emitted ++ ((c.edge level inputs).finish stopping).2).foldl note
    (.sampled inputs :: history)

end History

/-- The registers when an instruction of this origin is chosen: NMI clears the first flip-flop, INT
    clears both. -/
def Origin.masks (origin : Origin) (regs : Registers) : Registers :=
  match origin with
  | .internal .nmi => { regs with iff1 := false }
  | .device | .internal .intMode1 | .internal .intMode2 =>
    { regs with iff1 := false, iff2 := false }
  | _ => regs

/-- The instruction that the chip performs by itself, if it is to. -/
def Origin.own (origin : Origin) : Option Instruction :=
  match origin with
  | .internal op => some (decoder.internal op)
  | _ => Option.none

/-- The chip `k` has chosen its next instruction as the history asks for, from the chip `prior`. -/
structure Core.Chosen (history : History) (prior k : Core) : Prop where
  origin : k.origin = history.next prior.regs
  /-- The chip knows the instruction already, if it performs it by itself. -/
  instruction : k.instruction = k.origin.own
  regs : k.regs = k.origin.masks prior.regs
  /-- The first cycle is a fetch, and with INT an acknowledge. -/
  cycle : k.cycle.kind = .opcodeFetch ∧ k.cycle.half = 0
    ∧ (k.cycle.pattern = .acknowledge ↔ k.origin.interrupts = true ∧ k.origin ≠ .internal .nmi)

/-- A run of the chip from power-on without a reset, with its history.  Between edges anybody may
    drive the data bus, and the host may change the registers. -/
inductive Unreset : Core → History → Prop where
  | powerOn (address : Bus Word) (data : Bus Byte) : Unreset (Core.powerOn address data) []
  | edge {c : Core} {history : History} (h : Unreset c history) (level : Level)
    (inputs : InputLevels) (released : inputs.reset.isAsserted = false) (stopping : Bool) :
    Unreset ((c.edge level inputs).finish stopping).1 (history.edge c level inputs stopping)
  | data {c : Core} {history : History} (h : Unreset c history) (data : Bus Byte) :
    Unreset { c with data } history
  | regs {c : Core} {history : History} (h : Unreset c history) (f : Registers → Registers) :
    Unreset (c.modifyRegs f) history

namespace Core

variable {c d k : Core} {halting : Bool}

/-! ## What is left behind -/

/-- What is left behind amid an instruction: an EI keeps interrupts out, and the chip is halted by
    the instruction, or from before. -/
def cast (ei halt halting : Bool) : Bool × Bool × Level :=
  (ei, halting || halt, .activeLow (halting || halt))

/-- Decoding an instruction leaves behind what it should. -/
theorem leaveBehind_decoded (mnemonic : Mnemonic) (halting : Bool) :
    leaveBehind mnemonic .decoded (cast false false halting)
      = cast (mnemonic == .ei) (mnemonic == .halt) halting := by
  cases halting <;> cases mnemonic <;> rfl

/-- Acting again changes nothing of it. -/
theorem leaveBehind_again (mnemonic : Mnemonic) (point : ExecPoint) (halting : Bool) :
    leaveBehind mnemonic point (cast (mnemonic == .ei) (mnemonic == .halt) halting)
      = cast (mnemonic == .ei) (mnemonic == .halt) halting := by
  by_cases hpoint : point = .decoded
  · subst hpoint
    cases halting <;> cases mnemonic <;> rfl
  · cases mnemonic
    case halt | di | ei => exact if_neg hpoint
    all_goals rfl

/-- The chip shows what it should of the instruction in progress. -/
def Casts (c : Core) (halting : Bool) : Prop :=
  c.shadow = cast (Instruction.performs c.instruction .ei)
    (Instruction.performs c.instruction .halt) halting

/-- It goes on doing so when the instruction is taken up, and when it acts. -/
theorem holds_casts (halting : Bool) : Imprint.Holds fun i =>
    i.shadow = cast (Instruction.performs i.instruction .ei)
      (Instruction.performs i.instruction .halt) halting where
  acts i code hcode h := by
    rw [hcode] at h
    show leaveBehind code.mnemonic .decoded i.shadow = _
    rw [h, show (i.act code .decoded).instruction = some code from hcode]
    exact leaveBehind_again code.mnemonic .decoded halting
  begins i page code hnone _ h := by
    rw [hnone] at h
    show leaveBehind code.mnemonic .decoded i.shadow = _
    rw [h]
    exact leaveBehind_decoded code.mnemonic halting

theorem Casts.runHalf (h : c.Casts halting) (hunderway : c.Underway) :
    c.runHalf.1.Casts halting :=
  (holds_casts halting).runHalf hunderway h

theorem Casts.of_imprint (h : c.Casts halting) (himprint : d.imprint = c.imprint) :
    d.Casts halting := by
  have hshadow : d.shadow = c.shadow := congrArg Imprint.shadow himprint
  have hcode : d.instruction = c.instruction := congrArg Imprint.instruction himprint
  rw [Casts, hshadow, hcode]
  exact h

theorem Casts.latchResult (h : c.Casts halting) : c.latchResult.Casts halting := by
  rcases c.imprint_latchResult with ⟨-, hkept⟩ | ⟨code, hcode, hacted⟩
  · exact h.of_imprint hkept
  · have hshadow := congrArg Imprint.shadow hacted
    have hinstruction : c.latchResult.instruction = some code :=
      (congrArg Imprint.instruction hacted).trans hcode
    rw [Casts, hcode] at h
    rw [Casts, hinstruction]
    refine hshadow.trans ?_
    show leaveBehind code.mnemonic _ c.shadow = _
    rw [h]
    exact leaveBehind_again code.mnemonic _ halting

theorem Casts.nextCycle (h : c.Casts halting) : c.nextCycle.1.Casts halting :=
  h.of_imprint c.imprint_nextCycle

/-! ## The choice -/

/-- What the chip knows of NMI and INT. -/
structure Senses (c : Core) (history : History) : Prop where
  pending : c.nmiPending = history.nmiRose
  seen : c.nmiSeen = history.nmi.isAsserted
  int : c.pins.int = history.int

/-- What the chip knows when it is about to choose. -/
structure Poised (c : Core) (history : History) : Prop where
  senses : c.Senses history
  shadow : c.shadow = cast (history.endedWith .ei) false history.halting

/-- What the chip knows amid an instruction. -/
structure Occupied (c : Core) (history : History) : Prop where
  senses : c.Senses history
  casts : c.Casts history.halting

/-- The chip with nothing left of the last instruction, before it starts the next one. -/
structure Blank (c : Core) (history : History) (halting : Bool) : Prop where
  instruction : c.instruction = none
  chain : c.chain = .opcode
  position : c.position = 0
  pending : c.nmiPending = false
  seen : c.nmiSeen = history.nmi.isAsserted
  int : c.pins.int = history.int
  shadow : c.shadow = cast false false halting

/-- No operation of the chip itself is an EI or a HALT. -/
theorem performs_internal (op : InternalOp) :
    Instruction.performs (some (decoder.internal op)) .ei = false
      ∧ Instruction.performs (some (decoder.internal op)) .halt = false := by
  have hall : ∀ p ∈ Catalog.internalOps, (p.1 == .ei) = false ∧ (p.1 == .halt) = false := by
    decide
  obtain ⟨p, hp, hmnemonic, -, -⟩ := internal_listed op
  rw [Instruction.performs, Instruction.performs, Option.any_some, Option.any_some, hmnemonic]
  exact hall p hp

variable {history : History} {prior : Core}

/-- The first cycle of an instruction is an acknowledge if INT begins it. -/
theorem Blank.busPattern {origin : Origin} (h : c.Blank history halting) :
    ({ c with origin } : Core).busPattern .opcodeFetch = .acknowledge
      ↔ origin.interrupts = true ∧ origin ≠ .internal .nmi := by
  rw [busPattern_first (c := { c with origin }) h.chain h.position]
  cases origin with
  | internal op => cases op <;> simp [acknowledging, Origin.interrupts]
  | memory | device | none => simp [acknowledging, Origin.interrupts]

theorem Blank.startInternal (op : InternalOp)
    (h : c.Blank history (!(Origin.internal op).interrupts && history.halting))
    (hregs : c.regs = (Origin.internal op).masks prior.regs)
    (hnext : history.next prior.regs = .internal op) :
    (c.startInternal op).Occupied (.chose (.internal op) :: history)
      ∧ Chosen history prior (c.startInternal op) := by
  obtain ⟨hei, hhalt⟩ := performs_internal op
  refine ⟨⟨⟨h.pending, h.seen, h.int⟩, ?_⟩, hnext.symm, rfl, hregs, rfl, rfl, h.busPattern⟩
  show c.shadow = cast (Instruction.performs (some (decoder.internal op)) .ei)
    (Instruction.performs (some (decoder.internal op)) .halt) _
  rw [hei, hhalt]
  exact h.shadow

theorem Blank.startFetch {origin : Origin} (hown : origin.own = none)
    (h : c.Blank history (!origin.interrupts && history.halting))
    (hregs : c.regs = origin.masks prior.regs) (hnext : history.next prior.regs = origin) :
    (c.startFetch origin).Occupied (.chose origin :: history)
      ∧ Chosen history prior (c.startFetch origin) := by
  refine ⟨⟨⟨h.pending, h.seen, h.int⟩, ?_⟩, hnext.symm, ?_, hregs, rfl, rfl, h.busPattern⟩
  · show c.shadow = cast (Instruction.performs c.instruction .ei)
      (Instruction.performs c.instruction .halt) _
    rw [h.instruction]
    exact h.shadow
  · show c.instruction = origin.own
    rw [h.instruction, hown]

/-- A chip that accepts an interrupt is not halted any more. -/
theorem shadow_leaveHalt (h : c.shadow = cast false false halting) :
    c.leaveHalt.shadow = cast false false false := by
  have hfields := h
  simp only [shadow, cast, Prod.mk.injEq] at hfields
  obtain ⟨hblocked, hhalted, hpin⟩ := hfields
  rw [leaveHalt]
  split
  · show (c.intBlocked, false, Level.released) = _
    rw [hblocked]
    rfl
  · next hgoes =>
    rw [h]
    rw [hhalted] at hgoes
    cases halting with
    | true => exact absurd rfl hgoes
    | false => rfl

/-- What accepting an interrupt leaves of the last instruction. -/
theorem Poised.leaveHalt (h : c.Poised history) :
    c.cleared.leaveHalt.takeNmi.Blank history false
      ∧ (c.nmiPending = false → c.cleared.leaveHalt.takeInt.Blank history false)
      ∧ c.cleared.leaveHalt.regs = c.regs := by
  have hfields := h.shadow
  simp only [Core.shadow, cast, Prod.mk.injEq] at hfields
  obtain ⟨-, hhalted, hpin⟩ := hfields
  have hcleared : c.cleared.shadow = cast false false history.halting := by
    show (false, c.halted, c.pins.halt) = _
    rw [hhalted, hpin]
    rfl
  have hshadow := shadow_leaveHalt hcleared
  have hleft : c.cleared.leaveHalt.instruction = none ∧ c.cleared.leaveHalt.chain = .opcode
      ∧ c.cleared.leaveHalt.position = 0 ∧ c.cleared.leaveHalt.nmiPending = c.nmiPending
      ∧ c.cleared.leaveHalt.nmiSeen = c.nmiSeen ∧ c.cleared.leaveHalt.pins.int = c.pins.int
      ∧ c.cleared.leaveHalt.regs = c.regs := by
    rw [Core.leaveHalt]
    split <;> exact ⟨rfl, rfl, rfl, rfl, rfl, rfl, rfl⟩
  obtain ⟨hnone, hchain, hposition, hpending, hseen, hint, hregs⟩ := hleft
  have hseen' := hseen.trans h.senses.seen
  have hint' := hint.trans h.senses.int
  exact ⟨⟨hnone, hchain, hposition, rfl, hseen', hint', hshadow⟩,
    fun hquiet => ⟨hnone, hchain, hposition, hpending.trans hquiet, hseen', hint', hshadow⟩, hregs⟩

/-- The next instruction is the one that the history asks for. -/
theorem Poised.resolveNext (h : c.Poised history) (hregs : prior.regs = c.regs) :
    c.resolveNext.Occupied (.chose c.resolveNext.origin :: history)
      ∧ Chosen history prior c.resolveNext := by
  obtain ⟨hnmi, hint, hkept⟩ := h.leaveHalt
  have hfields := h.shadow
  simp only [Core.shadow, cast, Prod.mk.injEq] at hfields
  obtain ⟨hblocked, hhalted, hpin⟩ := hfields
  rw [Bool.or_false] at hhalted
  have hnext : history.next prior.regs
      = if c.nmiPending then .internal .nmi
        else if c.pins.int.isAsserted && c.regs.iff1 && !c.intBlocked then
          if c.regs.im = 0 then .device
          else if c.regs.im = 1 then .internal .intMode1
          else .internal .intMode2
        else if c.halted then .internal .haltNop
        else .memory c.regs.pc := by
    rw [History.next, hregs, ← h.senses.pending, ← h.senses.int, ← hblocked, ← hhalted]
  rw [resolveNext_eq]
  -- the cases are those of the choice, in its order, and each decides one more test of `hnext`
  cases hrose : c.nmiPending with
  | true =>
    rw [hrose, if_pos rfl] at hnext
    rw [if_pos rfl, acceptNmi_eq]
    refine Blank.startInternal .nmi hnmi ?_ hnext
    show ({ c.cleared.leaveHalt.regs with iff1 := false } : Registers) = _
    rw [hkept, hregs]
    rfl
  | false =>
    rw [hrose, if_neg Bool.false_ne_true] at hnext
    rw [if_neg Bool.false_ne_true]
    cases haccepts : c.pins.int.isAsserted && c.regs.iff1 && !c.intBlocked with
    | true =>
      rw [haccepts, if_pos rfl] at hnext
      have hblank := hint hrose
      have hcut : c.cleared.leaveHalt.takeInt.regs
          = { prior.regs with iff1 := false, iff2 := false } := by
        show ({ c.cleared.leaveHalt.regs with iff1 := false, iff2 := false } : Registers) = _
        rw [hkept, hregs]
      rw [if_pos rfl, acceptInt_eq, hkept]
      split
      · next hzero =>
        rw [if_pos hzero] at hnext
        exact Blank.startFetch rfl hblank hcut hnext
      · next hzero =>
        rw [if_neg hzero] at hnext
        split
        · next hone =>
          rw [if_pos hone] at hnext
          exact Blank.startInternal .intMode1 hblank hcut hnext
        · next hone =>
          rw [if_neg hone] at hnext
          exact Blank.startInternal .intMode2 hblank hcut hnext
    | false =>
      rw [haccepts, if_neg Bool.false_ne_true] at hnext
      have hblank : c.cleared.Blank history history.halting := by
        refine ⟨rfl, rfl, rfl, hrose, h.senses.seen, h.senses.int, ?_⟩
        show (false, c.halted, c.pins.halt) = _
        rw [hhalted, hpin, cast, Bool.or_false]
      rw [if_neg Bool.false_ne_true]
      split
      · next hstopped =>
        rw [if_pos hstopped] at hnext
        exact Blank.startInternal .haltNop hblank hregs.symm hnext
      · next hruns =>
        rw [if_neg hruns] at hnext
        exact Blank.startFetch rfl hblank hregs.symm hnext

/-! ## One edge -/

theorem Senses.of_steady (h : c.Senses history) (hsteady : c.Steady d)
    (hinputs : d.pins.inputs = c.pins.inputs) : d.Senses history := by
  have hint : d.pins.int = c.pins.int := congrArg InputLevels.int hinputs
  exact ⟨hsteady.nmiPending.trans h.pending, hsteady.nmiSeen.trans h.seen, hint.trans h.int⟩

theorem Senses.sampleInputs (h : c.Senses history) (inputs : InputLevels) :
    (c.sampleInputs inputs).Senses (.sampled inputs :: history) := by
  refine ⟨?_, rfl, rfl⟩
  show (c.nmiPending || (inputs.nmi.isAsserted && !c.nmiSeen)) = _
  rw [h.pending, h.seen, Bool.or_comm]
  rfl

theorem Occupied.runHalf (h : c.Occupied history) (hunderway : c.Underway) :
    c.runHalf.1.Occupied history :=
  ⟨h.senses.of_steady steady_runHalf driven_runHalf.1, h.casts.runHalf hunderway⟩

theorem Occupied.nextCycle (h : c.Occupied history) :
    c.latchResult.nextCycle.1.Occupied history :=
  ⟨h.senses.of_steady (steady_latchResult.trans (steady_nextCycle _))
    (leaves_latchResult.trans leaves_nextCycle).inputPins, h.casts.latchResult.nextCycle⟩

/-- When an instruction ends, the chip knows what it needs for the next choice. -/
theorem Occupied.complete (h : c.Occupied history) :
    c.complete.Poised (.ended c.complete.instruction :: history) := by
  refine ⟨⟨h.senses.pending, h.senses.seen, h.senses.int⟩, ?_⟩
  have hcasts : c.shadow = _ := h.casts
  show c.shadow = _
  rw [hcasts, cast, cast, Bool.or_false]
  have hhalting : History.halting (.ended c.complete.instruction :: history)
      = (history.halting || Instruction.performs c.instruction .halt) := Bool.or_comm _ _
  rw [hhalting]
  rfl

/-- What the chip knows between edges, on a run without a reset. -/
structure Informed (c : Core) (history : History) : Prop where
  up : c.phase ≠ .reset
  poised : c.phase = .powerOn ∨ c.boundaryPending = true → c.Poised history
  occupied : c.phase ≠ .powerOn → c.boundaryPending = false → c.Occupied history

/-- The chip as it was seen last. -/
def lastSeen (c : Core) (emitted : List Emission) : Core :=
  emitted.foldl (fun _ e => e.core) c

/-- Every choice among the events is the one that the history asks for. -/
def Rightly (prior : Core) (history : History) : List Emission → Prop
  | [] => True
  | e :: rest =>
    (e.event = .instructionStart → Chosen history prior e.core)
      ∧ Rightly e.core (history.note e) rest

theorem rightly_append {first second : List Emission} : Rightly prior history (first ++ second)
    ↔ Rightly prior history first
      ∧ Rightly (prior.lastSeen first) (first.foldl History.note history) second := by
  induction first generalizing prior history with
  | nil => exact ⟨fun h => ⟨trivial, h⟩, And.right⟩
  | cons e rest ih =>
    show _ ∧ Rightly e.core (history.note e) (rest ++ second) ↔ (_ ∧ _) ∧ _
    rw [ih, and_assoc]
    rfl

/-- An event that is no choice is none to be judged. -/
theorem Rightly.other {e : Emission} {rest : List Emission} (hevent : e.event ≠ .instructionStart)
    (h : Rightly e.core (history.note e) rest) : Rightly prior history (e :: rest) :=
  ⟨fun hstart => absurd hstart hevent, h⟩

/-- A half-period, and what ends with it, keep the chip informed; if the next instruction is chosen
    it is the right one. -/
theorem Occupied.runEdge {emitted : List Emission}
    (h : c.Occupied (emitted.foldl History.note history)) (hunderway : c.Underway)
    (hphase : c.phase = .running) (hchosen : c.boundaryPending = false)
    (hrightly : Rightly prior history emitted) (stopping : Bool) :
    Rightly prior history
        ((c.runEdge emitted).emitted ++ ((c.runEdge emitted).finish stopping).2)
      ∧ ((c.runEdge emitted).finish stopping).1.Informed
        (((c.runEdge emitted).emitted ++ ((c.runEdge emitted).finish stopping).2).foldl
          History.note history) := by
  have hran := h.runHalf hunderway
  have hclosed := hran.nextCycle
  have hsteady := steady_runHalf.trans ((steady_latchResult (c := c.runHalf.1)).trans
    (steady_nextCycle _))
  have hphase' := hsteady.phase.trans hphase
  have hchosen' := hsteady.pending.trans hchosen
  -- a chip that goes on with its instruction
  have going {d : Core} (hd : d.Occupied (emitted.foldl History.note history))
      (hdphase : d.phase = .running) (hdchosen : d.boundaryPending = false) :
      d.Informed (emitted.foldl History.note history) := by
    refine ⟨fun hreset => (nomatch hdphase.symm.trans hreset), ?_, fun _ _ => hd⟩
    rintro (hwaits | hpending)
    · exact nomatch hdphase.symm.trans hwaits
    · exact nomatch hdchosen.symm.trans hpending
  rw [runEdge_eq, endCycle_eq]
  split
  · split
    · have hended := hclosed.complete
      cases stopping with
      | true =>
        show Rightly prior history (((emitted ++ [_]) ++ [_]) ++ [_])
          ∧ Informed _ ((((emitted ++ [_]) ++ [_]) ++ [_]).foldl History.note history)
        rw [List.append_assoc, List.append_assoc, rightly_append, List.foldl_append]
        refine ⟨⟨hrightly, .other nofun (.other nofun (.other nofun trivial))⟩, ?_⟩
        refine ⟨fun hreset => (nomatch hphase'.symm.trans hreset), fun _ => ?_, fun _ => nofun⟩
        exact ⟨⟨hended.senses.pending, hended.senses.seen, hended.senses.int⟩, hended.shadow⟩
      | false =>
        obtain ⟨hoccupied, hright⟩ := hended.resolveNext rfl
        obtain ⟨hrunning, hpending⟩ :=
          phase_resolveNext c.runHalf.1.latchResult.nextCycle.1.complete
        show Rightly prior history (((emitted ++ [_]) ++ [_]) ++ [_, _])
          ∧ Informed _ ((((emitted ++ [_]) ++ [_]) ++ [_, _]).foldl History.note history)
        rw [List.append_assoc, List.append_assoc, rightly_append, List.foldl_append]
        refine ⟨⟨hrightly, .other nofun (.other nofun ⟨fun _ => hright, .other nofun trivial⟩)⟩, ?_⟩
        refine ⟨fun hreset => (nomatch (hrunning.trans hphase').symm.trans hreset), ?_,
          fun _ _ => hoccupied⟩
        rintro (hwaits | hstill)
        · exact nomatch (hrunning.trans hphase').symm.trans hwaits
        · exact nomatch (hpending.trans hchosen').symm.trans hstill
    · show Rightly prior history ((emitted ++ [_]) ++ [_])
        ∧ Informed _ (((emitted ++ [_]) ++ [_]).foldl History.note history)
      rw [List.append_assoc, rightly_append, List.foldl_append]
      refine ⟨⟨hrightly, .other nofun (.other nofun trivial)⟩, ?_⟩
      exact going hclosed hphase' hchosen'
  · show Rightly prior history (emitted ++ [_])
      ∧ Informed _ ((emitted ++ [_]).foldl History.note history)
    rw [rightly_append, List.foldl_append]
    refine ⟨⟨hrightly, .other nofun trivial⟩, ?_⟩
    exact going hran (steady_runHalf.phase.trans hphase) (steady_runHalf.pending.trans hchosen)

theorem Informed.sampled (h : c.Informed history) (inputs : InputLevels) :
    (c.sampleInputs inputs).leaveReset.Informed (.sampled inputs :: history) := by
  have hkept : (c.sampleInputs inputs).leaveReset = c.sampleInputs inputs := if_neg h.up
  rw [hkept]
  refine ⟨h.up, fun hwaits => ?_, fun hruns hchosen => ?_⟩
  · have hpoised := h.poised hwaits
    exact ⟨hpoised.senses.sampleInputs inputs, hpoised.shadow⟩
  · have hoccupied := h.occupied hruns hchosen
    exact ⟨hoccupied.senses.sampleInputs inputs, hoccupied.casts⟩

/-- A chip that is made ready knows what it should amid an instruction, and if it has chosen that
    only now, the choice is right. -/
theorem Readied.occupied {emitted : List Emission} (hready : c.Readied k emitted)
    (h : c.Informed history) (hregs : prior.regs = c.regs) :
    k.Occupied (emitted.foldl History.note history) ∧ Rightly prior history emitted := by
  have keeps {d : Core} (hd : c.Poised history) (hsenses : d.nmiPending = c.nmiPending
      ∧ d.nmiSeen = c.nmiSeen ∧ d.pins.int = c.pins.int) (hshadow : d.shadow = c.shadow) :
      d.Poised history := by
    obtain ⟨hpending, hseen, hint⟩ := hsenses
    exact ⟨⟨hpending.trans hd.senses.pending, hseen.trans hd.senses.seen,
      hint.trans hd.senses.int⟩, hshadow.trans hd.shadow⟩
  have chooses {d : Core} (hd : d.Poised history) (hdregs : d.regs = c.regs) :
      d.resolveNext.Occupied (.chose d.resolveNext.origin :: history)
        ∧ Rightly prior history [⟨.instructionStart, d.resolveNext⟩] := by
    obtain ⟨hoccupied, hright⟩ := hd.resolveNext (hregs.trans hdregs.symm)
    exact ⟨hoccupied, fun _ => hright, trivial⟩
  cases hready with
  | running phase chosen =>
    exact ⟨h.occupied (by rw [phase]; decide) chosen, trivial⟩
  | returned phase chosen =>
    have hoccupied := h.occupied (by rw [phase]; decide) chosen
    exact ⟨⟨⟨hoccupied.senses.pending, hoccupied.senses.seen, hoccupied.senses.int⟩,
      hoccupied.casts⟩, trivial⟩
  | started phase running =>
    subst running
    exact chooses (keeps (h.poised (Or.inl phase)) ⟨rfl, rfl, rfl⟩ rfl) rfl
  | resolved phase pending cleared | returnedResolved phase pending cleared =>
    subst cleared
    exact chooses (keeps (h.poised (Or.inr pending)) ⟨rfl, rfl, rfl⟩ rfl) rfl

/-- Every edge without a reset keeps the chip informed, and whatever it chooses is right. -/
theorem Informed.edge (h : c.Informed history) (hsound : c.Sound) (level : Level)
    (inputs : InputLevels) (hreset : inputs.reset.isAsserted = false) (stopping : Bool) :
    Rightly c (.sampled inputs :: history)
        ((c.edge level inputs).emitted ++ ((c.edge level inputs).finish stopping).2)
      ∧ ((c.edge level inputs).finish stopping).1.Informed
        (history.edge c level inputs stopping) := by
  have hsampled := (hsound.sampleInputs inputs).leaveReset
  have hinformed := h.sampled inputs
  have hregs : c.regs = (c.sampleInputs inputs).leaveReset.regs := by
    rw [leaveReset]
    split <;> rfl
  have hturn := c.turn level inputs
  rw [History.edge]
  generalize c.engaged level inputs = engaged at hturn
  generalize c.edge level inputs = e at hturn ⊢
  cases hturn with
  | resets asserted => cases hreset.symm.trans asserted
  | @passes s sampled phase =>
    subst sampled
    exact ⟨.other (by rintro ⟨⟩) trivial, hinformed⟩
  | @grants k emitted ready first =>
    obtain ⟨hoccupied, hrightly⟩ := ready.occupied hinformed hregs
    obtain ⟨-, -, hchosen⟩ := ready.underway hsampled
    show Rightly c _ (emitted ++ [_])
      ∧ k.releaseBus.Informed ((emitted ++ [_]).foldl History.note _)
    rw [rightly_append, List.foldl_append]
    refine ⟨⟨hrightly, .other (by rintro ⟨⟩) trivial⟩, by rintro ⟨⟩, ?_, fun _ _ => ?_⟩
    · rintro (hwaits | hpending)
      · cases hwaits
      · cases hchosen.symm.trans hpending
    · exact ⟨⟨hoccupied.senses.pending, hoccupied.senses.seen, hoccupied.senses.int⟩,
        hoccupied.casts⟩
  | @begins k emitted ready first =>
    obtain ⟨hoccupied, hrightly⟩ := ready.occupied hinformed hregs
    obtain ⟨hunderway, hphase, hchosen⟩ := ready.underway hsampled
    refine Occupied.runEdge ?_ hunderway hphase hchosen ?_ stopping
    · rw [List.foldl_append]
      exact hoccupied
    · rw [rightly_append]
      exact ⟨hrightly, .other (by rintro ⟨⟩) trivial⟩
  | @continues k emitted ready later =>
    obtain ⟨hoccupied, hrightly⟩ := ready.occupied hinformed hregs
    obtain ⟨hunderway, hphase, hchosen⟩ := ready.underway hsampled
    exact hoccupied.runEdge hunderway hphase hchosen hrightly stopping

/-- The HALT pin shows whether the chip is halted. -/
theorem Informed.halt (h : c.Informed history) : c.pins.halt.isAsserted = c.halted := by
  have hpin {ei halt halting : Bool} (hshadow : c.shadow = cast ei halt halting) :
      c.pins.halt.isAsserted = c.halted := by
    simp only [shadow, cast, Prod.mk.injEq] at hshadow
    rw [hshadow.2.1, hshadow.2.2, Level.isAsserted_activeLow]
  by_cases hwaits : c.phase = .powerOn ∨ c.boundaryPending = true
  · exact hpin (h.poised hwaits).shadow
  · obtain ⟨hruns, hchosen⟩ := not_or.mp hwaits
    exact hpin (h.occupied hruns (Bool.eq_false_iff.mpr hchosen)).casts

end Core

/-! ## Runs -/

variable {c : Core} {history : History}

/-- On every run without a reset the chip is sound and informed. -/
theorem Unreset.informed (h : Unreset c history) : c.Sound ∧ c.Informed history := by
  induction h with
  | powerOn address data =>
    refine ⟨Core.sound_powerOn address data, nofun, fun _ => ⟨⟨rfl, rfl, rfl⟩, rfl⟩, ?_⟩
    exact fun hruns => absurd rfl hruns
  | edge _ level inputs released stopping ih =>
    obtain ⟨hsound, hinformed⟩ := ih
    exact ⟨(hsound.edge level inputs).finish stopping,
      (hinformed.edge hsound level inputs released stopping).2⟩
  | data _ data ih =>
    obtain ⟨hsound, hup, hpoised, hoccupied⟩ := ih
    refine ⟨hsound.withData data, hup, fun hwaits => ?_, fun hruns hchosen => ?_⟩
    · obtain ⟨⟨hpending, hseen, hint⟩, hshadow⟩ := hpoised hwaits
      exact ⟨⟨hpending, hseen, hint⟩, hshadow⟩
    · obtain ⟨⟨hpending, hseen, hint⟩, hcasts⟩ := hoccupied hruns hchosen
      exact ⟨⟨hpending, hseen, hint⟩, hcasts⟩
  | regs _ f ih =>
    obtain ⟨hsound, hup, hpoised, hoccupied⟩ := ih
    refine ⟨hsound.modifyRegs f, hup, fun hwaits => ?_, fun hruns hchosen => ?_⟩
    · obtain ⟨⟨hpending, hseen, hint⟩, hshadow⟩ := hpoised hwaits
      exact ⟨⟨hpending, hseen, hint⟩, hshadow⟩
    · obtain ⟨⟨hpending, hseen, hint⟩, hcasts⟩ := hoccupied hruns hchosen
      exact ⟨⟨hpending, hseen, hint⟩, hcasts⟩

/-- On every run without a reset the HALT pin is up exactly while the chip is halted; and whenever
    the next instruction is chosen, it is the one that the history up to then asks for. -/
theorem Unreset.arbitrates (h : Unreset c history) :
    c.pins.halt.isAsserted = c.snapshot.halted
      ∧ ∀ (level : Level) (inputs : InputLevels) (stopping : Bool) (before after : List Emission)
        (k : Core), inputs.reset.isAsserted = false →
        (c.edge level inputs).emitted ++ ((c.edge level inputs).finish stopping).2
          = before ++ ⟨.instructionStart, k⟩ :: after →
        Core.Chosen (before.foldl History.note (.sampled inputs :: history)) (c.lastSeen before)
          k := by
  obtain ⟨hsound, hinformed⟩ := h.informed
  refine ⟨hinformed.halt, ?_⟩
  intro level inputs stopping before after k hreset hsplit
  obtain ⟨hrightly, -⟩ := hinformed.edge hsound level inputs hreset stopping
  rw [hsplit, Core.rightly_append] at hrightly
  exact hrightly.2.1 rfl

/-- A run goes on with whatever edges do not reset the chip. -/
theorem Unreset.exists_steps (h : Unreset c history) (edges : List (Level × InputLevels))
    (hreset : ∀ edge ∈ edges, edge.2.reset.isAsserted = false) :
    ∃ history', Unreset (c.steps edges) history' := by
  induction edges generalizing c history with
  | nil => exact ⟨history, h⟩
  | cons edge rest ih =>
    exact ih (h.edge edge.1 edge.2 (hreset edge (List.mem_cons_self ..)) false)
      fun other hother => hreset other (List.mem_cons_of_mem _ hother)

/-- The chip after seven edges over a data bus that shows a HALT throughout. -/
def haltFetched : Core :=
  (Core.powerOn (.released 0xFFFF) (.released 0x76)).steps
    ((List.range 7).map fun edge => (.ofBool (edge % 2 == 0), {}))

/-- On the next edge the HALT ends, and the chip goes over to its idle fetch. -/
theorem halt_leads_to_idle_fetch : ∃ history, Unreset haltFetched history
    ∧ haltFetched.pins.halt.isAsserted = haltFetched.snapshot.halted
    ∧ ∃ k rest, (haltFetched.edge .low {}).emitted ++ ((haltFetched.edge .low {}).finish false).2
        = (haltFetched.edge .low {}).emitted ++ ⟨.instructionStart, k⟩ :: rest
      ∧ k.origin = .internal .haltNop
      ∧ Core.Chosen ((haltFetched.edge .low {}).emitted.foldl History.note
        (.sampled {} :: history)) (haltFetched.lastSeen (haltFetched.edge .low {}).emitted) k := by
  obtain ⟨history, hrun⟩ : ∃ history, Unreset haltFetched history :=
    (Unreset.powerOn (.released 0xFFFF) (.released 0x76)).exists_steps _ (by decide)
  obtain ⟨hpin, hchoice⟩ := Unreset.arbitrates hrun
  have hended : (haltFetched.edge .low {}).ended = true := by decide +kernel
  have hsplit : (haltFetched.edge .low {}).emitted
        ++ ((haltFetched.edge .low {}).finish false).2
      = (haltFetched.edge .low {}).emitted
        ++ ⟨.instructionStart, (haltFetched.edge .low {}).core.resolveNext⟩
          :: [⟨.halfTState, (haltFetched.edge .low {}).core.resolveNext⟩] := by
    rw [Edge.finish, if_pos hended]
    rfl
  have hidle : (haltFetched.edge .low {}).core.resolveNext.origin = .internal .haltNop := by
    decide +kernel
  exact ⟨history, hrun, hpin, _, _, hsplit, hidle, hchoice .low {} false _ _ _ rfl hsplit⟩

end Z80Board
