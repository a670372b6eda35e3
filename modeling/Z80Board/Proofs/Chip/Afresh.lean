import Z80Board.Proofs.Chip.Deferral
import Z80Board.Proofs.Chip.Residue

/-! # A chip that starts afresh

    Chips that are alike but for a residue stay alike from cycle to cycle and from instruction to
    instruction, and every edge emits the same for both.  The next instruction fills whatever it
    needs, so that nothing is asked of the latches when it starts; and it clears what is known of the
    opcode, so that on the first rising edge two chips that only wait for it become alike, even if
    one of them has just been built and the other one was reset in the middle of something. -/

namespace Z80Board

/-- What is filled already adds nothing to a larger set. -/
theorem Filled.union_union_absorb (s t u : Filled) : (s ∪ u) ∪ (s ∪ (t ∪ u)) = s ∪ (t ∪ u) := by
  have hbit (a b d : Bool) : (a || d || (a || (b || d))) = (a || (b || d)) := by
    cases a <;> cases b <;> cases d <;> rfl
  simp only [Union.union, Filled.union, hbit]

namespace Core

variable {c d : Core} {code : Instruction} {filled filled' less : Filled} {half n t : Nat}

/-! ## The end of a cycle -/

/-- At its end, a cycle that reads has its byte in the latch. -/
theorem Closes.sampled (h : c.Closes)
    (hread : c.cycle.pattern = .read ∨ c.cycle.pattern = .portRead) :
    c.cycle.pattern.sampled (c.cycle.half + 1) = { fetched := true } := by
  have hroom := h.course.room
  have hbefore : c.cycle.pattern.sampleHalf < 2 * c.cycle.length := by
    rcases hread with hpattern | hpattern <;> rw [hpattern] at hroom ⊢
    · have hroom : 3 ≤ c.cycle.length := hroom
      show 5 < 2 * c.cycle.length
      omega
    · have hroom : 4 ≤ c.cycle.length := hroom
      show 7 < 2 * c.cycle.length
      omega
  rw [BusPattern.sampled, h.last, decide_eq_true hbefore]
  rcases hread with hpattern | hpattern <;> rw [hpattern] <;> rfl

/-- So has one that reads an operand. -/
theorem Closes.sampled_of_operand (h : c.Closes) (hkind : c.cycle.kind = .operand) :
    c.cycle.pattern.sampled (c.cycle.half + 1) = { fetched := true } := by
  refine h.sampled (Or.inl ?_)
  rw [← busPattern_of_uses h.course.uses (by rw [hkind]; decide) c, hkind]
  rfl

/-- At its end, a fetch has taken its byte in. -/
theorem Closes.late (h : c.Closes) : ¬ c.Fetching (c.cycle.half + 1) := by
  rintro ⟨hpattern, hearly⟩
  have hroom := h.course.room
  have hroom : 4 ≤ c.cycle.length := by
    rcases hpattern with hpattern | hpattern <;> rw [hpattern] at hroom <;> exact hroom
  have hlast := h.last
  omega

/-- Stowing the byte of a cycle keeps the chips alike. -/
theorem Echoes.stow (h : c.Echoes d (c.cycle.pattern.sampled (c.cycle.half + 1) ∪ filled) n t)
    (hcloses : c.Closes) (hmeets : filled.meets c.cycle.kind.uses = true) (code : Instruction) :
    (c.stow code).Echoes (d.stow code) (c.cycle.kind.stows code.operands ∪ filled) n t := by
  have hreads (hpattern : c.busPattern c.cycle.kind = .read ∨ c.busPattern c.cycle.kind = .portRead)
      (hkind : c.cycle.kind ≠ .opcodeFetch) :
      c.cycle.pattern.sampled (c.cycle.half + 1) = { fetched := true } := by
    rw [busPattern_of_uses hcloses.course.uses hkind] at hpattern
    exact hcloses.sampled hpattern
  have hstowed : (c.stow code).Echoes (d.stow code) (c.cycle.kind.stows code.operands
      ∪ (c.cycle.pattern.sampled (c.cycle.half + 1) ∪ filled)) n t := by
    refine h.map (f := fun c => c.stow code) (fun r => ?_) ?_
    · rw [← Filled.eq_of_meets hmeets]
      simp only [Core.stow]
      rw [show (c.bearing _ r).cycle.kind = c.cycle.kind from rfl]
      cases hkind : c.cycle.kind <;> rw [hkind] at hreads
      case operand | operandLow | memoryRead | memoryReadLow | memoryReadHigh | stackReadLow
          | stackReadHigh =>
        rw [hreads (Or.inl rfl) (by decide)]
        rfl
      case portRead =>
        rw [hreads (Or.inr rfl) (by decide)]
        rfl
      case operandHigh =>
        rw [hreads (Or.inl rfl) (by decide)]
        cases habsolute : code.operands.contains .absolute <;>
          simp only [Instruction.hasOperand, CycleKind.stows, habsolute] <;> rfl
      all_goals rfl
    · simp only [Core.stow]
      cases c.cycle.kind
      case operandHigh =>
        dsimp only
        split <;> rfl
      all_goals rfl
  exact hstowed.forget (Filled.union_union_absorb _ _ _)

/-- Acting leaves the displacement as it is. -/
theorem displacement_execute (c : Core) (point : ExecPoint) :
    (c.execute point).displacement = c.displacement ∧ (c.execute point).opcode = c.opcode := by
  rw [control_execute]
  exact ⟨rfl, rfl⟩

/-- The displacement of an instruction addresses memory when it is read. -/
theorem latchResult_of_places (hcode : c.instruction = some code) (hkind : c.cycle.kind = .operand)
    {x : Index} (hindex : code.index? = some x) (hnone : c.displacement = none) :
    c.latchResult = c.placeOperand x := by
  rw [latchResult_of_some hcode, if_neg (by rw [hkind]; decide), hkind, hindex, hnone]

/-- Behind any other cycle but a fetch, the instruction acts. -/
theorem latchResult_of_acts (hcode : c.instruction = some code)
    (hkind : c.cycle.kind ≠ .opcodeFetch)
    (hacts : ¬ (c.cycle.kind = .operand ∧ Operand.indexed? code.operands = true
      ∧ c.displacement.isSome = false)) :
    c.latchResult = (c.stow code).execute (.after c.cycle.kind) := by
  rw [latchResult_of_some hcode, if_neg hkind]
  split
  · next hindex hnone hoperand =>
    refine absurd ⟨hoperand, ?_, ?_⟩ hacts
    · rw [Operand.indexed?]
      exact congrArg Option.isSome hindex
    · rw [hnone]
      rfl
  · rfl

/-- Stowing a byte changes latches alone. -/
theorem stow_keeps (c : Core) (code : Instruction) :
    (c.stow code).instruction = c.instruction ∧ (c.stow code).displacement = c.displacement := by
  rw [stow]
  cases c.cycle.kind
  case operandHigh =>
    dsimp only
    split <;> exact ⟨rfl, rfl⟩
  all_goals exact ⟨rfl, rfl⟩

/-- Latching what a cycle has read keeps the chips alike, and what is to come supplied. -/
theorem Echoes.latchResult_known
    (h : c.Echoes d (c.cycle.pattern.sampled (c.cycle.half + 1) ∪ filled) n t)
    (hfeeds : c.Feeds (c.cycle.half + 1) filled) (hcloses : c.Closes)
    (hcode : c.instruction = some code) :
    ∃ filled, c.latchResult.Echoes d.latchResult filled n t
      ∧ c.latchResult.stepOn.Supplied code filled := by
  have halike : d.instruction = c.instruction ∧ d.cycle.kind = c.cycle.kind
      ∧ d.displacement = c.displacement := by
    obtain ⟨r, -, -, -, rfl⟩ := h
    exact ⟨rfl, rfl, rfl⟩
  have hcode' := halike.1.trans hcode
  have hsupplied := hfeeds.supplied code hcode hcloses.late
  obtain ⟨filled', hpass, hrest⟩ := hsupplied.pass hcloses.course hcode
  have hposition : c.latchResult.position = c.position :=
    position_of_place (latchResult_turns hcode).1
  -- what is supplied from here on follows from what becomes of the displacement
  have onward (hdisplaced : c.latchResult.displacement.isSome
      = (c.displacement.isSome || c.cycle.kind == .operand && Operand.indexed? code.operands)) :
      c.latchResult.stepOn.Supplied code filled' := by
    refine ⟨hsupplied.nested, ?_⟩
    show Filled.supplies _ _ c.latchResult.displacement.isSome filled'
      (code.timing.kinds.drop (c.latchResult.position + 1)) = true
    rw [hdisplaced, hposition]
    exact hrest
  rw [Filled.pass] at hpass
  split at hpass
  next hmeets =>
    split at hpass
    · -- what a fetch brings in is looked up at once, and nothing is latched
      next hfetch =>
      obtain rfl := Option.some.inj hpass
      have hlatched (c : Core) (hcode : c.instruction = some code)
          (hkind : c.cycle.kind = .opcodeFetch) : c.latchResult = c := by
        rw [latchResult_of_some hcode, if_pos hkind]
      refine ⟨filled, ?_, onward ?_⟩
      · rw [hlatched c hcode hfetch, hlatched d hcode' (halike.2.1.trans hfetch)]
        exact h.forget (Filled.union_absorb filled _)
      · rw [hlatched c hcode hfetch, hfetch]
        exact (Bool.or_false _).symm
    split at hpass
    · -- a displacement of its own makes the instruction's address, whatever the latch for it held
      next hplaces =>
      obtain ⟨hoperand, hindexed, hnone⟩ := hplaces
      obtain rfl := Option.some.inj hpass
      obtain ⟨x, hindex⟩ := Option.isSome_iff_exists.mp hindexed
      have hnone := Option.isNone_iff_eq_none.mp (Option.isSome_eq_false_iff.mp hnone)
      have hplaced := latchResult_of_places hcode hoperand hindex hnone
      refine ⟨_, ?_, onward ?_⟩
      · rw [hplaced, latchResult_of_places hcode' (halike.2.1.trans hoperand) hindex
          (halike.2.2.trans hnone)]
        rw [hcloses.sampled_of_operand hoperand] at h
        have hput : (c.placeOperand x).Echoes (d.placeOperand x)
            ({ addr := true } ∪ ({ fetched := true } ∪ filled)) n t :=
          h.map (f := fun c => c.placeOperand x) (fun r => rfl) rfl
        exact hput.forget (Filled.union_union_absorb _ _ _)
      · rw [hplaced, hindexed, hoperand]
        exact (Bool.or_true _).symm
    · -- any other byte is stowed, and the instruction acts on what the account has as filled
      next hfetch hacts =>
      have hstow := h.stow hcloses hmeets code
      have hacted := latchResult_of_acts hcode hfetch hacts
      have hkeeps := stow_keeps c code
      refine ⟨filled', ?_, onward ?_⟩
      · rw [hacted, latchResult_of_acts hcode' (by rw [halike.2.1]; exact hfetch)
          (by rw [halike.2.1, halike.2.2]; exact hacts), halike.2.1]
        exact hstow.map (f := fun c => c.execute _)
          (fun r => execute_bearing (hkeeps.1.trans hcode) hpass) (displacement_execute _ _).2
      · rw [hacted, (displacement_execute _ _).1, hkeeps.2]
        by_cases hoperand : c.cycle.kind = .operand
        · rw [hoperand, beq_self_eq_true, Bool.true_and]
          cases hindexed : Operand.indexed? code.operands with
          | false => exact (Bool.or_false _).symm
          | true =>
            have hsome : c.displacement.isSome = true :=
              eq_true_of_ne_false fun hnone => hacts ⟨hoperand, hindexed, hnone⟩
            rw [hsome]
            rfl
        · rw [beq_eq_false_iff_ne.mpr hoperand]
          exact (Bool.or_false _).symm
  next => cases hpass

/-- Latching a displacement keeps the chips alike. -/
theorem Echoes.latchResult_unknown
    (h : c.Echoes d (c.cycle.pattern.sampled (c.cycle.half + 1) ∪ filled) n t)
    (hfeeds : c.Feeds (c.cycle.half + 1) filled) (hcloses : c.Closes)
    (hnone : c.instruction = none) :
    c.latchResult.Echoes d.latchResult {} n t ∧ c.latchResult.instruction = none
      ∧ (c.latchResult.displacement.isSome = true
        ↔ c.latchResult.chain = .opcodeAfterDisplacement) := by
  have halike : d.instruction = c.instruction ∧ d.cycle.kind = c.cycle.kind := by
    obtain ⟨r, -, -, -, rfl⟩ := h
    exact ⟨rfl, rfl⟩
  rw [latchResult_of_none hnone, latchResult_of_none (halike.1.trans hnone), halike.2]
  split
  · next hoperand =>
    rw [hcloses.sampled_of_operand hoperand] at h
    have hput := h.keep (f := keepDisplacement) (fun r => rfl) rfl
    exact ⟨hput.emptied, hnone, iff_of_true rfl rfl⟩
  · exact ⟨h.emptied, hnone, hfeeds.seeking hnone⟩

/-- Setting up the next cycle takes no notice of what is stale. -/
theorem nextCycle_bearing {r : Residue} :
    (c.bearing filled r).nextCycle = (c.nextCycle.1.bearing filled r, c.nextCycle.2) := by
  cases hcode : c.instruction with
  | none =>
    rw [nextCycle_of_none hcode, nextCycle_of_none (c := c.bearing filled r) hcode]
    rw [show (c.bearing filled r).chain = c.chain from rfl]
    cases c.chain <;> rfl
  | some code =>
    rw [nextCycle_of_some hcode, nextCycle_of_some (c := c.bearing filled r) hcode]
    rw [show (c.bearing filled r).cycles = c.cycles from rfl,
      show (c.bearing filled r).position = c.position from rfl]
    cases c.cycles[c.position + 1]? <;> rfl

theorem opcode_nextCycle : c.nextCycle.1.opcode = c.opcode := by
  cases hcode : c.instruction with
  | none =>
    rw [nextCycle_of_none hcode]
    cases c.chain <;> rfl
  | some code =>
    rw [nextCycle_of_some hcode]
    cases c.cycles[c.position + 1]? <;> rfl

/-- Setting up the next cycle keeps the chips alike. -/
theorem Echoes.nextCycle (h : c.Echoes d filled n t) :
    d.nextCycle.2 = c.nextCycle.2 ∧ c.nextCycle.1.Echoes d.nextCycle.1 filled n t := by
  refine ⟨?_, h.map (f := fun c => c.nextCycle.1)
    (fun r => congrArg Prod.fst nextCycle_bearing) opcode_nextCycle⟩
  obtain ⟨r, -, -, -, rfl⟩ := h
  rw [nextCycle_bearing]

/-- The end of a cycle keeps the chips alike, and what the next cycle needs supplied. -/
theorem Echoes.latchResult
    (h : c.Echoes d (c.cycle.pattern.sampled (c.cycle.half + 1) ∪ filled) n t)
    (hfeeds : c.Feeds (c.cycle.half + 1) filled) (hcloses : c.Closes) :
    ∃ filled, c.latchResult.Echoes d.latchResult filled n t
      ∧ (c.latchResult.nextCycle.2 = false → c.latchResult.nextCycle.1.Feeds 0 filled) := by
  cases hcode : c.instruction with
  | none =>
    obtain ⟨hechoes, hnone, hseeking⟩ := h.latchResult_unknown hfeeds hcloses hcode
    refine ⟨{}, hechoes, fun _ => ?_⟩
    rw [nextCycle_of_none hnone]
    cases hchain : c.latchResult.chain <;> rw [hchain] at hseeking
    all_goals
      refine ⟨fun _ => ?_, fun code hsome => (nomatch hnone.symm.trans hsome),
        fun code hsome => (nomatch hnone.symm.trans hsome)⟩
      show c.latchResult.displacement.isSome = true ↔ c.latchResult.chain = _
      rw [hchain]
      exact hseeking
  | some code =>
    obtain ⟨filled', hechoes, hsupplied⟩ := h.latchResult_known hfeeds hcloses hcode
    refine ⟨filled', hechoes, fun hmore => ?_⟩
    obtain ⟨hcode', hcycles'⟩ := (latchResult_turns hcode).2.cycles hcode
      (hcloses.course.scheduled code hcode).1
    have hposition : c.latchResult.position = c.position :=
      position_of_place (latchResult_turns hcode).1
    rw [nextCycle_of_some hcode'] at hmore ⊢
    cases hnext : c.latchResult.cycles[c.latchResult.position + 1]? with
    | none =>
      rw [hnext] at hmore
      exact nomatch hmore
    | some next =>
      have hkind : next.kind ≠ .opcodeFetch := by
        rw [hposition, hcycles'] at hnext
        exact hcloses.course.later_kind hcode hnext
      have hfetches : ¬ (c.latchResult.stepOn.beginCycle next.kind next.tStates).Fetching 0 := by
        rintro ⟨hpattern, -⟩
        refine hkind ((CycleKind.Uses.opcodeFetch_iff ⟨c.latchResult.stepOn, rfl⟩).mpr ?_)
        exact hpattern.imp id Or.inl
      refine ⟨fun hnone => (nomatch hcode'.symm.trans hnone),
        fun _ _ hfetching => absurd hfetching hfetches, fun code' hsome _ => ?_⟩
      obtain rfl := Option.some.inj (hcode'.symm.trans hsome)
      exact ⟨hsupplied.nested, hsupplied.supplies⟩

/-! ## The next instruction -/

theorem leaveHalt_eq (c : Core) :
    c.leaveHalt = { c with
      halted := false
      pins.halt := if c.halted then .released else c.pins.halt } := by
  rw [leaveHalt]
  split
  · rfl
  · next hhalted =>
    cases c
    cases Bool.eq_false_iff.mpr hhalted
    rfl

theorem leaveHalt_bearing {r : Residue} :
    (c.bearing {} r).leaveHalt = c.leaveHalt.bearing {} r := by
  rw [leaveHalt_eq, leaveHalt_eq]
  rfl

theorem startInternal_bearing {r : Residue} (op : InternalOp) :
    (c.bearing {} r).startInternal op = (c.startInternal op).bearing {} r := rfl

theorem startFetch_bearing {r : Residue} (origin : Origin) :
    (c.bearing {} r).startFetch origin = (c.startFetch origin).bearing {} r := rfl

theorem acceptNmi_bearing {r : Residue} :
    (c.bearing {} r).acceptNmi = c.acceptNmi.bearing {} r := by
  rw [acceptNmi_eq, leaveHalt_bearing]
  exact startInternal_bearing (c := c.leaveHalt.takeNmi) .nmi

theorem acceptInt_bearing {r : Residue} :
    (c.bearing {} r).acceptInt = c.acceptInt.bearing {} r := by
  rw [acceptInt_eq, acceptInt_eq, leaveHalt_bearing,
    show (c.leaveHalt.bearing {} r).regs.im = c.leaveHalt.regs.im from rfl]
  split
  · exact startFetch_bearing (c := c.leaveHalt.takeInt) .device
  split
  · exact startInternal_bearing (c := c.leaveHalt.takeInt) .intMode1
  · exact startInternal_bearing (c := c.leaveHalt.takeInt) .intMode2

/-- Choosing the next instruction takes no notice of what the last one has left. -/
theorem resolveNext_bearing {r : Residue} :
    (c.bearing {} r).resolveNext
      = c.resolveNext.bearing {} { r with opcode := r.opcode.clear } := by
  rw [resolveNext_eq, resolveNext_eq, show (c.bearing {} r).cleared
    = c.cleared.bearing {} { r with opcode := r.opcode.clear } from rfl, acceptNmi_bearing,
    acceptInt_bearing, startInternal_bearing, startFetch_bearing,
    show (c.bearing {} r).nmiPending = c.nmiPending from rfl,
    show (c.bearing {} r).pins = c.pins from rfl,
    show (c.bearing {} r).regs = c.regs from rfl,
    show (c.bearing {} r).intBlocked = c.intBlocked from rfl,
    show (c.bearing {} r).halted = c.halted from rfl]
  split
  · rfl
  split
  · rfl
  split <;> rfl

/-- The chip with what the next instruction does not go by replaced. -/
def wiped (c : Core) : Core :=
  { c with
    origin := .none
    instruction := none
    page := .main
    chain := .opcode
    cycles := []
    conditionMet := false
    position := 0
    displacement := none
    cycle := { lastHalf := c.cycle.lastHalf } }

theorem resolveNext_wiped (c : Core) : c.wiped.resolveNext = c.resolveNext := by
  simp only [resolveNext, acceptNmi, acceptInt, leaveHalt_eq]
  rfl

/-- What is known of the instruction. -/
def opening (c : Core) : Chain × Nat × Option Byte × OpcodeBytes × Option Instruction :=
  (c.chain, c.position, c.displacement, c.opcode, c.instruction)

/-- What the next instruction starts with. -/
structure Starts (c : Core) : Prop where
  chain : c.chain = .opcode
  position : c.position = 0
  displacement : c.displacement = none
  opcode : c.opcode.toList = []
  half : c.cycle.half = 0
  pattern : c.cycle.pattern = .fetch ∨ c.cycle.pattern = .acknowledge
  own : ∀ code, c.instruction = some code → ∃ op, code = decoder.internal op

/-- The next instruction starts from nothing, unless it is one of the chip's own. -/
theorem starts_resolveNext (c : Core) : c.resolveNext.Starts := by
  have hpattern (d : Core) (hchain : d.chain = .opcode) (hposition : d.position = 0) :
      d.busPattern .opcodeFetch = .fetch ∨ d.busPattern .opcodeFetch = .acknowledge := by
    rw [busPattern_first hchain hposition]
    split
    · exact Or.inr rfl
    · exact Or.inl rfl
  have fetches (d : Core) (origin : Origin) (hopening : d.opening = c.cleared.opening) :
      (d.startFetch origin).Starts := by
    simp only [opening, Prod.mk.injEq] at hopening
    obtain ⟨hchain, hposition, hdisplacement, hopcode, hnone⟩ := hopening
    exact ⟨hchain, hposition, hdisplacement, congrArg OpcodeBytes.toList hopcode, rfl,
      hpattern { d with origin } hchain hposition, fun code hsome => nomatch hnone.symm.trans hsome⟩
  have performs (d : Core) (op : InternalOp) (hopening : d.opening = c.cleared.opening) :
      (d.startInternal op).Starts := by
    simp only [opening, Prod.mk.injEq] at hopening
    obtain ⟨hchain, hposition, hdisplacement, hopcode, -⟩ := hopening
    exact ⟨hchain, hposition, hdisplacement, congrArg OpcodeBytes.toList hopcode, rfl,
      hpattern { d with origin := .internal op } hchain hposition,
      fun code hsome => ⟨op, (Option.some.inj hsome).symm⟩⟩
  have hleft : c.cleared.leaveHalt.opening = c.cleared.opening := by
    rw [leaveHalt_eq]
    rfl
  rw [resolveNext_eq, acceptNmi_eq, acceptInt_eq]
  split
  · exact performs c.cleared.leaveHalt.takeNmi _ hleft
  split
  · split
    · exact fetches c.cleared.leaveHalt.takeInt _ hleft
    split <;> exact performs c.cleared.leaveHalt.takeInt _ hleft
  split
  · exact performs _ _ rfl
  · exact fetches _ _ rfl

/-- What has just been started needs nothing but what it brings in itself. -/
theorem Starts.feeds (h : c.Starts) : c.Feeds c.cycle.half {} := by
  rw [h.half]
  refine ⟨fun _ => ?_, fun code hcode _ => ⟨h.own code hcode, h.position, h.displacement⟩,
    fun _ _ hlate => ?_⟩
  · rw [h.displacement, h.chain]
    decide
  · exact absurd ⟨h.pattern, Nat.zero_le 4⟩ hlate

/-- Choosing the next instruction leaves the chips alike. -/
theorem Echoes.resolveNext {r : Residue} (hr : d = c.bearing {} r) :
    c.resolveNext.Echoes d.resolveNext {} r.instructions r.edges := by
  subst hr
  refine ⟨{ r with opcode := r.opcode.clear }, rfl, rfl, ?_, resolveNext_bearing⟩
  rw [(starts_resolveNext c).opcode]
  rfl

/-! ## Edges -/

/-- A cycle is in progress, or one is to come and the buses are lent to another master before it. -/
def Working (c : Core) : Prop :=
  (c.phase = .running ∨ c.phase = .busReleased) ∧ c.boundaryPending = false

/-- Between edges the chip `d` is the chip `c`, but for what another run has left in it and is not
    used any more. -/
structure Mirrors (c d : Core) (n t : Nat) : Prop where
  alike : c.Echoes d {} n t
  working : c.Working → ∃ filled,
    c.Echoes d (c.cycle.pattern.sampled c.cycle.half ∪ filled) n t ∧ c.Feeds c.cycle.half filled

/-- What touches neither the latches nor the course of an instruction keeps chips that mirror each
    other alike. -/
theorem Mirrors.map {f : Core → Core} (h : c.Mirrors d n t)
    (hf : ∀ filled r, f (c.bearing filled r) = (f c).bearing filled r)
    (hopcode : (f c).opcode = c.opcode) (hcycle : (f c).cycle = c.cycle)
    (hstage : (f c).stage = c.stage) (hworking : (f c).Working → c.Working) :
    (f c).Mirrors (f d) n t := by
  refine ⟨h.alike.map (hf _) hopcode, fun hworks => ?_⟩
  obtain ⟨filled, hechoes, hfeeds⟩ := h.working (hworking hworks)
  rw [hcycle]
  exact ⟨filled, hechoes.map (hf _) hopcode, hfeeds.congr hstage⟩

/-- At the start of a cycle no byte has been read. -/
theorem sampled_zero (pattern : BusPattern) : pattern.sampled 0 = {} := by
  rw [BusPattern.sampled, decide_eq_false (Nat.not_lt_zero _), Bool.and_false]

/-- Chips that start the same instruction mirror each other. -/
theorem Starts.mirrors (h : c.Starts) (hechoes : c.Echoes d {} n t) : c.Mirrors d n t := by
  refine ⟨hechoes, fun _ => ⟨{}, ?_, h.feeds⟩⟩
  rw [h.half, sampled_zero]
  exact hechoes

/-- An edge comes to the same for both chips, but for what another run has left in one of them. -/
structure Edge.Mirrors (e e' : Edge) (n t : Nat) : Prop where
  events : e'.emitted.map Emission.event = e.emitted.map Emission.event
  ended : e'.ended = e.ended
  alike : e.core.Echoes e'.core {} n t
  working : e.ended = false → e.core.Mirrors e'.core n t

theorem Mirrors.idle (h : c.Mirrors d n t) {emitted emitted' : List Emission}
    (hevents : emitted'.map Emission.event = emitted.map Emission.event) :
    Edge.Mirrors (c.idle emitted) (d.idle emitted') n t :=
  ⟨hevents, rfl, h.alike, fun _ => h⟩

/-- The end of a cycle comes to the same. -/
theorem Echoes.endCycle
    (h : c.Echoes d (c.cycle.pattern.sampled (c.cycle.half + 1) ∪ filled) n t)
    (hfeeds : c.Feeds (c.cycle.half + 1) filled) (hcloses : c.Closes)
    {emitted emitted' : List Emission}
    (hevents : emitted'.map Emission.event = emitted.map Emission.event) :
    Edge.Mirrors (c.endCycle emitted) (d.endCycle emitted') n t := by
  obtain ⟨filled', hlatched, hnext⟩ := h.latchResult hfeeds hcloses
  obtain ⟨hmore, hechoes⟩ := hlatched.nextCycle
  rw [endCycle_eq, endCycle_eq, hmore]
  split
  · refine ⟨?_, rfl, (hechoes.emptied).map (f := complete) (fun r => rfl) rfl,
      fun hends => nomatch hends⟩
    simp only [List.map_append, hevents]
    rfl
  · next hends =>
    have hmore := Bool.eq_false_iff.mpr hends
    have hhalf : c.latchResult.nextCycle.1.cycle.half = 0 := by
      rcases hcloses.next with ⟨-, -, hhalf, -⟩ | ⟨hend, -⟩
      · exact hhalf
      · exact absurd hend hends
    have hmirrors : c.latchResult.nextCycle.1.Mirrors d.latchResult.nextCycle.1 n t := by
      refine ⟨hechoes.emptied, fun _ => ⟨filled', ?_, ?_⟩⟩ <;> rw [hhalf]
      · rw [sampled_zero]
        exact hechoes
      · exact hnext hmore
    refine hmirrors.idle ?_
    simp only [List.map_append, hevents]
    rfl

/-- Running a half-period comes to the same. -/
theorem Mirrors.runEdge (h : c.Mirrors d n t) (hworking : c.Working)
    (hcourse : c.Course c.cycle.half) {emitted emitted' : List Emission}
    (hevents : emitted'.map Emission.event = emitted.map Emission.event) :
    Edge.Mirrors (c.runEdge emitted) (d.runEdge emitted') n t := by
  obtain ⟨filled, hechoes, hfeeds⟩ := h.working hworking
  obtain ⟨hlast, filled', half, hhalf, hechoes', hfeeds'⟩ := hechoes.runHalf hfeeds hcourse
  rw [← pattern_runHalf] at hechoes'
  rw [runEdge_eq, runEdge_eq, hlast]
  split
  · next hend =>
    rw [if_pos hend] at hhalf
    have hruns : c.waits = false := by
      refine Bool.eq_false_iff.mpr fun hwaits => ?_
      rw [(hcourse.runHalf_waits hwaits).1] at hend
      exact nomatch hend
    rcases hcourse.runHalf_runs hruns with ⟨hmore, -⟩ | ⟨-, hcloses, hsame, -⟩
    · exact nomatch hmore.symm.trans hend
    · rw [hhalf, ← hsame] at hechoes' hfeeds'
      exact hechoes'.endCycle hfeeds' hcloses hevents
  · next hend =>
    rw [if_neg hend] at hhalf
    subst hhalf
    refine Mirrors.idle ⟨hechoes'.emptied, fun _ => ⟨filled', hechoes', hfeeds'⟩⟩ hevents

/-- Granting the buses comes to the same. -/
theorem Mirrors.releaseBus (h : c.Mirrors d n t) (hworking : c.Working) :
    c.releaseBus.Mirrors d.releaseBus n t :=
  h.map (f := Core.releaseBus) (fun _ _ => rfl) rfl rfl rfl fun _ => hworking

/-- A chip that is ready comes to the same. -/
theorem Mirrors.advance (h : c.Mirrors d n t) (hunderway : c.Underway) (hworking : c.Working)
    {emitted emitted' : List Emission}
    (hevents : emitted'.map Emission.event = emitted.map Emission.event) :
    Edge.Mirrors (c.advance emitted) (d.advance emitted') n t := by
  have halike : d.cycle.half = c.cycle.half ∧ d.pins = c.pins := by
    obtain ⟨r, -, -, -, rfl⟩ := h.alike
    exact ⟨rfl, rfl⟩
  rw [Core.advance, Core.advance, halike.1, halike.2]
  split
  · split
    · exact (h.releaseBus hworking).idle hevents
    · refine h.runEdge hworking hunderway.course ?_
      simp only [List.map_append, hevents]
      rfl
  · exact h.runEdge hworking hunderway.course hevents

/-- The next instruction is the same. -/
theorem Echoes.resolved (h : c.Echoes d {} n t) : c.resolveNext.Mirrors d.resolveNext n t := by
  obtain ⟨r, rfl, rfl, -, hr⟩ := h
  exact (starts_resolveNext c).mirrors (Echoes.resolveNext hr)

/-- Whether or not the next instruction is still to be chosen, the same is run. -/
theorem Mirrors.chosen (h : c.Mirrors d n t) :
    d.chosen.2.map Emission.event = c.chosen.2.map Emission.event
      ∧ c.chosen.1.Mirrors d.chosen.1 n t := by
  have halike : d.boundaryPending = c.boundaryPending := by
    obtain ⟨r, -, -, -, rfl⟩ := h.alike
    rfl
  rw [Core.chosen, Core.chosen, halike]
  split
  · have hcleared := h.alike.keep (f := fun c => { c with boundaryPending := false }) (fun r => rfl) rfl
    exact ⟨rfl, hcleared.resolved⟩
  · exact ⟨rfl, h⟩

/-- Both chips are made ready alike, or both wait. -/
theorem Mirrors.readied (h : c.Mirrors d n t) (level : Level) :
    (c.readied level = none ∧ d.readied level = none)
      ∨ ∃ k emitted k' emitted', c.readied level = some (k, emitted)
        ∧ d.readied level = some (k', emitted')
        ∧ emitted'.map Emission.event = emitted.map Emission.event ∧ k.Mirrors k' n t := by
  have halike : d.phase = c.phase ∧ d.pins = c.pins := by
    obtain ⟨r, -, -, -, rfl⟩ := h.alike
    exact ⟨rfl, rfl⟩
  rw [Core.readied, Core.readied, halike.1]
  cases hphase : c.phase <;> dsimp only
  case powerOn =>
    split
    · exact Or.inl ⟨rfl, rfl⟩
    · have hstarted := h.alike.keep (f := fun c => { c with phase := .running }) (fun r => rfl) rfl
      exact Or.inr ⟨_, _, _, _, rfl, rfl, rfl, hstarted.resolved⟩
  case busReleased =>
    rw [halike.2]
    split
    · exact Or.inl ⟨rfl, rfl⟩
    · have hreturned : c.returnBus.Mirrors d.returnBus n t :=
        h.map (f := returnBus) (fun _ _ => rfl) rfl rfl rfl
          fun hworking => ⟨Or.inr hphase, hworking.2⟩
      obtain ⟨hevents, hmirrors⟩ := hreturned.chosen
      exact Or.inr ⟨_, _, _, _, rfl, rfl, hevents, hmirrors⟩
  case running | reset =>
    obtain ⟨hevents, hmirrors⟩ := h.chosen
    exact Or.inr ⟨_, _, _, _, rfl, rfl, hevents, hmirrors⟩

/-- Both chips see the inputs alike. -/
theorem Mirrors.sampled (h : c.Mirrors d n t) (inputs : InputLevels) :
    (c.sampleInputs inputs).leaveReset.Mirrors (d.sampleInputs inputs).leaveReset n t := by
  have hsampled : (c.sampleInputs inputs).Mirrors (d.sampleInputs inputs) n t :=
    h.map (f := fun c => c.sampleInputs inputs) (fun _ _ => rfl) rfl rfl rfl id
  have halike : d.phase = c.phase := by
    obtain ⟨r, -, -, -, rfl⟩ := h.alike
    rfl
  rw [leaveReset, leaveReset, show (c.sampleInputs inputs).phase = c.phase from rfl,
    show (d.sampleInputs inputs).phase = c.phase from halike]
  split
  · refine hsampled.map (f := fun c => { c with phase := .powerOn }) (fun _ _ => rfl) rfl rfl rfl
      fun hworking => ?_
    rcases hworking.1 with hphase | hphase <;> cases hphase
  · exact hsampled

/-- Every edge comes to the same, but for what another run has left in one of the chips. -/
theorem Mirrors.edge (h : c.Mirrors d n t) (hsound : c.Sound) (level : Level)
    (inputs : InputLevels) :
    Edge.Mirrors (c.edge level inputs) (d.edge level inputs) n t := by
  rw [edge_eq, edge_eq]
  split
  · -- a reset drops the instruction in both
    have hheld : (c.sampleInputs inputs).holdReset.Echoes (d.sampleInputs inputs).holdReset {} n t := by
      obtain ⟨r, rfl, rfl, -, rfl⟩ := h.alike
      exact ⟨{ r with opcode := r.opcode.clear }, rfl, rfl, rfl, rfl⟩
    have hmirrors : (c.sampleInputs inputs).holdReset.Mirrors (d.sampleInputs inputs).holdReset n t := by
      refine ⟨hheld, fun hworking => ?_⟩
      rcases hworking.1 with hphase | hphase <;> exact nomatch hphase
    exact hmirrors.idle rfl
  · have hsampled := h.sampled inputs
    have hsound' := (hsound.sampleInputs inputs).leaveReset
    rcases hsampled.readied level with ⟨hnone, hnone'⟩ | ⟨k, emitted, k', emitted', hk, hk', hevents,
      hmirrors⟩
    · rw [hnone, hnone']
      exact hsampled.idle rfl
    · rw [hk, hk']
      rcases readied_cases (phase_leaveReset _) level with ⟨hnone, -⟩ | ⟨j, emission, hj, hready⟩
      · exact nomatch hk.symm.trans hnone
      · obtain ⟨rfl, rfl⟩ := Prod.mk.inj (Option.some.inj (hk.symm.trans hj))
        obtain ⟨hunderway, hphase, hchosen⟩ := hready.underway hsound'
        exact hmirrors.advance hunderway ⟨Or.inl hphase, hchosen⟩ hevents

/-- So does the rest of the edge, if somebody asks to stop after both or after neither. -/
theorem Edge.Mirrors.finish {e e' : Edge} (h : Edge.Mirrors e e' n t) {stopping stopping' : Bool}
    (hstops : e.ended = true → stopping' = stopping) :
    (e.finish stopping).1.Mirrors (e'.finish stopping').1 n t
      ∧ (e'.finish stopping').2.map Emission.event = (e.finish stopping).2.map Emission.event := by
  rw [Edge.finish, Edge.finish, h.ended]
  split
  · next hended =>
    rw [hstops hended]
    split
    · have hpending := h.alike.keep (f := fun c => { c with boundaryPending := true }) (fun r => rfl) rfl
      refine ⟨⟨hpending, ?_⟩, rfl⟩
      rintro ⟨-, hchosen⟩
      cases hchosen
    · exact ⟨h.alike.resolved, rfl⟩
  · next hended => exact ⟨h.working (Bool.eq_false_iff.mpr hended), rfl⟩

/-! ## What every edge keeps -/

/-- What the buses float to, and the edges since power-on. -/
def moorings (c : Core) : Word × Byte × Nat :=
  (c.address.floating, c.data.floating, c.halfTStates)

theorem moorings_congr (haddress : d.address = c.address) (hdata : d.data = c.data)
    (htime : d.halfTStates = c.halfTStates) : d.moorings = c.moorings := by
  rw [moorings, moorings, haddress, hdata, htime]

theorem moorings_runHalf : c.runHalf.1.moorings = c.moorings := by
  have haddress : c.runHalf.1.address.floating = c.address.floating := by
    rw [buses_runHalf.1]
    rw [addressAfter]
    split
    · split <;> rfl
    · split <;> rfl
  rw [moorings, haddress, floating_runHalf, steady_runHalf.time]
  rfl

theorem moorings_resolveNext : c.resolveNext.moorings = c.moorings := by
  have hleft : c.cleared.leaveHalt.moorings = c.moorings := by
    rw [leaveHalt_eq]
    rfl
  rw [resolveNext_eq, acceptNmi_eq, acceptInt_eq]
  split
  · exact hleft
  split
  · split
    · exact hleft
    split <;> exact hleft
  split <;> rfl

theorem Readied.moorings {k : Core} {emitted : List Emission} (h : c.Readied k emitted) :
    k.moorings = c.moorings := by
  cases h with
  | running | returned => rfl
  | started _ running =>
    rw [moorings_resolveNext, running]
    rfl
  | resolved _ _ cleared | returnedResolved _ _ cleared =>
    rw [moorings_resolveNext, cleared]
    rfl

theorem moorings_runEdge (c : Core) (emitted : List Emission) :
    (c.runEdge emitted).core.moorings = c.moorings := by
  have hclosed : c.runHalf.1.latchResult.nextCycle.1.moorings = c.moorings := by
    have hleft := (leaves_latchResult (c := c.runHalf.1)).trans leaves_nextCycle
    have hsteady := (steady_latchResult (c := c.runHalf.1)).trans (steady_nextCycle _)
    exact (moorings_congr hleft.address hleft.data hsteady.time).trans moorings_runHalf
  rw [runEdge_eq, endCycle_eq]
  split
  · split <;> exact hclosed
  · exact moorings_runHalf

/-- Every edge is counted, and leaves what the buses float to. -/
theorem moorings_edge (c : Core) (level : Level) (inputs : InputLevels) (stopping : Bool) :
    ((c.edge level inputs).finish stopping).1.moorings
      = (c.address.floating, c.data.floating, c.halfTStates + 1) := by
  have hsampled : (c.sampleInputs inputs).leaveReset.moorings
      = (c.address.floating, c.data.floating, c.halfTStates + 1) := by
    rw [leaveReset]
    split <;> rfl
  have hedge : (c.edge level inputs).core.moorings
      = (c.address.floating, c.data.floating, c.halfTStates + 1) := by
    have hturn := c.turn level inputs
    generalize c.engaged level inputs = engaged at hturn
    generalize c.edge level inputs = e at hturn ⊢
    cases hturn with
    | resets => rfl
    | passes sampled =>
      subst sampled
      exact hsampled
    | grants ready => exact ready.moorings.trans hsampled
    | begins ready | continues ready => exact (moorings_runEdge _ _).trans (ready.moorings.trans hsampled)
  rw [Edge.finish]
  split
  · split
    · exact hedge
    · exact moorings_resolveNext.trans hedge
  · exact hedge

/-! ## The first rising edge -/

/-- The chip waits for the first rising edge, as it does at power-on and after a reset. -/
structure Unstarted (c : Core) : Prop where
  phase : c.phase = .powerOn ∨ c.phase = .reset
  regs : c.regs = .afterReset
  /-- No output is up. -/
  released : ∀ inputs, c.pins.applyInputs inputs = ({} : Pins).applyInputs inputs
  quiet : c.nmiPending = false ∧ c.nmiSeen = false
  ready : c.intBlocked = false ∧ c.halted = false ∧ c.boundaryPending = false

/-- No strobe is up, then. -/
theorem Unstarted.atRest (h : c.Unstarted) : c.pins.AtRest :=
  congrArg Pins.strobes (h.released {})

/-- The chip waits at power-on. -/
theorem unstarted_powerOn (address : Bus Word) (data : Bus Byte) :
    (powerOn address data).Unstarted :=
  ⟨Or.inl rfl, rfl, fun _ => rfl, ⟨rfl, rfl⟩, ⟨rfl, rfl, rfl⟩⟩

/-- What an edge with RESET comes to. -/
theorem edge_reset (c : Core) (level : Level) {inputs : InputLevels} (stopping : Bool)
    (hreset : inputs.reset.isAsserted = true) :
    ((c.edge level inputs).finish stopping).1 = (c.sampleInputs inputs).holdReset := by
  rw [edge_eq, if_pos hreset]
  rfl

/-- The chip waits after an edge with RESET and without NMI. -/
theorem unstarted_holdReset (c : Core) {inputs : InputLevels}
    (hnmi : inputs.nmi.isAsserted = false) : (c.sampleInputs inputs).holdReset.Unstarted :=
  ⟨Or.inr rfl, rfl, fun _ => rfl, ⟨rfl, hnmi⟩, ⟨rfl, rfl, rfl⟩⟩

/-- The chip with the inputs of an edge, about to start. -/
def primed (c : Core) (inputs : InputLevels) : Core :=
  { c.sampleInputs inputs with phase := .powerOn }

theorem Unstarted.sampled (h : c.Unstarted) (inputs : InputLevels) :
    (c.sampleInputs inputs).leaveReset = c.primed inputs := by
  rw [leaveReset]
  rcases h.phase with hphase | hphase
  · have hsampled : (c.sampleInputs inputs).phase = .powerOn := hphase
    rw [if_neg (by rw [hsampled]; decide), primed, ← hsampled]
  · exact if_pos hphase

/-- A falling edge lets the chip wait on. -/
theorem Unstarted.falls (h : c.Unstarted) {inputs : InputLevels} (stopping : Bool)
    (hreset : inputs.reset.isAsserted = false) (hnmi : inputs.nmi.isAsserted = false) :
    ((c.edge .low inputs).finish stopping).1 = c.primed inputs ∧ (c.primed inputs).Unstarted := by
  refine ⟨?_, Or.inl rfl, h.regs, fun inputs' => h.released inputs', ⟨?_, hnmi⟩, h.ready⟩
  · rw [edge_eq, if_neg (by rw [hreset]; exact Bool.false_ne_true), h.sampled]
    rfl
  · show (c.nmiPending || inputs.nmi.isAsserted && !c.nmiSeen) = false
    rw [h.quiet.1, hnmi]
    rfl

/-- The first rising edge starts the chip. -/
theorem Unstarted.rises (h : c.Unstarted) {inputs : InputLevels}
    (hreset : inputs.reset.isAsserted = false) :
    c.edge .high inputs
      = ({ c.primed inputs with phase := .running } : Core).resolveNext.advance
        [⟨.instructionStart, ({ c.primed inputs with phase := .running } : Core).resolveNext⟩] := by
  rw [edge_eq, if_neg (by rw [hreset]; exact Bool.false_ne_true), h.sampled]
  rfl

variable {n t : Nat}

/-- The first rising edge comes to the same, whatever there was before. -/
theorem Unstarted.first_edge (hc : c.Unstarted) (hd : d.Unstarted) (hsound : c.Sound)
    (haddress : d.address = c.address) (hdata : d.data = c.data)
    (hinstructions : d.instructionCounter = n + c.instructionCounter)
    (hedges : d.halfTStates = t + c.halfTStates) {inputs : InputLevels}
    (hreset : inputs.reset.isAsserted = false) :
    Edge.Mirrors (c.edge .high inputs) (d.edge .high inputs) n t := by
  have hpins : d.pins.applyInputs inputs = c.pins.applyInputs inputs :=
    (hd.released inputs).trans (hc.released inputs).symm
  have hwiped : ({ d.primed inputs with phase := .running } : Core).wiped
      = ({ c.primed inputs with phase := .running } : Core).wiped.bearing {}
        ⟨d.latches, d.opcode, d.cycle.lastHalf, n, t⟩ := by
    simp only [wiped, primed, Core.sampleInputs, latchNmi, hpins, hd.regs, hc.regs, haddress, hdata,
      hinstructions, hedges, hd.quiet.1, hd.quiet.2, hc.quiet.1, hc.quiet.2, hd.ready.1,
      hd.ready.2.1, hd.ready.2.2, hc.ready.1, hc.ready.2.1, hc.ready.2.2]
    rfl
  have hmirrors := (starts_resolveNext _).mirrors (Echoes.resolveNext hwiped)
  rw [resolveNext_wiped, resolveNext_wiped] at hmirrors
  rw [hc.rises hreset, hd.rises hreset]
  have hready : (c.sampleInputs inputs).leaveReset.Readied
      ({ c.primed inputs with phase := .running } : Core).resolveNext
      [⟨.instructionStart, ({ c.primed inputs with phase := .running } : Core).resolveNext⟩] := by
    rw [hc.sampled]
    exact .started rfl rfl
  obtain ⟨hunderway, hphase, hchosen⟩ := hready.underway (hsound.sampleInputs inputs).leaveReset
  exact hmirrors.advance hunderway ⟨Or.inl hphase, hchosen⟩ rfl

end Core

end Z80Board
