import Z80Board.Proofs.Chip.Prefixes

/-! # Where an instruction comes from

    An instruction comes from memory, or from a device that has interrupted.  The chip moves PC over
    the bytes of the first kind and not over those of the second, and it asks for them in another way.
    Two chips that are alike but for this, and take in the same bytes, stay alike, unless their
    instruction reckons a target from PC.  A call and a restart push another PC, and go where the other
    goes. -/

namespace Z80Board

/-! ## What an instruction makes of PC -/

namespace Mnemonic

/-- The instruction reckons a target from PC: it is relative to PC, or it is PC itself. -/
def reckons : Mnemonic → Bool
  | .jr | .djnz => true
  | m => m.repeats

/-- The instruction pushes PC. -/
def pushesPc : Mnemonic → Bool
  | .call | .rst => true
  | _ => false

/-- What sees PC does one or the other. -/
theorem seesPc_eq_false {m : Mnemonic} (hreckons : m.reckons = false) (hpushes : m.pushesPc = false) :
    m.seesPc = false := by
  cases m
  case jr | djnz => cases hreckons
  case call | rst => cases hpushes
  all_goals rfl

theorem repeats_of_reckons {m : Mnemonic} (h : m.reckons = false) : m.repeats = false := by
  cases m
  case jr | djnz => rfl
  all_goals exact h

end Mnemonic

/-- The instruction is one of the tables, and reckons no target from PC. -/
structure Instruction.Portable (code : Instruction) : Prop where
  entitled : ∃ page, Listing.Entitled Catalog.forms page code
  reckons : code.mnemonic.reckons = false

theorem Instruction.Portable.listed {code : Instruction} (h : code.Portable) :
    code.mnemonic.isInternal = false := by
  obtain ⟨page, hentitled⟩ := h.entitled
  exact hentitled.listed

namespace Core

/-! ## Guises -/

/-- The bytes that are ready to be put out. -/
def outs (c : Core) : Byte × Byte :=
  (c.latches.outLow, c.latches.outHigh)

/-- The chip `c` with an instruction that comes from where that of `k` comes from.  It has the PC of
    `k`, and pushes what `k` pushes. -/
def guise (c k : Core) : Core :=
  { c with
    regs.pc := k.regs.pc
    latches.outLow := k.latches.outLow
    latches.outHigh := k.latches.outHigh
    origin := k.origin
    cycle.pattern := k.cycle.pattern
    cycle.fromDevice := k.cycle.fromDevice }

/-- The chips are alike but for where their instruction comes from: the second one fetches it all from
    memory, and the first one may be acknowledging an interrupt. -/
structure Twins (c d : Core) : Prop where
  same : d = c.guise d
  pattern : d.cycle.pattern = c.cycle.pattern
    ∨ c.cycle.pattern = .acknowledge ∧ d.cycle.pattern = .fetch
  outs : (∀ code, c.instruction = some code → code.mnemonic.pushesPc = false) → d.outs = c.outs

variable {c d k : Core} {half : Nat} {byte : Byte} {code : Instruction} {point : ExecPoint}

/-- The parts that every guise of a chip has. -/
structure Alike (c d : Core) : Prop where
  instruction : d.instruction = c.instruction
  cycles : d.cycles = c.cycles
  conditionMet : d.conditionMet = c.conditionMet
  page : d.page = c.page
  chain : d.chain = c.chain
  position : d.position = c.position
  displacement : d.displacement = c.displacement
  kind : d.cycle.kind = c.cycle.kind
  length : d.cycle.length = c.cycle.length
  halted : d.halted = c.halted

theorem Twins.alike (h : c.Twins d) : c.Alike d := by
  rw [h.same]
  exact ⟨rfl, rfl, rfl, rfl, rfl, rfl, rfl, rfl, rfl, rfl⟩

/-- They have the same registers but for PC. -/
theorem Twins.regs (h : c.Twins d) : d.regs = c.regs.withPc d.regs.pc := by
  rw [h.same]
  rfl

/-- A step that takes all but the guise from the chip leads twins to twins. -/
theorem Twins.of_same {f : Core → Core} (h : c.Twins d)
    (hsame : ∀ k, f (c.guise k) = (f c).guise (f (c.guise k)))
    (hpattern : ∀ e, (f e).cycle.pattern = e.cycle.pattern)
    (houts : (∀ code, (f c).instruction = some code → code.mnemonic.pushesPc = false) →
      (f d).outs = (f c).outs) : (f c).Twins (f d) := by
  refine ⟨?_, ?_, houts⟩
  · have hstep := hsame d
    rw [← h.same] at hstep
    exact hstep
  · rw [hpattern, hpattern]
    exact h.pattern

/-! ## Acting -/

theorem exists_jump_withPc (c : Core) (pc : Word) (point : ExecPoint) (first : Option Operand) :
    ∃ pc', (c.withPc pc).jump point first = (c.jump point first).withPc pc' := by
  unfold jump
  split
  · split <;> exact ⟨_, rfl⟩
  · split
    · rw [holds_withPc]
      split <;> exact ⟨_, rfl⟩
    · exact ⟨_, rfl⟩

theorem exists_ret_withPc (c : Core) (pc : Word) (mnemonic : Mnemonic) (point : ExecPoint)
    (first : Option Operand) :
    ∃ pc', (c.withPc pc).ret mnemonic point first = (c.ret mnemonic point first).withPc pc' := by
  unfold ret
  rw [holds_withPc]
  split
  · exact ⟨_, rfl⟩
  · split
    · split <;> exact ⟨_, rfl⟩
    · exact ⟨_, rfl⟩

/-- An instruction that does not see PC moves it to the same place from everywhere, or leaves it. -/
theorem exists_act_withPc (hlisted : code.mnemonic.isInternal = false)
    (hblind : code.mnemonic.seesPc = false) (hrepeats : code.mnemonic.repeats = false)
    (c : Core) (pc : Word) (point : ExecPoint) :
    ∃ pc', (c.withPc pc).act code point = (c.act code point).withPc pc' := by
  by_cases hstays : code.leavesAt = some point →
      code.mnemonic.usesStack = false ∧ (c.act code point).departs code = false
  · exact ⟨pc, act_withPc c pc hlisted hblind hstays⟩
  rw [Classical.not_imp] at hstays
  have hleaves := hstays.1
  unfold Instruction.leavesAt Mnemonic.leavesAt at hleaves
  unfold act
  cases hm : code.mnemonic <;> rw [hm] at hleaves hblind hrepeats
  case jp => exact exists_jump_withPc c pc point _
  case ret | reti | retn => exact exists_ret_withPc c pc _ point _
  case jr | djnz | call | rst => cases hblind
  case ldir | lddr | cpir | cpdr | inir | indr | otir | otdr => cases hrepeats
  all_goals cases hleaves

/-- Acting leaves the control as it was. -/
theorem control_act (c : Core) (code : Instruction) (point : ExecPoint) :
    c.act code point = (c.act code point).under c := by
  rw [← act_under, under_self]

/-- No instruction changes which one it is. -/
theorem instruction_act (c : Core) (code : Instruction) (point : ExecPoint) :
    (c.act code point).instruction = c.instruction :=
  (c.acts_act code point).pace.instruction

/-- What pushes PC acts alike from everywhere, but for what it pushes. -/
theorem act_guise_of_pushesPc (c : Core) (hpushes : code.mnemonic.pushesPc = true) (k : Core)
    (point : ExecPoint) :
    (c.guise k).act code point = (c.act code point).guise ((c.guise k).act code point) := by
  unfold act
  cases hm : code.mnemonic <;> rw [hm] at hpushes
  case call =>
    dsimp only
    have hholds : (c.guise k).holds code.operands[0]? = c.holds code.operands[0]? :=
      holds_congr rfl _
    unfold call
    rw [hholds]
    repeat' split
    all_goals rfl
  case rst =>
    dsimp only
    unfold restart
    repeat' split
    all_goals rfl
  all_goals cases hpushes

/-- Twins that act stay twins. -/
theorem Twins.act (h : c.Twins d) (hcode : c.instruction = some code) (hportable : code.Portable)
    (point : ExecPoint) : (c.act code point).Twins (d.act code point) := by
  have hcycle (e : Core) : (e.act code point).cycle = e.cycle := by
    rw [control_act]
    rfl
  have hpattern : (d.act code point).cycle.pattern = (c.act code point).cycle.pattern
      ∨ (c.act code point).cycle.pattern = .acknowledge
        ∧ (d.act code point).cycle.pattern = .fetch := by
    rw [hcycle, hcycle]
    exact h.pattern
  cases hpushes : code.mnemonic.pushesPc with
  | true =>
    have hsame := c.act_guise_of_pushesPc hpushes d point
    rw [← h.same] at hsame
    refine ⟨hsame, hpattern, fun hnone => ?_⟩
    cases (hnone code ((instruction_act c code point).trans hcode)).symm.trans hpushes
  | false =>
    have houts : d.outs = c.outs := h.outs fun code' hcode' => by
      obtain rfl := Option.some.inj (hcode.symm.trans hcode')
      exact hpushes
    obtain ⟨pc', hact⟩ := exists_act_withPc hportable.listed
      (Mnemonic.seesPc_eq_false hportable.reckons hpushes)
      (Mnemonic.repeats_of_reckons hportable.reckons) c d.regs.pc point
    -- the datapath of the second one is that of the first one with its own PC
    have hunder : d = (c.withPc d.regs.pc).under d := by
      simp only [Core.outs, Prod.mk.injEq] at houts
      have hlatches : d.latches = c.latches := by
        rw [h.same]
        show { c.latches with outLow := d.latches.outLow, outHigh := d.latches.outHigh } = _
        rw [houts.1, houts.2]
      have hdatapath : d = { d with latches := c.latches } := by rw [← hlatches]
      rw [hdatapath, h.same]
      rfl
    have hstep : d.act code point = ((c.act code point).withPc pc').under d := by
      rw [← hact, ← act_under, ← hunder]
    refine ⟨?_, hpattern, fun _ => ?_⟩
    · have hkept := control_act c code point
      generalize c.act code point = e at hstep hkept
      rw [hstep, h.same, hkept]
      rfl
    · rw [hstep]
      rfl

/-! ## Decoding -/

/-- As long as no instruction is known, twins have the same bytes ready. -/
theorem Twins.outs_of_unknown (h : c.Twins d) (hnone : c.instruction = none) : d.outs = c.outs :=
  h.outs fun _ hsome => by cases hnone.symm.trans hsome

theorem Twins.execute (h : c.Twins d) (hcode : c.instruction = some code) (hportable : code.Portable)
    (point : ExecPoint) : (c.execute point).Twins (d.execute point) := by
  have hcode' : d.instruction = some code := h.alike.instruction.trans hcode
  have haddressed : (c.addressOperand code).Twins (d.addressOperand code) := by
    have hplain (e : Core) : (e.addressOperand code).instruction = e.instruction
        ∧ (e.addressOperand code).outs = e.outs ∧ (e.addressOperand code).cycle = e.cycle := by
      unfold addressOperand
      split <;> exact ⟨rfl, rfl, rfl⟩
    refine h.of_same (f := fun e => e.addressOperand code) (fun k => ?_)
      (fun e => congrArg ActiveCycle.pattern (hplain e).2.2) fun houts => ?_
    · unfold addressOperand
      split <;> rfl
    · rw [(hplain d).2.1, (hplain c).2.1]
      exact h.outs fun code' hsome => houts code' ((hplain c).1.trans hsome)
  have hknown : (c.addressOperand code).instruction = some code :=
    (instruction_of_pace (plain_addressOperand c code).pace).trans hcode
  rw [Core.execute, Core.execute, hcode, hcode']
  dsimp only
  split
  · exact haddressed.act hknown hportable point
  · exact h.act hcode hportable point

theorem instruction_execute (c : Core) (point : ExecPoint) :
    (c.execute point).instruction = c.instruction := by
  cases hcode : c.instruction with
  | none =>
    rw [Core.execute, hcode]
    exact hcode
  | some code => exact (turns_execute c hcode point).instruction.trans hcode

/-- Twins that take up an instruction of the tables stay twins. -/
theorem Twins.beginExecution (h : c.Twins d) (hnone : c.instruction = none)
    (hportable : code.Portable) : (c.beginExecution code).Twins (d.beginExecution code) := by
  have htaken : (c.takeUp code).Twins (d.takeUp code) := by
    have hcontrol (e : Core) : (e.takeUp code).cycle = e.cycle ∧ (e.takeUp code).outs = e.outs := by
      unfold takeUp placeDisplacement
      dsimp only
      split <;> exact ⟨rfl, rfl⟩
    refine h.of_same (f := fun e => e.takeUp code) (fun k => ?_)
      (fun e => congrArg ActiveCycle.pattern (hcontrol e).1) fun _ => ?_
    · unfold takeUp placeDisplacement
      dsimp only
      rw [show (c.guise k).displacement = c.displacement from rfl]
      split <;> rfl
    · rw [(hcontrol d).2, (hcontrol c).2]
      exact h.outs_of_unknown hnone
  have hknown : (c.takeUp code).instruction = some code := instruction_takeUp c code
  have hacted := htaken.execute hknown hportable .decoded
  exact hacted.of_same (f := fitLength) (fun _ => rfl) (fun _ => rfl) hacted.outs

theorem instruction_beginExecution (c : Core) (code : Instruction) :
    (c.beginExecution code).instruction = some code :=
  (instruction_execute (c.takeUp code) .decoded).trans (instruction_takeUp c code)

/-- Twins that follow an entry stay twins, if what it may lead to is portable. -/
theorem Twins.follow (h : c.Twins d) (hnone : c.instruction = none) (code : Instruction)
    {again : Core → Page → Core}
    (hfit : ∀ found, (d.follow code again).instruction = some found → found.Portable)
    (hagain : ∀ page, code.action = .redecode page →
      (again { c with position := 0 } page).Twins (again { d with position := 0 } page)) :
    (c.follow code again).Twins (d.follow code again) := by
  unfold Core.follow at hfit ⊢
  cases haction : code.action with
  | execute =>
    rw [haction] at hfit
    exact h.beginExecution hnone (hfit code (instruction_beginExecution d code))
  | fetchNext page =>
    exact h.of_same (f := fun e => { e with page, chain := .opcode }) (fun _ => rfl) (fun _ => rfl)
      fun _ => h.outs_of_unknown hnone
  | fetchDisplacement page =>
    exact h.of_same (f := fun e => { e with page, chain := .displacement }) (fun _ => rfl)
      (fun _ => rfl) fun _ => h.outs_of_unknown hnone
  | redecode page => exact hagain page haction

/-- Twins that look a byte up stay twins. -/
theorem Twins.dispatch (h : c.Twins d) (hnone : c.instruction = none) (byte : Byte)
    (hfit : ∀ code, (d.dispatch byte).instruction = some code → code.Portable) :
    (c.dispatch byte).Twins (d.dispatch byte) := by
  have hpushed : ({ c with opcode := c.opcode.push byte } : Core).Twins
      { d with opcode := d.opcode.push byte } :=
    h.of_same (f := fun e => { e with opcode := e.opcode.push byte }) (fun _ => rfl) (fun _ => rfl)
      h.outs
  unfold Core.dispatch at hfit ⊢
  dsimp only at hfit ⊢
  rw [show decode d.page byte = decode c.page byte by rw [h.alike.page]] at hfit ⊢
  refine hpushed.follow hnone _ hfit fun page haction => ?_
  have hreset := hpushed.of_same (f := fun e => { e with position := 0 }) (fun _ => rfl)
    (fun _ => rfl) hpushed.outs
  refine hreset.follow hnone _ (fun code hcode => hfit code ?_) fun page' _ => ?_
  · unfold Core.follow
    rw [haction]
    exact hcode
  · exact hreset.of_same (f := fun e => { e with position := 0 }) (fun _ => rfl) (fun _ => rfl)
      hreset.outs

/-! ## Half-periods -/

/-- PC moves over a byte of the instruction or not. -/
theorem Twins.advancePc (h : c.Twins d) : c.advancePc.Twins d.advancePc := by
  refine h.of_same (f := Core.advancePc) (fun k => ?_) (fun e => ?_) fun houts => ?_
  · unfold Core.advancePc
    split <;> split <;> rfl
  · rw [advancePc_eq]
  · rw [advancePc_eq, advancePc_eq (c := c)] at *
    exact h.outs houts

theorem Twins.movePointer (h : c.Twins d) : c.movePointer.Twins d.movePointer := by
  have hkind : d.cycle.kind = c.cycle.kind := h.alike.kind
  have hpopped (pops : Registers → Word) (hpops : pops d.regs = pops c.regs) :
      ({ c with regs.sp := pops c.regs } : Core).Twins { d with regs.sp := pops d.regs } := by
    rw [hpops]
    exact h.of_same (f := fun e => { e with regs.sp := pops c.regs }) (fun _ => rfl) (fun _ => rfl)
      h.outs
  have hsp : d.regs.sp = c.regs.sp := by
    rw [h.regs]
    rfl
  unfold Core.movePointer
  rw [hkind]
  split
  case h_1 | h_2 => exact hpopped (fun regs => regs.sp + 1) (congrArg (· + 1) hsp)
  case h_3 | h_4 | h_5 | h_6 => exact h.advancePc
  case h_7 => exact h

theorem Twins.pushPointer (h : c.Twins d) : c.pushPointer.Twins d.pushPointer := by
  have hkind : d.cycle.kind = c.cycle.kind := h.alike.kind
  unfold Core.pushPointer
  rw [hkind]
  split
  case h_1 | h_2 =>
    exact h.of_same (f := fun e => { e with regs.sp := e.regs.sp - 1 }) (fun _ => rfl)
      (fun _ => rfl) h.outs
  case h_3 => exact h

/-- Twins that take in the same byte stay twins. -/
theorem Twins.takeIn (h : c.Twins d) (hnone : c.TakesByte c.cycle.pattern.sampleHalf →
      c.instruction = none) {byte byte' : Byte}
    (hbyte : c.cycle.pattern ∉ [.write, .portWrite, .internal] → byte' = byte)
    (hfit : ∀ code, (d.takeIn byte').instruction = some code → code.Portable) :
    (c.takeIn byte).Twins (d.takeIn byte') := by
  have hfetched (e e' : Core) (he : e.Twins e') : (e.fetch byte).Twins (e'.fetch byte) :=
    he.of_same (f := fun e => e.fetch byte) (fun _ => rfl) (fun _ => rfl) he.outs
  have hopcode (hpattern : c.cycle.pattern = .fetch ∨ c.cycle.pattern = .acknowledge)
      (hfit : ∀ code, (d.countRefresh.takeOpcodeByte byte).instruction = some code →
        code.Portable) :
      (c.countRefresh.takeOpcodeByte byte).Twins (d.countRefresh.takeOpcodeByte byte) := by
    have hunknown : c.instruction = none := by
      refine hnone (Or.inl ⟨hpattern, ?_⟩)
      rcases hpattern with hpattern | hpattern <;> rw [hpattern] <;> rfl
    have hcounted : c.countRefresh.Twins d.countRefresh :=
      h.of_same (f := countRefresh) (fun _ => rfl) (fun _ => rfl) h.outs
    have hnone' : c.countRefresh.instruction = none := hunknown
    rw [takeOpcodeByte_of_none (hcounted.alike.instruction.trans hnone')] at hfit ⊢
    rw [takeOpcodeByte_of_none hnone']
    refine hcounted.advancePc.dispatch ?_ byte hfit
    rw [advancePc_eq]
    exact hnone'
  unfold Core.takeIn at hfit ⊢
  -- the other one may fetch from memory what is read here in an acknowledge
  rcases h.pattern with hsame | ⟨hack, hfetch⟩
  · rw [hsame] at hfit ⊢
    cases hpattern : c.cycle.pattern <;> rw [hpattern] at hfit hbyte
    case fetch =>
      rw [hbyte (by decide)] at hfit ⊢
      exact hopcode (Or.inl hpattern) hfit
    case acknowledge =>
      rw [hbyte (by decide)] at hfit ⊢
      exact hopcode (Or.inr hpattern) hfit
    case opcodeRead =>
      rw [hbyte (by decide)] at hfit ⊢
      refine h.movePointer.dispatch ?_ byte hfit
      rw [movePointer_eq]
      exact hnone (Or.inr ⟨hpattern, by rw [hpattern]; rfl⟩)
    case read =>
      rw [hbyte (by decide)]
      exact hfetched _ _ h.movePointer
    case portRead =>
      rw [hbyte (by decide)]
      exact hfetched _ _ h
    case write | portWrite | internal => exact h
  · rw [hack] at hbyte ⊢
    rw [hfetch, hbyte (by decide)] at hfit ⊢
    exact hopcode (Or.inr hack) hfit

/-! ## The end of a cycle -/

/-- Twins that latch what they have read stay twins. -/
theorem Twins.latchResult (h : c.Twins d)
    (hfit : ∀ code, d.instruction = some code → code.Portable) :
    c.latchResult.Twins d.latchResult := by
  have hkind : d.cycle.kind = c.cycle.kind := h.alike.kind
  cases hcode : c.instruction with
  | none =>
    rw [latchResult_of_none hcode, latchResult_of_none (h.alike.instruction.trans hcode), hkind]
    split
    · exact h.of_same (f := keepDisplacement) (fun _ => rfl) (fun _ => rfl) h.outs
    · exact h
  | some code =>
    have hdisplacement : d.displacement = c.displacement := h.alike.displacement
    -- both stow the byte in the same place, and act on it alike
    have hstowed : (c.stow code).Twins (d.stow code) := by
      have hlatches (e : Core) : (e.stow code).outs = e.outs := by
        unfold stow
        split
        case h_3 =>
          dsimp only
          split <;> rfl
        all_goals rfl
      refine h.of_same (f := fun e => e.stow code) (fun k => ?_) (fun e => ?_) fun houts => ?_
      · unfold stow
        rw [show (c.guise k).cycle.kind = c.cycle.kind from rfl]
        split
        case h_3 =>
          dsimp only
          split <;> rfl
        all_goals rfl
      · rw [stow_eq]
      · rw [hlatches, hlatches]
        refine h.outs fun code' hsome => houts code' ?_
        rw [stow_eq]
        exact hsome
    have hacted (point : ExecPoint) :
        ((c.stow code).execute point).Twins ((d.stow code).execute point) := by
      refine hstowed.execute ?_ (hfit code (h.alike.instruction.trans hcode)) point
      rw [stow_eq]
      exact hcode
    rw [latchResult_of_some hcode, latchResult_of_some (h.alike.instruction.trans hcode), hkind,
      hdisplacement]
    split
    · exact h
    split
    · next x _ _ _ =>
      exact h.of_same (f := fun e => e.placeOperand x) (fun k => by cases x <;> rfl) (fun _ => rfl)
        h.outs
    · exact hacted _

/-- Their next cycles are alike, and their instructions end together. -/
theorem Twins.nextCycle (h : c.Twins d) :
    d.nextCycle.2 = c.nextCycle.2 ∧ c.nextCycle.1.Twins d.nextCycle.1 := by
  have hstepped : c.stepOn.Twins d.stepOn :=
    h.of_same (f := stepOn) (fun _ => rfl) (fun _ => rfl) h.outs
  have hbegun (kind : CycleKind) (length : Nat) :
      (c.stepOn.beginCycle kind length).Twins (d.stepOn.beginCycle kind length) := by
    -- an acknowledge comes first or not at all
    have hpattern (e : Core) : e.stepOn.busPattern kind
        = if kind = .opcodeFetch ∧ e.chain = .opcodeAfterDisplacement then .opcodeRead
          else (powerOn (.released 0) (.released 0)).busPattern kind := by
      cases kind
      case opcodeFetch =>
        unfold busPattern
        dsimp only
        rw [show e.stepOn.chain = e.chain from rfl]
        by_cases hchain : e.chain = .opcodeAfterDisplacement
        · rw [if_pos hchain, if_pos ⟨rfl, hchain⟩]
        · have hlater : ¬ (e.stepOn.position = 0 ∧ e.stepOn.acknowledging = true) :=
            fun hzero => by cases hzero.1
          rw [if_neg hchain, if_neg hlater, if_neg fun hboth => hchain hboth.2]
          rfl
      all_goals rfl
    have hsame : d.stepOn.busPattern kind = c.stepOn.busPattern kind := by
      rw [hpattern, hpattern, h.alike.chain]
    refine ⟨?_, Or.inl hsame, fun houts => h.outs houts⟩
    unfold beginCycle
    rw [hsame, hstepped.same]
    rfl
  cases hcode : c.instruction with
  | none =>
    rw [nextCycle_of_none hcode, nextCycle_of_none (h.alike.instruction.trans hcode), h.alike.chain]
    cases c.chain <;> exact ⟨rfl, hbegun _ _⟩
  | some code =>
    rw [nextCycle_of_some hcode, nextCycle_of_some (h.alike.instruction.trans hcode), h.alike.cycles,
      h.alike.position]
    cases c.cycles[c.position + 1]? with
    | none => exact ⟨rfl, hstepped⟩
    | some next => exact ⟨rfl, hbegun _ _⟩

/-! ## PC under an instruction that does not come from memory -/

/-- Where an instruction goes does not depend on where it comes from. -/
theorem Twins.departs (h : c.Twins d) (code : Instruction) : d.departs code = c.departs code := by
  rw [h.same]
  unfold Core.departs
  rw [show (c.guise d).holds code.operands[0]? = c.holds code.operands[0]? from holds_congr rfl _]
  rfl

theorem Twins.bears {q : Sought} (h : c.Twins d) (hd : d.Bears q) : c.Bears q := by
  refine ⟨h.alike.instruction.symm.trans hd.known, hd.entitled, fun hsteered => ?_⟩
  rw [← h.alike.conditionMet, ← h.departs]
  exact hd.steered hsteered

/-- PC has stayed where it was, unless the instruction has left. -/
def Stays (c : Core) (pc : Word) : Prop :=
  (∀ code, c.instruction = some code → ¬ code.Turned c.ran ∨ c.departs code = false) →
    c.regs.pc = pc

theorem Stays.of_unknown {pc : Word} (h : c.Stays pc) (hnone : c.instruction = none) :
    c.regs.pc = pc :=
  h fun _ hsome => by cases hnone.symm.trans hsome

theorem Stays.of_logic {pc : Word} (h : c.Stays pc) (hlogic : d.logic = c.logic) : d.Stays pc := by
  have hback : d.logic.Stays pc := by
    rw [hlogic]
    exact h
  exact hback

/-- An entry that is followed leaves PC alone, unless its instruction leaves at once. -/
theorem stays_follow {pc : Word} (hpc : c.regs.pc = pc) (code : Instruction)
    {again : Core → Page → Core}
    (hfit : ∀ found, (c.follow code again).instruction = some found → found.Portable)
    (hagain : ∀ page, code.action = .redecode page → (again { c with position := 0 } page).Stays pc) :
    (c.follow code again).Stays pc := by
  unfold follow at hfit ⊢
  cases haction : code.action with
  | execute =>
    rw [haction] at hfit
    have hcode := instruction_beginExecution c code
    obtain ⟨page, hentitled⟩ := (hfit code hcode).entitled
    have hbegins : Begins code c (c.beginExecution code) := begins_beginExecution hentitled
    intro hstays
    refine (hbegins.pc ?_).trans hpc
    exact (hstays code hcode).imp_left fun hturned hleaves => hturned (Or.inl hleaves)
  | fetchNext page => exact fun _ => hpc
  | fetchDisplacement page => exact fun _ => hpc
  | redecode page => exact hagain page haction

theorem stays_dispatch {pc : Word} (hpc : c.regs.pc = pc) (byte : Byte)
    (hfit : ∀ code, (c.dispatch byte).instruction = some code → code.Portable) :
    (c.dispatch byte).Stays pc := by
  unfold dispatch at hfit ⊢
  refine stays_follow (c := { c with opcode := c.opcode.push byte }) hpc _ hfit
    fun page haction => ?_
  refine stays_follow (c := { c with opcode := c.opcode.push byte, position := 0 }) hpc _
    (fun code hcode => hfit code ?_) fun _ _ _ => hpc
  unfold follow
  dsimp only
  rw [haction]
  exact hcode

/-- No half-period moves PC over a byte that does not come from memory. -/
theorem Stays.effect {pc : Word} (h : c.Stays pc) (hcourse : c.Course half)
    (hdevice : c.fromMemory = false) (hnone : c.TakesByte half → c.instruction = none)
    (hfit : ∀ code, (c.effect half byte).instruction = some code → code.Portable) :
    (c.effect half byte).Stays pc := by
  by_cases htakes : c.TakesByte half
  · have hpc := h.of_unknown (hnone htakes)
    have hkept (e : Core) (he : e.fromMemory = false) : e.advancePc = e :=
      if_neg (by rw [he]; exact Bool.false_ne_true)
    rw [htakes.effect_eq, Core.takeIn] at hfit ⊢
    have hfetched (hfit : ∀ code, (c.countRefresh.takeOpcodeByte byte).instruction = some code →
        code.Portable) : (c.countRefresh.takeOpcodeByte byte).Stays pc := by
      rw [takeOpcodeByte_of_none (c := c.countRefresh) (hnone htakes), hkept c.countRefresh hdevice]
        at hfit ⊢
      exact stays_dispatch (c := c.countRefresh) hpc byte hfit
    rcases htakes with ⟨hpattern | hpattern, -⟩ | ⟨hpattern, -⟩ <;> rw [hpattern] at hfit ⊢
    · exact hfetched hfit
    · exact hfetched hfit
    · have hkind : c.cycle.kind = .opcodeFetch :=
        hcourse.uses.opcodeFetch_iff.mpr (Or.inr (Or.inr hpattern))
      rw [Core.movePointer, hkind] at hfit ⊢
      dsimp only at hfit ⊢
      rw [hkept c hdevice] at hfit ⊢
      exact stays_dispatch hpc byte hfit
  · have hskips := skips_effect hcourse htakes byte
    rw [hdevice, Bool.false_and, Bool.toNat_false, ite_self] at hskips
    have hkept := hskips.kept
    intro hstays
    have hpc : (c.effect half byte).regs.pc = c.regs.pc := by
      rw [hskips.regs]
      exact UInt16.add_zero _
    refine hpc.trans (h fun code hcode => ?_)
    have hbefore := hstays code (hkept.instruction.trans hcode)
    rw [hkept.ran, hkept.departs] at hbefore
    exact hbefore

/-- Neither does the end of a cycle, and an instruction that stays ends where it began. -/
theorem Stays.next {pc : Word} {q : Sought} (h : c.Stays pc) (hcloses : c.Closes)
    (hbears : c.instruction ≠ none → c.Bears q) :
    (c.latchResult.nextCycle.2 = false → c.latchResult.nextCycle.1.Stays pc)
      ∧ (c.latchResult.nextCycle.2 = true → c.latchResult.nextCycle.1.departs q.code = false →
        c.latchResult.nextCycle.1.regs.pc = pc) := by
  cases hcode : c.instruction with
  | none =>
    have hgoes := hcloses.next_of_none hcode
    have hregs : c.latchResult.nextCycle.1.regs = c.regs := by
      have hlatched : c.latchResult.instruction = none ∧ c.latchResult.regs = c.regs := by
        rw [latchResult_of_none hcode]
        split <;> exact ⟨hcode, rfl⟩
      rw [nextCycle_of_none hlatched.1]
      cases c.latchResult.chain <;> exact hlatched.2
    refine ⟨fun _ _ => ?_, fun hend => by cases hgoes.more.symm.trans hend⟩
    rw [hregs]
    exact h.of_unknown hcode
  | some code =>
    have hknown := hbears (by rw [hcode]; exact nofun)
    have hlatched := hknown.latched hcloses.course
    have hcode' : c.latchResult.instruction = some q.code := by
      obtain ⟨-, hturns⟩ := latchResult_turns hknown.known
      exact (hturns.cycles hknown.known (hcloses.course.scheduled q.code hknown.known).1).1
    obtain ⟨hnext, hregs, -, hdeparts⟩ := nextCycle_kept hcode'
    have hpc (hstays : ¬ q.code.Turned (c.ran ++ [⟨c.cycle.kind, c.cycle.length⟩])
        ∨ c.latchResult.nextCycle.1.departs q.code = false) :
        c.latchResult.nextCycle.1.regs.pc = pc := by
      rw [hdeparts] at hstays
      obtain ⟨hkept, hstayed⟩ := hlatched.pc hstays
      rw [hregs, hkept]
      refine h fun found hfound => ?_
      obtain rfl := Option.some.inj (hknown.known.symm.trans hfound)
      exact hstayed
    refine ⟨fun hmore hstays => hpc ?_, fun _ hstays => hpc (Or.inr hstays)⟩
    rcases hcloses.next with hgoes | ⟨hend, -⟩
    · rw [← hgoes.ran]
      exact hstays q.code hnext
    · cases hmore.symm.trans hend

end Core

end Z80Board
