import Z80Board.Proofs.Chip.Arbitration
import Z80Board.Proofs.Chip.Prefixes
import Z80Board.Proofs.Chip.Protocol

/-! # The halted chip

    From HALT on the chip performs no-ops of its own, and each of them does what a HALT does: it
    fetches a byte, drops it, and counts one more refresh.  So as long as the chip stays halted an
    edge leaves all registers alone but R, which counts the no-ops. -/

namespace Z80Board

/-! ## What a halted chip executes -/

/-- The instruction halts the chip, or keeps it halted. -/
def Instruction.rests (code : Instruction) : Bool :=
  code.mnemonic == .halt || code.mnemonic == .haltNop

/-- The instruction takes a fetch and nothing else. -/
def Instruction.Brief (code : Instruction) : Prop :=
  ∀ met, code.timing.cycles met = [⟨.opcodeFetch, 4⟩]

/-- In the catalog an instruction that rests is brief. -/
theorem Catalog.brief_of_rests : ∀ p ∈ Catalog.forms, (p.1 == .halt || p.1 == .haltNop) = true →
    ∀ met, p.2.timing.cycles met = [⟨.opcodeFetch, 4⟩] := by
  decide +kernel

theorem Listing.Entitled.brief {page : Page} {code : Instruction}
    (h : Listing.Entitled Catalog.forms page code) (hrests : code.rests = true) : code.Brief := by
  obtain ⟨m, f, hf, -, hcode⟩ := h
  rw [Instruction.rests, hcode.mnemonic] at hrests
  rw [Instruction.Brief, hcode.timing]
  exact Catalog.brief_of_rests (m, f) hf hrests

theorem brief_internal {op : InternalOp} (hrests : (decoder.internal op).rests = true) :
    (decoder.internal op).Brief := by
  obtain ⟨p, hp, hmnemonic, htiming, -⟩ := internal_listed op
  rw [Instruction.rests, hmnemonic] at hrests
  rw [Instruction.Brief, htiming]
  exact Catalog.brief_of_rests p (List.mem_append_right _ hp) hrests

/-- A chip that is halted is executing an instruction that rests, and such an instruction is brief. -/
structure Imprint.Drowsy (i : Imprint) : Prop where
  brief : ∀ code, i.instruction = some code → code.rests = true → code.Brief
  resting : i.shadow.2.1 = true → ∃ code, i.instruction = some code ∧ code.rests = true

/-- No instruction that acts wakes the chip. -/
theorem Imprint.halted_act (i : Imprint) (h : i.shadow.2.1 = true) (code : Instruction)
    (point : ExecPoint) : (i.act code point).shadow.2.1 = true := by
  show (Core.leaveBehind code.mnemonic point i.shadow).2.1 = true
  unfold Core.leaveBehind
  split
  · split
    · rfl
    · exact h
  · split <;> exact h
  · split <;> exact h
  · exact h

namespace Imprint.Drowsy

variable {i : Imprint} {code : Instruction}

/-- Only a HALT halts the chip. -/
theorem act (h : i.Drowsy) (hcode : i.instruction = some code) (point : ExecPoint) :
    (i.act code point).Drowsy := by
  refine ⟨h.brief, fun hhalted => ?_⟩
  by_cases hhalt : code.mnemonic = .halt
  · refine ⟨code, hcode, ?_⟩
    rw [Instruction.rests, hhalt]
    rfl
  · refine h.resting ?_
    have hkept : (Core.leaveBehind code.mnemonic point i.shadow).2.1 = i.shadow.2.1 := by
      unfold Core.leaveBehind
      split
      · next heq => exact absurd heq hhalt
      · split <;> rfl
      · split <;> rfl
      · rfl
    exact hkept.symm.trans hhalted

theorem holds : Imprint.Holds Imprint.Drowsy where
  acts i code hcode h := h.act hcode .decoded
  begins i page code hnone hentitled h := by
    have htaken : ({ i with instruction := some code } : Imprint).Drowsy := by
      refine ⟨fun other hother hrests => ?_, fun hhalted => ?_⟩
      · obtain rfl := Option.some.inj hother
        exact hentitled.brief hrests
      · obtain ⟨other, hother, -⟩ := h.resting hhalted
        cases hnone.symm.trans hother
    exact htaken.act rfl .decoded

end Imprint.Drowsy

namespace Core

variable {c d k : Core} {level : Level} {inputs : InputLevels}

theorem halted_leaveHalt (c : Core) : c.leaveHalt.halted = false := by
  rw [leaveHalt]
  split
  · rfl
  · next hgoes => exact Bool.eq_false_iff.mpr hgoes

/-- Only a no-op leaves the chip halted. -/
theorem resolveNext_resting (h : c.resolveNext.halted = true) :
    c.halted = true ∧ c.resolveNext = c.cleared.startInternal .haltNop := by
  have hleft := c.cleared.halted_leaveHalt
  rw [resolveNext_eq] at h ⊢
  split at h
  · cases hleft.symm.trans h
  split at h
  · have hint : c.cleared.acceptInt.halted = false := by
      rw [acceptInt_eq]
      split
      · exact hleft
      · split <;> exact hleft
    cases hint.symm.trans h
  next hnmi hint =>
  split at h
  · next hhalted => exact ⟨hhalted, by rw [if_neg hnmi, if_neg hint, if_pos hhalted]⟩
  · exact absurd h ‹_›

/-- The next instruction is an operation of the chip itself, or is still to be fetched. -/
theorem instruction_resolveNext (c : Core) : c.resolveNext.instruction = none
    ∨ ∃ op, c.resolveNext.instruction = some (decoder.internal op) := by
  have hnone : c.cleared.leaveHalt.instruction = none := by
    rw [leaveHalt]
    split <;> rfl
  rw [resolveNext_eq, acceptInt_eq, acceptNmi_eq]
  split
  · exact Or.inr ⟨_, rfl⟩
  split
  · split
    · exact Or.inl hnone
    · split <;> exact Or.inr ⟨_, rfl⟩
  split
  · exact Or.inr ⟨_, rfl⟩
  · exact Or.inl rfl

theorem drowsy_resolveNext (c : Core) : c.resolveNext.imprint.Drowsy := by
  refine ⟨fun code hcode hrests => ?_, fun hhalted => ?_⟩
  · rcases c.instruction_resolveNext with hnone | ⟨op, hop⟩
    · cases hnone.symm.trans hcode
    · obtain rfl := Option.some.inj (hop.symm.trans hcode)
      exact brief_internal hrests
  · refine ⟨decoder.internal .haltNop, ?_, by decide +kernel⟩
    show c.resolveNext.instruction = _
    rw [(resolveNext_resting hhalted).2]
    rfl

theorem drowsy_latchResult (h : c.imprint.Drowsy) : c.latchResult.imprint.Drowsy := by
  rcases c.imprint_latchResult with ⟨-, hkept⟩ | ⟨code, hcode, hacted⟩
  · rw [hkept]
    exact h
  · rw [hacted]
    exact h.act hcode _

/-! ## On every run -/

/-- What holds of the chip between edges: it is halted only while it runs, or has lent its buses, amid
    an instruction that rests. -/
structure Drowsy (c : Core) : Prop where
  imprint : c.imprint.Drowsy
  awake : c.phase = .powerOn ∨ c.phase = .reset → c.halted = false

theorem Drowsy.of_running (h : c.imprint.Drowsy) (hphase : c.phase = .running) : c.Drowsy := by
  refine ⟨h, ?_⟩
  rintro (hother | hother) <;> cases hphase.symm.trans hother

theorem Drowsy.sampled (h : c.Drowsy) (inputs : InputLevels) :
    (c.sampleInputs inputs).leaveReset.Drowsy := by
  rw [leaveReset]
  split
  · next hreset => exact ⟨h.imprint, fun _ => h.awake (Or.inr hreset)⟩
  · exact ⟨h.imprint, h.awake⟩

theorem Readied.drowsy {emitted : List Emission} (hready : c.Readied k emitted)
    (h : c.imprint.Drowsy) : k.imprint.Drowsy := by
  cases hready with
  | running | returned => exact h
  | started | resolved | returnedResolved => exact drowsy_resolveNext _

/-- A half-period, with the end of its cycle. -/
theorem drowsy_finish (h : k.imprint.Drowsy) (hunderway : k.Underway) (hphase : k.phase = .running)
    (emitted : List Emission) (stopping : Bool) :
    ((k.runEdge emitted).finish stopping).1.Drowsy := by
  have hrun : k.runHalf.1.imprint.Drowsy := Imprint.Drowsy.holds.runHalf hunderway h
  have hrunning : k.runHalf.1.phase = .running := steady_runHalf.phase.trans hphase
  have hnext : k.runHalf.1.latchResult.nextCycle.1.imprint.Drowsy := by
    rw [imprint_nextCycle]
    exact drowsy_latchResult hrun
  have hgoes : k.runHalf.1.latchResult.nextCycle.1.phase = .running :=
    (steady_latchResult.trans (steady_nextCycle _)).phase.trans hrunning
  rw [runEdge_eq, endCycle_eq]
  split
  · split
    · cases stopping with
      | true =>
        exact Drowsy.of_running (c := { k.runHalf.1.latchResult.nextCycle.1.complete with
          boundaryPending := true }) hnext hgoes
      | false =>
        have hchosen := phase_resolveNext k.runHalf.1.latchResult.nextCycle.1.complete
        exact .of_running (drowsy_resolveNext _) (hchosen.1.trans hgoes)
    · exact .of_running hnext hgoes
  · exact .of_running hrun hrunning

/-- Every edge. -/
theorem Drowsy.edge (h : c.Drowsy) (hsound : c.Sound) (level : Level) (inputs : InputLevels)
    (stopping : Bool) : ((c.edge level inputs).finish stopping).1.Drowsy := by
  have hsampled := h.sampled inputs
  have hsound' := (hsound.sampleInputs inputs).leaveReset
  have hturn := c.turn level inputs
  generalize c.engaged level inputs = engaged at hturn
  generalize c.edge level inputs = e at hturn ⊢
  cases hturn with
  | resets =>
    refine ⟨⟨fun _ hsome => (by cases hsome), fun hhalted => (by cases hhalted)⟩, fun _ => rfl⟩
  | passes sampled => exact sampled ▸ hsampled
  | grants ready =>
    refine ⟨ready.drowsy hsampled.imprint, ?_⟩
    rintro (hother | hother) <;> cases hother
  | begins ready | continues ready =>
    obtain ⟨hunderway, hphase, -⟩ := ready.underway hsound'
    exact drowsy_finish (ready.drowsy hsampled.imprint) hunderway hphase _ stopping

/-! ## Asleep -/

/-- The no-op in progress has had its refresh. -/
def refreshed (c : Core) : Nat :=
  if c.boundaryPending = false ∧ 4 < c.cycle.half then 1 else 0

/-- From one chip to the other R has counted the no-ops, and no other register has changed. -/
structure Sleeps (c d : Core) : Prop where
  regs : { d.regs with r := c.regs.r } = c.regs
  counted : ∃ count, Refreshed c.regs.r count d.regs.r
    ∧ count + c.refreshed + c.instructionCounter = d.instructionCounter + d.refreshed

/-- Nothing has been counted. -/
theorem Sleeps.of_same (hregs : d.regs = c.regs)
    (hcount : c.refreshed + c.instructionCounter = d.instructionCounter + d.refreshed) :
    c.Sleeps d := by
  refine ⟨by rw [hregs], 0, ?_, by rw [Nat.zero_add]; exact hcount⟩
  rw [hregs]
  exact Refreshed.refl _

theorem Sleeps.refl (c : Core) : c.Sleeps c :=
  .of_same rfl (Nat.add_comm _ _)

theorem Sleeps.trans {e : Core} (h : c.Sleeps d) (h' : d.Sleeps e) : c.Sleeps e := by
  obtain ⟨hregs, count, hcounted, hsum⟩ := h
  obtain ⟨hregs', count', hcounted', hsum'⟩ := h'
  refine ⟨?_, count + count', ?_, by omega⟩
  · calc { e.regs with r := c.regs.r }
        = { ({ e.regs with r := d.regs.r } : Registers) with r := c.regs.r } := rfl
      _ = { d.regs with r := c.regs.r } := by rw [hregs']
      _ = c.regs := hregs
  · have hlow := hcounted.low
    have hlow' := hcounted'.low
    exact ⟨by omega, hcounted'.high.trans hcounted.high⟩

/-- The cycle of an instruction that rests. -/
theorem Underway.brief (h : c.Underway) {code : Instruction} (hcode : c.instruction = some code)
    (hbrief : code.Brief) : c.cycle.kind = .opcodeFetch ∧ c.cycle.length = 4 ∧ c.position = 0
      ∧ c.cycles = [⟨.opcodeFetch, 4⟩] := by
  have hcurrent := h.course.current
  have hcycles := (h.course.scheduled code hcode).1.trans (hbrief c.conditionMet)
  rw [plan, hcode] at hcurrent
  dsimp only at hcurrent
  rw [hcycles] at hcurrent
  obtain ⟨hposition, hcycle⟩ := List.getElem?_eq_some_iff.mp hcurrent
  have hfirst : c.position = 0 := by simpa using hposition
  simp only [hfirst, List.getElem_cons_zero, MachineCycle.mk.injEq] at hcycle
  exact ⟨hcycle.1.symm, hcycle.2.symm, hfirst, hcycles⟩

/-- An instruction that rests leaves the registers alone when it acts. -/
theorem regs_execute_of_rests {code : Instruction} (hcode : c.instruction = some code)
    (hrests : code.rests = true) (point : ExecPoint) : (c.execute point).regs = c.regs := by
  have hact (e : Core) : (e.act code point).regs = e.regs := by
    rw [Instruction.rests, Bool.or_eq_true, beq_iff_eq, beq_iff_eq] at hrests
    rw [act]
    rcases hrests with hhalt | hnop
    · rw [hhalt]
      dsimp only
      split <;> rfl
    · rw [hnop]
  have haddressed : (c.addressOperand code).regs = c.regs := by
    rw [addressOperand]
    split <;> rfl
  rw [execute, hcode]
  dsimp only
  split
  · rw [hact, haddressed]
  · exact hact c

/-- A half-period of an instruction that rests counts a refresh where its byte is sampled, and does
    nothing else to the registers. -/
theorem Underway.regs_resting (h : k.Underway) {code : Instruction} (hcode : k.instruction = some code)
    (hrests : code.rests = true) (hbrief : code.Brief) :
    k.runHalf.1.regs = if k.cycle.half = 4 then k.regs.incrementR else k.regs := by
  obtain ⟨hkind, -⟩ := h.brief hcode hbrief
  have heffect : k.runHalf.1.regs = (k.effect k.cycle.half k.data.value).regs :=
    congrArg (fun c => c.regs) (runHalf_wiredAs_self (c := k))
  have htaken (byte : Byte) : (k.countRefresh.takeOpcodeByte byte).regs = k.regs.incrementR := by
    rw [takeOpcodeByte_of_some (c := k.countRefresh) hcode]
    exact regs_execute_of_rests (c := k.countRefresh.fetch byte) hcode hrests .decoded
  rw [heffect, effect, takeIn]
  rcases h.course.uses.opcodeFetch_iff.mp hkind with hpattern | hpattern | hpattern <;>
    rw [hpattern, if_neg (by rintro ⟨-, hwrite⟩; cases hwrite)]
  · show (if k.cycle.half = 4 then _ else k).regs = _
    split
    · exact htaken _
    · rfl
  · show (if k.cycle.half = 4 then _ else k).regs = _
    split
    · exact htaken _
    · rfl
  · -- the last byte of the opcode has been read before
    have hlate := (h.course.scheduled code hcode).2.2 hpattern
    have hsampled : k.cycle.half ≠ BusPattern.opcodeRead.sampleHalf := Nat.ne_of_gt hlate
    rw [if_neg hsampled, if_neg (by omega)]

/-- A half-period that leaves the cycle unfinished. -/
theorem Underway.sleeps (h : k.Underway) (hchosen : k.boundaryPending = false) {code : Instruction}
    (hcode : k.instruction = some code) (hrests : code.rests = true) (hbrief : code.Brief)
    (hmore : k.runHalf.2 = false) : k.Sleeps k.runHalf.1 := by
  have hregs := h.regs_resting hcode hrests hbrief
  have hsteady := steady_runHalf (c := k)
  have hhalf := h.half_runHalf hmore
  have hchosen' : k.runHalf.1.boundaryPending = false := hsteady.pending.trans hchosen
  have hcounter := hsteady.counter
  have hnext : k.runHalf.1.cycle.half = k.cycle.half + 1
      ∨ k.cycle.half = 3 ∧ k.runHalf.1.cycle.half = 2 := by
    rcases hhalf with ⟨-, hnext⟩ | ⟨-, hback, ⟨hthree, -⟩ | ⟨-, hport⟩⟩
    · exact Or.inl hnext
    · exact Or.inr ⟨hthree, by omega⟩
    · have hfetch := h.course.uses.opcodeFetch_iff.mp (h.brief hcode hbrief).1
      rcases hport with hport | hport <;> rw [hport] at hfetch <;> simp at hfetch
  by_cases hfour : k.cycle.half = 4
  · rw [if_pos hfour] at hregs
    refine ⟨by rw [hregs]; rfl, 1, ?_, ?_⟩
    · rw [hregs]
      exact (Refreshed.refl _).increment
    · rw [refreshed, refreshed, if_neg (by omega), if_pos ⟨hchosen', by omega⟩]
      omega
  · rw [if_neg hfour] at hregs
    refine .of_same hregs ?_
    have hsame : k.refreshed = k.runHalf.1.refreshed := by
      rw [refreshed, refreshed, hchosen, hchosen']
      congr 1
      rw [eq_iff_iff]
      refine and_congr_right fun _ => ?_
      omega
    rw [hsame, hcounter, Nat.add_comm]

/-- Going on with a no-op counts nothing yet. -/
theorem resolveNext_kept (h : c.resolveNext.halted = true) : c.resolveNext.regs = c.regs
    ∧ c.resolveNext.instructionCounter = c.instructionCounter ∧ c.resolveNext.refreshed = 0 := by
  rw [(resolveNext_resting h).2]
  exact ⟨rfl, rfl, if_neg fun hlate => nomatch hlate.2⟩

/-- A chip that is made ready, and halted, has gone on resting. -/
theorem Readied.sleeps {emitted : List Emission} (hready : c.Readied k emitted) (h : c.Drowsy)
    (hhalted : c.halted = true) (hasleep : k.halted = true) : c.Sleeps k := by
  have hbefore (hpending : c.boundaryPending = true) : c.refreshed = 0 :=
    if_neg fun hchosen => by cases hpending.symm.trans hchosen.1
  cases hready with
  | running => exact .refl c
  | returned => exact .of_same rfl (Nat.add_comm _ _)
  | started phase => cases hhalted.symm.trans (h.awake (Or.inl phase))
  | @resolved d phase pending cleared =>
    subst cleared
    obtain ⟨hregs, hcounter, hnone⟩ := resolveNext_kept hasleep
    refine .of_same hregs ?_
    rw [hcounter, hnone, hbefore pending]
    exact Nat.add_comm _ _
  | @returnedResolved d phase pending cleared =>
    subst cleared
    obtain ⟨hregs, hcounter, hnone⟩ := resolveNext_kept hasleep
    refine .of_same hregs ?_
    rw [hcounter, hnone, hbefore pending]
    exact Nat.add_comm _ _

/-- The last half-period of an instruction that rests completes it, and nothing else. -/
theorem Underway.ends_resting (h : k.Underway) {code : Instruction}
    (hcode : k.instruction = some code) (hbrief : code.Brief) (hlast : k.runHalf.2 = true) :
    4 < k.cycle.half ∧ k.runHalf.1.latchResult.nextCycle = (k.runHalf.1.stepOn, true)
      ∧ k.runHalf.1.regs = k.regs := by
  obtain ⟨hkind, -, hfirst, hcycles⟩ := h.brief hcode hbrief
  have hlate := (h.last hlast).2.2.2
  -- the byte has been sampled before
  have hsampled : 4 < k.cycle.half ∧ k.cycle.half ≠ k.cycle.pattern.sampleHalf := by
    rcases h.course.uses.opcodeFetch_iff.mp hkind with hpattern | hpattern | hpattern <;>
      rw [hpattern] at hlate ⊢ <;> simp only [BusPattern.minimumLength] at hlate <;>
      simp only [BusPattern.sampleHalf]
    · omega
    · omega
    · have := (h.course.scheduled code hcode).2.2 hpattern
      omega
  have hsame : k.runHalf.1.wiredAs k = k := by
    rw [runHalf_wiredAs_self, effect, if_neg fun hzero => by omega, if_neg hsampled.2]
  have hcode' : k.runHalf.1.instruction = some code :=
    (congrArg (fun c => c.instruction) hsame).trans hcode
  have hnone : k.runHalf.1.cycles[k.runHalf.1.position + 1]? = none := by
    rw [show k.runHalf.1.cycles = _ from (congrArg (fun c => c.cycles) hsame).trans hcycles,
      show k.runHalf.1.position = 0 from (congrArg (fun c => c.position) hsame).trans hfirst]
    rfl
  have hkind' : k.runHalf.1.cycle.kind = .opcodeFetch := by
    exact (kind_of_use use_runHalf).trans hkind
  refine ⟨hsampled.1, ?_, congrArg (fun c => c.regs) hsame⟩
  rw [latchResult_of_some hcode', if_pos hkind', nextCycle_of_some hcode', hnone]

/-- A half-period of a chip that is halted, with the end of its cycle. -/
theorem Underway.sleeps_finish (h : k.Underway) (hchosen : k.boundaryPending = false)
    (hdrowsy : k.imprint.Drowsy) (hhalted : k.halted = true) (emitted : List Emission)
    (stopping : Bool) (hasleep : ((k.runEdge emitted).finish stopping).1.halted = true) :
    k.Sleeps ((k.runEdge emitted).finish stopping).1 := by
  obtain ⟨code, hcode, hrests⟩ := hdrowsy.resting hhalted
  have hbrief := hdrowsy.brief code hcode hrests
  cases hlast : k.runHalf.2 with
  | false =>
    rw [runEdge_eq, hlast, if_neg Bool.false_ne_true]
    exact h.sleeps hchosen hcode hrests hbrief hlast
  | true =>
    obtain ⟨hlate, hnext, hregs⟩ := h.ends_resting hcode hbrief hlast
    have hrefreshed : k.refreshed = 1 := if_pos ⟨hchosen, hlate⟩
    have hcounter : k.runHalf.1.stepOn.complete.instructionCounter = k.instructionCounter + 1 :=
      congrArg (· + 1) (steady_runHalf (c := k)).counter
    rw [runEdge_eq, hlast, if_pos rfl, endCycle_eq, hnext, if_pos rfl] at hasleep ⊢
    cases stopping with
    | true =>
      refine .of_same hregs ?_
      show _ = k.runHalf.1.stepOn.complete.instructionCounter + 0
      rw [hrefreshed, hcounter, Nat.add_comm]
    | false =>
      have hasleep : k.runHalf.1.stepOn.complete.resolveNext.halted = true := hasleep
      obtain ⟨hregs', hcounter', hnone⟩ := resolveNext_kept hasleep
      refine .of_same (hregs'.trans hregs) ?_
      show _ = k.runHalf.1.stepOn.complete.resolveNext.instructionCounter
        + k.runHalf.1.stepOn.complete.resolveNext.refreshed
      rw [hcounter', hnone, hrefreshed, hcounter, Nat.add_comm]

/-- The first half-period of a cycle neither halts the chip nor wakes it. -/
theorem Underway.halted_first (h : k.Underway) (hfirst : k.cycle.half = 0) (emitted : List Emission)
    (stopping : Bool) : ((k.runEdge emitted).finish stopping).1.halted = k.halted := by
  have hmore := h.more_of_early (by omega)
  have heffect : k.runHalf.1.halted = (k.effect k.cycle.half k.data.value).halted :=
    congrArg (fun c => c.halted) (runHalf_wiredAs_self (c := k))
  have hunsampled := k.cycle.pattern.sampleHalf_ne_zero.symm
  rw [runEdge_eq, hmore, if_neg Bool.false_ne_true]
  show k.runHalf.1.halted = k.halted
  rw [heffect, effect, hfirst, if_neg hunsampled, pushPointer]
  repeat' split
  all_goals rfl

/-- A chip that is made ready is as halted as it was, or begins a cycle. -/
theorem Readied.halted_or_first {emitted : List Emission} (hready : c.Readied k emitted) :
    k.halted = c.halted ∨ k.cycle.half = 0 := by
  cases hready with
  | running | returned => exact Or.inl rfl
  | started | resolved | returnedResolved => exact Or.inr (course_resolveNext _).2.1

/-- A chip that is made ready, and then runs a half-period. -/
theorem Readied.sleeps_finish {emitted : List Emission} (hready : c.Readied k emitted)
    (hsound : c.Sound) (h : c.Drowsy) (hhalted : c.halted = true) (told : List Emission)
    (stopping : Bool) (hasleep : ((k.runEdge told).finish stopping).1.halted = true) :
    c.Sleeps ((k.runEdge told).finish stopping).1 := by
  obtain ⟨hunderway, -, hchosen⟩ := hready.underway hsound
  have hresting : k.halted = true := by
    rcases hready.halted_or_first with hkept | hfirst
    · exact hkept.trans hhalted
    · exact (hunderway.halted_first hfirst told stopping).symm.trans hasleep
  exact (hready.sleeps h hhalted hresting).trans
    (hunderway.sleeps_finish hchosen (hready.drowsy h.imprint) hresting told stopping hasleep)

/-- An edge that leaves a halted chip halted. -/
theorem Drowsy.sleeps_edge (h : c.Drowsy) (hsound : c.Sound) (hhalted : c.halted = true)
    (level : Level) (inputs : InputLevels) (stopping : Bool)
    (hasleep : ((c.edge level inputs).finish stopping).1.halted = true) :
    c.Sleeps ((c.edge level inputs).finish stopping).1 := by
  have hsampled := h.sampled inputs
  have hsound' := (hsound.sampleInputs inputs).leaveReset
  have hturn := c.turn level inputs
  generalize c.engaged level inputs = engaged at hturn
  generalize c.edge level inputs = e at hturn hasleep ⊢
  have hnow : (c.sampleInputs inputs).leaveReset.halted = true
      ∧ c.Sleeps (c.sampleInputs inputs).leaveReset := by
    rw [leaveReset]
    split <;> exact ⟨hhalted, .of_same rfl (Nat.add_comm _ _)⟩
  cases hturn with
  | resets => cases hasleep
  | passes sampled =>
    subst sampled
    exact hnow.2
  | @grants k emitted ready first =>
    have hslept : c.Sleeps k := hnow.2.trans (ready.sleeps hsampled hnow.1 hasleep)
    exact hslept.trans (.of_same rfl (Nat.add_comm _ _))
  | begins ready | continues ready =>
    exact hnow.2.trans (ready.sleeps_finish hsound' hsampled hnow.1 _ stopping hasleep)

/-! ## Waking up -/

/-- Nothing that is told is the start of an interrupt. -/
def Undisturbed (told : List Emission) : Prop :=
  ∀ e ∈ told, e.event = .instructionStart → e.core.origin.interrupts = false

/-- Unless it is interrupted, a halted chip goes on with a no-op. -/
theorem resolveNext_dozes (h : c.halted = true)
    (hquiet : Undisturbed [⟨.instructionStart, c.resolveNext⟩]) : c.resolveNext.halted = true := by
  have hown := hquiet _ (List.mem_singleton_self _) rfl
  dsimp only at hown
  rw [resolveNext_eq] at hown ⊢
  split at hown
  · cases hown
  next hnmi =>
  split at hown
  · rw [acceptInt_eq] at hown
    split at hown
    · cases hown
    · split at hown <;> cases hown
  next hint =>
  rw [if_neg hnmi, if_neg hint, if_pos h]
  exact h

/-- A half-period wakes nobody. -/
theorem Underway.halted_runHalf (h : k.Underway) (hhalted : k.halted = true) :
    k.runHalf.1.halted = true := by
  have hholds : Imprint.Holds fun i => i.shadow.2.1 = true :=
    ⟨fun i code _ hi => i.halted_act hi code _, fun i _ code _ _ hi => i.halted_act hi code _⟩
  exact hholds.runHalf h hhalted

/-- Neither does the end of a cycle. -/
theorem halted_latchResult (h : c.halted = true) : c.latchResult.nextCycle.1.halted = true := by
  have hlatched : c.latchResult.imprint.shadow.2.1 = true := by
    rcases c.imprint_latchResult with ⟨-, hkept⟩ | ⟨code, -, hacted⟩
    · rw [hkept]
      exact h
    · rw [hacted]
      exact c.imprint.halted_act h code _
  rw [← c.latchResult.imprint_nextCycle] at hlatched
  exact hlatched

/-- A half-period, with the end of its cycle, is not interrupted either. -/
theorem Underway.dozes_finish (h : k.Underway) (hhalted : k.halted = true) (told : List Emission)
    (stopping : Bool) (hquiet : Undisturbed ((k.runEdge told).finish stopping).2) :
    ((k.runEdge told).finish stopping).1.halted = true := by
  have hrun := h.halted_runHalf hhalted
  have hnext := halted_latchResult hrun
  rw [runEdge_eq, endCycle_eq] at hquiet ⊢
  revert hquiet
  split
  · split
    · cases stopping with
      | true => exact fun _ => hnext
      | false =>
        intro hquiet
        refine resolveNext_dozes (c := k.runHalf.1.latchResult.nextCycle.1.complete) hnext
          fun e he => hquiet e ?_
        rw [List.mem_singleton.mp he]
        exact List.mem_cons_self
    · exact fun _ => hnext
  · exact fun _ => hrun

/-- A chip that is made ready dozes on. -/
theorem Readied.dozes {emitted : List Emission} (hready : c.Readied k emitted)
    (h : c.halted = true) (hquiet : Undisturbed emitted) : k.halted = true := by
  cases hready with
  | running | returned => exact h
  | @started d phase running =>
    subst running
    exact resolveNext_dozes h hquiet
  | @resolved d phase pending cleared =>
    subst cleared
    exact resolveNext_dozes h hquiet
  | @returnedResolved d phase pending cleared =>
    subst cleared
    exact resolveNext_dozes h hquiet

/-- What has been told before a half-period is told by the edge. -/
theorem mem_runEdge {told : List Emission} {e : Emission} (h : e ∈ told) :
    e ∈ (k.runEdge told).emitted := by
  rw [runEdge_eq, endCycle_eq]
  split
  · split
    · exact List.mem_append_left _ (List.mem_append_left _ h)
    · exact List.mem_append_left _ h
  · exact h

/-- As long as nothing interrupts it, and nobody resets it, a halted chip stays halted. -/
theorem Sound.dozes_edge (hsound : c.Sound) (hhalted : c.halted = true) (level : Level)
    (inputs : InputLevels) (stopping : Bool) (hreset : inputs.reset.isAsserted = false)
    (hquiet : Undisturbed ((c.edge level inputs).emitted
      ++ ((c.edge level inputs).finish stopping).2)) :
    ((c.edge level inputs).finish stopping).1.halted = true := by
  have hsound' := (hsound.sampleInputs inputs).leaveReset
  have hnow : (c.sampleInputs inputs).leaveReset.halted = true := by
    rw [Core.leaveReset]
    split <;> exact hhalted
  have hturn := c.turn level inputs
  generalize c.engaged level inputs = engaged at hturn
  generalize c.edge level inputs = e at hturn hquiet ⊢
  have hearly (e' : Emission) (he : e' ∈ e.emitted) := hquiet e' (List.mem_append_left _ he)
  have hlate : Undisturbed (e.finish stopping).2 := fun e' he =>
    hquiet e' (List.mem_append_right _ he)
  cases hturn with
  | resets reset => cases hreset.symm.trans reset
  | passes sampled =>
    subst sampled
    exact hnow
  | grants ready => exact ready.dozes hnow hearly
  | begins ready =>
    have hready := ready.dozes hnow fun e' he =>
      hearly e' (mem_runEdge (List.mem_append_left _ he))
    exact (ready.underway hsound').1.dozes_finish hready _ stopping hlate
  | continues ready =>
    have hready := ready.dozes hnow fun e' he => hearly e' (mem_runEdge he)
    exact (ready.underway hsound').1.dozes_finish hready _ stopping hlate

/-- A chip that is halted writes nothing to memory. -/
theorem Drowsy.unwritten (h : c.Drowsy) (hsound : c.Sound) (hhalted : c.halted = true) :
    c.pins.givesMemory = false := by
  rcases hsound.rests_or_runs with hrest | ⟨-, hunderway⟩
  · exact (nobody_asked hrest).2.1
  · refine Bool.eq_false_iff.mpr fun hgives => ?_
    have hwrite := (hunderway.wired.givesMemory_iff.mp hgives).1
    obtain ⟨code, hcode, hrests⟩ := h.imprint.resting hhalted
    have hkind := (hunderway.brief hcode (h.imprint.brief code hcode hrests)).1
    have hfetch := hunderway.course.uses.opcodeFetch_iff.mp hkind
    rw [hwrite] at hfetch
    simp at hfetch

end Core

end Z80Board
