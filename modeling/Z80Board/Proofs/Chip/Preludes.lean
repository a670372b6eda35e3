import Z80Board.Proofs.Chip.Guises
import Z80Board.Proofs.Isa.Mirror

/-! # In front of the opcode

    An instruction may begin with any number of index prefixes.  As long as one would still count, the
    chip does nothing but fetch; all the bytes that it has taken in are prefixes; and PC stands at the
    byte behind them, which is on the address bus while it is asked for. -/

namespace Z80Board

/-- So many bytes from an address on are index prefixes. -/
def Leading (byteAt : Word → Byte) (start : Word) (count : Nat) : Prop :=
  ∀ i < count, ∃ x : Index, byteAt (start + i.toUInt16) = x.selector

/-- One more prefix. -/
theorem Leading.succ {byteAt : Word → Byte} {start : Word} {count : Nat}
    (h : Leading byteAt start count)
    (hnext : ∃ x : Index, byteAt (start + count.toUInt16) = x.selector) :
    Leading byteAt start (count + 1) := by
  intro i hi
  rcases Nat.lt_succ_iff_lt_or_eq.mp hi with hless | rfl
  · exact h i hless
  · exact hnext

namespace Core

variable {c k : Core} {half : Nat} {byte : Byte} {code : Instruction} {byteAt : Word → Byte}
  {start : Word}

/-- An index prefix would still count. -/
def awaits (c : Core) : Bool :=
  c.instruction.isNone && c.page.plain

/-- An index prefix counts only as long as no instruction is known. -/
theorem awaits_of_known (hcode : c.instruction = some code) : c.awaits = false := by
  rw [awaits, hcode]
  rfl

/-- As long as one would count, the chip fetches. -/
theorem Course.fetching (h : c.Course half) (hawaits : c.awaits = true) :
    c.cycle.kind = .opcodeFetch ∧ (c.cycle.pattern = .fetch ∨ c.cycle.pattern = .acknowledge) := by
  rw [awaits, Bool.and_eq_true, Option.isNone_iff_eq_none] at hawaits
  obtain ⟨hnone, hplain⟩ := hawaits
  have hpage : c.page.displaced = false
      ∧ ∀ cycle ∈ c.page.approach ++ [⟨.opcodeFetch, if c.page.displaced then 3 else 4⟩],
        cycle.kind = .opcodeFetch := by
    revert hplain
    cases c.page <;> decide
  have hcurrent := h.current
  rw [plan, hnone] at hcurrent
  have hkind : c.cycle.kind = .opcodeFetch := hpage.2 _ (List.mem_of_getElem? hcurrent)
  refine ⟨hkind, ?_⟩
  cases h.seeking hnone with
  | fetching _ _ _ pattern => exact pattern
  | reading displaced => cases displaced.symm.trans hpage.1
  | leading _ _ _ _ pattern =>
    have huses := h.uses.opcodeFetch_iff.mp hkind
    rw [← or_assoc] at huses
    exact huses.resolve_right pattern

/-! ## Looking prefixes up -/

/-- An index prefix leads to the page of its register, and takes the place of another one. -/
theorem dispatch_selector (hplain : c.page.plain = true) (x : Index) :
    c.dispatch x.selector = { c with
      opcode := c.opcode.push x.selector
      page := x.page
      chain := .opcode
      position := if c.page = .main then c.position else 0 } := by
  obtain ⟨hmain, hindex⟩ := action_of_selector x
  have hpage : c.page = .main ∨ ∃ y : Index, c.page = y.page := by
    cases hpage : c.page <;> rw [hpage] at hplain
    case main => exact Or.inl rfl
    case dd => exact Or.inr ⟨.ix, rfl⟩
    case fd => exact Or.inr ⟨.iy, rfl⟩
    all_goals cases hplain
  unfold Core.dispatch
  rcases hpage with hpage | ⟨y, hpage⟩
  · simp only [hpage, Core.follow, hmain, if_pos]
  · have hother : y.page ≠ .main := by cases y <;> decide
    simp only [hpage, Core.follow, hindex y, hmain, if_neg hother]

/-- If an index prefix still counts after a byte has been looked up, that was one, and counted. -/
theorem selector_of_awaits (h : (c.dispatch byte).awaits = true) :
    c.page.plain = true ∧ ∃ x : Index, byte = x.selector := by
  -- an entry of the tables brings an instruction, and all that a prefix leads to but this is no more
  -- than a page
  have hends (e : Core) (page : Page) (again : Core → Page → Core)
      (hother : page.plain = true → ∀ x : Index, byte ≠ x.selector)
      (hkeep : ∀ next, (decode page byte).action ≠ .redecode next) :
      (e.follow (decode page byte) again).awaits = false := by
    unfold Core.follow
    rcases decode_cases page byte with ⟨action, hlead, haction⟩ | ⟨-, haction⟩ | hentitled
    · rw [haction]
      cases page <;> simp only [Page.lead?] at hlead
      case main =>
        have hdd : byte ≠ 0xDD := hother rfl .ix
        have hfd : byte ≠ 0xFD := hother rfl .iy
        rw [if_neg hdd, if_neg hfd] at hlead
        split at hlead
        · cases hlead
          exact Bool.and_false _
        · split at hlead <;> cases hlead
          exact Bool.and_false _
      case dd | fd =>
        split at hlead <;> cases hlead
        exact Bool.and_false _
      all_goals cases hlead
    · exact absurd haction (hkeep _)
    · rw [hentitled.action]
      exact awaits_of_known (instruction_beginExecution e _)
  by_cases hother : c.page.plain = true → ∀ x : Index, byte ≠ x.selector
  · refine absurd h (Bool.eq_false_iff.mp ?_)
    unfold Core.dispatch
    by_cases hdrops : c.drops byte = true
    · obtain ⟨hpage, haction⟩ := drops_cases hdrops
      have hplain : c.page.plain = true := by
        rcases hpage with hpage | hpage <;> rw [hpage] <;> rfl
      rw [Core.follow, haction]
      exact hends _ .main _ (fun _ => hother hplain) (main_keeps byte)
    · exact hends _ c.page _ hother (keeps_of_not_drops hdrops)
  · obtain ⟨hplain, hsome⟩ := Classical.not_imp.mp hother
    obtain ⟨x, hx⟩ := Classical.not_forall.mp hsome
    exact ⟨hplain, x, Decidable.not_not.mp hx⟩

/-! ## Half-periods -/

/-- An instruction that is known stays known. -/
theorem Course.known_effect (h : c.Course half) (hcode : c.instruction = some code) (byte : Byte) :
    (c.effect half byte).instruction = some code := by
  by_cases htakes : c.TakesByte half
  · rw [htakes.effect_eq, takeIn]
    have hfetched : (c.countRefresh.takeOpcodeByte byte).instruction = some code := by
      rw [takeOpcodeByte_of_some (c := c.countRefresh) hcode]
      exact (instruction_execute _ _).trans hcode
    rcases htakes with ⟨hpattern | hpattern, -⟩ | ⟨hpattern, hhalf⟩
    · rw [hpattern]
      exact hfetched
    · rw [hpattern]
      exact hfetched
    · have hpast := (h.scheduled code hcode).2.2 hpattern
      omega
  · exact (skips_effect h htakes byte).kept.instruction.trans hcode

/-- If an index prefix still counts after a half-period, it did before; and if that was the one in
    which a byte is taken in, the byte is a prefix. -/
theorem Course.awaits_effect (h : c.Course half) (hawaits : (c.effect half byte).awaits = true) :
    c.awaits = true
      ∧ if half = 4 then
          (∃ x : Index, byte = x.selector) ∧ (c.effect half byte).regs.pc = c.advancePc.regs.pc
        else c.effect half byte = c := by
  -- a chip that still awaits an opcode has not known one before
  have hnone : c.instruction = none := by
    cases hcode : c.instruction with
    | none => rfl
    | some code => cases (awaits_of_known (h.known_effect hcode byte)).symm.trans hawaits
  by_cases htakes : c.TakesByte half
  · rw [htakes.effect_eq] at hawaits ⊢
    have hbefore (hplain : c.page.plain = true) : c.awaits = true := by
      rw [awaits, hnone, hplain]
      rfl
    have hfetched (hawaits : (c.countRefresh.takeOpcodeByte byte).awaits = true) :
        c.awaits = true ∧ (∃ x : Index, byte = x.selector)
          ∧ (c.countRefresh.takeOpcodeByte byte).regs.pc = c.advancePc.regs.pc := by
      rw [takeOpcodeByte_of_none (c := c.countRefresh) hnone] at hawaits ⊢
      obtain ⟨hplain, x, rfl⟩ := selector_of_awaits hawaits
      rw [advancePc_eq] at hplain
      refine ⟨hbefore hplain, ⟨x, rfl⟩, ?_⟩
      rw [dispatch_selector (by rw [advancePc_eq]; exact hplain)]
      unfold Core.advancePc
      rw [show c.countRefresh.fromMemory = c.fromMemory from rfl]
      split <;> rfl
    unfold Core.takeIn at hawaits ⊢
    rcases htakes with ⟨hpattern, hhalf⟩ | ⟨hpattern, hhalf⟩
    · rw [if_pos hhalf]
      rcases hpattern with hpattern | hpattern <;> rw [hpattern] at hawaits ⊢ <;>
        exact hfetched hawaits
    · rw [hpattern] at hawaits
      have hplain := (selector_of_awaits hawaits).1
      rw [movePointer_eq] at hplain
      rcases (h.fetching (hbefore hplain)).2 with hother | hother <;> cases hpattern.symm.trans hother
  · have hskips := (skips_effect h htakes byte).rest
    have hbefore : c.awaits = true := by
      rw [hskips] at hawaits
      exact hawaits
    have hpattern := (h.fetching hbefore).2
    have hfour : half ≠ 4 := fun hfour => htakes (Or.inl ⟨hpattern, hfour⟩)
    refine ⟨hbefore, ?_⟩
    rw [if_neg hfour, Core.effect]
    have hlater : ¬ (half = 0 ∧ c.cycle.pattern = .write) ∧ half ≠ c.cycle.pattern.sampleHalf := by
      refine ⟨fun hwrite => ?_, ?_⟩
      · rcases hpattern with hpattern | hpattern <;> cases hpattern.symm.trans hwrite.2
      · rcases hpattern with hpattern | hpattern <;> rw [hpattern] <;> exact hfour
    rw [if_neg hlater.1, if_neg hlater.2]

/-! ## The prefixes behind the chip -/

/-- As long as an index prefix would still count, all bytes from an address up to PC are prefixes, and
    PC is on the address bus until the byte there has been taken in. -/
structure Nears (byteAt : Word → Byte) (start : Word) (c : Core) : Prop where
  reached : c.awaits = true → ∃ count : Nat,
    c.regs.pc = start + count.toUInt16 ∧ Leading byteAt start count
  located : c.awaits = true → c.cycle.half ≠ 0 → c.cycle.half ≤ 4 → c.address.value = c.regs.pc

/-- The instruction begins in front of all of them. -/
theorem nears_first (byteAt : Word → Byte) (hfirst : c.cycle.half = 0) : c.Nears byteAt c.regs.pc :=
  ⟨fun _ => ⟨0, (UInt16.add_zero _).symm, fun _ hless => absurd hless (Nat.not_lt_zero _)⟩,
    fun _ hlater => absurd hfirst hlater⟩

/-- How far the chip has come does not depend on its wires. -/
theorem Nears.of_logic {d : Core} (h : c.Nears byteAt start) (hlogic : d.logic = c.logic)
    (hlocated : d.awaits = true → d.cycle.half ≠ 0 → d.cycle.half ≤ 4 →
      d.address.value = d.regs.pc) : d.Nears byteAt start := by
  have hback : d.logic.awaits = true → ∃ count : Nat,
      d.logic.regs.pc = start + count.toUInt16 ∧ Leading byteAt start count := by
    rw [hlogic]
    exact h.reached
  exact ⟨hback, hlocated⟩

/-- If an index prefix still counts after a half-period, PC stands behind one more prefix or where it
    was. -/
theorem awaits_runHalf (hcourse : k.Course k.cycle.half) (hawaits : k.runHalf.1.awaits = true) :
    k.awaits = true
      ∧ if k.cycle.half = 4 then
          (∃ x : Index, k.data.value = x.selector) ∧ k.runHalf.1.regs.pc = k.advancePc.regs.pc
        else k.runHalf.1.regs.pc = k.regs.pc := by
  have hlogic := logic_runHalf (k := k)
  have hboth : (k.runHalf.1.awaits, k.runHalf.1.regs.pc)
      = ((k.effect k.cycle.half k.data.value).awaits, (k.effect k.cycle.half k.data.value).regs.pc) :=
    (congrArg (fun d : Core => (d.awaits, d.regs.pc)) hlogic :)
  obtain ⟨hsame, hpc⟩ := Prod.mk.inj hboth
  rw [hsame] at hawaits
  obtain ⟨hbefore, hstep⟩ := hcourse.awaits_effect hawaits
  refine ⟨hbefore, ?_⟩
  rw [hpc]
  split
  · next hfour =>
    rw [if_pos hfour] at hstep
    exact hstep
  · next hother =>
    rw [if_neg hother] at hstep
    rw [hstep]

/-- Running a half-period on bytes from memory keeps PC behind the prefixes. -/
theorem Nears.reached_runHalf (h : k.Nears byteAt start) (hcourse : k.Course k.cycle.half)
    (hmemory : k.fromMemory = true)
    (hbyte : k.awaits = true → k.cycle.half = 4 → k.data.value = byteAt k.regs.pc)
    (hawaits : k.runHalf.1.awaits = true) :
    ∃ count : Nat, k.runHalf.1.regs.pc = start + count.toUInt16 ∧ Leading byteAt start count := by
  obtain ⟨hbefore, hstep⟩ := awaits_runHalf hcourse hawaits
  obtain ⟨count, hpc, hleading⟩ := h.reached hbefore
  by_cases hfour : k.cycle.half = 4
  · rw [if_pos hfour, hbyte hbefore hfour, hpc] at hstep
    obtain ⟨hleads, hnext⟩ := hstep
    refine ⟨count + 1, ?_, hleading.succ hleads⟩
    rw [hnext, Core.advancePc, if_pos hmemory]
    show k.regs.pc + 1 = _
    rw [hpc]
    exact add_toUInt16 start count 1
  · rw [if_neg hfour] at hstep
    exact ⟨count, hstep.trans hpc, hleading⟩

/-- Amid a cycle the chip goes on so. -/
theorem Nears.runHalf (h : k.Nears byteAt start) (hunderway : k.Underway)
    (hmemory : k.fromMemory = true)
    (hbyte : k.awaits = true → k.cycle.half = 4 → k.data.value = byteAt k.regs.pc)
    (hmore : k.runHalf.2 = false) : k.runHalf.1.Nears byteAt start := by
  refine ⟨h.reached_runHalf hunderway.course hmemory hbyte, fun hawaits _ hroom => ?_⟩
  obtain ⟨hbefore, hstep⟩ := awaits_runHalf hunderway.course hawaits
  have hpattern := (hunderway.course.fetching hbefore).2
  have hearly : k.cycle.half < 4 := by
    rcases hunderway.half_runHalf hmore with ⟨-, hnext⟩ | ⟨-, -, ⟨hthree, -⟩ | ⟨-, hport⟩⟩
    · omega
    · omega
    · rcases hpattern with hpattern | hpattern <;> rw [hpattern] at hport <;>
        rcases hport with hport | hport <;> cases hport
  rw [if_neg (Nat.ne_of_lt hearly)] at hstep
  rw [hstep, buses_runHalf.1]
  by_cases hfirst : k.cycle.half = 0
  · have haddress : k.cycleAddress = some k.regs.pc := by
      rw [cycleAddress]
      rcases hpattern with hpattern | hpattern <;> rw [hpattern]
    rw [hfirst, addressAfter_zero haddress]
    rfl
  · rw [addressAfter_later hfirst (Or.inl (Nat.ne_of_lt hearly))]
    exact h.located hbefore hfirst (Nat.le_of_lt hearly)

/-- The end of a cycle neither brings an index prefix back nor moves PC as long as one counts. -/
theorem awaits_next (hawaits : c.latchResult.nextCycle.1.awaits = true) :
    c.awaits = true ∧ c.latchResult.nextCycle.1.regs = c.regs := by
  cases hcode : c.instruction with
  | none =>
    have hlatched : c.latchResult.instruction = none ∧ c.latchResult.regs = c.regs
        ∧ c.latchResult.page = c.page := by
      rw [latchResult_of_none hcode]
      split <;> exact ⟨hcode, rfl, rfl⟩
    have hnext : c.latchResult.nextCycle.1.instruction = none
        ∧ c.latchResult.nextCycle.1.regs = c.latchResult.regs
        ∧ c.latchResult.nextCycle.1.page = c.latchResult.page := by
      rw [nextCycle_of_none hlatched.1]
      cases c.latchResult.chain <;> exact ⟨hlatched.1, rfl, rfl⟩
    refine ⟨?_, hnext.2.1.trans hlatched.2.1⟩
    rw [awaits, hnext.1, hnext.2.2, hlatched.2.2] at hawaits
    rw [awaits, hcode]
    exact hawaits
  | some code =>
    have hlatched : c.latchResult.instruction = some code := by
      rw [latchResult_of_some hcode]
      split
      · exact hcode
      split
      · exact hcode
      · rw [instruction_execute, stow_eq]
        exact hcode
    cases (awaits_of_known (nextCycle_kept hlatched).1).symm.trans hawaits

/-- An edge that runs a half-period and does not complete the instruction keeps PC behind the prefixes,
    and brings none of them back. -/
theorem Nears.runEdge (h : k.Nears byteAt start) (hunderway : k.Underway)
    (hmemory : k.fromMemory = true)
    (hbyte : k.awaits = true → k.cycle.half = 4 → k.data.value = byteAt k.regs.pc)
    {emitted : List Emission} (hgoes : (k.runEdge emitted).ended = false) :
    (k.runEdge emitted).core.Nears byteAt start
      ∧ ((k.runEdge emitted).core.awaits = true → k.awaits = true) := by
  rw [runEdge_eq] at hgoes ⊢
  cases hlast : k.runHalf.2 with
  | false =>
    exact ⟨h.runHalf hunderway hmemory hbyte hlast,
      fun hawaits => (awaits_runHalf hunderway.course hawaits).1⟩
  | true =>
    rw [hlast, if_pos rfl, endCycle_eq] at hgoes
    rw [if_pos rfl, endCycle_eq]
    have hmore : k.runHalf.1.latchResult.nextCycle.2 = false := by
      refine Bool.eq_false_iff.mpr fun hend => ?_
      rw [hend, if_pos rfl] at hgoes
      cases hgoes
    rw [hmore, if_neg Bool.false_ne_true]
    have hback (hawaits : k.runHalf.1.latchResult.nextCycle.1.awaits = true) :=
      awaits_next hawaits
    refine ⟨⟨fun hawaits => ?_, fun _ hlater => ?_⟩,
      fun hawaits => (awaits_runHalf hunderway.course (hback hawaits).1).1⟩
    · show ∃ count : Nat, k.runHalf.1.latchResult.nextCycle.1.regs.pc = _ ∧ _
      rw [(hback hawaits).2]
      exact h.reached_runHalf hunderway.course hmemory hbyte (hback hawaits).1
    · rcases (hunderway.last hlast).2.1.next with hcontinues | ⟨hend, -⟩
      · exact absurd hcontinues.first hlater
      · cases hmore.symm.trans hend

/-- The bytes of an instruction come from where they came from. -/
theorem fromMemory_runEdge {emitted : List Emission} :
    (k.runEdge emitted).core.fromMemory = k.fromMemory := by
  have hrun := steady_runHalf (c := k)
  have hsame (d : Core) (horigin : d.origin = k.origin) : d.fromMemory = k.fromMemory := by
    rw [fromMemory, horigin, ← fromMemory]
  rw [runEdge_eq]
  split
  · have hnext := hrun.trans (steady_latchResult.trans (steady_nextCycle _))
    rw [endCycle_eq]
    split <;> exact hsame _ hnext.origin
  · exact hsame _ hrun.origin

/-- Amid an instruction only a chip between two cycles has to wait for its buses. -/
theorem Amid.first_of_stalls (h : c.Amid) (hsound : c.Sound) {level : Level} {inputs : InputLevels}
    (hreset : inputs.reset.isAsserted = false) (hnone : c.engaged level inputs = none) :
    c.cycle.half = 0 := by
  rcases h.phase with hphase | hphase
  · refine Decidable.not_not.mp fun hlater => ?_
    have hkept : (c.sampleInputs inputs).leaveReset = c.sampleInputs inputs := by
      refine if_neg fun hreset => ?_
      cases hphase.symm.trans hreset
    have hready : (c.sampleInputs inputs).readied level = some (c.sampleInputs inputs, []) := by
      rw [readied, show (c.sampleInputs inputs).phase = .running from hphase]
      dsimp only
      rw [Core.chosen, show (c.sampleInputs inputs).boundaryPending = false from h.chosen]
      rfl
    unfold engaged at hnone
    dsimp only at hnone
    rw [show (c.sampleInputs inputs).pins.reset = inputs.reset from rfl, hreset, hkept, hready,
      if_neg Bool.false_ne_true] at hnone
    dsimp only at hnone
    rw [if_neg fun hboth => hlater hboth.1] at hnone
    cases hnone
  · exact (hsound.released hphase).2

end Core

end Z80Board
