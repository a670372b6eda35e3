import Z80Board.Proofs.Chip.Prefixes
import Z80Board.Proofs.Chip.Protocol
import Z80Board.Proofs.Rig.Drivers

/-! # What a board executes

    An instruction from memory begins wherever PC stands, over any bytes.  As long as RESET stays
    released, the instruction that the chip executes is the one that the prefix grammar finds there,
    whatever waits, grants and interrupts come in between; and when it is complete, PC and R have
    moved over its bytes, unless it has gone elsewhere or loaded R. -/

namespace Z80Board

/-! ## The bytes that a chip reads -/

/-- Before its byte is sampled a cycle leaves PC alone. -/
theorem Core.pc_effect {c : Core} {half : Nat} (h : half ≠ c.cycle.pattern.sampleHalf)
    (byte : Byte) : (c.effect half byte).regs.pc = c.regs.pc := by
  rw [effect]
  split
  · rw [pushPointer]
    split <;> rfl
  · rfl

/-- A cycle that reads a byte of the instruction addresses it by PC. -/
theorem Core.cycleAddress_of_readsCode {c : Core} (huses : c.cycle.kind.Uses c.cycle.pattern)
    (h : c.cycle.kind.readsCode = true) : c.cycleAddress = some c.regs.pc := by
  have hpattern : c.cycle.pattern ∈ [.fetch, .acknowledge, .opcodeRead, .read] := by
    refine Decidable.not_not.mp fun hother => ?_
    exact nomatch h.symm.trans (huses.readsCode_eq_false hother)
  have haddress : c.readAddress = c.regs.pc := by
    rw [readAddress]
    revert h
    cases c.cycle.kind <;> first | exact fun _ => rfl | exact fun h => nomatch h
  simp only [List.mem_cons, List.not_mem_nil, or_false] at hpattern
  rw [cycleAddress]
  rcases hpattern with hpattern | hpattern | hpattern | hpattern <;> rw [hpattern]
  · exact congrArg some haddress
  · exact congrArg some haddress

/-- A chip from memory reads the instruction that is sought, and the traffic shows where.  Nothing is
    stored before the instruction is known. -/
structure Core.Pursues (byteAt : Word → Byte) (q : Sought) (c : Core) (dropped : Nat) (t : Traffic) :
    Prop where
  memory : c.fromMemory = true
  sourced : c.Sourced
  reads : c.Reads byteAt q c.cycle.half dropped
  located : c.cycle.kind.readsCode = true → c.cycle.half ≠ 0 →
    c.cycle.half ≤ c.cycle.pattern.sampleHalf → t.address = c.regs.pc
  untouched : c.instruction = none → t.stores = []

namespace Core

variable {byteAt : Word → Byte} {q : Sought} {c d k : Core} {dropped : Nat} {t : Traffic}

theorem Pursues.of_logic (h : c.Pursues byteAt q dropped t) (hlogic : d.logic = c.logic)
    (hhalf : d.cycle.half = c.cycle.half) : d.Pursues byteAt q dropped t := by
  obtain ⟨hmemory, hsourced, hreads, hlocated, huntouched⟩ := h
  have hback : d.logic.fromMemory = true ∧ d.logic.Sourced
      ∧ (d.logic.cycle.kind.readsCode = true → c.cycle.half ≠ 0 →
        c.cycle.half ≤ d.logic.cycle.pattern.sampleHalf → t.address = d.logic.regs.pc)
      ∧ (d.logic.instruction = none → t.stores = []) := by
    rw [hlogic]
    exact ⟨hmemory, hsourced, hlocated, huntouched⟩
  obtain ⟨hmemory', hsourced', hlocated', huntouched'⟩ := hback
  refine ⟨hmemory', hsourced', ?_, ?_, huntouched'⟩
  · rw [hhalf]
    exact hreads.of_logic hlogic
  · rw [hhalf]
    exact hlocated'

/-- Nothing from memory begins with an acknowledge, or comes from a device. -/
theorem origin_of_fromMemory (h : c.fromMemory = true) :
    c.acknowledging = false ∧ c.origin ≠ .device := by
  unfold fromMemory at h
  split at h
  · next address horigin =>
    rw [acknowledging, horigin]
    exact ⟨rfl, fun hdevice => by cases hdevice⟩
  · cases h

/-- A byte of the opcode is read from memory. -/
theorem Pursues.samplesMemory (h : k.Pursues byteAt q dropped t) (hunderway : k.Underway)
    (htakes : k.TakesByte k.cycle.half) : k.samplesMemory = true := by
  obtain ⟨hnone, hother⟩ := origin_of_fromMemory h.memory
  have hack : k.cycle.pattern ≠ .acknowledge := fun hpattern =>
    nomatch (hunderway.course.acknowledges hpattern).1.symm.trans hnone
  have hown : k.cycle.fromDevice = false :=
    Bool.eq_false_iff.mpr fun hdevice => hother (h.sourced hdevice)
  rw [Core.samplesMemory, ActiveCycle.readsMemory, hown, Bool.and_eq_true, beq_iff_eq]
  rcases htakes with ⟨hpattern | hpattern, hhalf⟩ | ⟨hpattern, hhalf⟩
  · rw [hpattern]
    exact ⟨rfl, hhalf⟩
  · exact absurd hpattern hack
  · rw [hpattern]
    exact ⟨rfl, hhalf⟩

/-- As long as the opcode is not complete, no cycle writes. -/
theorem strikes_of_unknown (h : k.Underway) (hnone : k.instruction = none) : k.strikes = false := by
  have hcurrent := h.course.current
  rw [plan, hnone] at hcurrent
  have hall : ∀ cycle ∈ k.page.approach ++ [⟨.opcodeFetch, if k.page.displaced then 3 else 4⟩],
      cycle.kind.writesMemory = false := by
    cases k.page <;> decide
  rw [strikes, hall _ (List.mem_of_getElem? hcurrent)]
  rfl

/-- Amid a cycle that reads a byte of the instruction, PC is where the byte is. -/
theorem Pursues.located_note (h : k.Pursues byteAt q dropped t) (hunderway : k.Underway)
    (hreads : k.cycle.kind.readsCode = true)
    (hroom : k.cycle.half ≤ k.cycle.pattern.sampleHalf) : (t.begin k).address = k.regs.pc := by
  rw [Traffic.begin]
  by_cases hfirst : k.cycle.half = 0
  · rw [if_pos hfirst, cycleAddress_of_readsCode hunderway.course.uses hreads]
    rfl
  · rw [if_neg hfirst]
    exact h.located hreads hfirst hroom

/-- A half-period that is run keeps the chip at it. -/
theorem Pursues.runHalf (h : k.Pursues byteAt q dropped t) (hunderway : k.Underway)
    (hbyte : k.instruction = none → k.samplesMemory = true →
      k.data.value = byteAt (t.begin k).address) :
    k.runHalf.1.Reads byteAt q k.after (dropped + k.dropsPrefix.toNat)
      ∧ (k.runHalf.1.instruction = none → (t.note k).stores = []) := by
  cases h.reads with
  | seeks sought =>
    refine ⟨sought.runHalf hunderway h.memory fun htakes => ?_, fun _ => ?_⟩
    · have hsamples := h.samplesMemory hunderway htakes
      have hlooks := hunderway.course.looks sought.unknown htakes
      have hhere : k.cycle.half = k.cycle.pattern.sampleHalf := by
        rw [Core.samplesMemory, Bool.and_eq_true, beq_iff_eq] at hsamples
        exact hsamples.2
      rw [hbyte sought.unknown hsamples, h.located_note hunderway (by rw [hlooks.kind]; rfl)
        (Nat.le_of_eq hhere)]
    · show (if k.strikes then _ else t.stores) = []
      rw [strikes_of_unknown hunderway sought.unknown]
      exact h.untouched sought.unknown
  | finds found =>
    have hnext := found.runHalf hunderway h.memory
    have hkept : k.dropsPrefix = false := by
      rw [dropsPrefix, found.known, Option.isNone_some, Bool.and_false]
      rfl
    rw [hkept]
    exact ⟨.finds hnext, fun hnone => by cases hnone.symm.trans hnext.known⟩

/-- Amid a cycle it goes on. -/
theorem Pursues.amid (h : k.Pursues byteAt q dropped t) (hunderway : k.Underway)
    (hbyte : k.instruction = none → k.samplesMemory = true →
      k.data.value = byteAt (t.begin k).address)
    (hmore : k.runHalf.2 = false) :
    k.runHalf.1.Pursues byteAt q (dropped + k.dropsPrefix.toNat) (t.note k) := by
  obtain ⟨hreads, huntouched⟩ := h.runHalf hunderway hbyte
  have hsteady := steady_runHalf (c := k)
  have hkind := kind_of_use (use_runHalf (c := k))
  have hpattern := pattern_runHalf (c := k)
  rw [after, hmore] at hreads
  refine ⟨?_, h.sourced.runHalf, hreads, fun hcode hlater hroom => ?_, huntouched⟩
  · rw [fromMemory, hsteady.origin]
    exact h.memory
  · rw [hkind] at hcode
    rw [hpattern] at hroom
    have hearly : k.cycle.half < k.cycle.pattern.sampleHalf := by
      rcases hunderway.half_runHalf hmore with
        ⟨-, hnext⟩ | ⟨-, hback, ⟨hthree, -⟩ | ⟨-, hport⟩⟩
      · omega
      · rw [hthree]
        exact k.cycle.pattern.four_le_sampleHalf
      · have hother := hunderway.course.uses.readsCode_eq_false (by
          rcases hport with hport | hport <;> rw [hport] <;> decide)
        cases hcode.symm.trans hother
    have hpc : k.runHalf.1.regs.pc = k.regs.pc := by
      have hlogic := congrArg (fun d : Core => d.regs.pc) (logic_runHalf (k := k))
      exact hlogic.trans (pc_effect (Nat.ne_of_lt hearly) _)
    rw [hpc]
    exact h.located_note hunderway hcode (Nat.le_of_lt hearly)

/-- At the end of a cycle it goes on to the next one, or the instruction is complete. -/
theorem Pursues.next (h : k.Pursues byteAt q dropped t) (hunderway : k.Underway)
    (hbyte : k.instruction = none → k.samplesMemory = true →
      k.data.value = byteAt (t.begin k).address)
    (hlast : k.runHalf.2 = true) :
    (k.runHalf.1.latchResult.nextCycle.2 = false →
        k.runHalf.1.latchResult.nextCycle.1.Pursues byteAt q (dropped + k.dropsPrefix.toNat)
          (t.note k))
      ∧ (k.runHalf.1.latchResult.nextCycle.2 = true →
        Completes q k.runHalf.1.latchResult.nextCycle.1) := by
  obtain ⟨hreads, huntouched⟩ := h.runHalf hunderway hbyte
  obtain ⟨-, hcloses, -⟩ := hunderway.last hlast
  have hsteady := (steady_runHalf (c := k)).trans
    (steady_latchResult.trans (steady_nextCycle _))
  rw [after, hlast] at hreads
  generalize dropped + k.dropsPrefix.toNat = dropped' at hreads ⊢
  have hmemory : k.runHalf.1.latchResult.nextCycle.1.fromMemory = true := by
    rw [fromMemory, hsteady.origin]
    exact h.memory
  have hfirst (hmore : k.runHalf.1.latchResult.nextCycle.2 = false) :
      k.runHalf.1.latchResult.nextCycle.1.cycle.half = 0 := by
    rcases hcloses.next with hgoes | ⟨hend, -⟩
    · exact hgoes.first
    · cases hmore.symm.trans hend
  cases hreads with
  | seeks sought =>
    obtain ⟨hmore, hnext⟩ := sought.next hcloses
    refine ⟨fun _ => ⟨hmemory, h.sourced.runHalf.nextCycle, ?_,
      fun _ hlater => absurd (hfirst hmore) hlater, fun _ => huntouched sought.unknown⟩,
      fun hend => by cases hmore.symm.trans hend⟩
    rw [hfirst hmore]
    exact .seeks hnext
  | finds found =>
    obtain ⟨hgoes, hends⟩ := found.next hcloses
    refine ⟨fun hmore => ⟨hmemory, h.sourced.runHalf.nextCycle, ?_,
      fun _ hlater => absurd (hfirst hmore) hlater,
      fun hnone => by cases hnone.symm.trans (hgoes hmore).known⟩, hends⟩
    rw [hfirst hmore]
    exact .finds (hgoes hmore)

end Core

/-! ## Boards -/

variable {config : BoardConfig} {bytes : Array Byte} {b b₀ : Board} {t : Traffic} {q : Sought}
  {k : Core} {level level₀ : Level}

/-- A board that is built from a configuration, with any device on it.  At every edge the level may
    be any, and between edges the host may drive the input pins, follow the chip, and change its
    registers and memory. -/
inductive Attended (config : BoardConfig) : Board → Prop where
  | start {device : Device} {m : Machine} {bytes : Array Byte}
    (built : Machine.build config device = .ok m) (size : bytes.size = config.memorySize) :
    Attended config { m.board with memory.bytes := bytes }
  | edge {b : Board} (h : Attended config b) (level : Level) : Attended config (b.edge level).1
  | set {b : Board} (h : Attended config b) (host : InputLevels) (hooks : Hooks)
    (f : Registers → Registers) (bytes : Array Byte) (size : bytes.size = config.memorySize) :
    Attended config (b.set host hooks f bytes)

namespace Board

/-- What holds of the board whatever the host does. -/
structure Orderly (config : BoardConfig) (b : Board) : Prop where
  sound : b.core.Sound
  phased : b.core.Phased
  driving : b.memory.driving = b.core.pins.asksMemory
  turned : b.core.phase ≠ .powerOn → b.device.driving = true → b.core.pins.turnToDevice = true
  fits : b.memory.Fits config

theorem Orderly.edge (h : b.Orderly config) (level : Level) : (b.edge level).1.Orderly config := by
  obtain ⟨stopping, hstep⟩ := b.moved_eq level
  obtain ⟨hmemory, hdevice, hcore⟩ := b.edge_parts level
  obtain ⟨hconnector, hrom, hsize⟩ := b.memory.edge_fixed level (b.moved level).pins
    (b.moved level).address (b.moved level).data
  rw [← hmemory] at hconnector hrom hsize
  have hphased := h.phased.edge level b.inputs stopping
  rw [← hstep] at hphased
  refine ⟨?_, ?_, ?_, fun _ hdrives => ?_,
    h.fits.valid, hconnector.trans h.fits.address, hrom.trans h.fits.rom, hsize.trans h.fits.size⟩
  · rw [hcore, hstep]
    exact ((h.sound.edge level b.inputs).finish stopping).withData _
  · rw [hcore]
    exact ⟨hphased.granted, hphased.refresh, hphased.sourced⟩
  · rw [hmemory, hcore, Memory.edge_eq]
  · rw [hcore]
    refine Bool.of_not_eq_false fun hunasked => ?_
    rw [hdevice, (b.device.edge_unasked hunasked).1] at hdrives
    exact nomatch hdrives

theorem Orderly.changed (h : b.Orderly config) (host : InputLevels) (hooks : Hooks)
    (f : Registers → Registers) {bytes : Array Byte} (size : bytes.size = config.memorySize) :
    (b.set host hooks f bytes).Orderly config :=
  ⟨h.sound.modifyRegs f, ⟨h.phased.granted, h.phased.refresh, h.phased.sourced⟩, h.driving, h.turned,
    h.fits.valid, h.fits.address, h.fits.rom, size⟩

end Board

theorem Attended.orderly (h : Attended config b) : b.Orderly config := by
  induction h with
  | start built size =>
    have hcarries := Board.carries_start built size
    have hsettled := hcarries.settled
    refine ⟨hsettled.sound, ?_, hsettled.driving, hsettled.turned, hcarries.fits⟩
    unfold Machine.build at built
    split at built
    · exact nomatch built
    · obtain rfl := Except.ok.inj built
      refine ⟨rfl, ?_, ?_⟩ <;> rintro (hother | hother) <;> exact nomatch hother
  | edge _ level ih => exact ih.edge level
  | set _ host hooks f bytes size ih => exact ih.changed host hooks f size

namespace Board

/-- The edge runs the first half-period of an instruction from memory. -/
structure Opens (b : Board) (level : Level) (k : Core) : Prop where
  engaged : b.engaged level = some k
  unknown : k.instruction = none
  position : k.position = 0
  half : k.cycle.half = 0
  memory : k.fromMemory = true

/-- With no strobe up, and before any cycle, the board carries nothing. -/
theorem Orderly.carries_atRest (h : b.Orderly config) (hrest : b.core.pins.AtRest)
    (hzero : b.core.phase = .running → b.core.boundaryPending = false → b.core.cycle.half = 0) :
    b.Carries config b.memory.bytes {} := by
  obtain ⟨hasks, hgives, -⟩ := Core.nobody_asked hrest
  refine ⟨⟨h.sound, fun hphase hchosen byte hstaged => ?_, h.driving,
    fun hasks' => (by cases hasks.symm.trans hasks'),
    fun hgives' => (by cases hgives.symm.trans hgives'), h.turned⟩, h.fits, rfl,
    fun hphase hchosen hlater => absurd (hzero hphase hchosen) hlater,
    fun hphase hchosen _ hlater => ?_⟩
  · rw [hzero hphase hchosen, Core.staged_zero] at hstaged
    cases hstaged
  · rw [hzero hphase hchosen] at hlater
    exact absurd hlater (Nat.not_lt_zero _)

/-- Before an instruction the board carries nothing. -/
theorem Orderly.carries (h : b.Orderly config) (hk : b.core.Engages k b.inputs)
    (hfirst : k.cycle.half = 0) : b.Carries config b.memory.bytes {} := by
  refine h.carries_atRest ?_ fun hphase hchosen => ?_
  · rw [Pins.AtRest, ← hk.strobes]
    exact hk.underway.atRest hfirst
  · rw [hk.kept hphase hchosen] at hfirst
    exact hfirst

/-- The instruction that the grammar finds at PC. -/
def sought (k : Core) (count : Nat) (page : Page) (opcode : Byte) : Sought :=
  { pc := k.regs.pc, r := k.regs.r, ignored := count, page, opcode }

/-- Its first byte is looked up on the main page. -/
theorem Opens.page_eq (h : b.Opens level k) (hk : b.core.Engages k b.inputs) : k.page = .main := by
  have hcourse := hk.underway.course
  rw [h.half] at hcourse
  have hempty (happroach : k.page.approach.length = 0) : k.page = .main := by
    revert happroach
    cases k.page <;> decide
  cases hcourse.seeking h.unknown with
  | fetching _ here => exact hempty (by rw [← here, h.position])
  | reading _ here => cases h.position.symm.trans here
  | leading short started _ late =>
    -- behind a byte that leads on there is a cycle already
    have hcurrent := hcourse.current
    rw [Core.plan, h.unknown, h.position] at hcurrent
    rw [h.position] at short
    dsimp only at hcurrent
    rw [List.getElem?_append_left short] at hcurrent
    have hkind : k.cycle.kind = .opcodeFetch := by
      revert hcurrent
      generalize k.cycle.kind = kind
      generalize k.cycle.length = length
      cases k.page <;> intro hcurrent <;> cases hcurrent <;> rfl
    exact absurd (late hkind) (Nat.not_lt_zero _)

/-- A chip that is about to run the first half-period pursues it. -/
theorem Opens.pursues (h : b.Opens level k) (hk : b.core.Engages k b.inputs) (hsourced : k.Sourced)
    {byteAt : Word → Byte} {count : Nat} {page : Page} {opcode : Byte}
    (hscans : Scans byteAt k.regs.pc count page opcode) :
    k.Pursues byteAt (sought k count page opcode) 0 {} := by
  have hmain := h.page_eq hk
  have hnone : k.behind k.cycle.half = [] := by
    rw [h.half, Core.behind_zero, Core.ran, h.position]
    rfl
  refine ⟨h.memory, hsourced, .seeks ⟨h.unknown, ?_, ?_, fun _ => ?_, fun hdisplaced => ?_⟩,
    fun _ hlater => absurd h.half hlater, fun _ => rfl⟩
  · rw [hnone]
    exact (UInt16.add_zero _).symm
  · rw [hnone, hmain]
    exact .refl _
  · rw [hmain]
    exact ⟨count, Nat.zero_add _, .main hscans⟩
  · rw [hmain] at hdisplaced
    cases hdisplaced

/-- The board on the way through an instruction. -/
structure Follows (config : BoardConfig) (bytes : Array Byte) (q : Sought) (b : Board)
    (t : Traffic) : Prop where
  carries : b.Carries config bytes t
  amid : b.core.Amid
  pursues : ∃ dropped, b.core.Pursues (config.byteAt bytes) q dropped t

/-- What comes in from memory, as long as nothing has been stored. -/
theorem Carries.byte (h : b.Carries config bytes t) (hk : b.core.Engages k b.inputs)
    {dropped : Nat} (hpursues : k.Pursues (config.byteAt bytes) q dropped t) (hnone : k.instruction = none)
    (hsamples : k.samplesMemory = true) :
    k.data.value = config.byteAt bytes (t.begin k).address := by
  rw [h.samples hk hsamples, h.stores, hpursues.untouched hnone]
  rfl

/-- The board after an edge that does not complete an instruction. -/
theorem core_edge_of_goes (hgoes : (b.core.edge level b.inputs).ended = false) :
    (b.edge level).1.core.logic = (b.core.edge level b.inputs).core.logic
      ∧ (b.edge level).1.core.cycle.half = (b.core.edge level b.inputs).core.cycle.half
      ∧ (b.edge level).1.core.phase = (b.core.edge level b.inputs).core.phase
      ∧ (b.edge level).1.core.boundaryPending
        = (b.core.edge level b.inputs).core.boundaryPending := by
  obtain ⟨stopping, hstep⟩ := b.moved_eq level
  obtain ⟨-, -, hcore⟩ := b.edge_parts level
  rw [Edge.finish, hgoes, if_neg Bool.false_ne_true] at hstep
  rw [hcore, hstep]
  exact ⟨rfl, rfl, rfl, rfl⟩

/-- An edge that runs a half-period of the instruction keeps it going, or completes it. -/
theorem Carries.follows (h : b.Carries config bytes t) (hk : b.core.Engages k b.inputs)
    (hengaged : b.core.engaged level b.inputs = some k)
    {dropped : Nat} (hpursues : k.Pursues (config.byteAt bytes) q dropped t) {c : Core}
    (hpass : c.Pass (b.core.edge level b.inputs) (some k)) :
    ((b.core.edge level b.inputs).ended = false →
        (b.edge level).1.Follows config bytes q (t.edge b level))
      ∧ ((b.core.edge level b.inputs).ended = true →
        Core.Completes q (b.core.edge level b.inputs).core) := by
  have hbyte := h.byte hk hpursues
  have hcarries := h.edge level
  have hnote : t.edge b level = t.note k := by rw [t.edge_eq, hengaged]
  -- what the chip does, the board keeps
  have hfollows (hgoes : (b.core.edge level b.inputs).ended = false)
      (hamid : (b.core.edge level b.inputs).core.Amid)
      (hnext : ∃ dropped, (b.core.edge level b.inputs).core.Pursues (config.byteAt bytes) q dropped
        (t.note k)) :
      (b.edge level).1.Follows config bytes q (t.edge b level) := by
    obtain ⟨hlogic, hhalf, hphase, hchosen⟩ := core_edge_of_goes hgoes
    refine ⟨hcarries, ⟨?_, hchosen.trans hamid.chosen⟩, ?_⟩
    · rw [hphase]
      exact hamid.phase
    · rw [hnote]
      exact hnext.imp fun _ hpursues => hpursues.of_logic hlogic hhalf
  cases hpass with
  | runs _ _ more result amid goes =>
    refine ⟨fun _ => hfollows goes amid ?_, fun hended => nomatch goes.symm.trans hended⟩
    rw [result]
    exact ⟨_, hpursues.amid hk.underway hbyte more⟩
  | closes _ _ last ended result amid =>
    obtain ⟨hgoes, hends⟩ := hpursues.next hk.underway hbyte last
    refine ⟨fun hmore => hfollows hmore amid ?_, fun hended => ?_⟩
    · rw [result, if_neg (Bool.eq_false_iff.mp hmore)]
      exact ⟨_, hgoes (ended.symm.trans hmore)⟩
    · rw [result, if_pos hended]
      have hcomplete := hends (ended.symm.trans hended)
      exact ⟨hcomplete.code, hcomplete.pc, hcomplete.r⟩

/-- Every edge keeps the instruction going, or completes it. -/
theorem Follows.edge (h : b.Follows config bytes q t) (hreset : b.host.reset.isAsserted = false)
    (level : Level) :
    ((b.core.edge level b.inputs).ended = false →
        (b.edge level).1.Follows config bytes q (t.edge b level))
      ∧ ((b.core.edge level b.inputs).ended = true →
        Core.Completes q (b.core.edge level b.inputs).core) := by
  have hpass : b.core.Pass (b.core.edge level b.inputs) (b.core.engaged level b.inputs) :=
    h.amid.pass hreset
  cases hengaged : b.core.engaged level b.inputs with
  | none =>
    rw [hengaged] at hpass
    cases hpass with
    | stalls logic half amid goes =>
      refine ⟨fun _ => ?_, fun hended => nomatch goes.symm.trans hended⟩
      obtain ⟨hlogic, hhalf, hphase, hchosen⟩ := core_edge_of_goes goes
      refine ⟨h.carries.edge level, ⟨?_, hchosen.trans amid.chosen⟩, ?_⟩
      · rw [hphase]
        exact amid.phase
      · rw [t.edge_eq, hengaged]
        exact h.pursues.imp fun _ hpursues =>
          hpursues.of_logic (hlogic.trans logic) (hhalf.trans half)
  | some k =>
    rw [hengaged] at hpass
    have hk := h.carries.settled.sound.engages hengaged
    obtain ⟨dropped, hpursues⟩ : ∃ dropped, k.Pursues (config.byteAt bytes) q dropped t := by
      cases hpass with
      | runs logic half => exact h.pursues.imp fun _ hpursues => hpursues.of_logic logic half
      | closes logic half => exact h.pursues.imp fun _ hpursues => hpursues.of_logic logic half
    exact h.carries.follows hk hengaged hpursues hpass

/-- The first edge of an instruction sets it going. -/
theorem Opens.follows (h : b.Opens level k) (hb : b.Orderly config) {count : Nat} {page : Page}
    {opcode : Byte} (hscans : Scans (config.byteAt b.memory.bytes) k.regs.pc count page opcode) :
    (b.edge level).1.Follows config b.memory.bytes (sought k count page opcode)
      (Traffic.edge {} b level) := by
  have hk := hb.sound.engages h.engaged
  obtain ⟨emitted, hready⟩ := Core.readied_engaged h.engaged
  have hpursues := h.pursues hk (hready.seated (hb.phased.sampled b.inputs)).sourced hscans
  have hpass : k.Pass (b.core.edge level b.inputs) (some k) :=
    Core.pass_engaged h.engaged ⟨Or.inl hk.phase, hk.chosen⟩
  have hfollows := (hb.carries hk h.half).follows hk h.engaged hpursues hpass
  cases hpass with
  | runs _ _ _ _ _ goes => exact hfollows.1 goes
  | closes _ _ last =>
    cases (hk.underway.more_of_early (by rw [h.half]; decide)).symm.trans last

end Board

/-! ## Runs -/

/-- The board is on its way through the instruction that the first edge has begun.  RESET stays
    released; the host may drive the other pins and follow the chip. -/
inductive Executing (b₀ : Board) (level₀ : Level) : Board → Prop where
  | first : Executing b₀ level₀ (b₀.edge level₀).1
  | edge {b : Board} (h : Executing b₀ level₀ b) (level : Level)
    (reset : b.host.reset.isAsserted = false)
    (goes : (b.core.edge level b.inputs).ended = false) : Executing b₀ level₀ (b.edge level).1
  | host {b : Board} (h : Executing b₀ level₀ b) (host : InputLevels) :
    Executing b₀ level₀ { b with host }
  | hooks {b : Board} (h : Executing b₀ level₀ b) (hooks : Hooks) :
    Executing b₀ level₀ { b with processor.hooks := hooks }

theorem Board.Follows.set (h : b.Follows config bytes q t) (host : InputLevels) (hooks : Hooks) :
    ({ b with host, processor.hooks := hooks } : Board).Follows config bytes q t := by
  obtain ⟨⟨hsettled, hfits, hstores, haddress, htaken⟩, hamid, hpursues⟩ := h
  exact ⟨⟨⟨hsettled.sound, hsettled.staged, hsettled.driving, hsettled.asked, hsettled.given,
    hsettled.turned⟩, hfits, hstores, haddress, htaken⟩, hamid, hpursues⟩

theorem Executing.follows (h : Executing b₀ level₀ b) (hb : b₀.Orderly config)
    (hopens : b₀.Opens level₀ k) {count : Nat} {page : Page} {opcode : Byte}
    (hscans : Scans (config.byteAt b₀.memory.bytes) k.regs.pc count page opcode) :
    ∃ t, b.Follows config b₀.memory.bytes (Board.sought k count page opcode) t := by
  induction h with
  | first => exact ⟨_, hopens.follows hb hscans⟩
  | edge _ level reset goes ih =>
    obtain ⟨t, hfollows⟩ := ih
    exact ⟨_, (hfollows.edge reset level).1 goes⟩
  | @host b _ host ih =>
    obtain ⟨t, hfollows⟩ := ih
    exact ⟨t, hfollows.set host b.processor.hooks⟩
  | @hooks b _ hooks ih =>
    obtain ⟨t, hfollows⟩ := ih
    exact ⟨t, hfollows.set b.host hooks⟩

/-- Wherever an instruction from memory begins, over whatever bytes, the prefix grammar finds one if
    the index prefixes there come to an end, and what it finds is the instruction that the chip
    executes.  When it is complete, PC and R have moved over its bytes. -/
theorem Attended.executes_scanned (h : Attended config b₀) (hopens : b₀.Opens level₀ k)
    {length : Nat} (hends : ∀ x : Index,
      config.byteAt b₀.memory.bytes (k.regs.pc + length.toUInt16) ≠ x.selector) :
    (∃ count page opcode, Scans (config.byteAt b₀.memory.bytes) k.regs.pc count page opcode)
      ∧ ∀ count page opcode, Scans (config.byteAt b₀.memory.bytes) k.regs.pc count page opcode →
        ∀ b, Executing b₀ level₀ b →
          (∀ code, b.core.instruction = some code → code = decode page opcode)
            ∧ ∀ level, b.host.reset.isAsserted = false →
              (b.core.edge level b.inputs).ended = true →
                Core.Completes (Board.sought k count page opcode)
                  (b.core.edge level b.inputs).core := by
  refine ⟨Scans.exists_of_ends hends, fun count page opcode hscans b hb => ?_⟩
  obtain ⟨t, hfollows⟩ := hb.follows h.orderly hopens hscans
  refine ⟨fun code hcode => ?_, fun level hreset hended => (hfollows.edge hreset level).2 hended⟩
  obtain ⟨dropped, hpursues⟩ := hfollows.pursues
  cases hpursues.reads with
  | seeks sought => exact nomatch sought.unknown.symm.trans hcode
  | finds found => exact Option.some.inj (hcode.symm.trans found.known)

/-- The board after some edges, as long as RESET is released and no instruction ends. -/
def Board.within (b : Board) : List Level → Option Board
  | [] => some b
  | level :: rest =>
    if b.host.reset.isAsserted || (b.core.edge level b.inputs).ended then none
    else (b.edge level).1.within rest

theorem Executing.within (h : Executing b₀ level₀ b) {levels : List Level} {b' : Board}
    (hwithin : b.within levels = some b') : Executing b₀ level₀ b' := by
  induction levels generalizing b with
  | nil =>
    obtain rfl := Option.some.inj hwithin
    exact h
  | cons level rest ih =>
    rw [Board.within] at hwithin
    split at hwithin
    · exact nomatch hwithin
    · next hgoes =>
      rw [Bool.or_eq_true, not_or, Bool.not_eq_true, Bool.not_eq_true] at hgoes
      exact ih (h.edge level hgoes.1 hgoes.2) hwithin

/-- A board whose first instruction is DD FD 23, with zeros behind it. -/
def prefixedBoard : Board :=
  { smallMachine.board with
    memory.bytes := (([0xDD, 0xFD, 0x23] : List Byte) ++ List.replicate 0x3FD 0).toArray }

/-- The chip that runs its first half-period. -/
def prefixedChip : Core :=
  { prefixedBoard.core.sampleInputs prefixedBoard.inputs with phase := .running }.resolveNext

/-- The levels of the edges between its first half-period and its last one. -/
def prefixedLevels : List Level :=
  (List.range 26).map fun edge => Level.ofBool (edge % 2 == 0)

/-- The first prefix has no effect, and the rest increments IY. -/
theorem increment_behind_ignored : ∃ b, prefixedBoard.Opens .high prefixedChip
    ∧ Executing prefixedBoard .high b ∧ (b.core.edge .low b.inputs).ended = true
    ∧ Core.Completes (Board.sought prefixedChip 1 .fd 0x23) (b.core.edge .low b.inputs).core := by
  have hattended : Attended smallConfig prefixedBoard :=
    .start (show Machine.build smallConfig .unattached = .ok smallMachine from rfl)
      (by decide +kernel)
  have hopens : prefixedBoard.Opens .high prefixedChip := by
    refine ⟨rfl, ?_, ?_, ?_, ?_⟩ <;> decide +kernel
  have hopcode : smallConfig.byteAt prefixedBoard.memory.bytes (prefixedChip.regs.pc + 1 + 1)
      = 0x23 := by decide +kernel
  have hends : ∀ x : Index, smallConfig.byteAt prefixedBoard.memory.bytes
      (prefixedChip.regs.pc + (2 : Nat).toUInt16) ≠ x.selector := by
    rintro (_ | _) <;> decide +kernel
  have hrest : Scans (smallConfig.byteAt prefixedBoard.memory.bytes) (prefixedChip.regs.pc + 1) 0
      Index.iy.page
      (smallConfig.byteAt prefixedBoard.memory.bytes (prefixedChip.regs.pc + 1 + 1)) :=
    .own (by decide +kernel) (by decide +kernel) (by decide +kernel)
  rw [hopcode] at hrest
  have hscans : Scans (smallConfig.byteAt prefixedBoard.memory.bytes) prefixedChip.regs.pc 1 .fd
      0x23 :=
    .ignored (x := .ix) (by decide +kernel) (by decide +kernel) (by decide +kernel) hrest
  have hlast : (((prefixedBoard.edge .high).1.within prefixedLevels).any fun b =>
      (b.core.edge .low b.inputs).ended && !b.host.reset.isAsserted) = true := by
    decide +kernel
  generalize hb : (prefixedBoard.edge .high).1.within prefixedLevels = last at hlast
  cases last with
  | none => exact nomatch hlast
  | some b =>
    have hexecuting : Executing prefixedBoard .high b := Executing.within .first hb
    have hboth : (b.core.edge .low b.inputs).ended = true ∧ b.host.reset.isAsserted = false := by
      rw [Option.any_some, Bool.and_eq_true, Bool.not_eq_true'] at hlast
      exact hlast
    exact ⟨b, hopens, hexecuting, hboth.1,
      ((Attended.executes_scanned hattended hopens hends).2 1 .fd 0x23 hscans b hexecuting).2 .low
        hboth.2 hboth.1⟩

end Z80Board
