import Z80Board.Proofs.Rig.Leftovers
import Z80Board.Proofs.Rig.Pauses
import Z80Board.Proofs.Rig.Returns

/-! # An interrupted program resumes

    An interrupt is accepted between two instructions, and its handler returns at once.  Whatever waits
    and bus grants come in between, and whatever INT does, the program goes on as if nothing had
    happened: PC and SP are what they were, the registers but R and WZ too, and of memory only the two
    bytes below the stack have changed. -/

namespace Z80Board

namespace Visit

variable {v : Visit} {c d p : Core} {now left : Array Byte}

/-- Accepting it masks interrupts. -/
theorem masks_eq (hop : v.op ≠ .haltNop) :
    (Origin.internal v.op).masks v.regs
      = v.masked ((Origin.internal v.op).masks v.regs).r (v.pushed 0).length := by
  have hsp : v.regs.sp - Nat.toUInt16 0 = v.regs.sp := UInt16.sub_zero _
  have hnone : v.masked v.regs.r (v.pushed 0).length
      = { v.regs with iff1 := false, iff2 := v.kept } := by
    show ({ v.regs with sp := v.regs.sp - Nat.toUInt16 0, iff1 := false, iff2 := v.kept }
      : Registers) = _
    rw [hsp]
  cases hv : v.op with
  | haltNop => exact absurd hv hop
  | nmi | intMode1 | intMode2 =>
    refine Eq.trans ?_ hnone.symm
    rw [kept, hv]
    rfl

/-- A chip that has accepted the interrupt is about to enter it. -/
theorem enters_resolveNext (horigin : p.resolveNext.origin = .internal v.op)
    (hop : v.op ≠ .haltNop) (hregs : v.regs = p.regs) :
    v.Enters 0 p.resolveNext v.bytes := by
  have hinterrupts : p.resolveNext.origin.interrupts = true := by
    rw [horigin]
    revert hop
    cases v.op <;> intro hop
    all_goals first | rfl | exact absurd rfl hop
  obtain ⟨-, hawake⟩ := Core.resolveNext_interrupted hinterrupts
  obtain ⟨hmasks, hown⟩ := Core.resolveNext_masks p
  have hstand := Core.stand_resolveNext p
  rw [horigin] at hmasks hown hstand
  simp only [Core.stand, Prod.mk.injEq] at hstand
  obtain ⟨-, hcycles, -, hchain, -, hplace, -⟩ := hstand
  obtain ⟨-, -, -, -, htiming⟩ := internal_enters hop
  obtain ⟨d, length, hbegins, -⟩ := p.resolveNext_begins
  have hcycle : p.resolveNext.cycle.kind = .opcodeFetch
      ∧ p.resolveNext.cycle.pattern = p.resolveNext.busPattern .opcodeFetch
      ∧ p.resolveNext.cycle.fromDevice = (decide (p.resolveNext.origin = .device) && true) := by
    rw [hbegins]
    exact ⟨rfl, rfl, rfl⟩
  obtain ⟨hkind, hpattern, hdevice⟩ := hcycle
  refine ⟨hown, hcycles.trans htiming, hplace, horigin, hchain, ?_, ?_, ?_, hawake, ?_,
    fun hlater => absurd hlater (Nat.lt_irrefl 0), fun hlater => (by cases hlater), rfl⟩
  · rw [hkind]
    rfl
  · rw [hkind]
    exact hpattern
  · rw [hdevice, horigin]
    rfl
  · rw [hmasks, ← hregs]
    exact masks_eq hop

/-- At the handler the chip has left a HALT, and has masked interrupts. -/
theorem Entered.of_logic (h : v.Entered c now) (hlogic : d.logic = c.logic) : v.Entered d now := by
  obtain ⟨hawake, hregs, hbytes⟩ := h
  have hback : d.logic.halted = false ∧ ∃ r, d.logic.regs
      = { v.masked r 2 with pc := v.handler, wz := v.handler } := by
    rw [hlogic]
    exact ⟨hawake, hregs⟩
  exact ⟨hback.1, hback.2, hbytes⟩

/-- What comes next is the fetch at the handler. -/
theorem Entered.fetches (h : v.Entered c now) (hnmi : c.nmiPending = false) :
    v.Fetches .main 0 c.resolveNext := by
  obtain ⟨hawake, ⟨r, hregs⟩, -⟩ := h
  have hmasked : c.heeds = false := by
    rw [Core.heeds, hregs]
    rfl
  have hnext : c.resolveNext = c.cleared.startFetch (.memory c.regs.pc) := by
    rw [Core.resolveNext_masked hnmi hmasked, Core.carryOn, hawake]
    rfl
  rw [hnext]
  refine ⟨⟨rfl, rfl, rfl, rfl, rfl, rfl, rfl, rfl, rfl⟩, hawake, ?_⟩
  show c.regs = v.inside c.regs.r 0 2
  rw [hregs]
  simp [inside, masked]

end Visit

/-! ## The run -/

/-- Nothing breaks in on this edge: RESET is released, no new NMI comes, and whatever is read from
    elsewhere is as supposed. -/
structure Board.Unbroken (gives : Byte → Prop) (b : Board) (level : Level) : Prop where
  reset : b.host.reset.isAsserted = false
  nmi : b.inputs.nmi.isAsserted = true → b.core.nmiSeen = true
  supplies : b.Supplies gives level

theorem Board.Unbroken.nmiPending {gives : Byte → Prop} {b : Board} {level : Level}
    (h : b.Unbroken gives level) (hnmi : b.core.nmiPending = false) :
    (b.core.sampleInputs b.inputs).nmiPending = false := by
  show (b.core.nmiPending || (b.inputs.nmi.isAsserted && !b.core.nmiSeen)) = false
  rw [hnmi, Bool.false_or]
  cases hasserted : b.inputs.nmi.isAsserted with
  | false => rfl
  | true => rw [h.nmi hasserted]; rfl

/-- The operation that the first edge has chosen is run, and what comes after it.  So many
    instructions have been completed.  The host may drive the pins, INT among them, and follow the
    chip. -/
inductive Serving (gives : Byte → Prop) (b₀ : Board) (level₀ : Level) : Nat → Board → Prop where
  | first : Serving gives b₀ level₀ 0 (b₀.edge level₀).1
  | edge {b : Board} {count : Nat} (h : Serving gives b₀ level₀ count b) (level : Level)
    (unbroken : b.Unbroken gives level) :
    Serving gives b₀ level₀ (count + (b.core.edge level b.inputs).ended.toNat) (b.edge level).1
  | host {b : Board} {count : Nat} (h : Serving gives b₀ level₀ count b) (host : InputLevels) :
    Serving gives b₀ level₀ count { b with host }
  | hooks {b : Board} {count : Nat} (h : Serving gives b₀ level₀ count b) (hooks : Hooks) :
    Serving gives b₀ level₀ count { b with processor.hooks := hooks }

namespace Visit

variable {v : Visit} {b b₀ : Board} {level level₀ : Level} {c d p : Core} {left : Array Byte}
  {count : Nat}

/-- The board on the way through the operation and the return, when so many of the two are
    complete. -/
inductive Serves (v : Visit) (b : Board) : Nat → Prop where
  | enters {k : Core} (enters : v.Enters 0 k v.bytes) (nmi : b.core.nmiPending = false)
    (performing : b.Performing v.config v.Gives v.bytes k) : Serves v b 0
  | stops {e : Core} (entered : v.Entered e b.memory.bytes) (nmi : b.core.nmiPending = false)
    (stopped : b.Stopped v.config e) : Serves v b 1
  | returns {k : Core} (fetches : v.Fetches .main 0 k) (nmi : b.core.nmiPending = false)
    (performing : b.Performing v.config v.Gives v.stacked k) : Serves v b 1

/-- The interrupted program is about to go on. -/
structure Resumed (v : Visit) (c : Core) (left : Array Byte) : Prop where
  returned : v.Returned c
  low : v.config.byteAt left (v.regs.sp - 2) = Word.low v.regs.pc
  high : v.config.byteAt left (v.regs.sp - 1) = Word.high v.regs.pc
  others : ∀ index, index ≠ v.config.index (v.regs.sp - 2) → index ≠ v.config.index (v.regs.sp - 1) →
    left[index]? = v.bytes[index]?

theorem Returned.of_logic (h : v.Returned c) (hlogic : d.logic = c.logic) : v.Returned d := by
  have hback : v.Returned d.logic := by
    rw [hlogic]
    exact ⟨h.known, h.awake, h.regs⟩
  exact ⟨hback.known, hback.awake, hback.regs⟩

/-- PC is on the stack, and nothing else has changed in memory. -/
theorem Stacks.resumed (h : v.Stacks) (hreturned : v.Returned c)
    (hvalid : v.config.validate = .ok ()) (hsize : v.bytes.size = v.config.memorySize) :
    v.Resumed c v.stacked := by
  obtain ⟨hlow, hhigh⟩ := byteAt_stacked h hvalid hsize
  refine ⟨hreturned, hlow, hhigh, fun index hother hother' => ?_⟩
  exact BoardConfig.getElem?_stores_of_ne (by simpa [pushes] using And.intro hother' hother)

theorem Serves.set (h : v.Serves b count) (host : InputLevels) (hooks : Hooks) :
    v.Serves { b with host, processor.hooks := hooks } count := by
  cases h with
  | enters enters nmi performing => exact .enters enters nmi (performing.set host hooks)
  | stops entered nmi stopped => exact .stops entered nmi (stopped.set host hooks)
  | returns fetches nmi performing => exact .returns fetches nmi (performing.set host hooks)

/-- Until the operation is complete, every edge goes on with it. -/
theorem Serves.entry (h : v.Serves b 0) (hop : v.op ≠ .haltNop) (hstacks : v.Stacks)
    (hunbroken : b.Unbroken v.Gives level) :
    v.Serves (b.edge level).1 (b.core.edge level b.inputs).ended.toNat := by
  cases h with
  | enters enters nmi performing =>
    have hsampled := hunbroken.nmiPending nmi
    have hnmi : (b.edge level).1.core.nmiPending = false := b.nmiPending_edge hsampled
    rcases performing.edge hunbroken.reset hunbroken.supplies with
      ⟨hgoes, hnext⟩ | ⟨hended, performs, hlogic, hleft⟩
    · rw [hgoes]
      exact .enters enters hnmi hnext
    · rw [hended]
      have hentered := (enters.performs hop hstacks performs).of_logic hlogic
      rw [← hleft] at hentered
      rcases performing.orderly.boundary hended with hstopped | hplays
      · exact .stops hentered hnmi hstopped
      · have hfetches := hentered.fetches (Core.nmiPending_edge hsampled)
        rw [hentered.bytes] at hplays
        exact .returns hfetches hnmi (.amid .start hplays)

/-- Then every edge goes on with the return, or completes it. -/
theorem Serves.exit (h : v.Serves b 1) (hstacks : v.Stacks) (hreturns : v.Returns)
    (hsize : v.bytes.size = v.config.memorySize) (hunbroken : b.Unbroken v.Gives level) :
    ((b.core.edge level b.inputs).ended = false ∧ v.Serves (b.edge level).1 1)
      ∨ ((b.core.edge level b.inputs).ended = true
        ∧ v.Resumed (b.core.edge level b.inputs).core (b.edge level).1.memory.bytes) := by
  have hsampled (nmi : b.core.nmiPending = false) := hunbroken.nmiPending nmi
  cases h with
  | stops entered nmi stopped =>
    obtain ⟨hgoes, hnmi, -, hplays⟩ := stopped.orderly.resumes hunbroken.reset stopped.pending
    have hentered : v.Entered { b.core.sampleInputs b.inputs with boundaryPending := false }
      b.memory.bytes := entered.of_logic stopped.logic
    have hfetches := hentered.fetches (hsampled nmi)
    rw [entered.bytes] at hplays
    exact Or.inl ⟨hgoes, .returns hfetches hnmi (.amid .start hplays)⟩
  | returns fetches nmi performing =>
    rcases performing.edge hunbroken.reset hunbroken.supplies with
      ⟨hgoes, hnext⟩ | ⟨hended, performs, hlogic, hleft⟩
    · exact Or.inl ⟨hgoes, .returns fetches (b.nmiPending_edge (hsampled nmi)) hnext⟩
    · have hvalid := performing.orderly.fits.valid
      obtain ⟨hreturned, hsame⟩ := fetches.performs hstacks hreturns hvalid hsize performs
      refine Or.inr ⟨hended, ?_⟩
      rw [hleft, hsame]
      exact hstacks.resumed (hreturned.of_logic hlogic) hvalid hsize

/-- The operation and the return follow each other. -/
theorem Serves.of_serving (h : Serving v.Gives b₀ level₀ count b)
    (hstart : v.Serves (b₀.edge level₀).1 0) (hop : v.op ≠ .haltNop) (hstacks : v.Stacks)
    (hreturns : v.Returns) (hsize : v.bytes.size = v.config.memorySize) (hcount : count < 2) :
    v.Serves b count := by
  induction h with
  | first => exact hstart
  | @edge b count _ level unbroken ih =>
    have hbefore := ih (by omega)
    match count with
    | 0 =>
      rw [Nat.zero_add]
      exact hbefore.entry hop hstacks unbroken
    | 1 =>
      rcases hbefore.exit hstacks hreturns hsize unbroken with ⟨hgoes, hnext⟩ | ⟨hended, -⟩
      · rw [hgoes]
        exact hnext
      · rw [hended] at hcount
        exact absurd hcount (Nat.lt_irrefl 2)
    | count + 2 => omega
  | @host b _ _ host ih => exact (ih hcount).set host b.processor.hooks
  | @hooks b _ _ hooks ih => exact (ih hcount).set b.host hooks

end Visit

variable {config : BoardConfig} {b b₀ : Board} {level level₀ : Level} {k p : Core} {v : Visit}

/-- On this edge the chip `p` accepts the interrupt. -/
structure Board.Accepts (config : BoardConfig) (b : Board) (level : Level) (p : Core) (v : Visit) :
    Prop where
  chooses : b.Chooses level p
  origin : p.resolveNext.origin = .internal v.op
  interrupts : v.op ≠ .haltNop
  config : v.config = config
  regs : v.regs = p.regs
  bytes : v.bytes = (b.edge level).1.memory.bytes

/-- The operation that has been accepted begins. -/
theorem Board.Accepts.serves (h : b.Accepts config level p v) (hb : b.Orderly config) :
    v.Serves (b.edge level).1 0 := by
  obtain ⟨hnmi, hplays⟩ : _ ∧ (b.edge level).1.Plays config v.Gives _ _ := hb.chooses h.chooses
  rw [← h.config, ← h.bytes] at hplays
  exact .enters (Visit.enters_resolveNext h.origin h.interrupts h.regs) hnmi (.amid .start hplays)

/-- NMI, or INT in mode 1 or 2, is accepted on an edge of any board, and the handler is a return.  PC
    is pushed to RAM, away from the handler and the vector.  When the operation that enters the
    interrupt and the return are complete, the program resumes, if nothing has broken in.

    If the interrupt is accepted behind a HALT, PC is behind the HALT; if it is accepted within a block
    instruction, PC is where that begins. -/
theorem Attended.resumes_interrupted (h : Attended config b₀) (level₀ : Level) :
    (∀ p v, b₀.Accepts config level₀ p v → v.Returns → v.Stacks →
      ∀ b, Serving v.Gives b₀ level₀ 1 b → ∀ level, b.Unbroken v.Gives level →
        (b.core.edge level b.inputs).ended = true →
          v.Resumed (b.core.edge level b.inputs).core (b.edge level).1.memory.bytes)
    ∧ ∀ k count page opcode, b₀.Opens level₀ k →
      Scans (config.byteAt b₀.memory.bytes) k.regs.pc count page opcode →
      ∀ b, Lingering b₀ level₀ b → Attended config b ∧ ∀ level p, b.Chooses level p →
        p.Rests (Board.sought k count page opcode) := by
  refine ⟨fun p v haccepts hreturns hstacks b hserving level hunbroken hended => ?_,
    fun k count page opcode hopens hscans b hlingering => ⟨hlingering.attended h,
      fun level p hchooses => (hlingering.lingers h.orderly hopens hscans).chooses hchooses⟩⟩
  have hsize : v.bytes.size = v.config.memorySize := by
    rw [haccepts.bytes, haccepts.config]
    exact (h.orderly.edge level₀).fits.size
  have hserves := Visit.Serves.of_serving hserving (haccepts.serves h.orderly) haccepts.interrupts
    hstacks hreturns hsize (by decide)
  rcases hserves.exit hstacks hreturns hsize hunbroken with ⟨hgoes, -⟩ | ⟨-, hresumed⟩
  · cases hgoes.symm.trans hended
  · exact hresumed

/-- The board after some edges on which neither RESET nor NMI is asserted, with the number of
    instructions that have been completed. -/
def Board.serve (b : Board) (count : Nat) : List Level → Option (Nat × Board)
  | [] => some (count, b)
  | level :: rest =>
    if b.host.reset.isAsserted || b.inputs.nmi.isAsserted then none
    else (b.edge level).1.serve (count + (b.core.edge level b.inputs).ended.toNat) rest

/-- An edge on which neither is asserted breaks nothing, if nothing is read from elsewhere. -/
theorem Board.unbroken (hv : v.op ≠ .intMode2) (hreset : b.host.reset.isAsserted = false)
    (hnmi : b.inputs.nmi.isAsserted = false) : b.Unbroken v.Gives level :=
  ⟨hreset, fun hasserted => absurd (hnmi.symm.trans hasserted) Bool.false_ne_true,
    fun _ _ _ _ hmode => absurd hmode hv⟩

theorem Serving.serve {count : Nat} (h : Serving v.Gives b₀ level₀ count b) (hv : v.op ≠ .intMode2)
    {levels : List Level} {last : Nat × Board} (hserve : b.serve count levels = some last) :
    Serving v.Gives b₀ level₀ last.1 last.2 := by
  induction levels generalizing b count with
  | nil =>
    obtain rfl := Option.some.inj hserve
    exact h
  | cons level rest ih =>
    rw [Board.serve] at hserve
    split at hserve
    · cases hserve
    · next hquiet =>
      rw [Bool.or_eq_true, not_or, Bool.not_eq_true, Bool.not_eq_true] at hquiet
      exact ih (h.edge level (Board.unbroken hv hquiet.1 hquiet.2)) hserve

/-- A board whose first instruction is an LDIR, with a RETN where NMI leads. -/
def ldirBoard : Board :=
  smallMachine.board.set {} {} (fun regs => { regs with sp := 0x200 })
    (([0xED, 0xB0] : List Byte) ++ List.replicate 0x64 0 ++ [0xED, 0x45]
      ++ List.replicate 0x398 0).toArray

/-- The chip that runs its first half-period. -/
def ldirChip : Core :=
  { ldirBoard.core.sampleInputs ldirBoard.inputs with phase := .running }.resolveNext

/-- So many levels of the clock, from a falling edge on. -/
def fallingLevels (count : Nat) : List Level :=
  (List.range count).map fun edge => Level.ofBool (edge % 2 == 1)

/-- The levels between, up to the last half-period of the LDIR, with NMI asserted. -/
def ldirEnd : Option Board :=
  Board.within { (ldirBoard.edge .high).1 with host := { nmi := .asserted } } (fallingLevels 40)

/-- The NMI that is accepted when the LDIR has ended. -/
def ldirVisit (b : Board) : Visit :=
  { config := smallConfig
    op := .nmi
    regs := (b.core.edge .low b.inputs).core.regs
    bytes := (b.edge .low).1.memory.bytes
    vector := 0 }

/-- NMI comes within the LDIR, and the LDIR is where the RETN leads back to. -/
theorem ldir_resumes : ∃ b b' p v, Lingering ldirBoard .high b ∧ b.Accepts smallConfig .low p v
    ∧ p.conditionMet = true ∧ p.Rests (Board.sought ldirChip 0 .ed 0xB0)
    ∧ Serving v.Gives b .low 1 b' ∧ (b'.core.edge .low b'.inputs).ended = true
    ∧ v.Resumed (b'.core.edge .low b'.inputs).core (b'.edge .low).1.memory.bytes := by
  have hbuilt : Machine.build smallConfig .unattached = .ok smallMachine := rfl
  have hstart : Attended smallConfig smallMachine.board := .start hbuilt (by decide +kernel)
  have hattended : Attended smallConfig ldirBoard := hstart.set _ _ _ _ (by decide +kernel)
  have hopens : ldirBoard.Opens .high ldirChip := by
    refine ⟨rfl, ?_, ?_, ?_, ?_⟩ <;> decide +kernel
  have hscans : Scans (smallConfig.byteAt ldirBoard.memory.bytes) ldirChip.regs.pc 0 .ed 0xB0 := by
    have hopcode : smallConfig.byteAt ldirBoard.memory.bytes (ldirChip.regs.pc + 1) = 0xB0 := by
      decide +kernel
    rw [← hopcode]
    exact .ed (by decide +kernel)
  have hall : (ldirEnd.any fun b =>
      (b.core.edge .low b.inputs).ended && !(b.edge .low).1.core.boundaryPending
        && decide ((b.core.edge .low b.inputs).core.resolveNext.origin = .internal .nmi)
        && (b.core.edge .low b.inputs).core.conditionMet
        && decide ((ldirVisit b).config.byteAt (ldirVisit b).bytes (ldirVisit b).handler = 0xED)
        && decide ((ldirVisit b).code.mnemonic = .retn)
        && ((ldirVisit b).pushes.all fun store =>
          !(ldirVisit b).config.isRom ((ldirVisit b).config.index store.address))
        && ((ldirVisit b).pushes.all fun store => (ldirVisit b).reads.all fun address =>
          (ldirVisit b).config.index store.address != (ldirVisit b).config.index address)
        && (Board.serve { (b.edge .low).1 with host := {} } 0
            ((fallingLevels 50).drop 1)).any fun last => last.1 == 1
              && (last.2.core.edge .low last.2.inputs).ended && !last.2.host.reset.isAsserted
              && !last.2.inputs.nmi.isAsserted) = true := by
    decide +kernel
  generalize hb : ldirEnd = reached at hall
  cases reached with
  | none => cases hall
  | some b =>
    rw [Option.any_some] at hall
    simp only [Bool.and_eq_true, Bool.not_eq_true', decide_eq_true_eq, List.all_eq_true,
      bne_iff_ne] at hall
    obtain ⟨⟨⟨⟨⟨⟨⟨⟨hended, hgoes⟩, horigin⟩, hmet⟩, hselects⟩, hretn⟩, hram⟩, hapart⟩, hserved⟩ := hall
    have hexecuting : Executing ldirBoard .high b := (Executing.first.host _).within hb
    have hlingering := hexecuting.lingering hattended.orderly hopens hscans
    have haccepts : b.Accepts smallConfig .low (b.core.edge .low b.inputs).core (ldirVisit b) :=
      ⟨.ended hended hgoes, horigin, InternalOp.noConfusion, rfl, rfl, rfl⟩
    have hnmi : (ldirVisit b).op ≠ .intMode2 := InternalOp.noConfusion
    generalize hlast : Board.serve _ 0 _ = served at hserved
    cases served with
    | none => cases hserved
    | some last =>
      rw [Option.any_some] at hserved
      simp only [Bool.and_eq_true, Bool.not_eq_true', beq_iff_eq] at hserved
      obtain ⟨⟨⟨hone, hover⟩, hreset⟩, hquiet⟩ := hserved
      have hserving : Serving (ldirVisit b).Gives b .low last.1 last.2 :=
        (Serving.first.host _).serve hnmi hlast
      rw [hone] at hserving
      obtain ⟨hb, hrests⟩ := (Attended.resumes_interrupted hattended .high).2 ldirChip 0 .ed 0xB0
        hopens hscans b hlingering
      have hresumes := (Attended.resumes_interrupted hb .low).1 _ _ haccepts
        ⟨hselects, Or.inl hretn⟩ ⟨hram, hapart⟩ last.2 hserving .low
        (Board.unbroken hnmi hreset hquiet) hover
      exact ⟨b, last.2, _, _, hlingering, haccepts, hmet, hrests .low _ haccepts.chooses, hserving,
        hover, hresumes⟩

end Z80Board
