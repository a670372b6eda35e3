import Z80Board.Proofs.Chip.Grants
import Z80Board.Proofs.Rig.Instructions

/-! # Where a program is interrupted

    An interrupt is accepted when the next instruction is chosen.  PC is behind the last one then, but
    for two cases.  A HALT is over after one byte, and the chip fetches idly from then on, with PC
    behind the HALT.  And a block instruction that is to run again has put PC back to its first
    byte. -/

namespace Z80Board

/-! ## HALT -/

namespace Core

variable {c d k : Core}

/-- If the instruction in progress is a HALT, it has halted the chip. -/
def Halts (c : Core) : Prop :=
  Instruction.performs c.instruction .halt = true → c.halted = true

theorem Halts.of_imprint (h : c.Halts) (himprint : d.imprint = c.imprint) : d.Halts := by
  have hcode : d.instruction = c.instruction := congrArg Imprint.instruction himprint
  have hhalted : d.halted = c.halted := congrArg (fun i => i.shadow.2.1) himprint
  rw [Halts, hcode, hhalted]
  exact h

theorem Halts.of_logic (h : c.Halts) (hlogic : d.logic = c.logic) : d.Halts := by
  have hsame : d.logic.imprint = c.logic.imprint := congrArg imprint hlogic
  exact h.of_imprint hsame

/-- An instruction that acts halts the chip if it is a HALT that is decoded, and otherwise leaves it
    as it is. -/
theorem halts_leaveBehind {code : Instruction} {point : ExecPoint} {shadow : Bool × Bool × Level}
    (h : code.mnemonic = .halt → point ≠ .decoded → shadow.2.1 = true) :
    Instruction.performs (some code) .halt = true →
      (leaveBehind code.mnemonic point shadow).2.1 = true := by
  intro hperforms
  have hhalt : code.mnemonic = .halt := eq_of_beq hperforms
  rw [hhalt, leaveBehind]
  split
  · rfl
  · next hother => exact h hhalt hother

theorem holds_halts : Imprint.Holds fun i =>
    Instruction.performs i.instruction .halt = true → i.shadow.2.1 = true where
  acts i code hcode _ := by
    rw [show (i.act code .decoded).instruction = some code from hcode]
    exact halts_leaveBehind fun _ hother => absurd rfl hother
  begins i _ code _ _ _ := halts_leaveBehind fun _ hother => absurd rfl hother

theorem Halts.latchResult (h : c.Halts) : c.latchResult.Halts := by
  rcases c.imprint_latchResult with ⟨-, hkept⟩ | ⟨code, hcode, hacted⟩
  · exact h.of_imprint hkept
  · have hinstruction : c.latchResult.instruction = some code :=
      (congrArg Imprint.instruction hacted).trans hcode
    have hhalted : c.latchResult.halted
        = (leaveBehind code.mnemonic (.after c.cycle.kind) c.shadow).2.1 :=
      congrArg (fun i => i.shadow.2.1) hacted
    rw [Halts, hinstruction, hhalted]
    refine halts_leaveBehind fun hhalt _ => h ?_
    rw [hcode]
    exact beq_iff_eq.mpr hhalt

/-- An edge amid an instruction keeps it so. -/
theorem Halts.pass {e : Edge} {engaged : Option Core} (h : c.Halts) (hpass : c.Pass e engaged)
    (hunderway : ∀ k, engaged = some k → k.Underway) : e.core.Halts := by
  cases hpass with
  | stalls logic => exact h.of_logic logic
  | runs logic half more result =>
    rw [result]
    exact holds_halts.runHalf (hunderway _ rfl) (h.of_logic logic)
  | @closes k logic half last ended result =>
    have hrun : k.runHalf.1.Halts :=
      holds_halts.runHalf (hunderway _ rfl) (h.of_logic logic)
    have hnext := hrun.latchResult.of_imprint (imprint_nextCycle _)
    rw [result]
    split <;> exact hnext

/-! ## An idle fetch -/

/-- A halted chip that is not interrupted fetches idly. -/
theorem resolveNext_idle (h : c.resolveNext.origin = .internal .haltNop) :
    c.resolveNext = c.cleared.startInternal .haltNop := by
  rw [resolveNext_eq] at h ⊢
  split at h
  · cases h
  next hnmi =>
  rw [if_neg hnmi]
  split at h
  · next hint =>
    rw [acceptInt_eq] at h
    split at h
    · cases h
    split at h <;> cases h
  next hint =>
  rw [if_neg hint]
  split at h
  · next hhalted => exact if_pos hhalted
  · cases h

variable {config : BoardConfig} {elsewhere : Byte → Prop} {bytes left : Array Byte} {e : Core}

/-- An idle fetch changes nothing but R. -/
theorem Performs.of_idle (h : c.resolveNext.origin = .internal .haltNop)
    (hperforms : c.resolveNext.Performs config elsewhere bytes e left) :
    e.regs.pc = c.regs.pc ∧ e.halted = c.halted ∧ e.conditionMet = false := by
  have hidle := resolveNext_idle h
  generalize c.resolveNext = k at hperforms hidle
  have hfacts : (decoder.internal .haltNop).index? = none
      ∧ (decoder.internal .haltNop).memoryOperand? = none
      ∧ (decoder.internal .haltNop).mnemonic = .haltNop
      ∧ (decoder.internal .haltNop).timing.primary.cycles = [⟨.opcodeFetch, 4⟩] := by
    decide +kernel
  obtain ⟨hindex, hmemory, hmnemonic, htiming⟩ := hfacts
  have hknown : k.instruction = some (decoder.internal .haltNop) := by rw [hidle]; rfl
  have hact (d : Core) : d.act (decoder.internal .haltNop) .decoded = d := by rw [act, hmnemonic]
  have hpattern : k.cycle.pattern = .fetch := by rw [hidle]; rfl
  have hkept : k.regs = c.regs ∧ k.halted = c.halted ∧ k.conditionMet = false := by
    rw [hidle]
    exact ⟨rfl, rfl, rfl⟩
  have hacted (byte : Byte) : k.acted byte = (k.countRefresh.fetch byte).fitLength := by
    have hall := acted_of_fetch byte hknown hindex hmemory (by rw [hidle]; rfl) (Or.inl hpattern)
      (by rw [hact]; exact ⟨hknown, rfl⟩)
    rwa [hact] at hall
  -- it has one cycle
  have hclosed (byte : Byte) : k.closed byte = ((k.acted byte).stepOn, true) := by
    have hcycles : k.cycles = (decoder.internal .haltNop).timing.primary.cycles := by
      rw [hidle, startInternal, beginCycle]
    have hplace : k.position = 0 := by rw [hidle]; rfl
    rw [Works.closed (.of_eq (hacted byte)) hknown, hcycles, hplace, htiming]
    rfl
  have hfirst {d : Core} {now : Array Byte} (hadvances : k.Advances config elsewhere bytes d now) :
      d = k := by
    induction hadvances with
    | start => rfl
    | cycle _ _ goes ih =>
      rw [ih, hclosed] at goes
      cases goes
  cases hperforms with
  | @ends d _ _ hadvances =>
    obtain rfl := hfirst hadvances
    rw [hclosed, hacted]
    obtain ⟨hregs, hhalted, hmet⟩ := hkept
    show d.regs.pc = _ ∧ d.halted = _ ∧ d.conditionMet = false
    exact ⟨congrArg Registers.pc hregs, hhalted, hmet⟩

end Core

/-! ## At the end of the instruction -/

/-- What is left of the instruction that was sought, as long as the chip runs nothing but idle fetches
    behind it. -/
structure Core.Rests (q : Sought) (p : Core) : Prop where
  halt : q.code.mnemonic = .halt →
    p.halted = true ∧ p.regs.pc = q.pc + (q.ignored + 1).toUInt16
  /-- A block instruction is to run again. -/
  again : q.code.mnemonic.repeats = true → p.conditionMet = true →
    p.regs.pc = q.pc + q.ignored.toUInt16

namespace Core

variable {byteAt : Word → Byte} {q : Sought} {c d k p : Core} {dropped : Nat} {t : Traffic}

theorem Rests.of_logic (h : c.Rests q) (hlogic : d.logic = c.logic) : d.Rests q := by
  have hback : d.logic.Rests q := by
    rw [hlogic]
    exact ⟨h.halt, h.again⟩
  exact ⟨hback.halt, hback.again⟩

/-- The instruction that the last half-period completes has been found. -/
theorem Pursues.found (h : k.Pursues byteAt q dropped t) (hunderway : k.Underway)
    (hbyte : k.instruction = none → k.samplesMemory = true →
      k.data.value = byteAt (t.begin k).address)
    (hlast : k.runHalf.2 = true) (hend : k.runHalf.1.latchResult.nextCycle.2 = true) :
    k.runHalf.1.Finds q (k.runHalf.1.cycle.half + 1) := by
  obtain ⟨hreads, -⟩ := h.runHalf hunderway hbyte
  obtain ⟨-, hcloses, -⟩ := hunderway.last hlast
  rw [after, hlast] at hreads
  generalize dropped + k.dropsPrefix.toNat = dropped' at hreads
  cases hreads with
  | seeks sought => cases (sought.next hcloses).1.symm.trans hend
  | finds found => exact found

/-- If it is a block instruction that is to run again, PC is back where it begins. -/
theorem Finds.again_next (h : c.Finds q (c.cycle.half + 1)) (hcloses : c.Closes)
    (hrepeats : q.code.mnemonic.repeats = true)
    (hmet : c.latchResult.nextCycle.1.conditionMet = true) :
    c.latchResult.nextCycle.1.regs.pc = q.pc + q.ignored.toUInt16 := by
  obtain ⟨-, hturns⟩ := latchResult_turns h.known
  obtain ⟨hknown, -⟩ := hturns.cycles h.known (hcloses.course.scheduled q.code h.known).1
  obtain ⟨-, hregs, hsame, -⟩ := nextCycle_kept hknown
  rw [hregs]
  exact (h.again_latched hcloses hrepeats (hsame.symm.trans hmet)).2

/-- Nothing but one byte belongs to a HALT, and it goes nowhere. -/
theorem Completes.pc_of_halt (h : Completes q c)
    (hentitled : Listing.Entitled Catalog.forms q.page q.code) (hhalt : q.code.mnemonic = .halt) :
    c.regs.pc = q.pc + (q.ignored + 1).toUInt16 := by
  have hsize : q.code.size = 1 := by
    have hforms : ∀ p ∈ Catalog.forms, p.1 = .halt → p.2.size = 1 := by decide +kernel
    obtain ⟨m, f, hf, -, hcode⟩ := hentitled
    rw [hcode.size]
    exact hforms (m, f) hf (hcode.mnemonic ▸ hhalt)
  rw [h.pc (by rw [departs, hhalt]; rfl), hsize]

end Core

namespace Board

variable {config : BoardConfig} {bytes : Array Byte} {b b₀ : Board} {t : Traffic} {q : Sought}
  {k p : Core} {level level₀ : Level}

/-- The edge that completes the instruction. -/
theorem Follows.rests (h : b.Follows config bytes q t) (halts : b.core.Halts)
    (hreset : b.host.reset.isAsserted = false) (hended : (b.core.edge level b.inputs).ended = true) :
    (b.core.edge level b.inputs).core.Rests q := by
  have hcomplete := (h.edge hreset level).2 hended
  have hpass : b.core.Pass (b.core.edge level b.inputs) (b.core.engaged level b.inputs) :=
    h.amid.pass hreset
  have hunderway (k : Core) (hengaged : b.core.engaged level b.inputs = some k) : k.Underway :=
    (h.carries.settled.sound.engages hengaged).underway
  have hhalts := halts.pass hpass hunderway
  cases hengaged : b.core.engaged level b.inputs with
  | none =>
    rw [hengaged] at hpass
    cases hpass with
    | stalls _ _ _ goes => cases goes.symm.trans hended
  | some k =>
    rw [hengaged] at hpass
    have hk := h.carries.settled.sound.engages hengaged
    cases hpass with
    | runs _ _ _ _ _ goes => cases goes.symm.trans hended
    | closes logic half last ended result =>
      obtain ⟨dropped, hpursues⟩ := h.pursues
      have hpursues := hpursues.of_logic logic half
      obtain ⟨-, hcloses, -⟩ := hk.underway.last last
      have hfound := hpursues.found hk.underway (h.carries.byte hk hpursues) last
        (ended.symm.trans hended)
      refine ⟨fun hhalt => ⟨hhalts ?_, hcomplete.pc_of_halt hfound.entitled hhalt⟩,
        fun hrepeats hmet => ?_⟩
      · rw [hcomplete.code]
        exact beq_iff_eq.mpr hhalt
      · rw [result, if_pos hended] at hmet ⊢
        exact hfound.again_next hcloses hrepeats hmet

/-- A chip that runs, or has lent its buses, is not started again. -/
theorem not_started (h : b.core.phase = .running ∨ b.core.phase = .busReleased) :
    (b.core.sampleInputs b.inputs).leaveReset.phase ≠ .powerOn := by
  have hphase : (b.core.sampleInputs b.inputs).phase = .running
      ∨ (b.core.sampleInputs b.inputs).phase = .busReleased := h
  rw [Core.leaveReset, if_neg]
  · rcases hphase with hphase | hphase <;> rw [hphase] <;> exact Phase.noConfusion
  · rcases hphase with hphase | hphase <;> rw [hphase] <;> exact Phase.noConfusion

/-- The board is on its way through the instruction that was sought, or behind it. -/
inductive Lingers (config : BoardConfig) (bytes : Array Byte) (q : Sought) (b : Board) : Prop where
  | follows {t : Traffic} (orderly : b.Orderly config) (follows : b.Follows config bytes q t)
    (halts : b.core.Halts) : Lingers config bytes q b
  | stops {p : Core} (rests : p.Rests q) (stopped : b.Stopped config p) : Lingers config bytes q b
  | idles {p : Core} {now : Array Byte} (rests : p.Rests q)
    (idle : p.resolveNext.origin = .internal .haltNop)
    (performing : b.Performing config (fun _ => True) now p.resolveNext) : Lingers config bytes q b

namespace Lingers

theorem orderly (h : b.Lingers config bytes q) : b.Orderly config := by
  cases h with
  | follows orderly => exact orderly
  | stops _ stopped => exact stopped.orderly
  | idles _ _ performing => exact performing.orderly

/-- The chip has been started. -/
theorem phase (h : b.Lingers config bytes q) :
    b.core.phase = .running ∨ b.core.phase = .busReleased := by
  cases h with
  | follows _ follows => exact follows.amid.phase
  | stops _ stopped => exact Or.inl (stopped.orderly.sound.pending stopped.pending).1
  | idles _ _ performing => exact performing.amid_core.phase

/-- An edge that ends an instruction finds PC where it should be. -/
theorem rests (h : b.Lingers config bytes q) (hreset : b.host.reset.isAsserted = false)
    (hended : (b.core.edge level b.inputs).ended = true) :
    (b.core.edge level b.inputs).core.Rests q := by
  cases h with
  | follows _ follows halts => exact follows.rests halts hreset hended
  | stops _ stopped =>
    obtain ⟨hgoes, -⟩ : (b.core.edge level b.inputs).ended = false ∧ _ ∧ _
        ∧ (b.edge level).1.Plays config (fun _ => True) _ _ :=
      stopped.orderly.resumes hreset stopped.pending
    cases hgoes.symm.trans hended
  | idles rests idle performing =>
    rcases performing.edge hreset (fun _ _ _ _ => trivial) with ⟨hgoes, -⟩ | ⟨-, performs, hlogic, -⟩
    · cases hgoes.symm.trans hended
    · obtain ⟨hpc, hhalted, hmet⟩ := Core.Performs.of_idle idle performs
      refine Core.Rests.of_logic ⟨fun hhalt => ?_, fun _ hagain => ?_⟩ hlogic
      · rw [hhalted, hpc]
        exact rests.halt hhalt
      · cases hmet.symm.trans hagain

/-- Every choice finds PC there too. -/
theorem chooses (h : b.Lingers config bytes q) (hchooses : b.Chooses level p) : p.Rests q := by
  have hphase := h.phase
  cases hchooses with
  | ended ended =>
    refine h.rests (Bool.eq_false_iff.mpr fun hreset => ?_) ended
    have hreset' : b.inputs.reset.isAsserted = true := hreset
    rw [Core.edge_eq, if_pos hreset'] at ended
    cases ended
  | stopped _ pending =>
    cases h with
    | follows _ follows => cases follows.amid.chosen.symm.trans pending
    | stops rests stopped => exact rests.of_logic stopped.logic
    | idles _ _ performing => cases performing.amid_core.chosen.symm.trans pending
  | started _ _ phase => exact absurd phase (not_started hphase)

/-- Every edge on which nothing but an idle fetch is chosen keeps it so. -/
theorem edge (h : b.Lingers config bytes q) (hreset : b.host.reset.isAsserted = false)
    (hidles : ∀ p, b.Chooses level p → p.resolveNext.origin = .internal .haltNop) :
    (b.edge level).1.Lingers config bytes q := by
  cases hended : (b.core.edge level b.inputs).ended with
  | true =>
    have hrests := h.rests hreset hended
    rcases h.orderly.boundary hended with hstopped | hplays
    · exact .stops hrests hstopped
    · exact .idles hrests (hidles _ (.ended hended hplays.amid.chosen)) (.amid .start hplays)
  | false =>
    cases h with
    | follows orderly follows halts =>
      have hpass : b.core.Pass (b.core.edge level b.inputs) (b.core.engaged level b.inputs) :=
        follows.amid.pass hreset
      have hhalts := halts.pass hpass fun k hengaged => (orderly.sound.engages hengaged).underway
      obtain ⟨hlogic, -⟩ := core_edge_of_goes hended
      exact .follows (orderly.edge level) ((follows.edge hreset level).1 hended)
        (hhalts.of_logic hlogic)
    | stops rests stopped =>
      obtain ⟨-, -, -, hplays⟩ := stopped.orderly.resumes hreset stopped.pending
      have hstopped : ({ b.core.sampleInputs b.inputs with
          boundaryPending := false } : Core).Rests q := rests.of_logic stopped.logic
      exact .idles hstopped (hidles _ (.stopped hreset stopped.pending)) (.amid .start hplays)
    | idles rests idle performing =>
      rcases performing.edge hreset (fun _ _ _ _ => trivial) with ⟨-, hnext⟩ | ⟨hend, -⟩
      · exact .idles rests idle hnext
      · cases hended.symm.trans hend

theorem set (h : b.Lingers config bytes q) (host : InputLevels) (hooks : Hooks) :
    ({ b with host, processor.hooks := hooks } : Board).Lingers config bytes q := by
  cases h with
  | follows orderly follows halts =>
    exact .follows (orderly.set host hooks) (follows.set host hooks) halts
  | stops rests stopped => exact .stops rests (stopped.set host hooks)
  | idles rests idle performing => exact .idles rests idle (performing.set host hooks)

end Lingers

end Board

/-! ## Runs -/

/-- The board is on its way through the instruction that the first edge has begun, or has stopped
    behind it, or fetches idly behind it.  RESET stays released. -/
inductive Lingering (b₀ : Board) (level₀ : Level) : Board → Prop where
  | first : Lingering b₀ level₀ (b₀.edge level₀).1
  | edge {b : Board} (h : Lingering b₀ level₀ b) (level : Level)
    (reset : b.host.reset.isAsserted = false)
    (idles : ∀ p, b.Chooses level p → p.resolveNext.origin = .internal .haltNop) :
    Lingering b₀ level₀ (b.edge level).1
  | host {b : Board} (h : Lingering b₀ level₀ b) (host : InputLevels) :
    Lingering b₀ level₀ { b with host }
  | hooks {b : Board} (h : Lingering b₀ level₀ b) (hooks : Hooks) :
    Lingering b₀ level₀ { b with processor.hooks := hooks }

variable {config : BoardConfig} {b b₀ : Board} {k p : Core} {level level₀ : Level}

theorem Lingering.lingers (h : Lingering b₀ level₀ b) (hb : b₀.Orderly config)
    (hopens : b₀.Opens level₀ k) {count : Nat} {page : Page} {opcode : Byte}
    (hscans : Scans (config.byteAt b₀.memory.bytes) k.regs.pc count page opcode) :
    b.Lingers config b₀.memory.bytes (Board.sought k count page opcode) := by
  induction h with
  | first =>
    have hk := hb.sound.engages hopens.engaged
    have hnone : k.Halts := by
      rw [Core.Halts, hopens.unknown]
      exact fun hperforms => by cases hperforms
    have hhalts := hnone.pass (Core.pass_engaged hopens.engaged ⟨Or.inl hk.phase, hk.chosen⟩)
      fun _ hsame => Option.some.inj hsame ▸ hk.underway
    obtain ⟨hgoes, -⟩ : _ ∧ (b₀.edge level₀).1.Plays config (fun _ => True) _ _ :=
      hb.opens hopens.engaged hopens.half
    obtain ⟨hlogic, -⟩ := Board.core_edge_of_goes hgoes
    exact .follows (hb.edge level₀) (hopens.follows hb hscans) (hhalts.of_logic hlogic)
  | edge _ level reset idles ih => exact ih.edge reset idles
  | @host b _ host ih => exact ih.set host b.processor.hooks
  | @hooks b _ hooks ih => exact ih.set b.host hooks

/-- What has become of the board is attended too. -/
theorem Lingering.attended (h : Lingering b₀ level₀ b) (hb : Attended config b₀) :
    Attended config b := by
  induction h with
  | first => exact hb.edge level₀
  | edge _ level _ _ ih => exact ih.edge level
  | @host b _ host ih => exact ih.set host b.processor.hooks id b.memory.bytes ih.orderly.fits.size
  | @hooks b _ hooks ih => exact ih.set b.host hooks id b.memory.bytes ih.orderly.fits.size

/-- As long as the instruction is in progress, nothing is chosen. -/
theorem Executing.lingering (h : Executing b₀ level₀ b) (hb : b₀.Orderly config)
    (hopens : b₀.Opens level₀ k) {count : Nat} {page : Page} {opcode : Byte}
    (hscans : Scans (config.byteAt b₀.memory.bytes) k.regs.pc count page opcode) :
    Lingering b₀ level₀ b := by
  induction h with
  | first => exact .first
  | @edge b h level reset goes ih =>
    obtain ⟨t, hfollows⟩ := h.follows hb hopens hscans
    refine ih.edge level reset fun p hchooses => ?_
    cases hchooses with
    | ended ended => cases goes.symm.trans ended
    | stopped _ pending => cases hfollows.amid.chosen.symm.trans pending
    | started _ _ phase =>
      exact absurd phase (Board.not_started hfollows.amid.phase)
  | host _ host ih => exact ih.host host
  | hooks _ hooks ih => exact ih.hooks hooks

end Z80Board
