import Z80Board.Proofs.Arith.Halves
import Z80Board.Proofs.Isa.Scan
import Z80Board.Proofs.Rig.Handlers

/-! # Back from an interrupt

    The handler is a RETN or a RETI.  Two fetches find it, and two pops bring PC back from the stack,
    where the operation that has entered the interrupt has put it.  The first flip-flop becomes what
    the second one is. -/

namespace Z80Board

/-- The instruction restores the first flip-flop and returns. -/
structure Instruction.Restores (code : Instruction) : Prop where
  mnemonic : code.mnemonic = .retn ∨ code.mnemonic = .reti
  operands : code.operands = []
  timing : code.timing = Catalog.prefixedPop

/-- Every RETN and RETI of the tables does. -/
theorem Listing.Entitled.restores {page : Page} {code : Instruction}
    (h : Listing.Entitled Catalog.forms page code)
    (hmnemonic : code.mnemonic = .retn ∨ code.mnemonic = .reti) : code.Restores := by
  have hforms : ∀ p ∈ Catalog.forms, p.1 = .retn ∨ p.1 = .reti →
      p.2.timing = Catalog.prefixedPop ∧ p.2.slots = [] := by
    decide +kernel
  obtain ⟨m, f, hf, -, hcode⟩ := h
  obtain ⟨htiming, hslots⟩ := hforms (m, f) hf (hcode.mnemonic ▸ hmnemonic)
  obtain ⟨opcode, hmem⟩ := hcode.operands
  refine ⟨hmnemonic, ?_, hcode.timing.trans htiming⟩
  rw [Form.encodings, show f.slots = [] from hslots, Form.expand] at hmem
  exact (Prod.mk.inj (List.mem_singleton.mp hmem)).2

namespace Core

variable {c d : Core} {code : Instruction} {byte : Byte}

theorem act_restores (h : code.Restores) (point : ExecPoint) :
    c.act code point = c.ret code.mnemonic point none := by
  rcases h.mnemonic with hm | hm <;> rw [act, hm, h.operands] <;> rfl

/-- Taking such an instruction up changes nothing else. -/
theorem beginExecution_restores (h : code.Restores) :
    (c.beginExecution code).instruction = some code
      ∧ (c.beginExecution code).cycles = Catalog.prefixedPop.primary.cycles
      ∧ (c.beginExecution code).position = c.position
      ∧ (c.beginExecution code).origin = c.origin ∧ (c.beginExecution code).halted = c.halted
      ∧ (c.beginExecution code).regs = c.regs
      ∧ (c.beginExecution code).cycle.kind = c.cycle.kind := by
  have hindex : code.index? = none := by rw [Instruction.index?, h.operands]; rfl
  have hmemory : code.memoryOperand? = none := by rw [Instruction.memoryOperand?, h.operands]; rfl
  have htaken : c.takeUp code = { c with
      instruction := some code, cycles := code.timing.primary.cycles, conditionMet := false } := by
    rw [takeUp, placeDisplacement, hindex]
  have hacted : (c.takeUp code).execute .decoded = { c with
      instruction := some code
      cycles := Catalog.prefixedPop.primary.cycles
      conditionMet := true } := by
    rw [htaken, ← h.timing]
    simp only [execute, addressOperand, hmemory, if_pos, act_restores h, ret, holds, takeAlternate]
    rw [h.timing]
    rfl
  rw [beginExecution_eq, hacted]
  exact ⟨rfl, rfl, rfl, rfl, rfl, rfl, rfl⟩

end Core

namespace Visit

variable {v : Visit} {c d : Core} {now : Array Byte} {position : Nat} {byte : Byte}

/-- The instruction behind the prefix at the handler. -/
def code (v : Visit) : Instruction :=
  decode .ed (v.config.byteAt v.bytes (v.handler + 1))

/-- The handler is a RETN or a RETI. -/
structure Returns (v : Visit) : Prop where
  selects : v.config.byteAt v.bytes v.handler = 0xED
  mnemonic : v.code.mnemonic = .retn ∨ v.code.mnemonic = .reti

theorem Returns.restores (h : v.Returns) : v.code.Restores :=
  (entitled_of_alone rfl rfl).restores h.mnemonic

/-- The registers in the handler. -/
def inside (v : Visit) (r : Byte) (count depth : Nat) : Registers :=
  { v.masked r depth with pc := v.handler + count.toUInt16, wz := v.handler }

/-- The chip is about to fetch a byte of the return. -/
structure Fetches (v : Visit) (page : Page) (count : Nat) (c : Core) : Prop
    extends c.Fetches page count where
  awake : c.halted = false
  regs : c.regs = v.inside c.regs.r count 2

/-- The chip is about to pop a byte of the address that it returns to. -/
structure Pops (v : Visit) (depth : Nat) (c : Core) : Prop where
  known : c.instruction = some v.code
  cycles : c.cycles = Catalog.prefixedPop.primary.cycles
  place : c.position + depth = 4
  origin : c.fromMemory = true
  kind : c.cycle.kind = if depth = 2 then .stackReadLow else .stackReadHigh
  pattern : c.cycle.pattern = .read
  memory : c.cycle.fromDevice = false
  awake : c.halted = false
  regs : c.regs = v.inside c.regs.r 2 depth
  low : depth = 1 → c.latches.dataLow = Word.low v.regs.pc

/-- The return is complete. -/
structure Returned (v : Visit) (c : Core) : Prop where
  known : c.instruction = some v.code
  awake : c.halted = false
  regs : ∃ r, c.regs = { v.regs with r, wz := v.regs.pc, iff1 := v.kept, iff2 := v.kept }

/-- The byte that a fetch of the return reads. -/
theorem Fetches.byte_eq {page : Page} {count : Nat} (h : v.Fetches page count c)
    (hstacks : v.Stacks) (hreads : v.handler + count.toUInt16 ∈ v.reads)
    (htakes : c.Takes v.config v.Gives v.stacked byte) :
    byte = v.config.byteAt v.bytes (v.handler + count.toUInt16) := by
  have hbyte := htakes.memory (by rw [ActiveCycle.readsMemory, h.pattern, h.memory]; rfl)
  rw [hbyte, Core.cycleAddress, h.pattern, h.regs]
  exact hstacks.byteAt_reads hreads

/-- PC has moved over the byte, and one more refresh has been counted. -/
theorem Fetches.regs_moved {page : Page} {count : Nat} (h : v.Fetches page count c) :
    ({ c.regs.incrementR with pc := c.regs.pc + 1 } : Registers)
      = v.inside c.regs.incrementR.r (count + 1) 2 := by
  have hpc : v.handler + count.toUInt16 + 1 = v.handler + (count + 1).toUInt16 :=
    Core.add_toUInt16 v.handler count 1
  rw [h.regs, inside, inside, ← hpc]
  rfl

/-- The prefix leads to the next fetch. -/
theorem Fetches.first (h : v.Fetches .main 0 c) (hstacks : v.Stacks) (hreturns : v.Returns)
    (htakes : c.Takes v.config v.Gives v.stacked byte) :
    (c.closed byte).2 = false ∧ v.Fetches .ed 1 (c.closed byte).1 := by
  have hbyte : byte = 0xED := by
    have hread := h.byte_eq hstacks (by simp [reads]) htakes
    rw [hread, show v.handler + Nat.toUInt16 0 = v.handler by simp]
    exact hreturns.selects
  have hnext : (decode .main byte).action = .fetchNext .ed := by
    rw [hbyte]
    exact action_of_lead rfl
  obtain ⟨hacted, hclosed, hfetches⟩ := h.leads hnext
  have hkept : (c.closed byte).2 = false ∧ (c.closed byte).1.halted = c.halted
      ∧ (c.closed byte).1.regs = v.inside c.regs.incrementR.r 1 2 := by
    rw [hclosed, hacted]
    exact ⟨rfl, rfl, h.regs_moved⟩
  obtain ⟨hmore, hawake, hregs⟩ := hkept
  refine ⟨hmore, hfetches, hawake.trans h.awake, ?_⟩
  rw [hregs]
  rfl

/-- The byte behind it completes the opcode. -/
theorem Fetches.second (h : v.Fetches .ed 1 c) (hstacks : v.Stacks) (hreturns : v.Returns)
    (htakes : c.Takes v.config v.Gives v.stacked byte) :
    (c.closed byte).2 = false ∧ v.Pops 2 (c.closed byte).1 := by
  have hbyte : byte = v.config.byteAt v.bytes (v.handler + 1) :=
    h.byte_eq hstacks (by simp [reads]) htakes
  have hexecutes : (decode .ed byte).action = .execute :=
    have hentitled : Listing.Entitled Catalog.forms .ed (decode .ed byte) := entitled_of_alone rfl rfl
    hentitled.action
  have hcode : decode .ed byte = v.code := by rw [hbyte]; rfl
  have hindex : v.code.index? = none := by
    rw [Instruction.index?, hreturns.restores.operands]
    rfl
  have htaken := Core.beginExecution_restores hreturns.restores (c := { c with
    regs := { c.regs.incrementR with pc := c.regs.pc + 1 }
    opcode := c.opcode.push byte })
  have hacted : c.acted byte = ({ c with
      regs := { c.regs.incrementR with pc := c.regs.pc + 1 }
      opcode := c.opcode.push byte } : Core).beginExecution v.code :=
    h.begins hcode (hcode ▸ hexecutes) hindex rfl htaken.1 (htaken.2.2.2.2.2.2.trans h.kind)
  rw [← hacted] at htaken
  obtain ⟨hknown, hcycles, hplace, horigin, hawake, hregs, -⟩ := htaken
  have hmemory : (c.acted byte).fromMemory = true := by
    rw [Core.fromMemory, horigin]
    exact h.origin
  have hclosed : c.closed byte = ((c.acted byte).stepOn.beginCycle .stackReadLow 3, false) := by
    show (c.acted byte).nextCycle = _
    rw [Core.nextCycle_of_some hknown, hcycles, hplace, h.place]
    rfl
  obtain ⟨-, hdevice⟩ := Core.origin_of_fromMemory hmemory
  rw [hclosed]
  refine ⟨rfl, hknown, hcycles, ?_, hmemory, rfl, rfl, ?_, hawake.trans h.awake, ?_,
    fun hone => by cases hone⟩
  · show (c.acted byte).position + 1 + 2 = 4
    rw [hplace, h.place]
  · show (decide ((c.acted byte).origin = .device) && _) = false
    rw [decide_eq_false hdevice]
    rfl
  · show (c.acted byte).regs = v.inside (c.acted byte).regs.r 2 2
    rw [hregs, h.regs_moved]
    rfl

/-- The stack holds PC. -/
theorem byteAt_stacked (hstacks : v.Stacks) (hvalid : v.config.validate = .ok ())
    (hsize : v.bytes.size = v.config.memorySize) :
    v.config.byteAt v.stacked (v.regs.sp - 2) = Word.low v.regs.pc
      ∧ v.config.byteAt v.stacked (v.regs.sp - 1) = Word.high v.regs.pc := by
  have hnext : v.regs.sp - 2 + 1 = v.regs.sp - 1 := by grind
  have hother : v.config.index (v.regs.sp - 2) ≠ v.config.index (v.regs.sp - 1) := by
    rw [← hnext]
    exact Ne.symm (BoardConfig.index_succ_ne hvalid _)
  have hram := hstacks.ram
  simp only [pushes, List.mem_cons, List.not_mem_nil, or_false, forall_eq_or_imp, forall_eq] at hram
  exact (BoardConfig.byteAt_apply_both hvalid hsize hother hram.1 hram.2).symm

theorem Pops.kind_cases {depth : Nat} (h : v.Pops depth c) :
    c.cycle.kind = .stackReadLow ∨ c.cycle.kind = .stackReadHigh := by
  rw [h.kind]
  split
  · exact Or.inl rfl
  · exact Or.inr rfl

/-- A pop reads the byte at SP. -/
theorem Pops.byte_eq {depth : Nat} (h : v.Pops depth c)
    (htakes : c.Takes v.config v.Gives v.stacked byte) :
    byte = v.config.byteAt v.stacked (v.regs.sp - depth.toUInt16) := by
  have hsp : c.regs.sp = v.regs.sp - depth.toUInt16 := by rw [h.regs]; rfl
  rw [takes_read htakes h.pattern h.memory, Core.readAddress, ← hsp]
  rcases h.kind_cases with hkind | hkind <;> rw [hkind]

/-- The byte is latched, and the instruction acts. -/
theorem Pops.acted {depth : Nat} (h : v.Pops depth c) (hreturns : v.Returns) :
    c.acted byte = (({ c with
        regs.sp := c.regs.sp + 1
        latches.fetched := byte } : Core).stow v.code).ret v.code.mnemonic (.after c.cycle.kind)
      none := by
  have hindex : v.code.index? = none := by
    rw [Instruction.index?, hreturns.restores.operands]
    rfl
  have hkind : c.cycle.kind ≠ .opcodeFetch := by
    rcases h.kind_cases with hkind | hkind <;> rw [hkind] <;> decide
  have hmoved : c.movePointer.fetch byte
      = { c with regs.sp := c.regs.sp + 1, latches.fetched := byte } := by
    rw [Core.movePointer]
    rcases h.kind_cases with hkind | hkind <;> rw [hkind] <;> rfl
  rw [Core.acted_of_read byte h.known hindex h.pattern hkind, hmoved,
    Core.act_restores hreturns.restores]

/-- The low byte of the address comes first. -/
theorem Pops.low_byte (h : v.Pops 2 c) (hreturns : v.Returns)
    (hstack : v.config.byteAt v.stacked (v.regs.sp - 2) = Word.low v.regs.pc)
    (htakes : c.Takes v.config v.Gives v.stacked byte) :
    (c.closed byte).2 = false ∧ v.Pops 1 (c.closed byte).1 := by
  have hkind : c.cycle.kind = .stackReadLow := h.kind
  have hacted : c.acted byte = { c with
      regs.sp := c.regs.sp + 1
      latches.fetched := byte
      latches.dataLow := byte } := by
    rw [h.acted hreturns, hkind, Core.ret, if_neg (by decide), if_neg (by decide)]
    simp only [Core.stow, hkind]
  have hplace : c.position + 1 = 3 := by
    have := h.place
    omega
  obtain ⟨-, hdevice⟩ := Core.origin_of_fromMemory h.origin
  have hclosed : c.closed byte = ((c.acted byte).stepOn.beginCycle .stackReadHigh 3, false) := by
    rw [Core.Works.closed (.of_eq hacted) h.known, h.cycles, hplace]
    rfl
  rw [hclosed, hacted]
  refine ⟨rfl, h.known, h.cycles, congrArg (· + 1) hplace, h.origin, rfl, rfl, ?_, h.awake, ?_,
    fun _ => (h.byte_eq htakes).trans hstack⟩
  · show (decide (c.origin = .device) && _) = false
    rw [decide_eq_false hdevice]
    rfl
  · show ({ c.regs with sp := c.regs.sp + 1 } : Registers) = v.inside c.regs.r 2 1
    have hsp : v.regs.sp - 2 + 1 = v.regs.sp - 1 := by grind
    rw [h.regs]
    simp [inside, masked, hsp]

/-- With the high byte the instruction is complete. -/
theorem Pops.high_byte (h : v.Pops 1 c) (hreturns : v.Returns)
    (hstack : v.config.byteAt v.stacked (v.regs.sp - 1) = Word.high v.regs.pc)
    (htakes : c.Takes v.config v.Gives v.stacked byte) :
    (c.closed byte).2 = true ∧ v.Returned (c.closed byte).1.complete := by
  have hkind : c.cycle.kind = .stackReadHigh := h.kind
  have hpc : Word.ofBytes byte c.latches.dataLow = v.regs.pc := by
    rw [h.byte_eq htakes, h.low rfl]
    exact (congrArg (Word.ofBytes · _) hstack).trans (Word.ofBytes_halves v.regs.pc)
  have hret : v.code.mnemonic ≠ .ret := by
    rcases hreturns.mnemonic with hm | hm <;> rw [hm] <;> decide
  have hacted : c.acted byte = { c with
      regs := { c.regs with
        sp := c.regs.sp + 1
        pc := v.regs.pc
        wz := v.regs.pc
        iff1 := c.regs.iff2 }
      latches := { c.latches with fetched := byte, dataHigh := byte } } := by
    rw [h.acted hreturns, hkind, Core.ret, if_neg (by decide), if_pos rfl, if_neg hret, ← hpc]
    simp only [Core.stow, hkind, Core.goTo, Core.data16]
  have hplace : c.position + 1 = 4 := by
    have := h.place
    omega
  have hclosed : c.closed byte = ((c.acted byte).stepOn, true) := by
    rw [Core.Works.closed (.of_eq hacted) h.known, h.cycles, hplace]
    rfl
  rw [hclosed, hacted]
  refine ⟨rfl, h.known, h.awake, c.regs.r, ?_⟩
  show ({ c.regs with
    sp := c.regs.sp + 1, pc := v.regs.pc, wz := v.regs.pc, iff1 := c.regs.iff2 } : Registers) = _
  have hsp : v.regs.sp - 1 + 1 = v.regs.sp := by grind
  rw [h.regs]
  simp [inside, masked, hsp]

/-- A return that has begun, with the bytes of memory. -/
inductive Returning (v : Visit) (c : Core) : Prop where
  | first (h : v.Fetches .main 0 c)
  | second (h : v.Fetches .ed 1 c)
  | low (h : v.Pops 2 c)
  | high (h : v.Pops 1 c)

theorem Returning.reads (h : v.Returning c) : c.cycle.pattern ≠ .write := by
  cases h with
  | first h | second h | low h | high h => rw [h.pattern]; decide

theorem Returning.cycle (h : v.Returning c) (hstacks : v.Stacks) (hreturns : v.Returns)
    (hvalid : v.config.validate = .ok ()) (hsize : v.bytes.size = v.config.memorySize)
    (htakes : c.Takes v.config v.Gives v.stacked byte) :
    ((c.closed byte).2 = false ∧ v.Returning (c.closed byte).1)
      ∨ (c.closed byte).2 = true ∧ v.Returned (c.closed byte).1.complete := by
  obtain ⟨hlow, hhigh⟩ := byteAt_stacked hstacks hvalid hsize
  cases h with
  | first h =>
    obtain ⟨hmore, hnext⟩ := h.first hstacks hreturns htakes
    exact Or.inl ⟨hmore, .second hnext⟩
  | second h =>
    obtain ⟨hmore, hnext⟩ := h.second hstacks hreturns htakes
    exact Or.inl ⟨hmore, .low hnext⟩
  | low h =>
    obtain ⟨hmore, hnext⟩ := h.low_byte hreturns hlow htakes
    exact Or.inl ⟨hmore, .high hnext⟩
  | high h => exact Or.inr (h.high_byte hreturns hhigh htakes)

/-- From the first fetch at the handler on, the chip comes back to where it has been. -/
theorem Fetches.performs {e : Core} {left : Array Byte} (h : v.Fetches .main 0 c)
    (hstacks : v.Stacks) (hreturns : v.Returns) (hvalid : v.config.validate = .ok ())
    (hsize : v.bytes.size = v.config.memorySize)
    (hperforms : c.Performs v.config v.Gives v.stacked e left) :
    v.Returned e ∧ left = v.stacked := by
  have hkept {d : Core} (hd : v.Returning d) : d.leftBytes v.config v.stacked = v.stacked := by
    rw [Core.leftBytes, Core.stores_of_reads hd.reads]
    rfl
  have hamid {d : Core} {now : Array Byte}
      (hadvances : c.Advances v.config v.Gives v.stacked d now) :
      v.Returning d ∧ now = v.stacked := by
    induction hadvances with
    | start => exact ⟨.first h, rfl⟩
    | cycle _ takes goes ih =>
      obtain ⟨hreturning, rfl⟩ := ih
      rcases hreturning.cycle hstacks hreturns hvalid hsize takes with ⟨-, hnext⟩ | ⟨hend, -⟩
      · exact ⟨hnext, hkept hreturning⟩
      · cases goes.symm.trans hend
  cases hperforms with
  | ends hadvances takes ends =>
    obtain ⟨hreturning, rfl⟩ := hamid hadvances
    rcases hreturning.cycle hstacks hreturns hvalid hsize takes with ⟨hmore, -⟩ | ⟨-, hreturned⟩
    · cases hmore.symm.trans ends
    · exact ⟨hreturned, hkept hreturning⟩

end Visit
end Z80Board
