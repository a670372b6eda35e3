import Z80Board.Proofs.Rig.Instructions

/-! # Into an interrupt

    NMI, and INT in modes 1 and 2, are entered by an operation that no opcode stands for.  It fetches
    once without moving PC, pushes PC, and in mode 2 reads the address of the handler from the vector
    table.  Cycle by cycle it comes to the handler, with PC on the stack, interrupts masked, and
    everything else as it was. -/

namespace Z80Board

namespace Core

variable {c : Core} {code : Instruction}

/-- An operation that enters an interrupt acts as such. -/
theorem act_interrupt (h : code.mnemonic = .nmi ∨ code.mnemonic = .int) (point : ExecPoint) :
    c.act code point = c.interruptEntry code.mnemonic point (code.hasOperand (.mode 2)) := by
  rcases h with h | h <;> rw [act, h]

end Core

/-- The cycles of an operation that enters an interrupt. -/
def InternalOp.cycles (op : InternalOp) : List MachineCycle :=
  Catalog.fetch 5 :: (Catalog.pushWord 3 ++ if op = .intMode2 then Catalog.readWord else [])

/-- What the tables say of an operation that enters an interrupt. -/
theorem internal_enters {op : InternalOp} (h : op ≠ .haltNop) :
    (decoder.internal op).mnemonic = (if op = .nmi then .nmi else .int)
      ∧ (decoder.internal op).hasOperand (.mode 2) = decide (op = .intMode2)
      ∧ (decoder.internal op).memoryOperand? = none ∧ (decoder.internal op).index? = none
      ∧ (decoder.internal op).timing.primary.cycles = op.cycles := by
  have hall : ∀ op ∈ [InternalOp.nmi, .intMode1, .intMode2],
      (decoder.internal op).mnemonic = (if op = .nmi then .nmi else .int)
        ∧ (decoder.internal op).hasOperand (.mode 2) = decide (op = .intMode2)
        ∧ (decoder.internal op).memoryOperand? = none ∧ (decoder.internal op).index? = none
        ∧ (decoder.internal op).timing.primary.cycles = op.cycles := by
    decide +kernel
  cases op with
  | haltNop => exact absurd rfl h
  | nmi => exact hall _ (by decide)
  | intMode1 => exact hall _ (by decide)
  | intMode2 => exact hall _ (by decide)

/-- An interrupt that is accepted: the operation that enters it, the registers and the bytes of memory
    at the boundary, and the byte that the device gives. -/
structure Visit where
  config : BoardConfig
  op : InternalOp
  regs : Registers
  bytes : Array Byte
  vector : Byte

namespace Visit

variable {v : Visit} {c d : Core} {now : Array Byte} {position : Nat} {byte : Byte}

/-- In mode 2 the device gives the vector, and otherwise its byte does not matter. -/
def Gives (v : Visit) (byte : Byte) : Prop :=
  v.op = .intMode2 → byte = v.vector

/-- Where the address of the handler stands in the vector table. -/
def table (v : Visit) : Word :=
  Word.ofBytes v.regs.i v.vector

/-- Where the handler begins. -/
def handler (v : Visit) : Word :=
  if v.op = .intMode2 then
    Word.ofBytes (v.config.byteAt v.bytes (v.table + 1)) (v.config.byteAt v.bytes v.table)
  else if v.op = .nmi then 0x0066 else 0x0038

/-- PC on its way to the stack. -/
def pushes (v : Visit) : List Store :=
  [⟨v.regs.sp - 1, Word.high v.regs.pc⟩, ⟨v.regs.sp - 2, Word.low v.regs.pc⟩]

/-- The first flip-flop after the return, and the second one all along. -/
def kept (v : Visit) : Bool :=
  if v.op = .nmi then v.regs.iff2 else false

/-- What has been pushed before this position of the operation. -/
def pushed (v : Visit) (position : Nat) : List Store :=
  v.pushes.take (position - 1)

/-- The registers when so many bytes are on the stack. -/
def masked (v : Visit) (r : Byte) (depth : Nat) : Registers :=
  { v.regs with r, sp := v.regs.sp - depth.toUInt16, iff1 := false, iff2 := v.kept }

/-- The chip is about to run the cycle at this position of the operation. -/
structure Enters (v : Visit) (position : Nat) (c : Core) (now : Array Byte) : Prop where
  known : c.instruction = some (decoder.internal v.op)
  cycles : c.cycles = v.op.cycles
  place : c.position = position
  origin : c.origin = .internal v.op
  chain : c.chain = .opcode
  here : v.op.cycles[position]?.map MachineCycle.kind = some c.cycle.kind
  pattern : c.cycle.pattern = c.busPattern c.cycle.kind
  memory : c.cycle.fromDevice = false
  awake : c.halted = false
  regs : c.regs = v.masked c.regs.r (v.pushed position).length
  staged : 0 < position → c.latches.outHigh = Word.high v.regs.pc ∧ c.latches.outLow = Word.low v.regs.pc
    ∧ (v.op = .intMode2 → c.latches.addr = v.table)
  low : position = 4 → c.latches.dataLow = v.config.byteAt v.bytes v.table
  bytes : now = (v.pushed position).foldl v.config.apply v.bytes

/-- The operation is complete: the chip is at the handler, with PC on the stack. -/
structure Entered (v : Visit) (c : Core) (now : Array Byte) : Prop where
  awake : c.halted = false
  regs : ∃ r, c.regs = { v.masked r 2 with pc := v.handler, wz := v.handler }
  bytes : now = v.pushes.foldl v.config.apply v.bytes

/-- The next cycle of the operation comes. -/
theorem Enters.next (h : v.Enters position c now) (hworks : c.Works (c.acted byte))
    (hregs : (c.acted byte).regs = v.masked (c.acted byte).regs.r (v.pushed (position + 1)).length)
    (hstaged : (c.acted byte).latches.outHigh = Word.high v.regs.pc
      ∧ (c.acted byte).latches.outLow = Word.low v.regs.pc
      ∧ (v.op = .intMode2 → (c.acted byte).latches.addr = v.table))
    (hlow : position = 3 → (c.acted byte).latches.dataLow = v.config.byteAt v.bytes v.table)
    (hbytes : c.leftBytes v.config now = (v.pushed (position + 1)).foldl v.config.apply v.bytes)
    {next : MachineCycle} (hnext : v.op.cycles[position + 1]? = some next) :
    (c.closed byte).2 = false
      ∧ v.Enters (position + 1) (c.closed byte).1 (c.leftBytes v.config now) := by
  obtain ⟨hknown, hcycles, hplace, horigin, hchain, hawake⟩ := hworks.kept
  rw [hworks.closed h.known, h.cycles, h.place, hnext]
  refine ⟨rfl, hknown.trans h.known, hcycles.trans h.cycles, congrArg (· + 1) (hplace.trans h.place),
    horigin.trans h.origin, hchain.trans h.chain, congrArg (Option.map MachineCycle.kind) hnext, rfl,
    ?_, hawake.trans h.awake, hregs, fun _ => hstaged, fun hfour => hlow (by omega), hbytes⟩
  show (decide ((c.acted byte).origin = .device) && _) = false
  rw [horigin, h.origin]
  rfl

theorem kind_of_here {kind : CycleKind} (h : v.Enters position c now)
    (hhere : v.op.cycles[position]?.map MachineCycle.kind = some kind) : c.cycle.kind = kind :=
  Option.some.inj (h.here.symm.trans hhere)

theorem isInterrupt {op : InternalOp} (h : op ≠ .haltNop) :
    (decoder.internal op).mnemonic = .nmi ∨ (decoder.internal op).mnemonic = .int := by
  rw [(internal_enters h).1]
  by_cases hnmi : op = .nmi
  · exact Or.inl (if_pos hnmi)
  · exact Or.inr (if_neg hnmi)

/-- The first cycle takes the byte of the device in, and stages PC. -/
theorem Enters.fetch (h : v.Enters 0 c now) (hop : v.op ≠ .haltNop)
    (htakes : c.Takes v.config v.Gives now byte) :
    (c.closed byte).2 = false ∧ v.Enters 1 (c.closed byte).1 (c.leftBytes v.config now) := by
  obtain ⟨-, hvectored, hmemory, hindex, -⟩ := internal_enters hop
  have hkind : c.cycle.kind = .opcodeFetch := kind_of_here h rfl
  have hpattern : c.cycle.pattern
      = if c.acknowledging then .acknowledge else .fetch := by
    rw [h.pattern, hkind, Core.busPattern, h.chain, h.place]
    simp
  -- PC is put out to be pushed, and in mode 2 the address of the vector is made up of I and the byte
  have hact : (c.countRefresh.fetch byte).act (decoder.internal v.op) .decoded
      = { c.countRefresh.fetch byte with
          latches := { (c.countRefresh.fetch byte).latches with
            outLow := Word.low c.regs.pc
            outHigh := Word.high c.regs.pc
            addr := if v.op = .intMode2 then Word.ofBytes c.regs.i byte else c.latches.addr } } := by
    rw [Core.act_interrupt (isInterrupt hop), Core.interruptEntry, if_pos rfl, hvectored]
    by_cases hmode : v.op = .intMode2
    · rw [decide_eq_true hmode, if_pos hmode]
      rfl
    · rw [decide_eq_false hmode, if_neg hmode]
      rfl
  have hacted := Core.acted_of_fetch byte h.known hindex hmemory hkind
    (by rw [hpattern]; split <;> simp) (by rw [hact]; exact ⟨h.known, rfl⟩)
  rw [hact] at hacted
  have hpc : c.regs.pc = v.regs.pc ∧ c.regs.i = v.regs.i := by
    rw [h.regs]
    exact ⟨rfl, rfl⟩
  have hwrite : c.cycle.pattern ≠ .write := by rw [hpattern]; split <;> decide
  have hnext : v.op.cycles[0 + 1]? = some ⟨.stackWriteHigh, 3⟩ := rfl
  refine h.next (.of_eq hacted) ?_ ?_ (by omega) ?_ hnext
  · rw [hacted]
    show c.regs.incrementR = _
    rw [h.regs]
    rfl
  · rw [hacted]
    refine ⟨congrArg Word.high hpc.1, congrArg Word.low hpc.1, fun hmode => ?_⟩
    show (if v.op = .intMode2 then _ else _) = _
    rw [if_pos hmode, table, hpc.2]
    congr 1
    refine htakes.elsewhere ?_ hmode
    rw [ActiveCycle.readsElsewhere, hpattern, Core.acknowledging, h.origin, hmode]
    rfl
  · rw [Core.leftBytes, Core.stores_of_reads hwrite]
    exact h.bytes

/-- Two cycles push PC. -/
theorem Enters.push (h : v.Enters 1 c now) (hop : v.op ≠ .haltNop) :
    (c.closed byte).2 = false ∧ v.Enters 2 (c.closed byte).1 (c.leftBytes v.config now) := by
  obtain ⟨-, -, hmemory, hindex, -⟩ := internal_enters hop
  have hkind : c.cycle.kind = .stackWriteHigh := kind_of_here h rfl
  have hpattern : c.cycle.pattern = .write := by rw [h.pattern, hkind]; rfl
  have hacted := Core.acted_of_push byte h.known hindex hpattern (Or.inl hkind)
  rw [Core.act_interrupt (isInterrupt hop), hkind, Core.interruptEntry, if_neg (by decide),
    if_neg (fun hlow => by cases hlow.1), if_neg (by decide)] at hacted
  have hnext : v.op.cycles[1 + 1]? = some ⟨.stackWriteLow, 3⟩ := rfl
  refine h.next (.of_eq hacted) ?_ ?_ (by omega) ?_ hnext
  · rw [hacted]
    show ({ c.regs with sp := c.regs.sp - 1 } : Registers) = _
    rw [h.regs]
    simp [masked, pushed, pushes]
  · rw [hacted]
    exact h.staged (by decide)
  · rw [Core.leftBytes, Core.stores, if_pos hpattern, h.bytes, Core.cycleAddress, hpattern,
      Core.writeByte, hkind, Core.writeAddress, hkind, h.regs, (h.staged (by decide)).1]
    simp [masked, pushed, pushes]

/-- There is no other cycle. -/
theorem Enters.complete (h : v.Enters position c now) (hworks : c.Works (c.acted byte))
    (hlast : v.op.cycles[position + 1]? = none)
    (hregs : ∃ r, (c.acted byte).regs = { v.masked r 2 with pc := v.handler, wz := v.handler })
    (hbytes : c.leftBytes v.config now = v.pushes.foldl v.config.apply v.bytes) :
    (c.closed byte).2 = true ∧ v.Entered (c.closed byte).1.complete (c.leftBytes v.config now) := by
  obtain ⟨-, -, -, -, -, hawake⟩ := hworks.kept
  rw [hworks.closed h.known, h.cycles, h.place, hlast]
  exact ⟨rfl, hawake.trans h.awake, hregs, hbytes⟩

/-- The second cycle of the push ends the operation, unless the handler is in the vector table. -/
theorem Enters.pushLow (h : v.Enters 2 c now) (hop : v.op ≠ .haltNop) :
    (v.op = .intMode2 ∧ (c.closed byte).2 = false
        ∧ v.Enters 3 (c.closed byte).1 (c.leftBytes v.config now))
      ∨ (c.closed byte).2 = true
        ∧ v.Entered (c.closed byte).1.complete (c.leftBytes v.config now) := by
  obtain ⟨hmnemonic, hvectored, hmemory, hindex, -⟩ := internal_enters hop
  have hkind : c.cycle.kind = .stackWriteLow := kind_of_here h rfl
  have hpattern : c.cycle.pattern = .write := by rw [h.pattern, hkind]; rfl
  have hdepth : v.regs.sp - 1 - 1 = v.regs.sp - 2 := by grind
  have hpushed : ({ c.regs with sp := c.regs.sp - 1 } : Registers) = v.masked c.regs.r 2 := by
    rw [h.regs]
    simp [masked, pushed, pushes, hdepth]
  have hbytes : c.leftBytes v.config now = v.pushes.foldl v.config.apply v.bytes := by
    rw [Core.leftBytes, Core.stores, if_pos hpattern, h.bytes, Core.cycleAddress, hpattern,
      Core.writeByte, hkind, Core.writeAddress, hkind, h.regs, (h.staged (by decide)).2.1]
    simp [masked, pushed, pushes, hdepth]
  have hacted := Core.acted_of_push byte h.known hindex hpattern (Or.inr hkind)
  rw [Core.act_interrupt (isInterrupt hop), hkind, Core.interruptEntry, if_neg (by decide)] at hacted
  by_cases hmode : v.op = .intMode2
  · rw [hvectored, decide_eq_true hmode, if_neg (by simp), if_neg (by decide)] at hacted
    have hnext : v.op.cycles[2 + 1]? = some ⟨.memoryReadLow, 3⟩ := by rw [hmode]; rfl
    refine Or.inl ⟨hmode, h.next (.of_eq hacted) ?_ ?_ (by omega) hbytes hnext⟩
    · rw [hacted]
      exact hpushed
    · rw [hacted]
      exact h.staged (by decide)
  · rw [hvectored, decide_eq_false hmode, if_pos (by simp)] at hacted
    have hlast : v.op.cycles[2 + 1]? = none := by
      rw [InternalOp.cycles, if_neg hmode]
      rfl
    have hhandler : v.handler = if (decoder.internal v.op).mnemonic = .nmi then 0x0066 else 0x0038 := by
      rw [handler, if_neg hmode, hmnemonic]
      by_cases hnmi : v.op = .nmi <;> simp [hnmi]
    refine Or.inr (h.complete (.of_eq hacted) hlast ⟨c.regs.r, ?_⟩ hbytes)
    rw [hacted, ← hhandler]
    show ({ ({ c.regs with sp := c.regs.sp - 1 } : Registers) with pc := v.handler, wz := v.handler } : Registers) = _
    rw [hpushed]


/-- The bytes that the operation and the return read, but for those on the stack. -/
def reads (v : Visit) : List Word :=
  [v.handler, v.handler + 1] ++ if v.op = .intMode2 then [v.table, v.table + 1] else []

/-- PC is pushed to memory, away from the handler and from the vector. -/
structure Stacks (v : Visit) : Prop where
  ram : ∀ store ∈ v.pushes, v.config.isRom (v.config.index store.address) = false
  apart : ∀ store ∈ v.pushes, ∀ address ∈ v.reads,
    v.config.index store.address ≠ v.config.index address

/-- Memory with PC on the stack. -/
def stacked (v : Visit) : Array Byte :=
  v.pushes.foldl v.config.apply v.bytes

/-- The push leaves alone what is read. -/
theorem Stacks.byteAt_reads (h : v.Stacks) {address : Word} (hreads : address ∈ v.reads) :
    v.config.byteAt v.stacked address = v.config.byteAt v.bytes address :=
  BoardConfig.byteAt_stores_of_ne fun store hstore => h.apart store hstore address hreads

theorem takes_read (htakes : c.Takes v.config v.Gives now byte) (hpattern : c.cycle.pattern = .read)
    (hmemory : c.cycle.fromDevice = false) : byte = v.config.byteAt now c.readAddress := by
  have hbyte := htakes.memory (by rw [ActiveCycle.readsMemory, hpattern, hmemory]; rfl)
  rw [hbyte, Core.cycleAddress, hpattern]
  rfl

variable (byte) in
/-- A cycle that reads half of the address of the handler. -/
theorem Enters.acted_of_table (h : v.Enters position c now) (hop : v.op ≠ .haltNop)
    (hkind : c.cycle.kind = .memoryReadLow ∨ c.cycle.kind = .memoryReadHigh) :
    c.cycle.pattern = .read
      ∧ c.acted byte = ((c.fetch byte).stow (decoder.internal v.op)).interruptEntry
        (decoder.internal v.op).mnemonic (.after c.cycle.kind)
        ((decoder.internal v.op).hasOperand (.mode 2)) := by
  obtain ⟨-, -, -, hindex, -⟩ := internal_enters hop
  have hpattern : c.cycle.pattern = .read := by
    rw [h.pattern]
    rcases hkind with hkind | hkind <;> rw [hkind] <;> rfl
  have hmoved : c.movePointer = c := by
    rw [Core.movePointer]
    rcases hkind with hkind | hkind <;> rw [hkind]
  have hfetch : c.cycle.kind ≠ .opcodeFetch := by
    rcases hkind with hkind | hkind <;> rw [hkind] <;> decide
  refine ⟨hpattern, ?_⟩
  rw [Core.acted_of_read byte h.known hindex hpattern hfetch, hmoved,
    Core.act_interrupt (isInterrupt hop)]

/-- What it reads is in the vector table, out of the way of the push. -/
theorem Enters.table_byte (h : v.Enters position c now) (hstacks : v.Stacks)
    (hpattern : c.cycle.pattern = .read) (hdeep : v.pushed position = v.pushes)
    (htakes : c.Takes v.config v.Gives now byte) {address : Word}
    (haddress : c.readAddress = address) (hreads : address ∈ v.reads) :
    byte = v.config.byteAt v.bytes address := by
  rw [takes_read htakes hpattern h.memory, haddress, h.bytes, hdeep]
  exact hstacks.byteAt_reads hreads

/-- In mode 2 two more cycles read the address of the handler. -/
theorem Enters.readLow (h : v.Enters 3 c now) (hmode : v.op = .intMode2) (hstacks : v.Stacks)
    (htakes : c.Takes v.config v.Gives now byte) :
    (c.closed byte).2 = false ∧ v.Enters 4 (c.closed byte).1 (c.leftBytes v.config now) := by
  have hop : v.op ≠ .haltNop := by rw [hmode]; decide
  have hkind : c.cycle.kind = .memoryReadLow := kind_of_here h (by rw [hmode]; rfl)
  obtain ⟨hhigh, hlow, haddr⟩ := h.staged (by decide)
  obtain ⟨hpattern, hacted⟩ := h.acted_of_table byte hop (Or.inl hkind)
  have hbyte : byte = v.config.byteAt v.bytes v.table := by
    refine h.table_byte hstacks hpattern rfl htakes ?_ (by simp [reads, hmode])
    rw [Core.readAddress, hkind]
    exact haddr hmode
  rw [hkind, Core.interruptEntry, if_neg (by decide), if_neg (fun hlow => by cases hlow.1),
    if_neg (by decide)] at hacted
  simp only [Core.stow, hkind, Core.fetch] at hacted
  have hnext : v.op.cycles[3 + 1]? = some ⟨.memoryReadHigh, 3⟩ := by rw [hmode]; rfl
  have hread : c.cycle.pattern ≠ .write := by rw [hpattern]; decide
  refine h.next (.of_eq hacted) ?_ ?_ (fun _ => ?_) ?_ hnext
  · rw [hacted]
    exact h.regs
  · rw [hacted]
    exact ⟨hhigh, hlow, haddr⟩
  · rw [hacted]
    exact hbyte
  · rw [Core.leftBytes, Core.stores_of_reads hread]
    exact h.bytes

/-- With the high byte the chip is at the handler. -/
theorem Enters.readHigh (h : v.Enters 4 c now) (hmode : v.op = .intMode2) (hstacks : v.Stacks)
    (htakes : c.Takes v.config v.Gives now byte) :
    (c.closed byte).2 = true
      ∧ v.Entered (c.closed byte).1.complete (c.leftBytes v.config now) := by
  have hop : v.op ≠ .haltNop := by rw [hmode]; decide
  have hkind : c.cycle.kind = .memoryReadHigh := kind_of_here h (by rw [hmode]; rfl)
  obtain ⟨-, -, haddr⟩ := h.staged (by decide)
  obtain ⟨hpattern, hacted⟩ := h.acted_of_table byte hop (Or.inr hkind)
  have hbyte : byte = v.config.byteAt v.bytes (v.table + 1) := by
    refine h.table_byte hstacks hpattern rfl htakes ?_ (by simp [reads, hmode])
    rw [Core.readAddress, hkind]
    exact congrArg (· + 1) (haddr hmode)
  rw [hkind, Core.interruptEntry, if_neg (by decide), if_neg (fun hlow => by cases hlow.1),
    if_pos rfl] at hacted
  simp only [Core.stow, hkind, Core.fetch] at hacted
  have hlast : v.op.cycles[4 + 1]? = none := by rw [hmode]; rfl
  have hread : c.cycle.pattern ≠ .write := by rw [hpattern]; decide
  refine h.complete (.of_eq hacted) hlast ⟨c.regs.r, ?_⟩ ?_
  · have hhandler : Word.ofBytes byte c.latches.dataLow = v.handler := by
      rw [handler, if_pos hmode, hbyte, h.low rfl]
    rw [hacted]
    show ({ c.regs with
      pc := Word.ofBytes byte c.latches.dataLow
      wz := Word.ofBytes byte c.latches.dataLow } : Registers) = _
    rw [hhandler, h.regs]
    rfl
  · rw [Core.leftBytes, Core.stores_of_reads hread]
    exact h.bytes

/-- Every cycle of the operation leads to the next one, or completes it. -/
theorem Enters.cycle (h : v.Enters position c now) (hop : v.op ≠ .haltNop) (hstacks : v.Stacks)
    (htakes : c.Takes v.config v.Gives now byte) :
    ((c.closed byte).2 = false
        ∧ v.Enters (position + 1) (c.closed byte).1 (c.leftBytes v.config now))
      ∨ (c.closed byte).2 = true
        ∧ v.Entered (c.closed byte).1.complete (c.leftBytes v.config now) := by
  have hvectored (hfar : 3 ≤ position) : v.op = .intMode2 := by
    refine Decidable.byContradiction fun hother => ?_
    have hhere := h.here
    have hnone : v.op.cycles[position]? = none := by
      rw [InternalOp.cycles, if_neg hother]
      exact List.getElem?_eq_none hfar
    rw [hnone] at hhere
    cases hhere
  match position, h with
  | 0, h => exact Or.inl (h.fetch hop htakes)
  | 1, h => exact Or.inl (h.push hop)
  | 2, h =>
    rcases h.pushLow hop with ⟨-, hnext⟩ | hlast
    · exact Or.inl hnext
    · exact Or.inr hlast
  | 3, h => exact Or.inl (h.readLow (hvectored (by omega)) hstacks htakes)
  | 4, h => exact Or.inr (h.readHigh (hvectored (by omega)) hstacks htakes)
  | position + 5, h =>
    have hhere := h.here
    rw [hvectored (by omega)] at hhere
    cases hhere

/-- From its first cycle on the operation comes to the handler. -/
theorem Enters.performs {e : Core} {left : Array Byte} (h : v.Enters 0 c v.bytes)
    (hop : v.op ≠ .haltNop) (hstacks : v.Stacks)
    (hperforms : c.Performs v.config v.Gives v.bytes e left) : v.Entered e left := by
  have hamid {d : Core} {now : Array Byte}
      (hadvances : c.Advances v.config v.Gives v.bytes d now) :
      ∃ position, v.Enters position d now := by
    induction hadvances with
    | start => exact ⟨0, h⟩
    | cycle _ takes goes ih =>
      obtain ⟨position, henters⟩ := ih
      rcases henters.cycle hop hstacks takes with ⟨-, hnext⟩ | ⟨hend, -⟩
      · exact ⟨position + 1, hnext⟩
      · cases goes.symm.trans hend
  cases hperforms with
  | ends hadvances takes ends =>
    obtain ⟨position, henters⟩ := hamid hadvances
    rcases henters.cycle hop hstacks takes with ⟨hmore, -⟩ | ⟨-, hentered⟩
    · cases hmore.symm.trans ends
    · exact hentered

end Visit

end Z80Board
