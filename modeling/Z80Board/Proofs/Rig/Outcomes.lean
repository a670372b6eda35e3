import Z80Board.Proofs.Rig.Arrivals

/-! # What an instruction comes to

    Once the opcode is complete the timing of the instruction says which cycles are still to come.  If
    none of them reads from a port, each turns the chip and the bytes of memory into others, and what
    the instruction comes to is a fold over them. -/

namespace Z80Board

namespace CycleKind

/-- Cycles of this kind come behind the opcode, and read nothing but memory. -/
def isPlain (kind : CycleKind) : Bool :=
  kind != .opcodeFetch && kind != .portRead

end CycleKind

namespace Core

variable {config : BoardConfig} {c : Core} {code : Instruction} {cycle : MachineCycle}
  {bytes : Array Byte} {byte : Byte} {t : Nat}

/-! ## One cycle -/

/-- The chip at the start of the cycle that comes next. -/
def enters (c : Core) (cycle : MachineCycle) : Core :=
  c.stepOn.beginCycle cycle.kind cycle.tStates

/-- The chip at the end of the cycle that comes next, and the bytes of memory then. -/
def does (config : BoardConfig) (s : Core × Array Byte) (cycle : MachineCycle) : Core × Array Byte :=
  ((s.1.enters cycle).acted (config.byteAt s.2 ((s.1.enters cycle).cycleAddress.getD 0)),
    (s.1.enters cycle).leftBytes config s.2)

/-- A displacement is still to be read. -/
def Lacks (c : Core) (code : Instruction) : Prop :=
  code.index?.isSome = true ∧ c.displacement = none

/-- A byte that is read for an instruction without its displacement is the displacement. -/
theorem latchResult_of_lacking {x : Index} (hcode : c.instruction = some code)
    (hkind : c.cycle.kind = .operand) (hindex : code.index? = some x)
    (hlacks : c.displacement = none) : c.latchResult = c.placeOperand x := by
  rw [latchResult_of_some hcode, hkind, hindex, hlacks, if_neg (by decide)]

/-- A known instruction acts at the end of a cycle behind its opcode, unless that has read its
    displacement. -/
theorem latchResult_of_known (hcode : c.instruction = some code) (hkind : c.cycle.kind ≠ .opcodeFetch)
    (hacts : c.cycle.kind = .operand → ¬ c.Lacks code) :
    c.latchResult = (c.stow code).act code (.after c.cycle.kind) := by
  have hstow : (c.stow code).instruction = some code := by
    rw [stow_eq]
    exact hcode
  have hact : (c.stow code).execute (.after c.cycle.kind)
      = (c.stow code).act code (.after c.cycle.kind) := by
    simp only [execute, hstow]
    rfl
  rw [latchResult_of_some hcode, if_neg hkind, ← hact]
  cases hindex : code.index? with
  | none => rfl
  | some x =>
    cases hdisplacement : c.displacement with
    | some d => rfl
    | none =>
      have hother : c.cycle.kind ≠ .operand := fun hoperand =>
        hacts hoperand ⟨by rw [hindex]; rfl, hdisplacement⟩
      cases hcase : c.cycle.kind <;> first | rfl | exact absurd hcase hother

/-- At the end of such a cycle the instruction goes on as it was. -/
structure Keeps (c d : Core) : Prop where
  pace : d.pace = c.pace
  origin : d.origin = c.origin
  position : d.position = c.position
  cycle : d.cycle = c.cycle
  halted : d.halted = c.halted

theorem Keeps.trans {d e : Core} (h : c.Keeps d) (h' : d.Keeps e) : c.Keeps e :=
  ⟨h'.pace.trans h.pace, h'.origin.trans h.origin, h'.position.trans h.position,
    h'.cycle.trans h.cycle, h'.halted.trans h.halted⟩

/-- A plain cycle reads or writes memory, writes to a port, or uses no bus. -/
theorem busPattern_of_plain {kind : CycleKind} (h : kind.isPlain = true) (c : Core) :
    c.busPattern kind ∈ [.read, .write, .portWrite, .internal] := by
  cases kind <;> rw [busPattern] <;> first
    | decide
    | cases h

/-- What a plain cycle takes in does not touch the course of the instruction. -/
theorem keeps_played (hplain : c.cycle.kind.isPlain = true)
    (hpattern : c.cycle.pattern = c.busPattern c.cycle.kind) (byte : Byte) :
    c.Keeps (c.played byte) := by
  have hmoved : c.Keeps (c.movePointer.fetch byte) := by
    rw [movePointer_eq]
    exact ⟨rfl, rfl, rfl, rfl, rfl⟩
  have hpushed : c.Keeps c.pushPointer := by
    rw [pushPointer]
    split <;> exact ⟨rfl, rfl, rfl, rfl, rfl⟩
  have hreads := busPattern_of_plain hplain c
  rw [← hpattern] at hreads
  rw [played_eq, takeIn]
  simp only [List.mem_cons, List.not_mem_nil, or_false] at hreads
  rcases hreads with hread | hread | hread | hread <;> rw [hread]
  · exact hmoved
  · exact hpushed
  · exact ⟨rfl, rfl, rfl, rfl, rfl⟩
  · exact ⟨rfl, rfl, rfl, rfl, rfl⟩

/-- Neither does what it latches, as long as the instruction does not repeat. -/
theorem keeps_latchResult (hcode : c.instruction = some code) (hkind : c.cycle.kind ≠ .opcodeFetch)
    (honce : code.mnemonic.repeats = false) : c.Keeps c.latchResult := by
  by_cases hlacks : c.cycle.kind = .operand ∧ c.Lacks code
  · obtain ⟨hoperand, hindex, hdisplacement⟩ := hlacks
    obtain ⟨x, hx⟩ := Option.isSome_iff_exists.mp hindex
    rw [latchResult_of_lacking hcode hoperand hx hdisplacement]
    exact ⟨rfl, rfl, rfl, rfl, rfl⟩
  · have hstow : c.Keeps (c.stow code) := by
      rw [stow_eq]
      exact ⟨rfl, rfl, rfl, rfl, rfl⟩
    have hsome : (c.stow code).instruction = some code := by
      rw [stow_eq]
      exact hcode
    rw [latchResult_of_known hcode hkind fun hoperand hlack => hlacks ⟨hoperand, hlack⟩]
    refine hstow.trans ?_
    have hacts := acts_act (c.stow code) code (.after c.cycle.kind)
    have hcontrol : (c.stow code).act code (.after c.cycle.kind)
        = ((c.stow code).act code (.after c.cycle.kind)).under (c.stow code) := by
      rw [← act_under, under_self]
    refine ⟨?_, ?_, ?_, ?_, ?_⟩
    · rcases hacts.pace with hsame | ⟨hdecoded | ⟨hagain, -⟩, -⟩
      · exact hsame
      · cases hdecoded
      · cases honce.symm.trans hagain
    · rw [hcontrol]
      rfl
    · rw [hcontrol]
      rfl
    · rw [hcontrol]
      rfl
    · have hshadow := hacts.shadow
      have hnone : leaveBehind code.mnemonic (.after c.cycle.kind) (c.stow code).shadow
          = (c.stow code).shadow := by
        cases code.mnemonic <;> rfl
      rw [hnone] at hshadow
      exact congrArg (·.2.1) hshadow

/-- A plain cycle reads nothing from elsewhere, unless a device gives the operand. -/
theorem readsElsewhere_enters (hplain : cycle.kind.isPlain = true)
    (hdevice : (decide (c.origin = .device) && cycle.kind.isOperandRead) = false) :
    (c.enters cycle).cycle.readsElsewhere = false := by
  obtain ⟨kind, t⟩ := cycle
  cases kind <;> first
    | rfl
    | exact hdevice
    | cases hplain

theorem keeps_acted (hcode : c.instruction = some code) (hplain : c.cycle.kind.isPlain = true)
    (hpattern : c.cycle.pattern = c.busPattern c.cycle.kind) (honce : code.mnemonic.repeats = false)
    (byte : Byte) : c.Keeps (c.acted byte) := by
  have hplayed := keeps_played hplain hpattern byte
  refine hplayed.trans (keeps_latchResult ((instruction_of_pace hplayed.pace).trans hcode) ?_ honce)
  rw [hplayed.cycle]
  intro hfetch
  rw [hfetch] at hplain
  cases hplain

end Core

namespace Scene

variable {w : Surroundings} {s : Scene} {c : Core} {code : Instruction} {cycle : MachineCycle}
  {rest : List MachineCycle} {length : Nat}

/-- The instruction has these cycles still to come. -/
structure Awaits (code : Instruction) (rest : List MachineCycle) (c : Core) : Prop where
  known : c.instruction = some code
  once : code.mnemonic.repeats = false
  ahead : c.cycles.drop (c.position + 1) = rest
  plain : ∀ cycle ∈ rest, cycle.kind.isPlain = true
    ∧ (decide (c.origin = .device) && cycle.kind.isOperandRead) = false

namespace Awaits

/-- With none to come, the instruction is over. -/
theorem closed_nil (h : Awaits code [] c) (hacted : s.core.acted (s.byte w) = c) :
    s.core.closed (s.byte w) = (c.stepOn, true) := by
  have hlast : c.cycles[c.position + 1]? = none :=
    List.getElem?_eq_none (List.drop_eq_nil_iff.mp h.ahead)
  show (s.core.acted (s.byte w)).nextCycle = _
  rw [hacted, Core.nextCycle_of_some h.known, hlast]

/-- Otherwise the chip enters the first one. -/
theorem closed_cons (h : Awaits code (cycle :: rest) c) (hacted : s.core.acted (s.byte w) = c) :
    s.core.closed (s.byte w) = (c.enters cycle, false) := by
  have hnext : c.cycles[c.position + 1]? = some cycle := by
    have hhead := congrArg List.head? h.ahead
    rw [List.head?_drop] at hhead
    exact hhead
  show (s.core.acted (s.byte w)).nextCycle = _
  rw [hacted, Core.nextCycle_of_some h.known, hnext]
  rfl

theorem pattern_enters :
    (c.enters cycle).cycle.pattern = (c.enters cycle).busPattern (c.enters cycle).cycle.kind :=
  (Core.posed_beginCycle c.stepOn cycle.kind cycle.tStates).pattern

/-- Whatever byte that one takes in, the instruction goes on as it was. -/
theorem keeps (h : Awaits code (cycle :: rest) c) (byte : Byte) :
    (c.enters cycle).Keeps ((c.enters cycle).acted byte) :=
  Core.keeps_acted (c := c.enters cycle) h.known (h.plain cycle (List.mem_cons_self ..)).1
    pattern_enters h.once byte

/-- It reads nothing from elsewhere. -/
theorem own (h : Awaits code (cycle :: rest) c) : (c.enters cycle).cycle.readsElsewhere = false :=
  Core.readsElsewhere_enters (h.plain cycle (List.mem_cons_self ..)).1
    (h.plain cycle (List.mem_cons_self ..)).2

/-- So at its end the chip has done the cycle, on what is in memory. -/
theorem acted_eq (h : Awaits code (cycle :: rest) c) (hcore : s.core = c.enters cycle) :
    s.core.acted (s.byte w) = (Core.does w.config (c, s.bytes) cycle).1 := by
  rw [byte, hcore]
  split
  · rfl
  · next hmemory =>
    exact congrArg Core.latchResult (Core.played_of_unread (Bool.eq_false_iff.mpr hmemory) h.own)

/-- The others are then still to come. -/
theorem does (h : Awaits code (cycle :: rest) c) (config : BoardConfig) (bytes : Array Byte) :
    Awaits code rest (Core.does config (c, bytes) cycle).1 := by
  have hsame := h.keeps (config.byteAt bytes ((c.enters cycle).cycleAddress.getD 0))
  have hposition : (Core.does config (c, bytes) cycle).1.position = c.position + 1 := hsame.position
  have hcycles : (Core.does config (c, bytes) cycle).1.cycles = c.cycles :=
    Core.cycles_of_pace hsame.pace
  have horigin : (Core.does config (c, bytes) cycle).1.origin = c.origin := hsame.origin
  refine ⟨(Core.instruction_of_pace hsame.pace).trans h.known, h.once, ?_, fun later hmem => ?_⟩
  · rw [hposition, hcycles, ← List.tail_drop, h.ahead]
    rfl
  · rw [horigin]
    exact h.plain later (List.mem_cons_of_mem _ hmem)

/-- It takes as long as it is planned to, since it is no acknowledge. -/
theorem span_eq (h : Awaits code (cycle :: rest) c) (hcore : s.core = c.enters cycle) :
    s.span w = 2 * cycle.tStates := by
  have hlength : (s.core.acted (s.byte w)).cycle.length = cycle.tStates := by
    rw [hcore]
    exact congrArg ActiveCycle.length (h.keeps _).cycle
  have hbus := Core.busPattern_of_plain (h.plain cycle (List.mem_cons_self ..)).1 (c.enters cycle)
  rw [Scene.span_eq, hlength]
  rw [hcore, pattern_enters]
  intro hack
  rw [show (c.enters cycle).cycle.kind = cycle.kind from rfl] at hack
  rw [hack] at hbus
  revert hbus
  decide

/-- The cycles that are still to come lead to what their fold comes to. -/
theorem spells (h : Awaits code rest c) (hacted : s.core.acted (s.byte w) = c)
    (hown : s.core.cycle.readsElsewhere = false) (hspan : s.span w = 2 * length) :
    s.Spells w (⟨s.core.cycle.kind, length⟩ :: rest)
      (rest.foldl (Core.does w.config) (c, (s.next w).bytes)).1.stepOn
      (rest.foldl (Core.does w.config) (c, (s.next w).bytes)).2 := by
  induction rest generalizing s c length with
  | nil =>
    have hclosed := h.closed_nil hacted
    have hends : s.Spells w [⟨s.core.cycle.kind, length⟩] (s.next w).core (s.next w).bytes :=
      .ends hown rfl hspan (by rw [ends, hclosed])
    rw [show (s.next w).core = c.stepOn by rw [next, hclosed]] at hends
    exact hends
  | cons cycle rest ih =>
    have hclosed := h.closed_cons hacted
    have hcore : (s.next w).core = c.enters cycle := by rw [next, hclosed]
    have hlater := ih (s := s.next w) (h.does w.config (s.next w).bytes) (h.acted_eq hcore)
      (by rw [hcore]; exact h.own) (h.span_eq hcore)
    have hbytes : ((s.next w).next w).bytes = (Core.does w.config (c, (s.next w).bytes) cycle).2 := by
      rw [next, hcore]
      rfl
    rw [hbytes, hcore] at hlater
    exact .goes hown rfl hspan (by rw [ends, hclosed]) hlater

end Awaits

end Scene

namespace Core

variable {config : BoardConfig} {c : Core} {code : Instruction} {page : Page} {bytes : Array Byte}

/-! ## The whole instruction -/

/-- An instruction of the tables that is taken up has one of its two timings before it. -/
theorem beginExecution_course (hentitled : Listing.Entitled Catalog.forms page code)
    (hplace : c.position = page.approach.length) :
    (c.beginExecution code).instruction = some code
      ∧ (c.beginExecution code).cycles = code.timing.cycles (c.beginExecution code).conditionMet
      ∧ (c.beginExecution code).position = c.position ∧ (c.beginExecution code).origin = c.origin
      ∧ code.timing.cycles (c.beginExecution code).conditionMet = page.approach
        ++ ⟨.opcodeFetch, (c.beginExecution code).cycle.length⟩
          :: (code.timing.cycles (c.beginExecution code).conditionMet).drop
            (page.approach.length + 1) := by
  have htaken := instruction_takeUp c code
  obtain ⟨hknown, hcycles⟩ := (turns_execute (c.takeUp code) htaken .decoded).cycles htaken
    (cycles_takeUp c code)
  have hcontrol : (c.takeUp code).execute .decoded = ((c.takeUp code).execute .decoded).under c := by
    rw [control_execute, control_takeUp]
    rfl
  have hposition : ((c.takeUp code).execute .decoded).position = c.position := by
    rw [hcontrol]
    rfl
  obtain ⟨length, hopening⟩ := hentitled.scheduled.leads.opening
  obtain ⟨rest, hrest, -⟩ := hopening ((c.takeUp code).execute .decoded).conditionMet
  have hlength : (c.beginExecution code).cycle.length = length := by
    show ((c.takeUp code).execute .decoded).templateLength = length
    rw [templateLength]
    rw [hcycles, hposition, hplace, hrest, List.getElem?_append_right (Nat.le_refl _), Nat.sub_self]
    rfl
  refine ⟨hknown, hcycles, hposition, ?_, ?_⟩
  · show ((c.takeUp code).execute .decoded).origin = c.origin
    rw [hcontrol]
    rfl
  · show code.timing.cycles ((c.takeUp code).execute .decoded).conditionMet = _
    have hdrop : (page.approach ++ ⟨.opcodeFetch, length⟩ :: rest).drop (page.approach.length + 1)
        = rest := by simp
    rw [hlength]
    show _ = _ ++ _ :: (code.timing.cycles
      ((c.takeUp code).execute .decoded).conditionMet).drop (page.approach.length + 1)
    rw [hrest, hdrop]

end Core

namespace Instruction

variable {code : Instruction} {page : Page} {tail : Bool → List MachineCycle}

/-- Behind its opcode the instruction has these cycles, which read nothing but memory. -/
structure Tails (code : Instruction) (page : Page) (tail : Bool → List MachineCycle) : Prop where
  entitled : Listing.Entitled Catalog.forms page code
  once : code.mnemonic.repeats = false
  cycles : ∀ met, (code.timing.cycles met).drop (page.approach.length + 1) = tail met
  plain : ∀ met, ∀ cycle ∈ tail met, cycle.kind.isPlain = true

end Instruction

namespace Scene

variable {w : Surroundings} {s t : Scene} {c k : Core} {code : Instruction} {page : Page}
  {bytes : Array Byte} {count : Nat} {opcode : Byte} {tail : Bool → List MachineCycle}

/-- What an instruction with this tail comes to, taken up by the chip `c` over these bytes. -/
def outcome (config : BoardConfig) (code : Instruction) (tail : Bool → List MachineCycle) (c : Core)
    (bytes : Array Byte) : Core × Array Byte :=
  (tail (c.beginExecution code).conditionMet).foldl (Core.does config) (c.beginExecution code, bytes)

/-- From the end of its opcode on the instruction runs its tail. -/
theorem Arrives.spells (h : Arrives w k bytes count page opcode t c)
    (htails : (decode page opcode).Tails page tail) :
    t.Spells w (⟨.opcodeFetch, (c.beginExecution (decode page opcode)).cycle.length⟩
        :: tail (c.beginExecution (decode page opcode)).conditionMet)
      (outcome w.config (decode page opcode) tail c bytes).1.stepOn
      (outcome w.config (decode page opcode) tail c bytes).2 := by
  obtain ⟨hknown, hcycles, hposition, horigin, -⟩ :=
    Core.beginExecution_course htails.entitled h.place
  obtain ⟨-, hdevice⟩ := Core.origin_of_fromMemory h.origin
  have hawaits : Awaits (decode page opcode)
      (tail (c.beginExecution (decode page opcode)).conditionMet)
      (c.beginExecution (decode page opcode)) := by
    refine ⟨hknown, htails.once, ?_, fun cycle hmem => ⟨htails.plain _ cycle hmem, ?_⟩⟩
    · rw [hcycles, hposition, h.place, htails.cycles]
    · rw [horigin, decide_eq_false hdevice, Bool.false_and]
  have hfetch : t.core.cycle.pattern ≠ .acknowledge ∧ t.core.cycle.pattern ≠ .write := by
    rcases h.reads with hpattern | hpattern <;> rw [hpattern] <;> decide
  have hspan : t.span w = 2 * (c.beginExecution (decode page opcode)).cycle.length := by
    rw [span_eq hfetch.1, h.acted]
  have hspells := hawaits.spells h.acted h.own hspan
  rw [bytes_next hfetch.2, h.same, h.kind] at hspells
  exact hspells

end Scene

/-- Nothing but memory answers the chip. -/
def BoardConfig.alone (config : BoardConfig) : Surroundings :=
  { config, reply := fun _ => 0, answer := [] }

/-! ## Cycle by cycle

    What a plain cycle comes to depends on the registers and the latches alone. -/

namespace CycleKind

/-- What a cycle of this kind does to the pointers. -/
def move (kind : CycleKind) (regs : Registers) : Registers :=
  match kind with
  | .operand | .operandLow | .operandHigh => { regs with pc := regs.pc + 1 }
  | .stackReadLow | .stackReadHigh => { regs with sp := regs.sp + 1 }
  | .stackWriteHigh | .stackWriteLow => { regs with sp := regs.sp - 1 }
  | _ => regs

/-- The address that it uses. -/
def address (kind : CycleKind) (regs : Registers) (latches : Latches) : Word :=
  match kind with
  | .memoryReadHigh | .memoryWriteHigh => latches.addr + 1
  | .stackReadLow | .stackReadHigh => regs.sp
  | .stackWriteHigh | .stackWriteLow => regs.sp - 1
  | .operand | .operandLow | .operandHigh => regs.pc
  | _ => latches.addr

/-- Where the byte goes that it reads.  An address is latched too if it is complete. -/
def latch (kind : CycleKind) (absolute : Bool) (byte : Byte) (latches : Latches) : Latches :=
  match kind with
  | .operand | .operandLow => { latches with fetched := byte, immLow := byte }
  | .operandHigh => { latches with
      fetched := byte
      immHigh := byte
      addr := if absolute then Word.ofBytes byte latches.immLow else latches.addr }
  | .memoryRead | .memoryReadLow | .stackReadLow => { latches with fetched := byte, dataLow := byte }
  | .memoryReadHigh | .stackReadHigh => { latches with fetched := byte, dataHigh := byte }
  | _ => latches

/-- What it stores. -/
def stores (kind : CycleKind) (regs : Registers) (latches : Latches) : List Store :=
  match kind with
  | .memoryWrite | .memoryWriteLow | .stackWriteLow =>
    [⟨kind.address regs latches, latches.outLow⟩]
  | .memoryWriteHigh | .stackWriteHigh => [⟨kind.address regs latches, latches.outHigh⟩]
  | _ => []

end CycleKind

namespace Core

variable {config : BoardConfig} {c e : Core} {code : Instruction} {bytes : Array Byte} {t : Nat}
  {kind : CycleKind} {met : Bool} {regs regs' : Registers} {latches latches' : Latches} {x : Index}

/-- The chip runs the instruction from memory, with these registers and latches. -/
structure Stands (code : Instruction) (met : Bool) (regs : Registers) (latches : Latches) (c : Core) :
    Prop where
  known : c.instruction = some code
  met : c.conditionMet = met
  origin : c.fromMemory = true
  awake : c.halted = false
  regs : c.regs = regs
  latches : c.latches = latches

theorem Stands.of_eq (h : c.Stands code met regs latches)
    (he : e = { c with regs := regs', latches := latches' }) : e.Stands code met regs' latches' := by
  subst he
  exact ⟨h.known, h.met, h.origin, h.awake, rfl, rfl⟩

/-- What a plain cycle reads goes to its latch. -/
theorem Stands.played (h : c.Stands code met regs latches) (hplain : kind.isPlain = true)
    (hport : kind ≠ .portWrite) (byte : Byte) :
    (((c.enters ⟨kind, t⟩).played byte).stow code).Stands code met (kind.move regs)
      (kind.latch (code.hasOperand .absolute) byte latches) := by
  obtain ⟨known, met, origin, awake, rfl, rfl⟩ := h
  have hpc : (c.enters ⟨kind, t⟩).advancePc
      = { c.enters ⟨kind, t⟩ with regs.pc := c.regs.pc + 1 } := if_pos origin
  rw [played_eq]
  cases kind
  case opcodeFetch | portRead => cases hplain
  case portWrite => exact absurd rfl hport
  case operand | operandLow =>
    have hmoves := congrArg (fun c : Core => (c.fetch byte).stow code) hpc
    exact Stands.of_eq (c := c.enters _) ⟨known, met, origin, awake, rfl, rfl⟩ hmoves
  case operandHigh =>
    have hmoves := congrArg (fun c : Core => (c.fetch byte).stow code) hpc
    have hstow : ({ c.enters ⟨.operandHigh, t⟩ with
          regs.pc := c.regs.pc + 1, latches.fetched := byte } : Core).stow code
        = { c.enters ⟨.operandHigh, t⟩ with
            regs.pc := c.regs.pc + 1
            latches := CycleKind.latch .operandHigh (code.hasOperand .absolute) byte c.latches } := by
      rw [stow]
      dsimp only [CycleKind.latch]
      cases code.hasOperand .absolute <;> rfl
    exact Stands.of_eq (c := c.enters _) ⟨known, met, origin, awake, rfl, rfl⟩ (hmoves.trans hstow)
  all_goals exact Stands.of_eq (c := c.enters _) ⟨known, met, origin, awake, rfl, rfl⟩ rfl

/-- At the end of a plain cycle the instruction acts, and memory has what the cycle stores. -/
theorem Stands.does (h : c.Stands code met regs latches) (config : BoardConfig) (bytes : Array Byte)
    (t : Nat) (kind : CycleKind) (hplain : kind.isPlain = true) (hport : kind ≠ .portWrite)
    (hacts : kind = .operand → code.index? = none) :
    ∃ d : Core, d.Stands code met (kind.move regs) (kind.latch (code.hasOperand .absolute)
          (config.byteAt bytes (kind.address regs latches)) latches)
      ∧ Core.does config (c, bytes) ⟨kind, t⟩
        = (d.act code (.after kind), (kind.stores regs latches).foldl config.apply bytes) := by
  obtain ⟨byte, hbyte⟩ : ∃ byte,
      config.byteAt bytes ((c.enters ⟨kind, t⟩).cycleAddress.getD 0) = byte := ⟨_, rfl⟩
  have hkept := keeps_played (c := c.enters ⟨kind, t⟩) hplain rfl byte
  have hkind : ((c.enters ⟨kind, t⟩).played byte).cycle.kind = kind :=
    congrArg ActiveCycle.kind hkept.cycle
  have hknown := (instruction_of_pace hkept.pace).trans h.known
  have hstands := h.played (t := t) hplain hport byte
  have hlatched := latchResult_of_known hknown
    (by rw [hkind]; rintro rfl; cases hplain)
    (by
      rintro hoperand ⟨hindex, -⟩
      rw [hacts (hkind.symm.trans hoperand)] at hindex
      cases hindex)
  rw [hkind] at hlatched
  have hlatch : kind.latch (code.hasOperand .absolute) byte latches
      = kind.latch (code.hasOperand .absolute)
        (config.byteAt bytes (kind.address regs latches)) latches := by
    obtain ⟨-, -, -, -, rfl, rfl⟩ := h
    subst hbyte
    cases kind <;> rfl
  have hstores : (c.enters ⟨kind, t⟩).stores = kind.stores regs latches := by
    obtain ⟨-, -, -, -, rfl, rfl⟩ := h
    cases kind <;> first
      | rfl
      | cases hplain
  rw [hlatch] at hstands
  refine ⟨_, hstands, Prod.ext ?_ (congrArg (List.foldl config.apply bytes) hstores)⟩
  rw [← hlatched, ← hbyte]
  rfl


theorem Stands.fitLength (h : c.Stands code met regs latches) :
    c.fitLength.Stands code met regs latches :=
  ⟨h.known, h.met, h.origin, h.awake, h.regs, h.latches⟩

theorem Stands.takeAlternate (h : c.Stands code met regs latches) (taken : Bool) :
    (c.takeAlternate taken).Stands code taken regs latches :=
  ⟨h.known, rfl, h.origin, h.awake, h.regs, h.latches⟩

/-- The displacement of an instruction that has none yet addresses its memory. -/
theorem Stands.places (h : c.Stands code met regs latches) (config : BoardConfig)
    (bytes : Array Byte) (t : Nat) (hindex : code.index? = some x) (hlacks : c.displacement = none) :
    ∃ d : Core, ∃ latches', Core.does config (c, bytes) ⟨.operand, t⟩ = (d, bytes)
      ∧ latches'.addr = regs.reg16 x.pair + Word.ofDisplacement (config.byteAt bytes regs.pc)
      ∧ d.Stands code met
        { regs with pc := regs.pc + 1, wz := latches'.addr } latches' := by
  obtain ⟨known, met, origin, awake, rfl, rfl⟩ := h
  have hpc : (c.enters ⟨.operand, t⟩).advancePc
      = { c.enters ⟨.operand, t⟩ with regs.pc := c.regs.pc + 1 } := if_pos origin
  have hplayed : (c.enters ⟨.operand, t⟩).played (config.byteAt bytes c.regs.pc)
      = (c.enters ⟨.operand, t⟩).advancePc.fetch (config.byteAt bytes c.regs.pc) := by
    rw [played_eq]
    rfl
  have hacted : (c.enters ⟨.operand, t⟩).acted (config.byteAt bytes c.regs.pc)
      = ((c.enters ⟨.operand, t⟩).advancePc.fetch (config.byteAt bytes c.regs.pc)).placeOperand x := by
    rw [acted, hplayed]
    refine latchResult_of_lacking ?_ ?_ hindex ?_ <;> rw [hpc]
    · exact known
    · rfl
    · exact hlacks
  refine ⟨_, { c.latches with
      fetched := config.byteAt bytes c.regs.pc
      addr := c.regs.reg16 x.pair + Word.ofDisplacement (config.byteAt bytes c.regs.pc) },
    Prod.ext hacted rfl, rfl, ?_⟩
  rw [hpc]
  cases x <;> exact ⟨known, met, origin, awake, rfl, rfl⟩

/-- An instruction begins with its act at decode, its memory operand being addressed. -/
theorem beginExecution_acts (h : (c.takeUp code).Stands code met regs latches) :
    c.beginExecution code
      = (((c.takeUp code).addressOperand code).act code .decoded).fitLength := by
  rw [beginExecution_eq, execute, h.known]
  rfl

/-- Memory at HL is addressed at decode. -/
theorem Stands.addressOperand_hl (h : c.Stands code met regs latches)
    (hoperand : code.memoryOperand? = some (.indirect .hl)) :
    (c.addressOperand code).Stands code met regs { latches with addr := regs.hl } := by
  obtain ⟨known, met, origin, awake, rfl, rfl⟩ := h
  rw [addressOperand, hoperand]
  exact ⟨known, met, origin, awake, rfl, rfl⟩

end Core

namespace Scene.TakesUp

variable {config : BoardConfig} {bytes : Array Byte} {count : Nat} {page : Page} {k c : Core}
  {code : Instruction} {x : Index}

/-- Without a displacement in front of the opcode the instruction stands in for nothing but itself. -/
theorem stands (h : Scene.TakesUp config bytes count page k c) (code : Instruction)
    (hawake : k.halted = false) (hplain : page.displaced = false) :
    (c.takeUp code).Stands code false c.regs c.latches := by
  have hnone := h.displacement
  rw [hplain] at hnone
  have htaken : c.takeUp code = { c with
      instruction := some code, cycles := code.timing.primary.cycles, conditionMet := false } := by
    rw [Core.takeUp, Core.placeDisplacement]
    dsimp only
    rw [show c.displacement = none from hnone]
    cases code.index? <;> rfl
  rw [htaken]
  exact ⟨rfl, rfl, h.origin, h.halted.trans hawake, rfl, rfl⟩

/-- A displacement in front of the opcode addresses memory at once. -/
theorem stands_displaced (h : Scene.TakesUp config bytes count page k c) (hawake : k.halted = false)
    (hdisplaced : page.displaced = true) (hindex : code.index? = some x) :
    ∃ latches, latches.addr = c.regs.reg16 x.pair
        + Word.ofDisplacement (config.byteAt bytes (k.regs.pc + (count + 2).toUInt16))
      ∧ (c.takeUp code).Stands code false { c.regs with wz := latches.addr } latches := by
  have hsome := h.displacement
  rw [if_pos hdisplaced] at hsome
  refine ⟨{ c.latches with addr := c.regs.reg16 x.pair + _ }, rfl, ?_⟩
  have htaken : c.takeUp code = ({ c with
      instruction := some code, cycles := code.timing.primary.cycles, conditionMet := false }
        : Core).setIndexedAddress x (config.byteAt bytes (k.regs.pc + (count + 2).toUInt16)) := by
    rw [Core.takeUp, Core.placeDisplacement]
    dsimp only
    rw [hsome, hindex]
  rw [htaken]
  exact ⟨rfl, rfl, h.origin, h.halted.trans hawake, rfl, rfl⟩

end Scene.TakesUp

/-! ## What the machine yields -/

namespace Core

variable {config : BoardConfig} {k p : Core} {bytes left : Array Byte} {count : Nat} {page : Page}
  {opcode : Byte} {tail : Bool → List MachineCycle}

/-- The chip is about to fetch the first byte of an instruction from memory. -/
structure Embarks (k : Core) : Prop extends k.Fetches .main 0 where
  fresh : k.displacement = none
  awake : k.halted = false

/-- The instruction that begins with the chip `k` over these bytes runs these cycles, reads nothing but
    memory, and leads to these registers over the bytes that are left. -/
def Comes (config : BoardConfig) (k : Core) (bytes : Array Byte) (cycles : List MachineCycle)
    (regs : Registers) (left : Array Byte) : Prop :=
  ∃ p, Scene.Spells config.alone ⟨k, bytes, 0⟩ cycles p left ∧ p.regs = regs ∧ p.halted = false

/-- An instruction of which none of the cycles reads from a port comes to its outcome, which it takes
    from the registers, its displacement and the bytes of memory. -/
theorem Embarks.comes (h : k.Embarks)
    (hscans : Scans (config.byteAt bytes) k.regs.pc count page opcode)
    (htails : (decode page opcode).Tails page tail) :
    ∃ c, Scene.TakesUp config bytes count page k c
      ∧ ∀ {d met regs latches left}, d.Stands (decode page opcode) met regs latches →
        (tail (c.beginExecution (decode page opcode)).conditionMet).foldl (does config)
          (c.beginExecution (decode page opcode), bytes) = (d, left) →
        k.Comes config bytes (List.replicate count ⟨.opcodeFetch, 4⟩
          ++ (decode page opcode).timing.cycles (c.beginExecution (decode page opcode)).conditionMet)
          regs left := by
  have henters : Scene.Enters config.alone ⟨k, bytes, 0⟩ .main 0 :=
    ⟨h.toFetches, Or.inl ⟨rfl, rfl⟩⟩
  obtain ⟨t, c, harrives, hspells⟩ := henters.arrives h.fresh rfl rfl hscans
  refine ⟨c, harrives.toTakesUp, fun {d met regs latches left} hstands hfold => ?_⟩
  obtain ⟨-, -, -, -, hcycles⟩ := beginExecution_course htails.entitled harrives.place
  have hlater := hspells (harrives.spells htails)
  rw [← htails.cycles, ← hcycles, Scene.outcome] at hlater
  rw [show config.alone.config = config from rfl, hfold] at hlater
  exact ⟨_, hlater, hstands.regs, hstands.awake⟩

end Core

section

variable {config : BoardConfig} {m : Machine} {b : Board} {level : Level} {k : Core}
  {cycles : List MachineCycle} {regs : Registers} {bytes : Array Byte}

/-- So does an instruction from memory on a board. -/
theorem Attended.embarks (h : Attended config b) (hopens : b.Opens level k) : k.Embarks :=
  ⟨hopens.fetches h.orderly, h.undisplaced hopens, h.awake_opens hopens⟩

/-- The instruction that begins with the chip `k` leaves these registers and these bytes, however it is
    held up, and on a machine that is left alone it runs these cycles to their end. -/
structure Machine.Yields (config : BoardConfig) (m : Machine) (k : Core) (cycles : List MachineCycle)
    (regs : Registers) (bytes : Array Byte) : Prop where
  leaves : m.board.Leaves m.clock.level.flip regs bytes
  plays : k.nmiPending = false → m.Calm (2 * Timing.sum cycles) →
    ∃ p, m.Plays config cycles p bytes ∧ p.regs = regs ∧ p.halted = false

/-- It yields what the instruction comes to. -/
theorem Attended.yields (h : Attended config m.board) (hopens : m.board.Opens m.clock.level.flip k)
    (hcomes : k.Comes config m.memory.bytes cycles regs bytes) :
    m.Yields config k cycles regs bytes := by
  obtain ⟨p, hspells, rfl, hawake⟩ := hcomes
  refine ⟨hopens.leaves h.orderly hspells, fun hnmi hcalm => ?_⟩
  have hplays := Machine.plays_spelled hopens h.orderly hspells hnmi hcalm
  exact ⟨_, hplays, rfl, hawake⟩

end

end Z80Board
