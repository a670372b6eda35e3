import Z80Board.Proofs.Rig.Gist
import Z80Board.Proofs.Rig.Reading

/-! # A cycle at a time

    What an instruction comes to depends on waits, bus grants and the pins as little as on the edges
    that it takes.  A board plays a cycle: the chip has come to its start over some bytes of memory,
    and has run a number of its half-periods.  An edge goes on with the cycle or ends it, and at its end
    the chip and memory are functions of what they were at its start and of the byte that the cycle has
    read.  That byte is the one in memory, unless it comes from elsewhere. -/

namespace Z80Board

/-- The cycle reads a byte that does not come from memory. -/
def ActiveCycle.readsElsewhere (cycle : ActiveCycle) : Bool :=
  match cycle.pattern with
  | .fetch | .opcodeRead | .read => cycle.fromDevice
  | .acknowledge | .portRead => true
  | _ => false

namespace Core

variable {c d k : Core} {code : Instruction} {byte byte' : Byte} {half : Nat}

theorem readsElsewhere_of_use (h : c.use = d.use) :
    c.cycle.readsElsewhere = d.cycle.readsElsewhere := by
  rw [ActiveCycle.readsElsewhere, pattern_of_use h, fromDevice_of_use h]
  rfl

/-! ## Through a cycle -/

/-- A chip at the start of a cycle, when so many half-periods of it have been run on a byte. -/
def through (c : Core) (byte : Byte) : Nat → Core
  | 0 => c
  | half + 1 => (c.through byte half).effect half byte

/-- The chip when the cycle is over, but for its end. -/
def played (c : Core) (byte : Byte) : Core :=
  (c.effect 0 byte).effect c.cycle.pattern.sampleHalf byte

theorem pattern_effect (half : Nat) (byte : Byte) :
    (c.effect half byte).cycle.pattern = c.cycle.pattern :=
  pattern_of_use (c.use_effect half byte)

theorem use_through (c : Core) (byte : Byte) (half : Nat) : (c.through byte half).use = c.use := by
  induction half with
  | zero => rfl
  | succ half ih => exact (Core.use_effect _ half byte).trans ih

theorem pattern_through (half : Nat) : (c.through byte half).cycle.pattern = c.cycle.pattern := by
  induction half with
  | zero => rfl
  | succ half ih => exact (pattern_effect half byte).trans ih

theorem use_played (c : Core) (byte : Byte) : (c.played byte).use = c.use :=
  (use_effect _ _ _).trans (use_effect _ _ _)

theorem through_logic (c : Core) (byte : Byte) (half : Nat) :
    (c.through byte half).logic = c.logic.through byte half := by
  induction half with
  | zero => rfl
  | succ half ih => rw [through, through, effect_logic, ih]

/-- A write leaves the latches alone. -/
theorem latches_through (c : Core) (byte : Byte) (half : Nat)
    (h : c.cycle.pattern = .write ∨ c.cycle.pattern = .portWrite) :
    (c.through byte half).latches = c.latches := by
  induction half with
  | zero => rfl
  | succ half ih => exact (latches_effect _ half byte (by rw [pattern_through]; exact h)).trans ih

/-- A half-period does nothing unless it moves a pointer or takes a byte in. -/
theorem effect_idle (hfirst : half ≠ 0) (hlater : half ≠ c.cycle.pattern.sampleHalf) :
    c.effect half byte = c := by
  rw [effect, if_neg (fun h => hfirst h.1), if_neg hlater]

/-- Until it is taken in, the byte does not matter. -/
theorem through_congr (h : half ≤ c.cycle.pattern.sampleHalf) :
    c.through byte half = c.through byte' half := by
  induction half with
  | zero => rfl
  | succ half ih =>
    rw [through, through, ih (by omega)]
    refine effect_congr fun hsample => ?_
    rw [pattern_through] at hsample
    omega

/-- Before the byte is taken in. -/
theorem through_early (hfirst : half ≠ 0) (h : half ≤ c.cycle.pattern.sampleHalf) :
    c.through byte half = c.effect 0 byte := by
  induction half with
  | zero => exact absurd rfl hfirst
  | succ half ih =>
    by_cases hzero : half = 0
    · subst hzero
      rfl
    · rw [through, ih hzero (by omega)]
      refine effect_idle hzero ?_
      rw [pattern_effect]
      omega

/-- After it has been taken in, nothing more happens. -/
theorem through_late (h : c.cycle.pattern.sampleHalf < half) : c.through byte half = c.played byte := by
  induction half with
  | zero => omega
  | succ half ih =>
    by_cases hhere : half = c.cycle.pattern.sampleHalf
    · have hpositive : half ≠ 0 := by
        rw [hhere]
        exact c.cycle.pattern.sampleHalf_ne_zero
      rw [through, through_early hpositive (Nat.le_of_eq hhere), hhere, played]
    · rw [through, ih (by omega)]
      refine effect_idle (by omega) ?_
      rw [played, pattern_effect, pattern_effect]
      exact hhere

/-- A cycle that is held loses nothing by going back. -/
theorem through_held (h : c.cycle.pattern.WaitsAt half) :
    (c.through byte half).effect half byte' = c.through byte (half - 1) := by
  have hsame (half' : Nat) : (c.through byte half').cycle.pattern.WaitsAt half := by
    rw [pattern_through]
    exact h
  obtain ⟨earlier, rfl⟩ : ∃ earlier, half = earlier + 1 :=
    ⟨half - 1, by rcases h with ⟨rfl, -⟩ | ⟨rfl, -⟩ <;> rfl⟩
  rw [(effect_waitsAt (hsame _) byte').1, through]
  exact (effect_waitsAt (hsame earlier) byte).2

/-- The chip when the cycle is over and what it has read is latched. -/
def acted (c : Core) (byte : Byte) : Core :=
  (c.played byte).latchResult

/-- The chip after the end of the cycle, and whether the instruction is complete. -/
def closed (c : Core) (byte : Byte) : Core × Bool :=
  (c.acted byte).nextCycle

/-- What the end of a cycle comes to does not depend on the wires. -/
theorem closed_of_logic (h : d.logic = (c.played byte).logic) :
    d.latchResult.nextCycle.1.logic = (c.closed byte).1.logic
      ∧ d.latchResult.nextCycle.2 = (c.closed byte).2 := by
  have hlatched : d.latchResult.logic = (c.played byte).latchResult.logic := by
    rw [latchResult_logic, latchResult_logic, h]
  obtain ⟨hcore, hend⟩ := nextCycle_logic (c := d.latchResult)
  obtain ⟨hcore', hend'⟩ := nextCycle_logic (c := (c.played byte).latchResult)
  rw [closed, acted, hcore, hend, hcore', hend', hlatched]
  exact ⟨rfl, rfl⟩

/-! ## What a cycle comes to -/

/-- The first half-period moves the pointer of a write, and does nothing else. -/
theorem effect_zero : c.effect 0 byte = if c.cycle.pattern = .write then c.pushPointer else c := by
  rw [effect, if_neg c.cycle.pattern.sampleHalf_ne_zero.symm]
  simp only [true_and]

/-- Over its half-periods a cycle moves that pointer, or takes the byte in. -/
theorem played_eq :
    c.played byte = if c.cycle.pattern = .write then c.pushPointer else c.takeIn byte := by
  have hlater := c.cycle.pattern.sampleHalf_ne_zero
  have hsample (d : Core) (h : d.cycle.pattern = c.cycle.pattern) :
      d.effect c.cycle.pattern.sampleHalf byte = d.takeIn byte := by
    rw [effect, if_neg fun hboth => hlater hboth.1, h, if_pos rfl]
  rw [played, hsample _ (pattern_effect 0 byte), effect_zero]
  split
  · next hwrite =>
    have hkept : c.pushPointer.cycle = c.cycle := by
      rw [pushPointer]
      cases c.cycle.kind <;> rfl
    rw [takeIn, hkept, hwrite]
  · rfl

/-- Registers, latches and the cycle apart, the chip `d` is `c`. -/
def Works (c d : Core) : Prop :=
  d = { c with regs := d.regs, latches := d.latches, cycle := d.cycle }

theorem Works.of_eq {regs : Registers} {latches : Latches} {cycle : ActiveCycle}
    (h : d = { c with regs, latches, cycle }) : c.Works d := by
  rw [h]
  rfl

/-- What a chip that has worked has kept. -/
theorem Works.kept (h : c.Works d) :
    d.instruction = c.instruction ∧ d.cycles = c.cycles ∧ d.position = c.position
      ∧ d.origin = c.origin ∧ d.chain = c.chain ∧ d.halted = c.halted := by
  rw [h]
  exact ⟨rfl, rfl, rfl, rfl, rfl, rfl⟩

/-- The cycle that comes next is the one that the instruction has at the next position. -/
theorem Works.closed (h : c.Works (c.acted byte)) (hcode : c.instruction = some code) :
    c.closed byte = match c.cycles[c.position + 1]? with
      | some next => ((c.acted byte).stepOn.beginCycle next.kind next.tStates, false)
      | none => ((c.acted byte).stepOn, true) := by
  obtain ⟨hkept, hcycles, hposition, -⟩ := h.kept
  rw [← hcycles, ← hposition]
  exact nextCycle_of_some (hkept.trans hcode)

/-- A known instruction that has no index register acts at the end of every cycle but a fetch. -/
theorem latchResult_of_plain (hcode : c.instruction = some code) (hindex : code.index? = none) :
    c.latchResult = if c.cycle.kind = .opcodeFetch then c
      else (c.stow code).act code (.after c.cycle.kind) := by
  have hstow : (c.stow code).instruction = some code := by
    rw [stow_eq]
    exact hcode
  have hact : (c.stow code).execute (.after c.cycle.kind)
      = (c.stow code).act code (.after c.cycle.kind) := by
    simp only [execute, hstow]
    rfl
  rw [latchResult_of_some hcode, hindex, ← hact]

variable (byte) in
/-- The chip fetches for an operation of its own. -/
theorem acted_of_fetch (hcode : c.instruction = some code) (hindex : code.index? = none)
    (hmemory : code.memoryOperand? = none) (hkind : c.cycle.kind = .opcodeFetch)
    (hpattern : c.cycle.pattern = .fetch ∨ c.cycle.pattern = .acknowledge)
    (hacts : ((c.countRefresh.fetch byte).act code .decoded).instruction = some code
      ∧ ((c.countRefresh.fetch byte).act code .decoded).cycle = c.cycle) :
    c.acted byte = ((c.countRefresh.fetch byte).act code .decoded).fitLength := by
  have hread : c.cycle.pattern ≠ .write := by rcases hpattern with h | h <;> rw [h] <;> decide
  have htaken : c.takeIn byte = ((c.countRefresh.fetch byte).execute .decoded).fitLength := by
    rw [← takeOpcodeByte_of_some (c := c.countRefresh) hcode, takeIn]
    rcases hpattern with h | h <;> rw [h]
  have hexecuted : (c.countRefresh.fetch byte).execute .decoded
      = (c.countRefresh.fetch byte).act code .decoded := by
    simp only [execute, show (c.countRefresh.fetch byte).instruction = some code from hcode,
      addressOperand, hmemory]
    rfl
  obtain ⟨hknown, hcycle⟩ := hacts
  rw [acted, played_eq, if_neg hread, htaken, hexecuted,
    latchResult_of_plain (c := ((c.countRefresh.fetch byte).act code .decoded).fitLength) hknown
      hindex]
  exact if_pos ((congrArg ActiveCycle.kind hcycle).trans hkind)

variable (byte) in
/-- The chip pushes a byte. -/
theorem acted_of_push (hcode : c.instruction = some code) (hindex : code.index? = none)
    (hpattern : c.cycle.pattern = .write)
    (hkind : c.cycle.kind = .stackWriteHigh ∨ c.cycle.kind = .stackWriteLow) :
    c.acted byte
      = ({ c with regs.sp := c.regs.sp - 1 } : Core).act code (.after c.cycle.kind) := by
  have hpushed : c.played byte = { c with regs.sp := c.regs.sp - 1 } := by
    rw [played_eq, if_pos hpattern, pushPointer]
    rcases hkind with h | h <;> rw [h]
  rw [acted, hpushed,
    latchResult_of_plain (c := { c with regs.sp := c.regs.sp - 1 }) hcode hindex]
  rcases hkind with h | h
  all_goals
    simp only [stow, h]
    rfl

variable (byte) in
/-- The chip reads a byte. -/
theorem acted_of_read (hcode : c.instruction = some code) (hindex : code.index? = none)
    (hpattern : c.cycle.pattern = .read) (hkind : c.cycle.kind ≠ .opcodeFetch) :
    c.acted byte
      = ((c.movePointer.fetch byte).stow code).act code (.after c.cycle.kind) := by
  have hmoved : c.movePointer.instruction = some code ∧ c.movePointer.cycle = c.cycle := by
    rw [movePointer_eq]
    exact ⟨hcode, rfl⟩
  have htaken : c.takeIn byte = c.movePointer.fetch byte := by rw [takeIn, hpattern]
  have hcycle : (c.movePointer.fetch byte).cycle = c.cycle := hmoved.2
  rw [acted, played_eq, if_neg (by rw [hpattern]; decide), htaken,
    latchResult_of_plain (c := c.movePointer.fetch byte) hmoved.1 hindex, hcycle, if_neg hkind]

/-- A byte that is fetched for an opcode. -/
theorem acted_of_opcode (hnone : c.instruction = none) (hpattern : c.cycle.pattern = .fetch) :
    c.acted byte = (c.countRefresh.advancePc.dispatch byte).latchResult := by
  rw [acted, played_eq, if_neg (by rw [hpattern]; decide), takeIn, hpattern]
  dsimp only
  rw [takeOpcodeByte_of_none (c := c.countRefresh) hnone]

/-! ## The opcode -/

/-- The chip is about to fetch a byte of an opcode from memory. -/
structure Fetches (page : Page) (count : Nat) (c : Core) : Prop where
  unknown : c.instruction = none
  page : c.page = page
  chain : c.chain = .opcode
  place : c.position = count
  origin : c.fromMemory = true
  kind : c.cycle.kind = .opcodeFetch
  pattern : c.cycle.pattern = .fetch
  memory : c.cycle.fromDevice = false
  length : c.cycle.length = 4

variable {page next : Page} {count : Nat}

/-- PC moves over the byte, and one more refresh is counted. -/
theorem Fetches.moved (h : c.Fetches page count) : c.countRefresh.advancePc = { c with
    regs := { c.regs.incrementR with pc := c.regs.pc + 1 } } := by
  have hmemory : c.countRefresh.fromMemory = true := h.origin
  rw [advancePc, if_pos hmemory]
  rfl

/-- A byte that leads to another page is followed there. -/
theorem Fetches.leads (h : c.Fetches page count)
    (hnext : (decode page byte).action = .fetchNext next) :
    c.acted byte = { c with
        regs := { c.regs.incrementR with pc := c.regs.pc + 1 }
        opcode := c.opcode.push byte
        page := next
        chain := .opcode }
      ∧ c.closed byte = ((c.acted byte).stepOn.beginCycle .opcodeFetch 4, false)
      ∧ (c.closed byte).1.Fetches next (count + 1) := by
  have hacted : c.acted byte = { c with
      regs := { c.regs.incrementR with pc := c.regs.pc + 1 }
      opcode := c.opcode.push byte
      page := next
      chain := .opcode } := by
    rw [acted_of_opcode h.unknown h.pattern, h.moved, dispatch]
    dsimp only
    rw [h.page, follow, hnext]
    dsimp only
    rw [latchResult_of_none (by exact h.unknown), if_neg (by rw [h.kind]; decide)]
  have hsteps : (c.acted byte).instruction = none ∧ (c.acted byte).page = next
      ∧ (c.acted byte).chain = .opcode ∧ (c.acted byte).position = count
      ∧ (c.acted byte).fromMemory = true := by
    rw [hacted]
    exact ⟨h.unknown, rfl, rfl, h.place, h.origin⟩
  obtain ⟨hunknown, hpage, hchain, hplace, horigin⟩ := hsteps
  have hclosed : c.closed byte = ((c.acted byte).stepOn.beginCycle .opcodeFetch 4, false) := by
    show (c.acted byte).nextCycle = _
    rw [nextCycle_of_none hunknown, hchain]
  obtain ⟨-, hdevice⟩ := origin_of_fromMemory horigin
  refine ⟨hacted, hclosed, ?_⟩
  rw [hclosed]
  refine ⟨hunknown, hpage, hchain, congrArg (· + 1) hplace, horigin, rfl, ?_, ?_, rfl⟩
  · show (c.acted byte).stepOn.busPattern .opcodeFetch = .fetch
    rw [busPattern, if_neg, if_neg]
    · exact fun hboth => Nat.succ_ne_zero _ hboth.1
    · show (c.acted byte).chain ≠ _
      rw [hchain]
      decide
  · show (decide ((c.acted byte).origin = .device) && _) = false
    rw [decide_eq_false hdevice]
    rfl

/-- A byte that completes the opcode of an instruction with no index register begins its
    execution. -/
theorem Fetches.begins (h : c.Fetches page count) (hcode : decode page byte = code)
    (hexecutes : code.action = .execute) (hindex : code.index? = none)
    (hbegun : d = ({ c with
      regs := { c.regs.incrementR with pc := c.regs.pc + 1 }
      opcode := c.opcode.push byte } : Core).beginExecution code)
    (hknown : d.instruction = some code) (hkind : d.cycle.kind = .opcodeFetch) :
    c.acted byte = d := by
  have hentry : decode c.page byte = code := by rw [h.page, hcode]
  have hdispatched : c.countRefresh.advancePc.dispatch byte = d := by
    rw [h.moved, dispatch]
    dsimp only
    rw [hentry, follow, hexecutes]
    exact hbegun.symm
  rw [acted_of_opcode h.unknown h.pattern, hdispatched, latchResult_of_plain hknown hindex,
    if_pos hkind]

/-! ## What a cycle reads and stores -/

/-- The byte that a cycle reads: the one in memory, or one from elsewhere. -/
structure Takes (config : BoardConfig) (elsewhere : Byte → Prop) (bytes : Array Byte) (c : Core)
    (byte : Byte) : Prop where
  memory : c.cycle.readsMemory = true → byte = config.byteAt bytes (c.cycleAddress.getD 0)
  elsewhere : c.cycle.readsElsewhere = true → elsewhere byte

/-- What the cycle stores. -/
def stores (c : Core) : List Store :=
  if c.cycle.pattern = .write then [⟨c.cycleAddress.getD 0, c.writeByte⟩] else []

/-- The bytes of memory when the cycle is over. -/
def leftBytes (config : BoardConfig) (bytes : Array Byte) (c : Core) : Array Byte :=
  c.stores.foldl config.apply bytes

/-- A cycle that reads stores nothing. -/
theorem stores_of_reads (h : c.cycle.pattern ≠ .write) : c.stores = [] := if_neg h

end Core

/-! ## The board amid a cycle -/

namespace Board

variable {config : BoardConfig} {elsewhere : Byte → Prop} {bytes : Array Byte} {b : Board}
  {c k : Core} {level : Level} {t : Traffic}

/-- The board is amid the cycle that the chip `c` starts over these bytes of memory. -/
structure Plays (config : BoardConfig) (elsewhere : Byte → Prop) (bytes : Array Byte) (c : Core)
    (b : Board) : Prop where
  orderly : b.Orderly config
  amid : b.core.Amid
  taken : ∃ byte, b.core.logic = (c.through byte b.core.cycle.half).logic
    ∧ (c.cycle.pattern.sampleHalf < b.core.cycle.half → c.Takes config elsewhere bytes byte)
  /-- Its address has been put out, and a write has stored its byte by its fifth half-period. -/
  carries : ∃ t, b.Carries config bytes t
    ∧ (t.address = if b.core.cycle.half = 0 then 0 else c.cycleAddress.getD 0)
    ∧ t.stores = if 4 ≤ b.core.cycle.half then c.stores else []

/-- Whatever else the cycle reads is as supposed when this edge samples it. -/
def Supplies (elsewhere : Byte → Prop) (b : Board) (level : Level) : Prop :=
  ∀ k, b.engaged level = some k → k.cycle.readsElsewhere = true →
    k.cycle.half = k.cycle.pattern.sampleHalf → elsewhere k.data.value

/-- A board before the first half-period of a cycle plays it. -/
theorem plays_start (h : b.Orderly config) (hamid : b.core.Amid) (hfirst : b.core.cycle.half = 0)
    (hlogic : b.core.logic = c.logic) : b.Plays config elsewhere b.memory.bytes c := by
  have hrest : b.core.pins.AtRest := by
    rcases hamid.phase with hphase | hphase
    · exact (h.sound.running hphase hamid.chosen).atRest hfirst
    · exact (h.sound.released hphase).1.atRest hfirst
  refine ⟨h, hamid, ⟨0, ?_, fun hlate => ?_⟩, {}, h.carries_atRest hrest fun _ _ => hfirst, ?_, ?_⟩
  · rw [hfirst]
    exact hlogic
  · rw [hfirst] at hlate
    exact absurd hlate (Nat.not_lt_zero _)
  · exact (if_pos hfirst).symm
  · rw [hfirst]
    rfl

/-- Which cycle is played does not depend on the wires. -/
theorem plays_logic : b.Plays config elsewhere bytes c.logic ↔ b.Plays config elsewhere bytes c := by
  have hthrough (byte : Byte) (half : Nat) :
      (c.logic.through byte half).logic = (c.through byte half).logic := by
    rw [← Core.through_logic]
    rfl
  constructor
  · rintro ⟨horderly, hamid, ⟨byte, hsame, htaken⟩, hcarries⟩
    rw [hthrough] at hsame
    exact ⟨horderly, hamid, ⟨byte, hsame, fun hlate => ⟨(htaken hlate).memory,
      (htaken hlate).elsewhere⟩⟩, hcarries⟩
  · rintro ⟨horderly, hamid, ⟨byte, hsame, htaken⟩, hcarries⟩
    rw [← hthrough] at hsame
    exact ⟨horderly, hamid, ⟨byte, hsame, fun hlate => ⟨(htaken hlate).memory,
      (htaken hlate).elsewhere⟩⟩, hcarries⟩

theorem Plays.of_logic (h : b.Plays config elsewhere bytes c) (hlogic : k.logic = c.logic) :
    b.Plays config elsewhere bytes k := by
  rw [← plays_logic] at h ⊢
  rw [hlogic]
  exact h

/-- An edge runs a half-period of the cycle, on the chip `k`. -/
structure Runs (config : BoardConfig) (elsewhere : Byte → Prop) (bytes : Array Byte) (c : Core)
    (b : Board) (level : Level) (k : Core) : Prop where
  orderly : b.Orderly config
  engaged : b.engaged level = some k
  engages : b.core.Engages k b.inputs
  taken : ∃ byte, k.logic = (c.through byte k.cycle.half).logic
    ∧ (c.cycle.pattern.sampleHalf < k.cycle.half → c.Takes config elsewhere bytes byte)
  carries : ∃ t, b.Carries config bytes t
    ∧ (t.address = if k.cycle.half = 0 then 0 else c.cycleAddress.getD 0)
    ∧ t.stores = if 4 ≤ k.cycle.half then c.stores else []

/-- An edge that engages a chip amid a cycle runs a half-period of it. -/
theorem Plays.runs (h : b.Plays config elsewhere bytes c) (hengaged : b.engaged level = some k)
    (hlogic : k.logic = b.core.logic) (hhalf : k.cycle.half = b.core.cycle.half) :
    b.Runs config elsewhere bytes c level k := by
  refine ⟨h.orderly, hengaged, h.orderly.sound.engages hengaged, ?_, ?_⟩
  · rw [hlogic, hhalf]
    exact h.taken
  · rw [hhalf]
    exact h.carries

/-- An edge that engages a chip at the start of a cycle runs the first half-period of that one. -/
theorem Orderly.runs (h : b.Orderly config) (hengaged : b.engaged level = some k)
    (hfirst : k.cycle.half = 0) : b.Runs config elsewhere b.memory.bytes k level k := by
  have hk := h.sound.engages hengaged
  refine ⟨h, hengaged, hk, ⟨0, ?_, fun hlate => ?_⟩, {}, h.carries hk hfirst, ?_, ?_⟩
  · rw [hfirst]
    rfl
  · rw [hfirst] at hlate
    exact absurd hlate (Nat.not_lt_zero _)
  · exact (if_pos hfirst).symm
  · rw [hfirst]
    rfl

namespace Runs

/-- It uses the buses as the cycle does. -/
theorem use_eq (h : b.Runs config elsewhere bytes c level k) : k.use = c.use := by
  obtain ⟨byte, hthrough, -⟩ := h.taken
  have hsame : k.logic.use = (c.through byte k.cycle.half).logic.use := by
    rw [hthrough]
  exact hsame.trans (c.use_through byte _)

theorem pattern_eq (h : b.Runs config elsewhere bytes c level k) :
    k.cycle.pattern = c.cycle.pattern :=
  Core.pattern_of_use h.use_eq

/-- The half-period that an edge runs, if nothing holds it. -/
theorem works (h : b.Runs config elsewhere bytes c level k)
    (hsupplies : b.Supplies elsewhere level) :
    ∃ byte, k.runHalf.1.logic = (c.through byte (k.cycle.half + 1)).logic
      ∧ (c.cycle.pattern.sampleHalf < k.cycle.half + 1 → c.Takes config elsewhere bytes byte) := by
  have hpattern := h.pattern_eq
  obtain ⟨byte, hthrough, htaken⟩ := h.taken
  obtain ⟨t, hcarries, haddress, hstores⟩ := h.carries
  have hrun (value : Byte) : k.logic.effect k.cycle.half value
      = ((c.through byte k.cycle.half).effect k.cycle.half value).logic := by
    rw [hthrough, Core.effect_logic]
  rw [Core.runHalf_logic, hrun]
  by_cases hsample : k.cycle.half = c.cycle.pattern.sampleHalf
  · -- the byte is taken in now
    have hlater : k.cycle.half ≠ 0 := hsample ▸ c.cycle.pattern.sampleHalf_ne_zero
    refine ⟨k.data.value, ?_, fun _ => ⟨fun hreads => ?_, fun helsewhere => ?_⟩⟩
    · have hsame : c.through byte k.cycle.half = c.through k.data.value k.cycle.half :=
        Core.through_congr (Nat.le_of_eq hsample)
      rw [hsame]
      rfl
    · have hreads' : k.cycle.readsMemory = true :=
        (Core.readsMemory_of_use h.use_eq).trans hreads
      have hnone : c.stores = [] := by
        refine Core.stores_of_reads fun hwrite => ?_
        rw [ActiveCycle.readsMemory, hwrite] at hreads
        cases hreads
      have hsamples : k.samplesMemory = true := by
        rw [Core.samplesMemory, hreads', hpattern, hsample]
        exact beq_self_eq_true _
      rw [hcarries.samples h.engages hsamples, hcarries.stores, hstores, hnone, ite_self,
        Traffic.begin, if_neg hlater, haddress, if_neg hlater]
      rfl
    · exact hsupplies k h.engaged ((Core.readsElsewhere_of_use h.use_eq).trans helsewhere)
        (by rw [hpattern, hsample])
  · refine ⟨byte, ?_, fun hlate => htaken (by omega)⟩
    have hsame : (c.through byte k.cycle.half).effect k.cycle.half k.data.value
        = (c.through byte k.cycle.half).effect k.cycle.half byte := by
      refine Core.effect_congr fun hhere => ?_
      rw [Core.pattern_through] at hhere
      exact absurd hhere hsample
    rw [hsame]
    rfl

/-- The address that it has put out is that of the cycle. -/
theorem address_begin (h : b.Runs config elsewhere bytes c level k)
    (haddress : t.address = if k.cycle.half = 0 then 0 else c.cycleAddress.getD 0) :
    (t.begin k).address = c.cycleAddress.getD 0 := by
  rw [Traffic.begin]
  by_cases hfirst : k.cycle.half = 0
  · obtain ⟨byte, hthrough, -⟩ := h.taken
    rw [hfirst] at hthrough
    have hsame : k.logic.cycleAddress = c.logic.cycleAddress := by
      rw [hthrough]
      rfl
    rw [if_pos hfirst] at haddress ⊢
    show k.cycleAddress.getD t.address = _
    rw [haddress, show k.cycleAddress = c.cycleAddress from hsame]
  · rw [if_neg hfirst] at haddress ⊢
    exact haddress

/-- A byte that it writes is that of the cycle. -/
theorem writeByte_eq (h : b.Runs config elsewhere bytes c level k)
    (hwrite : c.cycle.pattern = .write) : k.writeByte = c.writeByte := by
  obtain ⟨byte, hthrough, -⟩ := h.taken
  have hlatches : k.logic.latches = c.latches := by
    rw [hthrough]
    exact c.latches_through byte _ (Or.inl hwrite)
  rw [Core.writeByte, Core.writeByte, Core.kind_of_use h.use_eq,
    show k.latches = c.latches from hlatches]

/-- What has been stored after the half-period. -/
theorem stores_note (h : b.Runs config elsewhere bytes c level k)
    (hmore : k.runHalf.2 = false)
    (haddress : (t.begin k).address = c.cycleAddress.getD 0)
    (hstores : t.stores = if 4 ≤ k.cycle.half then c.stores else []) :
    (t.note k).stores = if 4 ≤ k.runHalf.1.cycle.half then c.stores else [] := by
  have hpattern := h.pattern_eq
  have hstrikes := strikes_runs h.engages.underway hmore
  have hnext := h.engages.underway.half_runHalf hmore
  show (if k.strikes then t.stores ++ [⟨(t.begin k).address, k.writeByte⟩] else t.stores) = _
  by_cases hwrite : c.cycle.pattern = .write
  · by_cases hstruck : k.strikes = true
    · obtain ⟨-, hthree, hruns⟩ := hstrikes.mp hstruck
      rcases hnext with ⟨-, hnext⟩ | ⟨hwaits, -⟩
      · rw [if_pos hstruck, hstores, if_neg (by omega), if_pos (by omega), Core.stores, if_pos hwrite,
          haddress, h.writeByte_eq hwrite]
        rfl
      · cases hruns.symm.trans hwaits
    · rw [if_neg hstruck, hstores]
      have hthree (hruns : k.waits = false) : k.cycle.half ≠ 3 := fun hthree =>
        hstruck (hstrikes.mpr ⟨hpattern.trans hwrite, hthree, hruns⟩)
      rcases hnext with ⟨hruns, hnext⟩ | ⟨-, hback, hplace⟩
      · have hother := hthree hruns
        by_cases hlate : 4 ≤ k.cycle.half
        · rw [if_pos hlate, if_pos (by omega)]
        · rw [if_neg hlate, if_neg (by omega)]
      · rcases hplace with ⟨hthree, -⟩ | ⟨-, hport | hport⟩
        · rw [if_neg (by omega), if_neg (by omega)]
        · rw [hpattern, hwrite] at hport
          cases hport
        · rw [hpattern, hwrite] at hport
          cases hport
  · have hstill : ¬ k.strikes = true := fun hstruck =>
      hwrite (hpattern.symm.trans (hstrikes.mp hstruck).1)
    rw [if_neg hstill, hstores, Core.stores_of_reads hwrite, ite_self, ite_self]

/-- Amid the cycle, the edge goes on with it. -/
theorem goes (h : b.Runs config elsewhere bytes c level k)
    (hsupplies : b.Supplies elsewhere level) (hmore : k.runHalf.2 = false)
    (hresult : (b.core.edge level b.inputs).core = k.runHalf.1)
    (hamid : (b.core.edge level b.inputs).core.Amid)
    (hgoes : (b.core.edge level b.inputs).ended = false) :
    (b.edge level).1.Plays config elsewhere bytes c := by
  obtain ⟨hlogic, hhalf, hphase, hchosen⟩ := core_edge_of_goes hgoes
  have hnext := h.engages.underway.half_runHalf hmore
  have hfirst : k.runHalf.1.cycle.half ≠ 0 := by
    rcases hnext with ⟨-, hnext⟩ | ⟨-, hback, ⟨hthree, -⟩ | ⟨hfive, -⟩⟩ <;> omega
  obtain ⟨t, hcarries, haddress, hstores⟩ := h.carries
  have hput := h.address_begin haddress
  have hnote : t.edge b level = t.note k := by
    rw [Traffic.edge, h.engaged]
  rw [hresult] at hlogic hhalf
  refine ⟨h.orderly.edge level, ⟨?_, hchosen.trans hamid.chosen⟩, ?_, t.edge b level,
    hcarries.edge level, ?_, ?_⟩
  · rw [hphase]
    exact hamid.phase
  · rw [hlogic, hhalf]
    rcases hnext with ⟨-, hnext⟩ | ⟨hwaits, hback, -⟩
    · obtain ⟨byte, hworks, htaken⟩ := h.works hsupplies
      rw [hnext]
      exact ⟨byte, hworks, htaken⟩
    · obtain ⟨byte, hthrough, htaken⟩ := h.taken
      have hhere : c.cycle.pattern.WaitsAt k.cycle.half := by
        rw [← h.pattern_eq]
        exact Core.waits_cases hwaits
      have hback' : k.runHalf.1.cycle.half = k.cycle.half - 1 := by omega
      refine ⟨byte, ?_, fun hlate => htaken (by omega)⟩
      rw [Core.runHalf_logic, hthrough, ← Core.effect_logic, Core.through_held hhere, hback']
  · rw [hnote, hhalf, if_neg hfirst]
    exact hput
  · rw [hnote, hhalf]
    exact h.stores_note hmore hput hstores

end Runs

/-- An edge that engages no chip leaves the cycle where it is. -/
theorem Plays.stalls (h : b.Plays config elsewhere bytes c) (hengaged : b.engaged level = none)
    (hlogic : (b.core.edge level b.inputs).core.logic = b.core.logic)
    (hhalf : (b.core.edge level b.inputs).core.cycle.half = b.core.cycle.half)
    (hamid : (b.core.edge level b.inputs).core.Amid)
    (hgoes : (b.core.edge level b.inputs).ended = false) :
    (b.edge level).1.Plays config elsewhere bytes c := by
  obtain ⟨hlogic', hhalf', hphase, hchosen⟩ := core_edge_of_goes hgoes
  rw [hlogic] at hlogic'
  rw [hhalf] at hhalf'
  obtain ⟨t, hcarries, haddress, hstores⟩ := h.carries
  have hkept : t.edge b level = t := by
    rw [Traffic.edge, hengaged]
  have hnext := hcarries.edge level
  rw [hkept] at hnext
  refine ⟨h.orderly.edge level, ⟨?_, hchosen.trans hamid.chosen⟩, ?_, t, hnext, ?_, ?_⟩
  · rw [hphase]
    exact hamid.phase
  · rw [hlogic', hhalf']
    exact h.taken
  · rw [hhalf']
    exact haddress
  · rw [hhalf']
    exact hstores

/-- The cycle has ended with this byte, and perhaps with it the instruction. -/
structure Ends (config : BoardConfig) (elsewhere : Byte → Prop) (bytes : Array Byte) (c : Core)
    (b : Board) (level : Level) (byte : Byte) : Prop where
  takes : c.Takes config elsewhere bytes byte
  ended : (b.core.edge level b.inputs).ended = (c.closed byte).2
  logic : (b.core.edge level b.inputs).core.logic
    = (if (c.closed byte).2 then (c.closed byte).1.complete else (c.closed byte).1).logic
  amid : (b.core.edge level b.inputs).core.Amid
  orderly : (b.edge level).1.Orderly config
  left : (b.edge level).1.memory.bytes = c.leftBytes config bytes
  goes : (c.closed byte).2 = false →
    (b.edge level).1.Plays config elsewhere (c.leftBytes config bytes) (c.closed byte).1

/-- At the end of the cycle the next one starts, or the instruction is complete. -/
theorem Runs.ends (h : b.Runs config elsewhere bytes c level k)
    (hsupplies : b.Supplies elsewhere level) (hlast : k.runHalf.2 = true)
    (hended : (b.core.edge level b.inputs).ended = k.runHalf.1.latchResult.nextCycle.2)
    (hresult : (b.core.edge level b.inputs).core = if (b.core.edge level b.inputs).ended
      then k.runHalf.1.latchResult.nextCycle.1.complete else k.runHalf.1.latchResult.nextCycle.1)
    (hamid : (b.core.edge level b.inputs).core.Amid) :
    ∃ byte, Ends config elsewhere bytes c b level byte := by
  obtain ⟨hruns, hcloses, hsame, hroom⟩ := h.engages.underway.last hlast
  have hpattern := h.pattern_eq
  have hlate : c.cycle.pattern.sampleHalf < k.cycle.half + 1 ∧ 4 ≤ k.cycle.half := by
    have hsample := c.cycle.pattern.sampleHalf_lt
    have hleast := c.cycle.pattern.three_le_minimumLength
    rw [hpattern] at hroom
    omega
  obtain ⟨byte, hworks, htaken⟩ := h.works hsupplies
  rw [Core.through_late hlate.1] at hworks
  obtain ⟨hnext, hend⟩ := Core.closed_of_logic hworks
  rw [hend] at hended
  -- the write has struck before
  obtain ⟨t, hcarries, -, hstores⟩ := h.carries
  rw [if_pos hlate.2] at hstores
  have hclosed : k.runHalf.1.pins.AtRest := by
    rcases h.engages.underway.runHalf with ⟨hmore, -⟩ | ⟨-, -, hwired⟩
    · cases hmore.symm.trans hlast
    · exact hcloses.atRest hwired
  have hleft : (b.edge level).1.memory.bytes = c.leftBytes config bytes := by
    rw [hcarries.bytes_edge, Traffic.edge, h.engaged]
    show List.foldl config.apply bytes
      (if k.strikes then t.stores ++ [⟨(t.begin k).address, k.writeByte⟩] else t.stores) = _
    rw [strikes_rests hclosed, if_neg Bool.false_ne_true, hstores]
    rfl
  have hlogic : (b.core.edge level b.inputs).core.logic
      = (if (c.closed byte).2 then (c.closed byte).1.complete else (c.closed byte).1).logic := by
    rw [hresult, hended]
    split
    · rw [show k.runHalf.1.latchResult.nextCycle.1.complete.logic
        = k.runHalf.1.latchResult.nextCycle.1.logic.complete from rfl, hnext]
      rfl
    · exact hnext
  refine ⟨byte, htaken hlate.1, hended, hlogic, hamid, h.orderly.edge level, hleft, fun hmore => ?_⟩
  rw [hmore] at hended
  obtain ⟨hlogic', hhalf', hphase', hchosen'⟩ := core_edge_of_goes hended
  rw [hlogic, hmore, if_neg Bool.false_ne_true] at hlogic'
  rw [← hleft]
  refine plays_start (h.orderly.edge level) ⟨?_, hchosen'.trans hamid.chosen⟩ ?_ hlogic'
  · rw [hphase']
    exact hamid.phase
  · rw [hhalf', hresult, hended, if_neg Bool.false_ne_true]
    rcases hcloses.next with hgoes | ⟨hall, -⟩
    · exact hgoes.first
    · cases (hend.symm.trans hall).symm.trans hmore

/-- Unless it resets the chip, an edge goes on with the cycle or ends it. -/
theorem Plays.edge (h : b.Plays config elsewhere bytes c) (hreset : b.host.reset.isAsserted = false)
    (hsupplies : b.Supplies elsewhere level) :
    ((b.core.edge level b.inputs).ended = false ∧ (b.edge level).1.Plays config elsewhere bytes c)
      ∨ ∃ byte, Ends config elsewhere bytes c b level byte := by
  have hpass : b.core.Pass (b.core.edge level b.inputs) (b.engaged level) := h.amid.pass hreset
  cases hengaged : b.engaged level with
  | none =>
    rw [hengaged] at hpass
    cases hpass with
    | stalls logic half amid goes => exact Or.inl ⟨goes, h.stalls hengaged logic half amid goes⟩
  | some k =>
    rw [hengaged] at hpass
    cases hpass with
    | runs logic half more result amid goes =>
      have hruns := h.runs hengaged logic half
      exact Or.inl ⟨goes, hruns.goes hsupplies more result amid goes⟩
    | closes logic half last ended result amid =>
      have hruns := h.runs hengaged logic half
      exact Or.inr (hruns.ends hsupplies last ended result amid)

/-- The first edge of a cycle sets it going. -/
theorem Orderly.opens (h : b.Orderly config) (hengaged : b.engaged level = some k)
    (hfirst : k.cycle.half = 0) :
    (b.core.edge level b.inputs).ended = false
      ∧ (b.edge level).1.Plays config elsewhere b.memory.bytes k := by
  have hruns : b.Runs config elsewhere b.memory.bytes k level k := h.runs hengaged hfirst
  have hpass : k.Pass (b.core.edge level b.inputs) (some k) :=
    Core.pass_engaged hengaged ⟨Or.inl hruns.engages.phase, hruns.engages.chosen⟩
  cases hpass with
  | runs _ _ more result amid goes =>
    refine ⟨goes, hruns.goes (fun j hj _ hsample => ?_) more result amid goes⟩
    rw [hengaged] at hj
    obtain rfl := Option.some.inj hj
    exact absurd (hsample.symm.trans hfirst) k.cycle.pattern.sampleHalf_ne_zero
  | closes _ _ last =>
    cases (hruns.engages.underway.more_of_early (by omega)).symm.trans last

end Board

end Z80Board
