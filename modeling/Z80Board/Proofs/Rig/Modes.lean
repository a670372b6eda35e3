import Z80Board.Proofs.Rig.Outcomes
import Z80Board.Proofs.Rig.Sweeps

/-! # One byte, wherever it is

    An instruction that works on one byte may find it in a register, in itself, or in memory, at HL or
    at a displacement from an index register.  It comes to the same: what it makes of the byte and of
    the flags does not depend on the way by which the byte is reached. -/

namespace Z80Board

/-! ## Places of a byte -/

/-- Where the byte behind the instruction's own opcode bytes, or in front of the last of them, is to
    be found: the displacement, or the byte that the instruction is about. -/
def Page.argument (page : Page) : Nat :=
  if page.displaced then 2 else codeBytes page.approach + 1

namespace Operand

/-- The operand is one that a byte instruction takes its byte from. -/
def isPlace : Operand → Bool
  | .reg8 reg => reg != .i && reg != .r
  | .immediate8 | .indirect .hl | .indexed _ => true
  | _ => false

/-- The address of a place in memory, given the displacement. -/
def address? (regs : Registers) (n : Byte) : Operand → Option Word
  | .indirect rr => some (regs.reg16 rr)
  | .indexed x => some (regs.reg16 x.pair + Word.ofDisplacement n)
  | _ => none

/-- The byte at a place, given the byte that may be a displacement or the byte itself. -/
def value (config : BoardConfig) (bytes : Array Byte) (regs : Registers) (n : Byte) (place : Operand) :
    Byte :=
  match place with
  | .reg8 reg => regs.reg8 reg
  | .immediate8 => n
  | _ => config.byteAt bytes ((place.address? regs n).getD 0)

/-- The cycles behind the opcode that bring the byte.  On a bit page the displacement is there before
    the opcode is complete. -/
def brings (displaced : Bool) : Operand → List CycleKind
  | .immediate8 => [.operand]
  | .indirect _ => [.memoryRead]
  | .indexed _ => if displaced then [.memoryRead] else [.operand, .internal, .memoryRead]
  | _ => []

/-- A place in memory has an address. -/
theorem isSome_address {place : Operand} (hmemory : place.isMemory = true)
    (hplace : place.isPlace = true) {regs : Registers} {n : Byte} :
    (place.address? regs n).isSome = true := by
  cases place with
  | indirect | indexed => rfl
  | absolute => cases hplace
  | _ => cases hmemory

/-- The cycles that bring a byte, and the one that writes it back, read nothing but memory. -/
theorem isPlain_of_brings (place : Operand) (displaced writes : Bool) :
    ∀ kind ∈ place.brings displaced ++ (if writes then [.memoryWrite] else []),
      kind.isPlain = true := by
  cases place <;> cases displaced <;> cases writes <;> simp only [brings] <;> decide

end Operand

/-- What is done with a byte: the registers that come of it, and what is put out in its place if
    anything is. -/
structure ByteWork where
  place : Operand
  regs : Registers → Byte → Registers
  out : Option (Registers → Byte → Byte)

namespace ByteWork

/-- The chip does it. -/
def acts (work : ByteWork) (c : Core) : Core :=
  { c with
    regs := work.regs c.regs (c.read8 work.place)
    latches.outLow := match work.out with
      | some f => f c.regs (c.read8 work.place)
      | none => c.latches.outLow }

end ByteWork

/-- The instruction does its work on the byte once it is there, and nothing at any other time. -/
def Instruction.WorksOn (code : Instruction) (work : ByteWork) : Prop :=
  ∀ c point, Core.act c code point = if point = work.place.readyAt then work.acts c else c

/-- The cycles of the instruction bring a byte from its place, and write it back if it is put out. -/
structure Instruction.Reaches (code : Instruction) (page : Page) (place : Operand) (writes : Bool) :
    Prop where
  entitled : Listing.Entitled Catalog.forms page code
  once : code.mnemonic.repeats = false
  isPlace : place.isPlace = true
  fixed : code.timing.alternate = none
  cycles : (code.timing.primary.cycles.drop (page.approach.length + 1)).map MachineCycle.kind
    = place.brings page.displaced ++ if writes then [.memoryWrite] else []
  stores : writes = true → place.isMemory = true
  memory : code.memoryOperand? = if place.isMemory then some place else none
  index : code.index? = place.index?
  displaced : page.displaced = true → place.index?.isSome = true

namespace Core

variable {config : BoardConfig} {c d : Core} {code : Instruction} {work : ByteWork}
  {bytes : Array Byte} {t : Nat} {met : Bool} {regs : Registers} {latches : Latches} {page : Page}
  {writes : Bool} {v : Byte}

/-! ## Doing the work -/

/-- The chip has done the work, starting with these registers and this byte, and has the address of
    the place still at hand. -/
structure Worked (code : Instruction) (work : ByteWork) (regs : Registers) (v : Byte)
    (address? : Option Word) (c : Core) : Prop where
  stands : ∃ latches, c.Stands code false (work.regs regs v) latches
  out : ∀ f, work.out = some f → c.latches.outLow = f regs v
  address : ∀ address, address? = some address → c.latches.addr = address

/-- The work is done when the byte is there. -/
theorem Stands.worked (h : c.Stands code false regs latches) {address? : Option Word}
    (hbyte : c.read8 work.place = v)
    (haddress : ∀ address, address? = some address → latches.addr = address) :
    (work.acts c).Worked code work regs v address? := by
  obtain ⟨known, met, origin, awake, rfl, rfl⟩ := h
  subst hbyte
  refine ⟨⟨_, known, met, origin, awake, rfl, rfl⟩, fun f hout => ?_, haddress⟩
  rw [ByteWork.acts, hout]

/-- At HL, or where a displacement has led, the byte is read. -/
theorem Stands.works (h : c.Stands code false regs latches) (config : BoardConfig)
    (bytes : Array Byte) (t : Nat) (hworks : code.WorksOn work)
    (hready : work.place.readyAt = .after .memoryRead)
    (hread : ∀ d : Core, d.read8 work.place = d.latches.dataLow) :
    ∃ d, Core.does config (c, bytes) ⟨.memoryRead, t⟩ = (d, bytes)
      ∧ d.Worked code work regs (config.byteAt bytes latches.addr) (some latches.addr) := by
  obtain ⟨d, hstands, hdoes⟩ := h.does config bytes t .memoryRead rfl (by decide) (by rintro ⟨⟩)
  rw [hworks, if_pos hready.symm] at hdoes
  refine ⟨_, hdoes, hstands.worked ?_ ?_⟩
  · rw [hread, hstands.latches]
    rfl
  · rintro _ ⟨⟩
    rfl

end Core

/-- Such an instruction has one timing. -/
theorem Instruction.Reaches.cycles_eq {code : Instruction} {page : Page} {place : Operand}
    {writes : Bool} (h : code.Reaches page place writes) (met : Bool) :
    code.timing.cycles met = code.timing.primary.cycles := by
  unfold Timings.cycles Timings.select
  rw [h.fixed]

/-- The length of an instruction is that of its opcode and of what it reads behind. -/
theorem Instruction.Reaches.size {code : Instruction} {page : Page} {place : Operand} {writes : Bool}
    (h : code.Reaches page place writes) : code.size = codeBytes page.approach + 1
      + (place.brings page.displaced).countP CycleKind.readsCode := by
  obtain ⟨length, hopening⟩ := h.entitled.scheduled.leads.opening
  obtain ⟨rest, hcycles, -⟩ := hopening false
  have hdrop : (page.approach ++ ⟨.opcodeFetch, length⟩ :: rest).drop (page.approach.length + 1)
      = rest := by simp
  have hkinds := h.cycles
  rw [h.cycles_eq false] at hcycles
  rw [hcycles, hdrop] at hkinds
  have hrest : codeBytes rest = (place.brings page.displaced).countP CycleKind.readsCode := by
    calc codeBytes rest
        = (rest.map MachineCycle.kind).countP CycleKind.readsCode := by
          rw [codeBytes, List.countP_map]
          rfl
      _ = (place.brings page.displaced).countP CycleKind.readsCode := by
          rw [hkinds, List.countP_append]
          cases writes <;> rfl
  calc code.size
      = codeBytes (page.approach ++ ⟨.opcodeFetch, length⟩ :: rest) := by
        rw [← hcycles, ← h.cycles_eq false, (h.entitled.spans false).1]
    _ = codeBytes page.approach + (codeBytes rest + 1) := by
        rw [codeBytes, List.countP_append, List.countP_cons]
        rfl
    _ = codeBytes page.approach + 1
          + (place.brings page.displaced).countP CycleKind.readsCode := by omega

/-- Only an index register stands behind a displacement in front of the opcode. -/
theorem Instruction.Reaches.plain {code : Instruction} {page : Page} {place : Operand} {writes : Bool}
    (h : code.Reaches page place writes) (hindex : place.index? = none) : page.displaced = false := by
  refine Bool.eq_false_iff.mpr fun hdisplaced => ?_
  have hsome := h.displaced hdisplaced
  rw [hindex] at hsome
  cases hsome

namespace Scene.TakesUp

variable {config : BoardConfig} {bytes : Array Byte} {count : Nat} {page : Page} {k c : Core}
  {code : Instruction} {work : ByteWork} {writes : Bool} {lead : List MachineCycle}

/-- The byte behind or in front of the opcode that may be a displacement. -/
def argument (config : BoardConfig) (bytes : Array Byte) (count : Nat) (page : Page) (k : Core) : Byte :=
  config.byteAt bytes (k.regs.pc + (count + page.argument).toUInt16)

/-- The cycles bring the byte, and with the last of them the work is done. -/
def Brings (config : BoardConfig) (bytes : Array Byte) (count : Nat) (page : Page) (k c : Core)
    (code : Instruction) (work : ByteWork) (lead : List MachineCycle) : Prop :=
  ∃ r wz d, lead.foldl (Core.does config) (c.beginExecution code, bytes) = (d, bytes)
    ∧ d.Worked code work { k.regs with pc := k.regs.pc + (count + code.size).toUInt16, r, wz }
      (work.place.value config bytes k.regs (argument config bytes count page k))
      (work.place.address? k.regs (argument config bytes count page k))

/-- An instruction that does nothing at decode but to address memory begins with that alone. -/
theorem begins_idle {regs : Registers} {latches : Latches}
    (hstands : (c.takeUp code).Stands code false regs latches) (hworks : code.WorksOn work)
    (hlater : work.place.readyAt ≠ .decoded) :
    c.beginExecution code = ((c.takeUp code).addressOperand code).fitLength := by
  rw [Core.beginExecution_acts hstands, hworks, if_neg hlater.symm]

/-- With nothing in memory nothing is addressed. -/
theorem addressOperand_idle (hmemory : ∀ rr, code.memoryOperand? ≠ some (.indirect rr)) (c : Core) :
    c.addressOperand code = c := by
  rw [Core.addressOperand]
  split
  · next hbc => exact absurd hbc (hmemory _)
  · next hde => exact absurd hde (hmemory _)
  · next hhl => exact absurd hhl (hmemory _)
  · rfl

/-- The pairs are still those that the instruction has begun with. -/
theorem reg16_eq (h : Scene.TakesUp config bytes count page k c) (rr : Reg16) :
    c.regs.reg16 rr = k.regs.reg16 rr := by
  obtain ⟨r, hregs⟩ := h.regs
  rw [hregs]
  cases rr <;> rfl

/-- Behind the opcode is the byte that may be a displacement, unless that is there before. -/
theorem byteAt_pc (h : Scene.TakesUp config bytes count page k c) (hplain : page.displaced = false) :
    config.byteAt bytes c.regs.pc = argument config bytes count page k := by
  obtain ⟨r, hregs⟩ := h.regs
  rw [argument, Page.argument, hplain, hregs]
  rfl

/-- The work starts with the registers of the chip, behind what else is read of the instruction. -/
theorem brings_of_worked (h : Scene.TakesUp config bytes count page k c)
    (hreaches : code.Reaches page work.place writes) (read : Nat) (wz : Word) {d : Core}
    (hread : (work.place.brings page.displaced).countP CycleKind.readsCode = read)
    (hlead : lead.foldl (Core.does config) (c.beginExecution code, bytes) = (d, bytes))
    (hworked : d.Worked code work { c.regs with pc := c.regs.pc + read.toUInt16, wz }
      (work.place.value config bytes k.regs (argument config bytes count page k))
      (work.place.address? k.regs (argument config bytes count page k))) :
    Brings config bytes count page k c code work lead := by
  obtain ⟨r, hregs⟩ := h.regs
  refine ⟨r, wz, d, hlead, ?_⟩
  rw [hreaches.size, hread, ← Nat.add_assoc, ← Nat.add_assoc, ← Core.add_toUInt16]
  rw [hregs] at hworked
  exact hworked

/-- A register has its byte at decode. -/
theorem brings_register (h : Scene.TakesUp config bytes count page k c) (hawake : k.halted = false)
    {reg : Reg8} (hplace : work.place = .reg8 reg) (hreaches : code.Reaches page work.place writes)
    (hworks : code.WorksOn work) : Brings config bytes count page k c code work [] := by
  have hplain := hreaches.plain (by rw [hplace]; rfl)
  have hstands := h.stands code hawake hplain
  have haddress : (c.takeUp code).addressOperand code = c.takeUp code :=
    addressOperand_idle (by rw [hreaches.memory, hplace]; rintro _ ⟨⟩) _
  have hbegins : c.beginExecution code = (work.acts (c.takeUp code)).fitLength := by
    rw [Core.beginExecution_acts hstands, haddress, hworks, if_pos (by rw [hplace]; rfl)]
  have hread : (c.takeUp code).read8 work.place
      = work.place.value config bytes k.regs (argument config bytes count page k) := by
    have hvalue : c.regs.reg8 reg = k.regs.reg8 reg := by
      obtain ⟨r, hregs⟩ := h.regs
      have hordinary := hreaches.isPlace
      rw [hplace] at hordinary
      rw [hregs]
      cases reg <;> first | rfl | cases hordinary
    rw [hplace, Core.read8, hstands.regs]
    exact hvalue
  have hworked : (work.acts (c.takeUp code)).Worked code work c.regs
      (work.place.value config bytes k.regs (argument config bytes count page k))
      (work.place.address? k.regs (argument config bytes count page k)) :=
    hstands.worked hread (by rw [hplace]; rintro _ ⟨⟩)
  refine h.brings_of_worked hreaches 0 c.regs.wz (by rw [hplace]; rfl)
    (by rw [hbegins]; rfl) ?_
  rw [show c.regs.pc + (0 : Nat).toUInt16 = c.regs.pc from UInt16.add_zero _]
  exact ⟨hworked.stands.imp fun _ => Core.Stands.fitLength, hworked.out, hworked.address⟩

/-- The byte of the instruction itself is read behind the opcode. -/
theorem brings_immediate (h : Scene.TakesUp config bytes count page k c) (hawake : k.halted = false)
    (hplace : work.place = .immediate8) (hreaches : code.Reaches page work.place writes)
    (hworks : code.WorksOn work) {t : Nat} :
    Brings config bytes count page k c code work [⟨.operand, t⟩] := by
  have hplain := hreaches.plain (by rw [hplace]; rfl)
  have hstands := h.stands code hawake hplain
  have haddress : (c.takeUp code).addressOperand code = c.takeUp code :=
    addressOperand_idle (by rw [hreaches.memory, hplace]; rintro _ ⟨⟩) _
  have hbegins : c.beginExecution code = (c.takeUp code).fitLength := by
    rw [begins_idle hstands hworks (by rw [hplace]; decide), haddress]
  obtain ⟨d, hd, hdoes⟩ := hstands.fitLength.does config bytes t .operand rfl (by decide)
    fun _ => by rw [hreaches.index, hplace]; rfl
  rw [hworks, if_pos (by rw [hplace]; rfl)] at hdoes
  have hread : d.read8 work.place
      = work.place.value config bytes k.regs (argument config bytes count page k) := by
    rw [hplace, Core.read8, hd.latches]
    exact h.byteAt_pc hplain
  exact h.brings_of_worked hreaches 1 c.regs.wz (by rw [hplace]; rfl)
    (by rw [hbegins, List.foldl_cons, hdoes]; rfl) (hd.worked hread (by rw [hplace]; rintro _ ⟨⟩))

/-- The byte at HL is addressed at decode. -/
theorem brings_hl (h : Scene.TakesUp config bytes count page k c) (hawake : k.halted = false)
    (hplace : work.place = .indirect .hl) (hreaches : code.Reaches page work.place writes)
    (hworks : code.WorksOn work) {t : Nat} :
    Brings config bytes count page k c code work [⟨.memoryRead, t⟩] := by
  have hplain := hreaches.plain (by rw [hplace]; rfl)
  have hstands := (h.stands code hawake hplain).addressOperand_hl
    (by rw [hreaches.memory, hplace]; rfl)
  have hbegins := begins_idle (h.stands code hawake hplain) hworks (by rw [hplace]; decide)
  obtain ⟨d, hdoes, hworked⟩ := hstands.fitLength.works config bytes t
    hworks (by rw [hplace]; rfl) fun d => by rw [hplace]; rfl
  refine h.brings_of_worked hreaches 0 c.regs.wz (by rw [hplace]; rfl)
    (by rw [hbegins, List.foldl_cons, hdoes]; rfl) ?_
  rw [hplace, show c.regs.pc + (0 : Nat).toUInt16 = c.regs.pc from UInt16.add_zero _]
  rw [show c.regs.hl = k.regs.hl from h.reg16_eq .hl] at hworked
  exact hworked

/-- Where the displacement comes in front of the opcode, the byte is addressed before anything. -/
theorem brings_displaced (h : Scene.TakesUp config bytes count page k c) (hawake : k.halted = false)
    {x : Index} (hplace : work.place = .indexed x) (hreaches : code.Reaches page work.place writes)
    (hworks : code.WorksOn work) (hdisplaced : page.displaced = true) {t : Nat} :
    Brings config bytes count page k c code work [⟨.memoryRead, t⟩] := by
  obtain ⟨latches, haddr, hstands⟩ := h.stands_displaced hawake hdisplaced
    (x := x) (by rw [hreaches.index, hplace]; rfl)
  have haddress : (c.takeUp code).addressOperand code = c.takeUp code :=
    addressOperand_idle (by rw [hreaches.memory, hplace]; rintro _ ⟨⟩) _
  have hbegins : c.beginExecution code = (c.takeUp code).fitLength := by
    rw [begins_idle hstands hworks (by rw [hplace]; exact nofun), haddress]
  obtain ⟨d, hdoes, hworked⟩ := hstands.fitLength.works config bytes t
    hworks (by rw [hplace]; rfl) fun d => by rw [hplace]; rfl
  have hplaced : latches.addr
      = k.regs.reg16 x.pair + Word.ofDisplacement (argument config bytes count page k) := by
    rw [haddr, h.reg16_eq, argument, Page.argument, if_pos hdisplaced]
  refine h.brings_of_worked hreaches 0 latches.addr
    (by rw [hplace, Operand.brings, if_pos hdisplaced]; rfl)
    (by rw [hbegins, List.foldl_cons, hdoes]; rfl) ?_
  rw [hplace, show c.regs.pc + (0 : Nat).toUInt16 = c.regs.pc from UInt16.add_zero _]
  rw [hplaced] at hworked ⊢
  exact hworked

/-- Where it comes behind the opcode, the byte is addressed when the displacement is read. -/
theorem brings_indexed (h : Scene.TakesUp config bytes count page k c) (hawake : k.halted = false)
    {x : Index} (hplace : work.place = .indexed x) (hreaches : code.Reaches page work.place writes)
    (hworks : code.WorksOn work) (hplain : page.displaced = false) {t t' t'' : Nat} :
    Brings config bytes count page k c code work
      [⟨.operand, t⟩, ⟨.internal, t'⟩, ⟨.memoryRead, t''⟩] := by
  have hstands := h.stands code hawake hplain
  have haddress : (c.takeUp code).addressOperand code = c.takeUp code :=
    addressOperand_idle (by rw [hreaches.memory, hplace]; rintro _ ⟨⟩) _
  have hbegins : c.beginExecution code = (c.takeUp code).fitLength := by
    rw [begins_idle hstands hworks (by rw [hplace]; exact nofun), haddress]
  have hlacks : (c.beginExecution code).displacement = none := by
    rw [(Core.displacement_beginExecution c code).1, h.displacement, hplain]
    rfl
  rw [hbegins] at hlacks
  obtain ⟨d, latches, hdoes, haddr, hd⟩ := hstands.fitLength.places config bytes t
    (by rw [hreaches.index, hplace]; rfl) hlacks
  obtain ⟨e, he, hdoes'⟩ := hd.does config bytes t' .internal rfl (by decide) (by rintro ⟨⟩)
  rw [hworks, if_neg (by rw [hplace]; exact nofun)] at hdoes'
  obtain ⟨f, hdoes'', hworked⟩ := he.works config bytes t'' hworks
    (by rw [hplace]; rfl) fun d => by rw [hplace]; rfl
  have hplaced : latches.addr
      = k.regs.reg16 x.pair + Word.ofDisplacement (argument config bytes count page k) := by
    rw [haddr, h.reg16_eq, h.byteAt_pc hplain]
  refine h.brings_of_worked hreaches 1 latches.addr
    (by rw [hplace, Operand.brings, hplain]; rfl) ?_ ?_ (d := f)
  · rw [hbegins, List.foldl_cons, hdoes, List.foldl_cons, hdoes', List.foldl_cons]
    exact hdoes''
  · have hdone : f.Worked code work { c.regs with pc := c.regs.pc + 1, wz := latches.addr }
        (config.byteAt bytes latches.addr) (some latches.addr) := hworked
    rw [hplaced] at hdone ⊢
    rw [hplace]
    exact hdone

/-- Wherever the byte is, the cycles that bring it end in the work. -/
theorem brings (h : Scene.TakesUp config bytes count page k c) (hawake : k.halted = false)
    (hreaches : code.Reaches page work.place writes) (hworks : code.WorksOn work)
    (hlead : lead.map MachineCycle.kind = work.place.brings page.displaced) :
    Brings config bytes count page k c code work lead := by
  have hplace := hreaches.isPlace
  cases hcase : work.place with
  | reg8 reg =>
    rw [hcase] at hlead
    obtain rfl : lead = [] := List.map_eq_nil_iff.mp hlead
    exact h.brings_register hawake hcase hreaches hworks
  | immediate8 =>
    rw [hcase] at hlead
    obtain ⟨⟨_, t⟩, rest, rfl, rfl, hrest⟩ := List.map_eq_cons_iff.mp hlead
    obtain rfl : rest = [] := List.map_eq_nil_iff.mp hrest
    exact h.brings_immediate hawake hcase hreaches hworks
  | indirect rr =>
    rw [hcase] at hlead hplace
    obtain rfl : rr = .hl := by cases rr <;> first | rfl | cases hplace
    obtain ⟨⟨_, t⟩, rest, rfl, rfl, hrest⟩ := List.map_eq_cons_iff.mp hlead
    obtain rfl : rest = [] := List.map_eq_nil_iff.mp hrest
    exact h.brings_hl hawake hcase hreaches hworks
  | indexed x =>
    rw [hcase, Operand.brings] at hlead
    cases hdisplaced : page.displaced with
    | true =>
      rw [if_pos hdisplaced] at hlead
      obtain ⟨⟨_, t⟩, rest, rfl, rfl, hrest⟩ := List.map_eq_cons_iff.mp hlead
      obtain rfl : rest = [] := List.map_eq_nil_iff.mp hrest
      exact h.brings_displaced hawake hcase hreaches hworks hdisplaced
    | false =>
      rw [hdisplaced] at hlead
      obtain ⟨⟨_, t⟩, later, rfl, rfl, hlater⟩ := List.map_eq_cons_iff.mp hlead
      obtain ⟨⟨_, t'⟩, last, rfl, rfl, hlast⟩ := List.map_eq_cons_iff.mp hlater
      obtain ⟨⟨_, t''⟩, rest, rfl, rfl, hrest⟩ := List.map_eq_cons_iff.mp hlast
      obtain rfl : rest = [] := List.map_eq_nil_iff.mp hrest
      exact h.brings_indexed hawake hcase hreaches hworks hdisplaced
  | _ =>
    rw [hcase] at hplace
    cases hplace

end Scene.TakesUp

/-- The bytes of memory once the work is done: what is put out goes to the place it has come from. -/
def ByteWork.left (work : ByteWork) (config : BoardConfig) (bytes : Array Byte) (regs : Registers)
    (v : Byte) (address? : Option Word) : Array Byte :=
  match work.out, address? with
  | some f, some address => config.apply bytes ⟨address, f regs v⟩
  | _, _ => bytes

/-- The work that is done is written back. -/
theorem Core.Worked.writes {c : Core} {code : Instruction} {work : ByteWork}
    {regs : Registers} {v : Byte} {address? : Option Word} {store : List MachineCycle}
    (h : c.Worked code work regs v address?) (config : BoardConfig) (bytes : Array Byte)
    (hworks : code.WorksOn work)
    (hready : work.place.readyAt ≠ .after .memoryWrite)
    (haddress : work.out.isSome = true → address?.isSome = true)
    (hstore : store.map MachineCycle.kind = if work.out.isSome then [.memoryWrite] else []) :
    ∃ d latches, store.foldl (Core.does config) (c, bytes)
        = (d, work.left config bytes regs v address?)
      ∧ d.Stands code false (work.regs regs v) latches := by
  obtain ⟨latches, hstands⟩ := h.stands
  unfold ByteWork.left
  cases hout : work.out with
  | none =>
    rw [hout] at hstore
    obtain rfl : store = [] := List.map_eq_nil_iff.mp hstore
    exact ⟨c, latches, rfl, hstands⟩
  | some f =>
    rw [hout] at hstore haddress
    obtain ⟨address, rfl⟩ := Option.isSome_iff_exists.mp (haddress rfl)
    obtain ⟨⟨_, t⟩, rest, rfl, rfl, hrest⟩ := List.map_eq_cons_iff.mp hstore
    obtain rfl : rest = [] := List.map_eq_nil_iff.mp hrest
    obtain ⟨d, hd, hdoes⟩ := hstands.does config bytes t .memoryWrite rfl (by decide) (by rintro ⟨⟩)
    rw [hworks, if_neg hready.symm] at hdoes
    have houtLow := h.out f hout
    have haddr := h.address address rfl
    rw [hstands.latches] at houtLow haddr
    refine ⟨d, _, ?_, hd⟩
    rw [List.foldl_cons, hdoes]
    dsimp only
    rw [← houtLow, ← haddr]
    rfl

/-- An instruction that works on one byte comes to its work, wherever the byte is. -/
theorem Core.Embarks.works {config : BoardConfig} {k : Core} {bytes : Array Byte} {count : Nat}
    {page : Page} {opcode : Byte} {work : ByteWork} (h : k.Embarks)
    (hscans : Scans (config.byteAt bytes) k.regs.pc count page opcode)
    (hreaches : (decode page opcode).Reaches page work.place work.out.isSome)
    (hworks : (decode page opcode).WorksOn work) :
    ∃ r wz,
      let regs : Registers :=
        { k.regs with pc := k.regs.pc + (count + (decode page opcode).size).toUInt16, r, wz }
      let n := Scene.TakesUp.argument config bytes count page k
      let v := work.place.value config bytes k.regs n
      k.Comes config bytes
        (List.replicate count ⟨.opcodeFetch, 4⟩ ++ (decode page opcode).timing.primary.cycles)
        (work.regs regs v)
        (work.left config bytes regs v (work.place.address? k.regs n)) := by
  obtain ⟨lead, store, hdrop, hlead, hstore⟩ := List.map_eq_append_iff.mp hreaches.cycles
  have hplain : ∀ cycle ∈ lead ++ store, cycle.kind.isPlain = true := by
    intro cycle hmem
    have hkind := List.mem_map_of_mem (f := MachineCycle.kind) hmem
    rw [← hdrop, hreaches.cycles] at hkind
    exact Operand.isPlain_of_brings _ _ _ _ hkind
  have htails : (decode page opcode).Tails page fun _ => lead ++ store :=
    ⟨hreaches.entitled, hreaches.once, fun met => by rw [hreaches.cycles_eq met, hdrop],
      fun _ => hplain⟩
  obtain ⟨c, htakes, hcomes⟩ := h.comes hscans htails
  obtain ⟨r, wz, d, hfold, hworked⟩ := htakes.brings h.awake hreaches hworks hlead
  have hready : work.place.readyAt ≠ .after .memoryWrite := by
    cases work.place <;> exact nofun
  obtain ⟨e, latches, hstores, hstands⟩ := hworked.writes config bytes hworks
    hready (fun hout => Operand.isSome_address (hreaches.stores hout) hreaches.isPlace) hstore
  refine ⟨r, wz, ?_⟩
  intro regs n v
  rw [← hreaches.cycles_eq]
  refine hcomes hstands ?_
  rw [List.foldl_append, hfold, hstores]

/-! ## Instructions that work on one byte -/

namespace Mnemonic

/-- An operation of the accumulator with a byte. -/
def accumulates : Mnemonic → Bool
  | .add | .adc | .sub | .sbc | .and | .xor | .or | .cp => true
  | _ => false

/-- A rotate or a shift. -/
def shift? : Mnemonic → Option Shift
  | .rlc => some .rlc
  | .rrc => some .rrc
  | .rl => some .rl
  | .rr => some .rr
  | .sla => some .sla
  | .sra => some .sra
  | .sll => some .sll
  | .srl => some .srl
  | _ => none

/-- What becomes of a byte and of the flags, given the number of the bit that is meant. -/
def change? (bit : Byte) (mnemonic : Mnemonic) : Option (Byte → Byte → Flagged Byte) :=
  match mnemonic with
  | .inc | .dec => some fun f v =>
    ⟨(Core.stepByte mnemonic v).value, (Core.stepByte mnemonic v).flags ||| (f &&& Flag.carry)⟩
  | .res | .set => some fun f v => ⟨Core.withBit mnemonic v bit, f⟩
  | _ => mnemonic.shift?.map fun op f v => shift8 op v (Flag.test f Flag.carry)

theorem isSome_change (bit : Byte) (mnemonic : Mnemonic) :
    (mnemonic.change? bit).isSome = (mnemonic.change? 0).isSome := by
  cases mnemonic <;> rfl

end Mnemonic

/-- The number of the bit that some operands name. -/
def Operand.bitNumber : List Operand → Byte
  | .bit n :: _ => n
  | _ => 0

/-- The operand that an instruction works on: the last one, if it is for the accumulator, or the first
    that is not the number of a bit. -/
def Operand.subject? (mnemonic : Mnemonic) (operands : List Operand) : Option Operand :=
  match operands with
  | .bit _ :: rest => rest.head?
  | _ => if mnemonic.accumulates then operands.getLast? else operands.head?

/-- The register that takes the result, if one is named last. -/
def Operand.target? (operands : List Operand) : Option Reg8 :=
  match operands.getLast? with
  | some (.reg8 reg) => some reg
  | _ => none

/-- Such an instruction reaches its byte, and has no other operands than those that it needs. -/
theorem Listing.Entitled.reaches {page : Page} {code : Instruction} {place : Operand}
    (h : Listing.Entitled Catalog.forms page code)
    (hm : code.mnemonic.accumulates = true ∨ (code.mnemonic.change? 0).isSome = true
      ∨ code.mnemonic = .bit)
    (hsubject : Operand.subject? code.mnemonic code.operands = some place)
    (hplace : place.isPlace = true) :
    code.Reaches page place ((code.mnemonic.change? 0).isSome && place.isMemory) := by
  have hcycles : ∀ p ∈ Catalog.forms, ∀ page, p.2.page = some page → ∀ e ∈ p.2.encodings,
      (p.1.accumulates = true ∨ (p.1.change? 0).isSome = true ∨ p.1 = .bit) →
      ∀ place ∈ (Operand.subject? p.1 e.2).toList, place.isPlace = true →
        p.1.repeats = false ∧ p.2.timing.alternate = none
        ∧ (p.2.timing.primary.cycles.drop (page.approach.length + 1)).map MachineCycle.kind
          = place.brings page.displaced
            ++ if (p.1.change? 0).isSome && place.isMemory then [.memoryWrite] else [] := by
    decide +kernel
  have hoperands : ∀ p ∈ Catalog.forms, ∀ page, p.2.page = some page → ∀ e ∈ p.2.encodings,
      (p.1.accumulates = true ∨ (p.1.change? 0).isSome = true ∨ p.1 = .bit) →
      ∀ place ∈ (Operand.subject? p.1 e.2).toList, place.isPlace = true →
        (e.2.find? Operand.isMemory = if place.isMemory then some place else none)
        ∧ e.2.findSome? Operand.index? = place.index?
        ∧ (page.displaced = true → place.index?.isSome = true) := by
    decide +kernel
  have hentitled := h
  obtain ⟨m, f, hf, hpage, hcode⟩ := h
  obtain ⟨opcode, hmem⟩ := hcode.operands
  rw [hcode.mnemonic] at hm hsubject ⊢
  have hfound := Option.mem_toList.mpr hsubject
  obtain ⟨honce, hfixed, hcycles⟩ := hcycles (m, f) hf page hpage _ hmem hm place hfound hplace
  obtain ⟨hmemory, hindex, hdisplaced⟩ :=
    hoperands (m, f) hf page hpage _ hmem hm place hfound hplace
  refine ⟨hentitled, hcode.mnemonic ▸ honce, hplace, ?_, ?_, ?_, hmemory, hindex, hdisplaced⟩
  · rw [hcode.timing]
    exact hfixed
  · rw [hcode.timing]
    exact hcycles
  · intro hboth
    exact (Bool.and_eq_true_iff.mp hboth).2

/-- The number of a bit comes first where one is meant, and a register that takes the result besides
    memory last. -/
theorem Listing.Entitled.byte_operands {page : Page} {code : Instruction} {place : Operand}
    (h : Listing.Entitled Catalog.forms page code)
    (hm : (code.mnemonic.change? 0).isSome = true ∨ code.mnemonic = .bit)
    (hsubject : Operand.subject? code.mnemonic code.operands = some place)
    (hplace : place.isPlace = true) :
    code.operands = (if code.mnemonic ∈ [.bit, .res, .set]
        then [.bit (Operand.bitNumber code.operands)] else [])
      ++ place :: (if place.isMemory
        then ((Operand.target? code.operands).map .reg8).toList else [])
      ∧ (place.isMemory = false → (Operand.target? code.operands).map .reg8 = some place)
      ∧ (code.mnemonic ∈ [.inc, .dec] → place.isMemory = true → Operand.target? code.operands = none)
      ∧ Operand.target? code.operands ≠ some .r := by
  have hoperands : ∀ p ∈ Catalog.forms, ∀ e ∈ p.2.encodings,
      ((p.1.change? 0).isSome = true ∨ p.1 = .bit) →
      ∀ place ∈ (Operand.subject? p.1 e.2).toList, place.isPlace = true →
        e.2 = (if p.1 ∈ [.bit, .res, .set] then [.bit (Operand.bitNumber e.2)] else [])
          ++ place :: (if place.isMemory then ((Operand.target? e.2).map .reg8).toList else [])
        ∧ (place.isMemory = false → (Operand.target? e.2).map .reg8 = some place)
        ∧ (p.1 ∈ [.inc, .dec] → place.isMemory = true → Operand.target? e.2 = none)
        ∧ Operand.target? e.2 ≠ some .r := by
    decide +kernel
  obtain ⟨m, f, hf, -, hcode⟩ := h
  obtain ⟨opcode, hmem⟩ := hcode.operands
  rw [hcode.mnemonic] at hm hsubject ⊢
  exact hoperands (m, f) hf _ hmem hm place (Option.mem_toList.mpr hsubject) hplace

/-- The accumulator is named first, if at all. -/
theorem Listing.Entitled.accumulator_operands {page : Page} {code : Instruction} {place : Operand}
    (h : Listing.Entitled Catalog.forms page code) (hm : code.mnemonic.accumulates = true)
    (hsubject : Operand.subject? code.mnemonic code.operands = some place)
    (hplace : place.isPlace = true) :
    code.operands = [place] ∨ code.operands = [.reg8 .a, place] := by
  have hoperands : ∀ p ∈ Catalog.forms, ∀ e ∈ p.2.encodings, p.1.accumulates = true →
      ∀ place ∈ (Operand.subject? p.1 e.2).toList, place.isPlace = true →
        e.2 = [place] ∨ e.2 = [.reg8 .a, place] := by
    decide +kernel
  obtain ⟨m, f, hf, -, hcode⟩ := h
  obtain ⟨opcode, hmem⟩ := hcode.operands
  rw [hcode.mnemonic] at hm hsubject
  exact hoperands (m, f) hf _ hmem hm place (Option.mem_toList.mpr hsubject) hplace

namespace ByteWork

variable {code : Instruction} {place : Operand} {mnemonic : Mnemonic} {target : Option Reg8}
  {change : Byte → Byte → Flagged Byte} {bit : Byte}

/-- An operation of the accumulator with the byte. -/
def accumulates (mnemonic : Mnemonic) (place : Operand) : ByteWork :=
  { place
    regs := fun regs v =>
      regs.setAccumulator (Core.byteOperation mnemonic regs.a v (regs.flag Flag.carry))
    out := none }

/-- A change of the byte in its place, which a register may take as well. -/
def changes (change : Byte → Byte → Flagged Byte) (place : Operand) (target : Option Reg8) :
    ByteWork :=
  { place
    regs := fun regs v =>
      { target.elim regs (regs.setReg8 (change regs.f v).value) with f := (change regs.f v).flags }
    out := if place.isMemory then some fun regs v => (change regs.f v).value else none }

/-- A test of a bit.  The flags X and Y come from the byte itself if it is in a register, and from WZ
    if it is in memory. -/
def tests (bit : Byte) (place : Operand) : ByteWork :=
  { place
    regs := fun regs v => { regs with
      f := Core.bitFlags regs.f v (if place.isMemory then Word.high regs.wz else v) bit }
    out := none }

theorem worksOn_accumulates (hm : code.mnemonic.accumulates = true)
    (hoperands : code.operands = [place] ∨ code.operands = [.reg8 .a, place])
    (hplace : place.isPlace = true) : code.WorksOn (accumulates code.mnemonic place) := by
  intro c point
  have hlast : code.operands.getLast? = some place := by
    rcases hoperands with hops | hops <;> rw [hops] <;> rfl
  have hacts : Core.act c code point = c.alu8 code.mnemonic point (some place) := by
    rw [← hlast, Core.act]
    cases hcase : code.mnemonic
    case add | adc | sbc =>
      rcases hoperands with hops | hops <;> rw [hops]
      · cases place <;> first
          | rfl
          | cases hplace
      · rfl
    case sub | and | xor | or | cp => rfl
    all_goals
      rw [hcase] at hm
      cases hm
  rw [hacts]
  by_cases hready : point = place.readyAt
  · refine (if_pos hready).trans (Eq.trans ?_ (if_pos hready).symm)
    by_cases hcp : code.mnemonic = .cp
    · refine (if_pos hcp).trans ?_
      rw [hcp]
      rfl
    · exact if_neg hcp
  · exact (if_neg hready).trans (if_neg hready).symm

theorem read8_memory (hmemory : place.isMemory = true) (c : Core) :
    c.read8 place = c.latches.dataLow := by
  cases place <;> first
    | rfl
    | cases hmemory

/-- A byte of memory is put out again, and copied to a register if one is named. -/
theorem acts_changes (hmemory : place.isMemory = true) (c : Core) :
    (changes change place target).acts c
      = { c with
          latches.outLow := (change c.regs.f c.latches.dataLow).value
          regs.f := (change c.regs.f c.latches.dataLow).flags }.copyTo
            (change c.regs.f c.latches.dataLow).value (target.map .reg8) := by
  rw [acts, changes]
  dsimp only
  rw [read8_memory hmemory, if_pos hmemory]
  cases target with
  | none => rfl
  | some reg => cases reg <;> rfl

theorem shiftOperand_memory (hmemory : place.isMemory = true) (c : Core) (point : ExecPoint)
    (op : Shift) :
    c.shiftOperand point op (some place) (target.map .reg8)
      = if point = place.readyAt then
          (changes (fun f v => shift8 op v (Flag.test f Flag.carry)) place target).acts c
        else c := by
  rw [acts_changes hmemory]
  cases place <;> first
    | rfl
    | cases hmemory

theorem bitOperand_memory (hmemory : place.isMemory = true) (c : Core) (point : ExecPoint)
    (hmnemonic : mnemonic ≠ .bit) :
    c.bitOperand mnemonic point (some (.bit bit)) (some place) (target.map .reg8)
      = if point = place.readyAt then
          (changes (fun f v => ⟨Core.withBit mnemonic v bit, f⟩) place target).acts c
        else c := by
  have hwrite (c : Core) (v : Byte) : c.write8 v place = { c with latches.outLow := v } := by
    cases place <;> first
      | rfl
      | cases hmemory
  have hoperation : c.bitOperand mnemonic point (some (.bit bit)) (some place) (target.map .reg8)
      = if point = place.readyAt then
          c.bitOperation mnemonic bit c.latches.dataLow (Word.high c.regs.wz) place
            (target.map .reg8)
        else c := by
    cases place <;> first
      | rfl
      | cases hmemory
  rw [hoperation, Core.bitOperation, if_neg hmnemonic]
  dsimp only
  rw [hwrite, acts_changes hmemory]

/-- What changes a byte acts once it is there. -/
theorem worksOn_changes (hchange : code.mnemonic.change? bit = some change)
    (hoperands : code.operands = (if code.mnemonic ∈ [.bit, .res, .set] then [.bit bit] else [])
      ++ place :: (if place.isMemory then (target.map .reg8).toList else []))
    (htarget : place.isMemory = false → target.map .reg8 = some place)
    (hstep : code.mnemonic ∈ [.inc, .dec] → place.isMemory = true → target = none) :
    code.WorksOn (changes change place target) := by
  intro c point
  rw [Core.act, hoperands]
  cases hmemory : place.isMemory with
  | false =>
    obtain ⟨reg, rfl, rfl⟩ := Option.map_eq_some_iff.mp (htarget hmemory)
    cases hcase : code.mnemonic <;> rw [hcase] at hchange
    case inc | dec | rlc | rrc | rl | rr | sla | sra | sll | srl =>
      cases hchange
      rfl
    case res | set =>
      cases hchange
      cases reg <;> rfl
    all_goals cases hchange
  | true =>
    have hcopy : (place :: (target.map Operand.reg8).toList)[1]? = target.map .reg8 := by
      cases target <;> rfl
    cases hcase : code.mnemonic <;> rw [hcase] at hchange
    case inc | dec =>
      obtain rfl := hstep (by rw [hcase]; decide) hmemory
      cases hchange
      cases place <;> first
        | rfl
        | cases hmemory
    case rlc | rrc | rl | rr | sla | sra | sll | srl =>
      cases hchange
      exact (congrArg _ hcopy).trans (shiftOperand_memory hmemory c point _)
    case res | set =>
      cases hchange
      exact (congrArg _ hcopy).trans (bitOperand_memory hmemory c point (by decide))
    all_goals cases hchange

/-- A test of a bit acts once the byte is there. -/
theorem worksOn_tests (hm : code.mnemonic = .bit) {copies : List Operand}
    (hoperands : code.operands = .bit bit :: place :: copies) (hplace : place.isPlace = true)
    (hother : place ≠ .immediate8) : code.WorksOn (tests bit place) := by
  intro c point
  rw [Core.act, hm, hoperands]
  cases place with
  | reg8 | indirect | indexed => rfl
  | immediate8 => exact absurd rfl hother
  | _ => cases hplace

end ByteWork

/-- But for X and Y a test of a bit does not depend on where they come from. -/
theorem Core.bitFlags_and_not_xy (f v xy bit : Byte) :
    Core.bitFlags f v xy bit &&& ~~~Flag.xy = Core.bitFlags f v 0 bit := by
  have hcarry : f &&& Flag.carry &&& ~~~Flag.xy = f &&& Flag.carry := by
    rw [UInt8.and_assoc]
    rfl
  have hnone : xy &&& Flag.xy &&& ~~~Flag.xy = 0 := Flag.and_apart (by decide)
  have hwhen (b : Bool) {mask : Byte} (hmask : mask &&& ~~~Flag.xy = mask) :
      Flag.when b mask &&& ~~~Flag.xy = Flag.when b mask := by
    cases b
    · exact UInt8.zero_and
    · exact hmask
  rw [bitFlags, bitFlags]
  rw [Flag.or_and, Flag.or_and, Flag.or_and, Flag.or_and, hcarry, hnone, hwhen _ (by decide),
    hwhen _ (by decide), UInt8.zero_and]
  rfl

/-- A name other than R stands for the same register once PC, R and WZ have changed. -/
theorem Registers.setReg8_moved {regs : Registers} {pc wz : Word} {r f v : Byte} {target : Option Reg8}
    (htarget : target ≠ some .r) :
    ({ target.elim { regs with pc, r, wz } (({ regs with pc, r, wz } : Registers).setReg8 v)
        with f } : Registers)
      = { target.elim regs (regs.setReg8 v) with f, pc, r, wz } := by
  cases target with
  | none => rfl
  | some reg => cases reg <;> first
    | rfl
    | exact absurd rfl htarget

section

variable {config : BoardConfig} {m : Machine} {k : Core} {count : Nat} {page : Page} {opcode : Byte}
  {place : Operand}

/-- Addressing modes agree.  A byte operation of the accumulator, a change of a byte, and a test of a
    bit come to the same wherever the byte is: in a register, in the instruction, at HL, or at a
    displacement from an index register.  A change in memory is one store, and goes to a register as
    well if one is named.  The tests differ in X and Y alone. -/
theorem Attended.modes_agree (h : Attended config m.board)
    (hopens : m.board.Opens m.clock.level.flip k)
    (hscans : Scans (config.byteAt m.memory.bytes) k.regs.pc count page opcode)
    (hsubject : Operand.subject? (decode page opcode).mnemonic (decode page opcode).operands
      = some place)
    (hplace : place.isPlace = true) :
    let code := decode page opcode
    let n := Scene.TakesUp.argument config m.memory.bytes count page k
    let v := place.value config m.memory.bytes k.regs n
    let cycles := List.replicate count ⟨.opcodeFetch, 4⟩ ++ code.timing.primary.cycles
    let pc := k.regs.pc + (count + code.size).toUInt16
    let bit := Operand.bitNumber code.operands
    (code.mnemonic.accumulates = true →
      let result := Core.byteOperation code.mnemonic k.regs.a v (k.regs.flag Flag.carry)
      ∃ r wz, m.Yields config k cycles
        { k.regs with a := result.value, f := result.flags, pc, r, wz } m.memory.bytes)
    ∧ (∀ change, code.mnemonic.change? bit = some change →
      let result := change k.regs.f v
      ∃ r wz, m.Yields config k cycles
        { (Operand.target? code.operands).elim k.regs (k.regs.setReg8 result.value) with
          f := result.flags, pc, r, wz }
        (match place.address? k.regs n with
          | some address => config.apply m.memory.bytes ⟨address, result.value⟩
          | none => m.memory.bytes))
    ∧ (code.mnemonic = .bit → ∃ f r wz, f &&& ~~~Flag.xy = Core.bitFlags k.regs.f v 0 bit
      ∧ m.Yields config k cycles { k.regs with f, pc, r, wz } m.memory.bytes) := by
  intro code n v cycles pc bit
  have hentitled := hscans.entitled
  refine ⟨fun hm => ?_, fun change hchange => ?_, fun hm => ?_⟩
  · have hoperands := hentitled.accumulator_operands hm hsubject hplace
    have hworks := ByteWork.worksOn_accumulates hm hoperands hplace
    have hreaches := hentitled.reaches (Or.inl hm) hsubject hplace
    have hwrites : ((code.mnemonic.change? 0).isSome && place.isMemory) = false := by
      cases hcase : code.mnemonic <;> rw [hcase] at hm <;> first
        | rfl
        | cases hm
    rw [hwrites] at hreaches
    obtain ⟨r, wz, hcomes⟩ := (h.embarks hopens).works hscans hreaches hworks
    have hyields := h.yields hopens hcomes
    exact ⟨r, wz, hyields⟩
  · have hsome : (code.mnemonic.change? 0).isSome = true := by
      rw [← Mnemonic.isSome_change bit, hchange]
      rfl
    obtain ⟨hoperands, htarget, hstep, hr⟩ :=
      hentitled.byte_operands (Or.inl hsome) hsubject hplace
    have hworks := ByteWork.worksOn_changes hchange hoperands htarget hstep
    have hreaches := hentitled.reaches (Or.inr (Or.inl hsome)) hsubject hplace
    have hwrites : ((code.mnemonic.change? 0).isSome && place.isMemory)
        = (ByteWork.changes change place (Operand.target? code.operands)).out.isSome := by
      rw [hsome, ByteWork.changes]
      cases place.isMemory <;> rfl
    rw [hwrites] at hreaches
    obtain ⟨r, wz, hcomes⟩ := (h.embarks hopens).works hscans hreaches hworks
    have hyields := h.yields hopens hcomes
    have hleft : (ByteWork.changes change place (Operand.target? code.operands)).left config
        m.memory.bytes { k.regs with pc, r, wz } v (place.address? k.regs n)
        = match place.address? k.regs n with
          | some address => config.apply m.memory.bytes ⟨address, (change k.regs.f v).value⟩
          | none => m.memory.bytes := by
      cases place <;> rfl
    refine ⟨r, wz, ?_⟩
    rw [← hleft, ← Registers.setReg8_moved hr]
    exact hyields
  · obtain ⟨hoperands, htarget, -, -⟩ := hentitled.byte_operands (Or.inr hm) hsubject hplace
    have hother : place ≠ .immediate8 := by
      rintro rfl
      obtain ⟨_, -, hreg⟩ := Option.map_eq_some_iff.mp (htarget rfl)
      cases hreg
    have hnamed : code.mnemonic ∈ [.bit, .res, .set] := by
      rw [hm]
      decide
    rw [if_pos hnamed] at hoperands
    have hworks := ByteWork.worksOn_tests hm hoperands hplace hother
    have hreaches := hentitled.reaches (Or.inr (Or.inr hm)) hsubject hplace
    have hwrites : ((code.mnemonic.change? 0).isSome && place.isMemory) = false := by
      rw [hm]
      rfl
    rw [hwrites] at hreaches
    obtain ⟨r, wz, hcomes⟩ := (h.embarks hopens).works hscans hreaches hworks
    have hyields := h.yields hopens hcomes
    exact ⟨_, r, wz, Core.bitFlags_and_not_xy .., hyields⟩

/-- A machine whose first instruction is an RLC of the byte below IY, copied to B. -/
def modesMachine : Machine :=
  smallMachine.onBoard (smallMachine.board.set {} {}
    (fun regs => { regs with iy := 0x11, pc := 0, f := 0 })
    (([0xFD, 0xCB, 0xFF, 0x00] : List Byte) ++ List.replicate 12 0 ++ [0x81]
      ++ List.replicate 0x3EF 0).toArray)

/-- The chip that runs its first half-period. -/
def modesChip : Core :=
  { modesMachine.core.sampleInputs modesMachine.board.inputs with phase := .running }.resolveNext

/-- The byte is rotated in memory and in B, and the bit that leaves it is in the carry. -/
theorem modes_of_rlc :
    modesMachine.board.Opens modesMachine.clock.level.flip modesChip
      ∧ ∃ r wz, modesMachine.Yields smallConfig modesChip
        [⟨.opcodeFetch, 4⟩, ⟨.opcodeFetch, 4⟩, ⟨.operand, 3⟩, ⟨.opcodeFetch, 5⟩, ⟨.memoryRead, 4⟩,
          ⟨.memoryWrite, 3⟩]
        { modesChip.regs with b := 0x03, f := 0x05, pc := 4, r, wz }
        (smallConfig.apply modesMachine.memory.bytes ⟨0x10, 0x03⟩) := by
  have hbuilt : Machine.build smallConfig .unattached = .ok smallMachine := rfl
  have hstart : Attended smallConfig smallMachine.board := .start hbuilt (by decide +kernel)
  have hattended : Attended smallConfig modesMachine.board := hstart.set _ _ _ _ (by decide +kernel)
  have hopens : modesMachine.board.Opens modesMachine.clock.level.flip modesChip := by
    refine ⟨rfl, ?_, ?_, ?_, ?_⟩ <;> decide +kernel
  have hopcode : smallConfig.byteAt modesMachine.memory.bytes (modesChip.regs.pc + 3) = 0x00 := by
    decide +kernel
  have hscans : Scans (smallConfig.byteAt modesMachine.memory.bytes) modesChip.regs.pc 0 .fdcb
      0x00 := by
    rw [← hopcode]
    exact .displaced (x := .iy) (by decide +kernel) (by decide +kernel)
  have hcode : (decode .fdcb 0x00).mnemonic = .rlc
      ∧ (decode .fdcb 0x00).operands = [.indexed .iy, .reg8 .b] ∧ (decode .fdcb 0x00).size = 4
      ∧ (decode .fdcb 0x00).timing = Catalog.indexBitModify := by
    decide +kernel
  obtain ⟨hmnemonic, hoperands, hsize, htiming⟩ := hcode
  have hargument : Scene.TakesUp.argument smallConfig modesMachine.memory.bytes 0 .fdcb modesChip
      = 0xFF := by
    decide +kernel
  have hvalue : Operand.value smallConfig modesMachine.memory.bytes modesChip.regs 0xFF (.indexed .iy)
      = 0x81 := by
    decide +kernel
  have hregs : modesChip.regs.iy + Word.ofDisplacement 0xFF = 0x10 ∧ modesChip.regs.f = 0
      ∧ modesChip.regs.pc + (0 + 4 : Nat).toUInt16 = 4 := by
    decide +kernel
  have hsubject : Operand.subject? (decode .fdcb 0x00).mnemonic (decode .fdcb 0x00).operands
      = some (.indexed .iy) := by
    rw [hmnemonic, hoperands]
    rfl
  obtain ⟨-, hchanges, -⟩ := hattended.modes_agree hopens hscans hsubject rfl
  obtain ⟨change, hchange, hresult⟩ : ∃ change, Mnemonic.change? 0 .rlc = some change
      ∧ change 0 0x81 = ⟨0x03, 0x05⟩ := ⟨_, rfl, by decide +kernel⟩
  obtain ⟨r, wz, hyields⟩ := hchanges change (by rw [hmnemonic, hoperands]; exact hchange)
  rw [hargument, hvalue, hoperands, hsize, htiming, Operand.address?, hregs.2.1, hregs.2.2] at hyields
  rw [hresult] at hyields
  refine ⟨hopens, r, wz, ?_⟩
  rw [← hregs.1]
  exact hyields

end

end Z80Board
