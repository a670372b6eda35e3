import Z80Board.Proofs.Arith.Flags
import Z80Board.Proofs.Rig.Blocks

/-! # A pass over a block

    A copy reads the byte at HL and stores it at DE; a search compares it with A.  Either steps its
    pointers and counts in BC, and then runs once more, with PC put back, or is over. -/

namespace Z80Board

/-! ## Flags -/

namespace Flag

variable {f n mask bits : Byte} {more : Bool}

theorem xyOfSum_apart (h : xy &&& mask = 0) : Core.xyOfSum n &&& mask = 0 := by
  have hx : x &&& mask = 0 := by rw [show x = x &&& xy from rfl, and_apart h]
  have hy : y &&& mask = 0 := by rw [show y = y &&& xy from rfl, and_apart h]
  rw [Core.xyOfSum, or_and, and_apart hx, and_apart hy]
  rfl

/-- The flags that a copy leaves. -/
theorem copied (f n : Byte) (more : Bool) :
    let after := (f &&& (sign ||| zero ||| carry)) ||| Core.xyOfSum n ||| Flag.when more parity
    after &&& (sign ||| zero ||| carry) = f &&& (sign ||| zero ||| carry)
      ∧ after &&& (half ||| subtract) = 0 ∧ test after parity = more := by
  refine ⟨?_, ?_, ?_⟩
  · rw [or_and, or_and, and_within (by decide), xyOfSum_apart (by decide), when_apart (by decide),
      UInt8.or_zero, UInt8.or_zero]
  · rw [or_and, or_and, and_apart (by decide), xyOfSum_apart (by decide), when_apart (by decide)]
    rfl
  · rw [test, or_and, or_and, and_apart (by decide), xyOfSum_apart (by decide)]
    cases more <;> rfl

/-- A zero sets the flag. -/
theorem zero_of_sz53 (v : Byte) : sz53 v &&& zero = Flag.when (v == 0) zero := by
  rw [sz53, or_and, and_apart (by decide), UInt8.zero_or]
  cases v == 0 <;> rfl

/-- The difference of two bytes is zero if they are the same, and sets the flag then. -/
theorem zero_of_sub8 (a b : Byte) :
    ((sub8 a b false).value == 0) = (a == b)
      ∧ (sub8 a b false).flags &&& zero = Flag.when (a == b) zero := by
  have hvalue : (sub8 a b false).value = a - b := UInt8.sub_zero _
  have hzero : (a - b == 0) = (a == b) := by
    refine Bool.eq_iff_iff.mpr ?_
    rw [beq_iff_eq, beq_iff_eq]
    exact ⟨fun hnone => by grind, fun hsame => by grind⟩
  refine ⟨by rw [hvalue, hzero], ?_⟩
  have hflags : (sub8 a b false).flags &&& zero = sz53 (a - b) &&& zero := by
    rw [← hvalue]
    show (_ ||| _ ||| _ ||| _ ||| _) &&& zero = _
    rw [or_and, or_and, or_and, or_and, when_apart (by decide), when_apart (by decide),
      when_apart (by decide), show subtract &&& zero = 0 by decide, UInt8.or_zero, UInt8.or_zero,
      UInt8.or_zero, UInt8.or_zero]
    rfl
  rw [hflags, zero_of_sz53, hzero]

/-- The flags that a comparison leaves. -/
theorem compared (a b f n : Byte) (more : Bool) :
    let after := ((sub8 a b false).flags &&& (sign ||| zero ||| half)) ||| subtract
      ||| (f &&& carry) ||| Core.xyOfSum n ||| Flag.when more parity
    after &&& carry = f &&& carry ∧ test after zero = (a == b) ∧ test after subtract = true
      ∧ test after parity = more := by
  refine ⟨?_, ?_, ?_, ?_⟩
  · rw [or_and, or_and, or_and, or_and, and_apart (by decide), and_within (by decide),
      xyOfSum_apart (by decide), when_apart (by decide), show subtract &&& carry = 0 by decide,
      UInt8.or_zero, UInt8.or_zero, UInt8.or_zero, UInt8.zero_or]
  · rw [test, or_and, or_and, or_and, or_and, and_within (by decide), (zero_of_sub8 a b).2,
      and_apart (by decide), xyOfSum_apart (by decide), when_apart (by decide),
      show subtract &&& zero = 0 by decide]
    cases a == b <;> rfl
  · rw [test, or_and, or_and, or_and, or_and, and_apart (by decide), and_apart (by decide),
      xyOfSum_apart (by decide), when_apart (by decide)]
    rfl
  · rw [test, or_and, or_and, or_and, or_and, and_apart (by decide), and_apart (by decide),
      xyOfSum_apart (by decide), show subtract &&& parity = 0 by decide]
    cases more <;> rfl

end Flag

/-! ## Passes -/

namespace Core

variable {c : Core} {code : Instruction} {byte : Byte}

/-- A repeating instruction puts PC back if there is more to do, and has one more cycle then. -/
theorem repeatWhile_eq (hcode : c.instruction = some code) (hrepeats : code.mnemonic.repeats = true)
    (more : Bool) : c.repeatWhile code.mnemonic more = { c with
      conditionMet := more
      cycles := code.timing.cycles more
      regs := if more then { c.regs with pc := c.regs.pc - 2, wz := c.regs.pc - 1 } else c.regs } := by
  rw [repeatWhile, if_pos hrepeats, repeatBlock, takeAlternate, hcode]
  cases more <;> rfl

/-- A cycle that reads memory or a port for the instruction. -/
theorem Reaches.acted_of_read {met : Bool} {position : Nat} (h : c.Reaches code met position)
    (hkind : c.cycle.kind ∈ [.memoryRead, .portRead]) (hindex : code.index? = none) :
    c.acted byte = ({ c with
      latches := { c.latches with fetched := byte, dataLow := byte } } : Core).act code
        (.after c.cycle.kind) := by
  simp only [List.mem_cons, List.not_mem_nil, or_false] at hkind
  have hplayed : c.played byte = c.fetch byte := by
    rw [played_eq, takeIn, h.pattern, movePointer]
    rcases hkind with hkind | hkind
    all_goals
      rw [hkind]
      rfl
  rw [acted, hplayed, latchResult_of_plain (c := c.fetch byte) h.known hindex]
  have hsame : (c.fetch byte).cycle.kind = c.cycle.kind := rfl
  rw [hsame, stow, hsame]
  rcases hkind with hkind | hkind
  all_goals
    rw [hkind, if_neg (by decide)]
    rfl

/-- A cycle that uses no bus, or writes. -/
theorem Reaches.acted_of_silent {met : Bool} {position : Nat} (h : c.Reaches code met position)
    (hkind : c.cycle.kind ∈ [.internal, .memoryWrite, .portWrite]) (hindex : code.index? = none) :
    c.acted byte = c.act code (.after c.cycle.kind) := by
  simp only [List.mem_cons, List.not_mem_nil, or_false] at hkind
  have hplayed : c.played byte = c := by
    rw [played_eq, takeIn, h.pattern, pushPointer]
    rcases hkind with hkind | hkind | hkind
    all_goals
      rw [hkind]
      rfl
  rw [acted, hplayed, latchResult_of_plain h.known hindex]
  rcases hkind with hkind | hkind | hkind
  all_goals
    rw [hkind, if_neg (by decide), stow, hkind]

end Core

namespace Scene

variable {w : Surroundings} {s : Scene} {code : Instruction} {d : Direction} {fourth : CycleKind}
  {met : Bool} {position : Nat}

/-- What the cycle at this position is. -/
theorem cycle_eq {cycle : MachineCycle} (h : s.core.Reaches code met position)
    (hcycle : (code.timing.cycles met)[position]? = some cycle) :
    s.core.cycle.kind = cycle.kind ∧ s.core.cycle.length = cycle.tStates := by
  have hsame := Option.some.inj (h.here.symm.trans hcycle)
  rw [← hsame]
  exact ⟨rfl, rfl⟩

/-- An instruction from memory reads from nothing else, unless it reads a port. -/
theorem own_of_reaches (h : s.core.Reaches code met position)
    (hkind : s.core.cycle.kind = .memoryRead ∨ s.core.cycle.kind = .internal
      ∨ s.core.cycle.kind = .memoryWrite) : s.core.cycle.readsElsewhere = false := by
  rw [ActiveCycle.readsElsewhere, h.pattern]
  rcases hkind with hkind | hkind | hkind <;> rw [hkind]
  · exact h.memory
  · rfl
  · rfl

/-- Two fetches read the instruction, which addresses the byte at HL. -/
theorem fetches (h : s.core.Fetches .main 0) (hawake : s.core.halted = false)
    (hlead : w.config.byteAt s.bytes s.core.regs.pc = 0xED)
    (hcode : decode .ed (w.config.byteAt s.bytes (s.core.regs.pc + 1)) = code)
    (hsweeps : code.Sweeps d fourth)
    (hact : ∀ c : Core, c.act code .decoded = { c with latches.addr := c.regs.hl }) :
    ((s.next w).next w).core.Reaches code false 2
      ∧ (∃ r, ((s.next w).next w).core.regs = { s.core.regs with r, pc := s.core.regs.pc + 2 })
      ∧ ((s.next w).next w).core.latches.addr = s.core.regs.hl
      ∧ ((s.next w).next w).bytes = s.bytes
      ∧ ∀ edges p bytes, ((s.next w).next w).Finishes w edges p bytes →
        s.Finishes w (16 + edges) p bytes := by
  let work : Registers → Latches → Registers × Latches :=
    fun regs latches => (regs, { latches with addr := regs.hl })
  have hwork (c : Core) : c.act code .decoded
      = { c with regs := (work c.regs c.latches).1, latches := (work c.regs c.latches).2 } := hact c
  obtain ⟨⟨hmore, hspan, hfetches, hmore', hspan'⟩, hreaches, ⟨r, latches, hworked⟩, hbytes⟩ :=
    opens_plain (w := w) h hawake hlead hcode hsweeps.plain hwork
  obtain ⟨hregs, hlatches⟩ := Prod.mk.inj hworked
  refine ⟨hreaches, ⟨r, hregs⟩, congrArg Latches.addr hlatches, hbytes, fun edges p bytes hlater => ?_⟩
  have hfirst : s.Finishes w (s.span w + ((s.next w).span w + edges)) p bytes :=
    .goes (own_of_fetch h) hmore (.goes (own_of_fetch hfetches) hmore' hlater)
  rw [hspan, hspan', ← Nat.add_assoc] at hfirst
  exact hfirst

/-- The third cycle reads the byte that is addressed. -/
theorem reads (h : s.core.Reaches code false 2) (hindex : code.index? = none)
    (hthird : (code.timing.cycles false)[2]? = some ⟨.memoryRead, 3⟩) :
    s.byte w = w.config.byteAt s.bytes s.core.latches.addr
      ∧ s.core.cycle.pattern = .read ∧ s.core.cycle.length = 3
      ∧ s.core.cycle.readsElsewhere = false
      ∧ s.core.acted (s.byte w) = ({ s.core with
          latches := { s.core.latches with fetched := s.byte w, dataLow := s.byte w } } : Core).act
            code (.after .memoryRead) := by
  obtain ⟨hkind, hlength⟩ := cycle_eq h hthird
  have hacted : s.core.acted (s.byte w) = ({ s.core with
      latches := { s.core.latches with fetched := s.byte w, dataLow := s.byte w } } : Core).act
        code (.after s.core.cycle.kind) := h.acted_of_read (by rw [hkind]; decide) hindex
  rw [hkind] at hacted
  have hpattern : s.core.cycle.pattern = .read := by
    rw [h.pattern, hkind]
    rfl
  have hreads : s.core.cycle.readsMemory = true := by
    rw [ActiveCycle.readsMemory, hpattern, h.memory]
    rfl
  refine ⟨?_, hpattern, hlength, own_of_reaches h (Or.inl hkind), hacted⟩
  rw [byte, if_pos hreads, Core.cycleAddress, hpattern]
  show w.config.byteAt s.bytes s.core.readAddress = _
  rw [Core.readAddress, hkind]

/-- A cycle that writes stores a byte. -/
theorem bytes_of_memoryWrite (h : s.core.Reaches code met position)
    (hkind : s.core.cycle.kind = .memoryWrite) : s.core.cycle.pattern = .write
      ∧ (s.next w).bytes = w.config.apply s.bytes ⟨s.core.latches.addr, s.core.latches.outLow⟩ := by
  have hpattern : s.core.cycle.pattern = .write := by
    rw [h.pattern, hkind]
    rfl
  refine ⟨hpattern, ?_⟩
  rw [next, Core.leftBytes, Core.stores, if_pos hpattern, Core.cycleAddress, hpattern,
    Core.writeByte, hkind, Core.writeAddress, hkind]
  rfl

/-- The cycle that is added for another pass does nothing, and is the last one. -/
theorem rests_over (h : s.core.Reaches code true 4) (hindex : code.index? = none)
    (hfifth : (code.timing.cycles true)[4]? = some ⟨.internal, 5⟩)
    (hsixth : (code.timing.cycles true)[5]? = none)
    (hidle : ∀ c : Core, c.act code (.after .internal) = c) :
    s.core.cycle.kind = .internal ∧ s.ends w = true ∧ s.span w = 10
      ∧ (s.next w).core = s.core.stepOn ∧ (s.next w).bytes = s.bytes := by
  obtain ⟨hkind, hlength⟩ := cycle_eq h hfifth
  have hpattern : s.core.cycle.pattern = .internal := by
    rw [h.pattern, hkind]
    rfl
  have hacted : s.core.acted (s.byte w) = s.core := by
    rw [h.acted_of_silent (by rw [hkind]; decide) hindex, hkind, hidle]
  have hexecutes : (s.core.acted (s.byte w)).Executes code true 4 := by
    rw [hacted]
    exact h.toExecutes
  obtain ⟨hends, hcore⟩ := is_over hexecutes hsixth
  rw [hacted] at hcore
  refine ⟨hkind, hends, ?_, hcore, bytes_next (by rw [hpattern]; decide)⟩
  rw [span_eq (by rw [hpattern]; decide), hacted, hlength]
  rfl

/-- The cycle that is added for another pass does nothing. -/
theorem rests (h : s.core.Reaches code true 4) (hsweeps : code.Sweeps d fourth)
    (hidle : ∀ c : Core, c.act code (.after .internal) = c) :
    ∃ p, s.Finishes w 10 p s.bytes ∧ p.halted = false ∧ p.regs = s.core.regs := by
  obtain ⟨hkind, hends, hspan, hcore, hbytes⟩ := rests_over (w := w) h hsweeps.unindexed
    (hsweeps.fifth true) hsweeps.sixth hidle
  have hfinishes : s.Finishes w (s.span w) (s.next w).core (s.next w).bytes :=
    .ends (own_of_reaches h (Or.inr (Or.inl hkind))) hends
  rw [hspan, hbytes, hcore] at hfinishes
  exact ⟨_, hfinishes, h.awake, rfl⟩

/-- Behind its fourth cycle the instruction is over, unless there is another pass. -/
theorem passes {more : Bool} (h : (s.core.acted (s.byte w)).Executes code more 3)
    (hsweeps : code.Sweeps d fourth) (hidle : ∀ c : Core, c.act code (.after .internal) = c)
    (hspan : s.span w = 10) (hown : s.core.cycle.readsElsewhere = false) :
    ∃ p, s.Finishes w (if more then 20 else 10) p (s.next w).bytes ∧ p.halted = false
      ∧ p.regs = (s.core.acted (s.byte w)).regs := by
  cases more with
  | true =>
    obtain ⟨hmore, hcore, hreaches⟩ := goes_on h (hsweeps.fifth true)
    obtain ⟨p, hfinishes, hawake, hregs⟩ := rests (w := w) (s := s.next w) hreaches hsweeps hidle
    have hgoes : s.Finishes w (s.span w + 10) p (s.next w).bytes := .goes hown hmore hfinishes
    rw [hspan] at hgoes
    refine ⟨p, hgoes, hawake, hregs.trans ?_⟩
    rw [hcore]
    rfl
  | false =>
    obtain ⟨hends, hcore⟩ := is_over h (hsweeps.fifth false)
    have hfinishes : s.Finishes w (s.span w) (s.next w).core (s.next w).bytes := .ends hown hends
    rw [hspan, hcore] at hfinishes
    exact ⟨_, hfinishes, h.awake, rfl⟩

end Scene

/-! ## Copying -/

/-- What copying so many bytes of a block does to the registers.  As long as there is more to do, PC
    is where it was. -/
structure Registers.Copies (d : Direction) (count : Nat) (before after : Registers) : Prop where
  a : after.a = before.a
  hl : after.hl = before.hl + d.stride * count.toUInt16
  de : after.de = before.de + d.stride * count.toUInt16
  bc : after.bc = before.bc - count.toUInt16
  pc : after.pc = if after.bc = 0 then before.pc + 2 else before.pc
  kept : after.f &&& (Flag.sign ||| Flag.zero ||| Flag.carry)
    = before.f &&& (Flag.sign ||| Flag.zero ||| Flag.carry)
  cleared : after.f &&& (Flag.half ||| Flag.subtract) = 0
  parity : Flag.test after.f Flag.parity = (after.bc != 0)

namespace Direction

variable {d : Direction} {code : Instruction}

theorem act_copies (hmnemonic : code.mnemonic = .ldir ∨ code.mnemonic = .lddr) (c : Core)
    (point : ExecPoint) : c.act code point = c.blockLoad code.mnemonic point := by
  rcases hmnemonic with h | h <;> rw [Core.act, h]

theorem add_stride (p : Word) (count more : Nat) :
    p + d.stride * count.toUInt16 + d.stride * more.toUInt16
      = p + d.stride * (count + more).toUInt16 := by
  have hsum : (count + more).toUInt16 = count.toUInt16 + more.toUInt16 := UInt16.ofNat_add count more
  rw [hsum, UInt16.mul_add, UInt16.add_assoc]

theorem offset_zero (p : Word) : p + d.stride * Nat.toUInt16 0 = p := by
  rw [show d.stride * Nat.toUInt16 0 = 0 from UInt16.mul_zero, UInt16.add_zero]

theorem offset_one (p : Word) : p + d.stride * Nat.toUInt16 1 = p + d.stride := by
  rw [show d.stride * Nat.toUInt16 1 = d.stride from UInt16.mul_one _]

theorem offset_succ (p : Word) (i : Nat) :
    p + d.stride * (i + 1).toUInt16 = p + d.stride + d.stride * i.toUInt16 := by
  rw [Nat.add_comm, ← add_stride, offset_one]

end Direction

namespace Registers

variable {d : Direction} {before amid after : Registers} {count more : Nat}

theorem Copies.trans (h : Copies d count before amid) (hmore : amid.bc ≠ 0)
    (hlater : Copies d more amid after) : Copies d (count + more) before after := by
  have hsum : (count + more).toUInt16 = count.toUInt16 + more.toUInt16 := UInt16.ofNat_add count more
  refine ⟨hlater.a.trans h.a, ?_, ?_, ?_, ?_, hlater.kept.trans h.kept, hlater.cleared,
    hlater.parity⟩
  · rw [hlater.hl, h.hl, Direction.add_stride]
  · rw [hlater.de, h.de, Direction.add_stride]
  · rw [hlater.bc, h.bc, hsum]
    grind
  · rw [hlater.pc, h.pc, if_neg hmore]

end Registers

/-- The registers behind a store of a copy, for some bits of X and Y. -/
def Registers.copied (regs : Registers) (d : Direction) (n : Byte) : Registers :=
  { ((regs.setHl (regs.hl + d.stride)).setDe (regs.de + d.stride)).setBc (regs.bc - 1) with
    f := (regs.f &&& (Flag.sign ||| Flag.zero ||| Flag.carry)) ||| Core.xyOfSum n
      ||| Flag.when (regs.bc - 1 != 0) Flag.parity }

/-- A pass copies one byte. -/
theorem Registers.copies_one (regs : Registers) (d : Direction) (n r : Byte) (wz : Word) :
    Registers.Copies d 1 regs { ({ regs with r, pc := regs.pc + 2 } : Registers).copied d n with
      wz, pc := if regs.bc - 1 != 0 then regs.pc + 2 - 2 else regs.pc + 2 } := by
  obtain ⟨hkept, hcleared, hparity⟩ := Flag.copied regs.f n (regs.bc - 1 != 0)
  have hbc : Word.ofBytes (Word.high (regs.bc - 1)) (Word.low (regs.bc - 1)) = regs.bc - 1 :=
    Word.ofBytes_halves _
  refine ⟨rfl, ?_, ?_, hbc, ?_, hkept, hcleared, hparity.trans ?_⟩
  · rw [Direction.offset_one]
    exact Word.ofBytes_halves _
  · rw [Direction.offset_one]
    exact Word.ofBytes_halves _
  · show (if regs.bc - 1 != 0 then regs.pc + 2 - 2 else regs.pc + 2)
      = if Word.ofBytes (Word.high (regs.bc - 1)) (Word.low (regs.bc - 1)) = 0 then regs.pc + 2
        else regs.pc
    rw [hbc]
    by_cases hlast : regs.bc - 1 = 0
    · rw [hlast]
      rfl
    · rw [if_neg hlast, if_pos (bne_iff_ne.mpr hlast)]
      grind
  · show (regs.bc - 1 != 0)
      = (Word.ofBytes (Word.high (regs.bc - 1)) (Word.low (regs.bc - 1)) != 0)
    rw [hbc]

namespace Scene

variable {w : Surroundings} {s : Scene} {code : Instruction} {d : Direction}

/-- What a copy reads is to be stored at DE. -/
theorem copy_reads (h : s.core.Reaches code false 2) (hsweeps : code.Sweeps d .memoryWrite)
    (hact : ∀ (c : Core) (point : ExecPoint), c.act code point = c.blockLoad code.mnemonic point) :
    (s.next w).core.Reaches code false 3 ∧ (s.next w).core.latches.addr = s.core.regs.de
      ∧ (s.next w).core.latches.outLow = w.config.byteAt s.bytes s.core.latches.addr
      ∧ (s.next w).core.regs = s.core.regs ∧ (s.next w).bytes = s.bytes
      ∧ ∀ edges p bytes, (s.next w).Finishes w edges p bytes → s.Finishes w (6 + edges) p bytes := by
  obtain ⟨hbyte, hpattern, hlength, hown, hacted⟩ := reads (w := w) h hsweeps.unindexed hsweeps.plain.third
  rw [hact, Core.blockLoad, if_neg (by decide), if_pos rfl] at hacted
  have hexecutes : (s.core.acted (s.byte w)).Executes code false 2 := by
    rw [hacted]
    exact ⟨h.known, h.cycles, h.place, h.origin, h.awake⟩
  obtain ⟨hmore, hcore, hreaches⟩ := goes_on hexecutes (hsweeps.fourth _)
  have hspan : s.span w = 6 :=
    span_of_length (by rw [hpattern]; decide) (by rw [hacted]) hlength
  have hstaged : (s.next w).core.latches.addr = s.core.regs.de
      ∧ (s.next w).core.latches.outLow = s.byte w ∧ (s.next w).core.regs = s.core.regs := by
    rw [hcore, hacted]
    exact ⟨rfl, rfl, rfl⟩
  obtain ⟨haddr, hout, hregs⟩ := hstaged
  refine ⟨hreaches, haddr, hout.trans hbyte, hregs, bytes_next (by rw [hpattern]; decide),
    fun edges p bytes hlater => ?_⟩
  rw [← hspan]
  exact .goes hown hmore hlater

/-- It is stored, and the pointers and the counter step. -/
theorem copy_stores (h : s.core.Reaches code false 3) (hsweeps : code.Sweeps d .memoryWrite)
    (hact : ∀ (c : Core) (point : ExecPoint), c.act code point = c.blockLoad code.mnemonic point) :
    ∃ p, s.Finishes w (if s.core.regs.bc - 1 != 0 then 20 else 10) p
        (w.config.apply s.bytes ⟨s.core.latches.addr, s.core.latches.outLow⟩)
      ∧ p.halted = false
      ∧ ∃ n wz, p.regs = { s.core.regs.copied d n with
        wz, pc := if s.core.regs.bc - 1 != 0 then s.core.regs.pc - 2 else s.core.regs.pc } := by
  obtain ⟨hkind, hlength⟩ := cycle_eq h (hsweeps.fourth _)
  obtain ⟨hpattern, hbytes⟩ := bytes_of_memoryWrite (w := w) h hkind
  have hacted : s.core.acted (s.byte w) = s.core.act code (.after s.core.cycle.kind) :=
    h.acted_of_silent (by rw [hkind]; decide) hsweeps.unindexed
  rw [hact, Core.blockLoad, hkind, if_neg (by decide), if_neg (by decide), if_pos rfl,
    Core.repeatWhile_eq (by exact h.known) hsweeps.repeats, hsweeps.stride] at hacted
  have hexecutes : (s.core.acted (s.byte w)).Executes code (s.core.regs.bc - 1 != 0) 3 := by
    rw [hacted]
    exact ⟨h.known, rfl, h.place, h.origin, h.awake⟩
  have hspan : s.span w = 10 :=
    span_of_length (by rw [hpattern]; decide) (by rw [hacted]) hlength
  obtain ⟨p, hfinishes, hawake, hregs⟩ := passes hexecutes hsweeps (fun c => by rw [hact]; rfl) hspan
    (own_of_reaches h (Or.inr (Or.inr hkind)))
  rw [hbytes] at hfinishes
  refine ⟨p, hfinishes, hawake, s.core.latches.dataLow + s.core.regs.a,
    if s.core.regs.bc - 1 != 0 then s.core.regs.pc - 1 else s.core.regs.wz, ?_⟩
  rw [hregs, hacted, Registers.copied]
  cases hmore : s.core.regs.bc - 1 != 0 <;> rfl

/-- One pass of a copy stores one byte. -/
theorem copies (h : s.core.Fetches .main 0) (hawake : s.core.halted = false)
    (hlead : w.config.byteAt s.bytes s.core.regs.pc = 0xED)
    (hopcode : w.config.byteAt s.bytes (s.core.regs.pc + 1) = d.copies) :
    ∃ p, s.Finishes w (if s.core.regs.bc - 1 != 0 then 42 else 32) p
        (w.config.apply s.bytes ⟨s.core.regs.de, w.config.byteAt s.bytes s.core.regs.hl⟩)
      ∧ p.halted = false ∧ Registers.Copies d 1 s.core.regs p.regs := by
  obtain ⟨hsweeps, hmnemonic⟩ := d.copies_sweeps
  have hact := Direction.act_copies hmnemonic
  generalize hcode : decode .ed d.copies = code at hsweeps hmnemonic hact
  obtain ⟨hfirst, ⟨r, hregs⟩, haddr, hbytes, hfetched⟩ := fetches (w := w) h hawake hlead
    (by rw [hopcode]; exact hcode) hsweeps (fun c => by rw [hact]; rfl)
  obtain ⟨hthird, haddr', hout, hregs', hbytes', hread⟩ := copy_reads (w := w) hfirst hsweeps hact
  obtain ⟨p, hstored, hawake', n, wz, hleft⟩ := copy_stores (w := w) hthird hsweeps hact
  rw [hregs', hregs] at hstored hleft
  rw [hbytes', hbytes, haddr', hregs, hout, haddr, hbytes] at hstored
  refine ⟨p, ?_, hawake', ?_⟩
  · have hall := hfetched _ _ _ (hread _ _ _ hstored)
    have hbc : ({ s.core.regs with r, pc := s.core.regs.pc + 2 } : Registers).bc = s.core.regs.bc :=
      rfl
    rw [hbc] at hall
    cases hmore : s.core.regs.bc - 1 != 0 <;> rw [hmore] at hall <;> exact hall
  · rw [hleft]
    exact s.core.regs.copies_one d n r wz

end Scene

/-! ## Searching -/

/-- What searching so many bytes of a block does to the registers.  As long as nothing is found and there
    is more to do, PC is where it was. -/
structure Registers.Searches (d : Direction) (count : Nat) (found : Bool)
    (before after : Registers) : Prop where
  a : after.a = before.a
  hl : after.hl = before.hl + d.stride * count.toUInt16
  bc : after.bc = before.bc - count.toUInt16
  pc : after.pc = if found = true ∨ after.bc = 0 then before.pc + 2 else before.pc
  carry : after.f &&& Flag.carry = before.f &&& Flag.carry
  zero : Flag.test after.f Flag.zero = found
  subtract : Flag.test after.f Flag.subtract = true
  parity : Flag.test after.f Flag.parity = (after.bc != 0)

theorem Direction.act_searches {code : Instruction}
    (hmnemonic : code.mnemonic = .cpir ∨ code.mnemonic = .cpdr) (c : Core) (point : ExecPoint) :
    c.act code point = c.blockCompare code.mnemonic point := by
  rcases hmnemonic with h | h <;> rw [Core.act, h]

namespace Registers

variable {d : Direction} {before amid after : Registers} {count more : Nat} {found : Bool}

theorem Searches.trans (h : Searches d count false before amid) (hmore : amid.bc ≠ 0)
    (hlater : Searches d more found amid after) : Searches d (count + more) found before after := by
  have hsum : (count + more).toUInt16 = count.toUInt16 + more.toUInt16 := UInt16.ofNat_add count more
  have hstays : amid.pc = before.pc := by
    rw [h.pc, if_neg fun hover => hover.elim Bool.false_ne_true hmore]
  refine ⟨hlater.a.trans h.a, ?_, ?_, ?_, hlater.carry.trans h.carry, hlater.zero, hlater.subtract,
    hlater.parity⟩
  · rw [hlater.hl, h.hl, Direction.add_stride]
  · rw [hlater.bc, h.bc, hsum]
    grind
  · rw [hlater.pc, hstays]

/-- The registers behind a comparison of a search, for some bits of X and Y. -/
def searched (regs : Registers) (d : Direction) (byte n : Byte) : Registers :=
  { (regs.setHl (regs.hl + d.stride)).setBc (regs.bc - 1) with
    wz := regs.wz + d.stride
    f := ((sub8 regs.a byte false).flags &&& (Flag.sign ||| Flag.zero ||| Flag.half)) ||| Flag.subtract
      ||| (regs.f &&& Flag.carry) ||| Core.xyOfSum n ||| Flag.when (regs.bc - 1 != 0) Flag.parity }

/-- The search goes on behind this byte. -/
def goesOn (regs : Registers) (byte : Byte) : Bool :=
  regs.bc - 1 != 0 && regs.a != byte

/-- A pass compares one byte. -/
theorem searches_one (regs : Registers) (d : Direction) (byte n r : Byte) (wz : Word) :
    Searches d 1 (regs.a == byte) regs
      { ({ regs with r, pc := regs.pc + 2 } : Registers).searched d byte n with
        wz, pc := if regs.goesOn byte then regs.pc + 2 - 2 else regs.pc + 2 } := by
  obtain ⟨hcarry, hzero, hsubtract, hparity⟩ :=
    Flag.compared regs.a byte regs.f n (regs.bc - 1 != 0)
  have hbc : Word.ofBytes (Word.high (regs.bc - 1)) (Word.low (regs.bc - 1)) = regs.bc - 1 :=
    Word.ofBytes_halves _
  refine ⟨rfl, ?_, hbc, ?_, hcarry, hzero, hsubtract, hparity.trans ?_⟩
  · rw [Direction.offset_one]
    exact Word.ofBytes_halves _
  · show (if regs.goesOn byte then regs.pc + 2 - 2 else regs.pc + 2)
      = if (regs.a == byte) = true
          ∨ Word.ofBytes (Word.high (regs.bc - 1)) (Word.low (regs.bc - 1)) = 0 then regs.pc + 2
        else regs.pc
    rw [hbc, goesOn, show (regs.a != byte) = !(regs.a == byte) from rfl]
    cases regs.a == byte with
    | true =>
      rw [Bool.not_true, Bool.and_false, if_neg Bool.false_ne_true, if_pos (Or.inl rfl)]
    | false =>
      rw [Bool.not_false, Bool.and_true]
      by_cases hlast : regs.bc - 1 = 0
      · rw [hlast, if_pos (Or.inr rfl)]
        rfl
      · rw [if_pos (bne_iff_ne.mpr hlast), if_neg fun hover => hover.elim Bool.false_ne_true hlast]
        grind
  · show (regs.bc - 1 != 0)
      = (Word.ofBytes (Word.high (regs.bc - 1)) (Word.low (regs.bc - 1)) != 0)
    rw [hbc]

end Registers

namespace Scene

variable {w : Surroundings} {s : Scene} {code : Instruction} {d : Direction}

/-- What a search reads is compared, and the pointer and the counter step. -/
theorem search_reads (h : s.core.Reaches code false 2) (hsweeps : code.Sweeps d .internal)
    (hact : ∀ (c : Core) (point : ExecPoint), c.act code point = c.blockCompare code.mnemonic point) :
    let byte := w.config.byteAt s.bytes s.core.latches.addr
    (s.next w).core.Reaches code (s.core.regs.goesOn byte) 3 ∧ (s.next w).bytes = s.bytes
      ∧ (∃ n wz, (s.next w).core.regs = { s.core.regs.searched d byte n with
        wz, pc := if s.core.regs.goesOn byte then s.core.regs.pc - 2 else s.core.regs.pc })
      ∧ ∀ edges p bytes, (s.next w).Finishes w edges p bytes → s.Finishes w (6 + edges) p bytes := by
  obtain ⟨hbyte, hpattern, hlength, hown, hacted⟩ := reads (w := w) h hsweeps.unindexed hsweeps.plain.third
  have hmore : (s.core.regs.bc - 1 != 0 && (sub8 s.core.regs.a (s.byte w) false).value != 0)
      = s.core.regs.goesOn (s.byte w) := by
    rw [Registers.goesOn, bne, bne, bne, (Flag.zero_of_sub8 _ _).1]
  rw [hact, Core.blockCompare, if_neg (by decide), if_pos rfl,
    Core.repeatWhile_eq (by exact h.known) hsweeps.repeats, hsweeps.stride] at hacted
  dsimp only at hacted
  rw [hmore] at hacted
  have hexecutes : (s.core.acted (s.byte w)).Executes code (s.core.regs.goesOn (s.byte w)) 2 := by
    rw [hacted]
    exact ⟨h.known, rfl, h.place, h.origin, h.awake⟩
  obtain ⟨hgoes, hcore, hreaches⟩ := goes_on hexecutes (hsweeps.fourth _)
  have hspan : s.span w = 6 :=
    span_of_length (by rw [hpattern]; decide) (by rw [hacted]) hlength
  rw [← hbyte]
  refine ⟨hreaches, bytes_next (by rw [hpattern]; decide),
    ⟨(sub8 s.core.regs.a (s.byte w) false).value
        - (Flag.test (sub8 s.core.regs.a (s.byte w) false).flags Flag.half).toUInt8,
      if s.core.regs.goesOn (s.byte w) then s.core.regs.pc - 1 else s.core.regs.wz + d.stride, ?_⟩,
    fun edges p bytes hlater => ?_⟩
  · rw [hcore, hacted]
    cases s.core.regs.goesOn (s.byte w) <;> rfl
  · rw [← hspan]
    exact .goes hown hgoes hlater

/-- The cycle behind the comparison does nothing. -/
theorem search_rests {met : Bool} (h : s.core.Reaches code met 3) (hsweeps : code.Sweeps d .internal)
    (hact : ∀ (c : Core) (point : ExecPoint), c.act code point = c.blockCompare code.mnemonic point) :
    ∃ p, s.Finishes w (if met then 20 else 10) p s.bytes ∧ p.halted = false
      ∧ p.regs = s.core.regs := by
  obtain ⟨hkind, hlength⟩ := cycle_eq h (hsweeps.fourth _)
  have hidle (c : Core) : c.act code (.after .internal) = c := by rw [hact]; rfl
  have hacted : s.core.acted (s.byte w) = s.core := by
    rw [h.acted_of_silent (by rw [hkind]; decide) hsweeps.unindexed, hkind, hidle]
  have hpattern : s.core.cycle.pattern = .internal := by
    rw [h.pattern, hkind]
    rfl
  have hexecutes : (s.core.acted (s.byte w)).Executes code met 3 := by
    rw [hacted]
    exact h.toExecutes
  have hspan : s.span w = 10 := by
    rw [span_eq (by rw [hpattern]; decide), hacted, hlength]
    rfl
  obtain ⟨p, hfinishes, hawake, hregs⟩ := passes hexecutes hsweeps hidle hspan
    (own_of_reaches h (Or.inr (Or.inl hkind)))
  rw [bytes_next (by rw [hpattern]; decide)] at hfinishes
  exact ⟨p, hfinishes, hawake, hregs.trans (congrArg Core.regs hacted)⟩

/-- One pass of a search compares one byte. -/
theorem searches (h : s.core.Fetches .main 0) (hawake : s.core.halted = false)
    (hlead : w.config.byteAt s.bytes s.core.regs.pc = 0xED)
    (hopcode : w.config.byteAt s.bytes (s.core.regs.pc + 1) = d.searches) :
    let byte := w.config.byteAt s.bytes s.core.regs.hl
    ∃ p, s.Finishes w (if s.core.regs.goesOn byte then 42 else 32) p s.bytes ∧ p.halted = false
      ∧ Registers.Searches d 1 (s.core.regs.a == byte) s.core.regs p.regs := by
  obtain ⟨hsweeps, hmnemonic⟩ := d.searches_sweeps
  have hact := Direction.act_searches hmnemonic
  generalize hcode : decode .ed d.searches = code at hsweeps hmnemonic hact
  obtain ⟨hfirst, ⟨r, hregs⟩, haddr, hbytes, hfetched⟩ := fetches (w := w) h hawake hlead
    (by rw [hopcode]; exact hcode) hsweeps (fun c => by rw [hact]; rfl)
  obtain ⟨hthird, hbytes', ⟨n, wz, hleft⟩, hread⟩ := search_reads (w := w) hfirst hsweeps hact
  obtain ⟨p, hrests, hawake', hregs'⟩ := search_rests (w := w) hthird hsweeps hact
  rw [hbytes', hbytes, haddr, hregs] at hrests
  rw [hbytes, haddr, hregs] at hleft
  have hgoes (byte : Byte) : ({ s.core.regs with r, pc := s.core.regs.pc + 2 } : Registers).goesOn byte
      = s.core.regs.goesOn byte := rfl
  rw [hgoes] at hleft hrests
  refine ⟨p, ?_, hawake', ?_⟩
  · have hall := hfetched _ _ _ (hread _ _ _ hrests)
    revert hall
    cases s.core.regs.goesOn (w.config.byteAt s.bytes s.core.regs.hl) <;> exact id
  · rw [hregs', hleft]
    exact s.core.regs.searches_one d _ n r wz

end Scene

end Z80Board
