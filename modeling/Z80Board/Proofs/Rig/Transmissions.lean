import Z80Board.Proofs.Rig.Exchanges
import Z80Board.Proofs.Rig.Repeats

/-! # A block through a port

    OTIR and OTDR write the bytes of a block to the port at BC one after the other, and INIR and INDR
    fill a block with what they read there.  B counts the bytes, so that the upper half of the port
    goes down with it: an output counts before the byte goes out, and an input behind.  Each byte is
    an instruction of its own, as it is with a copy. -/

namespace Z80Board

/-- Which way the bytes of a block go. -/
inductive Flow where
  | outward
  | inward
deriving DecidableEq, Repr

namespace Flow

/-- The byte behind the prefix of OTIR or OTDR, and of INIR or INDR. -/
def opcode : Flow → Direction → Byte
  | .outward, .up => 0xB3
  | .outward, .down => 0xBB
  | .inward, .up => 0xB2
  | .inward, .down => 0xBA

/-- The instructions. -/
def mnemonics : Flow → List Mnemonic
  | .outward => [.otir, .otdr]
  | .inward => [.inir, .indr]

/-- The cycle that takes the byte. -/
def takes : Flow → MachineCycle
  | .outward => ⟨.memoryRead, 3⟩
  | .inward => ⟨.portRead, 4⟩

/-- The cycle that gives it. -/
def gives : Flow → MachineCycle
  | .outward => ⟨.portWrite, 4⟩
  | .inward => ⟨.memoryWrite, 3⟩

end Flow

namespace Instruction

/-- What the tables say of a repeating instruction that moves a block through a port. -/
structure Ferries (code : Instruction) (flow : Flow) (d : Direction) : Prop where
  executes : code.action = .execute
  unindexed : code.index? = none
  unaddressed : code.memoryOperand? = none
  repeats : code.mnemonic.repeats = true
  stride : code.mnemonic.stride = d.stride
  mnemonic : code.mnemonic ∈ flow.mnemonics
  cycles : ∀ met, code.timing.cycles met
    = [⟨.opcodeFetch, 4⟩, ⟨.opcodeFetch, 5⟩, flow.takes, flow.gives]
      ++ if met then [⟨.internal, 5⟩] else []

instance decidableFerries (code : Instruction) (flow : Flow) (d : Direction) :
    Decidable (code.Ferries flow d) :=
  decidable_of_iff
    (code.action = .execute ∧ code.index? = none ∧ code.memoryOperand? = none
      ∧ code.mnemonic.repeats = true ∧ code.mnemonic.stride = d.stride
      ∧ code.mnemonic ∈ flow.mnemonics
      ∧ ∀ met, code.timing.cycles met
        = [⟨.opcodeFetch, 4⟩, ⟨.opcodeFetch, 5⟩, flow.takes, flow.gives]
          ++ if met then [⟨.internal, 5⟩] else [])
    ⟨fun ⟨executes, unindexed, unaddressed, repeats, stride, mnemonic, cycles⟩ =>
      ⟨executes, unindexed, unaddressed, repeats, stride, mnemonic, cycles⟩,
     fun h => ⟨h.executes, h.unindexed, h.unaddressed, h.repeats, h.stride, h.mnemonic, h.cycles⟩⟩

namespace Ferries

variable {code : Instruction} {flow : Flow} {d : Direction}

theorem plain (h : code.Ferries flow d) : code.Plain 5 flow.takes :=
  ⟨h.executes, h.unindexed, h.unaddressed, by rw [h.cycles]; rfl, by rw [h.cycles]; rfl⟩

theorem fourth (h : code.Ferries flow d) (met : Bool) :
    (code.timing.cycles met)[3]? = some flow.gives := by
  rw [h.cycles]
  rfl

/-- Only another pass takes another cycle. -/
theorem fifth (h : code.Ferries flow d) (met : Bool) :
    (code.timing.cycles met)[4]? = if met then some ⟨.internal, 5⟩ else none := by
  rw [h.cycles]
  cases met <;> rfl

theorem sixth (h : code.Ferries flow d) : (code.timing.cycles true)[5]? = none := by
  rw [h.cycles]
  rfl

theorem act_outward (h : code.Ferries .outward d) (c : Core) (point : ExecPoint) :
    c.act code point = c.blockOut code.mnemonic point := by
  have hmnemonic := h.mnemonic
  simp only [Flow.mnemonics, List.mem_cons, List.not_mem_nil, or_false] at hmnemonic
  rcases hmnemonic with hm | hm <;> rw [Core.act, hm]

theorem act_inward (h : code.Ferries .inward d) (c : Core) (point : ExecPoint) :
    c.act code point = c.blockIn code.mnemonic point := by
  have hmnemonic := h.mnemonic
  simp only [Flow.mnemonics, List.mem_cons, List.not_mem_nil, or_false] at hmnemonic
  rcases hmnemonic with hm | hm <;> rw [Core.act, hm]

/-- The cycle that is added for another pass does nothing. -/
theorem act_internal (h : code.Ferries flow d) (c : Core) : c.act code (.after .internal) = c := by
  cases flow with
  | outward =>
    rw [h.act_outward]
    rfl
  | inward =>
    rw [h.act_inward]
    rfl

end Ferries

end Instruction

theorem Flow.ferries (flow : Flow) (d : Direction) :
    (decode .ed (flow.opcode d)).Ferries flow d := by
  have hall : ∀ flow ∈ [outward, inward], ∀ d ∈ [Direction.up, .down],
      (decode .ed (flow.opcode d)).Ferries flow d := by
    decide +kernel
  exact hall flow (by cases flow <;> decide) d d.mem_both

/-! ## The registers -/

/-- The zero flag tells whether B has come to zero. -/
theorem Flag.zero_blockPortFlags (b v : Byte) (k : Nat) :
    test (Core.blockPortFlags b v k) zero = (b == 0) := by
  have hzero : Core.blockPortFlags b v k &&& zero = Flag.when (b == 0) zero := by
    rw [← zero_of_sz53, Core.blockPortFlags, or_and, or_and, or_and]
    generalize sz53 b &&& zero = bit
    rw [when_apart (by decide), when_apart (by decide), when_apart (by decide), UInt8.or_zero,
      UInt8.or_zero, UInt8.or_zero]
  rw [test, hzero]
  cases b == 0 <;> rfl

/-- What moving so many bytes of a block through a port does to the registers.  As long as there is more
    to do, PC is where it was. -/
structure Registers.Ferries (d : Direction) (count : Nat) (before after : Registers) : Prop where
  b : after.b = before.b - count.toUInt8
  hl : after.hl = before.hl + d.stride * count.toUInt16
  pc : after.pc = if after.b = 0 then before.pc + 2 else before.pc
  zero : Flag.test after.f Flag.zero = (after.b == 0)
  kept : after = { before with
    b := after.b, h := after.h, l := after.l, f := after.f, pc := after.pc, r := after.r
    wz := after.wz }

namespace Registers

variable {d : Direction} {before amid after : Registers} {count more : Nat}

theorem Ferries.trans (h : Ferries d count before amid) (hmore : amid.b ≠ 0)
    (hlater : Ferries d more amid after) : Ferries d (count + more) before after := by
  have hsum : (count + more).toUInt8 = count.toUInt8 + more.toUInt8 := UInt8.ofNat_add count more
  refine ⟨?_, ?_, ?_, hlater.zero, ?_⟩
  · rw [hlater.b, h.b, hsum]
    grind
  · rw [hlater.hl, h.hl, Direction.add_stride]
  · rw [hlater.pc, h.pc, if_neg hmore]
  · rw [hlater.kept, h.kept]

theorem Ferries.c (h : Ferries d count before after) : after.c = before.c := by
  rw [h.kept]

/-- The registers when a byte has been moved, for some flags and some WZ. -/
theorem ferries_one (regs : Registers) (d : Direction) {f r : Byte} {wz : Word}
    (hzero : Flag.test f Flag.zero = (regs.b - 1 == 0)) :
    Ferries d 1 regs { regs.setHl (regs.hl + d.stride) with
      b := regs.b - 1, f, r, wz
      pc := if regs.b - 1 != 0 then regs.pc + 2 - 2 else regs.pc + 2 } := by
  refine ⟨rfl, ?_, ?_, hzero, rfl⟩
  · rw [Direction.offset_one]
    exact Word.ofBytes_halves _
  · show (if regs.b - 1 != 0 then regs.pc + 2 - 2 else regs.pc + 2)
      = if regs.b - 1 = 0 then regs.pc + 2 else regs.pc
    by_cases hlast : regs.b - 1 = 0
    · rw [hlast]
      rfl
    · rw [if_neg hlast, if_pos (bne_iff_ne.mpr hlast)]
      grind

/-- There are as many bytes as B counts. -/
theorem toUInt8_rounds (regs : Registers) : regs.rounds.toUInt8 = regs.b := by
  rw [rounds]
  split
  · next hzero =>
    rw [hzero]
    rfl
  · exact UInt8.ofNat_toNat

end Registers

/-! ## Scene by scene -/

namespace Scene

variable {w : Surroundings} {s : Scene} {code : Instruction} {flow : Flow} {d : Direction}
  {page : Page} {count position : Nat} {met : Bool}

theorem own_of_fetches (h : s.core.Fetches page count) : s.Own :=
  ⟨h.memory, by rw [h.pattern]; decide, (Core.origin_of_fromMemory h.origin).2⟩

theorem own_of_other (h : s.core.Reaches code met position)
    (hkind : s.core.cycle.kind ≠ .opcodeFetch) : s.Own := by
  refine ⟨h.memory, ?_, (Core.origin_of_fromMemory h.origin).2⟩
  rw [h.pattern]
  revert hkind
  cases s.core.cycle.kind with
  | opcodeFetch => exact fun hkind => absurd rfl hkind
  | _ => exact fun _ => nofun

/-- Two fetches read the instruction, which gets ready for the byte. -/
theorem ferry_opens (asks : Bool) {work : Registers → Latches → Registers × Latches}
    (h : s.core.Fetches .main 0) (hawake : s.core.halted = false)
    (hlead : w.config.byteAt s.bytes s.core.regs.pc = 0xED)
    (hcode : decode .ed (w.config.byteAt s.bytes (s.core.regs.pc + 1)) = code)
    (hferries : code.Ferries flow d)
    (hact : ∀ c : Core, c.act code .decoded
      = { c with regs := (work c.regs c.latches).1, latches := (work c.regs c.latches).2 }) :
    ((s.next w).next w).core.Reaches code false 2
      ∧ (∃ r latches, (((s.next w).next w).core.regs, ((s.next w).next w).core.latches)
        = work { s.core.regs with r, pc := s.core.regs.pc + 2 } latches)
      ∧ ((s.next w).next w).bytes = s.bytes
      ∧ ∀ edges writes p bytes, ((s.next w).next w).Exchanges w asks edges writes p bytes →
        s.Exchanges w asks (18 + edges) writes p bytes := by
  obtain ⟨⟨hmore, hspan, hfetches, hmore', hspan'⟩, hreaches, hworked, hbytes⟩ :=
    opens_plain (w := w) h hawake hlead hcode hferries.plain hact
  refine ⟨hreaches, hworked, hbytes, fun edges writes p bytes hlater => ?_⟩
  have hfirst : s.Exchanges w asks (s.span w + ((s.next w).span w + edges)) writes p bytes :=
    .passes (own_of_fetches h) (by rw [h.pattern]; decide) hmore
      (.passes (own_of_fetches hfetches) (by rw [hfetches.pattern]; decide) hmore' hlater)
  rw [hspan, hspan', ← Nat.add_assoc] at hfirst
  exact hfirst

/-- Behind its fourth cycle the instruction is over, unless there is another pass. -/
theorem ferry_passes (asks : Bool) {more : Bool}
    (h : (s.core.acted (s.byte w)).Executes code more 3) (hferries : code.Ferries flow d) (hown : s.Own)
    (hreads : s.core.cycle.pattern = .portRead → asks = true) :
    ∃ p, s.Exchanges w asks (s.span w + if more then 10 else 0) s.sends p (s.next w).bytes
      ∧ p.halted = false ∧ p.regs = (s.core.acted (s.byte w)).regs := by
  cases more with
  | true =>
    -- PC is back on the instruction, and a cycle follows that does nothing
    obtain ⟨hmore, hcore, hreaches⟩ := goes_on h (hferries.fifth true)
    obtain ⟨hkind, hends, hspan, hcore', hbytes⟩ := rests_over (w := w) (s := s.next w) hreaches
      hferries.unindexed (hferries.fifth true) hferries.sixth hferries.act_internal
    have hpattern : (s.next w).core.cycle.pattern = .internal := by
      rw [hreaches.pattern, hkind]
      rfl
    have hrests : (s.next w).Exchanges w asks ((s.next w).span w) (s.next w).sends
        ((s.next w).next w).core ((s.next w).next w).bytes :=
      .ends (own_of_other hreaches (by rw [hkind]; decide))
        (fun hport => by cases hpattern.symm.trans hport) hends
    have hsilent : (s.next w).sends = [] := sends_eq_nil (by rw [hpattern]; decide)
    have hgoes := Exchanges.goes hown hreads hmore hrests
    rw [hspan, hcore', hbytes, hsilent, List.append_nil] at hgoes
    refine ⟨_, hgoes, hreaches.awake, ?_⟩
    show (s.next w).core.regs = _
    rw [hcore]
    rfl
  | false =>
    obtain ⟨hends, hcore⟩ := is_over h (hferries.fifth false)
    refine ⟨_, .ends hown hreads hends, ?_, ?_⟩
    · rw [hcore]
      exact h.awake
    · rw [hcore]
      rfl

/-- An output reads its byte, and counts it before it goes out. -/
theorem outward_takes (asks : Bool) (h : s.core.Reaches code false 2)
    (hferries : code.Ferries .outward d) :
    let counted : Registers := { s.core.regs with b := s.core.regs.b - 1 }
    (s.next w).core.Reaches code false 3 ∧ (s.next w).bytes = s.bytes
      ∧ (s.next w).core.latches.port = counted.bc
      ∧ (s.next w).core.latches.outLow = w.config.byteAt s.bytes s.core.latches.addr
      ∧ (∃ f wz, Flag.test f Flag.zero = (counted.b == 0)
        ∧ (s.next w).core.regs = { counted.setHl (s.core.regs.hl + d.stride) with f, wz })
      ∧ ∀ edges writes p bytes, (s.next w).Exchanges w asks edges writes p bytes →
        s.Exchanges w asks (6 + edges) writes p bytes := by
  obtain ⟨hbyte, hpattern, hlength, -, hacted⟩ := reads (w := w) h hferries.unindexed
    hferries.plain.third
  rw [hferries.act_outward, Core.blockOut, if_neg (by decide), if_pos rfl, hferries.stride] at hacted
  have hexecutes : (s.core.acted (s.byte w)).Executes code false 2 := by
    rw [hacted]
    exact ⟨h.known, h.cycles, h.place, h.origin, h.awake⟩
  obtain ⟨hmore, hcore, hreaches⟩ := goes_on hexecutes (hferries.fourth _)
  have hspan : s.span w = 6 :=
    span_of_length (by rw [hpattern]; decide) (by rw [hacted]) hlength
  have hown : s.Own := own_of_other h (by rw [(cycle_eq h hferries.plain.third).1]; decide)
  rw [hacted] at hcore
  have hzero := Flag.zero_blockPortFlags (s.core.regs.b - 1) (s.byte w)
    ((s.byte w).toNat + (Word.low (s.core.regs.hl + d.stride)).toNat)
  refine ⟨hreaches, bytes_next (by rw [hpattern]; decide), ?_, ?_,
    ⟨_, Word.ofBytes (s.core.regs.b - 1) s.core.regs.c + d.stride, hzero, ?_⟩,
    fun edges writes p bytes hlater => ?_⟩
  · rw [hcore]
    rfl
  · rw [hcore, ← hbyte]
    rfl
  · rw [hcore]
    rfl
  · rw [← hspan]
    exact .passes hown (by rw [hpattern]; decide) hmore hlater

/-- It goes out. -/
theorem outward_gives (asks : Bool) (h : s.core.Reaches code false 3)
    (hferries : code.Ferries .outward d) :
    ∃ p, s.Exchanges w asks (if s.core.regs.b != 0 then 18 else 8)
        [⟨s.core.latches.port, s.core.latches.outLow⟩] p s.bytes
      ∧ p.halted = false
      ∧ ∃ wz, p.regs = { s.core.regs with
        wz, pc := if s.core.regs.b != 0 then s.core.regs.pc - 2 else s.core.regs.pc } := by
  obtain ⟨hkind, hlength⟩ := cycle_eq h (hferries.fourth _)
  rw [Flow.gives] at hkind hlength
  have hpattern : s.core.cycle.pattern = .portWrite := by
    rw [h.pattern, hkind]
    rfl
  have hacted : s.core.acted (s.byte w) = s.core.act code (.after s.core.cycle.kind) :=
    h.acted_of_silent (by rw [hkind]; decide) hferries.unindexed
  rw [hferries.act_outward, Core.blockOut, hkind, if_neg (by decide), if_neg (by decide),
    if_pos rfl, Core.repeatWhile_eq h.known hferries.repeats] at hacted
  have hexecutes : (s.core.acted (s.byte w)).Executes code (s.core.regs.b != 0) 3 := by
    rw [hacted]
    exact ⟨h.known, rfl, h.place, h.origin, h.awake⟩
  have hspan : s.span w = 8 :=
    span_of_length (by rw [hpattern]; decide) (by rw [hacted]) hlength
  obtain ⟨p, hexchanges, hawake, hregs⟩ := ferry_passes asks hexecutes hferries
    (own_of_other h (by rw [hkind]; decide)) fun hport => by cases hpattern.symm.trans hport
  rw [hspan, sends, if_pos hpattern, bytes_next (by rw [hpattern]; decide)] at hexchanges
  refine ⟨p, ?_, hawake,
    if s.core.regs.b != 0 then s.core.regs.pc - 1 else s.core.regs.wz, ?_⟩
  · cases hmore : s.core.regs.b != 0 <;> rw [hmore] at hexchanges <;> exact hexchanges
  · rw [hregs, hacted]
    cases hmore : s.core.regs.b != 0 <;> rfl

/-- One pass of an output writes one byte to the port. -/
theorem ferries_outward (asks : Bool) (h : s.core.Fetches .main 0) (hawake : s.core.halted = false)
    (hlead : w.config.byteAt s.bytes s.core.regs.pc = 0xED)
    (hopcode : w.config.byteAt s.bytes (s.core.regs.pc + 1) = Flow.outward.opcode d) :
    ∃ p, s.Exchanges w asks (if s.core.regs.b - 1 != 0 then 42 else 32)
        [⟨Word.ofBytes (s.core.regs.b - 1) s.core.regs.c, w.config.byteAt s.bytes s.core.regs.hl⟩]
        p s.bytes
      ∧ p.halted = false ∧ Registers.Ferries d 1 s.core.regs p.regs := by
  have hferries := Flow.outward.ferries d
  generalize hcode : decode .ed (Flow.outward.opcode d) = code at hferries
  let work : Registers → Latches → Registers × Latches :=
    fun regs latches => (regs, { latches with addr := regs.hl })
  have hwork (c : Core) : c.act code .decoded
      = { c with regs := (work c.regs c.latches).1, latches := (work c.regs c.latches).2 } := by
    rw [hferries.act_outward]
    rfl
  obtain ⟨hreaches, ⟨r, latches, hworked⟩, hbytes, hopens⟩ := ferry_opens (w := w) asks h
    hawake hlead (by rw [hopcode]; exact hcode) hferries hwork
  obtain ⟨hregs, hlatches⟩ := Prod.mk.inj hworked
  obtain ⟨hreaches', hbytes', hport, hout, ⟨f, wz, hzero, hregs'⟩, htakes⟩ :=
    outward_takes (w := w) asks hreaches hferries
  obtain ⟨p, hgives, hawake', wz', hleft⟩ := outward_gives (w := w) asks hreaches' hferries
  have haddr : ((s.next w).next w).core.latches.addr = s.core.regs.hl := by
    rw [hlatches]
    rfl
  have hmoved : (((s.next w).next w).next w).core.regs.b = s.core.regs.b - 1
      ∧ (((s.next w).next w).next w).core.latches.port
        = Word.ofBytes (s.core.regs.b - 1) s.core.regs.c := by
    rw [hport, hregs', hregs]
    exact ⟨rfl, rfl⟩
  rw [hmoved.1] at hgives
  rw [hmoved.2, hout, haddr, hbytes', hbytes] at hgives
  rw [hmoved.1, hregs', hregs] at hleft
  have hall := hopens _ _ _ _ (htakes _ _ _ _ hgives)
  refine ⟨p, ?_, hawake', ?_⟩
  · cases hmore : s.core.regs.b - 1 != 0 <;> rw [hmore] at hall <;> exact hall
  · rw [hregs] at hzero
    rw [hleft]
    exact s.core.regs.ferries_one d hzero

/-- An input reads its byte from the port, and counts it then. -/
theorem inward_takes (h : s.core.Reaches code false 2) (hferries : code.Ferries .inward d) :
    (s.next w).core.Reaches code false 3 ∧ (s.next w).bytes = s.bytes
      ∧ (s.next w).core.latches.addr = s.core.regs.hl
      ∧ (s.next w).core.latches.outLow = w.reply s.core.latches.port
      ∧ (∃ f, Flag.test f Flag.zero = (s.core.regs.b - 1 == 0)
        ∧ (s.next w).core.regs = { s.core.regs with b := s.core.regs.b - 1, f })
      ∧ ∀ edges writes p bytes, (s.next w).Exchanges w true edges writes p bytes →
        s.Exchanges w true (8 + edges) writes p bytes := by
  obtain ⟨hkind, hlength⟩ := cycle_eq h hferries.plain.third
  rw [Flow.takes] at hkind hlength
  have hpattern : s.core.cycle.pattern = .portRead := by
    rw [h.pattern, hkind]
    rfl
  have hbyte : s.byte w = w.reply s.core.latches.port := by
    have hreads : s.core.cycle.readsMemory = false := by
      rw [ActiveCycle.readsMemory, hpattern]
    rw [byte, hreads, if_neg Bool.false_ne_true, if_pos hpattern]
  have hacted : s.core.acted (s.byte w) = ({ s.core with
      latches := { s.core.latches with fetched := s.byte w, dataLow := s.byte w } } : Core).act
        code (.after s.core.cycle.kind) :=
    h.acted_of_read (by rw [hkind]; decide) hferries.unindexed
  rw [hferries.act_inward, Core.blockIn, hkind, if_neg (by decide), if_pos rfl, hferries.stride]
    at hacted
  have hexecutes : (s.core.acted (s.byte w)).Executes code false 2 := by
    rw [hacted]
    exact ⟨h.known, h.cycles, h.place, h.origin, h.awake⟩
  obtain ⟨hmore, hcore, hreaches⟩ := goes_on hexecutes (hferries.fourth _)
  have hspan : s.span w = 8 :=
    span_of_length (by rw [hpattern]; decide) (by rw [hacted]) hlength
  have hown : s.Own := own_of_other h (by rw [hkind]; decide)
  rw [hacted] at hcore
  have hzero := Flag.zero_blockPortFlags (s.core.regs.b - 1) (s.byte w)
    ((s.byte w).toNat + (s.core.regs.c + Word.low d.stride).toNat)
  refine ⟨hreaches, bytes_next (by rw [hpattern]; decide), ?_, ?_, ⟨_, hzero, ?_⟩,
    fun edges writes p bytes hlater => ?_⟩
  · rw [hcore]
    rfl
  · rw [hcore, ← hbyte]
    rfl
  · rw [hcore]
    rfl
  · have hgoes := Exchanges.goes hown (fun _ => rfl) hmore hlater
    rw [hspan, sends_eq_nil (by rw [hpattern]; decide)] at hgoes
    exact hgoes

/-- It is stored, and the pointer steps. -/
theorem inward_gives (asks : Bool) (h : s.core.Reaches code false 3)
    (hferries : code.Ferries .inward d) :
    ∃ p, s.Exchanges w asks (if s.core.regs.b != 0 then 16 else 6) [] p
        (w.config.apply s.bytes ⟨s.core.latches.addr, s.core.latches.outLow⟩)
      ∧ p.halted = false
      ∧ ∃ wz, p.regs = { s.core.regs.setHl (s.core.regs.hl + d.stride) with
        wz, pc := if s.core.regs.b != 0 then s.core.regs.pc - 2 else s.core.regs.pc } := by
  obtain ⟨hkind, hlength⟩ := cycle_eq h (hferries.fourth _)
  rw [Flow.gives] at hkind hlength
  obtain ⟨hpattern, hbytes⟩ := bytes_of_memoryWrite (w := w) h hkind
  have hacted : s.core.acted (s.byte w) = s.core.act code (.after s.core.cycle.kind) :=
    h.acted_of_silent (by rw [hkind]; decide) hferries.unindexed
  rw [hferries.act_inward, Core.blockIn, hkind, if_neg (by decide), if_neg (by decide),
    if_pos rfl, Core.repeatWhile_eq (by exact h.known) hferries.repeats, hferries.stride] at hacted
  have hexecutes : (s.core.acted (s.byte w)).Executes code (s.core.regs.b != 0) 3 := by
    rw [hacted]
    exact ⟨h.known, rfl, h.place, h.origin, h.awake⟩
  have hspan : s.span w = 6 :=
    span_of_length (by rw [hpattern]; decide) (by rw [hacted]) hlength
  obtain ⟨p, hexchanges, hawake, hregs⟩ := ferry_passes asks hexecutes hferries
    (own_of_other h (by rw [hkind]; decide)) fun hport => by cases hpattern.symm.trans hport
  rw [hspan, sends_eq_nil (by rw [hpattern]; decide), hbytes] at hexchanges
  refine ⟨p, ?_, hawake,
    if s.core.regs.b != 0 then s.core.regs.pc - 1 else s.core.regs.wz, ?_⟩
  · cases hmore : s.core.regs.b != 0 <;> rw [hmore] at hexchanges <;> exact hexchanges
  · rw [hregs, hacted]
    cases hmore : s.core.regs.b != 0 <;> rfl

/-- One pass of an input stores one byte from the port. -/
theorem ferries_inward (h : s.core.Fetches .main 0) (hawake : s.core.halted = false)
    (hlead : w.config.byteAt s.bytes s.core.regs.pc = 0xED)
    (hopcode : w.config.byteAt s.bytes (s.core.regs.pc + 1) = Flow.inward.opcode d) :
    ∃ p, s.Exchanges w true (if s.core.regs.b - 1 != 0 then 42 else 32) [] p
        (w.config.apply s.bytes ⟨s.core.regs.hl, w.reply s.core.regs.bc⟩)
      ∧ p.halted = false ∧ Registers.Ferries d 1 s.core.regs p.regs := by
  have hferries := Flow.inward.ferries d
  generalize hcode : decode .ed (Flow.inward.opcode d) = code at hferries
  let work : Registers → Latches → Registers × Latches := fun regs latches =>
    ({ regs with wz := regs.bc + d.stride }, { latches with port := regs.bc })
  have hwork (c : Core) : c.act code .decoded
      = { c with regs := (work c.regs c.latches).1, latches := (work c.regs c.latches).2 } := by
    rw [hferries.act_inward, Core.blockIn, if_pos rfl, hferries.stride]
  obtain ⟨hreaches, ⟨r, latches, hworked⟩, hbytes, hopens⟩ := ferry_opens (w := w) true h
    hawake hlead (by rw [hopcode]; exact hcode) hferries hwork
  obtain ⟨hregs, hlatches⟩ := Prod.mk.inj hworked
  obtain ⟨hreaches', hbytes', haddr, hout, ⟨f, hzero, hregs'⟩, htakes⟩ :=
    inward_takes (w := w) hreaches hferries
  obtain ⟨p, hgives, hawake', wz, hleft⟩ := inward_gives (w := w) true hreaches' hferries
  have hport : ((s.next w).next w).core.latches.port = s.core.regs.bc := by
    rw [hlatches]
    rfl
  have hmoved : (((s.next w).next w).next w).core.regs.b = s.core.regs.b - 1
      ∧ ((s.next w).next w).core.regs.hl = s.core.regs.hl := by
    rw [hregs', hregs]
    exact ⟨rfl, rfl⟩
  rw [hmoved.1] at hgives
  rw [haddr, hmoved.2, hout, hport, hbytes', hbytes] at hgives
  rw [hmoved.1, hregs', hregs] at hleft
  have hall := hopens _ _ _ _ (htakes _ _ _ _ hgives)
  refine ⟨p, ?_, hawake', ?_⟩
  · cases hmore : s.core.regs.b - 1 != 0 <;> rw [hmore] at hall <;> exact hall
  · rw [hregs] at hzero
    rw [hleft]
    exact s.core.regs.ferries_one d hzero

end Scene

end Z80Board
