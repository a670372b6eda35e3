import Z80Board.Proofs.Chip.Buses
import Z80Board.Proofs.Chip.Logic
import Z80Board.Proofs.Chip.Pointers
import Z80Board.Proofs.Isa.Scan

/-! # Reading an instruction

    An instruction is sought that begins at some address.  While the chip puts its opcode together,
    the byte that it is going to look up next, on the page that it has come to, leads to the opcode
    that is sought; afterwards the chip has the instruction that was sought.  All the while PC is as
    far from the start as bytes have been read, and R has counted those of them that were fetched,
    prefixes without effect included.  Only an instruction that goes somewhere else ends with another
    PC, and only one that loads R ends with another R. -/

namespace Z80Board

/-! ## What is sought -/

/-- R has counted some fetches: its low seven bits have moved on, and the upper one has not. -/
structure Refreshed (before : Byte) (count : Nat) (after : Byte) : Prop where
  low : after.toNat % 128 = (before.toNat + count) % 128
  high : after.toNat / 128 = before.toNat / 128

namespace Refreshed

/-- Before any fetch. -/
theorem refl (r : Byte) : Refreshed r 0 r := ⟨rfl, rfl⟩

/-- One more fetch. -/
theorem increment {before : Byte} {count : Nat} {regs : Registers}
    (h : Refreshed before count regs.r) : Refreshed before (count + 1) regs.incrementR.r := by
  have hstep : ∀ r : Byte, ((r &&& 0x80) ||| ((r + 1) &&& 0x7F)).toNat % 128 = (r.toNat + 1) % 128
      ∧ ((r &&& 0x80) ||| ((r + 1) &&& 0x7F)).toNat / 128 = r.toNat / 128 := by
    intro r
    have hall : ∀ n < 256, ((UInt8.ofNat n &&& 0x80) ||| ((UInt8.ofNat n + 1) &&& 0x7F)).toNat % 128
          = ((UInt8.ofNat n).toNat + 1) % 128
        ∧ ((UInt8.ofNat n &&& 0x80) ||| ((UInt8.ofNat n + 1) &&& 0x7F)).toNat / 128
          = (UInt8.ofNat n).toNat / 128 := by
      decide +kernel
    have hr := hall r.toNat r.toNat_lt
    rw [UInt8.ofNat_toNat] at hr
    exact hr
  obtain ⟨hlow, hhigh⟩ := hstep regs.r
  constructor
  · show ((regs.r &&& 0x80) ||| ((regs.r + 1) &&& 0x7F)).toNat % 128 = _
    have := h.low
    omega
  · exact hhigh.trans h.high

end Refreshed

/-- An instruction that is sought: PC and R before it, the prefixes without effect in front of it, and
    its opcode. -/
structure Sought where
  pc : Word
  r : Byte
  ignored : Nat
  page : Page
  opcode : Byte

/-- The instruction itself. -/
def Sought.code (q : Sought) : Instruction :=
  decode q.page q.opcode

/-- The instruction loads R. -/
def Instruction.LoadsR (code : Instruction) : Prop :=
  code.operands[0]? = some (.reg8 .r)

instance (code : Instruction) : Decidable code.LoadsR :=
  inferInstanceAs (Decidable (_ = _))

/-- Where the byte stands that is looked up on a page. -/
def Sought.cursor (q : Sought) (page : Page) (dropped : Nat) : Word :=
  q.pc + (dropped + codeBytes page.approach).toUInt16

/-- No instruction of a page is one that the chip performs by itself. -/
theorem Listing.Entitled.listed {page : Page} {code : Instruction}
    (h : Listing.Entitled Catalog.forms page code) : code.mnemonic.isInternal = false := by
  have hall : ∀ p ∈ Catalog.forms, p.2.page ≠ none → p.1.isInternal = false := by
    decide +kernel
  obtain ⟨m, f, hf, hpage, hcode⟩ := h
  rw [hcode.mnemonic]
  exact hall (m, f) hf (by rw [hpage]; exact nofun)

/-- Only a load has R among its operands. -/
theorem Listing.Entitled.loads {page : Page} {code : Instruction}
    (h : Listing.Entitled Catalog.forms page code) :
    code.mnemonic = .ld ∨ .reg8 .r ∉ code.operands := by
  have hall : ∀ p ∈ Catalog.forms, p.1 = .ld ∨ ∀ encoding ∈ p.2.encodings,
      .reg8 .r ∉ encoding.2 := by
    decide +kernel
  obtain ⟨m, f, hf, -, hcode⟩ := h
  obtain ⟨opcode, hmem⟩ := hcode.operands
  rw [hcode.mnemonic]
  exact (hall (m, f) hf).imp id fun hnone => hnone _ hmem

/-- A cycle at whose end an instruction can leave has no like after it, and none that reads a byte of
    the instruction. -/
theorem Listing.Entitled.leaves {page : Page} {code : Instruction}
    (h : Listing.Entitled Catalog.forms page code) (met : Bool) :
    (code.timing.cycles met).Pairwise fun cycle later =>
      code.leavesAt = some (.after cycle.kind) →
        later.kind ≠ cycle.kind ∧ later.kind.readsCode = false := by
  have hall : ∀ p ∈ Catalog.forms, p.1.leavesAt none ≠ none → ∀ encoding ∈ p.2.encodings,
      ∀ met, (p.2.timing.cycles met).Pairwise fun cycle later =>
        p.1.leavesAt encoding.2[0]? = some (.after cycle.kind) →
          later.kind ≠ cycle.kind ∧ later.kind.readsCode = false := by
    decide +kernel
  obtain ⟨m, f, hf, -, hcode⟩ := h
  obtain ⟨opcode, hmem⟩ := hcode.operands
  rw [Instruction.leavesAt, hcode.mnemonic, hcode.timing]
  by_cases hnone : m.leavesAt none = none
  · have hnever (first : Option Operand) : m.leavesAt first = none := by
      cases m <;> first | rfl | cases hnone
    rw [hnever]
    exact List.pairwise_of_forall fun _ _ hsome => by cases hsome
  · exact hall (m, f) hf hnone _ hmem met

/-- No block instruction goes anywhere when it is decoded. -/
theorem Instruction.leavesAt_ne_decoded {code : Instruction}
    (h : code.mnemonic.repeats = true) : code.leavesAt ≠ some .decoded := by
  unfold Instruction.leavesAt
  cases hm : code.mnemonic <;> rw [hm] at h
  case ldir | lddr | cpir | cpdr | inir | indr | otir | otdr => exact fun hdecoded => by cases hdecoded
  all_goals cases h

/-- When a block instruction can go back, its two bytes have been read and nothing else of it. -/
theorem Listing.Entitled.again {page : Page} {code : Instruction}
    (h : Listing.Entitled Catalog.forms page code) (hrepeats : code.mnemonic.repeats = true)
    {met : Bool} {position : Nat} {cycle : MachineCycle}
    (hcycle : (code.timing.cycles met)[position]? = some cycle)
    (hleaves : code.leavesAt = some (.after cycle.kind)) :
    codeBytes ((code.timing.cycles met).take (position + 1)) = 2 := by
  have hall : ∀ p ∈ Catalog.forms, p.1.repeats = true → ∀ met,
      ∀ position < (p.2.timing.cycles met).length, ∀ cycle ∈ (p.2.timing.cycles met)[position]?,
        p.1.leavesAt none = some (.after cycle.kind) →
          codeBytes ((p.2.timing.cycles met).take (position + 1)) = 2 := by
    decide +kernel
  obtain ⟨m, f, hf, -, hcode⟩ := h
  rw [hcode.mnemonic] at hrepeats
  have hpoint : m.leavesAt code.operands[0]? = m.leavesAt none := by
    cases m <;> first | rfl | cases hrepeats
  rw [Instruction.leavesAt, hcode.mnemonic, hpoint] at hleaves
  rw [hcode.timing] at hcycle ⊢
  exact hall (m, f) hf hrepeats met position (List.getElem?_eq_some_iff.mp hcycle).1 cycle hcycle
    hleaves

/-- The operand is a condition to be met. -/
def Operand.demands : Operand → Bool
  | .condition _ => true
  | _ => false

/-- A call or a return whose condition fails has no cycle at whose end it could leave. -/
theorem Listing.Entitled.stackless {page : Page} {code : Instruction} {cc : Condition}
    (h : Listing.Entitled Catalog.forms page code) (hstack : code.mnemonic.usesStack = true)
    (hfirst : code.operands[0]? = some (.condition cc)) {cycle : MachineCycle}
    (hcycle : cycle ∈ code.timing.cycles false) : code.leavesAt ≠ some (.after cycle.kind) := by
  have hall : ∀ p ∈ Catalog.forms, p.1.usesStack = true → ∀ encoding ∈ p.2.encodings,
      encoding.2[0]?.any Operand.demands = true →
        ∀ cycle ∈ p.2.timing.cycles false,
          p.1.leavesAt encoding.2[0]? ≠ some (.after cycle.kind) := by
    decide +kernel
  obtain ⟨m, f, hf, -, hcode⟩ := h
  obtain ⟨opcode, hmem⟩ := hcode.operands
  rw [hcode.mnemonic] at hstack
  rw [hcode.timing] at hcycle
  rw [Instruction.leavesAt, hcode.mnemonic]
  exact hall (m, f) hf hstack _ hmem (by rw [hfirst]; rfl) cycle hcycle

/-- The point at which the instruction can leave lies behind, after these cycles. -/
def Instruction.Turned (code : Instruction) (cycles : List MachineCycle) : Prop :=
  code.leavesAt = some .decoded ∨ ∃ cycle ∈ cycles, code.leavesAt = some (.after cycle.kind)

/-- A byte of the instruction is read by a pattern that reads from memory, or from the device that
    has the instruction. -/
theorem CycleKind.Uses.readsCode_eq_false {kind : CycleKind} {pattern : BusPattern}
    (h : kind.Uses pattern) (hother : pattern ∉ [.fetch, .acknowledge, .opcodeRead, .read]) :
    kind.readsCode = false := by
  cases hkind : kind
  case opcodeFetch =>
    refine absurd ?_ hother
    rcases h.opcodeFetch_iff.mp hkind with hfetch | hack | hread
    · rw [hfetch]
      decide
    · rw [hack]
      decide
    · rw [hread]
      decide
  case operand | operandLow | operandHigh =>
    obtain ⟨c, hc⟩ := h
    rw [← hc, hkind] at hother
    exact absurd (by decide : BusPattern.read ∈ _) hother
  all_goals rfl

namespace Core

/-! ## What has been read -/

/-- The cycles that have got past the point where a byte is taken in, with a half-period to come. -/
def behind (c : Core) (half : Nat) : List MachineCycle :=
  if c.cycle.pattern.sampleHalf < half then c.ran ++ [⟨c.cycle.kind, c.cycle.length⟩] else c.ran

/-- The instruction is sought: the opcode is not complete. -/
structure Seeks (byteAt : Word → Byte) (q : Sought) (c : Core) (half dropped : Nat) : Prop where
  unknown : c.instruction = none
  pc : c.regs.pc = q.pc + (dropped + codeBytes (c.behind half)).toUInt16
  r : Refreshed q.r (dropped + c.page.fetched (c.behind half)) c.regs.r
  /-- The byte at PC leads there, on the page that the chip has come to. -/
  plain : c.page.displaced = false →
    ∃ left, dropped + left = q.ignored ∧ Awaits byteAt c.page c.regs.pc left q.page q.opcode
  /-- Behind a displacement only the opcode is missing. -/
  displaced : c.page.displaced = true →
    dropped = q.ignored ∧ c.page = q.page ∧ q.opcode = byteAt (q.pc + (dropped + 3).toUInt16)

/-- The instruction is known, wherever its bytes come from. -/
structure Bears (q : Sought) (c : Core) : Prop where
  known : c.instruction = some q.code
  entitled : Listing.Entitled Catalog.forms q.page q.code
  steered : c.Steered q.code

/-- The instruction is found, and in progress. -/
structure Finds (q : Sought) (c : Core) (half : Nat) : Prop extends c.Bears q where
  taken : c.cycle.kind = .opcodeFetch → c.cycle.pattern.sampleHalf < half
  pc : ¬ q.code.Turned c.ran ∨ c.departs q.code = false →
    c.regs.pc = q.pc + (q.ignored + codeBytes (c.behind half)).toUInt16
  r : ¬ q.code.LoadsR → Refreshed q.r (q.ignored + q.page.fetched (c.behind half)) c.regs.r
  /-- A block instruction that is to run again has put PC back. -/
  again : q.code.mnemonic.repeats = true → c.conditionMet = true →
    q.code.Turned c.ran ∧ c.regs.pc = q.pc + q.ignored.toUInt16

/-- The chip reads the instruction that is sought, behind the prefixes that it has dropped. -/
inductive Reads (byteAt : Word → Byte) (q : Sought) (c : Core) (half : Nat) : Nat → Prop where
  | seeks {dropped : Nat} (sought : c.Seeks byteAt q half dropped) : Reads byteAt q c half dropped
  | finds (found : c.Finds q half) : Reads byteAt q c half q.ignored

variable {byteAt : Word → Byte} {q : Sought} {c d k : Core} {half dropped : Nat} {byte : Byte}

/-- What the chip seeks does not depend on its wires. -/
theorem Seeks.of_logic (h : c.Seeks byteAt q half dropped) (hlogic : d.logic = c.logic) :
    d.Seeks byteAt q half dropped := by
  have hback : d.logic.Seeks byteAt q half dropped := by
    rw [hlogic]
    exact ⟨h.unknown, h.pc, h.r, h.plain, h.displaced⟩
  exact ⟨hback.unknown, hback.pc, hback.r, hback.plain, hback.displaced⟩

/-- Neither does what it has found. -/
theorem Finds.of_logic (h : c.Finds q half) (hlogic : d.logic = c.logic) : d.Finds q half := by
  have hback : d.logic.Finds q half := by
    rw [hlogic]
    exact ⟨⟨h.known, h.entitled, h.steered⟩, h.taken, h.pc, h.r, h.again⟩
  exact ⟨⟨hback.known, hback.entitled, hback.steered⟩, hback.taken, hback.pc, hback.r, hback.again⟩

theorem Reads.of_logic (h : c.Reads byteAt q half dropped) (hlogic : d.logic = c.logic) :
    d.Reads byteAt q half dropped := by
  cases h with
  | seeks sought => exact .seeks (sought.of_logic hlogic)
  | finds found => exact .finds (found.of_logic hlogic)

/-- One more cycle, if it reads a byte of the instruction. -/
theorem codeBytes_append (cycles : List MachineCycle) (cycle : MachineCycle) :
    codeBytes (cycles ++ [cycle]) = codeBytes cycles + cycle.kind.readsCode.toNat := by
  rw [codeBytes, codeBytes, List.countP_append, List.countP_singleton]
  cases cycle.kind.readsCode <;> rfl

/-- A cycle that is no fetch. -/
theorem fetched_append (page : Page) (cycles : List MachineCycle) {cycle : MachineCycle}
    (h : cycle.kind ≠ .opcodeFetch) : page.fetched (cycles ++ [cycle]) = page.fetched cycles := by
  rw [Page.fetched, Page.fetched, List.countP_append, List.countP_singleton,
    if_neg (by rw [beq_iff_eq]; exact h)]
  rfl

/-- The cycle in progress gets past the point where its byte is taken in. -/
theorem behind_succ (hplace : d.place = c.place) (hran : d.ran = c.ran) :
    d.behind (half + 1)
      = if half = c.cycle.pattern.sampleHalf then c.ran ++ [⟨c.cycle.kind, c.cycle.length⟩]
        else c.behind half := by
  simp only [place, Prod.mk.injEq] at hplace
  obtain ⟨-, -, -, -, hkind, hpattern, hlength⟩ := hplace
  rw [behind, behind, hran, hkind, hpattern, hlength]
  split <;> split <;> (try split) <;> first | rfl | omega

/-! ## A half-period that takes in no byte of the opcode -/

/-- The byte of the cycle is in before the cycle ends. -/
theorem Closes.behind (h : c.Closes) :
    c.behind (c.cycle.half + 1) = c.ran ++ [⟨c.cycle.kind, c.cycle.length⟩] := by
  have hroom := c.cycle.pattern.sampleHalf_lt
  have hlength := h.course.room
  have hlast := h.last
  exact if_pos (by omega)

/-- The chip `d` is `c` with PC moved over some bytes of the instruction. -/
structure Skips (c d : Core) (count : Nat) : Prop where
  regs : d.regs = { c.regs with pc := c.regs.pc + count.toUInt16, sp := d.regs.sp }
  rest : d = { c with regs := d.regs, latches := d.latches }

theorem skips_none {sp : Word} {latches : Latches} :
    c.Skips { c with regs := { c.regs with sp }, latches } 0 := by
  refine ⟨?_, rfl⟩
  rw [show c.regs.pc + (0 : Nat).toUInt16 = c.regs.pc from UInt16.add_zero _]

/-- PC moves over a byte that is read from memory but not fetched.  All else that is read goes to the
    latches. -/
theorem skips_effect (h : c.Course half) (htakes : ¬ c.TakesByte half) (byte : Byte) :
    c.Skips (c.effect half byte)
      (if half = c.cycle.pattern.sampleHalf then (c.fromMemory && c.cycle.kind.readsCode).toNat
        else 0) := by
  rw [effect]
  by_cases hfirst : half = 0 ∧ c.cycle.pattern = .write
  · have hother : half ≠ c.cycle.pattern.sampleHalf := by
      rw [hfirst.1, hfirst.2]
      decide
    rw [if_pos hfirst, if_neg hother, pushPointer]
    cases c.cycle.kind <;> exact skips_none
  rw [if_neg hfirst]
  by_cases hsample : half = c.cycle.pattern.sampleHalf
  · have huses := h.uses
    rw [if_pos hsample, if_pos hsample, takeIn]
    cases hpattern : c.cycle.pattern <;> rw [hpattern] at hsample huses <;> dsimp only
    case fetch => exact absurd (Or.inl ⟨Or.inl hpattern, hsample⟩) htakes
    case acknowledge => exact absurd (Or.inl ⟨Or.inr hpattern, hsample⟩) htakes
    case opcodeRead => exact absurd (Or.inr ⟨hpattern, hsample⟩) htakes
    case read =>
      rw [movePointer]
      cases hkind : c.cycle.kind
      case opcodeFetch => exact absurd (huses.opcodeFetch_iff.mp hkind) (by decide)
      case operand | operandLow | operandHigh =>
        dsimp only
        rw [advancePc]
        cases c.fromMemory with
        | true => exact ⟨rfl, rfl⟩
        | false => exact skips_none
      all_goals
        rw [show (c.fromMemory && CycleKind.readsCode _) = false from Bool.and_false _]
        exact skips_none
    case portRead | write | portWrite | internal =>
      rw [huses.readsCode_eq_false (by decide), Bool.and_false]
      exact skips_none
  · rw [if_neg hsample, if_neg hsample]
    exact skips_none

/-- What stays as it is while PC moves. -/
structure Kept (c d : Core) : Prop where
  place : d.place = c.place
  ran : d.ran = c.ran
  instruction : d.instruction = c.instruction
  conditionMet : d.conditionMet = c.conditionMet
  departs : ∀ code, d.departs code = c.departs code
  r : d.regs.r = c.regs.r

theorem Skips.kept {count : Nat} (h : c.Skips d count) : c.Kept d := by
  have hregs := h.regs
  constructor
  · rw [h.rest]
    rfl
  · rw [h.rest]
    rfl
  · rw [h.rest]
  · rw [h.rest]
  · intro code
    rw [h.rest, hregs]
    rfl
  · rw [hregs]

/-- No byte of the opcode is taken in where a cycle reads something else. -/
theorem Course.kind_ne_opcodeFetch (h : c.Course half) (htakes : ¬ c.TakesByte half)
    (hsample : half = c.cycle.pattern.sampleHalf) : c.cycle.kind ≠ .opcodeFetch := by
  intro hkind
  rcases h.uses.opcodeFetch_iff.mp hkind with hpattern | hpattern | hpattern
  · exact htakes (Or.inl ⟨Or.inl hpattern, by rw [hsample, hpattern]; rfl⟩)
  · exact htakes (Or.inl ⟨Or.inr hpattern, by rw [hsample, hpattern]; rfl⟩)
  · exact htakes (Or.inr ⟨hpattern, by rw [hsample, hpattern]; rfl⟩)

/-- The bytes that have been read, one half-period later. -/
theorem Kept.behind (hkept : c.Kept d) (h : c.Course half) (htakes : ¬ c.TakesByte half) :
    codeBytes (d.behind (half + 1)) = codeBytes (c.behind half)
        + (if half = c.cycle.pattern.sampleHalf then c.cycle.kind.readsCode.toNat else 0)
      ∧ ∀ page : Page, page.fetched (d.behind (half + 1)) = page.fetched (c.behind half) := by
  rw [behind_succ hkept.place hkept.ran]
  by_cases hsample : half = c.cycle.pattern.sampleHalf
  · have hran : c.behind half = c.ran := if_neg (by omega)
    rw [if_pos hsample, if_pos hsample, hran]
    exact ⟨codeBytes_append _ _, fun page =>
      fetched_append page _ (h.kind_ne_opcodeFetch htakes hsample)⟩
  · rw [if_neg hsample, if_neg hsample]
    exact ⟨rfl, fun _ => rfl⟩

theorem add_toUInt16 (pc : Word) (m n : Nat) :
    pc + m.toUInt16 + n.toUInt16 = pc + (m + n).toUInt16 := by
  rw [UInt16.add_assoc]
  exact congrArg (pc + ·) (UInt16.ofNat_add m n).symm

/-- As long as the opcode is not complete, only a displacement is read besides it. -/
theorem Seeks.still (h : c.Seeks byteAt q half dropped) (hcourse : c.Course half)
    (hmemory : c.fromMemory = true) (htakes : ¬ c.TakesByte half) (byte : Byte) :
    (c.effect half byte).Seeks byteAt q (half + 1) dropped := by
  have hskips := skips_effect hcourse htakes byte
  rw [hmemory, Bool.true_and] at hskips
  generalize c.effect half byte = d at hskips ⊢
  have hkept := hskips.kept
  obtain ⟨hbytes, hfetches⟩ := hkept.behind hcourse htakes
  have hpage : d.page = c.page := page_of_place hkept.place
  refine ⟨hkept.instruction.trans h.unknown, ?_, ?_, fun hplain => ?_, fun hdisplaced => ?_⟩
  · rw [hskips.regs, hbytes, ← Nat.add_assoc, ← add_toUInt16, ← h.pc]
  · rw [hkept.r, hpage, hfetches]
    exact h.r
  · -- on such a page every cycle is a fetch
    have hfetch : c.cycle.kind = .opcodeFetch := by
      rw [hpage] at hplain
      have hcurrent := hcourse.current
      rw [plan, h.unknown] at hcurrent
      dsimp only at hcurrent
      have hall : ∀ cycle ∈ c.page.approach ++ [⟨.opcodeFetch, if c.page.displaced then 3 else 4⟩],
          cycle.kind = .opcodeFetch := by
        revert hplain
        cases c.page <;> decide
      exact hall _ (List.mem_of_getElem? hcurrent)
    have hnone : (if half = c.cycle.pattern.sampleHalf then c.cycle.kind.readsCode.toNat else 0)
        = 0 := by
      refine if_neg fun hsample => ?_
      exact hcourse.kind_ne_opcodeFetch htakes hsample hfetch
    have hpc : d.regs.pc = c.regs.pc := by
      rw [hskips.regs, hnone]
      exact UInt16.add_zero _
    rw [hpage, hpc]
    exact h.plain (hpage ▸ hplain)
  · rw [hpage]
    exact h.displaced (hpage ▸ hdisplaced)

/-- The cycles behind a chip are the first ones of its instruction. -/
theorem Course.prefix_cycles {code : Instruction} (h : c.Course half)
    (hcode : c.instruction = some code) :
    c.ran ++ [⟨c.cycle.kind, c.cycle.length⟩] <+: code.timing.cycles c.conditionMet := by
  rw [← h.take_succ, plan, hcode, ← (h.scheduled code hcode).1]
  exact List.take_prefix _ _

/-- A block instruction that has turned reads no more of its bytes. -/
theorem Bears.reads_nothing (h : c.Bears q) (hcourse : c.Course half)
    (hrepeats : q.code.mnemonic.repeats = true) (hturned : q.code.Turned c.ran) :
    c.cycle.kind.readsCode = false := by
  rcases hturned with hdecoded | ⟨earlier, hmem, hleaves⟩
  · exact absurd hdecoded (Instruction.leavesAt_ne_decoded hrepeats)
  · have hpairwise := (h.entitled.leaves c.conditionMet).sublist
      (hcourse.prefix_cycles h.known).sublist
    exact ((List.pairwise_append.mp hpairwise).2.2 earlier hmem _
      (List.mem_singleton.mpr rfl) hleaves).2

/-- No cycle of a known instruction but its fetches changes R, and those are over. -/
theorem Finds.still (h : c.Finds q half) (hcourse : c.Course half)
    (hmemory : c.fromMemory = true) (byte : Byte) :
    (c.effect half byte).Finds q (half + 1) := by
  have htakes : ¬ c.TakesByte half := by
    intro htakes
    have hbefore := h.taken (htakes.kind hcourse.uses)
    rw [← htakes.half_eq] at hbefore
    exact absurd hbefore (Nat.lt_irrefl half)
  have hskips := skips_effect hcourse htakes byte
  rw [hmemory, Bool.true_and] at hskips
  generalize c.effect half byte = d at hskips ⊢
  have hkept := hskips.kept
  obtain ⟨hbytes, hfetches⟩ := hkept.behind hcourse htakes
  have hplace := hkept.place
  simp only [place, Prod.mk.injEq] at hplace
  obtain ⟨-, -, -, -, hkind, hpattern, -⟩ := hplace
  refine ⟨⟨hkept.instruction.trans h.known, h.entitled, fun hpoint => ?_⟩, fun hfetch => ?_,
    fun hstays => ?_, fun hloads => ?_, fun hrepeats hmet => ?_⟩
  · rw [hkept.conditionMet, hkept.departs]
    exact h.steered hpoint
  · rw [hkind] at hfetch
    rw [hpattern]
    exact Nat.lt_succ_of_lt (h.taken hfetch)
  · rw [hkept.ran, hkept.departs] at hstays
    rw [hskips.regs, hbytes, ← Nat.add_assoc, ← add_toUInt16, ← h.pc hstays]
  · rw [hkept.r, hfetches]
    exact h.r hloads
  · obtain ⟨hturned, hback⟩ := h.again hrepeats (hkept.conditionMet.symm.trans hmet)
    refine ⟨hkept.ran ▸ hturned, ?_⟩
    rw [hskips.regs, h.reads_nothing hcourse hrepeats hturned, Bool.toNat_false, ite_self, ← hback]
    exact UInt16.add_zero _

/-! ## A byte of the opcode -/

/-- An instruction that is taken up leaves PC alone, unless it leaves at once, and R, unless it loads
    it. -/
structure Begins (code : Instruction) (c d : Core) : Prop where
  known : d.instruction = some code
  steered : d.Steered code
  pc : code.leavesAt ≠ some .decoded ∨ d.departs code = false → d.regs.pc = c.regs.pc
  r : ¬ code.LoadsR → d.regs.r = c.regs.r
  fresh : code.mnemonic.repeats = true → d.conditionMet = false

theorem begins_beginExecution {page : Page} {code : Instruction}
    (h : Listing.Entitled Catalog.forms page code) : Begins code c (c.beginExecution code) := by
  obtain ⟨e, he, hknown, hregs⟩ : ∃ e : Core, (c.takeUp code).execute .decoded = e.act code .decoded
      ∧ (e.act code .decoded).instruction = some code
      ∧ e.regs.pc = c.regs.pc ∧ e.regs.r = c.regs.r ∧ e.conditionMet = false := by
    have hpace := pace_takeUp c code
    simp only [pace, Prod.mk.injEq] at hpace
    obtain ⟨hinstruction, hcycles, hmet⟩ := hpace
    have hacts : (c.takeUp code).execute .decoded
        = ((c.takeUp code).addressOperand code).act code .decoded := by
      rw [execute, hinstruction]
      rfl
    refine ⟨_, hacts, ?_, ?_⟩
    · rw [← hacts]
      exact ((turns_execute (c.takeUp code) hinstruction .decoded).cycles hinstruction
        (by rw [hcycles, hmet])).1
    · rw [addressOperand, takeUp, placeDisplacement]
      split <;> dsimp only <;> split <;> exact ⟨rfl, rfl, rfl⟩
  rw [beginExecution_eq, he]
  refine ⟨hknown, e.steered_act_decoded code, fun hstays => ?_, fun hloads => ?_,
    fun hrepeats => (e.conditionMet_block hrepeats
      (Instruction.leavesAt_ne_decoded hrepeats)).trans hregs.2.2⟩
  · refine (e.pc_act h.listed (fun hother => absurd rfl hother) fun hleaves => ⟨?_, ?_⟩).trans
      hregs.1
    · cases hstack : code.mnemonic.usesStack with
      | false => rfl
      | true =>
        rw [Instruction.leavesAt] at hleaves
        cases hm : code.mnemonic <;> rw [hm] at hstack hleaves
        case call | ret | reti | retn => cases hleaves
        all_goals cases hstack
    · exact hstays.resolve_left fun hother => hother hleaves
  · exact (e.r_act .decoded hloads h.loads).trans hregs.2.1

/-- The chip is about to look a byte up that it has counted already: PC stands behind it, and R has
    advanced if it is fetched. -/
structure Counts (byteAt : Word → Byte) (q : Sought) (c : Core) (page : Page) (half dropped : Nat) :
    Prop where
  looks : c.Looks page half
  pc : c.regs.pc = q.cursor page dropped + 1
  r : Refreshed q.r (dropped + page.fetched (page.approach ++ [⟨.opcodeFetch, 4⟩])) c.regs.r
  plain : page.displaced = false → ∃ left, dropped + left = q.ignored
    ∧ Awaits byteAt page (q.cursor page dropped) left q.page q.opcode
  displaced : page.displaced = true → dropped = q.ignored ∧ page = q.page
    ∧ q.opcode = byteAt (q.cursor page dropped)

/-- A byte of the opcode has been taken in by the cycle in progress. -/
theorem Looks.behind {page : Page} (h : c.Looks page half) (hcycle : d.cycle.pattern = c.cycle.pattern)
    (hkind : d.cycle.kind = c.cycle.kind) :
    d.behind (half + 1) = d.ran ++ [⟨.opcodeFetch, d.cycle.length⟩] := by
  have hsample : half = d.cycle.pattern.sampleHalf := by
    rw [hcycle]
    exact h.takes.half_eq
  rw [Core.behind, if_pos (by omega), hkind, h.kind]

/-- The byte completes the opcode. -/
theorem Counts.found {page : Page} (h : c.Counts byteAt q page half dropped)
    (hentitled : Listing.Entitled Catalog.forms q.page q.code) (hpage : q.page = page)
    (hall : dropped = q.ignored) : (c.beginExecution q.code).Finds q (half + 1) := by
  subst hpage
  have hbegins : Begins q.code c (c.beginExecution q.code) := begins_beginExecution hentitled
  have hran := (h.looks.course_of_entitled hentitled).2
  have hdecodes := decodes_beginExecution c q.code
  have hbehind := h.looks.behind hdecodes.pattern hdecodes.kind
  rw [hran] at hbehind
  refine ⟨⟨hbegins.known, hentitled, hbegins.steered⟩, fun _ => ?_, fun hstays => ?_,
    fun hloads => ?_, fun hrepeats hmet => absurd ((hbegins.fresh hrepeats).symm.trans hmet)
      Bool.false_ne_true⟩
  · rw [hdecodes.pattern]
    rcases h.looks.takes with ⟨hpattern | hpattern, rfl⟩ | ⟨hpattern, rfl⟩ <;> rw [hpattern] <;>
      decide
  · rw [hbegins.pc, h.pc, hbehind, hall, codeBytes_append, Sought.cursor]
    · exact add_toUInt16 q.pc _ 1
    · exact hstays.imp (fun hturned hleaves => hturned (Or.inl hleaves)) id
  · rw [hbegins.r hloads, hbehind, ← hall]
    have hlength (n : Nat) : q.page.fetched (q.page.approach ++ [⟨.opcodeFetch, n⟩])
        = q.page.fetched (q.page.approach ++ [⟨.opcodeFetch, 4⟩]) := by
      cases q.page <;> rfl
    rw [hlength]
    exact h.r

/-- A prefix byte that leads to another page is counted there as it was here. -/
theorem fetched_of_lead {page next : Page} {byte : Byte} {action : Action}
    (hlead : page.lead? byte = some action)
    (hnext : action = .fetchNext next ∨ action = .fetchDisplacement next) (length : Nat) :
    next.fetched (page.approach ++ [⟨.opcodeFetch, length⟩])
      = page.fetched (page.approach ++ [⟨.opcodeFetch, 4⟩]) := by
  rcases Page.lead_cases hlead with ⟨rfl, other, rfl, -, happroach⟩ | ⟨hpage, other, rfl, -, happroach⟩
  · obtain rfl : other = next := by
      rcases hnext with hsame | hsame <;> cases hsame
      rfl
    cases other
    case main | ddcb | fdcb => exact nomatch happroach
    all_goals rfl
  · obtain rfl : other = next := by
      rcases hnext with hsame | hsame <;> cases hsame
      rfl
    cases other
    case ddcb | fdcb => rcases hpage with rfl | rfl <;> rfl
    all_goals exact nomatch happroach

/-- A prefix byte that leads to another page keeps the chip reading. -/
theorem Counts.leads {page next : Page} {chain : Chain} {action : Action}
    (h : c.Counts byteAt q page half dropped)
    (hlead : page.lead? (byteAt (q.cursor page dropped)) = some action)
    (hnext : action = .fetchNext next ∨ action = .fetchDisplacement next)
    (hran : ({ c with page := next, chain } : Core).ran = page.approach)
    (hplain : next.displaced = false → ∃ left, dropped + left = q.ignored
      ∧ Awaits byteAt next (q.cursor page dropped + 1) left q.page q.opcode)
    (hdisplaced : next.displaced = true → dropped = q.ignored ∧ next = q.page
      ∧ q.opcode = byteAt (q.pc + (dropped + 3).toUInt16)) :
    ({ c with page := next, chain } : Core).Reads byteAt q (half + 1) dropped := by
  have hbehind : ({ c with page := next, chain } : Core).behind (half + 1)
      = page.approach ++ [⟨.opcodeFetch, c.cycle.length⟩] := by
    rw [h.looks.behind (d := { c with page := next, chain }) rfl rfl, hran]
  refine .seeks ⟨h.looks.unknown, ?_, ?_, fun hpage => ?_, hdisplaced⟩
  · rw [hbehind, codeBytes_append]
    exact h.pc.trans (add_toUInt16 q.pc _ 1)
  · rw [hbehind]
    dsimp only
    rw [fetched_of_lead hlead hnext]
    exact h.r
  · obtain ⟨left, hall, hrest⟩ := hplain hpage
    rw [← h.pc] at hrest
    exact ⟨left, hall, hrest⟩

/-- A byte that completes the opcode has the instruction found. -/
theorem Counts.completes {page : Page} {again : Core → Page → Core}
    (h : c.Counts byteAt q page half dropped)
    (hentitled : Listing.Entitled Catalog.forms q.page q.code) (hpage : q.page = page)
    (hopcode : q.opcode = byteAt (q.cursor page dropped)) (hall : dropped = q.ignored) :
    (c.follow (decode page (byteAt (q.cursor page dropped))) again).Reads byteAt q (half + 1)
      dropped := by
  have hfound : (c.beginExecution q.code).Reads byteAt q (half + 1) q.ignored :=
    .finds (h.found hentitled hpage hall)
  rw [← hall] at hfound
  rw [← hopcode, ← hpage, Core.follow, show (decode q.page q.opcode).action = .execute from
    hentitled.action]
  exact hfound

/-- Whatever the byte is, unless it is handed to another page the chip goes on reading. -/
theorem Counts.follow {page : Page} (h : c.Counts byteAt q page half dropped)
    (again : Core → Page → Core)
    (hkeep : ∀ next, (decode page (byteAt (q.cursor page dropped))).action ≠ .redecode next) :
    (c.follow (decode page (byteAt (q.cursor page dropped))) again).Reads byteAt q (half + 1)
      dropped := by
  have hran := (h.looks.follow again hkeep).2
  cases hpage : page.displaced with
  | true =>
    -- behind a displacement there is no prefix
    obtain ⟨hall, hsame, hopcode⟩ := h.displaced hpage
    refine h.completes ?_ hsame.symm hopcode hall
    have hlead : q.page.lead? q.opcode = none ∧ q.page.fallback? = none := by
      rw [← hsame]
      cases page
      case ddcb | fdcb => exact ⟨rfl, rfl⟩
      all_goals cases hpage
    exact entitled_of_alone hlead.1 hlead.2
  | false =>
    obtain ⟨left, hall, hawaits⟩ := h.plain hpage
    cases hawaits.step with
    | next next lead rest =>
      rw [Core.follow, action_of_lead lead] at hran ⊢
      refine h.leads lead (Or.inl rfl) hran (fun _ => ⟨left, hall, rest⟩) fun hdisplaced => ?_
      rcases Page.lead_cases lead with ⟨-, other, hsame, hother, -⟩ | ⟨-, other, hsame, -⟩
      · obtain rfl := Action.fetchNext.inj hsame
        cases hdisplaced.symm.trans hother
      · cases hsame
    | displacement lead none last =>
      rw [Core.follow, action_of_lead lead] at hran ⊢
      rcases Page.lead_cases lead with ⟨-, other, hsame, -⟩ | ⟨hindex, other, hsame, hother, -⟩
      · cases hsame
      obtain rfl := Action.fetchDisplacement.inj hsame
      refine h.leads lead (Or.inr rfl) hran (fun hplain => by cases hother.symm.trans hplain)
        fun _ => ⟨by omega, rfl, ?_⟩
      rw [last, Sought.cursor]
      have happroach : codeBytes page.approach = 1 := by rcases hindex with rfl | rfl <;> rfl
      rw [happroach]
      exact congrArg byteAt (add_toUInt16 q.pc (dropped + 1) 2)
    | ignored before handed => exact absurd handed (hkeep .main)
    | last entitled none same last =>
      have hcode : q.code = decode page (byteAt (q.cursor page dropped)) := by
        rw [Sought.code, same, last]
      refine h.completes ?_ same last (by omega)
      rw [hcode, same]
      exact entitled

/-- A byte that is looked up keeps the chip reading.  A prefix that is dropped counts as ignored. -/
theorem Counts.dispatch (h : c.Counts byteAt q c.page half dropped) :
    (c.dispatch (byteAt (q.cursor c.page dropped))).Reads byteAt q (half + 1)
      (dropped + (c.drops (byteAt (q.cursor c.page dropped))).toNat) := by
  have hpushed (opcode : OpcodeBytes) :
      ({ c with opcode } : Core).Counts byteAt q c.page half dropped :=
    ⟨⟨h.looks.unknown, h.looks.here, h.looks.takes, h.looks.kind, h.looks.uses,
      h.looks.acknowledges, h.looks.plain⟩, h.pc, h.r, h.plain, h.displaced⟩
  rw [Core.dispatch]
  dsimp only
  -- a prefix that is dropped starts the count again, from the page of no prefix
  by_cases hdrops : c.drops (byteAt (q.cursor c.page dropped)) = true
  · obtain ⟨hpage, haction⟩ := drops_cases hdrops
    have hplain : c.page.displaced = false := by
      rcases hpage with hpage | hpage <;> rw [hpage] <;> rfl
    have hone : codeBytes c.page.approach = 1
        ∧ c.page.fetched (c.page.approach ++ [⟨.opcodeFetch, 4⟩]) = 2 := by
      rcases hpage with hpage | hpage <;> rw [hpage] <;> exact ⟨rfl, rfl⟩
    have hcursor : q.cursor c.page dropped = q.cursor .main (dropped + 1) := by
      rw [Sought.cursor, hone.1]
      rfl
    have hmain (opcode : OpcodeBytes) :
        ({ c with opcode, position := 0 } : Core).Counts byteAt q .main half (dropped + 1) := by
      refine ⟨⟨h.looks.unknown, rfl, h.looks.takes, h.looks.kind, h.looks.uses,
        fun hack => ⟨(h.looks.acknowledges hack).1, rfl⟩, fun _ => h.looks.plain hplain⟩, ?_, ?_,
        fun _ => ?_, fun hmain => by cases hmain⟩
      · rw [← hcursor]
        exact h.pc
      · have hr := h.r
        rw [hone.2] at hr
        exact hr
      · obtain ⟨left, hall, hawaits⟩ := h.plain hplain
        cases hawaits.step with
        | next next lead => cases (action_of_lead lead).symm.trans haction
        | displacement lead => cases (action_of_lead lead).symm.trans haction
        | ignored before _ one rest =>
          rw [hcursor] at rest
          exact ⟨before, by omega, rest⟩
        | last entitled => cases entitled.action.symm.trans haction
    rw [hdrops, Core.follow, haction, hcursor]
    exact (hmain _).follow (fun c _ => c) (main_keeps _)
  · rw [Bool.eq_false_iff.mpr hdrops]
    exact (hpushed _).follow (fun c page => c.follow (decode page _) fun c _ => c)
      (keeps_of_not_drops hdrops)

/-- Before a byte of the opcode is taken in, the approach to its page lies behind. -/
theorem Seeks.behind_eq (h : c.Seeks byteAt q half dropped) (hcourse : c.Course half)
    (htakes : c.TakesByte half) : c.behind half = c.page.approach := by
  have hsample := htakes.half_eq
  rw [behind, if_neg (by omega), ran, plan, h.unknown, (hcourse.looks h.unknown htakes).here]
  exact List.take_left

/-- A chip that has counted the byte at PC is about to look it up. -/
theorem Seeks.counts (h : c.Seeks byteAt q half dropped) (hcourse : c.Course half)
    (htakes : c.TakesByte half) {regs : Registers} (hnext : regs.pc = c.regs.pc + 1)
    (hcount : Refreshed q.r
      (dropped + c.page.fetched (c.page.approach ++ [⟨.opcodeFetch, 4⟩])) regs.r) :
    c.regs.pc = q.cursor c.page dropped
      ∧ ({ c with regs } : Core).Counts byteAt q c.page half dropped := by
  have hlooks := hcourse.looks h.unknown htakes
  have hpc : c.regs.pc = q.cursor c.page dropped := by
    rw [h.pc, h.behind_eq hcourse htakes]
    rfl
  refine ⟨hpc, ⟨hlooks.unknown, hlooks.here, hlooks.takes, hlooks.kind, hlooks.uses,
    hlooks.acknowledges, hlooks.plain⟩, hnext.trans (congrArg (· + 1) hpc), hcount, fun hpage => ?_,
    fun hpage => ?_⟩
  · rw [← hpc]
    exact h.plain hpage
  · obtain ⟨hall, hsame, hopcode⟩ := h.displaced hpage
    have hthree : codeBytes c.page.approach = 3 := by
      rw [Page.approach_displaced hpage]
      rfl
    rw [Sought.cursor, hthree]
    exact ⟨hall, hsame, hopcode⟩

/-- The byte at PC is taken in. -/
theorem Seeks.takes (h : c.Seeks byteAt q half dropped) (hcourse : c.Course half)
    (hmemory : c.fromMemory = true) (htakes : c.TakesByte half) :
    (c.effect half (byteAt c.regs.pc)).Reads byteAt q (half + 1)
      (dropped + (c.drops (byteAt c.regs.pc)).toNat) := by
  have hlooks := hcourse.looks h.unknown htakes
  have hr := h.r
  rw [h.behind_eq hcourse htakes] at hr
  have hdispatch {regs : Registers} (hnext : regs.pc = c.regs.pc + 1)
      (hcount : Refreshed q.r
        (dropped + c.page.fetched (c.page.approach ++ [⟨.opcodeFetch, 4⟩])) regs.r) :
      (({ c with regs } : Core).dispatch (byteAt c.regs.pc)).Reads byteAt q (half + 1)
        (dropped + (c.drops (byteAt c.regs.pc)).toNat) := by
    obtain ⟨hpc, hcounts⟩ := h.counts hcourse htakes hnext hcount
    rw [hpc]
    exact hcounts.dispatch
  rw [htakes.effect_eq, takeIn]
  cases hcourse.seeking h.unknown with
  | fetching plain here chain pattern early =>
    have hone : c.page.fetched (c.page.approach ++ [⟨.opcodeFetch, 4⟩])
        = c.page.fetched c.page.approach + 1 := by
      revert plain
      cases c.page <;> decide
    have hadvances : c.countRefresh.advancePc
        = { c with regs := { c.regs.incrementR with pc := c.regs.pc + 1 } } := if_pos hmemory
    have htaken : (c.countRefresh.takeOpcodeByte (byteAt c.regs.pc)).Reads byteAt q (half + 1)
        (dropped + (c.drops (byteAt c.regs.pc)).toNat) := by
      rw [takeOpcodeByte_of_none (c := c.countRefresh) h.unknown, hadvances]
      refine hdispatch rfl ?_
      rw [hone]
      exact hr.increment
    rcases pattern with hpattern | hpattern <;> rw [hpattern] <;> exact htaken
  | reading displaced here chain pattern early =>
    -- this byte is not fetched, so R stays
    have hsame : c.page.fetched (c.page.approach ++ [⟨.opcodeFetch, 4⟩])
        = c.page.fetched c.page.approach := by
      revert displaced
      cases c.page <;> decide
    have hadvances : c.movePointer = { c with regs := { c.regs with pc := c.regs.pc + 1 } } := by
      rw [movePointer, hlooks.kind]
      exact if_pos hmemory
    rw [pattern]
    dsimp only
    rw [hadvances]
    refine hdispatch rfl ?_
    rw [hsame]
    exact hr
  | leading short =>
    rw [hlooks.here] at short
    exact absurd short (Nat.lt_irrefl _)

/-! ## Running a half-period -/

/-- A cycle that is held goes back to where its byte is not in yet. -/
theorem effect_of_waits (hwaits : (c.patternHalf half).2 = true) (byte : Byte) :
    c.effect half byte = c ∧ half ≤ c.cycle.pattern.sampleHalf
      ∧ c.behind (half - 1) = c.behind half := by
  have hearly : half ≤ c.cycle.pattern.sampleHalf
      ∧ (half = c.cycle.pattern.sampleHalf → c.cycle.pattern = .portWrite) := by
    rcases waits_cases hwaits with ⟨rfl, -⟩ | ⟨rfl, hport | hport⟩
    · cases c.cycle.pattern <;> decide
    · rw [hport]
      decide
    · rw [hport]
      decide
  refine ⟨?_, hearly.1, ?_⟩
  · have hlater : ¬ (half = 0 ∧ c.cycle.pattern = .write) := by
      rcases waits_cases hwaits with ⟨rfl, -⟩ | ⟨rfl, -⟩ <;> exact fun hfirst => nomatch hfirst.1
    rw [effect, if_neg hlater]
    split
    · next hsample => rw [takeIn, hearly.2 hsample]
    · rfl
  · rw [behind, behind, if_neg (by omega), if_neg (by omega)]

theorem Seeks.hold (h : c.Seeks byteAt q half dropped) (hwaits : (c.patternHalf half).2 = true)
    (byte : Byte) : (c.effect half byte).Seeks byteAt q (half - 1) dropped := by
  obtain ⟨heffect, -, hbehind⟩ := effect_of_waits hwaits byte
  rw [heffect]
  refine ⟨h.unknown, ?_, ?_, h.plain, h.displaced⟩
  · rw [hbehind]
    exact h.pc
  · rw [hbehind]
    exact h.r

theorem Finds.hold (h : c.Finds q half) (hwaits : (c.patternHalf half).2 = true) (byte : Byte) :
    (c.effect half byte).Finds q (half - 1) := by
  obtain ⟨heffect, hearly, hbehind⟩ := effect_of_waits hwaits byte
  rw [heffect]
  refine ⟨⟨h.known, h.entitled, h.steered⟩, fun hfetch => ?_, ?_, ?_, h.again⟩
  · have := h.taken hfetch
    omega
  · rw [hbehind]
    exact h.pc
  · rw [hbehind]
    exact h.r

/-- The half-period that comes after the one that is run. -/
def after (k : Core) : Nat :=
  if k.runHalf.2 then k.runHalf.1.cycle.half + 1 else k.runHalf.1.cycle.half

/-- The next half-period comes next, unless the cycle is held. -/
theorem Underway.after_eq (h : k.Underway) :
    k.after = if k.waits then k.cycle.half - 1 else k.cycle.half + 1 := by
  rw [after]
  cases hwaits : k.waits with
  | true =>
    obtain ⟨hmore, -, hhalf, -⟩ := h.course.runHalf_waits hwaits
    rw [hmore, ← hhalf]
    rfl
  | false =>
    rcases h.course.runHalf_runs hwaits with ⟨hmore, -, hhalf, -⟩ | ⟨hlast, -, hhalf, -⟩
    · rw [hmore, hhalf]
      rfl
    · rw [hlast, hhalf]
      rfl

/-- Apart from its wires, the chip becomes what the half-period makes of it. -/
theorem logic_runHalf : k.runHalf.1.logic = (k.effect k.cycle.half k.data.value).logic := by
  rw [← runHalf_wiredAs_self]
  rfl

/-- Running a half-period keeps the chip reading. -/
theorem Seeks.runHalf (h : k.Seeks byteAt q k.cycle.half dropped) (hunderway : k.Underway)
    (hmemory : k.fromMemory = true)
    (hbyte : k.TakesByte k.cycle.half → k.data.value = byteAt k.regs.pc) :
    k.runHalf.1.Reads byteAt q k.after (dropped + k.dropsPrefix.toNat) := by
  refine Reads.of_logic ?_ logic_runHalf
  rw [hunderway.after_eq, dropsPrefix, h.unknown]
  cases hwaits : k.waits with
  | true =>
    rw [decide_eq_false (not_takesByte_of_waits hwaits)]
    exact .seeks (h.hold hwaits _)
  | false =>
    by_cases htakes : k.TakesByte k.cycle.half
    · rw [decide_eq_true htakes, hbyte htakes]
      exact h.takes hunderway.course hmemory htakes
    · rw [decide_eq_false htakes]
      exact .seeks (h.still hunderway.course hmemory htakes _)

/-- So it does with an instruction in progress. -/
theorem Finds.runHalf (h : k.Finds q k.cycle.half) (hunderway : k.Underway)
    (hmemory : k.fromMemory = true) : k.runHalf.1.Finds q k.after := by
  refine Finds.of_logic ?_ logic_runHalf
  rw [hunderway.after_eq]
  cases hwaits : k.waits with
  | true => exact h.hold hwaits _
  | false => exact h.still hunderway.course hmemory _

/-! ## The end of a cycle -/

/-- The chip `d` has latched what the last cycle of `c` has read. -/
structure Latched (code : Instruction) (c d : Core) (cycles : List MachineCycle) : Prop where
  steered : d.Steered code
  /-- The instruction has left PC alone unless it has left. -/
  pc : ¬ code.Turned cycles ∨ d.departs code = false →
    d.regs.pc = c.regs.pc ∧ (¬ code.Turned c.ran ∨ c.departs code = false)
  r : ¬ code.LoadsR → d.regs.r = c.regs.r

/-- What lies behind only grows. -/
theorem turned_append {code : Instruction} {cycles : List MachineCycle} (cycle : MachineCycle)
    (h : code.Turned cycles) : code.Turned (cycles ++ [cycle]) := by
  refine h.imp id ?_
  rintro ⟨earlier, hmem, hleaves⟩
  exact ⟨earlier, List.mem_append_left _ hmem, hleaves⟩

/-- A chip whose instruction could not leave at the end of the cycle. -/
theorem latched_of_stays {code : Instruction} (cycle : MachineCycle) (hsteered : c.Steered code)
    (hmet : d.conditionMet = c.conditionMet) (hdeparts : d.departs code = c.departs code)
    (hpc : d.regs.pc = c.regs.pc) (hr : ¬ code.LoadsR → d.regs.r = c.regs.r) :
    Latched code c d (c.ran ++ [cycle]) := by
  refine ⟨fun hpoint => ?_, fun hstays => ⟨hpc, ?_⟩, hr⟩
  · rw [hmet, hdeparts]
    exact hsteered hpoint
  · rw [hdeparts] at hstays
    exact hstays.imp_left fun hnot hturned => hnot (turned_append cycle hturned)

/-- Stowing the byte of a read touches the latches alone. -/
theorem stow_eq (code : Instruction) : c.stow code = { c with latches := (c.stow code).latches } := by
  rw [stow]
  cases c.cycle.kind
  case operandHigh =>
    dsimp only
    split <;> rfl
  all_goals rfl

/-- Only a condition keeps a call or a return from leaving. -/
theorem exists_condition {code : Instruction} (hstack : code.mnemonic.usesStack = true)
    (hstays : c.departs code = false) : ∃ cc, code.operands[0]? = some (.condition cc) := by
  have hholds : c.holds code.operands[0]? = false := by
    rw [departs] at hstays
    cases hm : code.mnemonic <;> rw [hm] at hstack hstays
    case call | ret | reti | retn => exact hstays
    all_goals cases hstack
  unfold holds at hholds
  split at hholds
  · next cc hfirst => exact ⟨cc, hfirst⟩
  · cases hholds

/-- The cycle at whose end the instruction can leave is the first one of its kind. -/
theorem Bears.not_turned (h : c.Bears q) (hcourse : c.Course c.cycle.half)
    (hleaves : q.code.leavesAt = some (.after c.cycle.kind)) : ¬ q.code.Turned c.ran := by
  rintro (hdecoded | ⟨earlier, hmem, hsame⟩)
  · exact nomatch hleaves.symm.trans hdecoded
  · have hpairwise := (h.entitled.leaves c.conditionMet).sublist
      (hcourse.prefix_cycles h.known).sublist
    have hkinds := (List.pairwise_append.mp hpairwise).2.2 earlier hmem _
      (List.mem_singleton.mpr rfl) hsame
    have hkind := ExecPoint.after.inj (Option.some.inj (hleaves.symm.trans hsame))
    exact hkinds.1 hkind

/-- A call or a return that is able to leave at the end of the cycle does. -/
theorem Bears.usesStack_eq_false (h : c.Bears q) (hcourse : c.Course c.cycle.half)
    (hleaves : q.code.leavesAt = some (.after c.cycle.kind)) (hstays : c.departs q.code = false) :
    q.code.mnemonic.usesStack = false := by
  refine Bool.eq_false_iff.mpr fun hstack => ?_
  have hcycles := hcourse.prefix_cycles h.known
  rw [(h.steered (Or.inr hstack)).trans hstays] at hcycles
  obtain ⟨cc, hfirst⟩ := exists_condition hstack hstays
  exact h.entitled.stackless hstack hfirst
    (hcycles.subset (List.mem_append_right _ (List.mem_singleton.mpr rfl))) hleaves

/-- The instruction acts at the end of the cycle. -/
theorem Bears.acts (h : c.Bears q) (hcourse : c.Course c.cycle.half) :
    Latched q.code c ((c.stow q.code).act q.code (.after c.cycle.kind))
      (c.ran ++ [⟨c.cycle.kind, c.cycle.length⟩]) := by
  obtain ⟨e, he, hregs, hmet, hdeparts⟩ : ∃ e, c.stow q.code = e ∧ e.regs = c.regs
      ∧ e.conditionMet = c.conditionMet ∧ e.departs q.code = c.departs q.code := by
    refine ⟨_, rfl, ?_⟩
    rw [stow_eq]
    exact ⟨rfl, rfl, rfl⟩
  rw [he]
  have hpoint : ExecPoint.after c.cycle.kind ≠ .decoded := nofun
  have hsteered : e.Steered q.code := by
    intro hleaves
    rw [hmet, hdeparts]
    exact h.steered hleaves
  have hr (hloads : ¬ q.code.LoadsR) :
      (e.act q.code (.after c.cycle.kind)).regs.r = c.regs.r :=
    (e.r_act _ hloads h.entitled.loads).trans (congrArg Registers.r hregs)
  by_cases hleaves : q.code.leavesAt = some (.after c.cycle.kind)
  · refine ⟨hsteered.act hpoint, fun hstays => ⟨?_, Or.inl (h.not_turned hcourse hleaves)⟩, hr⟩
    have hlater : (e.act q.code (.after c.cycle.kind)).departs q.code = false :=
      hstays.resolve_left fun hnot =>
        hnot (Or.inr ⟨_, List.mem_append_right _ (List.mem_singleton.mpr rfl), hleaves⟩)
    refine (e.pc_act h.entitled.listed (fun _ => hsteered) fun _ => ⟨?_, hlater⟩).trans
      (congrArg Registers.pc hregs)
    refine Bool.eq_false_iff.mpr fun hstack => ?_
    have hrepeats := repeats_of_steered (Or.inr hstack)
    have hsame := (e.departs_act hpoint fun hother => nomatch hrepeats.symm.trans hother).2
    exact nomatch hstack.symm.trans
      (h.usesStack_eq_false hcourse hleaves (hdeparts.symm.trans (hsame.symm.trans hlater)))
  · obtain ⟨hmet', hdeparts'⟩ := e.departs_act hpoint fun _ => hleaves
    refine latched_of_stays _ h.steered (hmet'.trans hmet) (hdeparts'.trans hdeparts) ?_ hr
    exact (e.pc_act h.entitled.listed (fun _ => hsteered) fun hother => absurd hother hleaves).trans
      (congrArg Registers.pc hregs)

/-- The end of a cycle, as an instruction in progress sees it. -/
theorem Bears.latched (h : c.Bears q) (hcourse : c.Course c.cycle.half) :
    Latched q.code c c.latchResult (c.ran ++ [⟨c.cycle.kind, c.cycle.length⟩]) := by
  have hacts : Latched q.code c ((c.stow q.code).execute (.after c.cycle.kind))
      (c.ran ++ [⟨c.cycle.kind, c.cycle.length⟩]) := by
    have hknown : (c.stow q.code).instruction = some q.code := by
      rw [stow_eq]
      exact h.known
    rw [execute, hknown]
    exact h.acts hcourse
  rw [latchResult_of_some h.known]
  by_cases hfetch : c.cycle.kind = .opcodeFetch
  · rw [if_pos hfetch]
    exact latched_of_stays _ h.steered rfl rfl rfl fun _ => rfl
  rw [if_neg hfetch]
  split
  · exact latched_of_stays _ h.steered rfl rfl rfl fun _ => rfl
  · exact hacts

/-- A block instruction that is to run again after the end of the cycle has put PC back. -/
theorem Finds.again_latched (h : c.Finds q (c.cycle.half + 1)) (hcloses : c.Closes)
    (hrepeats : q.code.mnemonic.repeats = true) (hmet : c.latchResult.conditionMet = true) :
    q.code.Turned (c.ran ++ [⟨c.cycle.kind, c.cycle.length⟩])
      ∧ c.latchResult.regs.pc = q.pc + q.ignored.toUInt16 := by
  have hcourse := hcloses.course
  -- it has done so before
  have hbefore {d : Core} (hmet : c.conditionMet = true) (hpc : d.regs.pc = c.regs.pc) :
      q.code.Turned (c.ran ++ [⟨c.cycle.kind, c.cycle.length⟩])
        ∧ d.regs.pc = q.pc + q.ignored.toUInt16 := by
    obtain ⟨hturned, hback⟩ := h.again hrepeats hmet
    exact ⟨turned_append _ hturned, hpc.trans hback⟩
  have hstowed : (c.stow q.code).instruction = some q.code
      ∧ (c.stow q.code).regs = c.regs ∧ (c.stow q.code).conditionMet = c.conditionMet := by
    rw [stow_eq]
    exact ⟨h.known, rfl, rfl⟩
  obtain ⟨hknown, hregs, hsame⟩ := hstowed
  have hacts : (c.stow q.code).execute (.after c.cycle.kind)
      = (c.stow q.code).act q.code (.after c.cycle.kind) := by
    rw [execute, hknown]
    rfl
  rw [latchResult_of_some h.known] at hmet ⊢
  split at hmet
  · next hfetch =>
    rw [if_pos hfetch]
    exact hbefore hmet rfl
  · next hfetch =>
    rw [if_neg hfetch]
    split at hmet
    · exact hbefore hmet rfl
    · rw [hacts] at hmet ⊢
      by_cases hleaves : q.code.leavesAt = some (.after c.cycle.kind)
      · -- it does so now
        have hnot := h.not_turned hcourse hleaves
        have hcycles := (hcourse.scheduled q.code h.known).1
        have hcurrent : (q.code.timing.cycles c.conditionMet)[c.position]?
            = some ⟨c.cycle.kind, c.cycle.length⟩ := by
          have hplan := hcourse.current
          rw [plan, h.known] at hplan
          rw [← hcycles]
          exact hplan
        have htwo := h.entitled.again hrepeats hcurrent hleaves
        have htaken := hcourse.take_succ
        rw [plan, h.known] at htaken
        rw [← hcycles, htaken] at htwo
        refine ⟨Or.inr ⟨_, List.mem_append_right _ List.mem_cons_self, hleaves⟩, ?_⟩
        have hhere : c.regs.pc = q.pc + (q.ignored + 2).toUInt16 := by
          rw [h.pc (Or.inl hnot), hcloses.behind, htwo]
        rw [pc_act_again _ hrepeats hleaves hmet, hregs, hhere, ← add_toUInt16]
        exact UInt16.add_sub_cancel _ 2
      · have hmet' := (c.stow q.code).conditionMet_block hrepeats hleaves
        refine hbefore (hsame.symm.trans (hmet'.symm.trans hmet)) ?_
        exact ((c.stow q.code).pc_act h.entitled.listed
          (fun _ hpoint => absurd hrepeats (by rw [repeats_of_steered hpoint]; decide))
          fun hother => absurd hother hleaves).trans (congrArg Registers.pc hregs)

/-- The instruction that was sought is complete. -/
structure Completes (q : Sought) (c : Core) : Prop where
  code : c.instruction = some q.code
  pc : c.departs q.code = false → c.regs.pc = q.pc + (q.ignored + q.code.size).toUInt16
  r : ¬ q.code.LoadsR → Refreshed q.r (q.ignored + q.page.fetches) c.regs.r

/-- Before the first half-period of a cycle its byte is still to come. -/
theorem behind_zero : c.behind 0 = c.ran :=
  if_neg (Nat.not_lt_zero _)

/-- At the end of a cycle the chip goes on to the next one of the opcode. -/
theorem Seeks.next (h : c.Seeks byteAt q (c.cycle.half + 1) dropped) (hcloses : c.Closes) :
    c.latchResult.nextCycle.2 = false
      ∧ c.latchResult.nextCycle.1.Seeks byteAt q 0 dropped := by
  have hgoes := hcloses.next_of_none h.unknown
  have hsame : c.latchResult.instruction = none ∧ c.latchResult.regs = c.regs
      ∧ c.latchResult.page = c.page := by
    rw [latchResult_of_none h.unknown]
    split <;> exact ⟨h.unknown, rfl, rfl⟩
  obtain ⟨hunknown, hregs, hpage⟩ : c.latchResult.nextCycle.1.instruction = none
      ∧ c.latchResult.nextCycle.1.regs = c.regs ∧ c.latchResult.nextCycle.1.page = c.page := by
    rw [nextCycle_of_none hsame.1]
    cases c.latchResult.chain <;> exact hsame
  have hbehind : c.latchResult.nextCycle.1.behind 0 = c.behind (c.cycle.half + 1) := by
    rw [behind_zero, hgoes.ran, hcloses.behind]
  refine ⟨hgoes.more, hunknown, ?_, ?_, ?_, ?_⟩
  · rw [hregs, hbehind]
    exact h.pc
  · rw [hregs, hpage, hbehind]
    exact h.r
  · rw [hregs, hpage]
    exact h.plain
  · rw [hpage]
    exact h.displaced

/-- Setting up the next cycle leaves alone what the instruction goes by. -/
theorem nextCycle_kept {code : Instruction} (h : c.instruction = some code) :
    c.nextCycle.1.instruction = some code ∧ c.nextCycle.1.regs = c.regs
      ∧ c.nextCycle.1.conditionMet = c.conditionMet
      ∧ c.nextCycle.1.departs code = c.departs code := by
  obtain ⟨hcode, hregs, hmet⟩ : c.nextCycle.1.instruction = some code
      ∧ c.nextCycle.1.regs = c.regs ∧ c.nextCycle.1.conditionMet = c.conditionMet := by
    rw [nextCycle_of_some h]
    split <;> exact ⟨h, rfl, rfl⟩
  refine ⟨hcode, hregs, hmet, ?_⟩
  rw [departs, departs, hmet, hregs, holds_congr (congrArg Registers.f hregs)]

/-- At the end of a cycle the instruction goes on to the next one, or it is complete. -/
theorem Finds.next (h : c.Finds q (c.cycle.half + 1)) (hcloses : c.Closes) :
    (c.latchResult.nextCycle.2 = false → c.latchResult.nextCycle.1.Finds q 0)
      ∧ (c.latchResult.nextCycle.2 = true → Completes q c.latchResult.nextCycle.1) := by
  have hlatched := h.latched hcloses.course
  obtain ⟨hplace, hturns⟩ := latchResult_turns h.known
  have hscheduled := hcloses.course.scheduled q.code h.known
  obtain ⟨hknown, hcycles⟩ := hturns.cycles h.known hscheduled.1
  have hbehind := hcloses.behind
  obtain ⟨hcode, hregs, hmet, hdeparts⟩ := nextCycle_kept hknown
  have hpc (hstays : ¬ q.code.Turned (c.ran ++ [⟨c.cycle.kind, c.cycle.length⟩])
        ∨ c.latchResult.nextCycle.1.departs q.code = false) :
      c.latchResult.nextCycle.1.regs.pc = q.pc + (q.ignored
        + codeBytes (c.ran ++ [⟨c.cycle.kind, c.cycle.length⟩])).toUInt16 := by
    rw [hdeparts] at hstays
    obtain ⟨hkept, hstayed⟩ := hlatched.pc hstays
    rw [hregs, hkept, h.pc hstayed, hbehind]
  have hr (hloads : ¬ q.code.LoadsR) : Refreshed q.r (q.ignored
        + q.page.fetched (c.ran ++ [⟨c.cycle.kind, c.cycle.length⟩]))
      c.latchResult.nextCycle.1.regs.r := by
    rw [hregs, hlatched.r hloads, ← hbehind]
    exact h.r hloads
  rcases hcloses.next with hgoes | ⟨hend, code, hsame, -, hall⟩
  · refine ⟨fun _ => ⟨⟨hcode, h.entitled, fun hpoint => ?_⟩, fun hfetch => ?_, ?_, ?_,
      fun hrepeats hagain => ?_⟩, fun hend => by cases hgoes.more.symm.trans hend⟩
    · rw [hmet, hdeparts]
      exact hlatched.steered hpoint
    · -- no fetch comes after the one that completes the opcode
      have hmore := hgoes.more
      rw [nextCycle_of_some hknown] at hmore hfetch
      cases hget : c.latchResult.cycles[c.latchResult.position + 1]? with
      | none =>
        rw [hget] at hmore
        cases hmore
      | some next =>
        rw [hget] at hfetch
        have hposition : c.latchResult.position = c.position :=
          position_of_place hplace
        rw [hcycles, hposition] at hget
        exact absurd hfetch (hcloses.course.later_kind h.known hget)
    · rw [behind_zero, hgoes.ran]
      exact hpc
    · rw [behind_zero, hgoes.ran]
      exact hr
    · rw [hgoes.ran, hregs]
      exact h.again_latched hcloses hrepeats (hmet.symm.trans hagain)
  · obtain rfl : code = q.code := Option.some.inj (hsame.symm.trans hcode)
    refine ⟨fun hmore => (by cases hend.symm.trans hmore), fun _ => ⟨hcode, fun hstays => ?_,
      fun hloads => ?_⟩⟩
    · rw [hpc (Or.inr hstays), hall, (h.entitled.spans _).1]
    · have hcount := hr hloads
      rw [hall, (h.entitled.spans _).2] at hcount
      exact hcount

/-! ## An edge amid an instruction -/

/-- The chip has chosen its instruction, and is running it or waits for its buses. -/
structure Amid (c : Core) : Prop where
  phase : c.phase = .running ∨ c.phase = .busReleased
  chosen : c.boundaryPending = false

theorem Amid.of_steady (h : c.Amid) (hsteady : c.Steady d) : d.Amid := by
  refine ⟨?_, hsteady.pending.trans h.chosen⟩
  rw [hsteady.phase]
  exact h.phase

/-- What an edge comes to amid an instruction, with the chip that it engages. -/
inductive Pass (c : Core) (e : Edge) : Option Core → Prop where
  /-- The chip has to wait for its buses. -/
  | stalls (logic : e.core.logic = c.logic) (half : e.core.cycle.half = c.cycle.half)
    (amid : e.core.Amid) (goes : e.ended = false) : Pass c e none
  /-- It runs a half-period, and the cycle goes on. -/
  | runs {k : Core} (logic : k.logic = c.logic) (half : k.cycle.half = c.cycle.half)
    (more : k.runHalf.2 = false) (result : e.core = k.runHalf.1) (amid : e.core.Amid)
    (goes : e.ended = false) : Pass c e (some k)
  /-- It runs the last half-period of the cycle. -/
  | closes {k : Core} (logic : k.logic = c.logic) (half : k.cycle.half = c.cycle.half)
    (last : k.runHalf.2 = true) (ended : e.ended = k.runHalf.1.latchResult.nextCycle.2)
    (result : e.core = if e.ended then k.runHalf.1.latchResult.nextCycle.1.complete
      else k.runHalf.1.latchResult.nextCycle.1)
    (amid : e.core.Amid) : Pass c e (some k)

theorem pass_runEdge {emitted : List Emission} (hlogic : k.logic = c.logic)
    (hhalf : k.cycle.half = c.cycle.half) (hamid : k.Amid) :
    c.Pass (k.runEdge emitted) (some k) := by
  have hrun := hamid.of_steady steady_runHalf
  rw [runEdge_eq]
  cases hlast : k.runHalf.2 with
  | false => exact .runs hlogic hhalf hlast rfl hrun rfl
  | true =>
    rw [if_pos rfl, endCycle_eq]
    have hnext := hrun.of_steady (steady_latchResult.trans (steady_nextCycle _))
    cases hend : k.runHalf.1.latchResult.nextCycle.2 with
    | false => exact .closes hlogic hhalf hlast hend.symm rfl hnext
    | true => exact .closes hlogic hhalf hlast hend.symm rfl ⟨hnext.phase, hnext.chosen⟩

/-- The chip that an edge engages has been made ready, and runs. -/
theorem pass_engaged {level : Level} {inputs : InputLevels}
    (hengaged : c.engaged level inputs = some k) (hamid : k.Amid) :
    k.Pass (c.edge level inputs) (some k) := by
  have hturn := c.turn level inputs
  rw [hengaged] at hturn
  generalize c.edge level inputs = e at hturn ⊢
  cases hturn with
  | begins | continues => exact pass_runEdge rfl rfl hamid

/-- Unless it resets the chip, every edge does. -/
theorem Amid.pass (h : c.Amid) {level : Level} {inputs : InputLevels}
    (hreset : inputs.reset.isAsserted = false) :
    c.Pass (c.edge level inputs) (c.engaged level inputs) := by
  have hkept : (c.sampleInputs inputs).leaveReset = c.sampleInputs inputs := by
    refine if_neg fun hphase => ?_
    rcases h.phase with hother | hother <;> exact nomatch hother.symm.trans hphase
  have hsampled : (c.sampleInputs inputs).Amid := ⟨h.phase, h.chosen⟩
  -- the chip is made ready without a choice
  have hready {k : Core} {emitted : List Emission}
      (hready : (c.sampleInputs inputs).leaveReset.Readied k emitted) :
      k.logic = c.logic ∧ k.cycle.half = c.cycle.half ∧ k.Amid := by
    rw [hkept] at hready
    cases hready with
    | running => exact ⟨rfl, rfl, hsampled⟩
    | returned => exact ⟨rfl, rfl, Or.inl rfl, h.chosen⟩
    | started phase => rcases h.phase with hother | hother <;> exact nomatch hother.symm.trans phase
    | resolved _ pending | returnedResolved _ pending =>
      exact nomatch h.chosen.symm.trans pending
  have hturn := c.turn level inputs
  generalize c.engaged level inputs = engaged at hturn ⊢
  generalize c.edge level inputs = e at hturn ⊢
  cases hturn with
  | resets reset => exact nomatch hreset.symm.trans reset
  | passes sampled =>
    rw [sampled, hkept]
    exact .stalls rfl rfl hsampled rfl
  | grants ready =>
    obtain ⟨hlogic, hhalf, hamid⟩ := hready ready
    exact .stalls hlogic hhalf ⟨Or.inr rfl, hamid.chosen⟩ rfl
  | begins ready | continues ready =>
    obtain ⟨hlogic, hhalf, hamid⟩ := hready ready
    exact pass_runEdge hlogic hhalf hamid

end Core

end Z80Board
