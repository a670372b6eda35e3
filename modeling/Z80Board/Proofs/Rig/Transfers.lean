import Z80Board.Proofs.Rig.Outcomes
import Z80Board.Proofs.Rig.Repeats

/-! # Transfers of control

    A jump, a call or a return is decided when its opcode is complete, but for the jump to a word,
    which reads its target in any case.  If it is taken it goes on elsewhere, and otherwise behind
    itself; both ways F stays as it is. -/

namespace Z80Board

/-! ## Words in memory -/

/-- The word at an address, its low byte first. -/
def BoardConfig.wordAt (config : BoardConfig) (bytes : Array Byte) (address : Word) : Word :=
  Word.ofBytes (config.byteAt bytes (address + 1)) (config.byteAt bytes address)

/-- What a push of the word stores below SP, its high byte first. -/
def Word.pushes (w sp : Word) : List Store :=
  [⟨sp - 1, Word.high w⟩, ⟨sp - 2, Word.low w⟩]

namespace Core

variable {config : BoardConfig} {c e : Core} {code : Instruction} {bytes : Array Byte} {t : Nat}
  {met : Bool} {regs : Registers} {latches : Latches}

/-- Of two cycles between which the instruction does nothing, the second one goes on from what the first
    one has left. -/
theorem Stands.doesBoth (h : c.Stands code met regs latches) (config : BoardConfig)
    (bytes : Array Byte) (t t' : Nat) (first second : CycleKind)
    (hfirst : first.isPlain = true ∧ first ≠ .portWrite ∧ first ≠ .operand)
    (hsecond : second.isPlain = true ∧ second ≠ .portWrite ∧ second ≠ .operand)
    (hidle : ∀ c : Core, c.act code (.after first) = c) :
    let latched (kind : CycleKind) (bytes : Array Byte) (regs : Registers) (latches : Latches) :=
      kind.latch (code.hasOperand .absolute) (config.byteAt bytes (kind.address regs latches)) latches
    let bytes' := (first.stores regs latches).foldl config.apply bytes
    let latches' := latched first bytes regs latches
    ∃ d : Core, d.Stands code met (second.move (first.move regs))
        (latched second bytes' (first.move regs) latches')
      ∧ [⟨first, t⟩, ⟨second, t'⟩].foldl (Core.does config) (c, bytes)
        = (d.act code (.after second),
          (second.stores (first.move regs) latches').foldl config.apply bytes') := by
  intro latched bytes' latches'
  obtain ⟨d, hd, hdoes⟩ := h.does config bytes t first hfirst.1 hfirst.2.1
    fun hoperand => absurd hoperand hfirst.2.2
  rw [hidle] at hdoes
  obtain ⟨e, he, hdoes'⟩ := hd.does config bytes' t' second hsecond.1 hsecond.2.1
    fun hoperand => absurd hoperand hsecond.2.2
  refine ⟨e, he, ?_⟩
  rw [List.foldl_cons, hdoes, List.foldl_cons]
  exact hdoes'

/-- The word of an instruction is read behind its opcode, and latched as an address if it is one. -/
theorem Stands.readsOperand (h : c.Stands code met regs latches) (config : BoardConfig)
    (bytes : Array Byte) (t t' : Nat) (hidle : ∀ c : Core, c.act code (.after .operandLow) = c) :
    ∃ d : Core, d.Stands code met { regs with pc := regs.pc + 2 }
        (CycleKind.latch .operandHigh (code.hasOperand .absolute)
          (config.byteAt bytes (regs.pc + 1))
          (CycleKind.latch .operandLow (code.hasOperand .absolute) (config.byteAt bytes regs.pc)
            latches))
      ∧ [⟨.operandLow, t⟩, ⟨.operandHigh, t'⟩].foldl (Core.does config) (c, bytes)
        = (d.act code (.after .operandHigh), bytes) := by
  obtain ⟨d, hd, hfold⟩ := h.doesBoth config bytes t t' .operandLow .operandHigh (by decide)
    (by decide) hidle
  have hpc : regs.pc + 1 + 1 = regs.pc + 2 := UInt16.add_assoc _ _ _
  rw [← hpc]
  exact ⟨d, hd, hfold⟩

/-- Then the chip has the word. -/
theorem Stands.readsWord (h : c.Stands code met regs latches) (config : BoardConfig)
    (bytes : Array Byte) (t t' : Nat) (hidle : ∀ c : Core, c.act code (.after .operandLow) = c) :
    ∃ (d : Core) (latches' : Latches), d.Stands code met { regs with pc := regs.pc + 2 } latches'
      ∧ d.imm16 = config.wordAt bytes regs.pc
      ∧ [⟨.operandLow, t⟩, ⟨.operandHigh, t'⟩].foldl (Core.does config) (c, bytes)
        = (d.act code (.after .operandHigh), bytes) := by
  obtain ⟨d, hd, hfold⟩ := h.readsOperand config bytes t t' hidle
  refine ⟨d, _, hd, ?_, hfold⟩
  rw [imm16, hd.latches]
  rfl

/-- A word is popped from the stack. -/
theorem Stands.popsWord (h : c.Stands code met regs latches) (config : BoardConfig)
    (bytes : Array Byte) (t t' : Nat) (hidle : ∀ c : Core, c.act code (.after .stackReadLow) = c) :
    ∃ (d : Core) (latches' : Latches), d.Stands code met { regs with sp := regs.sp + 2 } latches'
      ∧ d.data16 = config.wordAt bytes regs.sp
      ∧ [⟨.stackReadLow, t⟩, ⟨.stackReadHigh, t'⟩].foldl (Core.does config) (c, bytes)
        = (d.act code (.after .stackReadHigh), bytes) := by
  obtain ⟨d, hd, hfold⟩ := h.doesBoth config bytes t t' .stackReadLow .stackReadHigh (by decide)
    (by decide) hidle
  have hsp : regs.sp + 1 + 1 = regs.sp + 2 := UInt16.add_assoc _ _ _
  rw [← hsp]
  refine ⟨d, _, hd, ?_, hfold⟩
  rw [data16, hd.latches]
  rfl

/-- A word that has been put out is pushed. -/
theorem Stands.pushesWord (h : c.Stands code met regs latches) (config : BoardConfig)
    (bytes : Array Byte) (t t' : Nat) {w : Word}
    (hstaged : latches.outHigh = Word.high w ∧ latches.outLow = Word.low w)
    (hidle : ∀ c : Core, c.act code (.after .stackWriteHigh) = c) :
    ∃ d : Core, d.Stands code met { regs with sp := regs.sp - 2 } latches
      ∧ [⟨.stackWriteHigh, t⟩, ⟨.stackWriteLow, t'⟩].foldl (Core.does config) (c, bytes)
        = (d.act code (.after .stackWriteLow), (w.pushes regs.sp).foldl config.apply bytes) := by
  obtain ⟨d, hd, hfold⟩ := h.doesBoth config bytes t t' .stackWriteHigh .stackWriteLow (by decide)
    (by decide) hidle
  have hsp : regs.sp - 1 - 1 = regs.sp - 2 := by grind
  rw [Word.pushes, ← hstaged.1, ← hstaged.2, ← hsp]
  exact ⟨d, hd, hfold⟩

/-- What becomes of the registers does not touch the course of the instruction. -/
theorem Stands.withRegs (h : c.Stands code met regs latches) (f : Registers → Registers) :
    ({ c with regs := f c.regs } : Core).Stands code met (f regs) latches :=
  ⟨h.known, h.met, h.origin, h.awake, congrArg f h.regs, h.latches⟩

/-- What memory operand is addressed at decode touches nothing but a latch. -/
theorem Stands.addressOperand (h : c.Stands code met regs latches) :
    ∃ latches', (c.addressOperand code).Stands code met regs latches' := by
  obtain ⟨known, met, origin, awake, rfl, rfl⟩ := h
  rw [Core.addressOperand]
  split <;> exact ⟨_, known, met, origin, awake, rfl, rfl⟩

end Core

/-! ## Which transfers there are -/

namespace Mnemonic

/-- The instruction transfers control, if its condition holds. -/
def transfers : Mnemonic → Bool
  | .jp | .jr | .djnz | .call | .ret => true
  | _ => false

/-- The cycles behind the opcode of a transfer, whether it is taken or not. -/
def branch (taken : Bool) : Mnemonic → List MachineCycle
  | .jr | .djnz => ⟨.operand, 3⟩ :: if taken then [⟨.internal, 5⟩] else []
  | .call =>
    if taken then [⟨.operandLow, 3⟩, ⟨.operandHigh, 4⟩, ⟨.stackWriteHigh, 3⟩, ⟨.stackWriteLow, 3⟩]
    else [⟨.operandLow, 3⟩, ⟨.operandHigh, 3⟩]
  | .ret => if taken then [⟨.stackReadLow, 3⟩, ⟨.stackReadHigh, 3⟩] else []
  | _ => [⟨.operandLow, 3⟩, ⟨.operandHigh, 3⟩]

/-- How many bytes of the instruction they read. -/
def branchReads (m : Mnemonic) : Nat :=
  codeBytes (m.branch false)

end Mnemonic

namespace Operand

/-- The operand is in memory at a register pair, which is where a jump goes. -/
def isPair : Operand → Bool
  | .indirect _ => true
  | _ => false

/-- Such an operand names the pair. -/
theorem exists_indirect {first : Option Operand} (h : first.any isPair = true) :
    ∃ rr, first = some (.indirect rr) := by
  obtain ⟨operand, hfirst, hpair⟩ := Option.any_eq_true _ _ |>.mp h
  cases operand with
  | indirect rr => exact ⟨rr, hfirst⟩
  | _ => cases hpair

/-- The operand is a condition. -/
def isCondition : Operand → Bool
  | .condition _ => true
  | _ => false

end Operand

namespace Instruction

/-- The transfer is taken by a chip with these registers: its condition holds in F, if it names one,
    and for DJNZ there is more to count. -/
def taken (code : Instruction) (regs : Registers) : Bool :=
  if code.mnemonic = .djnz then regs.b - 1 != 0
  else
    match (code.operands[0]? : Option Operand) with
    | some (.condition cc) => regs.condition cc
    | _ => true

/-- Where it goes if it is taken, the next instruction being at `next`. -/
def target (code : Instruction) (config : BoardConfig) (bytes : Array Byte) (regs : Registers)
    (next : Word) : Word :=
  match code.mnemonic with
  | .jr | .djnz => next + Word.ofDisplacement (config.byteAt bytes (next - 1))
  | .ret => config.wordAt bytes regs.sp
  | .jp =>
    match (code.operands[0]? : Option Operand) with
    | some (.indirect rr) => regs.reg16 rr
    | _ => config.wordAt bytes (next - 2)
  | _ => config.wordAt bytes (next - 2)

/-- A jump that does not name a register pair goes to its word. -/
theorem target_of_word {code : Instruction} {config : BoardConfig} {bytes : Array Byte}
    {regs : Registers} {next : Word} (hm : code.mnemonic = .jp)
    (hword : code.operands[0]?.any Operand.isPair = false) :
    code.target config bytes regs next = config.wordAt bytes (next - 2) := by
  unfold target
  rw [hm]
  revert hword
  generalize (code.operands[0]? : Option Operand) = first
  intro hword
  rcases first with _ | operand
  · rfl
  · cases operand <;> first
      | rfl
      | cases hword

/-- What it does to SP if it is taken. -/
def stackMove (code : Instruction) (sp : Word) : Word :=
  match code.mnemonic with
  | .call => sp - 2
  | .ret => sp + 2
  | _ => sp

/-- Behind its opcode the instruction has these cycles, and reads so many of its own bytes in them.  No
    displacement is among them. -/
structure Trails (code : Instruction) (page : Page) (tail : Bool → List MachineCycle) (reads : Nat) :
    Prop extends code.Tails page tail where
  size : code.size = codeBytes page.approach + 1 + reads
  undisplaced : page.displaced = false
  index : code.index? = none

end Instruction

/-- The form has these cycles behind the opcode, with these operands. -/
def Form.Trails (f : Form) (page : Page) (operands : List Operand)
    (tail : Bool → List MachineCycle) (reads : Nat) : Prop :=
  page.displaced = false ∧ operands.findSome? Operand.index? = none
    ∧ f.size = codeBytes page.approach + 1 + reads
    ∧ ∀ met, (f.timing.cycles met).drop (page.approach.length + 1) = tail met

instance (f : Form) (page : Page) (operands : List Operand) (tail : Bool → List MachineCycle)
    (reads : Nat) : Decidable (f.Trails page operands tail reads) :=
  inferInstanceAs (Decidable (_ ∧ _ ∧ _ ∧ _))

section

variable {page : Page} {code : Instruction} {m : Mnemonic} {f : Form}
  {tail : Bool → List MachineCycle} {reads : Nat}

/-- An encoding of the form has them too. -/
theorem Instruction.Encodes.trails (h : code.Encodes m f) (hf : (m, f) ∈ Catalog.forms)
    (hpage : f.page = some page) (honce : m.repeats = false)
    (hplain : ∀ met, ∀ cycle ∈ tail met, cycle.kind.isPlain = true)
    (htrails : f.Trails page code.operands tail reads) : code.Trails page tail reads := by
  obtain ⟨hundisplaced, hindex, hsize, hcycles⟩ := htrails
  rw [← h.timing] at hcycles
  rw [← h.size] at hsize
  rw [← h.mnemonic] at honce
  exact ⟨⟨⟨m, f, hf, hpage, h⟩, honce, hcycles, hplain⟩, hsize, hundisplaced, hindex⟩

namespace Listing.Entitled

/-- A jump reads a word unless it has its target in a register pair, and in both cases has one
    timing. -/
theorem jumps (h : Listing.Entitled Catalog.forms page code) (hm : code.mnemonic = .jp) :
    code.timing.alternate = none
      ∧ if code.operands[0]?.any Operand.isPair then code.Trails page (fun _ => []) 0
        else code.Trails page (fun _ => [⟨.operandLow, 3⟩, ⟨.operandHigh, 3⟩]) 2 := by
  have hjumps : ∀ p ∈ Catalog.forms, p.1 = .jp → ∀ page, p.2.page = some page →
      ∀ e ∈ p.2.encodings, p.2.timing.alternate = none
        ∧ if e.2[0]?.any Operand.isPair then p.2.Trails page e.2 (fun _ => []) 0
          else p.2.Trails page e.2 (fun _ => [⟨.operandLow, 3⟩, ⟨.operandHigh, 3⟩]) 2 := by
    decide +kernel
  obtain ⟨m, f, hf, hpage, hcode⟩ := h
  obtain ⟨opcode, hmem⟩ := hcode.operands
  have hjp : m = .jp := hcode.mnemonic.symm.trans hm
  obtain ⟨hfixed, htrails⟩ := hjumps (m, f) hf hjp page hpage _ hmem
  have honce : m.repeats = false := by rw [hjp]; rfl
  rw [hcode.timing]
  refine ⟨hfixed, ?_⟩
  split
  · next hpair =>
    rw [if_pos hpair] at htrails
    exact hcode.trails hf hpage honce (fun _ => by decide) htrails
  · next hword =>
    rw [if_neg hword] at htrails
    exact hcode.trails hf hpage honce (fun _ => by decide) htrails

/-- Any other transfer runs the cycles of its branch.  If it has one timing, it is taken always. -/
theorem branches (h : Listing.Entitled Catalog.forms page code) (hm : code.mnemonic.transfers = true)
    (hother : code.mnemonic ≠ .jp) :
    ∃ tail : Bool → List MachineCycle, code.Trails page tail code.mnemonic.branchReads
      ∧ ∀ regs, tail (code.taken regs) = code.mnemonic.branch (code.taken regs) := by
  have hbranches : ∀ p ∈ Catalog.forms, p.1.transfers = true → p.1 ≠ .jp →
      ∀ page, p.2.page = some page → ∀ e ∈ p.2.encodings,
        p.2.Trails page e.2 (fun met => p.1.branch (met || p.2.timing.alternate.isNone))
          p.1.branchReads := by
    decide +kernel
  have halways : ∀ p ∈ Catalog.forms, p.1.transfers = true → p.1 ≠ .jp →
      p.2.timing.alternate = none → ∀ e ∈ p.2.encodings,
        p.1 ≠ .djnz ∧ e.2[0]?.any Operand.isCondition = false := by
    decide +kernel
  obtain ⟨m, f, hf, hpage, hcode⟩ := h
  obtain ⟨opcode, hmem⟩ := hcode.operands
  have hplain (m : Mnemonic) (taken : Bool) :
      ∀ cycle ∈ m.branch taken, cycle.kind.isPlain = true := by
    cases m <;> cases taken <;> decide
  rw [hcode.mnemonic] at hm hother ⊢
  have honce : m.repeats = false := by
    cases m <;> first
      | rfl
      | cases hm
  have htrails := hbranches (m, f) hf hm hother page hpage _ hmem
  refine ⟨_, hcode.trails hf hpage honce (fun met => hplain _ _) htrails, fun regs => ?_⟩
  dsimp only
  cases halternate : f.timing.alternate with
  | some timing => rw [Option.isNone_some, Bool.or_false]
  | none =>
    obtain ⟨hcounts, hnames⟩ := halways (m, f) hf hm hother halternate _ hmem
    have htaken : code.taken regs = true := by
      rw [Instruction.taken, if_neg (hcode.mnemonic ▸ hcounts)]
      split
      · next hcondition =>
        rw [hcondition] at hnames
        cases hnames
      · rfl
    rw [htaken]
    rfl

end Listing.Entitled

end

/-! ## Taken or not -/

namespace Core

variable {config : BoardConfig} {c k : Core} {code : Instruction} {bytes : Array Byte} {count : Nat}
  {page : Page} {opcode : Byte} {regs : Registers} {latches : Latches}

/-- The condition is looked up in F. -/
theorem holds_eq (regs : Registers) (hm : code.mnemonic ≠ .djnz) (hflags : c.regs.f = regs.f) :
    c.holds code.operands[0]? = code.taken regs := by
  rw [Instruction.taken, if_neg hm]
  generalize (code.operands[0]? : Option Operand) = first
  rcases first with _ | operand
  · rfl
  · cases operand with
    | condition cc =>
      show c.regs.condition cc = regs.condition cc
      cases cc <;> simp only [Registers.condition, Registers.flag, hflags]
    | _ => rfl

/-- A jump that does not name a register pair waits for its word. -/
theorem jump_of_word {first : Option Operand} (hword : first.any Operand.isPair = false) (c : Core)
    (point : ExecPoint) : c.jump point first
      = if point = .after .operandHigh then
          if c.holds first then c.goTo c.imm16 else { c with regs.wz := c.imm16 }
        else c := by
  rcases first with _ | operand
  · rfl
  · cases operand <;> first
      | rfl
      | cases hword

/-- An instruction acts at decode, and then runs the cycles behind its opcode. -/
theorem Embarks.trails {tail : Bool → List MachineCycle} {reads : Nat} (h : k.Embarks)
    (hscans : Scans (config.byteAt bytes) k.regs.pc count page opcode)
    (htrails : (decode page opcode).Trails page tail reads) :
    ∃ (e : Core) (r : Byte) (latches : Latches), e.Stands (decode page opcode) false
        { k.regs with
          pc := k.regs.pc + (count + (decode page opcode).size).toUInt16 - reads.toUInt16, r } latches
      ∧ ∀ {met d regs latches' left}, (e.act (decode page opcode) .decoded).conditionMet = met →
        d.Stands (decode page opcode) met regs latches' →
        (tail met).foldl (does config) ((e.act (decode page opcode) .decoded).fitLength, bytes)
          = (d, left) →
        k.Comes config bytes (List.replicate count ⟨.opcodeFetch, 4⟩
          ++ (decode page opcode).timing.cycles met) regs left := by
  obtain ⟨c, htakes, hcomes⟩ := h.comes hscans htrails.toTails
  have hstands := htakes.stands (decode page opcode) h.awake htrails.undisplaced
  obtain ⟨latches, haddressed⟩ := hstands.addressOperand
  have hbegins := beginExecution_acts hstands
  obtain ⟨r, hregs⟩ := htakes.regs
  have hbehind : k.regs.pc + (count + (decode page opcode).size).toUInt16 - reads.toUInt16
      = k.regs.pc + (count + codeBytes page.approach + 1).toUInt16 := by
    rw [htrails.size, ← Nat.add_assoc, ← Nat.add_assoc, ← add_toUInt16]
    exact UInt16.add_sub_cancel _ _
  refine ⟨(c.takeUp (decode page opcode)).addressOperand (decode page opcode), r, latches, ?_,
    fun {met d regs latches' left} hmet hd hfold => ?_⟩
  · rw [hbehind, ← hregs]
    exact haddressed
  · have hcondition : (c.beginExecution (decode page opcode)).conditionMet = met := by
      rw [hbegins]
      exact hmet
    rw [← hbegins] at hfold
    have hdone := hcomes hd (by rw [hcondition]; exact hfold)
    rw [hcondition] at hdone
    exact hdone

/-- What a jump does, it does as a jump. -/
theorem act_jp (hm : code.mnemonic = .jp) (c : Core) (point : ExecPoint) :
    c.act code point = c.jump point code.operands[0]? := by
  unfold act
  rw [hm]

/-- A jump to a register pair is there when its opcode is complete. -/
theorem Embarks.jumpsToPair {rr : Reg16} (h : k.Embarks)
    (hscans : Scans (config.byteAt bytes) k.regs.pc count page opcode)
    (hm : (decode page opcode).mnemonic = .jp)
    (hpair : (decode page opcode).operands[0]? = some (.indirect rr)) :
    ∃ r, k.Comes config bytes (List.replicate count ⟨.opcodeFetch, 4⟩
        ++ (decode page opcode).timing.cycles false)
      { k.regs with pc := k.regs.reg16 rr, r } bytes := by
  have htrails := (hscans.entitled.jumps hm).2
  rw [hpair, Option.any_some, if_pos (show (Operand.indirect rr).isPair = true from rfl)] at htrails
  obtain ⟨e, r, latches, he, hcomes⟩ := h.trails hscans htrails
  have hdecided : e.act (decode page opcode) .decoded = { e with regs.pc := k.regs.reg16 rr } := by
    have hreg : e.regs.reg16 rr = k.regs.reg16 rr := by
      rw [he.regs]
      cases rr <;> rfl
    rw [act_jp hm, hpair, ← hreg]
    rfl
  have hgone : ({ e with regs.pc := k.regs.reg16 rr } : Core).Stands (decode page opcode) false
      { k.regs with pc := k.regs.reg16 rr, r } latches :=
    he.withRegs fun regs => { regs with pc := k.regs.reg16 rr }
  rw [hdecided] at hcomes
  exact ⟨r, hcomes he.met hgone.fitLength rfl⟩

/-- Any other jump reads its word first, and goes there or on. -/
theorem Embarks.jumpsToWord (h : k.Embarks)
    (hscans : Scans (config.byteAt bytes) k.regs.pc count page opcode)
    (hm : (decode page opcode).mnemonic = .jp)
    (hword : (decode page opcode).operands[0]?.any Operand.isPair = false) :
    let code := decode page opcode
    let next := k.regs.pc + (count + code.size).toUInt16
    ∃ r wz, k.Comes config bytes (List.replicate count ⟨.opcodeFetch, 4⟩ ++ code.timing.cycles false)
      { k.regs with
        pc := if code.taken k.regs then config.wordAt bytes (next - 2) else next, r, wz }
      bytes := by
  intro code next
  have htrails := (hscans.entitled.jumps hm).2
  rw [if_neg (by rw [hword]; decide)] at htrails
  obtain ⟨e, r, latches, he, hcomes⟩ := h.trails hscans htrails
  have hidle (c : Core) {point : ExecPoint} (hpoint : point ≠ .after .operandHigh) :
      c.act code point = c := by
    rw [act_jp hm, jump_of_word hword, if_neg hpoint]
  rw [hidle e (by decide)] at hcomes
  obtain ⟨d, latches', hd, hread, hfold⟩ := he.fitLength.readsWord config bytes 3 3
    fun c => hidle c (by decide)
  have hpc : next - (2 : Nat).toUInt16 + 2 = next := UInt16.sub_add_cancel _ _
  have hthere : d.Stands code false { k.regs with pc := next, r } latches' := by
    rw [← hpc]
    exact hd
  have hdone : d.act code (.after .operandHigh)
      = if code.taken k.regs then d.goTo d.imm16 else { d with regs.wz := d.imm16 } := by
    rw [act_jp hm, jump_of_word hword, if_pos rfl,
      holds_eq k.regs (by rw [hm]; decide) (by rw [hthere.regs])]
  have hwhere : config.wordAt bytes (next - 2) = d.imm16 := hread.symm
  have hgone : (d.act code (.after .operandHigh)).Stands code false
      { k.regs with
        pc := if code.taken k.regs then config.wordAt bytes (next - 2) else next, r
        wz := d.imm16 } latches' := by
    rw [hdone, hwhere]
    cases code.taken k.regs with
    | true => exact hthere.withRegs fun regs => { regs with pc := d.imm16, wz := d.imm16 }
    | false => exact hthere.withRegs fun regs => { regs with wz := d.imm16 }
  exact ⟨r, d.imm16, hcomes he.met hgone hfold⟩

/-- JP goes to its word, or to what is in a register pair. -/
theorem Embarks.jumps (h : k.Embarks)
    (hscans : Scans (config.byteAt bytes) k.regs.pc count page opcode)
    (hm : (decode page opcode).mnemonic = .jp) :
    let code := decode page opcode
    let next := k.regs.pc + (count + code.size).toUInt16
    ∃ r wz, k.Comes config bytes (List.replicate count ⟨.opcodeFetch, 4⟩
        ++ code.timing.cycles (code.taken k.regs))
      { k.regs with
        pc := if code.taken k.regs then code.target config bytes k.regs next else next, r, wz }
      bytes := by
  intro code next
  have hsame (met : Bool) : code.timing.cycles met = code.timing.cycles false := by
    unfold Timings.cycles Timings.select
    rw [(hscans.entitled.jumps hm).1]
  rw [hsame]
  cases hpair : code.operands[0]?.any Operand.isPair with
  | true =>
    obtain ⟨rr, hrr⟩ := Operand.exists_indirect hpair
    have htaken : code.taken k.regs = true := by
      rw [Instruction.taken, if_neg (by rw [hm]; decide), hrr]
    have htarget : code.target config bytes k.regs next = k.regs.reg16 rr := by
      unfold Instruction.target
      rw [hm, hrr]
    obtain ⟨r, hcomes⟩ := h.jumpsToPair hscans hm hrr
    rw [if_pos htaken, htarget]
    exact ⟨r, k.regs.wz, hcomes⟩
  | false =>
    rw [Instruction.target_of_word hm hpair]
    exact h.jumpsToWord hscans hm hpair

/-- Any other transfer decides at decode which cycles it runs.  By then DJNZ has counted B down. -/
theorem Embarks.decides (h : k.Embarks)
    (hscans : Scans (config.byteAt bytes) k.regs.pc count page opcode)
    (hm : (decode page opcode).mnemonic.transfers = true)
    (hother : (decode page opcode).mnemonic ≠ .jp) :
    let code := decode page opcode
    let next := k.regs.pc + (count + code.size).toUInt16
    let taken := code.taken k.regs
    ∃ (e : Core) (r : Byte) (latches : Latches), e.Stands code taken
        { k.regs with
          b := if code.mnemonic = .djnz then k.regs.b - 1 else k.regs.b
          pc := next - code.mnemonic.branchReads.toUInt16, r } latches
      ∧ ∀ {d regs latches' left}, d.Stands code taken regs latches' →
        (code.mnemonic.branch taken).foldl (does config) (e, bytes) = (d, left) →
        k.Comes config bytes
          (List.replicate count ⟨.opcodeFetch, 4⟩ ++ code.timing.cycles taken) regs left := by
  intro code next taken
  obtain ⟨tail, htrails, htail⟩ := hscans.entitled.branches hm hother
  obtain ⟨e, r, latches, he, hcomes⟩ := h.trails hscans htrails
  have hstands : (e.act code .decoded).Stands code taken
      { k.regs with
        b := if code.mnemonic = .djnz then k.regs.b - 1 else k.regs.b
        pc := next - code.mnemonic.branchReads.toUInt16, r } latches := by
    by_cases hcounts : code.mnemonic = .djnz
    · have hdecided : e.act code .decoded
          = { e with regs.b := e.regs.b - 1 }.takeAlternate (e.regs.b - 1 != 0) := by
        unfold act
        rw [hcounts]
        rfl
      have htaken : taken = (e.regs.b - 1 != 0) := by
        rw [he.regs]
        exact if_pos hcounts
      rw [hdecided, htaken, if_pos hcounts]
      exact (he.withRegs fun regs => { regs with b := regs.b - 1 }).takeAlternate _
    · have hdecided : e.act code .decoded = e.takeAlternate taken := by
        have htaken : e.holds code.operands[0]? = taken :=
          holds_eq k.regs hcounts (by rw [he.regs])
        rw [← htaken]
        unfold act
        cases hcase : code.mnemonic
        case jr | call | ret => rfl
        case jp => exact absurd hcase hother
        case djnz => exact absurd hcase hcounts
        all_goals (rw [show (decode page opcode).mnemonic = _ from hcase] at hm; cases hm)
      rw [hdecided, if_neg hcounts]
      exact he.takeAlternate _
  refine ⟨_, r, latches, hstands.fitLength, fun {d regs latches' left} hd hfold => ?_⟩
  refine hcomes hstands.met hd ?_
  rw [htail]
  exact hfold

/-- RET takes its way from the stack. -/
theorem Embarks.returns (h : k.Embarks)
    (hscans : Scans (config.byteAt bytes) k.regs.pc count page opcode)
    (hm : (decode page opcode).mnemonic = .ret) :
    let code := decode page opcode
    let next := k.regs.pc + (count + code.size).toUInt16
    ∃ r wz, k.Comes config bytes (List.replicate count ⟨.opcodeFetch, 4⟩
        ++ code.timing.cycles (code.taken k.regs))
      { k.regs with
        pc := if code.taken k.regs then config.wordAt bytes k.regs.sp else next
        sp := if code.taken k.regs then k.regs.sp + 2 else k.regs.sp, r, wz }
      bytes := by
  intro code next
  obtain ⟨e, r, latches, he, hcomes⟩ := h.decides hscans (by rw [hm]; rfl) (by rw [hm]; decide)
  have hact (c : Core) (point : ExecPoint) :
      c.act code point = c.ret .ret point code.operands[0]? := by
    unfold act
    rw [hm]
  have hpc : next - (Mnemonic.branchReads .ret).toUInt16 = next := UInt16.sub_zero _
  have hstart : e.Stands code (code.taken k.regs) { k.regs with pc := next, r } latches := by
    rw [← hpc]
    rw [hm] at he
    exact he
  rw [hm] at hcomes
  cases htaken : code.taken k.regs with
  | false =>
    rw [htaken] at hcomes hstart
    exact ⟨r, k.regs.wz, hcomes hstart rfl⟩
  | true =>
    rw [htaken] at hcomes hstart
    obtain ⟨d, latches', hd, hword, hfold⟩ := hstart.popsWord config bytes 3 3
      fun c => by rw [hact]; rfl
    have hdone : d.act code (.after .stackReadHigh) = d.goTo d.data16 := by
      rw [hact]
      rfl
    have hwhere : config.wordAt bytes k.regs.sp = d.data16 := hword.symm
    rw [hdone] at hfold
    have hgone : (d.goTo d.data16).Stands code true
        { k.regs with pc := d.data16, sp := k.regs.sp + 2, r, wz := d.data16 } latches' :=
      hd.withRegs fun regs => { regs with pc := d.data16, wz := d.data16 }
    refine ⟨r, d.data16, ?_⟩
    rw [hwhere]
    exact hcomes hgone hfold

/-- Taken or not, a call reads its word, and then has the return address put out. -/
theorem Stands.stagesReturn {met : Bool} {next : Word}
    (h : c.Stands code met { regs with pc := next - 2 } latches) (hm : code.mnemonic = .call)
    (config : BoardConfig) (bytes : Array Byte) (t : Nat) :
    ∃ (d : Core) (latches' : Latches),
      d.Stands code met { regs with pc := next, wz := config.wordAt bytes (next - 2) } latches'
        ∧ (latches'.outHigh = Word.high next ∧ latches'.outLow = Word.low next)
        ∧ [⟨.operandLow, 3⟩, ⟨.operandHigh, t⟩].foldl (Core.does config) (c, bytes) = (d, bytes) := by
  obtain ⟨d, latches', hd, hword, hfold⟩ := h.readsWord config bytes 3 t
    fun c => by rw [c.act_call hm]; rfl
  have hpc : next - 2 + 2 = next := UInt16.sub_add_cancel _ _
  have hthere : d.Stands code met { regs with pc := next } latches' := by
    rw [← hpc]
    exact hd
  have hstaged : d.act code (.after .operandHigh)
      = { d.stage16 next with regs.wz := config.wordAt bytes (next - 2) } := by
    have hwhere : config.wordAt bytes (next - 2) = d.imm16 := hword.symm
    have hnext : next = d.regs.pc := by rw [hthere.regs]
    rw [d.act_call hm, hwhere, hnext]
    rfl
  rw [hstaged] at hfold
  refine ⟨_, { latches' with outLow := Word.low next, outHigh := Word.high next }, ?_, ⟨rfl, rfl⟩,
    hfold⟩
  rw [← hthere.latches]
  exact ⟨hthere.known, hthere.met, hthere.origin, hthere.awake,
    congrArg (fun regs : Registers => { regs with wz := config.wordAt bytes (next - 2) })
      hthere.regs, rfl⟩

/-- CALL goes to its word, with the return address on the stack. -/
theorem Embarks.calls (h : k.Embarks)
    (hscans : Scans (config.byteAt bytes) k.regs.pc count page opcode)
    (hm : (decode page opcode).mnemonic = .call) :
    let code := decode page opcode
    let next := k.regs.pc + (count + code.size).toUInt16
    ∃ r wz, k.Comes config bytes (List.replicate count ⟨.opcodeFetch, 4⟩
        ++ code.timing.cycles (code.taken k.regs))
      { k.regs with
        pc := if code.taken k.regs then config.wordAt bytes (next - 2) else next
        sp := if code.taken k.regs then k.regs.sp - 2 else k.regs.sp, r, wz }
      (if code.taken k.regs then (next.pushes k.regs.sp).foldl config.apply bytes else bytes) := by
  intro code next
  obtain ⟨e, r, latches, he, hcomes⟩ := h.decides hscans (by rw [hm]; rfl) (by rw [hm]; decide)
  let fetched : Registers := { k.regs with r }
  have hstart : e.Stands code (code.taken k.regs) { fetched with pc := next - 2 } latches := by
    rw [hm] at he
    exact he
  rw [hm] at hcomes
  have hreads (t : Nat) := hstart.stagesReturn hm config bytes t
  cases htaken : code.taken k.regs with
  | false =>
    rw [htaken] at hcomes hreads
    obtain ⟨d, latches', hd, -, hfold⟩ := hreads 3
    exact ⟨r, config.wordAt bytes (next - 2), hcomes hd hfold⟩
  | true =>
    rw [htaken] at hcomes hreads
    obtain ⟨d, latches', hd, hstaged, hfold⟩ := hreads 4
    obtain ⟨f, hf, hpushes⟩ := hd.pushesWord config bytes 3 3 hstaged
      fun c => by rw [c.act_call hm]; rfl
    have hdone : f.act code (.after .stackWriteLow) = { f with regs.pc := f.regs.wz } := by
      rw [f.act_call hm]
      rfl
    rw [hdone] at hpushes
    have hgone : ({ f with regs.pc := f.regs.wz } : Core).Stands code true
        { k.regs with
          pc := config.wordAt bytes (next - 2)
          sp := k.regs.sp - 2, r
          wz := config.wordAt bytes (next - 2) } latches' :=
      hf.withRegs fun regs => { regs with pc := regs.wz }
    have hall : (Mnemonic.branch true .call).foldl (does config) (e, bytes)
        = ({ f with regs.pc := f.regs.wz }, (next.pushes k.regs.sp).foldl config.apply bytes) := by
      rw [show Mnemonic.branch true .call = [⟨.operandLow, 3⟩, ⟨.operandHigh, 4⟩]
        ++ [⟨.stackWriteHigh, 3⟩, ⟨.stackWriteLow, 3⟩] from rfl, List.foldl_append, hfold]
      exact hpushes
    exact ⟨r, config.wordAt bytes (next - 2), hcomes hgone hall⟩

/-- JR and DJNZ go to an offset from the address behind them. -/
theorem Embarks.hops (h : k.Embarks)
    (hscans : Scans (config.byteAt bytes) k.regs.pc count page opcode)
    (hm : (decode page opcode).mnemonic = .jr ∨ (decode page opcode).mnemonic = .djnz) :
    let code := decode page opcode
    let next := k.regs.pc + (count + code.size).toUInt16
    ∃ r wz, k.Comes config bytes (List.replicate count ⟨.opcodeFetch, 4⟩
        ++ code.timing.cycles (code.taken k.regs))
      { k.regs with
        b := if code.mnemonic = .djnz then k.regs.b - 1 else k.regs.b
        pc :=
          if code.taken k.regs then next + Word.ofDisplacement (config.byteAt bytes (next - 1))
          else next, r, wz }
      bytes := by
  intro code next
  obtain ⟨e, r, latches, he, hcomes⟩ := h.decides hscans
    (by rcases hm with hm | hm <;> rw [hm] <;> rfl) (by rcases hm with hm | hm <;> rw [hm] <;> decide)
  have hbranch (taken : Bool) : code.mnemonic.branch taken
      = ⟨.operand, 3⟩ :: if taken then [⟨.internal, 5⟩] else [] := by
    rcases hm with hm | hm <;> rw [hm] <;> rfl
  have hlater (c : Core) {point : ExecPoint} (hpoint : point ≠ .decoded) : c.act code point
      = if point = .after .operand ∧ c.conditionMet then
          c.goTo (c.regs.pc + Word.ofDisplacement c.latches.immLow)
        else c := by
    rcases hm with hm | hm <;> unfold act <;> rw [hm] <;> exact if_neg hpoint
  have hindex : code.index? = none := by
    obtain ⟨tail, htrails, -⟩ := hscans.entitled.branches
      (by rcases hm with hm | hm <;> rw [hm] <;> rfl)
      (by rcases hm with hm | hm <;> rw [hm] <;> decide)
    exact htrails.index
  have hone : code.mnemonic.branchReads.toUInt16 = 1 := by
    rcases hm with hm | hm <;> rw [hm] <;> rfl
  rw [hone] at he
  rw [hbranch] at hcomes
  obtain ⟨d, hd, hdoes⟩ := he.does config bytes 3 .operand rfl (by decide) fun _ => hindex
  have hdoes : does config (e, bytes) ⟨.operand, 3⟩ = (d.act code (.after .operand), bytes) := hdoes
  have hpc : next - 1 + 1 = next := UInt16.sub_add_cancel _ _
  have hread : config.byteAt bytes (next - 1) = d.latches.immLow := by
    rw [hd.latches]
    rfl
  have hthere : d.Stands code (code.taken k.regs)
      { k.regs with
        b := if code.mnemonic = .djnz then k.regs.b - 1 else k.regs.b
        pc := next, r } d.latches := by
    rw [hd.latches, ← hpc]
    exact hd
  cases htaken : code.taken k.regs with
  | false =>
    rw [htaken] at hcomes hthere
    have hstays : d.act code (.after .operand) = d := by
      rw [hlater d (by decide), hthere.met]
      rfl
    rw [hstays] at hdoes
    exact ⟨r, k.regs.wz, hcomes hthere hdoes⟩
  | true =>
    rw [htaken] at hcomes hthere
    have hgoes : d.act code (.after .operand)
        = d.goTo (next + Word.ofDisplacement (config.byteAt bytes (next - 1))) := by
      have hnext : d.regs.pc = next := by rw [hthere.regs]
      rw [hlater d (by decide), hthere.met, hread, hnext]
      rfl
    rw [hgoes] at hdoes
    generalize next + Word.ofDisplacement (config.byteAt bytes (next - 1)) = target at hdoes
    have hgone : (d.goTo target).Stands code true
        { k.regs with
          b := if code.mnemonic = .djnz then k.regs.b - 1 else k.regs.b
          pc := target, r, wz := target } d.latches :=
      hthere.withRegs fun regs => { regs with pc := target, wz := target }
    obtain ⟨f, hf, hrests⟩ := hgone.does config bytes 5 .internal rfl (by decide) (by rintro ⟨⟩)
    have hstays : f.act code (.after .internal) = f := hlater f (by decide)
    rw [hstays] at hrests
    refine ⟨r, target, hcomes hf ?_⟩
    rw [List.foldl_cons, hdoes]
    exact hrests

/-- Every transfer goes where it should, if it is taken, and otherwise on. -/
theorem Embarks.transfers (h : k.Embarks)
    (hscans : Scans (config.byteAt bytes) k.regs.pc count page opcode)
    (hm : (decode page opcode).mnemonic.transfers = true) :
    let code := decode page opcode
    let next := k.regs.pc + (count + code.size).toUInt16
    let taken := code.taken k.regs
    ∃ r wz, k.Comes config bytes
      (List.replicate count ⟨.opcodeFetch, 4⟩ ++ code.timing.cycles taken)
      { k.regs with
        b := if code.mnemonic = .djnz then k.regs.b - 1 else k.regs.b
        pc := if taken then code.target config bytes k.regs next else next
        sp := if taken then code.stackMove k.regs.sp else k.regs.sp, r, wz }
      (if taken && code.mnemonic == .call then (next.pushes k.regs.sp).foldl config.apply bytes
        else bytes) := by
  intro code next taken
  have hstays (m : Mnemonic) (hother : m ≠ .call) : (taken && m == .call) = false := by
    rw [beq_eq_false_iff_ne.mpr hother, Bool.and_false]
  unfold Instruction.stackMove
  cases hcase : code.mnemonic
  case jp =>
    rw [ite_self, hstays _ (by decide)]
    exact h.jumps hscans hcase
  case jr =>
    obtain ⟨r, wz, hcomes⟩ := h.hops hscans (Or.inl hcase)
    rw [show (decode page opcode).mnemonic = _ from hcase] at hcomes
    unfold Instruction.target
    rw [hcase, ite_self, hstays _ (by decide)]
    exact ⟨r, wz, hcomes⟩
  case djnz =>
    obtain ⟨r, wz, hcomes⟩ := h.hops hscans (Or.inr hcase)
    rw [show (decode page opcode).mnemonic = _ from hcase] at hcomes
    unfold Instruction.target
    rw [hcase, ite_self, hstays _ (by decide)]
    exact ⟨r, wz, hcomes⟩
  case call =>
    unfold Instruction.target
    rw [hcase, show (taken && Mnemonic.call == .call) = taken from Bool.and_true _]
    exact h.calls hscans hcase
  case ret =>
    unfold Instruction.target
    rw [hcase, hstays _ (by decide)]
    exact h.returns hscans hcase
  all_goals (rw [show (decode page opcode).mnemonic = _ from hcase] at hm; cases hm)

end Core

/-! ## DJNZ to itself -/

/-- DJNZ is two bytes, and counts 13 T-states when it jumps and 8 when it does not. -/
theorem Listing.Entitled.counts {page : Page} {code : Instruction}
    (h : Listing.Entitled Catalog.forms page code) (hm : code.mnemonic = .djnz) :
    code.size = 2 ∧ ∀ met, Timing.sum (code.timing.cycles met) = if met then 13 else 8 := by
  have hcounts : ∀ p ∈ Catalog.forms, p.1 = .djnz →
      p.2.size = 2 ∧ ∀ met, Timing.sum (p.2.timing.cycles met) = if met then 13 else 8 := by
    decide +kernel
  obtain ⟨m, f, hf, -, hcode⟩ := h
  rw [hcode.size, hcode.timing]
  exact hcounts (m, f) hf (hcode.mnemonic.symm.trans hm)

section

variable {config : BoardConfig} {m : Machine} {k : Core} {count : Nat} {page : Page} {opcode : Byte}

namespace Machine

/-- A round of a DJNZ to itself. -/
theorem counts_round (h : Attended config m.board) (hopens : m.board.Opens m.clock.level.flip k)
    (hnmi : k.nmiPending = false)
    (hscans : Scans (config.byteAt m.memory.bytes) k.regs.pc 0 page opcode)
    (hm : (decode page opcode).mnemonic = .djnz)
    (hback : (decode page opcode).target config m.memory.bytes k.regs (k.regs.pc + 2) = k.regs.pc)
    {edges : Nat} (hedges : edges = if k.regs.b - 1 != 0 then 26 else 16) (hcalm : m.Calm edges) :
    ∃ p, m.Finishes config edges p m.memory.bytes ∧ p.halted = false ∧ ∃ r wz, p.regs
      = { k.regs with
          b := k.regs.b - 1
          pc := if k.regs.b - 1 != 0 then k.regs.pc else k.regs.pc + 2, r, wz } := by
  obtain ⟨hsize, hsum⟩ := hscans.entitled.counts hm
  have htaken : (decode page opcode).taken k.regs = (k.regs.b - 1 != 0) := if_pos hm
  obtain ⟨r, wz, hcomes⟩ := (h.embarks hopens).transfers hscans (by rw [hm]; rfl)
  have hnext : k.regs.pc + (0 + (decode page opcode).size).toUInt16 = k.regs.pc + 2 := by
    rw [hsize]
    rfl
  have hstack : (decode page opcode).stackMove k.regs.sp = k.regs.sp := by
    unfold Instruction.stackMove
    rw [hm]
  rw [hnext, hback, htaken, hm, if_pos rfl, hstack, ite_self,
    show (k.regs.b - 1 != 0 && Mnemonic.djnz == .call) = false from Bool.and_false _] at hcomes
  have hspan : 2 * Timing.sum (List.replicate 0 ⟨.opcodeFetch, 4⟩
      ++ (decode page opcode).timing.cycles (k.regs.b - 1 != 0)) = edges := by
    rw [hedges, List.replicate_zero, List.nil_append, hsum]
    split <;> rfl
  obtain ⟨p, hplays, hregs, hawake⟩ := (h.yields hopens hcomes).plays hnmi (hspan ▸ hcalm)
  have hfinishes := hplays.finishes
  rw [hspan] at hfinishes
  exact ⟨p, hfinishes, hawake, r, wz, hregs⟩

/-- It counts B down round by round. -/
theorem counts (h : Attended config m.board) (hopens : m.board.Opens m.clock.level.flip k)
    (hnmi : k.nmiPending = false)
    (hscans : Scans (config.byteAt m.memory.bytes) k.regs.pc 0 page opcode)
    (hm : (decode page opcode).mnemonic = .djnz)
    (hback : (decode page opcode).target config m.memory.bytes k.regs (k.regs.pc + 2) = k.regs.pc)
    (hcount : k.regs.rounds = count + 1) (hcalm : m.Calm (passEdges 26 16 (count + 1))) :
    m.Repeats 26 16 k.regs.pc (count + 1)
      ∧ (∃ r wz, (m.after (passEdges 26 16 (count + 1))).core.regs
        = { k.regs with b := 0, pc := k.regs.pc + 2, r, wz })
      ∧ (m.after (passEdges 26 16 (count + 1))).memory.bytes = m.memory.bytes := by
  induction count generalizing m k with
  | zero =>
    rw [Nat.zero_add, passEdges_one] at hcalm ⊢
    have hlast : k.regs.b - 1 = 0 := Registers.rounds_one.mp hcount
    obtain ⟨p, hdone, -, r, wz, hregs⟩ := counts_round h hopens hnmi hscans hm hback
      (by rw [hlast]; rfl) hcalm
    rw [hlast] at hregs
    exact ⟨hdone.repeats (by decide) (by decide) _, ⟨r, wz, hdone.regs.trans hregs⟩, hdone.bytes⟩
  | succ count ih =>
    have hmore : k.regs.b - 1 ≠ 0 := fun hlast => by
      have hone := Registers.rounds_one.mpr hlast
      omega
    rw [passEdges_succ] at hcalm ⊢
    obtain ⟨p, hdone, hawake, r, wz, hregs⟩ := counts_round h hopens hnmi hscans hm hback
      (by rw [bne_iff_ne.mpr hmore]; rfl) fun i hi => hcalm i (Nat.lt_add_right _ hi)
    rw [if_pos (bne_iff_ne.mpr hmore)] at hregs
    obtain ⟨k', hopens', hregs', -, hnmi', hcalm'⟩ := hdone.opens_again hawake hcalm
      (by rw [passEdges]; omega)
    have hsame : k'.regs = { k.regs with b := k.regs.b - 1, pc := k.regs.pc, r, wz } :=
      hregs'.trans hregs
    have hpc : k'.regs.pc = k.regs.pc := by rw [hsame]
    have hback' : (decode page opcode).target config m.memory.bytes k'.regs (k.regs.pc + 2)
        = k.regs.pc := by
      unfold Instruction.target at hback ⊢
      rw [hm] at hback ⊢
      exact hback
    have hih := ih (h.after 26) hopens' hnmi' (by rw [hdone.bytes, hpc]; exact hscans)
      (by rw [hdone.bytes, hpc]; exact hback')
      (Registers.rounds_step hcount (by rw [hsame])) hcalm'
    rw [hpc] at hih
    obtain ⟨hrepeats, ⟨r', wz', hlater⟩, hbytes⟩ := hih
    rw [after_add]
    refine ⟨hdone.repeats_again (by decide) (by rw [hregs]) hrepeats, ⟨r', wz', ?_⟩,
      hbytes.trans hdone.bytes⟩
    rw [hlater, hsame]

end Machine

/-- Control is transferred if and only if the condition holds in F when the instruction begins, or for
    DJNZ if there is more to count: to the word of the instruction, to what is in the register pair,
    to the offset from the address behind, or to the word on the stack.  The cycles are those of the
    alternate timing then, if there is one, and otherwise those of the primary one.  F stays as it is.
    A DJNZ to itself is completed as often as B counts. -/
theorem Attended.transfers_control (h : Attended config m.board)
    (hopens : m.board.Opens m.clock.level.flip k)
    (hscans : Scans (config.byteAt m.memory.bytes) k.regs.pc count page opcode)
    (hm : (decode page opcode).mnemonic.transfers = true) :
    let code := decode page opcode
    let next := k.regs.pc + (count + code.size).toUInt16
    let taken := code.taken k.regs
    let target := code.target config m.memory.bytes k.regs next
    (∃ r wz, m.Yields config k
        (List.replicate count ⟨.opcodeFetch, 4⟩ ++ code.timing.cycles taken)
        { k.regs with
          b := if code.mnemonic = .djnz then k.regs.b - 1 else k.regs.b
          pc := if taken then target else next
          sp := if taken then code.stackMove k.regs.sp else k.regs.sp, r, wz }
        (if taken && code.mnemonic == .call
          then (next.pushes k.regs.sp).foldl config.apply m.memory.bytes else m.memory.bytes))
      ∧ let rounds := k.regs.rounds
        let edges := 2 * (13 * (rounds - 1) + 8)
        code.mnemonic = .djnz → count = 0 → target = k.regs.pc → k.nmiPending = false →
        m.Calm edges →
          (∀ sofar ≤ edges, (m.after sofar).core.instructionCounter
            = m.core.instructionCounter + if sofar = edges then rounds else sofar / 26)
          ∧ (∀ before, 0 < before → before < rounds →
            (m.after (26 * before)).core.regs.pc = k.regs.pc)
          ∧ (m.after edges).core.halfTStates = m.core.halfTStates + edges
          ∧ (∃ r wz, (m.after edges).core.regs = { k.regs with b := 0, pc := k.regs.pc + 2, r, wz })
          ∧ (m.after edges).memory.bytes = m.memory.bytes := by
  intro code next taken target
  refine ⟨?_, ?_⟩
  · obtain ⟨r, wz, hcomes⟩ := (h.embarks hopens).transfers hscans hm
    exact ⟨r, wz, h.yields hopens hcomes⟩
  · intro rounds edges hdjnz hnone hback hnmi hcalm
    subst hnone
    obtain ⟨more, hmore⟩ : ∃ more, k.regs.rounds = more + 1 :=
      Nat.exists_eq_succ_of_ne_zero (Nat.ne_of_gt k.regs.rounds_pos)
    have hnext : next = k.regs.pc + 2 := by
      show k.regs.pc + (0 + (decode page opcode).size).toUInt16 = _
      rw [(hscans.entitled.counts hdjnz).1]
      rfl
    have hedges : edges = Machine.passEdges 26 16 rounds := by
      show 2 * (13 * (k.regs.rounds - 1) + 8) = _
      rw [Machine.passEdges]
      omega
    rw [hedges] at hcalm ⊢
    have hback' : code.target config m.memory.bytes k.regs (k.regs.pc + 2) = k.regs.pc := by
      rw [← hnext]
      exact hback
    obtain ⟨⟨hcompleted, hstays⟩, hregs, hbytes⟩ := Machine.counts h hopens hnmi hscans hdjnz hback'
      hmore (hmore ▸ hcalm)
    rw [← hmore] at hcompleted hstays hregs hbytes
    exact ⟨hcompleted, hstays, m.halfTStates_after _, hregs, hbytes⟩

/-- A machine whose first instruction is a DJNZ to itself, with three in B. -/
def countMachine : Machine :=
  smallMachine.onBoard (smallMachine.board.set {} {} (fun regs => { regs with b := 3, pc := 0 })
    (([0x10, 0xFE] : List Byte) ++ List.replicate 0x3FE 0).toArray)

/-- The chip that runs its first half-period. -/
def countChip : Core :=
  { countMachine.core.sampleInputs countMachine.board.inputs with phase := .running }.resolveNext

/-- It jumps the first time, and is completed three times in 34 T-states. -/
theorem counts_three :
    countMachine.board.Opens countMachine.clock.level.flip countChip ∧ countMachine.Calm 68
      ∧ (∃ r wz, countMachine.Yields smallConfig countChip
        [⟨.opcodeFetch, 5⟩, ⟨.operand, 3⟩, ⟨.internal, 5⟩]
        { countChip.regs with b := 2, pc := 0, r, wz } countMachine.memory.bytes)
      ∧ (countMachine.after 68).core.instructionCounter = countMachine.core.instructionCounter + 3
      ∧ ∃ r wz, (countMachine.after 68).core.regs
        = { countChip.regs with b := 0, pc := countChip.regs.pc + 2, r, wz } := by
  have hbuilt : Machine.build smallConfig .unattached = .ok smallMachine := rfl
  have hstart : Attended smallConfig smallMachine.board := .start hbuilt (by decide +kernel)
  have hattended : Attended smallConfig countMachine.board := hstart.set _ _ _ _ (by decide +kernel)
  have hopens : countMachine.board.Opens countMachine.clock.level.flip countChip := by
    refine ⟨rfl, ?_, ?_, ?_, ?_⟩ <;> decide +kernel
  have hstill : countMachine.Still := ⟨rfl, rfl, rfl, rfl⟩
  have hopcode : smallConfig.byteAt countMachine.memory.bytes countChip.regs.pc = 0x10 := by
    decide +kernel
  have hscans : Scans (smallConfig.byteAt countMachine.memory.bytes) countChip.regs.pc 0 .main
      0x10 := by
    rw [← hopcode]
    exact .main (by rw [hopcode]; decide)
  have hcode : (decode .main 0x10).mnemonic = .djnz ∧ (decode .main 0x10).size = 2
      ∧ (decode .main 0x10).timing = Catalog.countAndJump := by
    decide +kernel
  have hregs : countChip.regs.b = 3 ∧ countChip.regs.pc = 0 := by decide +kernel
  have htarget : (decode .main 0x10).target smallConfig countMachine.memory.bytes countChip.regs
      (countChip.regs.pc + (0 + 2 : Nat).toUInt16) = countChip.regs.pc := by
    decide +kernel
  obtain ⟨⟨r, wz, hyields⟩, hcounts⟩ := hattended.transfers_control hopens hscans
    (by rw [hcode.1]; rfl)
  have htaken : (decode .main 0x10).taken countChip.regs = true := by
    rw [Instruction.taken, if_pos hcode.1, hregs.1]
    rfl
  have hrounds : countChip.regs.rounds = 3 := by
    rw [Registers.rounds, hregs.1]
    rfl
  have hstack : (decode .main 0x10).stackMove countChip.regs.sp = countChip.regs.sp := by
    unfold Instruction.stackMove
    rw [hcode.1]
  have htotal : 2 * (13 * (3 - 1) + 8) = 68 := rfl
  rw [hcode.2.1] at hyields hcounts
  rw [htarget, htaken, hcode.1, hcode.2.2, hstack, ite_self, if_pos rfl, if_pos rfl, hregs.1, hregs.2]
    at hyields
  rw [hrounds] at hcounts
  dsimp only at hcounts
  rw [htotal] at hcounts
  obtain ⟨hcompleted, -, -, hlast, -⟩ := hcounts hcode.1 rfl htarget (by decide +kernel)
    (hstill.calm _)
  refine ⟨hopens, hstill.calm _, ⟨r, wz, hyields⟩, ?_, hlast⟩
  rw [hcompleted 68 (Nat.le_refl _)]
  rfl

end

end Z80Board
