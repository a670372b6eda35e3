import Z80Board.Proofs.Rig.Resumption
import Z80Board.Proofs.Rig.Senders

/-! # The stack

    What pushes a word puts it below SP, its high byte first, and moves SP down by two: PUSH, a call, a
    restart, and the entry of an interrupt.  POP and a return take the word at SP and move SP up again.
    So the words come back in the reverse order, as long as nothing else is written where they are. -/

namespace Z80Board

/-! ## Instructions that use the stack -/

/-- The pairs that PUSH and POP move. -/
def Reg16.isStacked : Reg16 → Bool
  | .bc | .de | .hl | .af | .ix | .iy => true
  | _ => false

/-- A pair that is written holds what is written. -/
theorem Registers.reg16_setReg16 (regs : Registers) (w : Word) (rr : Reg16) :
    (regs.setReg16 w rr).reg16 rr = w := by
  cases rr <;> first
    | exact Word.ofBytes_halves w
    | rfl

namespace Listing.Entitled

variable {page : Page} {code : Instruction}

/-- PUSH pushes as soon as its opcode is complete, and POP pops. -/
theorem pairs (h : Listing.Entitled Catalog.forms page code)
    (hm : code.mnemonic = .push ∨ code.mnemonic = .pop) :
    code.Trails page (fun _ => if code.mnemonic = .push
        then [⟨.stackWriteHigh, 3⟩, ⟨.stackWriteLow, 3⟩]
        else [⟨.stackReadLow, 3⟩, ⟨.stackReadHigh, 3⟩]) 0
      ∧ ∃ rr : Reg16, rr.isStacked = true ∧ code.operands = [.reg16 rr] := by
  have hpairs : ∀ p ∈ Catalog.forms, p.1 = .push ∨ p.1 = .pop → ∀ page, p.2.page = some page →
      ∀ e ∈ p.2.encodings,
        p.2.Trails page e.2 (fun _ => if p.1 = .push
          then [⟨.stackWriteHigh, 3⟩, ⟨.stackWriteLow, 3⟩]
          else [⟨.stackReadLow, 3⟩, ⟨.stackReadHigh, 3⟩]) 0
        ∧ ∃ rr ∈ [Reg16.bc, .de, .hl, .af, .ix, .iy], rr.isStacked = true ∧ e.2 = [.reg16 rr] := by
    decide +kernel
  obtain ⟨m, f, hf, hpage, hcode⟩ := h
  obtain ⟨opcode, hmem⟩ := hcode.operands
  rw [hcode.mnemonic] at hm ⊢
  obtain ⟨htrails, rr, -, hstacked, hoperands⟩ := hpairs (m, f) hf hm page hpage _ hmem
  have honce : m.repeats = false := by rcases hm with rfl | rfl <;> rfl
  refine ⟨hcode.trails hf hpage honce (fun _ => ?_) htrails, rr, hstacked, hoperands⟩
  rcases hm with rfl | rfl <;> decide

/-- RST pushes as soon as its opcode is complete. -/
theorem restarts (h : Listing.Entitled Catalog.forms page code) (hm : code.mnemonic = .rst) :
    code.Trails page (fun _ => [⟨.stackWriteHigh, 3⟩, ⟨.stackWriteLow, 3⟩]) 0
      ∧ ∃ target, code.operands = [.restart target] := by
  have hrestarts : ∀ p ∈ Catalog.forms, p.1 = .rst → ∀ page, p.2.page = some page →
      ∀ e ∈ p.2.encodings,
        p.2.Trails page e.2 (fun _ => [⟨.stackWriteHigh, 3⟩, ⟨.stackWriteLow, 3⟩]) 0
        ∧ ∃ target ∈ Catalog.restarts, e.2 = [target] := by
    decide +kernel
  obtain ⟨m, f, hf, hpage, hcode⟩ := h
  obtain ⟨opcode, hmem⟩ := hcode.operands
  have hrst : m = .rst := hcode.mnemonic.symm.trans hm
  obtain ⟨htrails, operand, hnamed, hoperands⟩ := hrestarts (m, f) hf hrst page hpage _ hmem
  obtain ⟨target, -, rfl⟩ := List.mem_map.mp hnamed
  exact ⟨hcode.trails hf hpage (by rw [hrst]; rfl) (fun _ => by decide) htrails, target, hoperands⟩

/-- EX with the top of the stack pops before it pushes. -/
theorem exchanges (h : Listing.Entitled Catalog.forms page code) (hm : code.mnemonic = .ex)
    (hfirst : code.operands[0]? = some (.indirect .sp)) :
    code.Trails page (fun _ => [⟨.stackReadLow, 3⟩, ⟨.stackReadHigh, 4⟩, ⟨.stackWriteHigh, 3⟩,
        ⟨.stackWriteLow, 5⟩]) 0
      ∧ ∃ rr : Reg16, rr.isStacked = true ∧ code.operands = [.indirect .sp, .reg16 rr] := by
  have hexchanges : ∀ p ∈ Catalog.forms, p.1 = .ex → ∀ page, p.2.page = some page →
      ∀ e ∈ p.2.encodings, e.2[0]? = some (.indirect .sp) →
        p.2.Trails page e.2 (fun _ => [⟨.stackReadLow, 3⟩, ⟨.stackReadHigh, 4⟩,
          ⟨.stackWriteHigh, 3⟩, ⟨.stackWriteLow, 5⟩]) 0
        ∧ ∃ rr ∈ [Reg16.hl, .ix, .iy], e.2 = [.indirect .sp, .reg16 rr] := by
    decide +kernel
  obtain ⟨m, f, hf, hpage, hcode⟩ := h
  obtain ⟨opcode, hmem⟩ := hcode.operands
  have hex : m = .ex := hcode.mnemonic.symm.trans hm
  obtain ⟨htrails, rr, hnamed, hoperands⟩ := hexchanges (m, f) hf hex page hpage _ hmem hfirst
  have hstacked : rr.isStacked = true := by
    simp only [List.mem_cons, List.not_mem_nil, or_false] at hnamed
    rcases hnamed with rfl | rfl | rfl <;> rfl
  exact ⟨hcode.trails hf hpage (by rw [hex]; rfl) (fun _ => by decide) htrails, rr, hstacked,
    hoperands⟩

end Listing.Entitled

namespace Core

variable {config : BoardConfig} {c k : Core} {code : Instruction} {bytes : Array Byte} {count : Nat}
  {page : Page} {opcode : Byte} {met : Bool} {regs : Registers} {latches : Latches} {rr : Reg16}

/-- A word is put out to be pushed. -/
theorem Stands.stages (h : c.Stands code met regs latches) (w : Word) :
    (c.stage16 w).Stands code met regs
      { latches with outLow := Word.low w, outHigh := Word.high w } := by
  obtain ⟨known, met, origin, awake, rfl, rfl⟩ := h
  exact ⟨known, met, origin, awake, rfl, rfl⟩

/-- PUSH puts its pair on the stack. -/
theorem Embarks.pushes (h : k.Embarks)
    (hscans : Scans (config.byteAt bytes) k.regs.pc count page opcode)
    (hm : (decode page opcode).mnemonic = .push)
    (hoperands : (decode page opcode).operands = [.reg16 rr]) :
    let code := decode page opcode
    ∃ r, k.Comes config bytes
      (List.replicate count ⟨.opcodeFetch, 4⟩ ++ code.timing.cycles false)
      { k.regs with pc := k.regs.pc + (count + code.size).toUInt16, sp := k.regs.sp - 2, r }
      (((k.regs.reg16 rr).pushes k.regs.sp).foldl config.apply bytes) := by
  intro code
  obtain ⟨htrails, -⟩ := hscans.entitled.pairs (Or.inl hm)
  rw [hm] at htrails
  obtain ⟨e, r, latches, he, hcomes⟩ := h.trails hscans htrails
  have hact (c : Core) (point : ExecPoint) :
      c.act code point = if point = .decoded then c.stage16 (c.regs.reg16 rr) else c := by
    unfold act
    rw [hm, hoperands]
    rfl
  have hpair : e.regs.reg16 rr = k.regs.reg16 rr := by
    rw [he.regs]
    cases rr <;> rfl
  have hdecided : e.act code .decoded = e.stage16 (k.regs.reg16 rr) := by
    rw [hact, if_pos rfl, hpair]
  have hpc (w : Word) : w - (0 : Nat).toUInt16 = w := UInt16.sub_zero w
  rw [hpc] at he
  obtain ⟨d, hd, hfold⟩ := (he.stages (k.regs.reg16 rr)).fitLength.pushesWord config bytes 3 3
    ⟨rfl, rfl⟩ fun c => by rw [hact, if_neg (by decide)]
  rw [hact, if_neg (by decide)] at hfold
  refine ⟨r, hcomes ?_ hd ?_⟩
  · rw [hdecided]
    exact he.met
  · rw [hdecided]
    exact hfold

/-- RST puts PC on the stack and goes to its target. -/
theorem Embarks.restarts (h : k.Embarks)
    (hscans : Scans (config.byteAt bytes) k.regs.pc count page opcode)
    (hm : (decode page opcode).mnemonic = .rst) :
    let code := decode page opcode
    let next := k.regs.pc + (count + code.size).toUInt16
    ∃ r target, code.operands = [.restart target] ∧ k.Comes config bytes
      (List.replicate count ⟨.opcodeFetch, 4⟩ ++ code.timing.cycles false)
      { k.regs with
        pc := target.toUInt16, sp := k.regs.sp - 2, r, wz := target.toUInt16 }
      ((next.pushes k.regs.sp).foldl config.apply bytes) := by
  intro code next
  obtain ⟨htrails, target, hoperands⟩ := hscans.entitled.restarts hm
  obtain ⟨e, r, latches, he, hcomes⟩ := h.trails hscans htrails
  have hact (c : Core) (point : ExecPoint) : c.act code point
      = if point = .decoded then c.stage16 c.regs.pc
        else if point = .after .stackWriteLow then c.goTo target.toUInt16 else c := by
    unfold act
    rw [hm, hoperands]
    rfl
  have hpc (w : Word) : w - (0 : Nat).toUInt16 = w := UInt16.sub_zero w
  rw [hpc] at he
  have hdecided : e.act code .decoded = e.stage16 next := by
    rw [hact, if_pos rfl, he.regs]
  obtain ⟨d, hd, hfold⟩ := (he.stages next).fitLength.pushesWord config bytes 3 3 ⟨rfl, rfl⟩
    fun c => by rw [hact, if_neg (by decide), if_neg (by decide)]
  rw [hact, if_neg (by decide), if_pos rfl] at hfold
  refine ⟨r, target, hoperands, hcomes ?_ (hd.withRegs fun regs =>
    { regs with pc := target.toUInt16, wz := target.toUInt16 }) ?_⟩
  · rw [hdecided]
    exact he.met
  · rw [hdecided]
    exact hfold

/-- POP takes its pair from the stack. -/
theorem Embarks.pops (h : k.Embarks)
    (hscans : Scans (config.byteAt bytes) k.regs.pc count page opcode)
    (hm : (decode page opcode).mnemonic = .pop)
    (hoperands : (decode page opcode).operands = [.reg16 rr]) :
    let code := decode page opcode
    ∃ r, k.Comes config bytes
      (List.replicate count ⟨.opcodeFetch, 4⟩ ++ code.timing.cycles false)
      (({ k.regs with pc := k.regs.pc + (count + code.size).toUInt16, sp := k.regs.sp + 2, r }
        : Registers).setReg16 (config.wordAt bytes k.regs.sp) rr) bytes := by
  intro code
  obtain ⟨htrails, -⟩ := hscans.entitled.pairs (Or.inr hm)
  rw [hm] at htrails
  obtain ⟨e, r, latches, he, hcomes⟩ := h.trails hscans htrails
  have hact (c : Core) (point : ExecPoint) : c.act code point
      = if point = .after .stackReadHigh then c.modifyRegs (·.setReg16 c.data16 rr) else c := by
    unfold act
    rw [hm, hoperands]
    rfl
  have hpc (w : Word) : w - (0 : Nat).toUInt16 = w := UInt16.sub_zero w
  rw [hpc] at he
  have hdecided : e.act code .decoded = e := by rw [hact, if_neg (by decide)]
  obtain ⟨d, latches', hd, hword, hfold⟩ := he.fitLength.popsWord config bytes 3 3
    fun c => by rw [hact, if_neg (by decide)]
  rw [hact, if_pos rfl] at hfold
  have hwhere : config.wordAt bytes k.regs.sp = d.data16 := hword.symm
  refine ⟨r, ?_⟩
  rw [hwhere]
  refine hcomes ?_ (hd.withRegs fun regs => regs.setReg16 d.data16 rr) ?_
  · rw [hdecided]
    exact he.met
  · rw [hdecided]
    exact hfold

/-- EX with the top of the stack swaps the pair with the word at SP. -/
theorem Embarks.exchanges (h : k.Embarks)
    (hscans : Scans (config.byteAt bytes) k.regs.pc count page opcode)
    (hm : (decode page opcode).mnemonic = .ex)
    (hoperands : (decode page opcode).operands = [.indirect .sp, .reg16 rr]) :
    let code := decode page opcode
    let word := config.wordAt bytes k.regs.sp
    ∃ r, k.Comes config bytes
      (List.replicate count ⟨.opcodeFetch, 4⟩ ++ code.timing.cycles false)
      { ({ k.regs with pc := k.regs.pc + (count + code.size).toUInt16, r } : Registers).setReg16
          word rr with
        wz := word }
      (((k.regs.reg16 rr).pushes (k.regs.sp + 2)).foldl config.apply bytes) := by
  intro code word
  obtain ⟨htrails, rr', hstacked, hnamed⟩ := hscans.entitled.exchanges hm (by rw [hoperands]; rfl)
  obtain rfl : rr = rr' := by
    rw [hoperands] at hnamed
    injection hnamed with _ htail
    injection htail with hpair
    injection hpair
  obtain ⟨e, r, latches, he, hcomes⟩ := h.trails hscans htrails
  have hact (c : Core) (point : ExecPoint) : c.act code point
      = if point = .after .stackReadHigh then c.stage16 (c.regs.reg16 rr)
        else if point = .after .stackWriteLow then
          { c with regs := { c.regs.setReg16 c.data16 rr with wz := c.data16 } }
        else c := by
    unfold act
    rw [hm, hoperands]
    rfl
  have hpc (w : Word) : w - (0 : Nat).toUInt16 = w := UInt16.sub_zero w
  rw [hpc] at he
  have hdecided : e.act code .decoded = e := by
    rw [hact, if_neg (by decide), if_neg (by decide)]
  -- what follows is the same whatever the other registers are
  obtain ⟨regs, hregs⟩ : ∃ regs : Registers,
      regs = { k.regs with pc := k.regs.pc + (count + code.size).toUInt16, r } := ⟨_, rfl⟩
  have hsp : k.regs.sp = regs.sp := by rw [hregs]
  have hpair : k.regs.reg16 rr = regs.reg16 rr := by
    rw [hregs]
    cases rr <;> rfl
  have hword : word = config.wordAt bytes regs.sp := by rw [← hsp]
  clear_value word
  refine ⟨r, ?_⟩
  rw [← hregs] at he ⊢
  rw [hsp, hpair]
  obtain ⟨d, latches', hd, hread, hpops⟩ := he.fitLength.popsWord config bytes 3 4
    fun c => by rw [hact, if_neg (by decide), if_neg (by decide)]
  have hout : d.regs.reg16 rr = regs.reg16 rr := by
    rw [hd.regs]
    cases rr <;> first
      | rfl
      | cases hstacked
  rw [hact, if_pos rfl, hout] at hpops
  obtain ⟨f, hf, hpushes⟩ := (hd.stages (regs.reg16 rr)).pushesWord config bytes 3 5 ⟨rfl, rfl⟩
    fun c => by rw [hact, if_neg (by decide), if_neg (by decide)]
  rw [hact, if_neg (by decide), if_pos rfl] at hpushes
  have hkept : f.data16 = word := by
    rw [hword, ← hread, data16, data16, hf.latches, hd.latches]
  have hback : regs.sp + 2 - 2 = regs.sp := UInt16.add_sub_cancel _ _
  rw [hkept] at hpushes
  rw [hback] at hf
  refine hcomes ?_ (hf.withRegs fun regs => { regs.setReg16 word rr with wz := word }) ?_
  · rw [hdecided]
    exact he.met
  · rw [hdecided]
    show ([⟨.stackReadLow, 3⟩, ⟨.stackReadHigh, 4⟩] ++ [⟨.stackWriteHigh, 3⟩, ⟨.stackWriteLow, 5⟩]
      : List MachineCycle).foldl (does config) (e.fitLength, bytes) = _
    rw [List.foldl_append, hpops]
    exact hpushes

end Core

/-! ## The entry of an interrupt -/

namespace Visit

variable {v : Visit} {c e : Core} {elsewhere : Byte → Prop} {now left : Array Byte}
  {byte vector : Byte} {position : Nat}

/-- With PC on the stack, the operation is about to read half of the address of the handler. -/
structure Reads (v : Visit) (position : Nat) (c : Core) (now : Array Byte) : Prop where
  known : c.instruction = some (decoder.internal .intMode2)
  cycles : c.cycles = InternalOp.intMode2.cycles
  place : c.position = position
  kind : c.cycle.kind = if position = 3 then .memoryReadLow else .memoryReadHigh
  pattern : c.cycle.pattern = .read
  sp : c.regs.sp = v.regs.sp - 2
  bytes : now = v.stacked

/-- The vector does not matter until then. -/
theorem Enters.of_vector (h : v.Enters 0 c now) (vector : Byte) :
    ({ v with vector } : Visit).Enters 0 c now :=
  ⟨h.known, h.cycles, h.place, h.origin, h.chain, h.here, h.pattern, h.memory, h.awake, h.regs,
    fun hlater => absurd hlater (Nat.lt_irrefl 0), fun hlater => (by cases hlater), h.bytes⟩

theorem Enters.reads (h : ({ v with vector } : Visit).Enters 3 c now) (hmode : v.op = .intMode2) :
    v.Reads 3 c now := by
  have hkind : c.cycle.kind = .memoryReadLow := kind_of_here h (by dsimp only; rw [hmode]; rfl)
  have hknown := h.known
  have hcycles := h.cycles
  dsimp only at hknown hcycles
  rw [hmode] at hknown hcycles
  refine ⟨hknown, hcycles, h.place, hkind, ?_, ?_, h.bytes⟩
  · rw [h.pattern, hkind]
    rfl
  · rw [h.regs]
    rfl

/-- What is read goes to PC at most. -/
theorem Reads.cycle (h : v.Reads position c now) (hposition : position = 3 ∨ position = 4)
    (byte : Byte) :
    (position = 3 ∧ (c.closed byte).2 = false
        ∧ v.Reads 4 (c.closed byte).1 (c.leftBytes v.config now))
      ∨ (position = 4 ∧ (c.closed byte).2 = true ∧ (c.closed byte).1.complete.regs.sp = v.regs.sp - 2
        ∧ c.leftBytes v.config now = v.stacked) := by
  obtain ⟨-, -, -, hindex, -⟩ := internal_enters (show InternalOp.intMode2 ≠ .haltNop by decide)
  have hkinds : c.cycle.kind = .memoryReadLow ∨ c.cycle.kind = .memoryReadHigh := by
    rw [h.kind]
    split
    · exact Or.inl rfl
    · exact Or.inr rfl
  have hmoved : c.movePointer = c := by
    rw [Core.movePointer]
    rcases hkinds with hkind | hkind <;> rw [hkind]
  have hfetch : c.cycle.kind ≠ .opcodeFetch := by
    rcases hkinds with hkind | hkind <;> rw [hkind] <;> decide
  have hacted := Core.acted_of_read byte h.known hindex h.pattern hfetch
  rw [hmoved, Core.act_interrupt (isInterrupt (by decide))] at hacted
  have hwrite : c.cycle.pattern ≠ .write := by rw [h.pattern]; decide
  have hleft : c.leftBytes v.config now = v.stacked := by
    rw [Core.leftBytes, Core.stores_of_reads hwrite]
    exact h.bytes
  have hworks : c.Works (c.acted byte) ∧ (c.acted byte).regs.sp = v.regs.sp - 2 := by
    rw [← h.sp, hacted, Core.stow_eq]
    rcases hkinds with hkind | hkind <;> rw [hkind] <;> exact ⟨.of_eq rfl, rfl⟩
  obtain ⟨hworks, hsp⟩ := hworks
  obtain ⟨hknown, hcycles, hplace, -⟩ := hworks.kept
  rw [hworks.closed h.known, h.cycles, h.place]
  rcases hposition with rfl | rfl
  · exact Or.inl ⟨rfl, rfl, hknown.trans h.known, hcycles.trans h.cycles,
      congrArg (· + 1) (hplace.trans h.place), rfl, rfl, hsp, hleft⟩
  · exact Or.inr ⟨rfl, rfl, hsp, hleft⟩

/-- The chip is amid the operation, whatever the vector is. -/
inductive Amid (v : Visit) (c : Core) (now : Array Byte) : Prop where
  | accepts (enters : v.Enters 0 c now)
  | pushes {vector : Byte} {position : Nat} (enters : ({ v with vector } : Visit).Enters position c now)
    (early : position = 1 ∨ position = 2)
  | reads {position : Nat} (reads : v.Reads position c now) (late : position = 3 ∨ position = 4)

/-- PC is on the stack. -/
structure Pushed (v : Visit) (c : Core) (now : Array Byte) : Prop where
  sp : c.regs.sp = v.regs.sp - 2
  bytes : now = v.stacked

/-- Every cycle goes on with the operation, or PC is on the stack. -/
theorem Amid.cycle (h : v.Amid c now) (hop : v.op ≠ .haltNop)
    (htakes : c.Takes v.config elsewhere now byte) :
    ((c.closed byte).2 = false ∧ v.Amid (c.closed byte).1 (c.leftBytes v.config now))
      ∨ ((c.closed byte).2 = true
        ∧ v.Pushed (c.closed byte).1.complete (c.leftBytes v.config now)) := by
  cases h with
  | accepts henters =>
    obtain ⟨hgoes, hnext⟩ := (henters.of_vector byte).fetch hop ⟨htakes.memory, fun _ _ => rfl⟩
    exact Or.inl ⟨hgoes, .pushes hnext (Or.inl rfl)⟩
  | @pushes vector _ henters early =>
    rcases early with rfl | rfl
    · obtain ⟨hgoes, hnext⟩ : (c.closed byte).2 = false ∧ _ := henters.push hop
      exact Or.inl ⟨hgoes, .pushes hnext (Or.inr rfl)⟩
    · have hlow : (_ ∧ (c.closed byte).2 = false ∧ _) ∨ _ := henters.pushLow hop
      rcases hlow with ⟨hmode, hgoes, hnext⟩ | ⟨hends, hentered⟩
      · exact Or.inl ⟨hgoes, .reads (Enters.reads hnext hmode) (Or.inl rfl)⟩
      · obtain ⟨-, ⟨r, hregs⟩, hbytes⟩ := hentered
        refine Or.inr ⟨hends, ?_, hbytes⟩
        rw [hregs]
        rfl
  | reads hreads late =>
    rcases hreads.cycle late byte with ⟨-, hgoes, hnext⟩ | ⟨-, hends, hsp, hbytes⟩
    · exact Or.inl ⟨hgoes, .reads hnext (Or.inr rfl)⟩
    · exact Or.inr ⟨hends, hsp, hbytes⟩

/-- An interrupt that has been accepted comes to PC on the stack.  By induction on the cycles. -/
theorem Enters.stacks (h : v.Enters 0 c v.bytes) (hop : v.op ≠ .haltNop)
    (hperforms : c.Performs v.config elsewhere v.bytes e left) : v.Pushed e left := by
  have hamid {d : Core} {now : Array Byte}
      (hadvances : c.Advances v.config elsewhere v.bytes d now) : v.Amid d now := by
    induction hadvances with
    | start => exact .accepts h
    | cycle _ takes goes ih =>
      rcases ih.cycle hop takes with ⟨-, hnext⟩ | ⟨hends, -⟩
      · exact hnext
      · cases goes.symm.trans hends
  cases hperforms with
  | ends hadvances takes ends =>
    rcases (hamid hadvances).cycle hop takes with ⟨hgoes, -⟩ | ⟨-, hpushed⟩
    · cases hgoes.symm.trans ends
    · exact hpushed

end Visit

/-! ## What is pushed and popped -/

namespace Core

variable {config : BoardConfig} {elsewhere : Byte → Prop} {k e p : Core} {cycles : List MachineCycle}
  {regs : Registers} {bytes left left' : Array Byte} {count : Nat} {page : Page} {opcode : Byte}
  {w : Word} {got : Registers → Word} {rr : Reg16}
  {completed : Option Instruction}

/-- A chip that chooses an instruction from memory embarks on it with its registers. -/
theorem embarks_resolveNext (h : p.resolveNext.fromMemory = true) :
    p.resolveNext.Embarks ∧ p.resolveNext.regs = p.regs := by
  obtain ⟨pc, horigin⟩ : ∃ pc, p.resolveNext.origin = .memory pc := by
    rw [fromMemory] at h
    cases hcase : p.resolveNext.origin with
    | memory pc => exact ⟨pc, rfl⟩
    | none | device | internal => rw [hcase] at h; cases h
  obtain ⟨hregs, hnone⟩ := p.resolveNext_masks
  have hstand := p.stand_resolveNext
  rw [horigin] at hregs hnone hstand
  simp only [stand, Prod.mk.injEq] at hstand
  obtain ⟨-, -, hpage, hchain, -, hplace, hfresh⟩ := hstand
  obtain ⟨hposed, hkind⟩ := p.cycle_resolveNext
  have hcurrent := p.course_resolveNext.1.current
  rw [plan, hnone, hplace, hpage] at hcurrent
  have hlength : (4 : Nat) = p.resolveNext.cycle.length :=
    (MachineCycle.mk.inj (Option.some.inj hcurrent)).2
  refine ⟨⟨⟨hnone, hpage, hchain, hplace, h, hkind, ?_, ?_, hlength.symm⟩, hfresh,
    p.awake_resolveNext hnone⟩, hregs⟩
  · rw [hposed.pattern, hkind, busPattern_first hchain hplace, (origin_of_fromMemory h).1]
    rfl
  · rw [hposed.fromDevice, horigin]
    rfl

/-- Whatever else could be read, an instruction performs what it comes to. -/
theorem Comes.performs (h : k.Comes config bytes cycles regs left)
    (hperforms : k.Performs config elsewhere bytes e left') : e.regs = regs ∧ left' = left := by
  obtain ⟨p, hspells, rfl, -⟩ := h
  obtain ⟨rfl, rfl⟩ := hspells.performs hperforms
  exact ⟨rfl, rfl⟩

/-- The chip chooses an instruction from memory, and it is this one. -/
structure Picks (config : BoardConfig) (bytes : Array Byte) (p : Core) (count : Nat) (page : Page)
    (opcode : Byte) : Prop where
  memory : p.resolveNext.fromMemory = true
  scans : Scans (config.byteAt bytes) p.regs.pc count page opcode

/-- What the chip chooses pushes this word: PUSH a pair, a call that is taken or a restart the address
    behind it, and an interrupt PC.  In mode 0 that depends on what the device sends, which is known
    when it is complete. -/
inductive Pushes (config : BoardConfig) (bytes : Array Byte) (p : Core)
    (completed : Option Instruction) : Word → Prop where
  | pair {count : Nat} {page : Page} {opcode : Byte} {rr : Reg16}
    (picks : p.Picks config bytes count page opcode) (push : (decode page opcode).mnemonic = .push)
    (operands : (decode page opcode).operands = [.reg16 rr]) :
    Pushes config bytes p completed (p.regs.reg16 rr)
  | call {count : Nat} {page : Page} {opcode : Byte} (picks : p.Picks config bytes count page opcode)
    (call : (decode page opcode).mnemonic = .call)
    (taken : (decode page opcode).taken p.regs = true) :
    Pushes config bytes p completed (p.regs.pc + (count + (decode page opcode).size).toUInt16)
  | restart {count : Nat} {page : Page} {opcode : Byte}
    (picks : p.Picks config bytes count page opcode) (rst : (decode page opcode).mnemonic = .rst) :
    Pushes config bytes p completed (p.regs.pc + (count + (decode page opcode).size).toUInt16)
  | interrupt {op : InternalOp} (origin : p.resolveNext.origin = .internal op)
    (interrupts : op ≠ .haltNop) : Pushes config bytes p completed p.regs.pc
  | device {code : Instruction} (origin : p.resolveNext.origin = .device)
    (known : completed = some code)
    (leaves : code.mnemonic = .rst ∨ code.mnemonic = .call ∧ code.taken p.regs = true) :
    Pushes config bytes p completed p.regs.pc

/-- What the chip chooses pops a word, which goes to a pair, or to PC if it is a return that is
    taken. -/
inductive Pops (config : BoardConfig) (bytes : Array Byte) (p : Core) : (Registers → Word) → Prop where
  | pair {count : Nat} {page : Page} {opcode : Byte} {rr : Reg16}
    (picks : p.Picks config bytes count page opcode) (pop : (decode page opcode).mnemonic = .pop)
    (operands : (decode page opcode).operands = [.reg16 rr]) :
    Pops config bytes p fun regs => regs.reg16 rr
  | ret {count : Nat} {page : Page} {opcode : Byte} (picks : p.Picks config bytes count page opcode)
    (ret : (decode page opcode).mnemonic = .ret) (taken : (decode page opcode).taken p.regs = true) :
    Pops config bytes p Registers.pc

/-- The chip chooses an EX of this pair with the top of the stack. -/
inductive Swaps (config : BoardConfig) (bytes : Array Byte) (p : Core) (rr : Reg16) : Prop where
  | ex {count : Nat} {page : Page} {opcode : Byte} (picks : p.Picks config bytes count page opcode)
    (ex : (decode page opcode).mnemonic = .ex)
    (operands : (decode page opcode).operands = [.indirect .sp, .reg16 rr])

/-- A push moves SP down by two, and stores nothing but its word. -/
theorem Pushes.performs (h : p.Pushes config bytes completed w)
    (hperforms : p.resolveNext.Performs config elsewhere bytes e left)
    (hcompleted : e.instruction = completed) :
    e.regs.sp = p.regs.sp - 2 ∧ left = (w.pushes p.regs.sp).foldl config.apply bytes := by
  -- what comes from memory begins with the registers of the chip
  have hstart {count : Nat} {page : Page} {opcode : Byte}
      (picks : p.Picks config bytes count page opcode) :
      p.resolveNext.Embarks ∧ p.resolveNext.regs = p.regs
        ∧ Scans (config.byteAt bytes) p.resolveNext.regs.pc count page opcode := by
    obtain ⟨hembarks, hregs⟩ := embarks_resolveNext picks.memory
    exact ⟨hembarks, hregs, hregs ▸ picks.scans⟩
  cases h with
  | pair picks push operands =>
    obtain ⟨hembarks, hregs, hscans⟩ := hstart picks
    obtain ⟨r, hcomes⟩ := hembarks.pushes hscans push operands
    obtain ⟨hafter, rfl⟩ := hcomes.performs hperforms
    rw [hafter, ← hregs]
    exact ⟨rfl, rfl⟩
  | call picks call taken =>
    obtain ⟨hembarks, hregs, hscans⟩ := hstart picks
    obtain ⟨r, wz, hcomes⟩ := hembarks.calls hscans call
    rw [hregs, if_pos taken, if_pos taken, if_pos taken] at hcomes
    obtain ⟨hafter, rfl⟩ := hcomes.performs hperforms
    rw [hafter]
    exact ⟨rfl, rfl⟩
  | restart picks rst =>
    obtain ⟨hembarks, hregs, hscans⟩ := hstart picks
    obtain ⟨r, target, -, hcomes⟩ := hembarks.restarts hscans rst
    rw [hregs] at hcomes
    obtain ⟨hafter, rfl⟩ := hcomes.performs hperforms
    rw [hafter]
    exact ⟨rfl, rfl⟩
  | @interrupt op origin interrupts =>
    have henters : Visit.Enters ⟨config, op, p.regs, bytes, 0⟩ 0 p.resolveNext bytes :=
      Visit.enters_resolveNext origin interrupts rfl
    obtain ⟨hsp, hbytes⟩ := henters.stacks (v := ⟨config, op, p.regs, bytes, 0⟩) interrupts hperforms
    exact ⟨hsp, hbytes⟩
  | @device code origin known leaves =>
    have hregs : p.resolveNext.regs = { p.regs with iff1 := false, iff2 := false } := by
      rw [p.resolveNext_masks.1, origin]
      rfl
    have hleaves : code.mnemonic = .rst
        ∨ code.mnemonic = .call ∧ code.taken p.resolveNext.regs = true := by
      rw [hregs]
      exact leaves
    obtain ⟨hbytes, hsp⟩ := hperforms.sent (sends_resolveNext origin config bytes)
      (hcompleted.trans known) hleaves
    rw [hregs] at hbytes hsp
    exact ⟨hsp, hbytes⟩

/-- A pop moves SP up by two, stores nothing, and takes the word at SP. -/
theorem Pops.performs (h : p.Pops config bytes got)
    (hperforms : p.resolveNext.Performs config elsewhere bytes e left) :
    e.regs.sp = p.regs.sp + 2 ∧ left = bytes ∧ got e.regs = config.wordAt bytes p.regs.sp := by
  cases h with
  | @pair _ _ _ rr picks pop operands =>
    obtain ⟨hembarks, hregs⟩ := embarks_resolveNext picks.memory
    obtain ⟨r, hcomes⟩ := hembarks.pops (hregs ▸ picks.scans) pop operands
    rw [hregs] at hcomes
    obtain ⟨hafter, hkept⟩ := hcomes.performs hperforms
    obtain ⟨-, rr', hstacked, hnamed⟩ := picks.scans.entitled.pairs (Or.inr pop)
    obtain rfl : rr = rr' := by
      rw [operands] at hnamed
      injection hnamed with hpair
      injection hpair
    refine ⟨?_, hkept, ?_⟩
    · rw [hafter]
      cases rr <;> first
        | rfl
        | cases hstacked
    · exact (congrArg (fun regs => Registers.reg16 regs rr) hafter).trans
        (Registers.reg16_setReg16 _ _ _)
  | ret picks ret taken =>
    obtain ⟨hembarks, hregs⟩ := embarks_resolveNext picks.memory
    obtain ⟨r, wz, hcomes⟩ := hembarks.returns (hregs ▸ picks.scans) ret
    rw [hregs, if_pos taken, if_pos taken] at hcomes
    obtain ⟨hafter, hkept⟩ := hcomes.performs hperforms
    rw [hafter]
    exact ⟨rfl, hkept, rfl⟩

/-- An exchange leaves SP alone, takes the word at SP for the pair, and stores the pair there. -/
theorem Swaps.performs (h : p.Swaps config bytes rr)
    (hperforms : p.resolveNext.Performs config elsewhere bytes e left) :
    (∃ pc r, e.regs = { p.regs.setReg16 (config.wordAt bytes p.regs.sp) rr with
        pc, r, wz := config.wordAt bytes p.regs.sp })
      ∧ rr.isStacked = true
      ∧ left = ((p.regs.reg16 rr).pushes (p.regs.sp + 2)).foldl config.apply bytes := by
  obtain @⟨count, page, opcode, picks, hm, hoperands⟩ := h
  obtain ⟨hembarks, hregs⟩ := embarks_resolveNext picks.memory
  obtain ⟨r, hcomes⟩ := hembarks.exchanges (hregs ▸ picks.scans) hm hoperands
  rw [hregs] at hcomes
  obtain ⟨hafter, hbytes⟩ := hcomes.performs hperforms
  obtain ⟨-, rr', hstacked, hnamed⟩ := picks.scans.entitled.exchanges hm (by rw [hoperands]; rfl)
  obtain rfl : rr = rr' := by
    rw [hoperands] at hnamed
    injection hnamed with _ htail
    injection htail with hpair
    injection hpair
  refine ⟨⟨p.regs.pc + (count + (decode page opcode).size).toUInt16, r, hafter.trans ?_⟩, hstacked,
    hbytes⟩
  cases rr <;> rfl

end Core

end Z80Board
