import Z80Board.Proofs.Rig.Discipline

/-! # Words at an address

    LD moves a word between a register pair and memory, at an address that stands in the instruction
    itself: its low byte is at the address and its high byte at the next one, which comes after FFFF
    round to zero.  A word that is stored by one instruction and loaded by the next one gets from pair
    to pair, and nothing else changes but the two bytes, PC, R and WZ. -/

namespace Z80Board

/-! ## Loads and stores of a word -/

/-- What a word stores at an address, its low byte first. -/
def Word.storesAt (w address : Word) : List Store :=
  [⟨address, Word.low w⟩, ⟨address + 1, Word.high w⟩]

/-- The instruction stores this pair at an address of its own, or loads it from there. -/
structure Instruction.MovesWord (code : Instruction) (stores : Bool) (rr : Reg16) : Prop where
  mnemonic : code.mnemonic = .ld
  operands : code.operands = if stores then [.absolute, .reg16 rr] else [.reg16 rr, .absolute]

/-- The pages and opcodes with which a pair is stored at an address, or loaded from there. -/
def Reg16.wordOpcodes (stores : Bool) : Reg16 → List (Page × Byte)
  | .bc => [(.ed, if stores then 0x43 else 0x4B)]
  | .de => [(.ed, if stores then 0x53 else 0x5B)]
  | .hl => [(.main, if stores then 0x22 else 0x2A), (.ed, if stores then 0x63 else 0x6B)]
  | .sp => [(.ed, if stores then 0x73 else 0x7B)]
  | .ix => [(.dd, if stores then 0x22 else 0x2A)]
  | .iy => [(.fd, if stores then 0x22 else 0x2A)]
  | .af | .afAlt => []

theorem Reg16.movesWord_of_mem {rr : Reg16} {stores : Bool} {encoding : Page × Byte}
    (h : encoding ∈ rr.wordOpcodes stores) :
    (decode encoding.1 encoding.2).MovesWord stores rr := by
  have hall : ∀ rr ∈ Reg16.all, ∀ stores, ∀ encoding ∈ rr.wordOpcodes stores,
      (decode encoding.1 encoding.2).mnemonic = .ld
        ∧ (decode encoding.1 encoding.2).operands
          = if stores then [.absolute, .reg16 rr] else [.reg16 rr, .absolute] := by
    decide +kernel
  have hpair : rr ∈ Reg16.all := by cases rr <;> decide
  obtain ⟨hmnemonic, hoperands⟩ := hall rr hpair stores encoding h
  exact ⟨hmnemonic, hoperands⟩

/-- The cycles behind its opcode: it reads the address and moves the bytes. -/
def wordCycles (stores : Bool) : List MachineCycle :=
  [⟨.operandLow, 3⟩, ⟨.operandHigh, 3⟩] ++
    if stores then [⟨.memoryWriteLow, 3⟩, ⟨.memoryWriteHigh, 3⟩]
    else [⟨.memoryReadLow, 3⟩, ⟨.memoryReadHigh, 3⟩]

/-- Whatever its page is, it has these cycles. -/
theorem Listing.Entitled.movesWord {page : Page} {code : Instruction} {stores : Bool} {rr : Reg16}
    (h : Listing.Entitled Catalog.forms page code) (hcode : code.MovesWord stores rr) :
    code.Trails page (fun _ => wordCycles stores) 2 := by
  have hloads : ∀ p ∈ Catalog.forms, p.1 = .ld → ∀ page, p.2.page = some page →
      ∀ e ∈ p.2.encodings, ∀ stores, ∀ rr ∈ Reg16.all,
        e.2 = (if stores then [.absolute, .reg16 rr] else [.reg16 rr, .absolute]) →
        p.2.Trails page e.2 (fun _ => wordCycles stores) 2 := by
    decide +kernel
  have hpair : rr ∈ Reg16.all := by cases rr <;> decide
  obtain ⟨m, f, hf, hpage, hcode'⟩ := h
  obtain ⟨opcode, hmem⟩ := hcode'.operands
  have hld : m = .ld := hcode'.mnemonic.symm.trans hcode.mnemonic
  have htrails := hloads (m, f) hf hld page hpage _ hmem stores rr hpair hcode.operands
  refine hcode'.trails hf hpage (by rw [hld]; rfl) (fun _ => ?_) htrails
  cases stores <;> decide

namespace Core

variable {config : BoardConfig} {c k : Core} {code : Instruction} {bytes : Array Byte} {count : Nat}
  {page : Page} {opcode : Byte} {met : Bool} {regs : Registers} {latches : Latches} {rr : Reg16}

/-- A word that has been put out goes to the address that is latched and to the next one. -/
theorem Stands.writesWord (h : c.Stands code met regs latches) (config : BoardConfig)
    (bytes : Array Byte) (t t' : Nat) {w : Word}
    (hstaged : latches.outLow = Word.low w ∧ latches.outHigh = Word.high w)
    (hidle : ∀ c : Core, c.act code (.after .memoryWriteLow) = c) :
    ∃ d : Core, d.Stands code met regs latches
      ∧ [⟨.memoryWriteLow, t⟩, ⟨.memoryWriteHigh, t'⟩].foldl (Core.does config) (c, bytes)
        = (d.act code (.after .memoryWriteHigh),
          (w.storesAt latches.addr).foldl config.apply bytes) := by
  obtain ⟨d, hd, hfold⟩ := h.doesBoth config bytes t t' .memoryWriteLow .memoryWriteHigh (by decide)
    (by decide) hidle
  rw [Word.storesAt, ← hstaged.1, ← hstaged.2]
  exact ⟨d, hd, hfold⟩

/-- The word is read from the address that is latched and from the next one. -/
theorem Stands.readsData (h : c.Stands code met regs latches) (config : BoardConfig)
    (bytes : Array Byte) (t t' : Nat) (hidle : ∀ c : Core, c.act code (.after .memoryReadLow) = c) :
    ∃ (d : Core) (latches' : Latches), d.Stands code met regs latches'
      ∧ latches'.addr = latches.addr ∧ d.data16 = config.wordAt bytes latches.addr
      ∧ [⟨.memoryReadLow, t⟩, ⟨.memoryReadHigh, t'⟩].foldl (Core.does config) (c, bytes)
        = (d.act code (.after .memoryReadHigh), bytes) := by
  obtain ⟨d, hd, hfold⟩ := h.doesBoth config bytes t t' .memoryReadLow .memoryReadHigh (by decide)
    (by decide) hidle
  refine ⟨d, _, hd, rfl, ?_, hfold⟩
  rw [data16, hd.latches]
  rfl

/-- A load or store of a word begins by reading its address. -/
theorem Embarks.addresses {stores : Bool} (h : k.Embarks)
    (hscans : Scans (config.byteAt bytes) k.regs.pc count page opcode)
    (hcode : (decode page opcode).MovesWord stores rr) :
    let code := decode page opcode
    let next := k.regs.pc + (count + code.size).toUInt16
    ∃ (d : Core) (r : Byte) (latches : Latches),
      d.Stands code false { k.regs with pc := next, r } latches
        ∧ latches.addr = config.wordAt bytes (next - 2)
        ∧ ∀ {e regs latches' left}, e.Stands code false regs latches' →
          (if stores then [⟨.memoryWriteLow, 3⟩, ⟨.memoryWriteHigh, 3⟩]
            else [⟨.memoryReadLow, 3⟩, ⟨.memoryReadHigh, 3⟩] : List MachineCycle).foldl
              (does config) (d.act code (.after .operandHigh), bytes) = (e, left) →
          k.Comes config bytes (List.replicate count ⟨.opcodeFetch, 4⟩
            ++ code.timing.cycles false) regs left := by
  intro code next
  obtain ⟨e, r, latches, he, hcomes⟩ := h.trails hscans (hscans.entitled.movesWord hcode)
  have hidle (c : Core) : c.act code .decoded = c ∧ c.act code (.after .operandLow) = c := by
    unfold act
    rw [hcode.mnemonic, hcode.operands]
    cases stores <;> exact ⟨rfl, rfl⟩
  have habsolute : code.hasOperand .absolute = true := by
    rw [Instruction.hasOperand, hcode.operands]
    cases stores <;> rfl
  obtain ⟨d, hd, hfold⟩ := he.fitLength.readsOperand config bytes 3 3 fun c => (hidle c).2
  have hpc : next - (2 : Nat).toUInt16 + 2 = next := UInt16.sub_add_cancel _ _
  refine ⟨d, r, _, hpc ▸ hd, ?_, fun {e' regs latches' left} he' hrest => ?_⟩
  · rw [habsolute]
    rfl
  · refine hcomes ?_ he' ?_
    · rw [(hidle e).1]
      exact he.met
    · rw [(hidle e).1, wordCycles, List.foldl_append, hfold]
      exact hrest

/-- LD stores its pair at its address. -/
theorem Embarks.storesWord (h : k.Embarks)
    (hscans : Scans (config.byteAt bytes) k.regs.pc count page opcode)
    (hcode : (decode page opcode).MovesWord true rr) :
    let code := decode page opcode
    let next := k.regs.pc + (count + code.size).toUInt16
    let address := config.wordAt bytes (next - 2)
    ∃ r, k.Comes config bytes (List.replicate count ⟨.opcodeFetch, 4⟩ ++ code.timing.cycles false)
      { k.regs with pc := next, r, wz := address + 1 }
      (((k.regs.reg16 rr).storesAt address).foldl config.apply bytes) := by
  intro code next address
  obtain ⟨d, r, latches, hd, haddress, hcomes⟩ := h.addresses hscans hcode
  have hact (c : Core) (point : ExecPoint) : c.act code point
      = if point = .after .operandHigh then
          { c.stage16 (c.regs.reg16 rr) with regs.wz := c.latches.addr + 1 }
        else c := by
    unfold act
    rw [hcode.mnemonic, hcode.operands]
    rfl
  have hpair : d.regs.reg16 rr = k.regs.reg16 rr := by
    rw [hd.regs]
    cases rr <;> rfl
  have hstaged : d.act code (.after .operandHigh)
      = { d.stage16 (k.regs.reg16 rr) with regs.wz := address + 1 } := by
    rw [hact, if_pos rfl, hpair, hd.latches, haddress]
  have hthere := (hd.stages (k.regs.reg16 rr)).withRegs fun regs => { regs with wz := address + 1 }
  obtain ⟨e, he, hfold⟩ := hthere.writesWord config bytes 3 3 ⟨rfl, rfl⟩
    fun c => by rw [hact, if_neg (by decide)]
  rw [hact, if_neg (by decide), haddress] at hfold
  refine ⟨r, hcomes he ?_⟩
  rw [hstaged]
  exact hfold

/-- LD loads its pair from its address. -/
theorem Embarks.loadsWord (h : k.Embarks)
    (hscans : Scans (config.byteAt bytes) k.regs.pc count page opcode)
    (hcode : (decode page opcode).MovesWord false rr) :
    let code := decode page opcode
    let next := k.regs.pc + (count + code.size).toUInt16
    let address := config.wordAt bytes (next - 2)
    ∃ r, k.Comes config bytes (List.replicate count ⟨.opcodeFetch, 4⟩ ++ code.timing.cycles false)
      { k.regs.setReg16 (config.wordAt bytes address) rr with pc := next, r, wz := address + 1 }
      bytes := by
  intro code next address
  obtain ⟨d, r, latches, hd, haddress, hcomes⟩ := h.addresses hscans hcode
  have hact (c : Core) (point : ExecPoint) : c.act code point
      = if point = .after .memoryReadHigh then
          { c with regs := { c.regs.setReg16 c.data16 rr with wz := c.latches.addr + 1 } }
        else c := by
    unfold act
    rw [hcode.mnemonic, hcode.operands]
    rfl
  obtain ⟨e, latches', he, hkept, hword, hfold⟩ := hd.readsData config bytes 3 3
    fun c => by rw [hact, if_neg (by decide)]
  rw [haddress] at hkept hword
  have hlatched : e.latches.addr = address := by rw [he.latches, hkept]
  have hloaded := he.withRegs fun regs =>
    { regs.setReg16 (config.wordAt bytes address) rr with wz := address + 1 }
  have hsame : ({ ({ k.regs with pc := next, r } : Registers).setReg16
        (config.wordAt bytes address) rr with wz := address + 1 } : Registers)
      = { k.regs.setReg16 (config.wordAt bytes address) rr with pc := next, r, wz := address + 1 } := by
    cases rr <;> rfl
  rw [hact, if_pos rfl, hword, hlatched] at hfold
  refine ⟨r, hcomes (hsame ▸ hloaded) ?_⟩
  rw [hact, if_neg (by decide)]
  exact hfold

end Core

/-! ## The bytes of a word -/

namespace BoardConfig

variable {config : BoardConfig} {bytes : Array Byte} {w address : Word}

/-- A word that is stored in RAM stands there. -/
theorem byteAt_storesAt (hvalid : config.validate = .ok ())
    (hsize : bytes.size = config.memorySize) (hlow : config.isRom (config.index address) = false)
    (hhigh : config.isRom (config.index (address + 1)) = false) :
    config.byteAt ((w.storesAt address).foldl config.apply bytes) address = Word.low w
      ∧ config.byteAt ((w.storesAt address).foldl config.apply bytes) (address + 1)
        = Word.high w :=
  byteAt_apply_both hvalid hsize (index_succ_ne hvalid address) hlow hhigh

/-- Nothing else changes. -/
theorem getElem?_storesAt_of_ne {place : Nat} (hlow : place ≠ config.index address)
    (hhigh : place ≠ config.index (address + 1)) :
    ((w.storesAt address).foldl config.apply bytes)[place]? = bytes[place]? :=
  getElem?_stores_of_ne (by simpa [Word.storesAt] using And.intro hlow hhigh)

end BoardConfig

/-! ## From pair to pair -/

/-- An instruction in memory, behind some prefixes without effect. -/
structure Site where
  start : Word
  count : Nat
  page : Page
  opcode : Byte

namespace Site

variable (s : Site)

/-- The instruction. -/
def code : Instruction :=
  decode s.page s.opcode

/-- How many bytes it takes, with the prefixes. -/
def length : Nat :=
  s.count + s.code.size

/-- Where the next instruction stands. -/
def next : Word :=
  s.start + s.length.toUInt16

/-- The cycles that it runs. -/
def cycles : List MachineCycle :=
  List.replicate s.count ⟨.opcodeFetch, 4⟩ ++ s.code.timing.cycles false

/-- The edges that these take. -/
def edges : Nat :=
  2 * Timing.sum s.cycles

end Site

/-- At the first site this pair is stored at the address, and at the second, which lies behind the
    first, that pair is loaded from the same address.  The two bytes there are in RAM, and they are none
    of those of the second instruction, which are still to be read when they are stored. -/
structure Transfer (config : BoardConfig) (bytes : Array Byte) (first second : Site) (rr ss : Reg16)
    (address : Word) : Prop where
  scans : Scans (config.byteAt bytes) first.start first.count first.page first.opcode
  stores : first.code.MovesWord true rr
  there : config.wordAt bytes (first.next - 2) = address
  behind : second.start = first.next
  scans_next : Scans (config.byteAt bytes) second.start second.count second.page second.opcode
  loads : second.code.MovesWord false ss
  again : config.wordAt bytes (second.next - 2) = address
  low : config.isRom (config.index address) = false
  high : config.isRom (config.index (address + 1)) = false
  apart : ∀ i < second.length,
    config.index address ≠ config.index (second.start + i.toUInt16)
      ∧ config.index (address + 1) ≠ config.index (second.start + i.toUInt16)

/-- What the two instructions make of registers and bytes of memory: the one pair holds what the other
    one has been, the word stands at the address, and nothing else has changed but PC, R and WZ. -/
structure Transferred (config : BoardConfig) (rr ss : Reg16) (address next : Word)
    (regs : Registers) (bytes : Array Byte) (regs' : Registers) (bytes' : Array Byte) : Prop where
  pair : regs'.reg16 ss = regs.reg16 rr
  others : ∃ r, regs' = { regs.setReg16 (regs.reg16 rr) ss with pc := next, r, wz := address + 1 }
  low : config.byteAt bytes' address = Word.low (regs.reg16 rr)
  high : config.byteAt bytes' (address + 1) = Word.high (regs.reg16 rr)
  elsewhere : ∀ place, place ≠ config.index address → place ≠ config.index (address + 1) →
    bytes'[place]? = bytes[place]?

namespace Transfer

variable {config : BoardConfig} {bytes : Array Byte} {first second : Site} {rr ss : Reg16}
  {address : Word} {k : Core}

/-- The bytes of memory once the word has been stored. -/
def stored (config : BoardConfig) (bytes : Array Byte) (rr : Reg16) (address : Word)
    (regs : Registers) : Array Byte :=
  ((regs.reg16 rr).storesAt address).foldl config.apply bytes

/-- The first instruction stores the word. -/
theorem first_comes (h : Transfer config bytes first second rr ss address) (hembarks : k.Embarks)
    (hpc : k.regs.pc = first.start) :
    ∃ r, k.Comes config bytes first.cycles { k.regs with pc := first.next, r, wz := address + 1 }
      (stored config bytes rr address k.regs) := by
  have hscans := h.scans
  rw [← hpc] at hscans
  obtain ⟨r, hcomes⟩ := hembarks.storesWord hscans h.stores
  have hnext : k.regs.pc + (first.count + (decode first.page first.opcode).size).toUInt16
      = first.next := by
    rw [hpc]
    rfl
  rw [hnext, h.there] at hcomes
  exact ⟨r, hcomes⟩

/-- The second instruction is still the same then. -/
theorem scans_stored (h : Transfer config bytes first second rr ss address) (regs : Registers) :
    Scans (config.byteAt (stored config bytes rr address regs)) second.start second.count second.page
        second.opcode
      ∧ config.wordAt (stored config bytes rr address regs) (second.next - 2) = address := by
  have hsame {i : Nat} (hi : i < second.length) :
      config.byteAt (stored config bytes rr address regs) (second.start + i.toUInt16)
        = config.byteAt bytes (second.start + i.toUInt16) := by
    refine BoardConfig.byteAt_stores_of_ne fun store hstore => ?_
    obtain ⟨hlow, hhigh⟩ := h.apart i hi
    rw [Word.storesAt, List.mem_cons, List.mem_singleton] at hstore
    rcases hstore with rfl | rfl
    · exact hlow
    · exact hhigh
  refine ⟨h.scans_next.congr fun i hi => hsame hi, ?_⟩
  -- the address is its last two bytes, whatever stands before them
  have hsize : second.code.size = codeBytes second.page.approach + 1 + 2 :=
    (h.scans_next.entitled.movesWord h.loads).size
  obtain ⟨before, hlength⟩ : ∃ before, second.length = before + 2 :=
    ⟨second.count + codeBytes second.page.approach + 1, by rw [Site.length, hsize]; omega⟩
  have hlow : second.next - 2 = second.start + before.toUInt16 := by
    have hsum : (before + 2).toUInt16 = before.toUInt16 + 2 := UInt16.ofNat_add before 2
    rw [Site.next, hlength, hsum]
    grind
  have hhigh : second.next - 2 + 1 = second.start + (before + 1).toUInt16 := by
    have hsum : (before + 1).toUInt16 = before.toUInt16 + 1 := UInt16.ofNat_add before 1
    rw [hlow, hsum, UInt16.add_assoc]
  have hread : config.wordAt (stored config bytes rr address regs) (second.next - 2)
      = config.wordAt bytes (second.next - 2) := by
    rw [BoardConfig.wordAt, BoardConfig.wordAt, hhigh, hlow, hsame (by omega), hsame (by omega)]
  exact hread.trans h.again

/-- The second instruction loads it. -/
theorem second_comes (h : Transfer config bytes first second rr ss address) (regs : Registers)
    (hembarks : k.Embarks) (hvalid : config.validate = .ok ())
    (hsize : bytes.size = config.memorySize) {r : Byte}
    (hregs : k.regs = { regs with pc := first.next, r, wz := address + 1 }) :
    ∃ regs', k.Comes config (stored config bytes rr address regs) second.cycles regs'
        (stored config bytes rr address regs)
      ∧ Transferred config rr ss address second.next regs bytes regs'
        (stored config bytes rr address regs) := by
  obtain ⟨hscans, hagain⟩ := h.scans_stored regs
  obtain ⟨hlow, hhigh⟩ := BoardConfig.byteAt_storesAt (w := regs.reg16 rr) hvalid hsize h.low h.high
  have hpc : k.regs.pc = second.start := by rw [hregs, h.behind]
  rw [← hpc] at hscans
  obtain ⟨r', hcomes⟩ := hembarks.loadsWord hscans h.loads
  have hnext : k.regs.pc + (second.count + (decode second.page second.opcode).size).toUInt16
      = second.next := by
    rw [hpc]
    rfl
  have hword : config.wordAt (stored config bytes rr address regs) address = regs.reg16 rr := by
    rw [BoardConfig.wordAt, stored, hlow, hhigh]
    exact Word.ofBytes_halves _
  rw [hnext, hagain, hword, hregs] at hcomes
  refine ⟨_, hcomes, ?_, ⟨r', ?_⟩, hlow, hhigh, fun place hother hother' =>
    BoardConfig.getElem?_storesAt_of_ne hother hother'⟩
  · rw [Registers.reg16_moved]
    exact Registers.reg16_setReg16 _ _ _
  · cases ss <;> rfl

/-- The second instruction takes some time. -/
theorem takes_edges (h : Transfer config bytes first second rr ss address) : 0 < second.edges := by
  have htail : (second.code.timing.cycles false).drop _ = wordCycles false :=
    (h.scans_next.entitled.movesWord h.loads).cycles false
  have hsum : Timing.sum (wordCycles false) = 12 := rfl
  rw [Site.edges, Site.cycles, Core.sum_append,
    ← List.take_append_drop (second.page.approach.length + 1) (second.code.timing.cycles false),
    Core.sum_append, htail, hsum]
  omega

/-- Behind each other on a board, the two carry the word however they are held up. -/
theorem carries_held_up {j t j' t' : Juncture}
    (h : Transfer config j.bytes first second rr ss address) (hj : j.Sound config)
    (hpc : j.chip.regs.pc = first.start) (hmemory : j.chip.resolveNext.fromMemory = true)
    (hturns : j.Turns t) (hj' : j'.Sound config) (hregs : j'.chip.regs = t.chip.regs)
    (hbytes : j'.bytes = t.bytes) (hmemory' : j'.chip.resolveNext.fromMemory = true)
    (hturns' : j'.Turns t') :
    Transferred config rr ss address second.next j.chip.regs j.bytes t'.chip.regs t'.bytes := by
  obtain ⟨hvalid, hsize⟩ := hj.fits
  obtain ⟨hembarks, hsame⟩ := Core.embarks_resolveNext hmemory
  obtain ⟨hembarks', hsame'⟩ := Core.embarks_resolveNext hmemory'
  obtain ⟨e, hperforms, he, -⟩ := hturns.performs hj
  obtain ⟨e', hperforms', he', -⟩ := hturns'.performs hj'
  obtain ⟨r, hcomes⟩ := h.first_comes hembarks (by rw [hsame, hpc])
  obtain ⟨hleft, hstored⟩ := hcomes.performs hperforms
  rw [he, hsame] at hleft
  rw [hsame] at hstored
  obtain ⟨regs', hcomes', hacross⟩ := h.second_comes j.chip.regs hembarks' hvalid hsize
    (by rw [hsame', hregs, hleft])
  rw [hbytes, hstored] at hperforms'
  obtain ⟨hleft', hstored'⟩ := hcomes'.performs hperforms'
  rw [he'] at hleft'
  rw [hleft', hstored']
  exact hacross

/-- On a machine that is left alone each of them takes its cycles. -/
theorem carries_left_alone {m : Machine} (h : Transfer config m.memory.bytes first second rr ss address)
    (hm : Attended config m.board) (hopens : m.board.Opens m.clock.level.flip k)
    (hnmi : k.nmiPending = false) (hpc : k.regs.pc = first.start)
    (hcalm : m.Calm (first.edges + second.edges)) :
    (∃ p, m.Finishes config first.edges p (stored config m.memory.bytes rr address k.regs))
      ∧ (∃ p, (m.after first.edges).Finishes config second.edges p
        (stored config m.memory.bytes rr address k.regs))
      ∧ Transferred config rr ss address second.next k.regs m.memory.bytes
        (m.after (first.edges + second.edges)).core.regs
        (m.after (first.edges + second.edges)).memory.bytes := by
  have hfits := hm.orderly.fits
  obtain ⟨r, hcomes⟩ := h.first_comes (hm.embarks hopens) hpc
  obtain ⟨p, hplays, hregs, hawake⟩ := (hm.yields hopens hcomes).plays hnmi
    fun i hi => hcalm i (Nat.lt_add_right _ hi)
  have hfinishes : m.Finishes config first.edges p _ := hplays.finishes
  -- the second one opens where the first one has finished
  obtain ⟨k', hopens', hregs', -, hnmi', hcalm'⟩ := hfinishes.opens_again hawake hcalm h.takes_edges
  have hm' := hm.after first.edges
  obtain ⟨regs', hcomes', hacross⟩ := h.second_comes k.regs (hm'.embarks hopens')
    hfits.valid hfits.size (hregs'.trans hregs)
  rw [← hfinishes.bytes] at hcomes'
  obtain ⟨p', hplays', hlast, -⟩ := (hm'.yields hopens' hcomes').plays hnmi' hcalm'
  have hfinishes' : (m.after first.edges).Finishes config second.edges p' _ := hplays'.finishes
  rw [hfinishes.bytes] at hfinishes'
  refine ⟨⟨p, hfinishes⟩, ⟨p', hfinishes'⟩, ?_⟩
  rw [Machine.after_add, hfinishes'.regs, hfinishes'.bytes, hlast]
  exact hacross

/-- A word that LD stores at an address, its low byte first, and the next LD loads from there gets from
    the one pair to the other.  Both instructions may have any of their encodings, and prefixes without
    effect before them; after FFFF the high byte is at zero.  Nothing else changes, whether the two are
    held up or left alone. -/
theorem carries_word (h : Transfer config bytes first second rr ss address) :
    (∀ j t j' t' : Juncture, j.Sound config → j.bytes = bytes → j.chip.regs.pc = first.start →
      j.chip.resolveNext.fromMemory = true → j.Turns t →
      j'.Sound config → j'.chip.regs = t.chip.regs → j'.bytes = t.bytes →
      j'.chip.resolveNext.fromMemory = true → j'.Turns t' →
        Transferred config rr ss address second.next j.chip.regs bytes t'.chip.regs t'.bytes)
    ∧ (∀ (m : Machine) (k : Core), Attended config m.board → m.memory.bytes = bytes →
      m.board.Opens m.clock.level.flip k → k.nmiPending = false → k.regs.pc = first.start →
      m.Calm (first.edges + second.edges) →
        (∃ p, m.Finishes config first.edges p (stored config bytes rr address k.regs))
        ∧ (∃ p, (m.after first.edges).Finishes config second.edges p
          (stored config bytes rr address k.regs))
        ∧ Transferred config rr ss address second.next k.regs bytes
          (m.after (first.edges + second.edges)).core.regs
          (m.after (first.edges + second.edges)).memory.bytes)
    ∧ ∀ (stores : Bool) (rr : Reg16), ∀ encoding ∈ rr.wordOpcodes stores,
      (decode encoding.1 encoding.2).MovesWord stores rr := by
  refine ⟨fun j t j' t' hj hbytes hpc hmemory hturns hj' hregs hsame hmemory' hturns' => ?_,
    fun m k hm hbytes hopens hnmi hpc hcalm => ?_,
    fun stores rr encoding hencoding => Reg16.movesWord_of_mem hencoding⟩
  · rw [← hbytes] at h ⊢
    exact h.carries_held_up hj hpc hmemory hturns hj' hregs hsame hmemory' hturns'
  · rw [← hbytes] at h ⊢
    exact h.carries_left_alone hm hopens hnmi hpc hcalm

end Transfer

/-- A machine that stores BC at FFFF and loads IX from there. -/
def moveMachine : Machine :=
  smallMachine.onBoard (smallMachine.board.set {} {}
    (fun regs => { regs with b := 0x12, c := 0x34, pc := 0x10 })
    (List.replicate 0x10 0 ++ ([0xED, 0x43, 0xFF, 0xFF, 0xDD, 0x2A, 0xFF, 0xFF] : List Byte)
      ++ List.replicate 0x3E8 0).toArray)

/-- The chip that runs its first half-period. -/
def moveChip : Core :=
  { moveMachine.core.sampleInputs moveMachine.board.inputs with phase := .running }.resolveNext

/-- Its two instructions. -/
def moveSites : Site × Site :=
  (⟨0x10, 0, .ed, 0x43⟩, ⟨0x14, 0, .dd, 0x2A⟩)

theorem moveSites_transfer :
    Transfer smallConfig moveMachine.memory.bytes moveSites.1 moveSites.2 .bc .ix 0xFFFF := by
  have hencoding : (Page.ed, 0x43) ∈ Reg16.bc.wordOpcodes true := by decide
  have hencoding' : (Page.dd, 0x2A) ∈ Reg16.ix.wordOpcodes false := by decide
  have hstores := Reg16.movesWord_of_mem hencoding
  have hloads := Reg16.movesWord_of_mem hencoding'
  have hlengths : moveSites.1.length = 4 ∧ moveSites.2.length = 4 := by decide +kernel
  have hfirst : Scans (smallConfig.byteAt moveMachine.memory.bytes) 0x10 0 .ed 0x43 := by
    have hopcode : smallConfig.byteAt moveMachine.memory.bytes (0x10 + 1) = 0x43 := by decide +kernel
    rw [← hopcode]
    exact .ed (by decide +kernel)
  have hsecond : Scans (smallConfig.byteAt moveMachine.memory.bytes) 0x14 0 .dd 0x2A := by
    have hopcode : smallConfig.byteAt moveMachine.memory.bytes (0x14 + 1) = 0x2A := by decide +kernel
    rw [← hopcode]
    exact .own (x := .ix) (by decide +kernel) (by decide +kernel) (by rw [hopcode]; decide +kernel)
  refine ⟨hfirst, hstores, ?_, ?_, hsecond, hloads, ?_, by decide, by decide, ?_⟩
  · rw [Site.next, hlengths.1]
    decide +kernel
  · rw [Site.next, hlengths.1]
    rfl
  · rw [Site.next, hlengths.2]
    decide +kernel
  · rw [hlengths.2]
    decide

/-- IX is 1234 then, and the high byte has gone to zero. -/
theorem moves_across_zero :
    moveMachine.board.Opens moveMachine.clock.level.flip moveChip ∧ moveMachine.Calm 80
      ∧ Transfer smallConfig moveMachine.memory.bytes moveSites.1 moveSites.2 .bc .ix 0xFFFF
      ∧ (moveMachine.after 80).core.regs.ix = 0x1234
      ∧ smallConfig.byteAt (moveMachine.after 80).memory.bytes 0 = 0x12 := by
  have hbuilt : Machine.build smallConfig .unattached = .ok smallMachine := rfl
  have hstart : Attended smallConfig smallMachine.board := .start hbuilt (by decide +kernel)
  have hattended : Attended smallConfig moveMachine.board := hstart.set _ _ _ _ (by decide +kernel)
  have hopens : moveMachine.board.Opens moveMachine.clock.level.flip moveChip := by
    refine ⟨rfl, ?_, ?_, ?_, ?_⟩ <;> decide +kernel
  have hstill : moveMachine.Still := ⟨rfl, rfl, rfl, rfl⟩
  have hedges : moveSites.1.edges + moveSites.2.edges = 80 := by decide +kernel
  obtain ⟨-, -, hmoved⟩ := moveSites_transfer.carries_word.2.1 moveMachine moveChip hattended rfl hopens
    (by decide +kernel) (by decide +kernel) (hstill.calm _)
  rw [hedges] at hmoved
  have hpair : moveChip.regs.reg16 .bc = 0x1234 := by decide +kernel
  refine ⟨hopens, hstill.calm _, moveSites_transfer, hmoved.pair.trans hpair, hmoved.high.trans ?_⟩
  rw [hpair]
  rfl

end Z80Board
