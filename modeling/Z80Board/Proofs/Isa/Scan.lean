import Z80Board.Proofs.Isa.Templates

/-! # The prefix grammar

    How an instruction is read from bytes at consecutive addresses.  DD and FD select a page of their
    own.  If CB comes next, a displacement and an opcode of a bit page follow; if the page has an
    instruction for the byte that comes next, that is the instruction; otherwise the prefix has no
    effect, and the instruction is read from the next byte on.  CB and ED select a page for the byte
    behind them, and any other byte is an opcode of the main page.

    The tables of the decoder keep to this grammar: it says what becomes of each byte on each page.
    An instruction is as long as the bytes that its cycles read, prefixes included, and each of them
    but a displacement and the opcode behind it is fetched. -/

namespace Z80Board

/-! ## The grammar -/

namespace Index

/-- The prefix byte of an index register. -/
def selector : Index → Byte
  | .ix => 0xDD
  | .iy => 0xFD

/-- The page that the prefix selects. -/
def page : Index → Page
  | .ix => .dd
  | .iy => .fd

/-- The page behind the prefix and CB. -/
def bitPage : Index → Page
  | .ix => .ddcb
  | .iy => .fdcb

end Index

/-- The page has an instruction of its own for the byte. -/
def Page.Owns (page : Page) (byte : Byte) : Prop :=
  ((Listing.ofForms Catalog.forms page).instruction? byte).isSome = true

instance (page : Page) (byte : Byte) : Decidable (page.Owns byte) :=
  inferInstanceAs (Decidable (_ = _))

/-- The instruction at an address is an opcode on a page, behind some prefixes without effect. -/
inductive Scans (byteAt : Word → Byte) : Word → Nat → Page → Byte → Prop where
  | main {pc : Word} (plain : byteAt pc ∉ [0xCB, 0xDD, 0xED, 0xFD]) :
    Scans byteAt pc 0 .main (byteAt pc)
  | cb {pc : Word} (selects : byteAt pc = 0xCB) : Scans byteAt pc 0 .cb (byteAt (pc + 1))
  | ed {pc : Word} (selects : byteAt pc = 0xED) : Scans byteAt pc 0 .ed (byteAt (pc + 1))
  | displaced {pc : Word} {x : Index} (selects : byteAt pc = x.selector)
    (bits : byteAt (pc + 1) = 0xCB) : Scans byteAt pc 0 x.bitPage (byteAt (pc + 3))
  | own {pc : Word} {x : Index} (selects : byteAt pc = x.selector)
    (other : byteAt (pc + 1) ≠ 0xCB) (owns : x.page.Owns (byteAt (pc + 1))) :
    Scans byteAt pc 0 x.page (byteAt (pc + 1))
  | ignored {pc : Word} {x : Index} {count : Nat} {page : Page} {opcode : Byte}
    (selects : byteAt pc = x.selector) (other : byteAt (pc + 1) ≠ 0xCB)
    (foreign : ¬ x.page.Owns (byteAt (pc + 1))) (rest : Scans byteAt (pc + 1) count page opcode) :
    Scans byteAt pc (count + 1) page opcode

namespace Scans

variable {byteAt : Word → Byte} {pc : Word} {count : Nat} {page : Page} {opcode : Byte}

/-- A row of index prefixes that comes to an end leads to an instruction. -/
theorem exists_of_ends {length : Nat} (h : ∀ x : Index, byteAt (pc + length.toUInt16) ≠ x.selector) :
    ∃ count page opcode, Scans byteAt pc count page opcode := by
  have halone {pc : Word} (hnone : ∀ x : Index, byteAt pc ≠ x.selector) :
      ∃ count page opcode, Scans byteAt pc count page opcode := by
    by_cases hcb : byteAt pc = 0xCB
    · exact ⟨_, _, _, .cb hcb⟩
    by_cases hed : byteAt pc = 0xED
    · exact ⟨_, _, _, .ed hed⟩
    refine ⟨_, _, _, .main fun hmem => ?_⟩
    simp only [List.mem_cons, List.not_mem_nil, or_false] at hmem
    rcases hmem with hbyte | hbyte | hbyte | hbyte
    · exact hcb hbyte
    · exact hnone .ix hbyte
    · exact hed hbyte
    · exact hnone .iy hbyte
  induction length generalizing pc with
  | zero =>
    have hzero : pc + (0 : Nat).toUInt16 = pc := UInt16.add_zero pc
    rw [hzero] at h
    exact halone h
  | succ length ih =>
    by_cases hnone : ∀ x : Index, byteAt pc ≠ x.selector
    · exact halone hnone
    obtain ⟨x, hnot⟩ := Classical.not_forall.mp hnone
    have hselects : byteAt pc = x.selector := Decidable.not_not.mp hnot
    by_cases hbits : byteAt (pc + 1) = 0xCB
    · exact ⟨_, _, _, .displaced hselects hbits⟩
    by_cases howns : x.page.Owns (byteAt (pc + 1))
    · exact ⟨_, _, _, .own hselects hbits howns⟩
    have hnext : pc + 1 + length.toUInt16 = pc + (length + 1).toUInt16 := by
      rw [UInt16.add_assoc, UInt16.add_comm 1]
      exact congrArg (pc + ·) (UInt16.ofNat_add length 1).symm
    rw [← hnext] at h
    obtain ⟨count, page, opcode, hrest⟩ := ih h
    exact ⟨_, _, _, .ignored hselects hbits howns hrest⟩

end Scans

/-! ## The tables -/

/-- Looking a byte up, by way of the forms. -/
theorem decode_eq_lookup (page : Page) (opcode : Byte) :
    decode page opcode
      = ((Listing.ofForms Catalog.forms page).lookup page (InstructionType.nop Catalog.types)
          opcode).getD { InstructionType.nop Catalog.types with page := some page, opcode } :=
  decode_eq_entry page opcode

/-- A prefix byte of a page leads on. -/
theorem action_of_lead {page : Page} {opcode : Byte} {action : Action}
    (h : page.lead? opcode = some action) : (decode page opcode).action = action := by
  rw [decode_eq_lookup, Listing.lookup, h]
  rfl

/-- The instruction that a page has for a byte. -/
theorem entitled_of_owns {page : Page} {opcode : Byte} (hlead : page.lead? opcode = none)
    (h : page.Owns opcode) : Listing.Entitled Catalog.forms page (decode page opcode) := by
  obtain ⟨code, hcode⟩ := Option.isSome_iff_exists.mp h
  have hdecode : decode page opcode = code := by
    rw [decode_eq_lookup, Listing.lookup, hlead, hcode]
    rfl
  rw [hdecode]
  exact Listing.entitled_of_instruction hcode

/-- A page behind which there is no other one has an instruction for every byte. -/
theorem entitled_of_alone {page : Page} {opcode : Byte} (hlead : page.lead? opcode = none)
    (hfallback : page.fallback? = none) :
    Listing.Entitled Catalog.forms page (decode page opcode) := by
  obtain ⟨code, hcode⟩ := Catalog.exists_instruction hlead hfallback
  exact entitled_of_owns hlead (Option.isSome_iff_exists.mpr ⟨code, hcode⟩)

/-- An index page hands on a byte for which it has no instruction. -/
theorem action_of_foreign {x : Index} {opcode : Byte} (hlead : x.page.lead? opcode = none)
    (h : ¬ x.page.Owns opcode) : (decode x.page opcode).action = .redecode .main := by
  have hnone : (Listing.ofForms Catalog.forms x.page).instruction? opcode = none :=
    Option.not_isSome_iff_eq_none.mp h
  rw [decode_eq_lookup, Listing.lookup, hlead, hnone]
  cases x <;> rfl

/-- What an entitled entry does. -/
theorem Listing.Entitled.action {page : Page} {code : Instruction}
    (h : Listing.Entitled Catalog.forms page code) : code.action = .execute := by
  obtain ⟨_, _, _, _, hcode⟩ := h
  exact hcode.action

/-- The byte at an address is looked up on a page, and what is read in the end is an opcode on
    another page, behind some prefixes without effect. -/
inductive Awaits (byteAt : Word → Byte) : Page → Word → Nat → Page → Byte → Prop where
  | main {pc : Word} {count : Nat} {page : Page} {opcode : Byte}
    (scans : Scans byteAt pc count page opcode) : Awaits byteAt .main pc count page opcode
  | plain {page : Page} {pc : Word} (plain : page = .cb ∨ page = .ed) :
    Awaits byteAt page pc 0 page (byteAt pc)
  | displaced {x : Index} {pc : Word} (bits : byteAt pc = 0xCB) :
    Awaits byteAt x.page pc 0 x.bitPage (byteAt (pc + 2))
  | own {x : Index} {pc : Word} (other : byteAt pc ≠ 0xCB) (owns : x.page.Owns (byteAt pc)) :
    Awaits byteAt x.page pc 0 x.page (byteAt pc)
  | ignored {x : Index} {pc : Word} {count : Nat} {page : Page} {opcode : Byte}
    (other : byteAt pc ≠ 0xCB) (foreign : ¬ x.page.Owns (byteAt pc))
    (rest : Scans byteAt pc count page opcode) :
    Awaits byteAt x.page pc (count + 1) page opcode

/-- How a byte that is looked up on a page brings the reading on. -/
inductive Awaits.Step (byteAt : Word → Byte) (current : Page) (pc : Word) (count : Nat)
    (page : Page) (opcode : Byte) : Prop where
  /-- The byte leads to another page. -/
  | next (next : Page) (lead : current.lead? (byteAt pc) = some (.fetchNext next))
    (rest : Awaits byteAt next (pc + 1) count page opcode)
  /-- The byte leads to another page, over a displacement. -/
  | displacement (lead : current.lead? (byteAt pc) = some (.fetchDisplacement page))
    (none : count = 0) (last : opcode = byteAt (pc + 2))
  /-- The prefix in front of the byte has no effect. -/
  | ignored (before : Nat) (handed : (decode current (byteAt pc)).action = .redecode .main)
    (one : count = before + 1) (rest : Awaits byteAt .main pc before page opcode)
  /-- The byte is the opcode. -/
  | last (entitled : Listing.Entitled Catalog.forms current (decode current (byteAt pc)))
    (none : count = 0) (same : page = current) (last : opcode = byteAt pc)

/-- The decoder keeps to the grammar. -/
theorem Awaits.step {byteAt : Word → Byte} {current : Page} {pc : Word} {count : Nat} {page : Page}
    {opcode : Byte} (h : Awaits byteAt current pc count page opcode) :
    Awaits.Step byteAt current pc count page opcode := by
  have hindex (x : Index) : x.page.lead? 0xCB = some (.fetchDisplacement x.bitPage) := by
    cases x <;> rfl
  have hother {x : Index} {byte : Byte} (hne : byte ≠ 0xCB) : x.page.lead? byte = none := by
    cases x <;> exact if_neg hne
  have hselects {x : Index} {byte : Byte} (hbyte : byte = x.selector) :
      Page.main.lead? byte = some (.fetchNext x.page) := by
    rw [hbyte]
    cases x <;> rfl
  have hnext (pc : Word) (n : Word) : pc + 1 + n = pc + (1 + n) := UInt16.add_assoc pc 1 n
  cases h with
  | main scans =>
    cases scans with
    | main plain =>
      have hlead : Page.main.lead? (byteAt pc) = none := by
        simp only [List.mem_cons, List.not_mem_nil, or_false, not_or] at plain
        obtain ⟨hcb, hdd, hed, hfd⟩ := plain
        rw [Page.lead?, if_neg hcb, if_neg hdd, if_neg hed, if_neg hfd]
      exact .last (entitled_of_alone hlead rfl) rfl rfl rfl
    | cb selects => exact .next .cb (by rw [selects]; rfl) (.plain (Or.inl rfl))
    | ed selects => exact .next .ed (by rw [selects]; rfl) (.plain (Or.inr rfl))
    | @displaced _ x selects bits =>
      have hrest : Awaits byteAt x.page (pc + 1) 0 x.bitPage (byteAt (pc + 1 + 2)) :=
        .displaced bits
      rw [hnext] at hrest
      exact .next x.page (hselects selects) hrest
    | own selects other owns => exact .next _ (hselects selects) (.own other owns)
    | ignored selects other foreign rest =>
      exact .next _ (hselects selects) (.ignored other foreign rest)
  | plain plain =>
    rcases plain with rfl | rfl <;> exact .last (entitled_of_alone rfl rfl) rfl rfl rfl
  | displaced bits => exact .displacement (by rw [bits]; exact hindex _) rfl rfl
  | own other owns => exact .last (entitled_of_owns (hother other) owns) rfl rfl rfl
  | ignored other foreign rest =>
    exact .ignored _ (action_of_foreign (hother other) foreign) rfl (.main rest)

/-! ## Bytes and fetches -/

/-- Cycles of this kind read a byte of the instruction. -/
def CycleKind.readsCode (kind : CycleKind) : Bool :=
  kind == .opcodeFetch || kind.isOperandRead

/-- How many bytes of the instruction some cycles read. -/
def codeBytes (cycles : List MachineCycle) : Nat :=
  cycles.countP fun cycle => cycle.kind.readsCode

/-- How many bytes are fetched for an opcode on the page.  Behind a displacement the opcode is read,
    but not fetched. -/
def Page.fetches : Page → Nat
  | .ddcb => Page.ddcb.selectors.length
  | .fdcb => Page.fdcb.selectors.length
  | page => page.selectors.length + 1

/-- How many of the bytes that are fetched for an opcode on the page some cycles fetch. -/
def Page.fetched (page : Page) (cycles : List MachineCycle) : Nat :=
  min page.fetches (cycles.countP fun cycle => cycle.kind == .opcodeFetch)

/-- The cycles of an instruction read as many bytes as it is long, and fetch those that they should,
    whichever its timing. -/
theorem Listing.Entitled.spans {page : Page} {code : Instruction}
    (h : Listing.Entitled Catalog.forms page code) (met : Bool) :
    codeBytes (code.timing.cycles met) = code.size
      ∧ page.fetched (code.timing.cycles met) = page.fetches := by
  have hall : ∀ p ∈ Catalog.forms, ∀ page, p.2.page = some page → ∀ met,
      codeBytes (p.2.timing.cycles met) = p.2.size
        ∧ page.fetched (p.2.timing.cycles met) = page.fetches := by
    decide +kernel
  obtain ⟨m, f, hf, hpage, hcode⟩ := h
  rw [hcode.timing, hcode.size]
  exact hall (m, f) hf page hpage met

end Z80Board
