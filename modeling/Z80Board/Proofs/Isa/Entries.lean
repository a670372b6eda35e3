import Mathlib.Algebra.Group.Nat.Defs
import Z80Board.Isa.Decoder

/-! # Entries come from forms

    The tables are made from listings, listings from types, and types from the forms of the catalog.
    Here the way back: whatever byte is looked up on whatever page, its entry either leads on, or
    decodes the byte again on the main page, or is an encoding of a form of that page.  What holds
    of every form of a page therefore holds of every entry of it, and no entry has to be looked at.

    That no page has a hole needs the opcodes of the forms: they are collected as the bits of one
    number, and that number has all 256 bits. -/

namespace Z80Board

/-! ## Types and listed forms -/

namespace InstructionType

/-- The types hold the form under the mnemonic. -/
def Holds (types : List InstructionType) (mnemonic : Mnemonic) (form : Form) : Prop :=
  ∃ type ∈ types, type.mnemonic = mnemonic ∧ form ∈ type.forms

/-- Adding a form to the types adds that form and no other. -/
theorem holds_insert {types : List InstructionType} {mnemonic m : Mnemonic} {form f : Form} :
    Holds (insert types mnemonic form) m f ↔ (m, f) = (mnemonic, form) ∨ Holds types m f := by
  induction types with
  | nil =>
    constructor
    · rintro ⟨type, htype, rfl, hf⟩
      obtain rfl := List.mem_singleton.mp htype
      obtain rfl := List.mem_singleton.mp hf
      exact Or.inl rfl
    · rintro (h | ⟨type, htype, -⟩)
      · obtain ⟨rfl, rfl⟩ := Prod.mk.inj h
        exact ⟨_, List.mem_singleton.mpr rfl, rfl, List.mem_singleton.mpr rfl⟩
      · exact absurd htype List.not_mem_nil
  | cons type rest ih =>
    have holds_cons {t : InstructionType} {l : List InstructionType} :
        Holds (t :: l) m f ↔ (t.mnemonic = m ∧ f ∈ t.forms) ∨ Holds l m f := by
      simp only [Holds, List.mem_cons, exists_eq_or_imp]
    rw [insert]
    split
    · next hm =>
      rw [holds_cons, holds_cons, List.mem_append, List.mem_singleton]
      constructor
      · rintro (⟨rfl, hf | rfl⟩ | h)
        · exact Or.inr (Or.inl ⟨rfl, hf⟩)
        · exact Or.inl (by rw [hm])
        · exact Or.inr (Or.inr h)
      · rintro (h | ⟨rfl, hf⟩ | h)
        · obtain ⟨rfl, rfl⟩ := Prod.mk.inj h
          exact Or.inl ⟨hm, Or.inr rfl⟩
        · exact Or.inl ⟨rfl, Or.inl hf⟩
        · exact Or.inr h
    · rw [holds_cons, holds_cons, ih]
      constructor
      · rintro (h | h | h)
        · exact Or.inr (Or.inl h)
        · exact Or.inl h
        · exact Or.inr (Or.inr h)
      · rintro (h | h | h)
        · exact Or.inr (Or.inl h)
        · exact Or.inl h
        · exact Or.inr (Or.inr h)

/-- Collecting forms by mnemonic keeps each of them and adds none. -/
theorem holds_collect {forms : List (Mnemonic × Form)} {m : Mnemonic} {f : Form} :
    Holds (collect forms) m f ↔ (m, f) ∈ forms := by
  have fold (add : List InstructionType → Mnemonic × Form → List InstructionType)
      (hadd : ∀ types p, add types p = insert types p.1 p.2) (types : List InstructionType) :
      Holds (forms.foldl add types) m f ↔ Holds types m f ∨ (m, f) ∈ forms := by
    induction forms generalizing types with
    | nil => simp only [List.foldl_nil, List.not_mem_nil, or_false]
    | cons p rest ih =>
      rw [List.foldl_cons, ih, hadd, holds_insert, List.mem_cons, or_comm (a := (m, f) = p),
        or_assoc]
  rw [collect, fold _ fun _ _ => rfl]
  constructor
  · rintro (⟨type, htype, -⟩ | h)
    · exact absurd htype List.not_mem_nil
    · exact h
  · exact Or.inr

/-- The listed forms are the forms of the types. -/
theorem holds_iff_listed {types : List InstructionType} {m : Mnemonic} {f : Form} :
    Holds types m f ↔ ∃ l ∈ ListedForm.ofTypes types, l.mnemonic = m ∧ l.form = f := by
  constructor
  · rintro ⟨type, htype, rfl, hf⟩
    obtain ⟨i, hi, rfl⟩ := List.mem_iff_getElem.mp htype
    obtain ⟨j, hj, rfl⟩ := List.mem_iff_getElem.mp hf
    refine ⟨⟨types[i].mnemonic, i, j, types[i].forms[j]⟩, ?_, rfl, rfl⟩
    refine List.mem_flatMap.mpr ⟨(types[i], i), ?_, List.mem_map.mpr ⟨(types[i].forms[j], j), ?_, rfl⟩⟩
    · exact List.mk_mem_zipIdx_iff_getElem?.mpr (List.getElem?_eq_getElem hi)
    · exact List.mk_mem_zipIdx_iff_getElem?.mpr (List.getElem?_eq_getElem hj)
  · rintro ⟨l, hl, rfl, rfl⟩
    obtain ⟨⟨type, i⟩, htype, hl⟩ := List.mem_flatMap.mp hl
    obtain ⟨⟨form, j⟩, hform, rfl⟩ := List.mem_map.mp hl
    exact ⟨type, (List.mem_zipIdx htype).2.2 ▸ List.getElem_mem _, rfl,
      (List.mem_zipIdx hform).2.2 ▸ List.getElem_mem _⟩

end InstructionType

/-! ## What the listing of a page says -/

/-- The instruction is an encoding of the form, under the mnemonic. -/
structure Instruction.Encodes (code : Instruction) (mnemonic : Mnemonic) (form : Form) : Prop where
  action : code.action = .execute
  mnemonic : code.mnemonic = mnemonic
  size : code.size = form.size
  timing : code.timing = form.timing
  operands : ∃ opcode, (opcode, code.operands) ∈ form.encodings

/-- The same instruction under another opcode is an encoding of the same form. -/
theorem Instruction.Encodes.duplicateAt {code : Instruction} {m : Mnemonic} {f : Form}
    (h : code.Encodes m f) (opcode : Byte) : (code.duplicateAt opcode).Encodes m f :=
  ⟨h.action, h.mnemonic, h.size, h.timing, h.operands⟩

namespace Listing

/-- The instruction is an encoding of some form of the page. -/
def Entitled (forms : List (Mnemonic × Form)) (page : Page) (code : Instruction) : Prop :=
  ∃ m f, (m, f) ∈ forms ∧ f.page = some page ∧ code.Encodes m f

/-- The listing of a page, given the forms of the catalog. -/
def ofForms (forms : List (Mnemonic × Form)) (page : Page) : Listing :=
  ofTypes (InstructionType.collect forms) page

variable {forms : List (Mnemonic × Form)} {page : Page} {opcode : Byte} {code : Instruction}

/-- The forms of the page are those of the catalog that name it. -/
theorem mem_forms {m : Mnemonic} {f : Form} :
    (∃ l ∈ (ofForms forms page).forms, l.mnemonic = m ∧ l.form = f)
      ↔ (m, f) ∈ forms ∧ f.page = some page := by
  rw [← InstructionType.holds_collect, InstructionType.holds_iff_listed]
  constructor
  · rintro ⟨l, hl, rfl, rfl⟩
    obtain ⟨hl, hpage⟩ := List.mem_filter.mp hl
    exact ⟨⟨l, hl, rfl, rfl⟩, of_decide_eq_true hpage⟩
  · rintro ⟨⟨l, hl, rfl, rfl⟩, hpage⟩
    exact ⟨l, List.mem_filter.mpr ⟨hl, decide_eq_true hpage⟩, rfl, rfl⟩

/-- What stands under its own opcode is an encoding of a form of the page. -/
theorem entitled_of_own (h : (ofForms forms page).own? opcode = some code) :
    Entitled forms page code := by
  obtain ⟨l, hl, hcode⟩ := List.mem_flatMap.mp (List.mem_of_find?_eq_some h)
  obtain ⟨encoding, hencoding, rfl⟩ := List.mem_map.mp hcode
  obtain ⟨hform, hpage⟩ := mem_forms.mp ⟨l, hl, rfl, rfl⟩
  exact ⟨l.mnemonic, l.form, hform, hpage, rfl, rfl, rfl, rfl, encoding.1, hencoding⟩

/-- Whatever the forms of the page give to a byte is an encoding of one of them. -/
theorem entitled_of_instruction (h : (ofForms forms page).instruction? opcode = some code) :
    Entitled forms page code := by
  have duplicate {source : Option Instruction}
      (hsource : ∀ c, source = some c → Entitled forms page c)
      (h : source.map (fun c => c.duplicateAt opcode) = some code) : Entitled forms page code := by
    obtain ⟨c, hc, rfl⟩ := Option.map_eq_some_iff.mp h
    obtain ⟨m, f, hf, hpage, hencodes⟩ := hsource c hc
    exact ⟨m, f, hf, hpage, hencodes.duplicateAt opcode⟩
  have either {o o' : Option Instruction} (h : (o <|> o') = some code) :
      o = some code ∨ o' = some code := by
    cases o with
    | none => exact Or.inr h
    | some c => exact Or.inl h
  rcases either h with h | h
  · exact entitled_of_own h
  rcases either h with h | h
  · obtain ⟨l, -, hl⟩ := List.exists_of_findSome?_eq_some h
    refine duplicate (fun c hc => ?_) hl
    obtain ⟨base, -, hbase⟩ := Option.bind_eq_some_iff.mp hc
    exact entitled_of_own hbase
  · obtain ⟨l, -, hl⟩ := List.exists_of_findSome?_eq_some h
    split at hl
    · exact duplicate (fun c hc => entitled_of_own hc) hl
    · exact nomatch hl

/-! ## No page has a hole -/

/-- The opcodes that the forms of a page encode. -/
def opcodes (forms : List (Mnemonic × Form)) (page : Page) : List Nat :=
  (forms.filter fun p => p.2.page = some page).flatMap fun p =>
    p.2.encodings.map fun encoding => encoding.1.toNat

/-- A byte that some form of the page encodes has an instruction of its own. -/
theorem isSome_own (h : opcode.toNat ∈ opcodes forms page) :
    ((ofForms forms page).own? opcode).isSome := by
  obtain ⟨⟨m, f⟩, hf, hopcode⟩ := List.mem_flatMap.mp h
  obtain ⟨hf, hpage⟩ := List.mem_filter.mp hf
  obtain ⟨encoding, hencoding, heq⟩ := List.mem_map.mp hopcode
  obtain ⟨l, hl, rfl, rfl⟩ := mem_forms.mpr ⟨hf, of_decide_eq_true hpage⟩
  refine List.find?_isSome.mpr ⟨l.entry encoding, ?_, decide_eq_true (UInt8.toNat_inj.mp heq)⟩
  exact List.mem_flatMap.mpr ⟨l, hl, List.mem_map.mpr ⟨encoding, hencoding, rfl⟩⟩

/-- So does a byte that repeats such a byte. -/
theorem isSome_repeated {m : Mnemonic} {f : Form} {base : Byte} (hf : (m, f) ∈ forms)
    (hpage : f.page = some page) (hbase : f.base? opcode = some base)
    (h : base.toNat ∈ opcodes forms page) : ((ofForms forms page).repeated? opcode).isSome := by
  obtain ⟨l, hl, rfl, rfl⟩ := mem_forms.mpr ⟨hf, hpage⟩
  obtain ⟨code, hcode⟩ := Option.isSome_iff_exists.mp (isSome_own h)
  refine List.findSome?_isSome_iff.mpr ⟨l, hl, ?_⟩
  rw [hbase, Option.bind_some, hcode]
  rfl

/-- And every byte of a page that some form fills. -/
theorem isSome_filler {m : Mnemonic} {f : Form} (hf : (m, f) ∈ forms)
    (hpage : f.page = some page) (hfills : f.duplicates = .fillUnused)
    (h : f.opcode.toNat ∈ opcodes forms page) : ((ofForms forms page).filler? opcode).isSome := by
  obtain ⟨l, hl, rfl, rfl⟩ := mem_forms.mpr ⟨hf, hpage⟩
  obtain ⟨code, hcode⟩ := Option.isSome_iff_exists.mp (isSome_own h)
  refine List.findSome?_isSome_iff.mpr ⟨l, hl, ?_⟩
  rw [if_pos hfills, hcode]
  rfl

/-- A byte to which nothing on the page gives an instruction is in none of the three ways there. -/
theorem instruction_eq_none (h : (ofForms forms page).instruction? opcode = none) :
    (ofForms forms page).own? opcode = none ∧ (ofForms forms page).repeated? opcode = none
      ∧ (ofForms forms page).filler? opcode = none := by
  rw [instruction?, Option.orElse_eq_orElse, Option.orElse_eq_or, Option.or_eq_none_iff,
    Option.orElse_eq_or, Option.or_eq_none_iff] at h
  exact h

/-- A set of numbers as the bits of one number. -/
def bits (numbers : List Nat) : Nat :=
  numbers.foldr (fun n set => set ||| 1 <<< n) 0

/-- The bits are those of the numbers. -/
theorem testBit_bits (numbers : List Nat) (n : Nat) :
    (bits numbers).testBit n = true ↔ n ∈ numbers := by
  induction numbers with
  | nil => simp only [bits, List.foldr_nil, Nat.zero_testBit, Bool.false_eq_true, List.not_mem_nil]
  | cons m rest ih =>
    rw [bits, List.foldr_cons, Nat.testBit_or, Bool.or_eq_true, ← bits, ih, List.mem_cons,
      or_comm, Nat.one_shiftLeft, Nat.testBit_two_pow, decide_eq_true_eq, eq_comm (a := m)]

/-- A set with all bits of a byte holds every byte. -/
theorem mem_of_bits_eq {numbers : List Nat} (h : bits numbers = 2 ^ 256 - 1) (opcode : Byte) :
    opcode.toNat ∈ numbers := by
  rw [← testBit_bits, h, Nat.testBit_two_pow_sub_one]
  exact decide_eq_true opcode.toNat_lt

end Listing

namespace Catalog

/-- Bytes to which a page gives another meaning than an encoding of its own: the prefixes on the
    main page, and on the bit pages behind an index prefix the tests that repeat others. -/
def besides : Page → List Nat
  | .main => [0xCB, 0xDD, 0xED, 0xFD]
  | .ddcb | .fdcb => (List.range 0x40).map (0x40 + ·)
  | _ => []

set_option maxRecDepth 4000 in
/-- On the main page and the bit pages the encodings and the bytes besides them are all there is. -/
theorem bits_opcodes (page : Page) (h : page = .main ∨ page = .cb ∨ page = .ddcb ∨ page = .fdcb) :
    Listing.bits (besides page ++ Listing.opcodes forms page) = 2 ^ 256 - 1 := by
  rcases h with rfl | rfl | rfl | rfl <;> decide +kernel

/-- The test of a bit at a displacement, which the bytes besides the encodings of its page repeat. -/
def displacedTest (page : Page) (x : Index) : Form :=
  { on page 0x46 4 indexBitTest [.field bitNumbers 3, .fixed (.indexed x)] with
    duplicates := .ignoredLowBits }

/-- Each of those bytes repeats some test. -/
theorem exists_base (page : Page) (x : Index) {opcode : Byte}
    (h : opcode.toNat ∈ (List.range 0x40).map (0x40 + ·)) :
    ∃ base, (displacedTest page x).base? opcode = some base
      ∧ base ∈ (displacedTest page x).encodings.map Prod.fst := by
  have hsome : ∀ n ∈ List.range 0x40,
      ((displacedTest page x).base? (UInt8.ofNat (0x40 + n))).isSome := by
    cases page <;> cases x <;> decide +kernel
  obtain ⟨n, hn, hopcode⟩ := List.mem_map.mp h
  obtain ⟨base, hbase⟩ := Option.isSome_iff_exists.mp (hsome n hn)
  rw [hopcode, UInt8.ofNat_toNat] at hbase
  have hfind : ((displacedTest page x).encodings.map Prod.fst).find?
      (fun base => base &&& 0xF8 = opcode &&& 0xF8) = some base := hbase
  exact ⟨base, hbase, List.mem_of_find?_eq_some hfind⟩

/-- A byte with no other meaning has an instruction on its page. -/
theorem exists_instruction {page : Page} {opcode : Byte} (hlead : page.lead? opcode = none)
    (hfallback : page.fallback? = none) :
    ∃ code, (Listing.ofForms forms page).instruction? opcode = some code := by
  refine Option.ne_none_iff_exists'.mp fun hnone => ?_
  obtain ⟨hown, hrepeated, hfiller⟩ := Listing.instruction_eq_none hnone
  -- an opcode without a form of its own leads on, repeats a test, or is filled up
  have besides_of (h : page = .main ∨ page = .cb ∨ page = .ddcb ∨ page = .fdcb) :
      opcode.toNat ∈ besides page := by
    rcases List.mem_append.mp (Listing.mem_of_bits_eq (bits_opcodes page h) opcode) with hb | ho
    · exact hb
    · exact absurd (Listing.isSome_own ho) (by rw [hown]; exact Bool.false_ne_true)
  have untested {x : Index} (hform : (Mnemonic.bit, displacedTest page x) ∈ forms)
      (hb : opcode.toNat ∈ (List.range 0x40).map (0x40 + ·)) : False := by
    obtain ⟨base, hbase, hmem⟩ := exists_base page x hb
    obtain ⟨encoding, hencoding, rfl⟩ := List.mem_map.mp hmem
    have hopcodes : encoding.1.toNat ∈ Listing.opcodes forms page :=
      List.mem_flatMap.mpr ⟨_, List.mem_filter.mpr ⟨hform, decide_eq_true rfl⟩,
        List.mem_map.mpr ⟨encoding, hencoding, rfl⟩⟩
    exact absurd (Listing.isSome_repeated hform rfl hbase hopcodes)
      (by rw [hrepeated]; exact Bool.false_ne_true)
  cases page with
  | dd | fd => exact nomatch hfallback
  | main =>
    have hb := besides_of (Or.inl rfl)
    simp only [besides, List.mem_cons, List.not_mem_nil, or_false] at hb
    rcases hb with h | h | h | h
    · obtain rfl : opcode = 0xCB := UInt8.toNat_inj.mp h
      exact nomatch hlead
    · obtain rfl : opcode = 0xDD := UInt8.toNat_inj.mp h
      exact nomatch hlead
    · obtain rfl : opcode = 0xED := UInt8.toNat_inj.mp h
      exact nomatch hlead
    · obtain rfl : opcode = 0xFD := UInt8.toNat_inj.mp h
      exact nomatch hlead
  | cb => exact nomatch besides_of (Or.inr (Or.inl rfl))
  | ed =>
    have hform : (Mnemonic.nop, { unlisted (on .ed 0x00 2 prefixed []) with
        duplicates := Duplicates.fillUnused }) ∈ forms := by decide +kernel
    have hopcodes : 0 ∈ Listing.opcodes forms .ed := by decide +kernel
    exact absurd (Listing.isSome_filler hform rfl rfl hopcodes)
      (by rw [hfiller]; exact Bool.false_ne_true)
  | ddcb =>
    have hform : (Mnemonic.bit, displacedTest .ddcb .ix) ∈ forms := by decide +kernel
    have hb := besides_of (Or.inr (Or.inr (Or.inl rfl)))
    rw [besides] at hb
    exact untested hform hb
  | fdcb =>
    have hform : (Mnemonic.bit, displacedTest .fdcb .iy) ∈ forms := by decide +kernel
    have hb := besides_of (Or.inr (Or.inr (Or.inr rfl)))
    rw [besides] at hb
    exact untested hform hb

end Catalog

/-! ## Looking a byte up -/

/-- What looking a byte up can come to: the byte leads on, or an index page hands it to the main
    page, or its entry is an encoding of a form of the page. -/
theorem decode_cases (page : Page) (opcode : Byte) :
    (∃ action, page.lead? opcode = some action ∧ (decode page opcode).action = action)
      ∨ ((page = .dd ∨ page = .fd) ∧ (decode page opcode).action = .redecode .main)
      ∨ Listing.Entitled Catalog.forms page (decode page opcode) := by
  have hdecode : decode page opcode
      = ((Listing.ofForms Catalog.forms page).lookup page (InstructionType.nop Catalog.types)
          opcode).getD { InstructionType.nop Catalog.types with page := some page, opcode } :=
    decode_eq_entry page opcode
  rw [hdecode, Listing.lookup]
  cases hlead : page.lead? opcode with
  | some action => exact Or.inl ⟨action, rfl, rfl⟩
  | none =>
    refine Or.inr ?_
    cases hinstruction : (Listing.ofForms Catalog.forms page).instruction? opcode with
    | some code => exact Or.inr (Listing.entitled_of_instruction hinstruction)
    | none =>
      cases page with
      | dd => exact Or.inl ⟨Or.inl rfl, rfl⟩
      | fd => exact Or.inl ⟨Or.inr rfl, rfl⟩
      | main | cb | ed | ddcb | fdcb =>
        obtain ⟨code, hcode⟩ := Catalog.exists_instruction hlead rfl
        exact nomatch hinstruction.symm.trans hcode

end Z80Board
