import Z80Board.Proofs.Isa.Scan

/-! # IX and IY mirrored

    The mirror image of a form has IY where the form has IX, and the other way round, and stands on the
    page of the other prefix.  The two index registers have the same codes, so a form and its image
    encode the same opcodes.

    The forms of each page are the images of those of the page that mirrors it; the main page, CB and ED
    have no index register at all and are their own images.  Therefore a byte is looked up on a page and
    on its mirror image with results that are images of each other.  The prefixes are the exception: DD
    leads to the page of IX wherever it is looked up, and its image is FD. -/

namespace Z80Board

/-! ## Images -/

/-- The other index register. -/
def Index.mirror : Index → Index
  | .ix => .iy
  | .iy => .ix

/-- The half of the other index register. -/
def Reg8.mirror : Reg8 → Reg8
  | .ixh => .iyh
  | .ixl => .iyl
  | .iyh => .ixh
  | .iyl => .ixl
  | reg => reg

/-- The other index register. -/
def Reg16.mirror : Reg16 → Reg16
  | .ix => .iy
  | .iy => .ix
  | rr => rr

namespace Operand

/-- The operand with the other index register. -/
def mirror : Operand → Operand
  | .reg8 reg => .reg8 reg.mirror
  | .reg16 rr => .reg16 rr.mirror
  | .indirect rr => .indirect rr.mirror
  | .indexed x => .indexed x.mirror
  | operand => operand

theorem mirror_mirror (operand : Operand) : operand.mirror.mirror = operand := by
  cases operand with
  | reg8 reg => cases reg <;> rfl
  | reg16 rr => cases rr <;> rfl
  | indirect rr => cases rr <;> rfl
  | indexed x => cases x <;> rfl
  | _ => rfl

theorem mirror_eq {operand other : Operand} : operand.mirror = other ↔ operand = other.mirror := by
  constructor
  · rintro rfl
    exact operand.mirror_mirror.symm
  · rintro rfl
    exact other.mirror_mirror

/-- It puts the same bits into the opcode. -/
theorem fieldCode_mirror (operand : Operand) : operand.mirror.fieldCode = operand.fieldCode := by
  cases operand with
  | reg8 reg => cases reg <;> rfl
  | reg16 rr => cases rr <;> rfl
  | _ => rfl

theorem isMemory_mirror (operand : Operand) : operand.mirror.isMemory = operand.isMemory := by
  cases operand <;> rfl

theorem index?_mirror (operand : Operand) :
    operand.mirror.index? = operand.index?.map Index.mirror := by
  cases operand <;> rfl

end Operand

namespace Page

/-- The page of the other prefix. -/
def mirror : Page → Page
  | .dd => .fd
  | .fd => .dd
  | .ddcb => .fdcb
  | .fdcb => .ddcb
  | page => page

/-- An index prefix in front of a byte that is looked up on the page is still a prefix there. -/
def plain (page : Page) : Bool :=
  page = .main || page = .dd || page = .fd

theorem plain_mirror (page : Page) : page.mirror.plain = page.plain := by
  cases page <;> rfl

theorem fallback?_mirror (page : Page) : page.mirror.fallback? = page.fallback? := by
  cases page <;> rfl

end Page

/-- The action on the other page. -/
def Action.mirror : Action → Action
  | .execute => .execute
  | .fetchNext page => .fetchNext page.mirror
  | .fetchDisplacement page => .fetchDisplacement page.mirror
  | .redecode page => .redecode page.mirror

/-- A byte leads to the same place on both pages, unless it is an index prefix. -/
theorem Page.lead?_mirror {page : Page} {opcode : Byte}
    (h : page = .main → ∀ x : Index, opcode ≠ x.selector) :
    page.mirror.lead? opcode = (page.lead? opcode).map Action.mirror := by
  cases page with
  | main =>
    have hdd : opcode ≠ 0xDD := h rfl .ix
    have hfd : opcode ≠ 0xFD := h rfl .iy
    simp only [mirror, lead?, if_neg hdd, if_neg hfd]
    split
    · rfl
    · split <;> rfl
  | dd | fd =>
    simp only [mirror, lead?]
    split <;> rfl
  | cb | ed | ddcb | fdcb => rfl

/-! ## Forms -/

/-- The slot with the other index register. -/
def Slot.mirror : Slot → Slot
  | .fixed operand => .fixed operand.mirror
  | .field operands shift => .field (operands.map Operand.mirror) shift

namespace Form

/-- The form with the other index register, on the page of the other prefix. -/
def mirror (form : Form) : Form :=
  { form with
    page := form.page.map Page.mirror
    slots := form.slots.map Slot.mirror }

theorem expand_mirror (opcode : Byte) (slots : List Slot) :
    expand opcode (slots.map Slot.mirror)
      = (expand opcode slots).map fun encoding => (encoding.1, encoding.2.map Operand.mirror) := by
  induction slots generalizing opcode with
  | nil => rfl
  | cons slot rest ih =>
    have hoperands : slot.mirror.operands = slot.operands.map Operand.mirror := by
      cases slot <;> rfl
    have hbits (operand : Operand) : slot.mirror.bits operand.mirror = slot.bits operand := by
      cases slot with
      | fixed _ => rfl
      | field _ shift =>
        show operand.mirror.fieldCode <<< shift.toUInt8 = _
        rw [operand.fieldCode_mirror]
        rfl
    rw [List.map_cons, expand, expand, hoperands, List.flatMap_map, List.map_flatMap]
    refine congrArg (fun encode => slot.operands.flatMap encode) (funext fun operand => ?_)
    rw [hbits, ih, List.map_map, List.map_map]
    rfl

/-- It encodes the same opcodes. -/
theorem encodings_mirror (form : Form) : form.mirror.encodings
    = form.encodings.map fun encoding => (encoding.1, encoding.2.map Operand.mirror) :=
  expand_mirror form.opcode form.slots

theorem base?_mirror (form : Form) (opcode : Byte) :
    form.mirror.base? opcode = form.base? opcode := by
  have hopcodes : form.mirror.encodings.map Prod.fst = form.encodings.map Prod.fst := by
    rw [encodings_mirror, List.map_map]
    rfl
  unfold base?
  rw [hopcodes]
  rfl

end Form

/-! ## Listings -/

namespace Instruction

/-- The instruction with the other index register. -/
def mirror (code : Instruction) : Instruction :=
  { code with
    page := code.page.map Page.mirror
    action := code.action.mirror
    operands := code.operands.map Operand.mirror }

/-- The instruction without its numbers in the catalog. -/
def unnumbered (code : Instruction) : Instruction :=
  { code with typeId := 0, variant := 0 }

/-- The instructions are mirror images, but for their numbers in the catalog. -/
def Mirrors (code image : Instruction) : Prop :=
  image.unnumbered = code.unnumbered.mirror

end Instruction

namespace ListedForm

/-- The form without its numbers. -/
def unnumbered (f : ListedForm) : ListedForm :=
  { f with typeId := 0, variant := 0 }

/-- The form without its numbers, with the other index register. -/
def image (f : ListedForm) : ListedForm :=
  { f.unnumbered with form := f.form.mirror }

/-- The entries for the encodings of the form. -/
def entries (f : ListedForm) : List Instruction :=
  f.form.encodings.map f.entry

theorem entries_unnumbered (f : ListedForm) :
    f.unnumbered.entries = f.entries.map Instruction.unnumbered := by
  rw [entries, entries, List.map_map]
  rfl

theorem entries_image (f : ListedForm) :
    f.image.entries = f.entries.map fun code => code.unnumbered.mirror := by
  rw [entries, show f.image.form = f.form.mirror from rfl, Form.encodings_mirror, List.map_map,
    entries, List.map_map]
  rfl

end ListedForm

namespace Listing

variable {l l' : Listing} {opcode : Byte}

/-- The forms of the second listing are the mirror images of those of the first one, in the same
    order. -/
structure Mirrors (l l' : Listing) : Prop where
  forms : l'.forms.map ListedForm.unnumbered = l.forms.map ListedForm.image
  own : l.own = l.forms.flatMap ListedForm.entries
  own' : l'.own = l'.forms.flatMap ListedForm.entries

namespace Mirrors

theorem own?_eq (h : l.Mirrors l') (opcode : Byte) :
    (l'.own? opcode).map Instruction.unnumbered
      = (l.own? opcode).map fun code => code.unnumbered.mirror := by
  have hown : l'.own.map Instruction.unnumbered
      = l.own.map fun code => code.unnumbered.mirror := by
    rw [h.own, h.own', List.map_flatMap, List.map_flatMap]
    simp only [← ListedForm.entries_unnumbered, ← ListedForm.entries_image]
    rw [← List.flatMap_map (f := ListedForm.unnumbered), h.forms, List.flatMap_map]
  have hfind := congrArg (List.find? fun code => decide (code.opcode = opcode)) hown
  rw [List.find?_map, List.find?_map] at hfind
  exact hfind

/-- What the first form gives that gives anything. -/
theorem findSome?_eq (h : l.Mirrors l') {give give' : ListedForm → Option Instruction}
    (hgive : ∀ f f', f'.unnumbered = f.image →
      (give' f').map Instruction.unnumbered = (give f).map fun code => code.unnumbered.mirror) :
    (l'.forms.findSome? give').map Instruction.unnumbered
      = (l.forms.findSome? give).map fun code => code.unnumbered.mirror := by
  have hforms := h.forms
  generalize l.forms = forms at hforms
  generalize l'.forms = forms' at hforms
  induction forms generalizing forms' with
  | nil =>
    obtain rfl := List.map_eq_nil_iff.mp hforms
    rfl
  | cons f rest ih =>
    cases forms' with
    | nil => cases hforms
    | cons f' rest' =>
      obtain ⟨hfirst, hrest⟩ := List.cons.inj hforms
      have hhere := hgive f f' hfirst
      rw [List.findSome?_cons, List.findSome?_cons]
      cases hf : give f with
      | none =>
        rw [hf] at hhere
        rw [Option.map_eq_none_iff.mp hhere]
        exact ih _ hrest
      | some code =>
        rw [hf] at hhere
        obtain ⟨code', hf', hcode⟩ := Option.map_eq_some_iff.mp hhere
        rw [hf']
        exact congrArg some hcode

theorem repeated?_eq (h : l.Mirrors l') (opcode : Byte) :
    (l'.repeated? opcode).map Instruction.unnumbered
      = (l.repeated? opcode).map fun code => code.unnumbered.mirror := by
  refine h.findSome?_eq fun f f' hf => ?_
  have hform : f'.form = f.form.mirror := congrArg ListedForm.form hf
  rw [hform, Form.base?_mirror]
  cases f.form.base? opcode with
  | none => rfl
  | some base =>
    have hown := congrArg (Option.map fun code => code.duplicateAt opcode) (h.own?_eq base)
    rw [Option.map_map, Option.map_map] at hown
    rw [Option.bind_some, Option.bind_some, Option.map_map, Option.map_map]
    exact hown

theorem filler?_eq (h : l.Mirrors l') (opcode : Byte) :
    (l'.filler? opcode).map Instruction.unnumbered
      = (l.filler? opcode).map fun code => code.unnumbered.mirror := by
  refine h.findSome?_eq fun f f' hf => ?_
  have hform : f'.form = f.form.mirror := congrArg ListedForm.form hf
  rw [hform]
  show Option.map _ (if f.form.duplicates = .fillUnused then _ else _) = _
  split
  · have hown := congrArg (Option.map fun code => code.duplicateAt opcode)
      (h.own?_eq f.form.opcode)
    rw [Option.map_map, Option.map_map] at hown
    rw [Option.map_map, Option.map_map]
    exact hown
  · rfl

/-- What the forms of the two pages give to a byte. -/
theorem instruction?_eq (h : l.Mirrors l') (opcode : Byte) :
    (l'.instruction? opcode).map Instruction.unnumbered
      = (l.instruction? opcode).map fun code => code.unnumbered.mirror := by
  have either {o o' : Option Instruction} {f : Instruction → Instruction} :
      (o <|> o').map f = (o.map f <|> o'.map f) := by
    cases o <;> rfl
  rw [instruction?, instruction?, either, either, either, either, h.own?_eq, h.repeated?_eq,
    h.filler?_eq]

end Mirrors

end Listing

/-! ## Looking a byte up -/

set_option maxRecDepth 4000 in
/-- The forms of a page are the mirror images of those of the other one. -/
theorem Catalog.listing_mirrors (page : Page) :
    (Listing.ofTypes types page).Mirrors (Listing.ofTypes types page.mirror) := by
  refine ⟨?_, rfl, rfl⟩
  cases page <;> decide +kernel

/-- Entries that lead on mirror each other if what they lead to does. -/
theorem Instruction.leadingOn_mirrors {nop : Instruction} (hnone : nop.operands = []) (page : Page)
    (opcode : Byte) (action : Action) :
    (nop.leadingOn page opcode action).Mirrors (nop.leadingOn page.mirror opcode action.mirror) := by
  cases nop
  cases hnone
  rfl

/-- A byte is looked up on the two pages with results that mirror each other, unless it is an index
    prefix. -/
theorem decode_mirrors {page : Page} {opcode : Byte}
    (h : page = .main → ∀ x : Index, opcode ≠ x.selector) :
    (decode page opcode).Mirrors (decode page.mirror opcode) := by
  have hlisting := (Catalog.listing_mirrors page).instruction?_eq opcode
  have hnop : (InstructionType.nop Catalog.types).operands = []
      ∧ (InstructionType.nop Catalog.types).action = .execute := by decide +kernel
  rw [decode_eq_entry, decode_eq_entry, InstructionType.entry, InstructionType.entry,
    InstructionType.entryIn, InstructionType.entryIn, Listing.lookup, Listing.lookup,
    Page.lead?_mirror h, Page.fallback?_mirror]
  generalize InstructionType.nop Catalog.types = nop at hnop ⊢
  obtain ⟨hoperands, haction⟩ := hnop
  have hleads := Instruction.leadingOn_mirrors hoperands page opcode
  -- both pages lead on at the same opcodes, hold the same ones, and fall back on the same action
  cases page.lead? opcode with
  | some action => exact hleads action
  | none =>
    dsimp only [Option.map_none]
    cases hcode : (Listing.ofTypes Catalog.types page).instruction? opcode with
    | some code =>
      rw [hcode] at hlisting
      obtain ⟨code', hcode', hmirrors⟩ := Option.map_eq_some_iff.mp hlisting
      rw [hcode']
      exact hmirrors
    | none =>
      rw [hcode] at hlisting
      rw [Option.map_eq_none_iff.mp hlisting]
      cases hfallback : page.fallback? with
      | some action =>
        have hsame : action.mirror = action := by
          cases page <;> cases hfallback <;> rfl
        have hhere := hleads action
        rw [hsame] at hhere
        exact hhere
      | none =>
        have hhere := hleads nop.action
        rw [haction] at hhere
        have hplain (page : Page) : ({ nop with page := some page, opcode } : Instruction)
            = nop.leadingOn page opcode .execute := by
          rw [← haction]
          rfl
        show Instruction.Mirrors { nop with page := some page, opcode }
          { nop with page := some page.mirror, opcode }
        rw [hplain, hplain]
        exact hhere

/-- An index prefix on the main page leads to the page of its register, and behind another one it is
    looked up there again. -/
theorem action_of_selector (x : Index) : (decode .main x.selector).action = .fetchNext x.page
    ∧ ∀ y : Index, (decode y.page x.selector).action = .redecode .main := by
  refine ⟨action_of_lead (by cases x <;> rfl), fun y => ?_⟩
  have hforeign : ¬ y.page.Owns x.selector := by
    cases x <;> cases y <;> decide +kernel
  exact action_of_foreign (by cases x <;> cases y <;> rfl) hforeign

/-! ## What the images have in common -/

namespace Instruction.Mirrors

variable {code image : Instruction}

/-- The parts of a mirror image. -/
theorem parts (h : code.Mirrors image) : image.action = code.action.mirror
    ∧ image.mnemonic = code.mnemonic ∧ image.operands = code.operands.map Operand.mirror
    ∧ image.timing = code.timing :=
  ⟨(congrArg action h :), (congrArg mnemonic h :), (congrArg operands h :), (congrArg timing h :)⟩

theorem operand (h : code.Mirrors image) (i : Nat) :
    image.operands[i]? = code.operands[i]?.map Operand.mirror := by
  rw [h.parts.2.2.1, List.getElem?_map]

theorem last (h : code.Mirrors image) :
    image.operands.getLast? = code.operands.getLast?.map Operand.mirror := by
  rw [h.parts.2.2.1, List.getLast?_map]

theorem memoryOperand?_eq (h : code.Mirrors image) :
    image.memoryOperand? = code.memoryOperand?.map Operand.mirror := by
  rw [memoryOperand?, memoryOperand?, h.parts.2.2.1, List.find?_map]
  refine congrArg (Option.map Operand.mirror) (congrArg (fun p => code.operands.find? p) ?_)
  exact funext Operand.isMemory_mirror

theorem index?_eq (h : code.Mirrors image) : image.index? = code.index?.map Index.mirror := by
  rw [index?, index?, h.parts.2.2.1, List.findSome?_map, List.map_findSome?]
  refine congrArg (fun f => code.operands.findSome? f) (funext Operand.index?_mirror)

theorem hasOperand_eq (h : code.Mirrors image) (operand : Operand) :
    image.hasOperand operand.mirror = code.hasOperand operand := by
  rw [hasOperand, hasOperand, h.parts.2.2.1, Bool.eq_iff_iff, List.contains_iff_mem,
    List.contains_iff_mem, List.mem_map]
  constructor
  · rintro ⟨other, hmem, hsame⟩
    rw [Operand.mirror_eq, Operand.mirror_mirror] at hsame
    exact hsame ▸ hmem
  · exact fun hmem => ⟨operand, hmem, rfl⟩

end Instruction.Mirrors

end Z80Board
