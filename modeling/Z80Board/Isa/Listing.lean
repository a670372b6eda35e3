import Z80Board.Isa.Instruction

/-! # What stands on a page

    Every byte of a page has an entry.  Of those that have a say in it the first in this order has
    its way: a prefix byte leads on to another page; an encoding of a form stands where the form
    puts it; an opcode that repeats another one, or differs from it only in bits that do not count,
    stands for that one; a form may fill its page; and what is still open on an index page is
    decoded on the main page. -/

namespace Z80Board

/-! ## Forms of a page -/

/-- A form with its mnemonic and its numbers in the catalog. -/
structure ListedForm where
  mnemonic : Mnemonic
  typeId : Nat
  variant : Nat
  form : Form
deriving DecidableEq, Repr

namespace ListedForm

/-- The forms of some types with their numbers. -/
def ofTypes (types : List InstructionType) : List ListedForm :=
  types.zipIdx.flatMap fun (type, typeId) =>
    type.forms.zipIdx.map fun (form, variant) => ⟨type.mnemonic, typeId, variant, form⟩

/-- The entry for one encoding of the form. -/
def entry (f : ListedForm) (encoding : Byte × List Operand) : Instruction :=
  { page := f.form.page
    opcode := encoding.1
    action := .execute
    typeId := f.typeId
    variant := f.variant
    mnemonic := f.mnemonic
    operands := encoding.2
    size := f.form.size
    timing := f.form.timing
    undocumented := f.form.undocumented
    duplicate := false }

end ListedForm

/-- The opcode that a byte repeats by a form, if it repeats one. -/
def Form.base? (form : Form) (opcode : Byte) : Option Byte :=
  match form.duplicates with
  | .none | .fillUnused => none
  | .repeats pairs => pairs.lookup opcode
  | .ignoredLowBits =>
    (form.encodings.map Prod.fst).find? fun base => base &&& 0xF8 = opcode &&& 0xF8

namespace Instruction

/-- The same instruction under another opcode. -/
def duplicateAt (code : Instruction) (opcode : Byte) : Instruction :=
  { code with opcode, duplicate := true }

/-- The no-op, as an entry for a byte that leads on. -/
def leadingOn (nop : Instruction) (page : Page) (opcode : Byte) (action : Action) : Instruction :=
  { nop with page := some page, opcode, action }

end Instruction

/-! ## Bytes that lead on -/

namespace Page

/-- What a prefix byte of the page leads to. -/
def lead? (page : Page) (opcode : Byte) : Option Action :=
  match page with
  | .main =>
    if opcode = 0xCB then some (.fetchNext .cb)
    else if opcode = 0xDD then some (.fetchNext .dd)
    else if opcode = 0xED then some (.fetchNext .ed)
    else if opcode = 0xFD then some (.fetchNext .fd)
    else none
  | .dd => if opcode = 0xCB then some (.fetchDisplacement .ddcb) else none
  | .fd => if opcode = 0xCB then some (.fetchDisplacement .fdcb) else none
  | _ => none

/-- What a byte that nothing on the page claims leads to. -/
def fallback? : Page → Option Action
  | .dd | .fd => some (.redecode .main)
  | _ => none

end Page

/-! ## Listings -/

/-- One page of a catalog: its forms, and the entries of their encodings in order. -/
structure Listing where
  forms : List ListedForm
  own : List Instruction

namespace Listing

/-- The listing of a page. -/
def ofTypes (types : List InstructionType) (page : Page) : Listing :=
  let forms := (ListedForm.ofTypes types).filter fun f => f.form.page = some page
  ⟨forms, forms.flatMap fun f => f.form.encodings.map f.entry⟩

/-- The first encoding of a form that is this byte. -/
def own? (l : Listing) (opcode : Byte) : Option Instruction :=
  l.own.find? fun code => code.opcode = opcode

/-- The instruction that the byte repeats. -/
def repeated? (l : Listing) (opcode : Byte) : Option Instruction :=
  l.forms.findSome? fun f =>
    ((f.form.base? opcode).bind l.own?).map fun code => code.duplicateAt opcode

/-- The instruction that fills the page. -/
def filler? (l : Listing) (opcode : Byte) : Option Instruction :=
  l.forms.findSome? fun f =>
    if f.form.duplicates = .fillUnused then
      (l.own? f.form.opcode).map fun code => code.duplicateAt opcode
    else none

/-- The instruction that the forms of the page give to the byte. -/
def instruction? (l : Listing) (opcode : Byte) : Option Instruction :=
  l.own? opcode <|> l.repeated? opcode <|> l.filler? opcode

/-- The entry of the byte, given that of the no-op. -/
def lookup (l : Listing) (page : Page) (nop : Instruction) (opcode : Byte) : Option Instruction :=
  match page.lead? opcode with
  | some action => some (nop.leadingOn page opcode action)
  | none => l.instruction? opcode <|> page.fallback?.map (nop.leadingOn page opcode)

/-- Everything that claims the byte for itself: encodings, and opcodes named as repeating one. -/
def claims (l : Listing) (opcode : Byte) : List Instruction :=
  (l.own.filter fun code => code.opcode = opcode) ++ l.forms.filterMap fun f =>
    match f.form.duplicates with
    | .repeats pairs => (pairs.lookup opcode).bind l.own?
    | _ => none

end Listing

end Z80Board
