import Z80Board.Isa.Catalog
import Z80Board.Isa.Listing

/-! # Opcode tables

    The seven pages as tables of 256 entries, made once from the catalog, together with the
    operations that the chip performs without an opcode.  Looking a byte up gives the entry that the
    listing of its page has.  Two claims to one byte, a byte without an entry, and a timing that
    breaks a rule are problems of the catalog. -/

namespace Z80Board

/-- A catalog that the tables cannot be made from. -/
inductive TableError where
  | conflict (page : Page) (opcode : Byte) (first second : Mnemonic)
  | missing (page : Page) (opcode : Byte)
  | timing (mnemonic : Mnemonic) (variant : Nat) (source : TimingError)
deriving DecidableEq, Repr

/-- What the error says. -/
def TableError.message : TableError → String
  | .conflict page opcode first second =>
    page.name ++ " " ++ opcode.hex ++ " is claimed by both " ++ first.name ++ " and "
      ++ second.name
  | .missing page opcode => page.name ++ " " ++ opcode.hex ++ " decodes to nothing"
  | .timing mnemonic variant source =>
    mnemonic.name ++ " variant " ++ toString variant ++ ": " ++ source.message

/-- The entry of the no-op, where a catalog names none. -/
def Instruction.plainNop : Instruction :=
  { page := some .main
    opcode := 0
    action := .execute
    typeId := 0
    variant := 0
    mnemonic := .nop
    operands := []
    size := 1
    timing := .fixed ⟨[⟨.opcodeFetch, 4⟩], 4⟩
    undocumented := false
    duplicate := false }

namespace InstructionType

/-! ## Entries of a catalog -/

/-- The entry of the no-op. -/
def nop (types : List InstructionType) : Instruction :=
  ((Listing.ofTypes types .main).instruction? 0).getD .plainNop

/-- The entry of a byte, given the listing of its page.  A byte without an entry is a no-op. -/
def entryIn (nop : Instruction) (page : Page) (listing : Listing) (opcode : Byte) : Instruction :=
  (listing.lookup page nop opcode).getD { nop with page := some page, opcode }

/-- The entry of a byte on a page. -/
def entry (types : List InstructionType) (page : Page) (opcode : Byte) : Instruction :=
  entryIn (nop types) page (.ofTypes types page) opcode

/-- All entries of a page, by opcode. -/
def table (types : List InstructionType) (page : Page) : Vector Instruction 256 :=
  let nop := nop types
  let listing := Listing.ofTypes types page
  Vector.ofFn fun n => entryIn nop page listing (UInt8.ofNat n)

/-- The table of a page holds the entries of its bytes. -/
theorem get_table (types : List InstructionType) (page : Page) (opcode : Byte) :
    (table types page).get ⟨opcode.toNat, opcode.toNat_lt⟩ = entry types page opcode := by
  have get_ofFn {n : Nat} (f : Fin n → Instruction) (i : Fin n) :
      (Vector.ofFn f).get i = f i := by
    simp only [Vector.get, Vector.toArray_ofFn, Array.getElem_ofFn]
    rfl
  rw [table, get_ofFn, UInt8.ofNat_toNat, entry]

/-- The entry of an internal operation.  It has the first operand that its form names. -/
def internalEntry (types : List InstructionType) (op : InternalOp) : Instruction :=
  let (mnemonic, variant) := op.form
  let form? := (ListedForm.ofTypes types).find? fun f =>
    f.mnemonic = mnemonic ∧ f.variant = variant
  match form? with
  | none => nop types
  | some f =>
    { f.entry (0, (f.form.slots.head?.bind fun slot => slot.operands.head?).toList) with
      page := none
      size := 0
      undocumented := false }

/-! ## Problems of a catalog -/

/-- The timings that break a rule. -/
def timingProblems (types : List InstructionType) : List TableError :=
  (ListedForm.ofTypes types).filterMap fun f =>
    match f.form.timing.validate with
    | .ok () => none
    | .error source => some (.timing f.mnemonic f.variant source)

/-- What is wrong with one byte of a page. -/
def entryProblem? (nop : Instruction) (page : Page) (listing : Listing) (opcode : Byte) :
    Option TableError :=
  match listing.claims opcode with
  | first :: second :: _ => some (.conflict page opcode first.mnemonic second.mnemonic)
  | _ => if (listing.lookup page nop opcode).isNone then some (.missing page opcode) else none

/-- What is wrong with the bytes of a page. -/
def pageProblems (types : List InstructionType) (page : Page) : List TableError :=
  let nop := nop types
  let listing := Listing.ofTypes types page
  (List.range 256).filterMap fun n => entryProblem? nop page listing n.toUInt8

end InstructionType

/-! ## The tables -/

/-- The tables of all pages and the entries of the internal operations. -/
structure Decoder where
  types : List InstructionType
  main : Vector Instruction 256
  cb : Vector Instruction 256
  dd : Vector Instruction 256
  ed : Vector Instruction 256
  fd : Vector Instruction 256
  ddcb : Vector Instruction 256
  fdcb : Vector Instruction 256
  nmi : Instruction
  intMode1 : Instruction
  intMode2 : Instruction
  haltNop : Instruction

namespace Decoder

/-- Make the tables from a catalog. -/
def ofTypes (types : List InstructionType) : Decoder :=
  { types
    main := InstructionType.table types .main
    cb := InstructionType.table types .cb
    dd := InstructionType.table types .dd
    ed := InstructionType.table types .ed
    fd := InstructionType.table types .fd
    ddcb := InstructionType.table types .ddcb
    fdcb := InstructionType.table types .fdcb
    nmi := InstructionType.internalEntry types .nmi
    intMode1 := InstructionType.internalEntry types .intMode1
    intMode2 := InstructionType.internalEntry types .intMode2
    haltNop := InstructionType.internalEntry types .haltNop }

/-- The table of a page. -/
def table (d : Decoder) : Page → Vector Instruction 256
  | .main => d.main
  | .cb => d.cb
  | .dd => d.dd
  | .ed => d.ed
  | .fd => d.fd
  | .ddcb => d.ddcb
  | .fdcb => d.fdcb

/-- The entry of a byte on a page. -/
def decode (d : Decoder) (page : Page) (opcode : Byte) : Instruction :=
  (d.table page).get ⟨opcode.toNat, opcode.toNat_lt⟩

/-- The entry of an internal operation. -/
def internal (d : Decoder) : InternalOp → Instruction
  | .nmi => d.nmi
  | .intMode1 => d.intMode1
  | .intMode2 => d.intMode2
  | .haltNop => d.haltNop

/-- The timing of a form, by the numbers of type and form. -/
def timingOf (d : Decoder) (typeId variant : Nat) : Option Timings :=
  (d.types[typeId]?.bind fun type => type.forms[variant]?).map Form.timing

/-- The first problem of the catalog, if there is one. -/
def validate (d : Decoder) : Except TableError Unit :=
  match InstructionType.timingProblems d.types
      ++ Page.all.flatMap (InstructionType.pageProblems d.types) with
  | [] => .ok ()
  | problem :: _ => .error problem

/-- The tables are those of the catalog. -/
theorem table_ofTypes (types : List InstructionType) (page : Page) :
    (ofTypes types).table page = InstructionType.table types page := by
  cases page <;> rfl

/-- The tables hold what the listings of the catalog say. -/
theorem decode_ofTypes (types : List InstructionType) (page : Page) (opcode : Byte) :
    (ofTypes types).decode page opcode = InstructionType.entry types page opcode := by
  rw [decode, table_ofTypes, ← InstructionType.get_table]

/-- The internal operations are those of the catalog. -/
theorem internal_ofTypes (types : List InstructionType) (op : InternalOp) :
    (ofTypes types).internal op = InstructionType.internalEntry types op := by
  cases op <;> rfl

end Decoder

/-- The tables of the instruction set, which every chip shares. -/
def decoder : Decoder :=
  .ofTypes Catalog.types

/-- The entry of a byte on a page of the instruction set. -/
def decode (page : Page) (opcode : Byte) : Instruction :=
  decoder.decode page opcode

/-- Looking a byte up gives the entry that the listing of its page has. -/
theorem decode_eq_entry (page : Page) (opcode : Byte) :
    decode page opcode = InstructionType.entry Catalog.types page opcode :=
  Decoder.decode_ofTypes Catalog.types page opcode

end Z80Board
