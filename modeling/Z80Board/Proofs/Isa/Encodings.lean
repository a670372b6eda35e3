import Mathlib.Algebra.Group.Nat.Defs
import Mathlib.Data.List.Lex
import Mathlib.Data.List.Nodup
import Z80Board.Isa.Catalog
import Z80Board.Proofs.Arith.Flags

/-! # What a pattern expands to

    A choice takes one operand from every slot.  The encodings of a form are those of its choices,
    in the order of a dictionary: the first slot counts most, and the last one varies fastest.  They
    are as many as the lengths of the slots multiply to.

    Fields can be told apart if each of them gives different codes to its operands, keeps all their
    bits, and shares no bit with another field or with the base opcode.  Then the fields can be read
    back from an opcode, and no two choices come to the same one. -/

namespace Z80Board

namespace Slot

/-! ## Choices -/

/-- A choice is told by the place that it takes in each slot. -/
def IsChoice (slots : List Slot) (choice : List Nat) : Prop :=
  List.Forall₂ (fun slot place => place < slot.operands.length) slots choice

/-- All choices, in the order of a dictionary. -/
def choices : List Slot → List (List Nat)
  | [] => [[]]
  | slot :: rest =>
    (List.range slot.operands.length).flatMap fun place => (choices rest).map (place :: ·)

theorem mem_choices {slots : List Slot} {choice : List Nat} :
    choice ∈ choices slots ↔ IsChoice slots choice := by
  induction slots generalizing choice with
  | nil => rw [choices, List.mem_singleton, IsChoice, List.forall₂_nil_left_iff]
  | cons slot rest ih =>
    simp only [choices, List.mem_flatMap, List.mem_range, List.mem_map, ih]
    constructor
    · rintro ⟨place, hplace, choice, hchoice, rfl⟩
      exact .cons hplace hchoice
    · rintro (_ | ⟨hplace, hchoice⟩)
      exact ⟨_, hplace, _, hchoice, rfl⟩

/-- Each choice comes after all those before it in the dictionary. -/
theorem choices_sorted (slots : List Slot) : (choices slots).Pairwise (· < ·) := by
  induction slots with
  | nil => exact List.pairwise_singleton _ _
  | cons slot rest ih =>
    rw [choices, List.pairwise_flatMap]
    refine ⟨fun place _ => ?_, ?_⟩
    -- choices that agree on the first slot are in the order of the later slots
    · exact ih.map _ fun _ _ hlt => List.cons_lt_cons_iff.mpr (Or.inr ⟨rfl, hlt⟩)
    · refine List.pairwise_lt_range.imp fun {place place'} hlt choice hchoice choice' hchoice' => ?_
      obtain ⟨_, -, rfl⟩ := List.mem_map.mp hchoice
      obtain ⟨_, -, rfl⟩ := List.mem_map.mp hchoice'
      exact List.cons_lt_cons_iff.mpr (Or.inl hlt)

theorem choices_nodup (slots : List Slot) : (choices slots).Nodup :=
  (choices_sorted slots).imp ne_of_lt

/-! ## The encoding of a choice -/

/-- The field of the slot lies within the opcode. -/
def Fits : Slot → Prop
  | .fixed _ => True
  | .field _ shift => shift < 8

instance : (slot : Slot) → Decidable slot.Fits
  | .fixed _ => inferInstanceAs (Decidable True)
  | .field _ shift => inferInstanceAs (Decidable (shift < 8))

/-- The code of an operand, shifted into the field. -/
def fieldBits : Slot → Operand → Byte
  | .fixed _, _ => 0
  | .field _ shift, operand => .ofNat (operand.fieldCode.toNat * 2 ^ shift)

/-- What the operand at a place of the slot gives to the opcode. -/
def bitsAt (slot : Slot) (place : Nat) : Byte :=
  (slot.operands[place]?.map slot.fieldBits).getD 0

/-- What a choice gives to the opcode. -/
def fields (slots : List Slot) (choice : List Nat) : Byte :=
  (List.zipWith bitsAt slots choice).foldr (· ||| ·) 0

@[simp] theorem fields_cons (slot : Slot) (rest : List Slot) (place : Nat) (choice : List Nat) :
    fields (slot :: rest) (place :: choice) = slot.bitsAt place ||| fields rest choice :=
  rfl

/-- The operand that a choice takes for a position; behind the last slot there is none. -/
def operandAt (slots : List Slot) (choice : List Nat) (position : Nat) : Option Operand :=
  slots[position]?.bind fun slot => choice[position]?.bind fun place => slot.operands[place]?

/-- An opcode and operands are the encoding of a choice on top of a base opcode. -/
structure Encodes (base : Byte) (slots : List Slot) (choice : List Nat)
    (encoding : Byte × List Operand) : Prop where
  opcode : encoding.1 = base ||| fields slots choice
  operands : ∀ position, encoding.2[position]? = operandAt slots choice position

variable {slot : Slot} {slots rest : List Slot} {base : Byte} {operand : Operand} {place : Nat}
  {choice choice' : List Nat}

theorem bits_eq_fieldBits (h : slot.Fits) (operand : Operand) :
    slot.bits operand = slot.fieldBits operand := by
  cases slot with
  | fixed _ => rfl
  | field operands shift =>
    have hshift : shift.toUInt8.toNat % 8 = shift :=
      (Nat.mod_mod_of_dvd shift (by decide)).trans (Nat.mod_eq_of_lt h)
    refine UInt8.toNat_inj.mp ?_
    rw [bits, fieldBits, UInt8.toNat_shiftLeft, hshift, UInt8.toNat_ofNat', Nat.shiftLeft_eq]

theorem bitsAt_of_getElem (h : slot.operands[place]? = some operand) :
    slot.bitsAt place = slot.fieldBits operand := by
  rw [bitsAt, h]
  rfl

/-- One more slot in front puts its operand first and its bits on top of the base. -/
theorem Encodes.cons {encoding : Byte × List Operand}
    (hplace : slot.operands[place]? = some operand)
    (h : Encodes (base ||| slot.fieldBits operand) rest choice encoding) :
    Encodes base (slot :: rest) (place :: choice) (encoding.1, operand :: encoding.2) where
  opcode := by
    rw [h.opcode, fields_cons, bitsAt_of_getElem hplace, UInt8.or_assoc]
  operands
    | 0 => hplace.symm
    | position + 1 => h.operands position

/-- The operands of a slot in order, each with its place. -/
theorem places_operands (operands : List Operand) :
    List.Forall₂ (fun place operand => operands[place]? = some operand)
      (List.range operands.length) operands := by
  refine List.forall₂_iff_get.mpr ⟨List.length_range, fun i hplace hoperand => ?_⟩
  rw [List.get_eq_getElem, List.get_eq_getElem, List.getElem_range]
  exact List.getElem?_eq_getElem hoperand

/-- Expanding gives the encodings of all choices in order. -/
theorem encodes_expand (hfits : ∀ slot ∈ slots, slot.Fits) (base : Byte) :
    List.Forall₂ (Encodes base slots) (choices slots) (Form.expand base slots) := by
  -- for any base, since the later slots are expanded on top of what the first one gives
  induction slots generalizing base with
  | nil => exact .cons ⟨(UInt8.or_zero).symm, fun _ => rfl⟩ .nil
  | cons slot rest ih =>
    refine List.rel_flatMap (places_operands slot.operands) fun place operand hplace => ?_
    rw [List.forall₂_map_left_iff, List.forall₂_map_right_iff,
      bits_eq_fieldBits (hfits slot List.mem_cons_self)]
    exact (ih (fun later h => hfits later (List.mem_cons_of_mem _ h)) _).imp
      fun _ _ h => h.cons hplace

/-! ## Reading the fields back -/

/-- The codes of the operands are different, and shifting them into the field loses none of their
    bits. -/
def Legible : Slot → Prop
  | .fixed _ => True
  | .field operands shift => (operands.map Operand.fieldCode).Nodup
      ∧ ∀ operand ∈ operands, operand.fieldCode.toNat * 2 ^ shift < 256

instance : (slot : Slot) → Decidable slot.Legible
  | .fixed _ => inferInstanceAs (Decidable True)
  | .field _ _ => inferInstanceAs (Decidable (_ ∧ _))

/-- Two slots use different bits of the opcode. -/
def Apart (slot other : Slot) : Prop :=
  ∀ operand ∈ slot.operands, ∀ operand' ∈ other.operands,
    slot.fieldBits operand &&& other.fieldBits operand' = 0

instance (slot other : Slot) : Decidable (slot.Apart other) :=
  inferInstanceAs (Decidable (∀ _ ∈ _, ∀ _ ∈ _, _))

/-- A place gives the bits of an operand, or no bits at all. -/
theorem bitsAt_cases (slot : Slot) (place : Nat) :
    slot.bitsAt place = 0
      ∨ ∃ operand ∈ slot.operands, slot.bitsAt place = slot.fieldBits operand := by
  cases h : slot.operands[place]? with
  | none => exact Or.inl (by rw [bitsAt, h]; rfl)
  | some operand => exact Or.inr ⟨operand, List.mem_of_getElem? h, bitsAt_of_getElem h⟩

/-- Bits that are in no operand of a slot are in none of its places. -/
theorem and_bitsAt {bits : Byte}
    (h : ∀ operand ∈ slot.operands, bits &&& slot.fieldBits operand = 0) (place : Nat) :
    bits &&& slot.bitsAt place = 0 := by
  rcases bitsAt_cases slot place with hnone | ⟨operand, hmem, hbits⟩
  · rw [hnone, UInt8.and_zero]
  · rw [hbits, h operand hmem]

/-- Bits that are in no slot are in no choice. -/
theorem and_fields {bits : Byte}
    (h : ∀ slot ∈ slots, ∀ operand ∈ slot.operands, bits &&& slot.fieldBits operand = 0)
    (choice : List Nat) : bits &&& fields slots choice = 0 := by
  induction slots generalizing choice with
  | nil => exact UInt8.and_zero
  | cons slot rest ih =>
    cases choice with
    | nil => exact UInt8.and_zero
    | cons place choice =>
      have hrest := ih (fun later hmem => h later (List.mem_cons_of_mem _ hmem)) choice
      have hplace := and_bitsAt (h slot List.mem_cons_self) place
      rw [UInt8.and_comm] at hrest hplace ⊢
      rw [fields_cons, Flag.or_and, hplace, hrest, UInt8.or_self]

/-- The field of a slot tells the place. -/
theorem Legible.place_inj (h : slot.Legible) {place place' : Nat}
    (hplace : place < slot.operands.length) (hplace' : place' < slot.operands.length)
    (heq : slot.bitsAt place = slot.bitsAt place') : place = place' := by
  cases slot with
  | fixed operand => exact (Nat.lt_one_iff.mp hplace).trans (Nat.lt_one_iff.mp hplace').symm
  | field operands shift =>
    obtain ⟨hcodes, hroom⟩ := h
    have hget := List.getElem?_eq_getElem hplace
    have hget' := List.getElem?_eq_getElem hplace'
    rw [bitsAt_of_getElem hget, bitsAt_of_getElem hget', fieldBits, fieldBits] at heq
    have hvalue := congrArg UInt8.toNat heq
    rw [UInt8.toNat_ofNat_of_lt' (hroom _ (List.getElem_mem hplace)),
      UInt8.toNat_ofNat_of_lt' (hroom _ (List.getElem_mem hplace'))] at hvalue
    have hcode := UInt8.toNat_inj.mp (Nat.eq_of_mul_eq_mul_right (Nat.two_pow_pos shift) hvalue)
    have hin : place < (operands.map Operand.fieldCode).length := by rwa [List.length_map]
    have hin' : place' < (operands.map Operand.fieldCode).length := by rwa [List.length_map]
    have hsame :
        (operands.map Operand.fieldCode)[place] = (operands.map Operand.fieldCode)[place'] := by
      rw [List.getElem_map, List.getElem_map]
      exact hcode
    exact hcodes.getElem_inj_iff.mp hsame

/-- A union holds its parts. -/
theorem or_and_left (a b : Byte) : (a ||| b) &&& a = a := by
  refine UInt8.toBitVec_inj.mp ?_
  rw [UInt8.toBitVec_and, UInt8.toBitVec_or]
  grind

/-- Equal unions have equal parts if neither of the first parts has a bit of the other second
    part. -/
theorem parts_eq_of_or_eq {x y x' y' : Byte} (hx : x &&& y' = 0) (hx' : x' &&& y = 0)
    (heq : x ||| y = x' ||| y') : x = x' ∧ y = y' := by
  have within {a b c d : Byte} (hapart : a &&& d = 0) (heq : a ||| b = c ||| d) : a = c &&& a := by
    calc a = (a ||| b) &&& a := (or_and_left a b).symm
      _ = (c &&& a) ||| (d &&& a) := by rw [heq, Flag.or_and]
      _ = c &&& a := by rw [UInt8.and_comm d, hapart, UInt8.or_zero]
  have left {a b c d : Byte} (hapart : a &&& d = 0) (hapart' : c &&& b = 0)
      (heq : a ||| b = c ||| d) : a = c := by
    calc a = c &&& a := within hapart heq
      _ = a &&& c := UInt8.and_comm _ _
      _ = c := (within hapart' heq.symm).symm
  have hy : y &&& x' = 0 := by rw [UInt8.and_comm, hx']
  have hy' : y' &&& x = 0 := by rw [UInt8.and_comm, hx]
  have hcomm : y ||| x = y' ||| x' := by rw [UInt8.or_comm, heq, UInt8.or_comm]
  exact ⟨left hx hx' heq, left hy hy' hcomm⟩

/-- Slots that are apart from a slot stay apart from it together. -/
theorem bitsAt_and_fields (hapart : ∀ later ∈ rest, slot.Apart later) (place : Nat)
    (choice : List Nat) : slot.bitsAt place &&& fields rest choice = 0 := by
  refine and_fields (fun later hmem operand hoperand => ?_) choice
  rw [UInt8.and_comm]
  refine and_bitsAt (fun operand' hoperand' => ?_) place
  rw [UInt8.and_comm]
  exact hapart later hmem operand' hoperand' operand hoperand

/-- Fields that can be told apart tell the choice. -/
theorem fields_inj (hlegible : ∀ slot ∈ slots, slot.Legible) (hapart : slots.Pairwise Apart)
    (hchoice : IsChoice slots choice) (hchoice' : IsChoice slots choice')
    (heq : fields slots choice = fields slots choice') : choice = choice' := by
  induction hchoice generalizing choice' with
  | nil => exact (List.forall₂_nil_left_iff.mp hchoice').symm
  | @cons slot place rest choice hplace hchoice ih =>
    obtain ⟨place', choice', hplace', hrest', rfl⟩ := List.forall₂_cons_left_iff.mp hchoice'
    obtain ⟨hfirst, hlater⟩ := List.pairwise_cons.mp hapart
    rw [fields_cons, fields_cons] at heq
    obtain ⟨hplaces, hfields⟩ := parts_eq_of_or_eq (bitsAt_and_fields hfirst place choice')
      (bitsAt_and_fields hfirst place' choice) heq
    rw [(hlegible slot List.mem_cons_self).place_inj hplace hplace' hplaces,
      ih (fun later hmem => hlegible later (List.mem_cons_of_mem _ hmem)) hlater hrest' hfields]

end Slot

namespace Form

variable {form : Form} {base : Byte} {slots : List Slot}

/-! ## Forms -/

/-- The fields of a form can be told apart from each other and from the base opcode. -/
structure FieldsApart (form : Form) : Prop where
  legible : ∀ slot ∈ form.slots, slot.Legible
  base : ∀ slot ∈ form.slots, ∀ operand ∈ slot.operands, form.opcode &&& slot.fieldBits operand = 0
  fields : form.slots.Pairwise Slot.Apart

instance (form : Form) : Decidable form.FieldsApart :=
  decidable_of_iff (_ ∧ _ ∧ _)
    ⟨fun ⟨hlegible, hbase, hfields⟩ => ⟨hlegible, hbase, hfields⟩,
      fun h => ⟨h.legible, h.base, h.fields⟩⟩

/-- The base opcode makes no difference to how many encodings there are. -/
theorem length_expand (base : Byte) (slots : List Slot) :
    (expand base slots).length = (slots.map fun slot => slot.operands.length).prod := by
  induction slots generalizing base with
  | nil => rfl
  | cons slot rest ih =>
    simp only [expand, List.length_flatMap, List.length_map, ih, List.map_const',
      List.sum_replicate_nat, List.map_cons, List.prod_cons]

theorem length_encodings (form : Form) : form.encodings.length = form.opcodeCount := by
  rw [encodings, length_expand, opcodeCount, List.prod_eq_foldl]

/-- The opcodes are those of the choices. -/
theorem opcodes_eq (hfits : ∀ slot ∈ form.slots, slot.Fits) :
    form.encodings.map Prod.fst = (Slot.choices form.slots).map fun choice =>
      form.opcode ||| Slot.fields form.slots choice := by
  refine Eq.symm ?_
  rw [← List.forall₂_eq_eq_eq, List.forall₂_map_left_iff, List.forall₂_map_right_iff]
  exact (Slot.encodes_expand hfits form.opcode).imp fun _ _ h => h.opcode.symm

/-- A form whose fields can be told apart has no opcode twice. -/
theorem FieldsApart.nodup_opcodes (h : form.FieldsApart) (hfits : ∀ slot ∈ form.slots, slot.Fits) :
    (form.encodings.map Prod.fst).Nodup := by
  rw [opcodes_eq hfits]
  refine (Slot.choices_nodup form.slots).map_on fun choice hchoice choice' hchoice' heq => ?_
  have hbase (choice : List Nat) : form.opcode &&& Slot.fields form.slots choice = 0 :=
    Slot.and_fields h.base choice
  exact Slot.fields_inj h.legible h.fields (Slot.mem_choices.mp hchoice)
    (Slot.mem_choices.mp hchoice')
    (Slot.parts_eq_of_or_eq (hbase choice') (hbase choice) heq).2

/-- A form has one encoding for every choice of operands, in the order of a dictionary: the base
    opcode with the codes of the operands in their fields, and the operands in the order of the
    slots.  The lengths of the slots multiply to the number of encodings.  If the fields can be told
    apart, no two encodings have the same opcode. -/
theorem encodes_choices (form : Form) (hfits : ∀ slot ∈ form.slots, slot.Fits) :
    (∃ choices : List (List Nat), choices.Pairwise (· < ·)
        ∧ (∀ choice, choice ∈ choices ↔ Slot.IsChoice form.slots choice)
        ∧ List.Forall₂ (Slot.Encodes form.opcode form.slots) choices form.encodings)
      ∧ form.encodings.length = form.opcodeCount
      ∧ (form.FieldsApart → (form.encodings.map Prod.fst).Nodup) :=
  ⟨⟨Slot.choices form.slots, Slot.choices_sorted form.slots, fun _ => Slot.mem_choices,
      Slot.encodes_expand hfits form.opcode⟩,
    length_encodings form, fun hapart => hapart.nodup_opcodes hfits⟩

/-- The load of a byte register from another one: the fields of its 49 opcodes can be told apart,
    and the load of C from D has the opcode 4A. -/
theorem encodes_register_loads :
    let form := Catalog.on .main 0x40 1 Catalog.single
      [.field Catalog.bytes 3, .field Catalog.bytes 0]
    (∀ slot ∈ form.slots, slot.Fits) ∧ form.FieldsApart
      ∧ form.encodings.length = 49 ∧ (form.encodings.map Prod.fst).Nodup
      ∧ ∃ operands, (0x4A, operands) ∈ form.encodings ∧ operands[0]? = some (.reg8 .c)
        ∧ operands[1]? = some (.reg8 .d) ∧ operands[2]? = none := by
  intro form
  have hfits : ∀ slot ∈ form.slots, slot.Fits := by decide
  have hapart : form.FieldsApart := by decide +kernel
  obtain ⟨⟨choices, -, hmem, hencodes⟩, hlength, hnodup⟩ := encodes_choices form hfits
  have hchoice : Slot.IsChoice form.slots [1, 2] := .cons (by decide) (.cons (by decide) .nil)
  obtain ⟨place, hplace, hget⟩ := List.mem_iff_getElem.mp ((hmem _).mpr hchoice)
  have hplace' : place < form.encodings.length := hencodes.length_eq ▸ hplace
  have hencoding : Slot.Encodes form.opcode form.slots [1, 2] form.encodings[place] :=
    hget ▸ hencodes.get hplace hplace'
  have hopcode : form.encodings[place].1 = 0x4A := hencoding.opcode.trans (by decide +kernel)
  refine ⟨hfits, hapart, hlength, hnodup hapart, form.encodings[place].2, ?_, hencoding.operands 0,
    hencoding.operands 1, hencoding.operands 2⟩
  rw [← hopcode]
  exact List.getElem_mem hplace'

end Form

namespace Catalog

/-- Every form of the catalog has its fields within the opcode, and they can be told apart. -/
theorem fieldsApart_of_mem {m : Mnemonic} {f : Form} (hf : (m, f) ∈ forms) :
    (∀ slot ∈ f.slots, slot.Fits) ∧ f.FieldsApart := by
  have hall : ∀ p ∈ forms, (∀ slot ∈ p.2.slots, slot.Fits) ∧ p.2.FieldsApart := by
    decide +kernel
  exact hall (m, f) hf

/-- So no form claims an opcode twice. -/
theorem nodup_opcodes_of_mem {m : Mnemonic} {f : Form} (hf : (m, f) ∈ forms) :
    (f.encodings.map Prod.fst).Nodup :=
  (fieldsApart_of_mem hf).2.nodup_opcodes (fieldsApart_of_mem hf).1

end Catalog

end Z80Board
