import Z80Board.Arith.Word
import Z80Board.Proofs.Arith.Decimal
import Z80Board.Proofs.Arith.Halves

/-! # Words, byte by byte and as numbers

    A sum or difference of two words is that of their low bytes followed by that of their high bytes,
    with the carry flag of the first going into the second; the flags are those of the high bytes, but
    for Z.  As numbers the words add and subtract modulo two to the sixteenth, C tells that the
    unsigned result is out of range, and P/V that the signed one is. -/

namespace Z80Board

/-! ## What the flags say -/

section

variable (v w : Word) (carry : Bool)

theorem toNat_lowDigits : (v &&& 0x0FFF).toNat = v.toNat % 0x1000 := by
  rw [UInt16.toNat_and]
  exact Nat.and_two_pow_sub_one_eq_mod v.toNat 12

theorem adc16_flags : (adc16 v w carry).flags = Flag.row (Word.high (adc16 v w carry).value) false
    ((adc16 v w carry).value == 0)
    (decide (v.toNat % 0x1000 + w.toNat % 0x1000 + carry.toNat > 0xFFF))
    ((v ^^^ w) &&& 0x8000 == 0 && (v ^^^ (adc16 v w carry).value) &&& 0x8000 != 0)
    (decide (v.toNat + w.toNat + carry.toNat > 0xFFFF)) := by
  rw [← toNat_lowDigits, ← toNat_lowDigits, Flag.row, show Flag.when false _ = 0 from rfl,
    UInt8.or_zero]
  rfl

theorem sbc16_flags : (sbc16 v w carry).flags = Flag.row (Word.high (sbc16 v w carry).value) true
    ((sbc16 v w carry).value == 0)
    (decide (v.toNat % 0x1000 < w.toNat % 0x1000 + carry.toNat))
    ((v ^^^ w) &&& 0x8000 != 0 && (v ^^^ (sbc16 v w carry).value) &&& 0x8000 != 0)
    (decide (v.toNat < w.toNat + carry.toNat)) := by
  rw [← toNat_lowDigits, ← toNat_lowDigits]
  rfl

end

/-! ## Signs -/

/-- The top bit of a number is read through its mask. -/
theorem sign_masked {w : Nat} (x : BitVec (w + 1)) :
    (x &&& BitVec.twoPow (w + 1) w == 0) = !x.msb := by
  rw [BitVec.and_twoPow, BitVec.msb_eq_getLsbD_last, Nat.add_sub_cancel]
  cases x.getLsbD w with
  | false => rfl
  | true =>
    rw [if_pos rfl]
    refine beq_eq_false_iff_ne.mpr fun hzero => ?_
    have htop := congrArg BitVec.toNat hzero
    rw [BitVec.toNat_twoPow_of_lt (Nat.lt_succ_self w)] at htop
    exact absurd htop (Nat.ne_of_gt (Nat.two_pow_pos w))

/-- Two bytes have the same sign. -/
theorem sameSign_byte (x y : Byte) : ((x ^^^ y) &&& 0x80 == 0)
    = (decide (0x80 ≤ x.toNat) == decide (0x80 ≤ y.toNat)) := by
  have hmask : ((x ^^^ y) &&& 0x80 == 0) = !(x ^^^ y).toBitVec.msb := by
    rw [← sign_masked, Bool.eq_iff_iff, beq_iff_eq, beq_iff_eq, ← UInt8.toBitVec_inj]
    rfl
  rw [hmask, UInt8.toBitVec_xor, BitVec.msb_xor, BitVec.msb_eq_decide, BitVec.msb_eq_decide]
  exact Bool.not_not _

/-- Two words have the same sign. -/
theorem sameSign_word (x y : Word) : ((x ^^^ y) &&& 0x8000 == 0)
    = (decide (0x8000 ≤ x.toNat) == decide (0x8000 ≤ y.toNat)) := by
  have hmask : ((x ^^^ y) &&& 0x8000 == 0) = !(x ^^^ y).toBitVec.msb := by
    rw [← sign_masked, Bool.eq_iff_iff, beq_iff_eq, beq_iff_eq, ← UInt16.toBitVec_inj]
    rfl
  rw [hmask, UInt16.toBitVec_xor, BitVec.msb_xor, BitVec.msb_eq_decide, BitVec.msb_eq_decide]
  exact Bool.not_not _

/-- The sign of a word is that of its high byte. -/
theorem Word.sign_high (w : Word) :
    decide (0x80 ≤ (Word.high w).toNat) = decide (0x8000 ≤ w.toNat) := by
  rw [Word.toNat_high, decide_eq_decide]
  omega

/-- Two words have the same sign if their high bytes have. -/
theorem sign_halves (x y : Word) : ((x ^^^ y) &&& 0x8000 == 0)
    = ((Word.high x ^^^ Word.high y) &&& 0x80 == 0) := by
  rw [sameSign_word, sameSign_byte, Word.sign_high, Word.sign_high]

/-- As a signed number a word is less by two to the sixteenth if its top bit is set. -/
theorem Word.toInt_cases (w : Word) :
    0x8000 ≤ w.toNat ∧ w.toInt16.toInt = (w.toNat : Int) - 0x10000
      ∨ w.toNat < 0x8000 ∧ w.toInt16.toInt = w.toNat := by
  have hsigned : w.toInt16.toInt = w.toBitVec.toInt := rfl
  rw [hsigned, BitVec.toInt_eq_toNat_cond, UInt16.toNat_toBitVec]
  split
  · exact Or.inr ⟨by omega, rfl⟩
  · exact Or.inl ⟨by omega, rfl⟩

/-! ## Values -/

section

variable (a b : Byte) (v w : Word) (carry : Bool)

/-- A sum and its carry make up what was added. -/
theorem add8_balance : (add8 a b carry).value.toNat
    + 256 * (Flag.test (add8 a b carry).flags Flag.carry).toNat
      = a.toNat + b.toNat + carry.toNat := by
  have ha := a.toNat_lt
  have hb := b.toNat_lt
  have hone := carry.toNat_le
  rw [carry_of_add8, toNat_add8]
  by_cases hover : a.toNat + b.toNat + carry.toNat > 255
  · rw [decide_eq_true hover, Bool.toNat_true]
    omega
  · rw [decide_eq_false hover, Bool.toNat_false]
    omega

/-- A difference makes up for what was taken away, but for what was borrowed. -/
theorem sub8_balance : (sub8 a b carry).value.toNat + b.toNat + carry.toNat
    = a.toNat + 256 * (Flag.test (sub8 a b carry).flags Flag.carry).toNat := by
  have ha := a.toNat_lt
  have hb := b.toNat_lt
  have hone := carry.toNat_le
  rw [carry_of_sub8, toNat_sub8]
  by_cases hborrow : a.toNat < b.toNat + carry.toNat
  · rw [decide_eq_true hborrow, Bool.toNat_true]
    omega
  · rw [decide_eq_false hborrow, Bool.toNat_false]
    omega

theorem toNat_adc16 : (adc16 v w carry).value.toNat
    = (v.toNat + w.toNat + carry.toNat) % 0x10000 := by
  simp [adc16]

theorem toNat_sbc16 : (sbc16 v w carry).value.toNat
    = (0x10000 - carry.toNat + (0x10000 - w.toNat + v.toNat) % 0x10000) % 0x10000 := by
  have hborrow : carry.toUInt16.toNat = carry.toNat := by cases carry <;> rfl
  rw [sbc16, UInt16.toNat_sub, UInt16.toNat_sub, hborrow]

end

/-! ## Byte by byte -/

/-- Two words combined half by half: the low bytes with the carry, and the high bytes with the carry
    flag that these leave.  Gives the result of the high bytes and that of the low ones. -/
def byHalves (op : Byte → Byte → Bool → Flagged Byte) (v w : Word) (carry : Bool) :
    Flagged Byte × Flagged Byte :=
  let low := op (Word.low v) (Word.low w) carry
  (op (Word.high v) (Word.high w) (Flag.test low.flags Flag.carry), low)

/-- A result on words is put together from those of the halves.  Its flags are those of the high
    bytes, but for Z. -/
structure Flagged.Joins (r : Flagged Word) (halves : Flagged Byte × Flagged Byte) : Prop where
  value : r.value = Word.ofBytes halves.1.value halves.2.value
  flags : r.flags &&& ~~~Flag.zero = halves.1.flags &&& ~~~Flag.zero
  zero : Flag.test r.flags Flag.zero = true ↔ r.value = 0

/-- It is if the values fit together, and the flags have the same conditions. -/
theorem Flagged.joins_of {r : Flagged Word} {high low : Flagged Byte} {n z h p c : Bool}
    (hvalue : r.value.toNat = 256 * high.value.toNat + low.value.toNat)
    (hflags : r.flags = Flag.row high.value n (r.value == 0) h p c)
    (hhigh : high.flags = Flag.row high.value n z h p c) : r.Joins (high, low) := by
  have hword : r.value = Word.ofBytes high.value low.value := by
    refine UInt16.toNat_inj.mp ?_
    rw [hvalue, Word.toNat_ofBytes]
  refine ⟨hword, ?_, ?_⟩
  · rw [hflags, hhigh]
    exact Flag.row_and_not_zero ..
  · rw [hflags, Flag.test_row_zero, beq_iff_eq]

variable (v w : Word) (carry : Bool)

theorem adc16_joins : (adc16 v w carry).Joins (byHalves add8 v w carry) := by
  have hlow := add8_balance (Word.low v) (Word.low w) carry
  rw [byHalves]
  -- of the low bytes nothing matters but that their sum and its carry balance
  generalize add8 (Word.low v) (Word.low w) carry = low at hlow ⊢
  generalize Flag.test low.flags Flag.carry = passed at hlow ⊢
  rw [Word.toNat_low, Word.toNat_low] at hlow
  have hone := passed.toNat_le
  have hsmall := low.value.toNat_lt
  have hvalue : (adc16 v w carry).value.toNat
      = 256 * (add8 (Word.high v) (Word.high w) passed).value.toNat + low.value.toNat := by
    rw [toNat_adc16, toNat_add8, Word.toNat_high, Word.toNat_high]
    omega
  have htop : Word.high (adc16 v w carry).value = (add8 (Word.high v) (Word.high w) passed).value := by
    refine UInt8.toNat_inj.mp ?_
    rw [Word.toNat_high]
    omega
  have hhalf : decide (v.toNat % 0x1000 + w.toNat % 0x1000 + carry.toNat > 0xFFF)
      = decide ((Word.high v).toNat % 16 + (Word.high w).toNat % 16 + passed.toNat > 15) := by
    rw [Word.toNat_high, Word.toNat_high, decide_eq_decide]
    omega
  have hover : decide (v.toNat + w.toNat + carry.toNat > 0xFFFF)
      = decide ((Word.high v).toNat + (Word.high w).toNat + passed.toNat > 255) := by
    rw [Word.toNat_high, Word.toNat_high, decide_eq_decide]
    omega
  have hflags := adc16_flags v w carry
  rw [bne, sign_halves, sign_halves, hhalf, hover, htop] at hflags
  exact Flagged.joins_of hvalue hflags (add8_flags (Word.high v) (Word.high w) passed)

theorem sbc16_joins : (sbc16 v w carry).Joins (byHalves sub8 v w carry) := by
  have hlow := sub8_balance (Word.low v) (Word.low w) carry
  rw [byHalves]
  generalize sub8 (Word.low v) (Word.low w) carry = low at hlow ⊢
  generalize Flag.test low.flags Flag.carry = passed at hlow ⊢
  rw [Word.toNat_low, Word.toNat_low] at hlow
  have hone := passed.toNat_le
  have hone' := carry.toNat_le
  have hsmall := low.value.toNat_lt
  have hv := v.toNat_lt
  have hw := w.toNat_lt
  have hvalue : (sbc16 v w carry).value.toNat
      = 256 * (sub8 (Word.high v) (Word.high w) passed).value.toNat + low.value.toNat := by
    rw [toNat_sbc16, toNat_sub8, Word.toNat_high, Word.toNat_high]
    omega
  have htop : Word.high (sbc16 v w carry).value = (sub8 (Word.high v) (Word.high w) passed).value := by
    refine UInt8.toNat_inj.mp ?_
    rw [Word.toNat_high]
    omega
  have hhalf : decide (v.toNat % 0x1000 < w.toNat % 0x1000 + carry.toNat)
      = decide ((Word.high v).toNat % 16 < (Word.high w).toNat % 16 + passed.toNat) := by
    rw [Word.toNat_high, Word.toNat_high, decide_eq_decide]
    omega
  have hover : decide (v.toNat < w.toNat + carry.toNat)
      = decide ((Word.high v).toNat < (Word.high w).toNat + passed.toNat) := by
    rw [Word.toNat_high, Word.toNat_high, decide_eq_decide]
    omega
  have hflags := sbc16_flags v w carry
  rw [bne, bne, sign_halves, sign_halves, hhalf, hover, htop] at hflags
  exact Flagged.joins_of hvalue hflags (sub8_flags (Word.high v) (Word.high w) passed)

/-! ## As numbers -/

/-- A result on words is that of an operation on numbers, unsigned and signed: it is right modulo two
    to the sixteenth, and C and P/V tell whether the numbers are out of range. -/
structure Flagged.Reckons (r : Flagged Word) (unsigned signed : Int) : Prop where
  value : (r.value.toNat : Int) = unsigned % 0x10000
  carry : Flag.test r.flags Flag.carry = true ↔ ¬ (0 ≤ unsigned ∧ unsigned ≤ 0xFFFF)
  overflow : Flag.test r.flags Flag.parity = true ↔ ¬ (-0x8000 ≤ signed ∧ signed ≤ 0x7FFF)

theorem adc16_reckons : (adc16 v w carry).Reckons (v.toNat + w.toNat + carry.toNat)
    (v.toInt16.toInt + w.toInt16.toInt + carry.toNat) := by
  have hv := v.toNat_lt
  have hw := w.toNat_lt
  have hone := carry.toNat_le
  have hvalue := toNat_adc16 v w carry
  refine ⟨by omega, ?_, ?_⟩
  · rw [adc16_flags, Flag.test_row_carry, decide_eq_true_iff]
    omega
  · have hsigned := v.toInt_cases
    have hsigned' := w.toInt_cases
    rw [adc16_flags, Flag.test_row_parity, bne, sameSign_word, sameSign_word, Bool.and_eq_true,
      Bool.not_eq_true', beq_iff_eq, beq_eq_false_iff_ne, Ne, decide_eq_decide, decide_eq_decide]
    omega

theorem sbc16_reckons : (sbc16 v w carry).Reckons (v.toNat - w.toNat - carry.toNat)
    (v.toInt16.toInt - w.toInt16.toInt - carry.toNat) := by
  have hv := v.toNat_lt
  have hw := w.toNat_lt
  have hone := carry.toNat_le
  have hvalue := toNat_sbc16 v w carry
  -- P/V compares signs, and which of the two cases a signed number is in tells its sign
  refine ⟨by omega, ?_, ?_⟩
  · rw [sbc16_flags, Flag.test_row_carry, decide_eq_true_iff]
    omega
  · have hsigned := v.toInt_cases
    have hsigned' := w.toInt_cases
    rw [sbc16_flags, Flag.test_row_parity, bne, bne, sameSign_word, sameSign_word, Bool.and_eq_true,
      Bool.not_eq_true', Bool.not_eq_true', beq_eq_false_iff_ne, beq_eq_false_iff_ne, Ne, Ne,
      decide_eq_decide, decide_eq_decide]
    omega

/-- A sum without a carry in, of which only some flags are given. -/
theorem add16_eq : (add16 v w).value = (adc16 v w false).value
    ∧ (add16 v w).flags
      = (adc16 v w false).flags &&& (Flag.half ||| Flag.carry ||| Flag.y ||| Flag.x) := by
  refine ⟨rfl, ?_⟩
  rw [adc16_flags, Flag.row_and_carries, ← toNat_lowDigits, ← toNat_lowDigits]
  rfl

/-- What has been added can be taken away again. -/
theorem sbc16_adc16 : (sbc16 (adc16 v w carry).value w carry).value = v := by
  have hv := v.toNat_lt
  have hw := w.toNat_lt
  have hone := carry.toNat_le
  refine UInt16.toNat_inj.mp ?_
  rw [toNat_sbc16, toNat_adc16]
  omega

/-- Arithmetic on words is arithmetic on their halves, and on numbers.  A sum or difference with a
    carry is that of the low bytes and then, with the carry that these leave, that of the high bytes;
    the flags are those of the high bytes, but Z tells whether the word is zero.  Its value is the sum
    or difference modulo two to the sixteenth, C tells that the unsigned result is out of range, and
    P/V that the signed one is.  The sum without a carry has the same value, and only H, C, Y and X.
    A difference undoes a sum. -/
theorem word_arithmetic :
    (adc16 v w carry).Joins (byHalves add8 v w carry)
      ∧ (adc16 v w carry).Reckons (v.toNat + w.toNat + carry.toNat)
        (v.toInt16.toInt + w.toInt16.toInt + carry.toNat)
      ∧ (sbc16 v w carry).Joins (byHalves sub8 v w carry)
      ∧ (sbc16 v w carry).Reckons (v.toNat - w.toNat - carry.toNat)
        (v.toInt16.toInt - w.toInt16.toInt - carry.toNat)
      ∧ (add16 v w).value = (adc16 v w false).value
      ∧ (add16 v w).flags
        = (adc16 v w false).flags &&& (Flag.half ||| Flag.carry ||| Flag.y ||| Flag.x)
      ∧ (sbc16 (adc16 v w carry).value w carry).value = v := by
  obtain ⟨hsame, hsome⟩ := add16_eq v w
  exact ⟨adc16_joins v w carry, adc16_reckons v w carry, sbc16_joins v w carry,
    sbc16_reckons v w carry, hsame, hsome, sbc16_adc16 v w carry⟩

end Z80Board
