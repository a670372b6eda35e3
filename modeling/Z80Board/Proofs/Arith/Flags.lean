import Z80Board.Arith.Flags

/-! # Flags read through a mask

    A flag byte is put together from masks.  A mask read back from it gives the parts that lie
    within it, and nothing of the parts that lie apart from it. -/

namespace Z80Board

namespace Flag

variable {f mask bits : Byte} {more : Bool}

theorem or_and (a b mask : Byte) : (a ||| b) &&& mask = (a &&& mask) ||| (b &&& mask) := by
  refine UInt8.toBitVec_inj.mp ?_
  rw [UInt8.toBitVec_and, UInt8.toBitVec_or, UInt8.toBitVec_or, UInt8.toBitVec_and,
    UInt8.toBitVec_and]
  grind

/-- Some bits are none of others. -/
theorem and_apart (h : bits &&& mask = 0) : (f &&& bits) &&& mask = 0 := by
  rw [UInt8.and_assoc, h, UInt8.and_zero]

theorem and_within (h : bits &&& mask = mask) : (f &&& bits) &&& mask = f &&& mask := by
  rw [UInt8.and_assoc, h]

theorem when_apart (h : bits &&& mask = 0) : Flag.when more bits &&& mask = 0 := by
  cases more
  · exact UInt8.zero_and
  · exact h

theorem when_within (h : bits &&& mask = bits) :
    Flag.when more bits &&& mask = Flag.when more bits := by
  cases more
  · exact UInt8.zero_and
  · exact h

/-- A flag is set in a union if it is set in a part. -/
theorem test_or (a b mask : Byte) : test (a ||| b) mask = (test a mask || test b mask) := by
  rw [test, or_and]
  refine Bool.eq_iff_iff.mpr ?_
  rw [Bool.or_eq_true, test, test, bne_iff_ne, bne_iff_ne, bne_iff_ne, Ne, UInt8.or_eq_zero_iff,
    Decidable.not_and_iff_not_or_not]

theorem test_apart (h : bits &&& mask = 0) : test (f &&& bits) mask = false := by
  rw [test, and_apart h]
  rfl

theorem test_when_apart (h : bits &&& mask = 0) : test (Flag.when more bits) mask = false := by
  rw [test, when_apart h]
  rfl

/-- Bits set on a condition are seen on the condition. -/
theorem test_when_bits : test (Flag.when more bits) mask = (more && test bits mask) := by
  cases more with
  | false => rw [test, Flag.when, if_neg Bool.false_ne_true, UInt8.zero_and]; rfl
  | true => rfl

/-- A flag that a condition sets tells the condition. -/
theorem test_when (hmask : mask ≠ 0) : test (Flag.when more mask) mask = more := by
  rw [test_when_bits, test, UInt8.and_self, bne_iff_ne.mpr hmask, Bool.and_true]

/-- A result gives none of the flags that its digits and carries set. -/
theorem test_sz53 (hsigns : (sign ||| xy) &&& mask = 0) (hzero : zero &&& mask = 0) (b : Byte) :
    test (sz53 b) mask = false := by
  rw [sz53, test_or, test_apart hsigns, test_when_apart hzero]
  rfl

/-! ## Sums and differences -/

/-- The flag byte of a sum or difference: S, Y and X come from the top byte of the result, and each
    other flag has its condition. -/
def row (top : Byte) (n z h p c : Bool) : Byte :=
  (top &&& (sign ||| xy)) ||| Flag.when n subtract ||| Flag.when z zero ||| Flag.when h half
    ||| Flag.when p parity ||| Flag.when c carry

variable (top : Byte) (n z h p c : Bool)

/-- Flags that the result does not give come from the conditions. -/
theorem test_row (hmask : (sign ||| xy) &&& mask = 0) : test (row top n z h p c) mask
    = (n && test subtract mask || z && test zero mask || h && test half mask || p && test parity mask
      || c && test carry mask) := by
  rw [row, test_or, test_or, test_or, test_or, test_or, test_apart hmask, test_when_bits,
    test_when_bits, test_when_bits, test_when_bits, test_when_bits, Bool.false_or]

theorem test_row_subtract : test (row top n z h p c) subtract = n := by
  refine (test_row top n z h p c (by decide)).trans ?_
  change (n && true || z && false || h && false || p && false || c && false) = n
  simp

theorem test_row_zero : test (row top n z h p c) zero = z := by
  refine (test_row top n z h p c (by decide)).trans ?_
  change (n && false || z && true || h && false || p && false || c && false) = z
  simp

theorem test_row_half : test (row top n z h p c) half = h := by
  refine (test_row top n z h p c (by decide)).trans ?_
  change (n && false || z && false || h && true || p && false || c && false) = h
  simp

theorem test_row_parity : test (row top n z h p c) parity = p := by
  refine (test_row top n z h p c (by decide)).trans ?_
  change (n && false || z && false || h && false || p && true || c && false) = p
  simp

theorem test_row_carry : test (row top n z h p c) carry = c := by
  refine (test_row top n z h p c (by decide)).trans ?_
  change (n && false || z && false || h && false || p && false || c && true) = c
  simp

/-- Without Z it does not matter what Z is. -/
theorem row_and_not_zero (z' : Bool) :
    row top n z h p c &&& ~~~zero = row top n z' h p c &&& ~~~zero := by
  have hnone (z : Bool) : Flag.when z zero &&& ~~~zero = 0 := when_apart (by decide)
  simp only [row, or_and, hnone]

/-- The copied bits and the carries alone. -/
theorem row_and_carries : row top n z h p c &&& (half ||| carry ||| y ||| x)
    = (top &&& xy) ||| Flag.when h half ||| Flag.when c carry := by
  have hsubtract : Flag.when n subtract &&& (half ||| carry ||| y ||| x) = 0 := when_apart (by decide)
  have hzero : Flag.when z zero &&& (half ||| carry ||| y ||| x) = 0 := when_apart (by decide)
  have hparity : Flag.when p parity &&& (half ||| carry ||| y ||| x) = 0 := when_apart (by decide)
  have hhalf : Flag.when h half &&& (half ||| carry ||| y ||| x) = Flag.when h half :=
    when_within (by decide)
  have hcarry : Flag.when c carry &&& (half ||| carry ||| y ||| x) = Flag.when c carry :=
    when_within (by decide)
  simp only [row, or_and, hsubtract, hzero, hparity, hhalf, hcarry, UInt8.or_zero]
  rw [UInt8.and_assoc]
  rfl

end Flag

end Z80Board
