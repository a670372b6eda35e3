import Mathlib.Tactic.LinearCombination
import Mathlib.Tactic.Zify
import Z80Board.Arith.Decimal
import Z80Board.Proofs.Arith.Flags

/-! # Decimal numbers of any length

    A number is written two decimal digits to a byte, least significant byte first.  Two numbers of
    one length are added byte by byte: the sum of two bytes and the carry is adjusted, and the carry
    flag of the adjustment goes into the next byte.  A difference is formed in the same way.  What
    comes out are the digits of the sum or difference, and the last carry is what did not fit. -/

namespace Z80Board

/-! ## What the flags of an operation say -/

section Operations

variable (a b f : Byte) (carry : Bool)

theorem toNat_lowDigit : (a &&& 0x0F).toNat = a.toNat % 16 := by
  rw [UInt8.toNat_and]
  exact Nat.and_two_pow_sub_one_eq_mod a.toNat 4

theorem add8_flags : (add8 a b carry).flags = Flag.row (add8 a b carry).value false
    ((add8 a b carry).value == 0) (decide (a.toNat % 16 + b.toNat % 16 + carry.toNat > 15))
    ((a ^^^ b) &&& 0x80 == 0 && (a ^^^ (add8 a b carry).value) &&& 0x80 != 0)
    (decide (a.toNat + b.toNat + carry.toNat > 255)) := by
  rw [← toNat_lowDigit, ← toNat_lowDigit, Flag.row, show Flag.when false _ = 0 from rfl,
    UInt8.or_zero]
  rfl

theorem sub8_flags : (sub8 a b carry).flags = Flag.row (sub8 a b carry).value true
    ((sub8 a b carry).value == 0) (decide (a.toNat % 16 < b.toNat % 16 + carry.toNat))
    ((a ^^^ b) &&& 0x80 != 0 && (a ^^^ (sub8 a b carry).value) &&& 0x80 != 0)
    (decide (a.toNat < b.toNat + carry.toNat)) := by
  rw [← toNat_lowDigit, ← toNat_lowDigit, Flag.row, UInt8.or_assoc _ (Flag.when true _),
    UInt8.or_comm (Flag.when true _), ← UInt8.or_assoc]
  rfl

theorem half_of_add8 : Flag.test (add8 a b carry).flags Flag.half
    = decide (a.toNat % 16 + b.toNat % 16 + carry.toNat > 15) := by
  rw [add8_flags, Flag.test_row_half]

theorem carry_of_add8 : Flag.test (add8 a b carry).flags Flag.carry
    = decide (a.toNat + b.toNat + carry.toNat > 255) := by
  rw [add8_flags, Flag.test_row_carry]

theorem subtract_of_add8 : Flag.test (add8 a b carry).flags Flag.subtract = false := by
  rw [add8_flags, Flag.test_row_subtract]

theorem half_of_sub8 : Flag.test (sub8 a b carry).flags Flag.half
    = decide (a.toNat % 16 < b.toNat % 16 + carry.toNat) := by
  rw [sub8_flags, Flag.test_row_half]

theorem carry_of_sub8 : Flag.test (sub8 a b carry).flags Flag.carry
    = decide (a.toNat < b.toNat + carry.toNat) := by
  rw [sub8_flags, Flag.test_row_carry]

theorem subtract_of_sub8 : Flag.test (sub8 a b carry).flags Flag.subtract = true := by
  rw [sub8_flags, Flag.test_row_subtract]

theorem toNat_add8 : (add8 a b carry).value.toNat = (a.toNat + b.toNat + carry.toNat) % 256 := by
  simp [add8]

theorem toNat_sub8 : (sub8 a b carry).value.toNat
    = (256 - carry.toNat + (256 - b.toNat + a.toNat) % 256) % 256 := by
  have hborrow : carry.toUInt8.toNat = carry.toNat := by cases carry <;> rfl
  rw [sub8, UInt8.toNat_sub, UInt8.toNat_sub, hborrow]

theorem carry_of_daa : Flag.test (daa a f).flags Flag.carry
    = (Flag.test f Flag.carry || decide (a.toNat > 0x99)) := by
  rw [daa, Flag.test_or, Flag.test_or, Flag.test_or, sz53p, Flag.test_or,
    Flag.test_sz53 (by decide) (by decide), Flag.test_when_apart (by decide),
    Flag.test_apart (by decide), Flag.test_when_apart (by decide), Flag.test_when (by decide)]
  rfl

/-- An adjustment corrects by six in either digit. -/
theorem toNat_corrections (lower upper : Bool) :
    (Flag.when lower 0x06 ||| Flag.when upper 0x60).toNat = 6 * lower.toNat + 96 * upper.toNat := by
  cases lower <;> cases upper <;> rfl

end Operations

/-- A result adjusted by the flags that it came with. -/
def Flagged.adjusted (r : Flagged Byte) : Flagged Byte := daa r.value r.flags

/-- A digit is corrected if the operation carried out of it or left it too large.  The correction
    goes on top of a sum and comes off a difference; that of the upper digit is the new carry. -/
theorem Flagged.adjusted_eq (r : Flagged Byte) : ∃ lower upper : Bool,
    lower = (Flag.test r.flags Flag.half || decide (r.value.toNat % 16 > 9))
      ∧ upper = (Flag.test r.flags Flag.carry || decide (r.value.toNat > 0x99))
      ∧ Flag.test r.adjusted.flags Flag.carry = upper
      ∧ r.adjusted.value.toNat
        = if Flag.test r.flags Flag.subtract = true
          then (256 - (6 * lower.toNat + 96 * upper.toNat) + r.value.toNat) % 256
          else (r.value.toNat + (6 * lower.toNat + 96 * upper.toNat)) % 256 := by
  refine ⟨_, _, rfl, rfl, carry_of_daa _ _, ?_⟩
  rw [← toNat_corrections, ← toNat_lowDigit, adjusted]
  cases hsubtract : Flag.test r.flags Flag.subtract with
  | false =>
    rw [daa, hsubtract, if_neg Bool.false_ne_true, if_neg Bool.false_ne_true, UInt8.toNat_add]
    rfl
  | true =>
    rw [daa, hsubtract, if_pos rfl, if_pos rfl, UInt8.toNat_sub]
    rfl

/-! ## Two digits -/

/-- Both halves of a byte are decimal digits. -/
def Packed (b : Byte) : Prop := b.toNat / 16 < 10 ∧ b.toNat % 16 < 10

instance (b : Byte) : Decidable (Packed b) := inferInstanceAs (Decidable (_ ∧ _))

/-- The number that two digits stand for. -/
def decimal (b : Byte) : Nat := 10 * (b.toNat / 16) + b.toNat % 16

/-- The byte that holds the two digits of a number below a hundred. -/
def packed (n : Nat) : Byte := (16 * (n / 10) + n % 10).toUInt8

variable {a b : Byte}

/-- The sum of two bytes of digits, adjusted, holds the digits of the sum, and the carry is what
    does not fit in two. -/
theorem add8_adjusted (ha : Packed a) (hb : Packed b) (carry : Bool) :
    Packed (add8 a b carry).adjusted.value
      ∧ decimal (add8 a b carry).adjusted.value
          + 100 * (Flag.test (add8 a b carry).adjusted.flags Flag.carry).toNat
        = decimal a + decimal b + carry.toNat := by
  obtain ⟨lower, upper, hlower, hupper, hcarry, hvalue⟩ := (add8 a b carry).adjusted_eq
  have hone := carry.toNat_le
  rw [half_of_add8, toNat_add8] at hlower
  rw [carry_of_add8, toNat_add8] at hupper
  rw [subtract_of_add8, if_neg Bool.false_ne_true, toNat_add8] at hvalue
  rw [hcarry]
  clear hcarry
  unfold Packed decimal at *
  -- which digits were corrected fixes the ranges of the digit sums, and the rest is linear
  cases lower <;> cases upper <;>
    simp only [Bool.true_eq, Bool.false_eq, Bool.or_eq_true, Bool.or_eq_false_iff,
      decide_eq_true_eq, decide_eq_false_iff_not, Bool.toNat_true, Bool.toNat_false] at * <;>
    omega

/-- The difference of two bytes of digits, adjusted, holds the digits of the difference, and the
    carry is the hundred that had to be borrowed. -/
theorem sub8_adjusted (ha : Packed a) (hb : Packed b) (carry : Bool) :
    Packed (sub8 a b carry).adjusted.value
      ∧ decimal (sub8 a b carry).adjusted.value + decimal b + carry.toNat
        = decimal a + 100 * (Flag.test (sub8 a b carry).adjusted.flags Flag.carry).toNat := by
  obtain ⟨lower, upper, hlower, hupper, hcarry, hvalue⟩ := (sub8 a b carry).adjusted_eq
  have hone := carry.toNat_le
  rw [half_of_sub8, toNat_sub8] at hlower
  rw [carry_of_sub8, toNat_sub8] at hupper
  rw [subtract_of_sub8, if_pos rfl, toNat_sub8] at hvalue
  rw [hcarry]
  clear hcarry
  unfold Packed decimal at *
  cases lower <;> cases upper <;>
    simp only [Bool.true_eq, Bool.false_eq, Bool.or_eq_true, Bool.or_eq_false_iff,
      decide_eq_true_eq, decide_eq_false_iff_not, Bool.toNat_true, Bool.toNat_false] at * <;>
    omega

/-! ## Digits of any number -/

/-- The number that digits stand for, the least significant two first. -/
def decimals : List Byte → Nat
  | [] => 0
  | b :: bs => decimal b + 100 * decimals bs

/-- The lowest digits of a number, two to a byte, in as many bytes as there are to be. -/
def digits : Nat → Nat → List Byte
  | 0, _ => []
  | n + 1, x => packed (x % 100) :: digits n (x / 100)

theorem Packed.decimal_lt (h : Packed b) : decimal b < 100 := by
  unfold Packed at h
  unfold decimal
  omega

theorem Packed.packed_decimal (h : Packed b) : packed (decimal b) = b := by
  have hlt := b.toNat_lt
  unfold Packed at h
  refine UInt8.toNat_inj.mp ?_
  rw [packed, decimal]
  simp only [Nat.toUInt8_eq, UInt8.toNat_ofNat']
  omega

theorem decimals_lt {bs : List Byte} (h : ∀ b ∈ bs, Packed b) : decimals bs < 100 ^ bs.length := by
  induction bs with
  | nil => exact Nat.one_pos
  | cons b bs ih =>
    have hb := (h b List.mem_cons_self).decimal_lt
    have hbs := ih fun b' hb' => h b' (List.mem_cons_of_mem b hb')
    rw [decimals, List.length_cons, Nat.pow_succ]
    omega

/-- Digits are those of the number they stand for. -/
theorem digits_decimals {bs : List Byte} (h : ∀ b ∈ bs, Packed b) :
    digits bs.length (decimals bs) = bs := by
  induction bs with
  | nil => rfl
  | cons b bs ih =>
    have hb := h b List.mem_cons_self
    have hlt := hb.decimal_lt
    have hbs := ih fun b' hb' => h b' (List.mem_cons_of_mem b hb')
    have hlow : (decimal b + 100 * decimals bs) % 100 = decimal b := by omega
    have hhigh : (decimal b + 100 * decimals bs) / 100 = decimals bs := by omega
    rw [List.length_cons, decimals, digits, hlow, hhigh, hb.packed_decimal, hbs]

/-- What lies above the digits of a number does not show in them. -/
theorem digits_mod (n x : Nat) : digits n (x % 100 ^ n) = digits n x := by
  induction n generalizing x with
  | zero => rfl
  | succ n ih =>
    have hlow : x % 100 ^ (n + 1) % 100 = x % 100 :=
      Nat.mod_mod_of_dvd x (Dvd.intro_left (100 ^ n) rfl)
    have hhigh : x % 100 ^ (n + 1) / 100 = x / 100 % 100 ^ n := by
      rw [Nat.pow_succ, Nat.mul_comm, Nat.mod_mul_right_div_self]
    rw [digits, digits, hlow, hhigh, ih]

/-! ## Sums and differences byte by byte -/

/-- Combine two numbers byte by byte, from the least significant, each result adjusted and its carry
    flag going into the next.  Gives the bytes and the last carry. -/
def ripple (op : Byte → Byte → Bool → Flagged Byte) : List (Byte × Byte) → Bool → List Byte × Bool
  | [], carry => ([], carry)
  | (a, b) :: rest, carry =>
    let r := (op a b carry).adjusted
    let later := ripple op rest (Flag.test r.flags Flag.carry)
    (r.value :: later.1, later.2)

/-- An operation on bytes of digits gives digits, and with the carries they keep the balance: the
    second operand and both carries count with one sign, for a sum positive and for a difference
    negative. -/
def Balances (op : Byte → Byte → Bool → Flagged Byte) (sign : Int) : Prop :=
  ∀ {a b : Byte}, Packed a → Packed b → ∀ carry : Bool,
    Packed (op a b carry).adjusted.value
      ∧ (decimal (op a b carry).adjusted.value : Int)
          + sign * (100 * (Flag.test (op a b carry).adjusted.flags Flag.carry).toNat)
        = decimal a + sign * (decimal b + carry.toNat)

theorem balances_add8 : Balances add8 1 := by
  intro a b ha hb carry
  obtain ⟨hpacked, hsum⟩ := add8_adjusted ha hb carry
  exact ⟨hpacked, by omega⟩

theorem balances_sub8 : Balances sub8 (-1) := by
  intro a b ha hb carry
  obtain ⟨hpacked, hdifference⟩ := sub8_adjusted ha hb carry
  exact ⟨hpacked, by omega⟩

variable {op : Byte → Byte → Bool → Flagged Byte} {sign : Int}

theorem length_ripple (op : Byte → Byte → Bool → Flagged Byte) (pairs : List (Byte × Byte))
    (carry : Bool) : (ripple op pairs carry).1.length = pairs.length := by
  induction pairs generalizing carry with
  | nil => rfl
  | cons pair rest ih => exact congrArg (· + 1) (ih _)

/-- The balance of the bytes is that of the numbers. -/
theorem ripple_balance (h : Balances op sign) {xs ys : List Byte} (hx : ∀ b ∈ xs, Packed b)
    (hy : ∀ b ∈ ys, Packed b) (hlength : xs.length = ys.length) (carry : Bool) :
    (∀ b ∈ (ripple op (xs.zip ys) carry).1, Packed b)
      ∧ (decimals (ripple op (xs.zip ys) carry).1 : Int)
          + sign * (100 ^ xs.length * (ripple op (xs.zip ys) carry).2.toNat)
        = decimals xs + sign * (decimals ys + carry.toNat) := by
  induction xs generalizing ys carry with
  | nil =>
    obtain rfl := List.length_eq_zero_iff.mp hlength.symm
    refine ⟨fun b hb => absurd hb List.not_mem_nil, ?_⟩
    simp [ripple, decimals]
  | cons a xs ih =>
    obtain ⟨b, ys, rfl⟩ := List.exists_cons_of_length_eq_add_one hlength.symm
    obtain ⟨hpacked, hbyte⟩ := h (hx a List.mem_cons_self) (hy b List.mem_cons_self) carry
    obtain ⟨hlater, hrest⟩ := ih (fun b' hb' => hx b' (List.mem_cons_of_mem a hb'))
      (fun b' hb' => hy b' (List.mem_cons_of_mem b hb')) (Nat.succ.inj hlength)
      (Flag.test (op a b carry).adjusted.flags Flag.carry)
    rw [List.zip_cons_cons, ripple]
    refine ⟨?_, ?_⟩
    · rintro b' (hb' : b' ∈ _ :: _)
      rcases List.mem_cons.mp hb' with rfl | hb'
      · exact hpacked
      · exact hlater b' hb'
    · simp only [decimals, List.length_cons, Nat.cast_add, Nat.cast_mul, Nat.cast_ofNat, pow_succ]
      linear_combination hbyte + 100 * hrest

theorem decimals_ripple_lt {xs ys : List Byte} (hlength : xs.length = ys.length) (carry : Bool)
    (h : ∀ b ∈ (ripple op (xs.zip ys) carry).1, Packed b) :
    decimals (ripple op (xs.zip ys) carry).1 < 100 ^ xs.length := by
  have hfits := decimals_lt h
  rwa [length_ripple, List.length_zip, ← hlength, Nat.min_self] at hfits

/-- What comes out are the digits of the balance, as far as they fit. -/
theorem ripple_digits (h : Balances op sign) {xs ys : List Byte} (hx : ∀ b ∈ xs, Packed b)
    (hy : ∀ b ∈ ys, Packed b) (hlength : xs.length = ys.length) (carry : Bool) :
    (ripple op (xs.zip ys) carry).1 = digits xs.length
      (((decimals xs : Int) + sign * (decimals ys + carry.toNat)) % 100 ^ xs.length).toNat := by
  obtain ⟨hpacked, hbalance⟩ := ripple_balance h hx hy hlength carry
  have hsame : (ripple op (xs.zip ys) carry).1.length = xs.length := by
    rw [length_ripple, List.length_zip, ← hlength, Nat.min_self]
  have hlt : (decimals (ripple op (xs.zip ys) carry).1 : Int) < 100 ^ xs.length := by
    exact_mod_cast decimals_ripple_lt hlength carry hpacked
  have hrest : ((decimals xs : Int) + sign * (decimals ys + carry.toNat)) % 100 ^ xs.length
      = decimals (ripple op (xs.zip ys) carry).1 := by
    rw [← hbalance, mul_left_comm, Int.add_mul_emod_self_left]
    exact Int.emod_eq_of_lt (Int.natCast_nonneg _) hlt
  rw [hrest, Int.toNat_natCast, ← hsame, digits_decimals hpacked]

/-- The sum of two numbers: its digits as far as they fit, and a carry if they do not. -/
theorem decimal_sum {xs ys : List Byte} (hx : ∀ b ∈ xs, Packed b) (hy : ∀ b ∈ ys, Packed b)
    (hlength : xs.length = ys.length) (carry : Bool) :
    let sum := ripple add8 (xs.zip ys) carry
    let total := decimals xs + decimals ys + carry.toNat
    sum.1 = digits xs.length total ∧ (∀ b ∈ sum.1, Packed b)
      ∧ decimals sum.1 + 100 ^ xs.length * sum.2.toNat = total
      ∧ sum.2 = decide (100 ^ xs.length ≤ total) := by
  intro sum total
  obtain ⟨hpacked, hbalance⟩ := ripple_balance balances_add8 hx hy hlength carry
  have hlt := decimals_ripple_lt hlength carry hpacked
  have hvalue : decimals sum.1 + 100 ^ xs.length * sum.2.toNat = total := by
    zify [total]
    linear_combination hbalance
  refine ⟨?_, hpacked, hvalue, ?_⟩
  · have hsum : (decimals xs : Int) + 1 * (decimals ys + carry.toNat) = (total : Nat) := by
      omega
    have hrest : ((total : Int) % 100 ^ xs.length).toNat = total % 100 ^ xs.length := by
      exact_mod_cast Int.toNat_natCast (total % 100 ^ xs.length)
    refine (ripple_digits balances_add8 hx hy hlength carry).trans ?_
    rw [hsum, hrest, digits_mod]
  · change decimals sum.1 < _ at hlt
    cases hcarry : sum.2 with
    | false =>
      rw [hcarry, Bool.toNat_false, Nat.mul_zero] at hvalue
      exact (decide_eq_false (by omega)).symm
    | true =>
      rw [hcarry, Bool.toNat_true, Nat.mul_one] at hvalue
      exact (decide_eq_true (by omega)).symm

/-- The difference of two numbers: its digits, reckoned round the end if it falls below zero, and a
    carry then. -/
theorem decimal_difference {xs ys : List Byte} (hx : ∀ b ∈ xs, Packed b) (hy : ∀ b ∈ ys, Packed b)
    (hlength : xs.length = ys.length) (carry : Bool) :
    let difference := ripple sub8 (xs.zip ys) carry
    difference.1 = digits xs.length
        (((decimals xs : Int) - decimals ys - carry.toNat) % 100 ^ xs.length).toNat
      ∧ (∀ b ∈ difference.1, Packed b)
      ∧ decimals difference.1 + decimals ys + carry.toNat
        = decimals xs + 100 ^ xs.length * difference.2.toNat
      ∧ difference.2 = decide (decimals xs < decimals ys + carry.toNat) := by
  intro difference
  obtain ⟨hpacked, hbalance⟩ := ripple_balance balances_sub8 hx hy hlength carry
  have hlt := decimals_ripple_lt hlength carry hpacked
  have hxs := decimals_lt hx
  have hvalue : decimals difference.1 + decimals ys + carry.toNat
      = decimals xs + 100 ^ xs.length * difference.2.toNat := by
    zify
    linear_combination hbalance
  refine ⟨?_, hpacked, hvalue, ?_⟩
  · have hdifference : (decimals xs : Int) + -1 * (decimals ys + carry.toNat)
        = decimals xs - decimals ys - carry.toNat := by omega
    rw [← hdifference]
    exact ripple_digits balances_sub8 hx hy hlength carry
  · change decimals difference.1 < _ at hlt
    cases hcarry : difference.2 with
    | false =>
      rw [hcarry, Bool.toNat_false, Nat.mul_zero] at hvalue
      exact (decide_eq_false (by omega)).symm
    | true =>
      rw [hcarry, Bool.toNat_true, Nat.mul_one] at hvalue
      exact (decide_eq_true (by omega)).symm

/-- Sums and differences of decimal numbers of one length, byte by byte with the carry passed on
    and each byte adjusted.  The bytes of a sum are the digits of x + y + c, and the last carry is
    set when these do not fit.  The bytes of a difference are the digits of x - y - c modulo the
    power of a hundred that the bytes hold, and the last carry is the borrow.  Every byte that comes
    out is two decimal digits. -/
theorem decimal_arithmetic {xs ys : List Byte} (hx : ∀ b ∈ xs, Packed b)
    (hy : ∀ b ∈ ys, Packed b) (hlength : xs.length = ys.length) (carry : Bool) :
    (let sum := ripple add8 (xs.zip ys) carry
      let total := decimals xs + decimals ys + carry.toNat
      sum.1 = digits xs.length total ∧ (∀ b ∈ sum.1, Packed b)
        ∧ decimals sum.1 + 100 ^ xs.length * sum.2.toNat = total
        ∧ sum.2 = decide (100 ^ xs.length ≤ total))
      ∧ (let difference := ripple sub8 (xs.zip ys) carry
        difference.1 = digits xs.length
            (((decimals xs : Int) - decimals ys - carry.toNat) % 100 ^ xs.length).toNat
          ∧ (∀ b ∈ difference.1, Packed b)
          ∧ decimals difference.1 + decimals ys + carry.toNat
            = decimals xs + 100 ^ xs.length * difference.2.toNat
          ∧ difference.2 = decide (decimals xs < decimals ys + carry.toNat)) :=
  ⟨decimal_sum hx hy hlength carry, decimal_difference hx hy hlength carry⟩

/-- With 1999 and 8001: their sum and a carry overflow four digits, and the difference borrows. -/
theorem decimal_arithmetic_overflows :
    (∀ b ∈ [(0x99 : Byte), 0x19], Packed b) ∧ (∀ b ∈ [(0x01 : Byte), 0x80], Packed b)
      ∧ ripple add8 [(0x99, 0x01), (0x19, 0x80)] true = ([0x01, 0x00], true)
      ∧ digits 2 (1999 + 8001 + 1) = [0x01, 0x00]
      ∧ ripple sub8 [(0x99, 0x01), (0x19, 0x80)] true = ([0x97, 0x39], true)
      ∧ decimals [0x97, 0x39] + 8001 + 1 = 1999 + 10000 := by
  have h := @decimal_arithmetic [0x99, 0x19] [0x01, 0x80] (by decide +kernel)
    (by decide +kernel) rfl true
  refine ⟨by decide +kernel, by decide +kernel, ?_, by decide, ?_, by decide⟩
  · exact Prod.ext_iff.mpr ⟨h.1.1.trans (by decide), h.1.2.2.2.trans (by decide)⟩
  · exact Prod.ext_iff.mpr ⟨h.2.1.trans (by decide), h.2.2.2.2.trans (by decide)⟩

end Z80Board
