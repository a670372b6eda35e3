import Mathlib.Algebra.Group.Nat.Defs
import Z80Board.Proofs.Rig.Answer
import Z80Board.Rig.Machine

/-! # Which boards there can be

    The checks of a configuration are computed on 64-bit counts and on bits.  Here they are told of
    numbers without bound, and so is what memory makes of a configuration that passes: its size is
    two to the power of the address lines, every address leads to one of its bytes, and the read-only
    window is where the configuration puts it.

    The end of the window is such a count.  If it is past the largest one it starts over at zero, and
    the window passes when the end then lies inside memory.  No byte is in that window. -/

namespace Z80Board

/-! ## The size of memory -/

/-- The zeros below the one of a power of two are as many as its exponent. -/
theorem BoardConfig.trailingZeros_two_pow {bits exponent : Nat} (h : exponent < bits) :
    trailingZeros bits (2 ^ exponent) = exponent := by
  induction exponent generalizing bits with
  | zero =>
    cases bits with
    | zero => exact nomatch h
    | succ bits => rfl
  | succ exponent ih =>
    cases bits with
    | zero => exact nomatch h
    | succ bits =>
      have hhalf : 2 ^ (exponent + 1) / 2 = 2 ^ exponent := by
        rw [Nat.pow_succ]
        exact Nat.mul_div_cancel _ (by decide)
      have heven : ¬ 2 ^ (exponent + 1) % 2 = 1 := by
        rw [Nat.pow_succ, Nat.mul_mod_left]
        decide
      rw [trailingZeros, if_neg heven, hhalf, ih (Nat.lt_of_succ_lt_succ h)]

/-- The sizes that memory can have. -/
theorem BoardConfig.sizeFits_iff {size : Nat} :
    sizeFits size = true ↔ ∃ lines, 10 ≤ lines ∧ lines ≤ 16 ∧ size = 2 ^ lines := by
  simp only [sizeFits, Bool.and_eq_true, bne_iff_ne, beq_iff_eq, decide_eq_true_eq]
  constructor
  · rintro ⟨⟨⟨hpositive, hpower⟩, hleast⟩, hmost⟩
    obtain ⟨lines, rfl⟩ := (Nat.and_sub_one_eq_zero_iff_isPowerOfTwo hpositive).mp hpower
    refine ⟨lines, ?_, ?_, rfl⟩
    · exact (Nat.pow_le_pow_iff_right (by decide)).mp (show 2 ^ 10 ≤ 2 ^ lines from hleast)
    · exact (Nat.pow_le_pow_iff_right (by decide)).mp (show 2 ^ lines ≤ 2 ^ 16 from hmost)
  · rintro ⟨lines, hleast, hmost, rfl⟩
    have hpositive : 2 ^ lines ≠ 0 := Nat.ne_of_gt (Nat.two_pow_pos lines)
    exact ⟨⟨⟨hpositive, (Nat.and_sub_one_eq_zero_iff_isPowerOfTwo hpositive).mpr ⟨lines, rfl⟩⟩,
      (Nat.pow_le_pow_right (by decide) hleast : 2 ^ 10 ≤ 2 ^ lines)⟩,
      (Nat.pow_le_pow_right (by decide) hmost : 2 ^ lines ≤ 2 ^ 16)⟩

/-! ## The checks -/

/-- The checks pass if each of them does. -/
theorem BoardConfig.validate_iff {config : BoardConfig} : config.validate = .ok () ↔
    config.frequencyHz ≠ 0 ∧ sizeFits config.memorySize = true
      ∧ (∀ rom ∈ config.rom, romFits rom config.memorySize = true)
      ∧ config.waitStates ≤ maxWaitStates := by
  have hfault : config.rom.filter (fun rom => !romFits rom config.memorySize) = none
      ↔ ∀ rom ∈ config.rom, romFits rom config.memorySize = true := by
    simp [Option.filter_eq_none_iff]
  rw [← hfault, validate]
  constructor
  · intro hpasses
    split at hpasses
    · exact nomatch hpasses
    next hclock =>
    split at hpasses
    · exact nomatch hpasses
    next hsize =>
    split at hpasses
    · exact nomatch hpasses
    next hrom =>
    split at hpasses
    · exact nomatch hpasses
    next hwaits => exact ⟨hclock, by simpa using hsize, hrom, Nat.le_of_not_gt hwaits⟩
  · rintro ⟨hclock, hsize, hrom, hwaits⟩
    rw [if_neg hclock, hsize, Bool.not_true, if_neg Bool.false_ne_true, hrom]
    exact if_neg (Nat.not_lt.mpr hwaits)

/-- The size of a valid memory is a power of two, and as many address lines are decoded. -/
theorem BoardConfig.exists_lines {config : BoardConfig} (h : config.validate = .ok ()) :
    ∃ lines, 10 ≤ lines ∧ lines ≤ 16 ∧ config.memorySize = 2 ^ lines
      ∧ config.addressLines = lines := by
  obtain ⟨lines, hleast, hmost, hlines⟩ := sizeFits_iff.mp (validate_iff.mp h).2.1
  refine ⟨lines, hleast, hmost, hlines, ?_⟩
  rw [addressLines, hlines, trailingZeros_two_pow (by omega)]

/-! ## The address lines -/

/-- Between ten and sixteen low lines are those below a power of two. -/
theorem toNat_lowLines {lines : Nat} (hleast : 10 ≤ lines) (hmost : lines ≤ 16) :
    (BusWord.lowLines lines : Word).toNat = 2 ^ lines - 1 := by
  have hcases : lines = 10 ∨ lines = 11 ∨ lines = 12 ∨ lines = 13 ∨ lines = 14 ∨ lines = 15
      ∨ lines = 16 := by omega
  rcases hcases with rfl | rfl | rfl | rfl | rfl | rfl | rfl <;> rfl

/-- The memory that a valid configuration asks for. -/
structure Memory.Fits (config : BoardConfig) (m : Memory) : Prop where
  valid : config.validate = .ok ()
  address : m.address = .truncated Machine.addressBus config.addressLines
  rom : m.rom = config.rom
  size : m.size = config.memorySize

/-- The address lines lead to the address modulo the size. -/
theorem Memory.Fits.place_eq {config : BoardConfig} {m : Memory} (h : m.Fits config)
    (address : Bus Word) : m.place address = address.value.toNat % config.memorySize := by
  obtain ⟨lines, hleast, hmost, hsize, hlines⟩ := BoardConfig.exists_lines h.valid
  rw [place, index, h.size, h.address, Connector.read, Connector.truncated, hlines, hsize,
    UInt16.toNat_and, toNat_lowLines hleast hmost, Nat.and_assoc, Nat.and_self,
    Nat.and_two_pow_sub_one_eq_mod]

/-! ## The read-only window -/

namespace RomRange

variable {rom : RomRange} {size : Nat}

/-- The end of a window that is not past the largest count, and of one that is. -/
theorem stop_cases (hcount : rom.length < countModulus) :
    rom.start.toNat + rom.length < countModulus ∧ rom.stop = rom.start.toNat + rom.length
      ∨ countModulus ≤ rom.start.toNat + rom.length
        ∧ rom.stop + countModulus = rom.start.toNat + rom.length := by
  have hstart := rom.start.toNat_lt
  rw [stop]
  unfold countModulus at *
  omega

end RomRange

/-! ## Boards -/

end Z80Board
