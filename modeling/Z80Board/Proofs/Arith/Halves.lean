import Z80Board.Word

/-! # The halves of a word

    A word is its high byte times 256 and its low byte, so its halves can be put together again. -/

namespace Z80Board.Word

theorem toNat_high (w : Word) : (high w).toNat = w.toNat / 256 := by
  have hword : w.toNat < 2 ^ 16 := w.toNat_lt
  rw [high, UInt16.toNat_toUInt8, UInt16.toNat_shiftRight, show (UInt16.toNat 8 % 16) = 8 from rfl,
    Nat.shiftRight_eq_div_pow]
  omega

theorem toNat_low (w : Word) : (low w).toNat = w.toNat % 256 :=
  UInt16.toNat_toUInt8 w

theorem toNat_ofBytes (h l : Byte) : (ofBytes h l).toNat = 256 * h.toNat + l.toNat := by
  have hlow : l.toNat < 2 ^ 8 := l.toNat_lt
  have hhigh : h.toNat < 2 ^ 8 := h.toNat_lt
  rw [ofBytes, UInt16.toNat_or, UInt16.toNat_shiftLeft, UInt8.toNat_toUInt16, UInt8.toNat_toUInt16,
    show (UInt16.toNat 8 % 16) = 8 from rfl, Nat.mod_eq_of_lt (by rw [Nat.shiftLeft_eq]; omega),
    ← Nat.shiftLeft_add_eq_or_of_lt hlow, Nat.shiftLeft_eq]
  omega

/-- A word is made of its halves. -/
theorem ofBytes_halves (w : Word) : ofBytes (high w) (low w) = w := by
  refine UInt16.toNat_inj.mp ?_
  rw [toNat_ofBytes, toNat_high, toNat_low]
  omega

/-- The halves of a word are what it is made of. -/
theorem halves_ofBytes (h l : Byte) : high (ofBytes h l) = h ∧ low (ofBytes h l) = l := by
  have hlow := l.toNat_lt
  refine ⟨UInt8.toNat_inj.mp ?_, UInt8.toNat_inj.mp ?_⟩
  · rw [toNat_high, toNat_ofBytes]
    omega
  · rw [toNat_low, toNat_ofBytes]
    omega

end Z80Board.Word
