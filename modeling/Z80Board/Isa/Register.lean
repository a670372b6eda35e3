import Z80Board.Arith.Flags
import Z80Board.Isa.Operand

/-! # The register file

    The registers a program sees, with their shadows, the interrupt flip-flops and mode, and the
    internal address latch WZ.  The main pairs are kept as bytes, the index registers as words; a
    name from instruction text reads and writes either. -/

namespace Z80Board

/-- The registers of the chip. -/
structure Registers where
  a : Byte := 0
  f : Byte := 0
  b : Byte := 0
  c : Byte := 0
  d : Byte := 0
  e : Byte := 0
  h : Byte := 0
  l : Byte := 0
  afAlt : Word := 0
  bcAlt : Word := 0
  deAlt : Word := 0
  hlAlt : Word := 0
  ix : Word := 0
  iy : Word := 0
  sp : Word := 0
  pc : Word := 0
  /-- Upper byte of the interrupt vector. -/
  i : Byte := 0
  /-- Refresh counter; only its low seven bits count. -/
  r : Byte := 0
  /-- Internal address latch, which shows in two flags of a bit test on memory. -/
  wz : Word := 0
  iff1 : Bool := false
  iff2 : Bool := false
  /-- Interrupt mode. -/
  im : Byte := 0
deriving DecidableEq, Repr

namespace Registers

/-- Contents after RESET: all clear, except AF and SP, which come up as all ones. -/
def afterReset : Registers :=
  { a := 0xFF, f := 0xFF, sp := 0xFFFF }

/-! ## Pairs -/

/-- A and F as a word. -/
def af (regs : Registers) : Word := Word.ofBytes regs.a regs.f

/-- B and C as a word. -/
def bc (regs : Registers) : Word := Word.ofBytes regs.b regs.c

/-- D and E as a word. -/
def de (regs : Registers) : Word := Word.ofBytes regs.d regs.e

/-- H and L as a word. -/
def hl (regs : Registers) : Word := Word.ofBytes regs.h regs.l

/-- Split a word over A and F. -/
def setAf (regs : Registers) (w : Word) : Registers :=
  { regs with a := Word.high w, f := Word.low w }

/-- Split a word over B and C. -/
def setBc (regs : Registers) (w : Word) : Registers :=
  { regs with b := Word.high w, c := Word.low w }

/-- Split a word over D and E. -/
def setDe (regs : Registers) (w : Word) : Registers :=
  { regs with d := Word.high w, e := Word.low w }

/-- Split a word over H and L. -/
def setHl (regs : Registers) (w : Word) : Registers :=
  { regs with h := Word.high w, l := Word.low w }

/-! ## Access by name -/

/-- The byte register of the given name. -/
def reg8 (regs : Registers) : Reg8 → Byte
  | .a => regs.a
  | .b => regs.b
  | .c => regs.c
  | .d => regs.d
  | .e => regs.e
  | .h => regs.h
  | .l => regs.l
  | .ixh => Word.high regs.ix
  | .ixl => Word.low regs.ix
  | .iyh => Word.high regs.iy
  | .iyl => Word.low regs.iy
  | .i => regs.i
  | .r => regs.r

/-- Write the byte register of the given name. -/
def setReg8 (regs : Registers) (v : Byte) : Reg8 → Registers
  | .a => { regs with a := v }
  | .b => { regs with b := v }
  | .c => { regs with c := v }
  | .d => { regs with d := v }
  | .e => { regs with e := v }
  | .h => { regs with h := v }
  | .l => { regs with l := v }
  | .ixh => { regs with ix := Word.withHigh regs.ix v }
  | .ixl => { regs with ix := Word.withLow regs.ix v }
  | .iyh => { regs with iy := Word.withHigh regs.iy v }
  | .iyl => { regs with iy := Word.withLow regs.iy v }
  | .i => { regs with i := v }
  | .r => { regs with r := v }

/-- The pair of the given name. -/
def reg16 (regs : Registers) : Reg16 → Word
  | .af => regs.af
  | .afAlt => regs.afAlt
  | .bc => regs.bc
  | .de => regs.de
  | .hl => regs.hl
  | .sp => regs.sp
  | .ix => regs.ix
  | .iy => regs.iy

/-- Write the pair of the given name. -/
def setReg16 (regs : Registers) (w : Word) : Reg16 → Registers
  | .af => regs.setAf w
  | .afAlt => { regs with afAlt := w }
  | .bc => regs.setBc w
  | .de => regs.setDe w
  | .hl => regs.setHl w
  | .sp => { regs with sp := w }
  | .ix => { regs with ix := w }
  | .iy => { regs with iy := w }

/-- Write the register of a name in lower case, with the low bits of a number; a flip-flop is set
    by any number but zero.  A name that no register has changes nothing. -/
def assign (regs : Registers) (name : String) (n : Nat) : Registers :=
  let b := n.toUInt8
  let w := n.toUInt16
  match name with
  | "af" => regs.setAf w
  | "bc" => regs.setBc w
  | "de" => regs.setDe w
  | "hl" => regs.setHl w
  | "af'" => { regs with afAlt := w }
  | "bc'" => { regs with bcAlt := w }
  | "de'" => { regs with deAlt := w }
  | "hl'" => { regs with hlAlt := w }
  | "ix" => { regs with ix := w }
  | "iy" => { regs with iy := w }
  | "sp" => { regs with sp := w }
  | "pc" => { regs with pc := w }
  | "wz" => { regs with wz := w }
  | "a" => { regs with a := b }
  | "f" => { regs with f := b }
  | "b" => { regs with b }
  | "c" => { regs with c := b }
  | "d" => { regs with d := b }
  | "e" => { regs with e := b }
  | "h" => { regs with h := b }
  | "l" => { regs with l := b }
  | "i" => { regs with i := b }
  | "r" => { regs with r := b }
  | "im" => { regs with im := b }
  | "iff1" => { regs with iff1 := n != 0 }
  | "iff2" => { regs with iff2 := n != 0 }
  | _ => regs

/-! ## Flags and counters -/

/-- One of the flags of the mask is set. -/
def flag (regs : Registers) (mask : Byte) : Bool :=
  Flag.test regs.f mask

/-- The branch condition holds in F. -/
def condition (regs : Registers) : Condition → Bool
  | .nz => !regs.flag Flag.zero
  | .z => regs.flag Flag.zero
  | .nc => !regs.flag Flag.carry
  | .c => regs.flag Flag.carry
  | .po => !regs.flag Flag.parity
  | .pe => regs.flag Flag.parity
  | .p => !regs.flag Flag.sign
  | .m => regs.flag Flag.sign

/-- Take the accumulator and the flags from a result. -/
def setAccumulator (regs : Registers) (result : Flagged Byte) : Registers :=
  { regs with a := result.value, f := result.flags }

/-- Advance the refresh counter in its low seven bits. -/
def incrementR (regs : Registers) : Registers :=
  { regs with r := (regs.r &&& 0x80) ||| ((regs.r + 1) &&& 0x7F) }

/-- Exchange BC, DE and HL with their shadows. -/
def exchangeShadowSet (regs : Registers) : Registers :=
  { (((regs.setBc regs.bcAlt).setDe regs.deAlt).setHl regs.hlAlt) with
    bcAlt := regs.bc
    deAlt := regs.de
    hlAlt := regs.hl }

/-- Exchange AF with its shadow. -/
def exchangeAf (regs : Registers) : Registers :=
  { regs.setAf regs.afAlt with afAlt := regs.af }

/-! ## Text -/

/-- All registers on one line: pairs, index registers, pointers, I, R, WZ, the flip-flops and the
    mode. -/
def render (regs : Registers) : String :=
  let bit (b : Bool) : String := if b then "1" else "0"
  " ".intercalate
    ["AF=" ++ regs.af.hex, "BC=" ++ regs.bc.hex, "DE=" ++ regs.de.hex, "HL=" ++ regs.hl.hex,
      "AF'=" ++ regs.afAlt.hex, "BC'=" ++ regs.bcAlt.hex, "DE'=" ++ regs.deAlt.hex,
      "HL'=" ++ regs.hlAlt.hex, "IX=" ++ regs.ix.hex, "IY=" ++ regs.iy.hex,
      "SP=" ++ regs.sp.hex, "PC=" ++ regs.pc.hex, "I=" ++ regs.i.hex, "R=" ++ regs.r.hex,
      "WZ=" ++ regs.wz.hex, "IFF=" ++ bit regs.iff1 ++ bit regs.iff2,
      "IM=" ++ toString regs.im.toNat]

end Registers

end Z80Board
