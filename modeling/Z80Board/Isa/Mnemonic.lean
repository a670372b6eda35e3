/-! # Mnemonics

    The name of every operation: those of the instruction set and, at the end, three that the chip
    performs without an opcode. -/

namespace Z80Board

/-- What an instruction is called. -/
inductive Mnemonic where
  | adc | add | and | bit | call | ccf | cp | cpd | cpdr | cpi
  | cpir | cpl | daa | dec | di | djnz | ei | ex | exx | halt
  | im | input | inc | ind | indr | ini | inir | jp | jr | ld
  | ldd | lddr | ldi | ldir | neg | nop | or | otdr | otir | output
  | outd | outi | pop | push | res | ret | reti | retn | rl | rla
  | rlc | rlca | rld | rr | rra | rrc | rrca | rrd | rst | sbc
  | scf | set | sla | sll | sra | srl | sub | xor
  /-- Entry of the non-maskable interrupt. -/
  | nmi
  /-- Acknowledge of the maskable interrupt, in modes 1 and 2. -/
  | int
  /-- The fetch repeated while the chip is halted. -/
  | haltNop
deriving DecidableEq, Repr

namespace Mnemonic

/-- Every mnemonic. -/
def all : List Mnemonic :=
  [.adc, .add, .and, .bit, .call, .ccf, .cp, .cpd, .cpdr, .cpi,
    .cpir, .cpl, .daa, .dec, .di, .djnz, .ei, .ex, .exx, .halt,
    .im, .input, .inc, .ind, .indr, .ini, .inir, .jp, .jr, .ld,
    .ldd, .lddr, .ldi, .ldir, .neg, .nop, .or, .otdr, .otir, .output,
    .outd, .outi, .pop, .push, .res, .ret, .reti, .retn, .rl, .rla,
    .rlc, .rlca, .rld, .rr, .rra, .rrc, .rrca, .rrd, .rst, .sbc,
    .scf, .set, .sla, .sll, .sra, .srl, .sub, .xor, .nmi, .int,
    .haltNop]

/-- The name in instruction text. -/
def name : Mnemonic → String
  | .adc => "ADC"
  | .add => "ADD"
  | .and => "AND"
  | .bit => "BIT"
  | .call => "CALL"
  | .ccf => "CCF"
  | .cp => "CP"
  | .cpd => "CPD"
  | .cpdr => "CPDR"
  | .cpi => "CPI"
  | .cpir => "CPIR"
  | .cpl => "CPL"
  | .daa => "DAA"
  | .dec => "DEC"
  | .di => "DI"
  | .djnz => "DJNZ"
  | .ei => "EI"
  | .ex => "EX"
  | .exx => "EXX"
  | .halt => "HALT"
  | .im => "IM"
  | .input => "IN"
  | .inc => "INC"
  | .ind => "IND"
  | .indr => "INDR"
  | .ini => "INI"
  | .inir => "INIR"
  | .jp => "JP"
  | .jr => "JR"
  | .ld => "LD"
  | .ldd => "LDD"
  | .lddr => "LDDR"
  | .ldi => "LDI"
  | .ldir => "LDIR"
  | .neg => "NEG"
  | .nop => "NOP"
  | .or => "OR"
  | .otdr => "OTDR"
  | .otir => "OTIR"
  | .output => "OUT"
  | .outd => "OUTD"
  | .outi => "OUTI"
  | .pop => "POP"
  | .push => "PUSH"
  | .res => "RES"
  | .ret => "RET"
  | .reti => "RETI"
  | .retn => "RETN"
  | .rl => "RL"
  | .rla => "RLA"
  | .rlc => "RLC"
  | .rlca => "RLCA"
  | .rld => "RLD"
  | .rr => "RR"
  | .rra => "RRA"
  | .rrc => "RRC"
  | .rrca => "RRCA"
  | .rrd => "RRD"
  | .rst => "RST"
  | .sbc => "SBC"
  | .scf => "SCF"
  | .set => "SET"
  | .sla => "SLA"
  | .sll => "SLL"
  | .sra => "SRA"
  | .srl => "SRL"
  | .sub => "SUB"
  | .xor => "XOR"
  | .nmi => "NMI"
  | .int => "INT"
  | .haltNop => "HALT-NOP"

/-- The chip performs it by itself; no opcode names it. -/
def isInternal : Mnemonic → Bool
  | .nmi | .int | .haltNop => true
  | _ => false

end Mnemonic

end Z80Board
