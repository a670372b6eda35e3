import Z80Board.Proofs.Chip.Latches
import Z80Board.Proofs.Chip.Course

/-! # Nothing stale is ever used

    Through the cycles of an instruction an account is kept of the latches that are filled.  A cycle
    needs some for its address, for the byte that it writes or for the word that it completes; it
    stows what it has read; and the instruction acts on that.  The account is a computation over the
    timing alone, and over the whole catalog it never finds a latch needed that is stale, whichever
    way the opcode was reached and whatever the chip performs by itself. -/

namespace Z80Board

/-! ## Through the cycles of an instruction -/

namespace Filled

/-- Every latch that is needed is filled. -/
def meets (filled needs : Filled) : Bool :=
  needs ∪ filled == filled

/-- The latch that addresses memory is filled when an operand names a register pair. -/
def addressed (operands : List Operand) : Filled :=
  match operands.find? Operand.isMemory with
  | some (.indirect .bc) | some (.indirect .de) | some (.indirect .hl) => { addr := true }
  | _ => {}

/-- What is filled after an instruction has acted, if it needs nothing that is stale. -/
def act (filled : Filled) (mnemonic : Mnemonic) (operands : List Operand) (point : ExecPoint) :
    Option Filled :=
  let filled := if point = .decoded then addressed operands ∪ filled else filled
  let demand := Demand.act mnemonic operands point
  if filled.meets demand.needs then some (demand.fills ∪ filled) else none

end Filled

namespace CycleKind

/-- The latches that a cycle puts on the buses, and the one that a word is put together with. -/
def uses : CycleKind → Filled
  | .operandHigh => { immLow := true }
  | .memoryRead | .memoryReadLow | .memoryReadHigh => { addr := true }
  | .memoryWrite | .memoryWriteLow => { addr := true, outLow := true }
  | .memoryWriteHigh => { addr := true, outHigh := true }
  | .stackWriteHigh => { outHigh := true }
  | .stackWriteLow => { outLow := true }
  | .portRead => { port := true }
  | .portWrite => { port := true, outLow := true }
  | _ => {}

/-- The latches that take what a cycle has read. -/
def stows (kind : CycleKind) (operands : List Operand) : Filled :=
  match kind with
  | .operand | .operandLow => { immLow := true }
  | .operandHigh => { immHigh := true, addr := operands.contains .absolute }
  | .memoryRead | .memoryReadLow | .stackReadLow | .portRead => { dataLow := true }
  | .memoryReadHigh | .stackReadHigh => { dataHigh := true }
  | _ => {}

end CycleKind

/-- The index register that a displacement belongs to. -/
def Operand.indexed? (operands : List Operand) : Bool :=
  (operands.findSome? Operand.index?).isSome

namespace Filled

/-- What is filled after a cycle of an instruction, if that needs nothing that is stale. -/
def pass (filled : Filled) (mnemonic : Mnemonic) (operands : List Operand) (displaced : Bool)
    (kind : CycleKind) : Option Filled :=
  if filled.meets kind.uses then
    if kind = .opcodeFetch then some filled
    else if kind = .operand ∧ Operand.indexed? operands = true ∧ displaced = false then
      some ({ addr := true } ∪ filled)
    else (kind.stows operands ∪ filled).act mnemonic operands (.after kind)
  else none

/-- No cycle needs a latch that is stale. -/
def supplies (mnemonic : Mnemonic) (operands : List Operand) :
    Bool → Filled → List CycleKind → Bool
  | _, _, [] => true
  | displaced, filled, kind :: rest =>
    match filled.pass mnemonic operands displaced kind with
    | none => false
    | some filled =>
      supplies mnemonic operands
        (displaced || kind == .operand && Operand.indexed? operands) filled rest

end Filled

/-- The kinds of cycles of the longer timing. -/
def Timings.kinds (t : Timings) : List CycleKind :=
  let primary := (t.cycles false).map MachineCycle.kind
  let alternate := (t.cycles true).map MachineCycle.kind
  if primary.length ≤ alternate.length then alternate else primary

/-- The kinds of cycles of both timings are among those of the longer one. -/
def Timings.nested (t : Timings) : Bool :=
  [false, true].all fun met => ((t.cycles met).map MachineCycle.kind).isPrefixOf t.kinds

/-- An instruction of the page needs nothing that is stale. -/
def Timings.suits (t : Timings) (mnemonic : Mnemonic) (operands : List Operand) (page : Page) :
    Bool :=
  let placed : Filled := { addr := page.displaced && Operand.indexed? operands }
  t.nested && (placed.act mnemonic operands .decoded).any fun filled =>
    Filled.supplies mnemonic operands page.displaced filled (t.kinds.drop page.approach.length)

namespace Catalog

/-- Nothing that the catalog lists needs anything stale, as a test. -/
theorem all_suit : forms.all (fun p => p.2.page.all fun page =>
    p.2.encodings.all fun encoding => p.2.timing.suits p.1 encoding.2 page) = true := by
  decide +kernel

/-- Every encoding of every form passes the test. -/
theorem suits_of_mem {m : Mnemonic} {f : Form} {page : Page} {encoding : Byte × List Operand}
    (hf : (m, f) ∈ forms) (hpage : f.page = some page) (hmem : encoding ∈ f.encodings) :
    f.timing.suits m encoding.2 page = true := by
  have hform := List.all_eq_true.mp all_suit (m, f) hf
  dsimp only at hform
  rw [hpage] at hform
  exact List.all_eq_true.mp hform encoding hmem

end Catalog

/-- Nor does anything that a page gives to a byte. -/
theorem Listing.Entitled.suits {page : Page} {code : Instruction}
    (h : Listing.Entitled Catalog.forms page code) :
    code.timing.suits code.mnemonic code.operands page = true := by
  obtain ⟨m, f, hf, hpage, hcode⟩ := h
  obtain ⟨opcode, hmem⟩ := hcode.operands
  have hsuits := Catalog.suits_of_mem hf hpage hmem
  rw [hcode.timing, hcode.mnemonic]
  exact hsuits

/-- Nor what the chip performs by itself, once its fetch has brought in a byte. -/
theorem internal_suits (op : InternalOp) :
    (decoder.internal op).timing.nested = true
      ∧ (Filled.act { fetched := true } (decoder.internal op).mnemonic (decoder.internal op).operands
          .decoded).any (fun filled =>
        Filled.supplies (decoder.internal op).mnemonic (decoder.internal op).operands false filled
          (decoder.internal op).timing.kinds) = true := by
  have hall : ∀ p ∈ Catalog.internalOps, p.2.timing.nested = true
      ∧ (Filled.act { fetched := true } p.1
          (p.2.slots.head?.bind fun slot => slot.operands.head?).toList .decoded).any (fun filled =>
        Filled.supplies p.1 (p.2.slots.head?.bind fun slot => slot.operands.head?).toList false filled
          p.2.timing.kinds) = true := by
    decide
  obtain ⟨p, hp, hmnemonic, htiming, hoperands⟩ := internal_listed op
  rw [hmnemonic, htiming, hoperands]
  exact hall p hp

end Z80Board
