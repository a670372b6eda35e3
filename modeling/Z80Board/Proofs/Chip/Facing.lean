import Z80Board.Proofs.Chip.Deferral
import Z80Board.Proofs.Chip.Mirror
import Z80Board.Proofs.Chip.Preludes

/-! # Chips that face each other

    Two chips face each other if the registers of the second one are the mirror image of those of the
    first one, if the second one looks bytes up on the page that mirrors the other's, and if its
    instruction is the mirror image of the other's.  All else that drives their buses is the same.  They
    go on facing each other from edge to edge, as long as they take in the same bytes and the prefix
    bytes of one of them are those of the other one exchanged. -/

namespace Z80Board

/-! ## Bytes -/

/-- The other prefix, if the byte is an index prefix; otherwise the byte itself. -/
def exchangePrefix (byte : Byte) : Byte :=
  if byte = Index.ix.selector then Index.iy.selector
  else if byte = Index.iy.selector then Index.ix.selector
  else byte

theorem exchangePrefix_selector (x : Index) : exchangePrefix x.selector = x.mirror.selector := by
  cases x <;> rfl

theorem exchangePrefix_other {byte : Byte} (h : ∀ x : Index, byte ≠ x.selector) :
    exchangePrefix byte = byte := by
  rw [exchangePrefix, if_neg (h .ix), if_neg (h .iy)]

/-- The lines of two buses float alike, and if that is asked for, they carry the same. -/
structure Bus.Matches {α : Type} (asked : Prop) (x y : Bus α) : Prop where
  floating : y.floating = x.floating
  value : asked → y.value = x.value

namespace Bus.Matches

variable {α : Type} {asked : Prop} {x y : Bus α}

theorem refl (x : Bus α) : x.Matches asked x := ⟨rfl, fun _ => rfl⟩

theorem eq (h : x.Matches asked y) (hasked : asked) : y = x := by
  cases x
  cases y
  obtain ⟨hfloating, hvalue⟩ := h
  cases hfloating
  cases hvalue hasked
  rfl

theorem drive (h : x.Matches asked y) (v : α) : (x.drive v).Matches asked (y.drive v) :=
  ⟨h.floating, fun _ => rfl⟩

theorem ite {test : Prop} [Decidable test] {x' y' : Bus α} (h : x.Matches asked y)
    (h' : x'.Matches asked y') :
    (if test then x else x').Matches asked (if test then y else y') := by
  split
  · exact h
  · exact h'

theorem release (h : x.Matches asked y) : x.release.Matches asked y.release :=
  ⟨h.floating, fun _ => h.floating⟩

end Bus.Matches

namespace Core

variable {c d : Core} {half : Nat} {byte byte' : Byte} {code image : Instruction} {point : ExecPoint}

/-- What a chip takes in when another one that faces it takes in the first byte: the same, or the other
    prefix if it counts as one. -/
def Corresponds (c : Core) (byte byte' : Byte) : Prop :=
  byte' = if c.awaits then exchangePrefix byte else byte

theorem corresponds_of_late (hlate : c.awaits = false) : c.Corresponds byte byte' ↔ byte' = byte := by
  rw [Corresponds, hlate, if_neg Bool.false_ne_true]

/-! ## Facing -/

/-- The second chip is the first one with mirrored registers and the mirror image of the instruction. -/
structure Faces (c d : Core) : Prop where
  same : d = c.mirrored d
  known : ∀ code, c.instruction = some code → ∃ image, d.instruction = some image ∧ code.Mirrors image
  unknown : c.instruction = none → d.instruction = none

/-- A step that leaves alone what the second chip lends keeps them facing each other. -/
theorem Faces.of_same {f : Core → Core} (h : c.Faces d)
    (hsame : ∀ k, f (c.mirrored k) = (f c).mirrored (f (c.mirrored k)))
    (hkept : ∀ e, (f e).instruction = e.instruction) : (f c).Faces (f d) := by
  refine ⟨?_, fun code hcode => ?_, fun hnone => ?_⟩
  · have hstep := hsame d
    rw [← h.same] at hstep
    exact hstep
  · rw [hkept] at hcode ⊢
    exact h.known code hcode
  · rw [hkept] at hnone ⊢
    exact h.unknown hnone

/-- So does anything that the second one does as the mirror image of the first one. -/
theorem Faces.of_mirrored {c' d' : Core} (h : c.Faces d) (hsame : d' = c'.mirrored d)
    (hkept : c'.instruction = c.instruction) : c'.Faces d' := by
  refine ⟨?_, fun code hcode => ?_, fun hnone => ?_⟩
  · rw [hsame]
    rfl
  · rw [hkept] at hcode
    rw [hsame]
    exact h.known code hcode
  · rw [hkept] at hnone
    rw [hsame]
    exact h.unknown hnone

/-- What is on the data bus does not matter. -/
theorem Faces.of_data (h : c.Faces d) (data data' : Bus Byte) :
    ({ c with data } : Core).Faces { d with data := data' } := by
  obtain ⟨k, rfl⟩ : ∃ k, d = c.mirrored k := ⟨d, h.same⟩
  exact ⟨rfl, h.known, h.unknown⟩

theorem Faces.paces (h : c.Faces d) : c.Paces d := by
  rw [Paces]
  cases hcode : c.instruction with
  | none => rw [h.unknown hcode]
  | some code =>
    obtain ⟨image, himage, hmirrors⟩ := h.known code hcode
    rw [himage]
    exact congrArg some hmirrors.parts.2.2.2

/-- What two chips that face each other have in common. -/
structure Shares (c d : Core) : Prop where
  pins : d.pins = c.pins
  address : d.address = c.address
  cycle : d.cycle = c.cycle
  latches : d.latches = c.latches
  phase : d.phase = c.phase
  origin : d.origin = c.origin
  chain : d.chain = c.chain
  cycles : d.cycles = c.cycles
  position : d.position = c.position
  displacement : d.displacement = c.displacement
  pending : d.boundaryPending = c.boundaryPending

theorem Faces.shares (h : c.Faces d) : c.Shares d := by
  rw [h.same]
  exact ⟨rfl, rfl, rfl, rfl, rfl, rfl, rfl, rfl, rfl, rfl, rfl⟩

theorem Faces.regs (h : c.Faces d) : d.regs = c.regs.mirror := by
  rw [h.same]
  rfl

theorem Faces.page (h : c.Faces d) : d.page = c.page.mirror := by
  rw [h.same]
  rfl

/-! ## Executing -/

theorem Faces.execute (h : c.Faces d) (point : ExecPoint) :
    (c.execute point).Faces (d.execute point) := by
  cases hcode : c.instruction with
  | none =>
    simp only [Core.execute, hcode, h.unknown hcode]
    exact h
  | some code =>
    obtain ⟨image, himage, hmirrors⟩ := h.known code hcode
    refine h.of_mirrored ?_ (instruction_execute c point)
    simp only [Core.execute, hcode, himage]
    have hacts (c' : Core) (hpaces : c'.Paces d) :
        (c'.mirrored d).act image point = (c'.act code point).mirrored d :=
      act_mirrored hmirrors hpaces point
    split
    · have haddressed : d.addressOperand image = (c.addressOperand code).mirrored d := by
        rw [← addressOperand_mirrored hmirrors, ← h.same]
      rw [haddressed]
      refine hacts _ ?_
      have hplain := instruction_of_pace (plain_addressOperand c code).pace
      rw [Paces, hplain]
      exact h.paces
    · rw [← hacts c h.paces, ← h.same]

theorem Faces.takeUp (h : c.Faces d) (hmirrors : code.Mirrors image) :
    (c.takeUp code).Faces (d.takeUp image) := by
  have hknown (e : Core) (code : Instruction) : (e.takeUp code).instruction = some code :=
    instruction_takeUp e code
  refine ⟨?_, fun found hfound => ⟨image, hknown d image, ?_⟩, fun hnone => ?_⟩
  · obtain ⟨k, rfl⟩ : ∃ k, d = c.mirrored k := ⟨d, h.same⟩
    unfold Core.takeUp placeDisplacement
    dsimp only
    rw [hmirrors.index?_eq, hmirrors.parts.2.2.2,
      show (c.mirrored k).displacement = c.displacement from rfl]
    rcases code.index? with _ | x
    · rfl
    rcases c.displacement with _ | offset
    · rfl
    cases x <;> rfl
  · obtain rfl := Option.some.inj ((hknown c code).symm.trans hfound)
    exact hmirrors
  · cases (hknown c code).symm.trans hnone

/-- The current cycle gets the same length from the same cycles. -/
theorem Faces.fitLength (h : c.Faces d) : c.fitLength.Faces d.fitLength :=
  h.of_same (f := Core.fitLength) (fun _ => rfl) fun _ => rfl

theorem Faces.beginExecution (h : c.Faces d) (hmirrors : code.Mirrors image) :
    (c.beginExecution code).Faces (d.beginExecution image) :=
  ((h.takeUp hmirrors).execute .decoded).fitLength

/-! ## Decoding -/

theorem Faces.follow (h : c.Faces d) (hmirrors : code.Mirrors image) {again again' : Core → Page → Core}
    (hagain : ∀ page, code.action = .redecode page →
      (again { c with position := 0 } page).Faces (again' { d with position := 0 } page.mirror)) :
    (c.follow code again).Faces (d.follow image again') := by
  unfold Core.follow
  rw [hmirrors.parts.1]
  cases haction : code.action with
  | execute => exact h.beginExecution hmirrors
  | redecode page => exact hagain page haction
  | fetchNext page | fetchDisplacement page =>
    obtain ⟨k, rfl⟩ : ∃ k, d = c.mirrored k := ⟨d, h.same⟩
    exact ⟨rfl, h.known, h.unknown⟩

/-- They look the same byte up, which is no index prefix that would still count. -/
theorem Faces.dispatch_same (h : c.Faces d)
    (hbyte : c.page.plain = true → ∀ x : Index, byte ≠ x.selector) :
    (c.dispatch byte).Faces (d.dispatch byte) := by
  have hpushed : ({ c with opcode := c.opcode.push byte } : Core).Faces
      { d with opcode := d.opcode.push byte } :=
    h.of_same (f := fun e => { e with opcode := e.opcode.push byte }) (fun _ => rfl) fun _ => rfl
  have hhere : (decode c.page byte).Mirrors (decode d.page byte) := by
    rw [h.page]
    exact decode_mirrors fun hmain => hbyte (by rw [hmain]; rfl)
  unfold Core.dispatch
  refine hpushed.follow hhere fun page haction => ?_
  -- only an index page hands a byte on, and the main page keeps it
  have hdrops : c.drops byte = true := by
    rw [drops, haction]
  obtain ⟨hpage, hmain⟩ := drops_cases hdrops
  obtain rfl : page = .main := Action.redecode.inj (haction.symm.trans hmain)
  have hplain : c.page.plain = true := by
    rcases hpage with hpage | hpage <;> rw [hpage] <;> rfl
  have hreset := hpushed.of_same (f := fun e => { e with position := 0 }) (fun _ => rfl) fun _ => rfl
  exact hreset.follow (decode_mirrors fun _ => hbyte hplain)
    fun page haction => absurd haction (main_keeps byte page)

/-- They look each other's index prefixes up. -/
theorem Faces.dispatch_selector (h : c.Faces d) (hplain : c.page.plain = true) (x : Index) :
    (c.dispatch x.selector).Faces (d.dispatch x.mirror.selector) := by
  have hplain' : d.page.plain = true := by
    rw [h.page, Page.plain_mirror]
    exact hplain
  have hmain : (d.page = .main) ↔ c.page = .main := by
    rw [h.page]
    cases c.page <;> decide
  rw [Core.dispatch_selector hplain, Core.dispatch_selector hplain']
  simp only [hmain]
  obtain ⟨k, rfl⟩ : ∃ k, d = c.mirrored k := ⟨d, h.same⟩
  refine ⟨?_, h.known, h.unknown⟩
  cases x <;> rfl

/-- They look up bytes that correspond. -/
theorem Faces.dispatch (h : c.Faces d) (hnone : c.instruction = none)
    (hbytes : c.Corresponds byte byte') : (c.dispatch byte).Faces (d.dispatch byte') := by
  rw [Corresponds, awaits, hnone, Option.isNone_none, Bool.true_and] at hbytes
  cases hplain : c.page.plain with
  | true =>
    rw [hplain, if_pos rfl] at hbytes
    rw [hbytes]
    by_cases hother : ∀ x : Index, byte ≠ x.selector
    · rw [exchangePrefix_other hother]
      exact h.dispatch_same fun _ => hother
    · obtain ⟨x, hx⟩ := Classical.not_forall.mp hother
      rw [Decidable.not_not.mp hx, exchangePrefix_selector]
      exact h.dispatch_selector hplain x
  | false =>
    rw [hplain, if_neg Bool.false_ne_true] at hbytes
    rw [hbytes]
    exact h.dispatch_same fun htrue => by cases hplain.symm.trans htrue

/-! ## Half-periods -/

theorem Faces.advancePc (h : c.Faces d) : c.advancePc.Faces d.advancePc := by
  refine h.of_same (f := Core.advancePc) (fun k => ?_) fun e => ?_
  · unfold Core.advancePc
    rw [show (c.mirrored k).fromMemory = c.fromMemory from rfl]
    split <;> rfl
  · rw [advancePc_eq]

theorem Faces.takeOpcodeByte (h : c.Faces d) (hbytes : c.Corresponds byte byte') :
    (c.takeOpcodeByte byte).Faces (d.takeOpcodeByte byte') := by
  cases hcode : c.instruction with
  | none =>
    rw [takeOpcodeByte_of_none hcode, takeOpcodeByte_of_none (h.unknown hcode)]
    have hadvanced : c.advancePc.instruction = c.instruction ∧ c.advancePc.page = c.page := by
      rw [advancePc_eq]
      exact ⟨rfl, rfl⟩
    refine h.advancePc.dispatch (hadvanced.1.trans hcode) ?_
    rw [Corresponds, awaits, hadvanced.1, hadvanced.2]
    exact hbytes
  | some code =>
    obtain ⟨image, himage, -⟩ := h.known code hcode
    rw [(corresponds_of_late (awaits_of_known hcode)).mp hbytes, takeOpcodeByte_of_some hcode,
      takeOpcodeByte_of_some himage]
    have hfetched : (c.fetch byte).Faces (d.fetch byte) :=
      h.of_same (f := fun e => e.fetch byte) (fun _ => rfl) fun _ => rfl
    exact (hfetched.execute .decoded).fitLength

theorem Faces.closeRead (h : c.Faces d) : c.closeRead.Faces d.closeRead := by
  refine h.of_same (f := Core.closeRead) (fun k => ?_) fun e => ?_
  · unfold Core.closeRead movePointer Core.advancePc
    rw [show (c.mirrored k).cycle.kind = c.cycle.kind from rfl]
    cases c.cycle.kind
    case opcodeFetch | operand | operandLow | operandHigh =>
      dsimp only
      split <;> split <;> first | rfl | contradiction
    all_goals rfl
  · unfold Core.closeRead
    rw [movePointer_eq]

theorem Faces.sampleRead (h : c.Faces d)
    (hnone : c.cycle.pattern = .opcodeRead → c.instruction = none)
    (hbyte : d.data.value = c.data.value) (hlate : c.awaits = false) :
    c.sampleRead.Faces d.sampleRead := by
  rw [sampleRead_eq, sampleRead_eq, h.shares.cycle, hbyte]
  have hclosed : c.closeRead.instruction = c.instruction ∧ c.closeRead.page = c.page := by
    unfold Core.closeRead
    rw [movePointer_eq]
    exact ⟨rfl, rfl⟩
  split
  · next hpattern =>
    refine h.closeRead.dispatch (hclosed.1.trans (hnone hpattern)) ?_
    rw [Corresponds, awaits, hclosed.1, hclosed.2]
    exact (corresponds_of_late hlate).mpr rfl
  · exact h.closeRead.of_same (f := fun e => e.fetch c.data.value) (fun _ => rfl) fun _ => rfl

/-- A half-period that touches nothing but wires keeps them facing each other. -/
theorem Faces.of_step {f : Core → Core × Bool} (h : c.Faces d)
    (hsame : ∀ k, f (c.mirrored k) = ((f c).1.mirrored (f (c.mirrored k)).1, (f c).2))
    (hkept : ∀ e, (f e).1.instruction = e.instruction) :
    (f d).2 = (f c).2 ∧ (f c).1.Faces (f d).1 := by
  have hstep := hsame d
  rw [← h.same, Prod.ext_iff] at hstep
  refine ⟨hstep.2, ⟨hstep.1, ?_, ?_⟩⟩
  · rw [hkept, hkept]
    exact h.known
  · rw [hkept, hkept]
    exact h.unknown

theorem Faces.fetchHalf (h : c.Faces d)
    (hbytes : half = 4 → c.Corresponds c.data.value d.data.value) :
    (d.fetchHalf half).2 = (c.fetchHalf half).2
      ∧ (c.fetchHalf half).1.Faces (d.fetchHalf half).1 := by
  obtain rfl | rfl | rfl | rfl | rfl | rfl | rfl | rfl | rfl | ⟨n, rfl⟩ :=
    ActiveCycle.half_cases half
  case inr.inr.inr.inr.inl =>
    refine ⟨rfl, ?_⟩
    show c.sampleOpcode.Faces d.sampleOpcode
    rw [sampleOpcode_eq, sampleOpcode_eq]
    have hturned : c.turnToRefresh.Faces d.turnToRefresh :=
      h.of_same (f := turnToRefresh) (fun _ => rfl) fun _ => rfl
    exact hturned.takeOpcodeByte (hbytes rfl)
  -- here an acknowledgement does not do what a fetch does, and both chips run the same one
  case inr.inl | inr.inr.inr.inl =>
    refine h.of_step (f := fun e => e.fetchHalf _) (fun k => ?_) fun e => ?_
    · simp only [Core.fetchHalf]
      rw [show (c.mirrored k).cycle = c.cycle from rfl]
      split <;> rfl
    · simp only [Core.fetchHalf]
      split <;> rfl
  all_goals exact h.of_step (f := fun e => e.fetchHalf _) (fun _ => rfl) fun _ => rfl

theorem Faces.readHalf (h : c.Faces d)
    (hnone : half = 5 → c.cycle.pattern = .opcodeRead → c.instruction = none)
    (hbyte : half = 5 → d.data.value = c.data.value) (hlate : c.awaits = false) :
    (d.readHalf half).2 = (c.readHalf half).2
      ∧ (c.readHalf half).1.Faces (d.readHalf half).1 := by
  obtain rfl | rfl | rfl | rfl | rfl | rfl | rfl | rfl | rfl | ⟨n, rfl⟩ :=
    ActiveCycle.half_cases half
  case inr.inr.inr.inr.inr.inl => exact ⟨rfl, h.sampleRead (hnone rfl) (hbyte rfl) hlate⟩
  all_goals exact h.of_step (f := fun e => e.readHalf _) (fun _ => rfl) fun _ => rfl

theorem Faces.writeHalf (h : c.Faces d) (half : Nat) :
    (d.writeHalf half).2 = (c.writeHalf half).2
      ∧ (c.writeHalf half).1.Faces (d.writeHalf half).1 := by
  obtain rfl | rfl | rfl | rfl | rfl | rfl | rfl | rfl | rfl | ⟨n, rfl⟩ :=
    ActiveCycle.half_cases half
  case inl =>
    refine h.of_step (f := fun e => e.writeHalf 0) (fun k => ?_) fun e => ?_
    · simp only [Core.writeHalf, addressWrite]
      rw [show (c.mirrored k).releaseRefresh.cycle.kind = c.releaseRefresh.cycle.kind from rfl]
      cases c.releaseRefresh.cycle.kind <;> rfl
    · simp only [Core.writeHalf, addressWrite]
      split <;> rfl
  case inr.inr.inr.inl =>
    refine h.of_step (f := fun e => e.writeHalf 3) (fun k => ?_) fun e => ?_
    · simp only [Core.writeHalf]
      rw [show (c.mirrored k).held = c.held from rfl]
      split <;> rfl
    · simp only [Core.writeHalf]
      split <;> rfl
  all_goals exact h.of_step (f := fun e => e.writeHalf _) (fun _ => rfl) fun _ => rfl

theorem Faces.portReadHalf (h : c.Faces d) (hbyte : half = 7 → d.data.value = c.data.value) :
    (d.portReadHalf half).2 = (c.portReadHalf half).2
      ∧ (c.portReadHalf half).1.Faces (d.portReadHalf half).1 := by
  obtain rfl | rfl | rfl | rfl | rfl | rfl | rfl | rfl | rfl | ⟨n, rfl⟩ :=
    ActiveCycle.half_cases half
  case inr.inr.inr.inr.inr.inr.inr.inl =>
    refine ⟨rfl, ?_⟩
    simp only [Core.portReadHalf]
    rw [hbyte rfl]
    exact h.of_same (f := fun e => { e with
      latches.fetched := c.data.value
      pins.iorq := .released
      pins.rd := .released }) (fun _ => rfl) fun _ => rfl
  all_goals exact h.of_step (f := fun e => e.portReadHalf _) (fun _ => rfl) fun _ => rfl

/-- What one half-period of the pattern does to both. -/
theorem Faces.patternHalf (h : c.Faces d) (hcourse : c.Course half)
    (hbytes : half = c.cycle.pattern.sampleHalf → c.cycle.pattern ∉ [.write, .portWrite, .internal] →
      c.Corresponds c.data.value d.data.value) :
    (d.patternHalf half).2 = (c.patternHalf half).2
      ∧ (c.patternHalf half).1.Faces (d.patternHalf half).1 := by
  unfold Core.patternHalf
  rw [h.shares.cycle]
  -- a prefix counts in nothing but a fetch
  have hlate (hpattern : c.cycle.pattern ≠ .fetch ∧ c.cycle.pattern ≠ .acknowledge) :
      c.awaits = false := by
    refine Bool.eq_false_iff.mpr fun hawaits => ?_
    rcases (hcourse.fetching hawaits).2 with hfetch | hack
    · exact hpattern.1 hfetch
    · exact hpattern.2 hack
  have hbyte (hpattern : c.cycle.pattern ≠ .fetch ∧ c.cycle.pattern ≠ .acknowledge)
      (hbytes : c.Corresponds c.data.value d.data.value) : d.data.value = c.data.value :=
    (corresponds_of_late (hlate hpattern)).mp hbytes
  cases hpattern : c.cycle.pattern <;> rw [hpattern] at hbytes hlate hbyte <;> dsimp only
  case fetch | acknowledge => exact h.fetchHalf fun hhalf => hbytes hhalf (by decide)
  case opcodeRead | read =>
    refine h.readHalf (fun hhalf hread => ?_)
      (fun hhalf => hbyte (by decide) (hbytes hhalf (by decide))) (hlate (by decide))
    cases hcode : c.instruction with
    | none => rfl
    | some code =>
      have hafter : 5 < half := (hcourse.scheduled code hcode).2.2 hread
      omega
  case write => exact h.writeHalf half
  case portRead => exact h.portReadHalf fun hhalf => hbyte (by decide) (hbytes hhalf (by decide))
  case portWrite =>
    obtain rfl | rfl | rfl | rfl | rfl | rfl | rfl | rfl | rfl | ⟨n, rfl⟩ :=
      ActiveCycle.half_cases half
    all_goals exact h.of_step (f := fun e => e.portWriteHalf _) (fun _ => rfl) fun _ => rfl
  case internal =>
    obtain rfl | rfl | rfl | rfl | rfl | rfl | rfl | rfl | rfl | ⟨n, rfl⟩ :=
      ActiveCycle.half_cases half
    all_goals exact h.of_step (f := fun e => e.internalHalf _) (fun _ => rfl) fun _ => rfl

/-- Running a half-period keeps them facing each other, and they end their cycle together. -/
theorem Faces.runHalf (h : c.Faces d) (hcourse : c.Course c.cycle.half)
    (hbytes : c.cycle.half = c.cycle.pattern.sampleHalf →
      c.cycle.pattern ∉ [.write, .portWrite, .internal] → c.Corresponds c.data.value d.data.value) :
    d.runHalf.2 = c.runHalf.2 ∧ c.runHalf.1.Faces d.runHalf.1 := by
  have hcounted : c.countEdge.Faces d.countEdge :=
    h.of_same (f := countEdge) (fun _ => rfl) fun _ => rfl
  have hcourse' : c.countEdge.Course c.cycle.half := hcourse.congr rfl rfl
  obtain ⟨hwaits, hran⟩ := hcounted.patternHalf hcourse' hbytes
  rw [waits_countEdge, show c.cycle.half = d.cycle.half by rw [h.shares.cycle], waits_countEdge]
    at hwaits
  rw [runHalf_eq, runHalf_eq, hwaits, h.shares.cycle]
  dsimp only
  generalize (c.countEdge.patternHalf c.cycle.half).1 = moved at hran ⊢
  generalize (d.countEdge.patternHalf c.cycle.half).1 = moved' at hran ⊢
  have hset (cycle : ActiveCycle) : ({ moved with cycle } : Core).Faces { moved' with cycle } :=
    hran.of_same (f := fun e => { e with cycle }) (fun _ => rfl) fun _ => rfl
  rw [hran.shares.cycle]
  split
  · exact ⟨rfl, hset _⟩
  split
  · exact ⟨rfl, hran⟩
  · exact ⟨rfl, hset _⟩

/-! ## The end of a cycle -/

theorem Faces.latchResult (h : c.Faces d) : c.latchResult.Faces d.latchResult := by
  have hcycle := h.shares.cycle
  cases hcode : c.instruction with
  | none =>
    rw [latchResult_of_none hcode, latchResult_of_none (h.unknown hcode), hcycle]
    split
    · exact h.of_same (f := keepDisplacement) (fun _ => rfl) fun _ => rfl
    · exact h
  | some code =>
    obtain ⟨image, himage, hmirrors⟩ := h.known code hcode
    have hstowed : (c.stow code).Faces (d.stow image) := by
      refine h.of_mirrored ?_ (by rw [stow_eq])
      unfold stow
      rw [hcycle, show image.hasOperand .absolute = code.hasOperand .absolute from
        hmirrors.hasOperand_eq .absolute, h.same]
      split
      case h_3 =>
        dsimp only
        split <;> rfl
      all_goals rfl
    rw [latchResult_of_some hcode, latchResult_of_some himage, hcycle, hmirrors.index?_eq,
      h.shares.displacement]
    split
    · exact h
    rcases code.index? with _ | x
    · exact hstowed.execute _
    rcases c.displacement with _ | offset
    · cases c.cycle.kind
      case operand =>
        have hplaced : d.placeOperand x.mirror
            = (c.placeOperand x).mirrored (d.placeOperand x.mirror) := by
          rw [h.same]
          cases x <;> rfl
        exact h.of_mirrored hplaced rfl
      all_goals exact hstowed.execute _
    · exact hstowed.execute _

/-- Their next cycles are the same, and their instructions end together. -/
theorem Faces.nextCycle (h : c.Faces d) :
    d.nextCycle.2 = c.nextCycle.2 ∧ c.nextCycle.1.Faces d.nextCycle.1 := by
  have hstepped : c.stepOn.Faces d.stepOn := h.of_same (f := stepOn) (fun _ => rfl) fun _ => rfl
  have hbegun (kind : CycleKind) (length : Nat) :
      (c.stepOn.beginCycle kind length).Faces (d.stepOn.beginCycle kind length) :=
    hstepped.of_same (f := fun e => e.beginCycle kind length) (fun k => by cases kind <;> rfl)
      fun _ => rfl
  cases hcode : c.instruction with
  | none =>
    rw [nextCycle_of_none hcode, nextCycle_of_none (h.unknown hcode), h.shares.chain]
    cases c.chain <;> exact ⟨rfl, hbegun _ _⟩
  | some code =>
    obtain ⟨image, himage, -⟩ := h.known code hcode
    rw [nextCycle_of_some hcode, nextCycle_of_some himage, h.shares.cycles, h.shares.position]
    cases c.cycles[c.position + 1]? with
    | none => exact ⟨rfl, hstepped⟩
    | some next => exact ⟨rfl, hbegun _ _⟩

/-! ## Edges -/

/-- They put the same byte on the data bus. -/
theorem Faces.dataAfter {asked : Prop} (h : c.Faces d) (half : Nat)
    (hdata : c.data.Matches asked d.data) : (c.dataAfter half).Matches asked (d.dataAfter half) := by
  have hbyte : d.writeByte = c.writeByte := by
    rw [h.same]
    rfl
  unfold Core.dataAfter
  rw [h.shares.cycle, h.shares.latches, hbyte]
  split
  · exact Bus.Matches.ite (hdata.drive _) (.ite hdata.release hdata)
  · exact Bus.Matches.ite (hdata.drive _) (.ite hdata.release hdata)
  · exact hdata

/-- What an edge makes of two chips that face each other. -/
structure Faces.Edges (c d : Core) (e e' : Edge) : Prop where
  ended : e'.ended = e.ended
  faces : e.core.Faces e'.core
  data : ∀ asked : Prop, c.data.Matches asked d.data → e.core.data.Matches asked e'.core.data

theorem Faces.runEdge (h : c.Faces d) (hcourse : c.Course c.cycle.half)
    (hbytes : c.cycle.half = c.cycle.pattern.sampleHalf →
      c.cycle.pattern ∉ [.write, .portWrite, .internal] → c.Corresponds c.data.value d.data.value)
    (emitted emitted' : List Emission) :
    Faces.Edges c d (c.runEdge emitted) (d.runEdge emitted') := by
  obtain ⟨hlast, hran⟩ := h.runHalf hcourse hbytes
  have hdata (asked : Prop) (hmatches : c.data.Matches asked d.data) :
      c.runHalf.1.data.Matches asked d.runHalf.1.data := by
    rw [buses_runHalf.2, buses_runHalf.2, h.shares.cycle]
    exact h.dataAfter _ hmatches
  rw [runEdge_eq, runEdge_eq, hlast]
  split
  · have hlatched := hran.latchResult
    obtain ⟨hend, hnext⟩ := hlatched.nextCycle
    have hleaves (e : Core) : e.latchResult.nextCycle.1.data = e.data :=
      (leaves_latchResult.trans leaves_nextCycle).data
    rw [endCycle_eq, endCycle_eq, hend]
    have hdata' (asked : Prop) (hmatches : c.data.Matches asked d.data) :
        c.runHalf.1.latchResult.nextCycle.1.data.Matches asked
          d.runHalf.1.latchResult.nextCycle.1.data := by
      rw [hleaves, hleaves]
      exact hdata asked hmatches
    split
    · exact ⟨rfl, hnext.of_same (f := Core.complete) (fun _ => rfl) fun _ => rfl, hdata'⟩
    · exact ⟨rfl, hnext, hdata'⟩
  · exact ⟨rfl, hran, hdata⟩

/-- A sound chip amid an instruction is under way. -/
theorem Amid.underway (h : c.Amid) (hsound : c.Sound) : c.Underway := by
  rcases h.phase with hphase | hphase
  · exact hsound.running hphase h.chosen
  · exact (hsound.released hphase).1

/-- Unless it is reset, a chip amid an instruction goes on at once, if it has its buses. -/
theorem Amid.edge_eq (h : c.Amid) {level : Level} {inputs : InputLevels}
    (hreset : inputs.reset.isAsserted = false) :
    c.edge level inputs =
      if c.phase = .busReleased then
        if level.isLow || inputs.busreq.isAsserted then (c.sampleInputs inputs).idle []
        else (c.sampleInputs inputs).returnBus.advance []
      else (c.sampleInputs inputs).advance [] := by
  have hkept : (c.sampleInputs inputs).leaveReset = c.sampleInputs inputs := by
    refine if_neg fun hphase => ?_
    rcases h.phase with hother | hother <;> cases hother.symm.trans hphase
  have hchosen (e : Core) (he : e.boundaryPending = false) : e.chosen = (e, []) := by
    rw [Core.chosen, he]
    rfl
  rw [Core.edge_eq, hreset, if_neg Bool.false_ne_true, hkept, Core.readied,
    show (c.sampleInputs inputs).phase = c.phase from rfl,
    show (c.sampleInputs inputs).pins.busreq = inputs.busreq from rfl]
  rcases h.phase with hphase | hphase <;> rw [hphase] <;> dsimp only
  · rw [hchosen (c.sampleInputs inputs) h.chosen, if_neg (by decide)]
  · rw [hchosen (c.sampleInputs inputs).returnBus h.chosen, if_pos rfl]
    cases level.isLow || inputs.busreq.isAsserted <;> rfl

theorem Faces.advance (h : c.Faces d) (hcourse : c.Course c.cycle.half)
    (hbytes : c.cycle.half = c.cycle.pattern.sampleHalf →
      c.cycle.pattern ∉ [.write, .portWrite, .internal] → c.Corresponds c.data.value d.data.value)
    (emitted emitted' : List Emission) :
    Faces.Edges c d (c.advance emitted) (d.advance emitted') := by
  unfold Core.advance
  rw [h.shares.cycle, h.shares.pins]
  split
  · split
    · exact ⟨rfl, h.of_same (f := releaseBus) (fun _ => rfl) fun _ => rfl,
        fun _ hdata => hdata.release⟩
    · exact h.runEdge hcourse hbytes _ _
  · exact h.runEdge hcourse hbytes _ _

/-- Amid an instruction two chips that face each other go on doing so, as long as they take in bytes
    that correspond, and they end it together. -/
theorem Faces.edge (h : c.Faces d) (hamid : c.Amid) (hcourse : c.Course c.cycle.half)
    (hbytes : c.cycle.half = c.cycle.pattern.sampleHalf →
      c.cycle.pattern ∉ [.write, .portWrite, .internal] → c.Corresponds c.data.value d.data.value)
    {inputs : InputLevels} (hreset : inputs.reset.isAsserted = false) (level : Level) :
    Faces.Edges c d (c.edge level inputs) (d.edge level inputs) := by
  have hamid' : d.Amid := by
    refine ⟨?_, h.shares.pending.trans hamid.chosen⟩
    rw [h.shares.phase]
    exact hamid.phase
  have hsampled : (c.sampleInputs inputs).Faces (d.sampleInputs inputs) :=
    h.of_same (f := fun e => e.sampleInputs inputs) (fun _ => rfl) fun _ => rfl
  rw [hamid.edge_eq hreset, hamid'.edge_eq hreset, h.shares.phase]
  split
  · split
    · exact ⟨rfl, hsampled, fun _ hdata => hdata⟩
    · have hreturned : (c.sampleInputs inputs).returnBus.Faces (d.sampleInputs inputs).returnBus :=
        hsampled.of_same (f := returnBus) (fun _ => rfl) fun _ => rfl
      obtain ⟨hended, hfaces, hdata⟩ :=
        hreturned.advance (hcourse.congr rfl rfl) hbytes [] []
      exact ⟨hended, hfaces, hdata⟩
  · obtain ⟨hended, hfaces, hdata⟩ := hsampled.advance (hcourse.congr rfl rfl) hbytes [] []
    exact ⟨hended, hfaces, hdata⟩

/-! ## The first edge -/

variable (c)

/-- The chip with mirrored registers, before its instruction begins. -/
def reflected (c : Core) : Core :=
  c.modifyRegs Registers.mirror

theorem leaveHalt_reflected : c.reflected.leaveHalt = c.leaveHalt.reflected := by
  unfold leaveHalt
  rw [show c.reflected.halted = c.halted from rfl]
  split <;> rfl

theorem startInternal_reflected (op : InternalOp) :
    c.reflected.startInternal op = (c.startInternal op).reflected := rfl

theorem startFetch_reflected (origin : Origin) :
    c.reflected.startFetch origin = (c.startFetch origin).reflected := rfl

theorem resolveNext_reflected : c.reflected.resolveNext = c.resolveNext.reflected := by
  have hnmi (e : Core) : e.reflected.acceptNmi = e.acceptNmi.reflected := by
    rw [acceptNmi_eq, acceptNmi_eq, leaveHalt_reflected, ← startInternal_reflected]
    rfl
  have hint (e : Core) : e.reflected.acceptInt = e.acceptInt.reflected := by
    have htaken : e.leaveHalt.reflected.takeInt = e.leaveHalt.takeInt.reflected := rfl
    rw [acceptInt_eq, acceptInt_eq, leaveHalt_reflected, htaken, startFetch_reflected,
      startInternal_reflected, startInternal_reflected,
      show e.leaveHalt.reflected.regs.im = e.leaveHalt.regs.im from rfl]
    split
    · rfl
    split <;> rfl
  have hcleared : c.reflected.cleared = c.cleared.reflected := rfl
  rw [resolveNext_eq, resolveNext_eq, hcleared, hnmi, hint, startInternal_reflected,
    startFetch_reflected, show c.reflected.nmiPending = c.nmiPending from rfl,
    show c.reflected.pins = c.pins from rfl, show c.reflected.regs = c.regs.mirror from rfl,
    show c.reflected.intBlocked = c.intBlocked from rfl, show c.reflected.halted = c.halted from rfl,
    show c.regs.mirror.iff1 = c.regs.iff1 from rfl, show c.regs.mirror.pc = c.regs.pc from rfl]
  split
  · rfl
  split
  · rfl
  split <;> rfl

theorem chosen_reflected : c.reflected.chosen.1 = c.chosen.1.reflected := by
  unfold chosen
  rw [show c.reflected.boundaryPending = c.boundaryPending from rfl]
  split
  · exact resolveNext_reflected { c with boundaryPending := false }
  · rfl

theorem readied_reflected (level : Level) :
    (c.reflected.readied level).map Prod.fst
      = (c.readied level).map fun made => made.1.reflected := by
  unfold readied
  rw [show c.reflected.phase = c.phase from rfl, show c.reflected.pins = c.pins from rfl]
  cases c.phase <;> dsimp only
  case powerOn =>
    cases level.isLow
    · exact congrArg some (resolveNext_reflected { c with phase := .running })
    · rfl
  case busReleased =>
    cases level.isLow || c.pins.busreq.isAsserted
    · exact congrArg some (chosen_reflected c.returnBus)
    · rfl
  case running | reset => exact congrArg some (chosen_reflected c)

/-- An edge engages the same chip with mirrored registers. -/
theorem engaged_reflected (level : Level) (inputs : InputLevels) :
    c.reflected.engaged level inputs = (c.engaged level inputs).map reflected := by
  have hready := (c.sampleInputs inputs).leaveReset.readied_reflected level
  have hkept : (c.reflected.sampleInputs inputs).leaveReset
      = (c.sampleInputs inputs).leaveReset.reflected := by
    unfold leaveReset
    rw [show (c.reflected.sampleInputs inputs).phase = (c.sampleInputs inputs).phase from rfl]
    split <;> rfl
  unfold engaged
  dsimp only
  rw [hkept, show (c.reflected.sampleInputs inputs).pins = (c.sampleInputs inputs).pins from rfl]
  split
  · rfl
  cases hmade : (c.sampleInputs inputs).leaveReset.readied level with
  | none =>
    rw [hmade] at hready
    rw [Option.map_eq_none_iff.mp hready]
    rfl
  | some made =>
    rw [hmade] at hready
    obtain ⟨made', hmade', hsame⟩ := Option.map_eq_some_iff.mp hready
    rw [hmade']
    dsimp only
    rw [hsame, show made.1.reflected.cycle = made.1.cycle from rfl,
      show made.1.reflected.pins = made.1.pins from rfl]
    split <;> rfl

variable {c}

/-- They face each other as long as nothing of the instruction has been taken in. -/
theorem faces_reflected (hnone : c.instruction = none) (hpage : c.page = .main) :
    c.Faces c.reflected := by
  refine ⟨?_, fun code hcode => ?_, fun _ => hnone⟩
  · show c.modifyRegs Registers.mirror = c.mirrored (c.modifyRegs Registers.mirror)
    rw [mirrored, hpage]
    cases c
    cases hpage
    rfl
  · cases hnone.symm.trans hcode

end Core

end Z80Board
