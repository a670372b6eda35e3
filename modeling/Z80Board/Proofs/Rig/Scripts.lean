import Z80Board.Proofs.Chip.Guises
import Z80Board.Proofs.Rig.Instructions

namespace Z80Board

/-! ## How long an instruction is -/

/-- What the grammar finds is an instruction of its page. -/
theorem Scans.entitled {byteAt : Word → Byte} {pc : Word} {count : Nat} {page : Page}
    {opcode : Byte} (h : Scans byteAt pc count page opcode) :
    Listing.Entitled Catalog.forms page (decode page opcode) := by
  induction h with
  | @main pc plain =>
    simp only [List.mem_cons, List.not_mem_nil, or_false, not_or] at plain
    obtain ⟨hcb, hdd, hed, hfd⟩ := plain
    exact entitled_of_alone (by rw [Page.lead?, if_neg hcb, if_neg hdd, if_neg hed, if_neg hfd]) rfl
  | cb | ed => exact entitled_of_alone rfl rfl
  | @displaced _ x => cases x <;> exact entitled_of_alone rfl rfl
  | @own _ x _ other owns => exact entitled_of_owns (by cases x <;> exact if_neg other) owns
  | ignored _ _ _ _ ih => exact ih

/-- An instruction is longer than the way to its page. -/
theorem Listing.Entitled.room {page : Page} {code : Instruction}
    (h : Listing.Entitled Catalog.forms page code) : codeBytes page.approach + 1 ≤ code.size := by
  have hall : ∀ p ∈ Catalog.forms, ∀ page, p.2.page = some page →
      codeBytes page.approach + 1 ≤ p.2.size := by
    decide +kernel
  obtain ⟨m, f, hf, hpage, hcode⟩ := h
  rw [hcode.size]
  exact hall (m, f) hf page hpage

/-- Where an instruction is found depends on its own bytes only. -/
theorem Scans.congr {byteAt byteAt' : Word → Byte} {pc : Word} {count : Nat} {page : Page}
    {opcode : Byte} (h : Scans byteAt pc count page opcode)
    (hsame : ∀ i < count + (decode page opcode).size,
      byteAt' (pc + i.toUInt16) = byteAt (pc + i.toUInt16)) :
    Scans byteAt' pc count page opcode := by
  have hfirst {pc : Word} {size : Nat} (hsize : 0 < size)
      (hsame : ∀ i < size, byteAt' (pc + i.toUInt16) = byteAt (pc + i.toUInt16)) :
      byteAt' pc = byteAt pc := by
    have hzero := hsame 0 hsize
    rw [show (0 : Nat).toUInt16 = 0 from rfl, UInt16.add_zero] at hzero
    exact hzero
  have hroom := h.entitled.room
  -- each way to the opcode reads bytes of the instruction alone, so the same bytes are found there
  induction h with
  | @main pc plain =>
    have hpc : byteAt' pc = byteAt pc := hfirst (by omega) hsame
    rw [← hpc] at plain ⊢
    exact .main plain
  | @cb pc selects =>
    have hsize : 1 + 1 ≤ (decode .cb (byteAt (pc + 1))).size := hroom
    have hsecond : byteAt' (pc + 1) = byteAt (pc + 1) := hsame 1 (by omega)
    rw [← hsecond]
    exact .cb ((hfirst (by omega) hsame).trans selects)
  | @ed pc selects =>
    have hsize : 1 + 1 ≤ (decode .ed (byteAt (pc + 1))).size := hroom
    have hsecond : byteAt' (pc + 1) = byteAt (pc + 1) := hsame 1 (by omega)
    rw [← hsecond]
    exact .ed ((hfirst (by omega) hsame).trans selects)
  | @displaced pc x selects bits =>
    have hsize : 3 + 1 ≤ (decode x.bitPage (byteAt (pc + 3))).size := by
      cases x <;> exact hroom
    have hsecond : byteAt' (pc + 1) = byteAt (pc + 1) := hsame 1 (by omega)
    have hlast : byteAt' (pc + 3) = byteAt (pc + 3) := hsame 3 (by omega)
    rw [← hlast]
    exact .displaced ((hfirst (by omega) hsame).trans selects) (hsecond.trans bits)
  | @own pc x selects other owns =>
    have hsize : 1 + 1 ≤ (decode x.page (byteAt (pc + 1))).size := by
      cases x <;> exact hroom
    have hsecond : byteAt' (pc + 1) = byteAt (pc + 1) := hsame 1 (by omega)
    rw [← hsecond] at other owns ⊢
    exact .own ((hfirst (by omega) hsame).trans selects) other owns
  | @ignored pc x count page opcode selects other foreign rest ih =>
    have hsecond : byteAt' (pc + 1) = byteAt (pc + 1) := hsame 1 (by omega)
    rw [← hsecond] at other foreign
    refine .ignored ((hfirst (by omega) hsame).trans selects) other foreign
      (ih (fun i hi => ?_) hroom)
    have hlater : pc + 1 + i.toUInt16 = pc + (i + 1).toUInt16 := by
      rw [UInt16.add_assoc, UInt16.add_comm 1]
      exact congrArg (pc + ·) (UInt16.ofNat_add i 1).symm
    rw [hlater]
    exact hsame (i + 1) (by omega)

/-- So much is still to be read when a byte is looked up. -/
theorem Awaits.room {byteAt : Word → Byte} {current : Page} {pc : Word} {count : Nat} {page : Page}
    {opcode : Byte} (h : Awaits byteAt current pc count page opcode) :
    codeBytes current.approach + 1 ≤ count + (decode page opcode).size := by
  cases h with
  | main scans =>
    have hroom := scans.entitled.room
    show 0 + 1 ≤ _
    omega
  | plain plain =>
    rw [Nat.zero_add]
    rcases plain with rfl | rfl <;> exact (entitled_of_alone rfl rfl).room
  | @displaced x _ bits =>
    have hroom : codeBytes x.bitPage.approach + 1 ≤ (decode x.bitPage (byteAt (pc + 2))).size := by
      cases x <;> exact (entitled_of_alone rfl rfl).room
    have happroach : codeBytes x.page.approach ≤ codeBytes x.bitPage.approach := by
      cases x <;> decide
    omega
  | @own x _ other owns =>
    rw [Nat.zero_add]
    exact (entitled_of_owns (by cases x <;> exact if_neg other) owns).room
  | @ignored x _ count _ _ other foreign rest =>
    have hroom := rest.entitled.room
    have happroach : codeBytes x.page.approach = 1 := by cases x <;> rfl
    omega

/-- An absolute jump to an address that is at hand has no cycle but its fetches. -/
theorem Listing.Entitled.kind_of_decoded {page : Page} {code : Instruction}
    (h : Listing.Entitled Catalog.forms page code) (hleaves : code.leavesAt = some .decoded)
    {met : Bool} {cycle : MachineCycle} (hcycle : cycle ∈ code.timing.cycles met) :
    cycle.kind = .opcodeFetch := by
  have hall : ∀ p ∈ Catalog.forms, ∀ encoding ∈ p.2.encodings,
      p.1.leavesAt encoding.2[0]? = some .decoded → ∀ met, ∀ cycle ∈ p.2.timing.cycles met,
        cycle.kind = .opcodeFetch := by
    decide +kernel
  obtain ⟨m, f, hf, -, hcode⟩ := h
  obtain ⟨opcode, hmem⟩ := hcode.operands
  rw [Instruction.leavesAt, hcode.mnemonic] at hleaves
  rw [hcode.timing] at hcycle
  exact hall (m, f) hf _ hmem hleaves met cycle hcycle

namespace Core

variable {c d k : Core} {byte : Byte} {half : Nat}

/-! ## On course through a cycle -/

/-- Whether a chip is on course does not depend on its wires. -/
theorem Course.of_logic (h : c.Course half) (hlogic : d.logic = c.logic) : d.Course half := by
  have hpace : d.logic.pace = c.logic.pace := by rw [hlogic]
  have hplace : d.logic.place = c.logic.place := by rw [hlogic]
  exact h.congr hpace hplace

/-- Neither does what has been completed. -/
theorem Completes.of_logic {q : Sought} (h : Completes q c) (hlogic : d.logic = c.logic) :
    Completes q d := by
  have hback : Completes q d.logic := by
    rw [hlogic]
    exact ⟨h.code, h.pc, h.r⟩
  exact ⟨hback.code, hback.pc, hback.r⟩

/-- A half-period that takes in a byte of the opcode keeps the chip on course. -/
theorem Course.effect_takes (h : c.Course half) (htakes : c.TakesByte half) (byte : Byte) :
    (c.effect half byte).Course (half + 1)
      ∧ if c.instruction.isNone && c.drops byte then
          c.ran = [⟨.opcodeFetch, 4⟩] ∧ (c.effect half byte).ran = []
        else (c.effect half byte).ran = c.ran := by
  let k : Core := { c with data := { c.data with value := byte } }
  have hk : k.Course half := h.congr rfl rfl
  obtain ⟨hcourse, hran⟩ := hk.takes htakes
  have heffect : (k.patternHalf half).1.wiredAs k = (c.effect half byte).wiredAs k :=
    (k.patternHalf_wiredAs_self half).trans (c.effect_wiredAs k half byte)
  have hpace : (c.effect half byte).pace = (k.patternHalf half).1.pace :=
    (congrArg pace heffect).symm
  have hplace : (c.effect half byte).place = (k.patternHalf half).1.place :=
    (congrArg place heffect).symm
  rw [ran_congr hpace hplace]
  exact ⟨hcourse.congr hpace hplace, hran⟩

/-- Any other half-period leaves it where it is in its plan. -/
theorem still_effect (htakes : ¬ c.TakesByte half) (byte : Byte) :
    (c.effect half byte).pace = c.pace ∧ (c.effect half byte).place = c.place := by
  let k : Core := { c with data := { c.data with value := byte } }
  have hstill : k.Still (k.patternHalf half).1 := still_patternHalf htakes
  have heffect : (k.patternHalf half).1.wiredAs k = (c.effect half byte).wiredAs k :=
    (k.patternHalf_wiredAs_self half).trans (c.effect_wiredAs k half byte)
  exact ⟨(congrArg pace heffect).symm.trans hstill.pace,
    (congrArg place heffect).symm.trans hstill.place⟩

/-- So does a whole cycle. -/
theorem still_played (hnot : ∀ half, ¬ c.TakesByte half) (byte : Byte) :
    (c.played byte).pace = c.pace ∧ (c.played byte).place = c.place := by
  have hlater : ¬ (c.effect 0 byte).TakesByte c.cycle.pattern.sampleHalf := fun htakes => by
    rw [TakesByte, pattern_effect] at htakes
    exact hnot _ htakes
  obtain ⟨hpace, hplace⟩ := still_effect (hnot 0) byte
  obtain ⟨hpace', hplace'⟩ := still_effect hlater byte
  exact ⟨hpace'.trans hpace, hplace'.trans hplace⟩

/-- A half-period that takes in no byte of the opcode, and is not the last one. -/
theorem Course.effect_proceeds (h : c.Course half) (htakes : ¬ c.TakesByte half)
    (hmore : half + 1 < 2 * c.cycle.length) (byte : Byte) :
    (c.effect half byte).Course (half + 1) := by
  obtain ⟨hpace, hplace⟩ := still_effect htakes byte
  exact (h.proceed htakes hmore).congr hpace hplace

/-- Every half-period of a cycle keeps this up as long as the chip is on course. -/
def Keeping (c : Core) (byte : Byte) (P : Core → Nat → Prop) : Prop :=
  ∀ half, (c.through byte half).Course half → P (c.through byte half) half →
    P (c.through byte (half + 1)) (half + 1)

theorem pattern_played (c : Core) (byte : Byte) :
    (c.played byte).cycle.pattern = c.cycle.pattern := by
  rw [← through_late (Nat.lt_succ_self _), pattern_through]

/-- Nothing is taken in behind the half-period that samples. -/
theorem not_takesByte_played (hlate : c.cycle.pattern.sampleHalf < half) :
    ¬ (c.played byte).TakesByte half := fun htakes => by
  have hhere := htakes.half_eq
  rw [pattern_played] at hhere
  omega

section

variable {P : Core → Nat → Prop}

/-- Up to that half-period the chip stays on course, since it has only to wait for it. -/
theorem Keeping.early (h : c.Keeping byte P) (hcourse : c.Course 0) (hstart : P c 0)
    (hhalf : half ≤ c.cycle.pattern.sampleHalf) :
    (c.through byte half).Course half ∧ P (c.through byte half) half := by
  have hroom := c.cycle.pattern.sampleHalf_lt
  induction half with
  | zero => exact ⟨hcourse, hstart⟩
  | succ half ih =>
    obtain ⟨hcourse, hkept⟩ := ih (by omega)
    have hlength := hcourse.room
    rw [pattern_through] at hlength
    refine ⟨hcourse.effect_proceeds (fun htakes => ?_) (by omega) byte, h half hcourse hkept⟩
    have hhere := htakes.half_eq
    rw [pattern_through] at hhere
    omega

/-- Behind it the chip has nothing left to do. -/
theorem Keeping.late (h : c.Keeping byte P) (hlate : c.cycle.pattern.sampleHalf < half)
    (hcourse : (c.played byte).Course half) (hkept : P (c.played byte) half) :
    P (c.played byte) (half + 1) := by
  have hnext := h half
  rw [through_late hlate, through_late (Nat.lt_succ_of_lt hlate)] at hnext
  exact hnext hcourse hkept

/-- The last half-period of the cycle. -/
theorem ends_played (hcourse : (c.played byte).Course half)
    (htakes : ¬ (c.played byte).TakesByte half)
    (hlast : half + 1 = 2 * (c.played byte).cycle.length) (hkept : P (c.played byte) (half + 1)) :
    ∃ d : Core, d.Closes ∧ d.logic = (c.played byte).logic
      ∧ P (c.played byte) (d.cycle.half + 1) :=
  ⟨{ c.played byte with cycle.half := half }, ⟨hcourse.congr rfl rfl, htakes, hlast⟩, rfl, hkept⟩

/-- From behind the half-period that samples, the cycle comes to its end. -/
theorem Keeping.ends (h : c.Keeping byte P) (hlate : c.cycle.pattern.sampleHalf < half)
    (hcourse : (c.played byte).Course half) (hkept : P (c.played byte) half) :
    ∃ d : Core, d.Closes ∧ d.logic = (c.played byte).logic
      ∧ P (c.played byte) (d.cycle.half + 1) := by
  have hhere := hcourse.half_lt
  obtain ⟨rest, hrest⟩ : ∃ rest, half + rest + 1 = 2 * (c.played byte).cycle.length :=
    ⟨2 * (c.played byte).cycle.length - (half + 1), by omega⟩
  induction rest generalizing half with
  | zero => exact ends_played hcourse (not_takesByte_played hlate) hrest (h.late hlate hcourse hkept)
  | succ rest ih =>
    have hmore : half + 1 < 2 * (c.played byte).cycle.length := by omega
    exact ih (Nat.lt_succ_of_lt hlate) (hcourse.proceed (not_takesByte_played hlate) hmore)
      (h.late hlate hcourse hkept) hmore (by omega)

/-- What every half-period of a cycle keeps up holds at the end of the cycle, and the chip is at its
    end there. -/
theorem Course.through (h : c.Course 0) (byte : Byte) (hstart : P c 0) (hstep : c.Keeping byte P) :
    ∃ d : Core, d.Closes ∧ d.logic = (c.played byte).logic
      ∧ P (c.played byte) (d.cycle.half + 1) := by
  obtain ⟨hcourse, hkept⟩ := hstep.early h hstart (Nat.le_refl _)
  have heffect : c.through byte (c.cycle.pattern.sampleHalf + 1) = c.played byte :=
    through_late (Nat.lt_succ_self _)
  have hsampled : P (c.played byte) (c.cycle.pattern.sampleHalf + 1) := by
    rw [← heffect]
    exact hstep _ hcourse hkept
  by_cases htakes : (c.through byte c.cycle.pattern.sampleHalf).TakesByte c.cycle.pattern.sampleHalf
  · refine hstep.ends (Nat.lt_succ_self _) ?_ hsampled
    rw [← heffect]
    exact (hcourse.effect_takes htakes byte).1
  · obtain ⟨hpace, hplace⟩ := still_effect htakes byte
    have hsame := hcourse.congr hpace hplace
    rw [← Core.through, heffect] at hsame
    have hnone : ¬ (c.played byte).TakesByte c.cycle.pattern.sampleHalf := by
      rw [TakesByte, pattern_played]
      rw [TakesByte, pattern_through] at htakes
      exact htakes
    have hhere := hsame.half_lt
    by_cases hlast : c.cycle.pattern.sampleHalf + 1 = 2 * (c.played byte).cycle.length
    · exact ends_played hsame hnone hlast hsampled
    · exact hstep.ends (Nat.lt_succ_self _) (hsame.proceed hnone (by omega)) hsampled

end

/-! ## Cycles as they are set up -/

/-- The cycle is as it is set up for the instruction. -/
structure Posed (c : Core) : Prop where
  pattern : c.cycle.pattern = c.busPattern c.cycle.kind
  fromDevice : c.cycle.fromDevice = (decide (c.origin = .device) && c.cycle.kind.readsCode)

theorem posed_beginCycle (c : Core) (kind : CycleKind) (length : Nat) :
    (c.beginCycle kind length).Posed := by
  refine ⟨?_, rfl⟩
  cases kind <;> rfl

theorem busPattern_logic (c : Core) (kind : CycleKind) :
    c.logic.busPattern kind = c.busPattern kind := by
  cases kind <;> rfl

theorem Posed.of_logic (h : c.Posed) (hlogic : d.logic = c.logic) : d.Posed := by
  have hback : d.logic.Posed := by
    rw [hlogic]
    exact ⟨h.pattern.trans (c.busPattern_logic _).symm, h.fromDevice⟩
  exact ⟨hback.pattern.trans (d.busPattern_logic _), hback.fromDevice⟩

/-- A cycle that follows is set up so. -/
theorem posed_closed (hmore : (c.closed byte).2 = false) : (c.closed byte).1.Posed := by
  rw [closed] at hmore ⊢
  cases hcode : (c.acted byte).instruction with
  | none =>
    rw [nextCycle_of_none hcode]
    cases (c.acted byte).chain <;> exact posed_beginCycle _ _ _
  | some code =>
    rw [nextCycle_of_some hcode] at hmore ⊢
    split at hmore
    · exact posed_beginCycle _ _ _
    · cases hmore

/-- Where an instruction comes from does not change while it lasts. -/
theorem origin_effect (half : Nat) (byte : Byte) : (c.effect half byte).origin = c.origin := by
  let k : Core := { c with data := { c.data with value := byte } }
  have hsteady : k.Steady (k.patternHalf half).1 := steady_patternHalf
  have heffect : (k.patternHalf half).1.wiredAs k = (c.effect half byte).wiredAs k :=
    (k.patternHalf_wiredAs_self half).trans (c.effect_wiredAs k half byte)
  exact (congrArg Core.origin heffect).symm.trans hsteady.origin

theorem origin_through (half : Nat) : (c.through byte half).origin = c.origin := by
  induction half with
  | zero => rfl
  | succ half ih => exact (origin_effect half byte).trans ih

theorem origin_closed : (c.closed byte).1.origin = c.origin := by
  have hplayed : (c.played byte).origin = c.origin := by
    rw [played, origin_effect, origin_effect]
  exact ((steady_latchResult.trans (steady_nextCycle _)).origin).trans hplayed

/-- The next cycle stands one position further on. -/
theorem position_closed : (c.closed byte).1.position = (c.played byte).position + 1 :=
  position_next _

end Core

/-! ## Scenes -/

/-- What answers a chip: memory as it is configured, the ports, and a device that has interrupted. -/
structure Surroundings where
  config : BoardConfig
  reply : Word → Byte
  answer : List Byte

/-- A chip at the start of a cycle, the bytes of memory, and how many bytes of its instruction it has
    read. -/
structure Scene where
  core : Core
  bytes : Array Byte
  given : Nat

namespace Scene

variable (w : Surroundings) (s : Scene)

/-- The byte that the cycle reads. -/
def byte : Byte :=
  if s.core.cycle.readsMemory then w.config.byteAt s.bytes (s.core.cycleAddress.getD 0)
  else if s.core.cycle.pattern = .portRead then w.reply s.core.latches.port
  else w.answer[s.given]?.getD 0xFF

/-- The scene of the next cycle. -/
def next : Scene :=
  { core := (s.core.closed (s.byte w)).1
    bytes := s.core.leftBytes w.config s.bytes
    given := s.given + s.core.cycle.kind.readsCode.toNat }

/-- The cycle completes the instruction. -/
def ends : Bool :=
  (s.core.closed (s.byte w)).2

/-- The edges that the cycle takes, if nothing holds it but itself. -/
def span : Nat :=
  2 * (s.core.played (s.byte w)).cycle.length
    + if s.core.cycle.pattern = .acknowledge then 4 else 0

/-- The scene after some cycles. -/
def nth : Nat → Scene
  | 0 => s
  | count + 1 => (nth count).next w

/-- The edges that so many cycles take. -/
def spent (w : Surroundings) : Scene → Nat → Nat
  | _, 0 => 0
  | s, count + 1 => s.span w + spent w (s.next w) count

/-- The instruction takes at least so many cycles and one more. -/
def Lasts (count : Nat) : Prop :=
  ∀ before < count, (s.nth w before).ends w = false

end Scene

namespace Scene

variable {w : Surroundings} {q : Sought} {bytes : Array Byte} {s : Scene}

/-! ## An instruction from memory -/

/-- The chip reads the instruction that is sought from memory, where nothing has been stored before
    the opcode is complete. -/
structure Tracks (w : Surroundings) (q : Sought) (bytes : Array Byte) (s : Scene) : Prop where
  course : s.core.Course 0
  posed : s.core.Posed
  memory : s.core.fromMemory = true
  reads : ∃ dropped, s.core.Reads (w.config.byteAt bytes) q 0 dropped
    ∧ s.given = dropped + codeBytes s.core.ran
  untouched : s.core.instruction = none → s.bytes = bytes

/-- Such an instruction reads each of its bytes from memory, at PC. -/
theorem Tracks.readsMemory (h : s.Tracks w q bytes)
    (hreads : s.core.cycle.kind.readsCode = true) : s.core.cycle.readsMemory = true := by
  obtain ⟨hnone, hother⟩ := Core.origin_of_fromMemory h.memory
  have hdevice : s.core.cycle.fromDevice = false := by
    rw [h.posed.fromDevice, decide_eq_false hother]
    rfl
  have hpattern : s.core.cycle.pattern ∈ [.fetch, .acknowledge, .opcodeRead, .read] := by
    refine Decidable.not_not.mp fun hnot => ?_
    cases hreads.symm.trans (h.course.uses.readsCode_eq_false hnot)
  have hack : s.core.cycle.pattern ≠ .acknowledge := fun hack => by
    cases (h.course.acknowledges hack).1.symm.trans hnone
  rw [ActiveCycle.readsMemory, hdevice]
  simp only [List.mem_cons, List.not_mem_nil, or_false] at hpattern
  rcases hpattern with hpattern | hpattern | hpattern | hpattern
  · rw [hpattern]
    rfl
  · exact absurd hpattern hack
  · rw [hpattern]
    rfl
  · rw [hpattern]
    rfl

theorem Tracks.byte_eq (h : s.Tracks w q bytes) (hreads : s.core.cycle.kind.readsCode = true) :
    s.byte w = w.config.byteAt s.bytes s.core.regs.pc := by
  rw [byte, if_pos (h.readsMemory hreads),
    Core.cycleAddress_of_readsCode h.course.uses hreads]
  rfl

/-- The scene at its end, with the chip about to latch what it has read. -/
structure Closing (w : Surroundings) (q : Sought) (bytes : Array Byte) (s : Scene) (d : Core)
    (dropped : Nat) : Prop where
  closes : d.Closes
  logic : d.logic = (s.core.played (s.byte w)).logic
  reads : d.Reads (w.config.byteAt bytes) q (d.cycle.half + 1) dropped
  given : s.given = dropped + codeBytes d.ran
  unknown : d.instruction = none → s.core.instruction = none

/-- A half-period keeps the chip reading, and tells apart a byte that is read and one that is
    dropped. -/
theorem Tracks.through (h : s.Tracks w q bytes) {half dropped : Nat}
    (hcourse : (s.core.through (s.byte w) half).Course half)
    (hreads : (s.core.through (s.byte w) half).Reads (w.config.byteAt bytes) q half dropped) :
    ∃ dropped', (s.core.through (s.byte w) (half + 1)).Reads (w.config.byteAt bytes) q (half + 1)
        dropped'
      ∧ dropped + codeBytes (s.core.through (s.byte w) half).ran
        = dropped' + codeBytes (s.core.through (s.byte w) (half + 1)).ran
      ∧ ((s.core.through (s.byte w) (half + 1)).instruction = none →
        (s.core.through (s.byte w) half).instruction = none) := by
  have huse := s.core.use_through (s.byte w) half
  have hmemory : (s.core.through (s.byte w) half).fromMemory = true := by
    rw [Core.fromMemory, Core.origin_through]
    exact h.memory
  by_cases htakes : (s.core.through (s.byte w) half).TakesByte half
  · cases hreads with
    | seeks sought =>
      have hlooks := hcourse.looks sought.unknown htakes
      have hhere := htakes.half_eq
      rw [Core.pattern_through] at hhere
      -- nothing but the first half-period lies behind, and that has not touched PC
      have hfirst : (s.core.through (s.byte w) half) = s.core.effect 0 (s.byte w) :=
        Core.through_early (by have := htakes.early; omega) (Nat.le_of_eq hhere)
      have hplace : s.core.pace = (s.core.through (s.byte w) half).pace := by
        rw [hfirst]
        refine (Core.still_effect (fun htakes => ?_) _).1.symm
        have := htakes.early
        omega
      have hpc : (s.core.through (s.byte w) half).regs.pc = s.core.regs.pc := by
        rw [hfirst]
        exact Core.pc_effect s.core.cycle.pattern.sampleHalf_ne_zero.symm _
      have hnone : s.core.instruction = none := (Core.instruction_of_pace hplace).trans sought.unknown
      have hbyte : s.byte w
          = w.config.byteAt bytes (s.core.through (s.byte w) half).regs.pc := by
        rw [hpc, h.byte_eq (by rw [← Core.kind_of_use huse, hlooks.kind]; rfl), h.untouched hnone]
      obtain ⟨-, hran⟩ := hcourse.effect_takes htakes (s.byte w)
      have hnext := sought.takes hcourse hmemory htakes
      rw [← hbyte] at hnext
      refine ⟨_, hnext, ?_, fun _ => sought.unknown⟩
      rw [sought.unknown, Option.isNone_none, Bool.true_and] at hran
      rw [Core.through]
      split at hran
      · next hdrops =>
        rw [hdrops, hran.1, hran.2]
        rfl
      · next hkeeps =>
        rw [Bool.eq_false_iff.mpr hkeeps, hran]
        rfl
    | finds found =>
      obtain ⟨-, hran⟩ := hcourse.effect_takes htakes (s.byte w)
      rw [found.known, Option.isNone_some, Bool.false_and, if_neg Bool.false_ne_true] at hran
      have hnext := found.still hcourse hmemory (s.byte w)
      exact ⟨_, .finds hnext, by rw [Core.through, hran],
        fun hnone => by cases hnone.symm.trans hnext.known⟩
  · obtain ⟨hpace, hplace⟩ := Core.still_effect htakes (s.byte w)
    have hran := Core.ran_congr hpace hplace
    refine ⟨dropped, ?_, by rw [Core.through, hran],
      fun hnone => (Core.instruction_of_pace hpace).symm.trans hnone⟩
    cases hreads with
    | seeks sought => exact .seeks (sought.still hcourse hmemory htakes _)
    | finds found => exact .finds (found.still hcourse hmemory _)

theorem Tracks.closing (h : s.Tracks w q bytes) : ∃ d dropped, s.Closing w q bytes d dropped := by
  obtain ⟨dropped, hreads, hgiven⟩ := h.reads
  obtain ⟨d, hcloses, hlogic, dropped', hend, hsame, hunknown⟩ := h.course.through
    (s.byte w) (P := fun d half => ∃ dropped', d.Reads (w.config.byteAt bytes) q half dropped'
      ∧ s.given = dropped' + codeBytes d.ran ∧ (d.instruction = none → s.core.instruction = none))
    ⟨dropped, hreads, hgiven, id⟩ fun half hcourse ⟨dropped, hreads, hgiven, hunknown⟩ => by
      obtain ⟨dropped', hnext, hsame, hback⟩ := h.through hcourse hreads
      exact ⟨dropped', hnext, hgiven.trans hsame, fun hnone => hunknown (hback hnone)⟩
  have hran : d.logic.ran = (s.core.played (s.byte w)).logic.ran := by rw [hlogic]
  refine ⟨d, dropped', hcloses, hlogic, hend.of_logic hlogic,
    hsame.trans (congrArg (fun ran => dropped' + codeBytes ran) hran.symm), fun hnone => ?_⟩
  refine hunknown (Eq.trans ?_ hnone)
  have hsame : d.logic.instruction = (s.core.played (s.byte w)).logic.instruction := by rw [hlogic]
  exact hsame.symm

/-- As long as the opcode is not complete, every cycle reads a byte of the instruction. -/
theorem readsCode_of_unknown (h : s.core.Course 0) (hnone : s.core.instruction = none) :
    s.core.cycle.kind.readsCode = true := by
  have hcurrent := h.current
  rw [Core.plan, hnone] at hcurrent
  have hall : ∀ cycle ∈ s.core.page.approach
      ++ [⟨.opcodeFetch, if s.core.page.displaced then 3 else 4⟩], cycle.kind.readsCode = true := by
    cases s.core.page <;> decide
  exact hall _ (List.mem_of_getElem? hcurrent)

/-- A scene that does not complete the instruction leads to the next one, on course, with its cycle
    among those that have been run. -/
theorem goes_of_closes {d : Core} (hcloses : d.Closes)
    (hlogic : d.logic = (s.core.played (s.byte w)).logic) (hmore : s.ends w = false) :
    d.GoesOn ∧ (s.next w).core.Course 0
      ∧ (s.next w).core.ran = d.ran ++ [⟨s.core.cycle.kind, d.cycle.length⟩] := by
  obtain ⟨hnext, hend⟩ := Core.closed_of_logic hlogic
  have hgoes : d.GoesOn := by
    rcases hcloses.next with hgoes | ⟨hover, -⟩
    · exact hgoes
    · cases (hend.symm.trans hover).symm.trans hmore
  have hkind : d.cycle.kind = s.core.cycle.kind := by
    have hplayed : d.logic.use = (s.core.played (s.byte w)).logic.use := by rw [hlogic]
    exact Core.kind_of_use (hplayed.trans (s.core.use_played _))
  have hran : (s.next w).core.logic.ran = d.latchResult.nextCycle.1.logic.ran := by
    rw [hnext]
    rfl
  refine ⟨hgoes, hgoes.course.of_logic hnext.symm, ?_⟩
  rw [← hkind]
  exact hran.trans hgoes.ran

/-- At the end of the scene comes the next one, or the instruction is complete. -/
theorem Tracks.goes (h : s.Tracks w q bytes) :
    (s.ends w = false → (s.next w).Tracks w q bytes)
      ∧ (s.ends w = true → Core.Completes q (s.next w).core) := by
  obtain ⟨d, dropped, hcloses, hlogic, hreads, hgiven, hunknown⟩ := h.closing
  obtain ⟨hnext, hend⟩ := Core.closed_of_logic hlogic
  refine ⟨fun hmore => ?_, fun hends => ?_⟩
  · obtain ⟨hgoes, hcourse, hran⟩ := goes_of_closes hcloses hlogic hmore
    have hcount (dropped' : Nat) (hdropped : dropped' = dropped) :
        (s.next w).given = dropped' + codeBytes (s.next w).core.ran := by
      rw [hran, Core.codeBytes_append, hdropped, ← Nat.add_assoc, ← hgiven]
      rfl
    have hstill (hnone : d.instruction = none) : (s.next w).bytes = bytes := by
      have hread : s.core.cycle.pattern ≠ .write := fun hwrite => by
        have hcode := readsCode_of_unknown h.course (hunknown hnone)
        cases hcode.symm.trans (h.course.uses.readsCode_eq_false (by rw [hwrite]; decide))
      rw [next, Core.leftBytes, Core.stores_of_reads hread]
      exact h.untouched (hunknown hnone)
    have hmemory : (s.next w).core.fromMemory = true := by
      rw [next, Core.fromMemory, Core.origin_closed]
      exact h.memory
    cases hreads with
    | seeks sought =>
      exact ⟨hcourse, Core.posed_closed hmore, hmemory,
        ⟨_, .seeks ((sought.next hcloses).2.of_logic hnext.symm), hcount _ rfl⟩,
        fun _ => hstill sought.unknown⟩
    | finds found =>
      have hfound := ((found.next hcloses).1 hgoes.more).of_logic hnext.symm
      exact ⟨hcourse, Core.posed_closed hmore, hmemory, ⟨_, .finds hfound, hcount _ rfl⟩,
        fun hnone => by cases hnone.symm.trans hfound.known⟩
  · cases hreads with
    | seeks sought => cases (hend.symm.trans (sought.next hcloses).1).symm.trans hends
    | finds found =>
      exact ((found.next hcloses).2 (hend.trans hends)).of_logic hnext.symm

/-- A cycle that reads a byte of the instruction finds it where PC is, and there is such a byte. -/
theorem Tracks.located (h : s.Tracks w q bytes) (hreads : s.core.cycle.kind.readsCode = true) :
    s.core.regs.pc = q.pc + s.given.toUInt16 ∧ s.given < q.ignored + q.code.size := by
  obtain ⟨dropped, hread, hgiven⟩ := h.reads
  cases hread with
  | seeks sought =>
    -- as long as the opcode is looked for, PC is behind the prefixes that have been read
    have hpc := sought.pc
    rw [Core.behind_zero, ← hgiven] at hpc
    refine ⟨hpc, ?_⟩
    have hcurrent := h.course.current
    rw [Core.plan, sought.unknown] at hcurrent
    dsimp only at hcurrent
    have hran : codeBytes s.core.ran ≤ codeBytes s.core.page.approach := by
      have hplace := (List.getElem?_eq_some_iff.mp hcurrent).1
      rw [List.length_append, List.length_singleton] at hplace
      rw [Core.ran, Core.plan, sought.unknown]
      dsimp only
      rw [List.take_append_of_le_length (by omega)]
      exact List.Sublist.countP_le (List.take_sublist _ _)
    cases hpage : s.core.page.displaced with
    | false =>
      obtain ⟨left, hleft, hawaits⟩ := sought.plain hpage
      have hroom : _ ≤ left + q.code.size := hawaits.room
      omega
    | true =>
      obtain ⟨hdropped, hsame, -⟩ := sought.displaced hpage
      have hentitled : Listing.Entitled Catalog.forms q.page q.code := by
        rw [Sought.code, ← hsame]
        revert hpage
        cases s.core.page <;> intro hpage <;> first
          | exact entitled_of_alone rfl rfl
          | cases hpage
      have hroom := hentitled.room
      rw [← hsame] at hroom
      omega
  | finds found =>
    have hfetched : s.core.cycle.kind ≠ .opcodeFetch := fun hkind =>
      absurd (found.taken hkind) (Nat.not_lt_zero _)
    have hcycles := h.course.prefix_cycles found.known
    -- it has left at none of the cycles that it has run, since one that reads code is still to come
    have hstays : ¬ q.code.Turned s.core.ran := by
      rintro (hdecoded | ⟨earlier, hmem, hleaves⟩)
      · exact hfetched (found.entitled.kind_of_decoded hdecoded
          (hcycles.subset (List.mem_append_right _ (List.mem_singleton.mpr rfl))))
      · have hpairwise := (found.entitled.leaves s.core.conditionMet).sublist hcycles.sublist
        have hother := ((List.pairwise_append.mp hpairwise).2.2 earlier hmem _
          (List.mem_singleton.mpr rfl) hleaves).2
        cases hreads.symm.trans hother
    have hpc := found.pc (Or.inl hstays)
    rw [Core.behind_zero, ← hgiven] at hpc
    refine ⟨hpc, ?_⟩
    have hbytes : codeBytes (s.core.ran ++ [⟨s.core.cycle.kind, s.core.cycle.length⟩])
        ≤ codeBytes (q.code.timing.cycles s.core.conditionMet) :=
      List.Sublist.countP_le hcycles.sublist
    rw [Core.codeBytes_append, hreads, (found.entitled.spans _).1] at hbytes
    rw [hgiven]
    exact Nat.add_lt_add_left hbytes _

/-- Only a cycle of an opcode that is not complete takes in a byte of it. -/
theorem Tracks.unknown_of_takes (h : s.Tracks w q bytes) {half : Nat}
    (htakes : s.core.TakesByte half) : s.core.instruction = none := by
  obtain ⟨dropped, hread, -⟩ := h.reads
  cases hread with
  | seeks sought => exact sought.unknown
  | finds found =>
    exact absurd (found.taken (htakes.kind h.course.uses)) (Nat.not_lt_zero _)

/-- So all of a known instruction stays in its place until its cycle ends. -/
theorem Tracks.still_played (h : s.Tracks w q bytes) (hknown : s.core.instruction ≠ none) :
    (s.core.played (s.byte w)).pace = s.core.pace
      ∧ (s.core.played (s.byte w)).place = s.core.place :=
  Core.still_played (fun _ htakes => hknown (h.unknown_of_takes htakes)) _

/-! ## Every instruction is completed -/

variable (w s) in
theorem nth_succ (count : Nat) : s.nth w (count + 1) = (s.next w).nth w count := by
  induction count with
  | zero => rfl
  | succ count ih => exact congrArg (next w) ih

/-- An instruction that is not complete lasts longer. -/
theorem Lasts.succ {count : Nat} (h : (s.next w).Lasts w count) (hmore : s.ends w = false) :
    s.Lasts w (count + 1) := by
  rintro (_ | before) hbefore
  · exact hmore
  · rw [nth_succ]
    exact h before (by omega)

/-- The cycles that an instruction has at most. -/
def limit (code : Instruction) : Nat :=
  (code.timing.cycles false).length + (code.timing.cycles true).length

/-- What is left of the instruction: the bytes of an opcode that is not complete, and its cycles. -/
def left (q : Sought) (s : Scene) : Nat :=
  match s.core.instruction with
  | none => q.ignored + q.code.size - s.given + limit q.code
  | some _ => limit q.code - s.core.position

/-- An instruction that is known stays so. -/
theorem Tracks.known_next (h : s.Tracks w q bytes) (hmore : s.ends w = false)
    (hknown : s.core.instruction ≠ none) : (s.next w).core.instruction = some q.code := by
  obtain ⟨d, dropped, hcloses, hlogic, hreads, -, hunknown⟩ := h.closing
  obtain ⟨hnext, hend⟩ := Core.closed_of_logic hlogic
  cases hreads with
  | seeks sought => exact absurd (hunknown sought.unknown) hknown
  | finds found =>
    exact (((found.next hcloses).1 (hend.trans hmore)).of_logic
      (d := (s.next w).core) hnext.symm).known

theorem Tracks.left_lt (h : s.Tracks w q bytes) (hmore : s.ends w = false) :
    (s.next w).left q < s.left q := by
  obtain ⟨hnext, -⟩ := h.goes
  have hafter := hnext hmore
  cases hcode : s.core.instruction with
  | none =>
    have hreads := readsCode_of_unknown h.course hcode
    have hroom := (h.located hreads).2
    have hgiven : (s.next w).given = s.given + 1 := by
      rw [next, hreads]
      rfl
    rw [left, left, hcode]
    dsimp only
    split
    · rw [hgiven]
      omega
    · omega
  | some code =>
    have hknown := h.known_next hmore (by rw [hcode]; exact Option.some_ne_none code)
    have hposition : (s.next w).core.position = s.core.position + 1 := by
      have hplace := (h.still_played (by rw [hcode]; exact Option.some_ne_none code)).2
      rw [next, Core.position_closed, Core.position_of_place hplace]
    have hplace : (s.next w).core.position < limit q.code := by
      have hcurrent := hafter.course.current
      rw [Core.plan, hknown] at hcurrent
      dsimp only at hcurrent
      rw [(hafter.course.scheduled _ hknown).1] at hcurrent
      have hroom := (List.getElem?_eq_some_iff.mp hcurrent).1
      rw [limit]
      cases hmet : (s.next w).core.conditionMet <;> rw [hmet] at hroom <;> omega
    rw [left, left, hcode, hknown]
    dsimp only
    omega

/-- Every instruction from memory is completed. -/
theorem Tracks.completes (h : s.Tracks w q bytes) :
    ∃ count, s.Lasts w count ∧ (s.nth w count).ends w = true := by
  induction hrest : s.left q using Nat.strongRecOn generalizing s with
  | ind rest ih =>
    cases hends : s.ends w with
    | true => exact ⟨0, fun _ hbefore => absurd hbefore (Nat.not_lt_zero _), hends⟩
    | false =>
      obtain ⟨count, hlasts, hend⟩ := ih _ (hrest ▸ h.left_lt hends) (h.goes.1 hends) rfl
      exact ⟨count + 1, hlasts.succ hends, by rw [nth_succ]; exact hend⟩

/-- Its scenes all belong to it. -/
theorem Tracks.nth (h : s.Tracks w q bytes) {count : Nat} (hlasts : s.Lasts w count) :
    (s.nth w count).Tracks w q bytes := by
  induction count with
  | zero => exact h
  | succ count ih =>
    exact (ih fun before hbefore => hlasts before (by omega)).goes.1 (hlasts count (by omega))

end Scene

end Z80Board
