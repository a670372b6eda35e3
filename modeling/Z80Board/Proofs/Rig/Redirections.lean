import Z80Board.Proofs.Chip.Imprint
import Z80Board.Proofs.Rig.Pushes

/-! # The instruction of a device

    In mode 0 the chip executes what the device answers to the acknowledge.  The instruction comes to
    what it would come to if it stood in memory at PC, two periods later, and it leaves PC where it
    was.  A call or a restart saves the PC at which the interrupt was accepted. -/

namespace Z80Board

/-! ## The first cycle -/

namespace Core

variable {c p : Core}

/-- The chip out of HALT, with both flip-flops reset. -/
def interrupted (p : Core) : Core :=
  p.leaveHalt.takeInt

theorem interrupted_visible (p : Core) :
    p.interrupted.regs = { p.regs with iff1 := false, iff2 := false }
      ∧ p.interrupted.halted = false := by
  unfold interrupted leaveHalt
  split
  · exact ⟨rfl, rfl⟩
  · next hawake => exact ⟨rfl, Bool.eq_false_iff.mpr hawake⟩

theorem fresh_cleared (c : Core) : c.cleared.Fresh :=
  ⟨rfl, rfl, rfl, rfl, rfl⟩

end Core

namespace Scene

variable {c : Core} {bytes : Array Byte} {w : Surroundings} {origin : Origin}

/-- The first scene of an instruction from this origin. -/
def opening (c : Core) (origin : Origin) (bytes : Array Byte) : Scene :=
  ⟨(c.cleared.startFetch origin).logic, bytes, 0⟩

theorem course_opening : (opening c origin bytes).core.Course 0 :=
  ((Core.fresh_cleared c).startFetch origin).1.of_logic rfl

theorem posed_opening : (opening c origin bytes).core.Posed :=
  (Core.posed_beginCycle { c.cleared with origin } .opcodeFetch 4).of_logic rfl

/-- From memory the instruction is the one at PC. -/
theorem tracks_opening {count : Nat} {page : Page} {opcode : Byte}
    (h : Scans (w.config.byteAt bytes) c.regs.pc count page opcode) :
    (opening c (.memory c.regs.pc) bytes).Tracks w (Board.sought c count page opcode) bytes := by
  have hnone : (opening c (.memory c.regs.pc) bytes).core.behind 0 = [] := rfl
  refine ⟨course_opening, posed_opening, rfl, ⟨0, .seeks ⟨rfl, ?_, ?_, fun _ => ?_, fun hdisplaced => ?_⟩,
    rfl⟩, fun _ => rfl⟩
  · rw [hnone]
    exact (UInt16.add_zero _).symm
  · rw [hnone]
    exact .refl _
  · exact ⟨count, Nat.zero_add _, .main h⟩
  · cases hdisplaced

/-- From a device it begins with an acknowledge. -/
theorem sourced_opening {answer : List Byte} (h : 0 < answer.length) :
    (opening c .device bytes).Sourced answer :=
  ⟨course_opening, posed_opening, rfl, fun _ => rfl, fun hother => absurd rfl hother, fun _ => h⟩

/-- At first nothing but their origin tells the two apart. -/
theorem doubles_opening {bytes' : Array Byte} {count : Nat} {page : Page} {opcode : Byte}
    (hscans : Scans (w.config.byteAt bytes') c.regs.pc count page opcode)
    (hanswer : 0 < w.answer.length)
    (hagrees : (decode page opcode).mnemonic.pushesPc = false → ∀ place,
      ¬ w.config.Holds (Board.sought c count page opcode) place → bytes[place]? = bytes'[place]?) :
    Doubles w (Board.sought c count page opcode) bytes' c.regs.pc (opening c .device bytes)
      (opening c (.memory c.regs.pc) bytes') :=
  ⟨⟨rfl, Or.inr ⟨rfl, rfl⟩, fun _ => rfl⟩, sourced_opening hanswer, tracks_opening hscans, rfl,
    fun _ => rfl, fun _ => rfl, hagrees⟩

end Scene

/-! ## What all its scenes have in common -/

/-- An instruction does not read from a port and write to one. -/
theorem Listing.Entitled.one_way {page : Page} {code : Instruction}
    (h : Listing.Entitled Catalog.forms page code) {met met' : Bool} {cycle cycle' : MachineCycle}
    (hcycle : cycle ∈ code.timing.cycles met) (hcycle' : cycle' ∈ code.timing.cycles met')
    (hread : cycle.kind = .portRead) : cycle'.kind ≠ .portWrite := by
  have hall : ∀ p ∈ Catalog.forms, ∀ met, ∀ cycle ∈ p.2.timing.cycles met, cycle.kind = .portRead →
      ∀ met', ∀ cycle' ∈ p.2.timing.cycles met', cycle'.kind ≠ .portWrite := by
    decide +kernel
  obtain ⟨m, f, hf, -, hcode⟩ := h
  rw [hcode.timing] at hcycle hcycle'
  exact hall (m, f) hf met cycle hcycle hread met' cycle' hcycle'

namespace Scene

variable {v w : Surroundings} {q : Sought} {bytes listing : Array Byte} {s d u : Scene} {pc : Word}
  {count last : Nat}

/-- The cycles of a known instruction are those of its timing. -/
theorem Tracks.mem_cycles (h : d.Tracks w q bytes) (hreads : d.core.cycle.kind.readsCode = false) :
    Listing.Entitled Catalog.forms q.page q.code
      ∧ ∃ met, ⟨d.core.cycle.kind, d.core.cycle.length⟩ ∈ q.code.timing.cycles met := by
  have hknown : d.core.instruction ≠ none := fun hnone => by
    cases hreads.symm.trans (readsCode_of_unknown h.course hnone)
  have hbears := h.code_eq.1 hknown
  exact ⟨hbears.entitled, _, (h.course.prefix_cycles hbears.known).subset
    (List.mem_append_right _ (List.mem_singleton.mpr rfl))⟩

/-- So no port is read after one has been written to. -/
theorem Tracks.one_way (h : s.Tracks w q bytes) (h' : d.Tracks w q bytes)
    (hread : s.core.cycle.pattern = .portRead) : d.core.cycle.pattern ≠ .portWrite := by
  intro hwrite
  have huses := h.course.uses
  have huses' := h'.course.uses
  obtain ⟨hentitled, met, hmem⟩ := h.mem_cycles (huses.readsCode_eq_false (by rw [hread]; decide))
  obtain ⟨-, met', hmem'⟩ := h'.mem_cycles (huses'.readsCode_eq_false (by rw [hwrite]; decide))
  exact hentitled.one_way hmem hmem' (huses.port.1 hread) (huses'.port.2 hwrite)

/-- An instruction from memory finds what it reads. -/
theorem Tracks.heard (h : d.Tracks w q bytes) (hlasts : d.Lasts w last) : d.Heard w last := by
  have hall (count : Nat) (hcount : count ≤ last) : (d.nth w count).Tracks w q bytes :=
    h.nth fun before hbefore => hlasts before (by omega)
  refine ⟨fun count hcount => Or.inl ?_, fun count hcount hread i hi =>
    (hall count hcount).one_way (hall i (by omega)) hread⟩
  have hhere := hall count hcount
  obtain ⟨hnone, hother⟩ := Core.origin_of_fromMemory hhere.memory
  refine ⟨?_, fun hack => ?_, hother⟩
  · rw [hhere.posed.fromDevice, decide_eq_false hother]
    rfl
  · cases (hhere.course.acknowledges hack).1.symm.trans hnone

/-- So does one from a device, if it reads and writes the ports as one from memory does. -/
theorem heard_of_sourced (hsourced : ∀ count ≤ last, (s.nth w count).Sourced w.answer)
    (hports : ∀ count ≤ last, ∀ i ≤ last, (s.nth w count).core.cycle.pattern = .portRead →
      (s.nth w i).core.cycle.pattern ≠ .portWrite) : s.Heard w last :=
  ⟨fun count hcount => Or.inr (hsourced count hcount),
    fun count hcount hread i hi => hports count hcount i (by omega) hread⟩

/-- Neither lets an interrupt in before its end. -/
theorem masked_next (hcourse : s.core.Course 0) (h : s.core.imprint.Masked) :
    (s.next w).core.imprint.Masked := by
  have hplayed : (s.core.played (s.byte w)).imprint.Masked := by
    refine Imprint.Masked.holds.effect (Imprint.Masked.holds.effect h (fun hread hzero => ?_) _)
      (fun hread _ => ?_) _
    · rw [hread] at hzero
      cases hzero
    · rw [Core.pattern_effect] at hread
      have hwrite : s.core.cycle.pattern ≠ .write := by
        rw [hread]
        decide
      rw [Core.effect_zero, if_neg hwrite]
      cases hcode : s.core.instruction with
      | none => rfl
      | some code => exact absurd ((hcourse.scheduled code hcode).2.2 hread) (Nat.not_lt_zero 5)
  have hlatched : (s.core.acted (s.byte w)).imprint.Masked := Imprint.Masked.latchResult hplayed
  rw [next, Core.closed]
  dsimp only
  rw [Core.imprint_nextCycle]
  exact hlatched

/-- So none comes in at its end. -/
theorem heeds_nth (hcourse : ∀ i ≤ last, (s.nth w i).core.Course 0) (h : s.core.imprint.Masked) :
    (s.nth w (last + 1)).core.heeds = false := by
  have hmasked (count : Nat) (hcount : count ≤ last + 1) :
      (s.nth w count).core.imprint.Masked := by
    induction count with
    | zero => exact h
    | succ count ih => exact masked_next (hcourse count (by omega)) (ih (by omega))
  rcases hmasked _ (Nat.le_refl _) with hreset | hblocked
  · rw [Core.heeds, show (s.nth w (last + 1)).core.regs.iff1 = false from congrArg Prod.fst hreset]
    rfl
  · rw [Core.heeds, show (s.nth w (last + 1)).core.intBlocked = true from hblocked]
    exact Bool.and_false _

theorem masked_opening (p : Core) (origin : Origin) (bytes : Array Byte) :
    (opening p.interrupted origin bytes).core.imprint.Masked := by
  have hregs : (opening p.interrupted origin bytes).core.regs = p.interrupted.regs := rfl
  refine Or.inl ?_
  show (opening p.interrupted origin bytes).core.regs.flipFlops = _
  rw [hregs, p.interrupted_visible.1]
  rfl

end Scene

/-! ## The first edge -/

namespace Board

variable {b : Board} {p : Core}

/-- The board is between two instructions, of which the first one has led to the chip `p`, and this chip
    accepts INT in mode 0: it is about to, or has just done so. -/
structure Redirects (p : Core) (b : Board) : Prop where
  phase : b.core.phase = .running
  nmi : b.core.nmiPending = false
  heeds : p.heeds = true
  mode : p.regs.im = 0
  next : b.core.boundaryPending = true ∧ b.core.logic = p.logic ∧ b.inputs.int = .asserted
    ∨ b.core.boundaryPending = false ∧ b.core.cycle.half = 0
      ∧ b.core.logic = p.cleared.acceptInt.logic

/-- A chip that accepts INT in mode 0 acknowledges it. -/
theorem logic_acceptInt {c : Core} (hlogic : c.logic = p.logic) (hmode : p.regs.im = 0)
    (bytes : Array Byte) :
    c.cleared.acceptInt.logic = (Scene.opening p.interrupted .device bytes).core := by
  have hsame : c.logic.halted = p.logic.halted ∧ c.logic.regs = p.logic.regs := by
    rw [hlogic]
    exact ⟨rfl, rfl⟩
  have hregs : c.cleared.leaveHalt.regs = p.regs := by
    rw [← show c.regs = p.regs from hsame.2, Core.leaveHalt]
    split <;> rfl
  have hhalted : c.cleared.halted = p.halted := hsame.1
  rw [Core.acceptInt_eq, hregs, if_pos hmode, Scene.opening, Core.interrupted, Core.leaveHalt,
    Core.leaveHalt, hhalted]
  split
  · have hwoken (e : Core) : (({ e with halted := false, pins.halt := .released } : Core).takeInt
          |>.cleared.startFetch .device).logic
        = (({ e.logic with halted := false, pins.halt := .released } : Core).takeInt
          |>.cleared.startFetch .device).logic := rfl
    refine (hwoken c).trans (Eq.trans ?_ (hwoken p).symm)
    rw [hlogic]
  · show (c.logic.takeInt.cleared.startFetch .device).logic
      = (p.logic.takeInt.cleared.startFetch .device).logic
    rw [hlogic]

/-- So the next edge begins the acknowledge. -/
theorem Redirects.begins (h : b.Redirects p) (hclear : b.Clear) (level : Level)
    (bytes : Array Byte) :
    ∃ k, b.engaged level = some k ∧ k.cycle.half = 0 ∧ k.nmiPending = false
      ∧ k.logic = (Scene.opening p.interrupted .device bytes).core := by
  have hnmi := hclear.nmi h.nmi
  obtain ⟨-, hbusreq, hreset⟩ := hclear.unhindered
  rcases h.next with ⟨hpending, hlogic, hint⟩ | ⟨hchosen, hhalf, hlogic⟩
  · have hheeds : b.core.logic.heeds = true := by
      rw [hlogic]
      exact h.heeds
    have haccepts : ({ b.core.sampleInputs b.inputs with
        boundaryPending := false } : Core).resolveNext
        = ({ b.core.sampleInputs b.inputs with boundaryPending := false } : Core).cleared.acceptInt := by
      rw [Core.resolveNext_eq, if_neg (Bool.eq_false_iff.mp hnmi), Bool.and_assoc]
      refine if_pos (Bool.and_eq_true_iff.mpr ⟨?_, hheeds⟩)
      show b.inputs.int.isAsserted = true
      rw [hint]
      rfl
    refine ⟨_, Core.engaged_of_pending h.phase hpending hreset hbusreq,
      (Core.starts_resolveNext _).half, Core.nmiPending_resolveNext _, ?_⟩
    rw [haccepts]
    exact logic_acceptInt (by exact hlogic) h.mode bytes
  · exact ⟨_, Core.engaged_of_running h.phase hchosen hreset hbusreq, hhalf, hnmi,
      hlogic.trans (logic_acceptInt rfl h.mode bytes)⟩

end Board

namespace Core

variable {p : Core}

/-- Without the interrupt the chip fetches from memory. -/
theorem logic_carryOn_interrupted (p : Core) (bytes : Array Byte) :
    p.interrupted.carryOn.logic
      = (Scene.opening p.interrupted (.memory p.interrupted.regs.pc) bytes).core := by
  rw [carryOn, if_neg (Bool.eq_false_iff.mp p.interrupted_visible.2)]
  rfl

theorem heeds_interrupted (p : Core) : p.interrupted.heeds = false := by
  rw [heeds, p.interrupted_visible.1]
  rfl

end Core

/-! ## Both runs -/

namespace Scene

variable {v w : Surroundings} {q : Sought} {bytes listing : Array Byte} {s d u : Scene}
  {regs : Registers} {last : Nat}

/-- No cycle of the instruction that reads data reads a byte of the instruction itself. -/
def SparesAll (w : Surroundings) (q : Sought) (d : Scene) : Prop :=
  ∀ count, d.Lasts w count → Spares w q (d.nth w count)

/-- The device run finds what it reads. -/
theorem Doubles.heard {pc : Word} (h : Doubles w q bytes pc s d) (hcode : Encodes w q bytes)
    (hportable : q.code.Portable) (hspares : SparesAll w q d) (hlasts : d.Lasts w last) :
    s.Heard w last := by
  have hall (count : Nat) (hcount : count ≤ last) :
      Doubles w q bytes pc (s.nth w count) (d.nth w count) :=
    h.nth hcode hportable (fun i hi => hspares i fun j hj => hlasts j (by omega))
      fun i hi => hlasts i (by omega)
  refine heard_of_sourced (fun count hcount => (hall count hcount).sourced)
    fun count hcount i hi hread hwrite => ?_
  have hhere := hall count hcount
  have hthere := hall i hi
  refine hhere.tracks.one_way hthere.tracks ?_ ?_
  · exact (hhere.twins.pattern_of_ne (by rw [hread]; decide)).trans hread
  · exact (hthere.twins.pattern_of_ne (by rw [hwrite]; decide)).trans hwrite

/-- A call or a restart from a device finds what it reads, over any memory. -/
theorem Doubles.heard_pushes (h : Doubles v q listing regs.pc s d)
    (hpushing : u.Pushing w regs bytes) (hshadows : u.Shadows s)
    (hpushes : q.code.mnemonic.pushesPc = true) (hanswer : w.answer = v.answer)
    (hcode : Encodes v q listing) (hportable : q.code.Portable) (hlasts : d.Lasts v last) :
    u.Heard w last := by
  have hall (count : Nat) (hcount : count ≤ last) :=
    h.pushing hpushes hanswer hcode hportable hpushing hshadows
      (show d.Lasts v count from fun i hi => hlasts i (by omega))
  refine heard_of_sourced (fun count hcount => ?_) fun count hcount _ _ hread => ?_
  · obtain ⟨hdoubles, hthere, -⟩ := hall count hcount
    rw [hanswer]
    exact hthere.sourced hdoubles.sourced
  · obtain ⟨hdoubles, hthere, -⟩ := hall count hcount
    rw [hthere.core] at hread
    exact absurd hread (hdoubles.silent hpushes).2

end Scene

/-! ## Two machines -/

namespace BoardConfig

/-- A board with nothing but these bytes in its address space. -/
def listing (byteAt : Word → Byte) : Array Byte :=
  Array.ofFn fun place : Fin 0x10000 => byteAt place.val.toUInt16

theorem byteAt_listing (byteAt : Word → Byte) :
    ({} : BoardConfig).byteAt (listing byteAt) = byteAt := by
  funext address
  have hroom : address.toNat < 0x10000 := address.toNat_lt
  have hplace : ({} : BoardConfig).index address = address.toNat := Nat.mod_eq_of_lt hroom
  rw [BoardConfig.byteAt, hplace, listing, Array.getD_eq_getD_getElem?, Array.getElem?_ofFn,
    dif_pos hroom]
  exact congrArg byteAt (UInt16.ofNat_toNat)

end BoardConfig

variable {config : BoardConfig} {m m' : Machine} {p : Core} {source : InterruptSource}
  {byteAt : Word → Byte} {count : Nat} {page : Page} {opcode : Byte}

/-- The answer begins with the whole of an instruction, as it would stand at PC. -/
structure Encoded (answer : List Byte) (byteAt : Word → Byte) (q : Sought) : Prop where
  scans : Scans byteAt q.pc q.ignored q.page q.opcode
  answer : ∀ i < q.ignored + q.code.size, answer[i]? = some (byteAt (q.pc + i.toUInt16))

namespace Machine

/-- The machine accepts INT in mode 0 on the chip `p`, nothing else is asserted until the instruction
    is over, and its interrupt source has an answer. -/
structure Answered (config : BoardConfig) (m : Machine) (p : Core) (source : InterruptSource) :
    Prop where
  attended : Attended config m.board
  usual : m.device.Usual
  source : m.device.source? = some source
  redirects : m.board.Redirects p
  clear : ∀ edge, m.Unfinished edge → (m.after edge).board.Clear

/-- The machine `m` in the same state, but that the chip is out of HALT with its flip-flops reset, that
    nothing interrupts it, and that the instruction stands in memory at PC. -/
structure Placed (config : BoardConfig) (m : Machine) (p : Core) (byteAt : Word → Byte) (q : Sought)
    (m' : Machine) : Prop where
  attended : Attended config m'.board
  usual : m'.device.Usual
  reply : m'.device.reply = m.device.reply
  between : m'.board.Between config p.interrupted
  clear : ∀ edge, m'.Unfinished edge → (m'.after edge).board.Clear
  placed : ∀ i < q.ignored + q.code.size,
    config.byteAt m'.memory.bytes (q.pc + i.toUInt16) = byteAt (q.pc + i.toUInt16)
  others : ∀ place, ¬ config.Holds q place → m.memory.bytes[place]? = m'.memory.bytes[place]?

/-- What answers the chip of such a machine. -/
def surroundings (config : BoardConfig) (m : Machine) (source : InterruptSource) : Surroundings :=
  ⟨config, m.device.reply, source.acknowledgeBytes⟩

/-- The first scene of the acknowledged instruction is the one that the next edge begins. -/
theorem Answered.begins (h : m.Answered config p source) :
    ∃ k, m.Begins (m.surroundings config source)
      (Scene.opening p.interrupted .device m.memory.bytes) k := by
  obtain ⟨k, hengaged, hfirst, hnmi, hlogic⟩ := h.redirects.begins
    (h.clear 0 fun _ hbefore => absurd hbefore (Nat.not_lt_zero _)) m.clock.level.flip m.memory.bytes
  refine ⟨k, h.attended.orderly, h.attended.takesTurns h.usual, hengaged, hfirst, hnmi, hlogic.symm,
    rfl, rfl, rfl, fun _ => ⟨source, h.source, rfl⟩, fun hphase => ?_⟩
  cases h.redirects.phase.symm.trans hphase

/-- And so it is with the one in memory. -/
theorem Placed.begins {q : Sought} (h : m.Placed config p byteAt q m') (source : InterruptSource) :
    ∃ k, m'.Begins (m.surroundings config source)
      (Scene.opening p.interrupted (.memory p.interrupted.regs.pc) m'.memory.bytes) k := by
  obtain ⟨k, hopens, hlogic, hnmi⟩ := h.between.opens p.interrupted_visible.2
    (h.clear 0 fun _ hbefore => absurd hbefore (Nat.not_lt_zero _)) (Or.inr p.heeds_interrupted)
    m'.clock.level.flip
  refine ⟨k, h.attended.orderly, h.attended.takesTurns h.usual, hopens.engaged, hopens.half, hnmi, ?_,
    rfl, rfl, h.reply, fun hdevice => (by cases hdevice), fun hphase => ?_⟩
  · rw [hlogic, p.logic_carryOn_interrupted m'.memory.bytes]
    rfl
  · cases h.between.phase.symm.trans hphase

/-- After so many edges the instruction is over, and has left the same behind as if it had stood in
    memory, where it has taken four edges less. -/
structure Matches (config : BoardConfig) (m m' : Machine) (q : Sought) : Prop where
  run : ∃ edges p p' bytes bytes', m.Finishes config (edges + 4) p bytes
    ∧ m'.Finishes config edges p' bytes'
    ∧ p.regs = { p'.regs with pc := p.regs.pc } ∧ p.halted = p'.halted
    ∧ (∀ place, ¬ config.Holds q place → bytes[place]? = bytes'[place]?)
    ∧ (p.departs q.code = false → p.regs.pc = q.pc
      ∧ p'.regs.pc = q.pc + (q.ignored + q.code.size).toUInt16)

/-- The instruction is over, and the PC of this chip is on the stack, unless the instruction names a
    condition that does not hold there. -/
structure SavesPc (config : BoardConfig) (m : Machine) (q : Sought) (c : Core) : Prop where
  run : ∃ edges p bytes, m.Finishes config edges p bytes
    ∧ (c.departs q.code = true → bytes = c.regs.pushes.foldl config.apply m.memory.bytes)

end Machine

namespace Scene

variable {v w : Surroundings} {q : Sought} {listing : Array Byte} {s d u : Scene} {pc : Word}
  {c k k' : Core}

/-- What the last scene of the two runs comes to. -/
theorem Matches.visible (h : Matches w q pc s d) :
    s.core.regs = { d.core.regs with pc := s.core.regs.pc } ∧ s.core.halted = d.core.halted
      ∧ (s.core.departs q.code = false → s.core.regs.pc = pc
        ∧ d.core.regs.pc = q.pc + (q.ignored + q.code.size).toUInt16) := by
  have hregs : d.core.regs = { s.core.regs with pc := d.core.regs.pc } := by
    rw [h.twins.same]
    rfl
  have hhalted : d.core.halted = s.core.halted := by
    rw [h.twins.same]
    rfl
  have hdeparts : d.core.departs q.code = s.core.departs q.code := by
    rw [h.twins.same]
    rfl
  refine ⟨by rw [hregs], hhalted.symm, fun hstays => ⟨h.stays hstays, h.completes.pc ?_⟩⟩
  exact hdeparts.trans hstays

/-- Two machines that go through the scenes of an instruction together end it together. -/
theorem Doubles.finishes (h : Doubles w q listing q.pc s d) (hack : s.core.cycle.pattern = .acknowledge)
    (hcode : Encodes w q listing) (hportable : q.code.Portable)
    (hpushes : q.code.mnemonic.pushesPc = false) (hspares : SparesAll w q d)
    (hbegins : m.Begins w s k) (hclear : ∀ edge, m.Unfinished edge → (m.after edge).board.Clear)
    (hbegins' : m'.Begins w d k') (hclear' : ∀ edge, m'.Unfinished edge → (m'.after edge).board.Clear)
    (hmasked : s.core.imprint.Masked) (hmasked' : d.core.imprint.Masked) :
    Machine.Matches w.config m m' q := by
  obtain ⟨last, hlasts, hends⟩ := h.tracks.completes
  have hspared (i : Nat) (hi : i ≤ last) := hspares i fun j hj => hlasts j (by omega)
  have hall (i : Nat) (hi : i ≤ last) : Doubles w q listing q.pc (s.nth w i) (d.nth w i) :=
    h.nth hcode hportable (fun j hj => hspared j (by omega)) fun j hj => hlasts j (by omega)
  obtain ⟨hlasts', hspent⟩ := h.spent hack hcode hportable hspared hlasts
  have hlast := hall last (Nat.le_refl _)
  have hspared' := hspared last (Nat.le_refl _)
  have hends' : (s.nth w last).ends w = true :=
    (hlast.closed hcode hspared' hportable).1.symm.trans hends
  have hmatches : Matches w q q.pc (s.nth w (last + 1)) (d.nth w (last + 1)) :=
    hlast.matches hcode hspared' hportable hends
  have hfinishes := hbegins.finishes (h.heard hcode hportable hspares hlasts) hlasts' hends' hclear
    (heeds_nth (fun i hi => (hall i hi).sourced.course) hmasked)
  have hfinishes' := hbegins'.finishes (h.tracks.heard hlasts) hlasts hends hclear'
    (heeds_nth (fun i hi => (hall i hi).tracks.course) hmasked')
  rw [hspent] at hfinishes
  obtain ⟨hregs, hhalted, hstays⟩ := hmatches.visible
  exact ⟨_, _, _, _, _, hfinishes, hfinishes', hregs, hhalted, hmatches.agrees hpushes, hstays⟩

/-- Whether a call or a restart leaves depends on the flags alone. -/
theorem departs_of_pushes (hpushes : q.code.mnemonic.pushesPc = true) {c d : Core}
    (hflags : d.regs.f = c.regs.f) : d.departs q.code = c.departs q.code := by
  rcases Mnemonic.eq_of_pushesPc hpushes with hm | hm
  all_goals
    simp only [Core.departs, hm]
    exact Core.holds_congr hflags _

/-- A machine to which a device sends a call or a restart goes through the scenes that it would go
    through over another memory. -/
theorem Doubles.saves (h : Doubles v q listing c.regs.pc s d) (hcode : Encodes v q listing)
    (hportable : q.code.Portable) (hpushes : q.code.mnemonic.pushesPc = true)
    (hanswer : w.answer = v.answer) (hshadows : u.Shadows s)
    (hpushing : u.Pushing w c.regs m.memory.bytes) (hbegins : m.Begins w u k)
    (hclear : ∀ edge, m.Unfinished edge → (m.after edge).board.Clear)
    (hmasked : u.core.imprint.Masked) : m.SavesPc w.config q c := by
  have hspares (d : Scene) : Spares v q d := fun hnone => by cases hnone.symm.trans hpushes
  obtain ⟨last, hlasts, hends⟩ := h.tracks.completes
  have hall (i : Nat) (hi : i ≤ last) : Doubles v q listing c.regs.pc (s.nth v i) (d.nth v i)
      ∧ (u.nth w i).Shadows (s.nth v i) ∧ (u.nth w i).Pushing w c.regs m.memory.bytes :=
    h.pushing hpushes hanswer hcode hportable hpushing hshadows fun j hj => hlasts j (by omega)
  have hsame (i : Nat) (hi : i ≤ last) : (u.nth w i).ends w = (d.nth v i).ends v := by
    obtain ⟨hdoubles, hshadows, -⟩ := hall i hi
    rw [(hdoubles.shadows_next hpushes hanswer hshadows).2.1]
    exact (hdoubles.closed hcode (hspares _) hportable).1.symm
  obtain ⟨hdoubles, hshadows', hpushing'⟩ := hall last (Nat.le_refl _)
  have hends' : (u.nth w last).ends w = true := (hsame last (Nat.le_refl _)).trans hends
  have hcourse (i : Nat) (hi : i ≤ last) : (u.nth w i).core.Course 0 := by
    rw [(hall i hi).2.1.core]
    exact (hall i hi).1.sourced.course
  have hfinishes := hbegins.finishes
    (h.heard_pushes hpushing hshadows hpushes hanswer hcode hportable hlasts)
    (fun i hi => (hsame i (Nat.le_of_lt hi)).trans (hlasts i hi)) hends' hclear
    (heeds_nth hcourse hmasked)
  refine ⟨_, _, _, hfinishes, fun hdeparts => ?_⟩
  rcases (hdoubles.pushing_goes hpushes hanswer hcode hportable hshadows' hpushing').2 hends' with
    hpushed | hstays
  · exact hpushed
  · -- the flags are still those that the call has come upon
    obtain ⟨r, wz, hkept⟩ := hpushing'.kept
    have hflags : (s.nth v last).core.regs.f = c.regs.f := by
      rw [← hshadows'.core, hkept]
    cases hstays.symm.trans ((departs_of_pushes hpushes hflags).trans hdeparts)

end Scene

section Runs

variable (h : m.Answered config p source)
  (hcode : Encoded source.acknowledgeBytes byteAt (Board.sought p.interrupted count page opcode))
  (hreckons : (decode page opcode).mnemonic.reckons = false)

include h hcode hreckons

/-- With the instruction in memory, the two machines go through its scenes together. -/
theorem Machine.Answered.matches
    (hplaced : m.Placed config p byteAt (Board.sought p.interrupted count page opcode) m')
    (hpushes : (decode page opcode).mnemonic.pushesPc = false)
    (hspares : Scene.SparesAll (m.surroundings config source)
      (Board.sought p.interrupted count page opcode)
      (Scene.opening p.interrupted (.memory p.interrupted.regs.pc) m'.memory.bytes)) :
    Machine.Matches config m m' (Board.sought p.interrupted count page opcode) := by
  have hscans : Scans (config.byteAt m'.memory.bytes) p.interrupted.regs.pc count page opcode :=
    hcode.scans.congr hplaced.placed
  have hencodes : Scene.Encodes (m.surroundings config source)
      (Board.sought p.interrupted count page opcode) m'.memory.bytes := fun i hi => by
    rw [show (m.surroundings config source).answer = source.acknowledgeBytes from rfl,
      hcode.answer i hi, ← hplaced.placed i hi]
    rfl
  obtain ⟨k, hbegins⟩ := h.begins
  obtain ⟨k', hbegins'⟩ := hplaced.begins source
  exact Scene.Doubles.finishes (Scene.doubles_opening (w := m.surroundings config source) hscans
      (Nat.succ_pos _) fun _ => hplaced.others)
    rfl hencodes ⟨⟨page, hscans.entitled⟩, hreckons⟩ hpushes hspares hbegins h.clear hbegins'
    hplaced.clear (Scene.masked_opening p _ _) (Scene.masked_opening p _ _)

/-- A call or a restart goes through the scenes that it would go through over memory that holds it and
    nothing else. -/
theorem Machine.Answered.savesPc (hpushes : (decode page opcode).mnemonic.pushesPc = true) :
    m.SavesPc config (Board.sought p.interrupted count page opcode) p.interrupted := by
  let v : Surroundings := ⟨{}, m.device.reply, source.acknowledgeBytes⟩
  have hlisted : v.config.byteAt (BoardConfig.listing byteAt) = byteAt :=
    BoardConfig.byteAt_listing byteAt
  have hscans : Scans (v.config.byteAt (BoardConfig.listing byteAt)) p.interrupted.regs.pc count page
      opcode := hlisted.symm ▸ hcode.scans
  have hencodes : Scene.Encodes v (Board.sought p.interrupted count page opcode)
      (BoardConfig.listing byteAt) := fun i hi => by
    rw [hlisted]
    exact hcode.answer i hi
  obtain ⟨k, hbegins⟩ := h.begins
  have hdoubles : Scene.Doubles v (Board.sought p.interrupted count page opcode)
      (BoardConfig.listing byteAt) p.interrupted.regs.pc
      (Scene.opening p.interrupted .device m.memory.bytes)
      (Scene.opening p.interrupted (.memory p.interrupted.regs.pc) (BoardConfig.listing byteAt)) :=
    Scene.doubles_opening hscans (Nat.succ_pos _) fun hnone => by cases hnone.symm.trans hpushes
  refine hdoubles.saves (w := m.surroundings config source) hencodes
    ⟨⟨page, hscans.entitled⟩, hreckons⟩ hpushes rfl ⟨rfl, rfl⟩ ⟨⟨p.interrupted.regs.r,
      p.interrupted.regs.wz, ?_⟩, fun hwrites => (by cases hwrites), rfl⟩ hbegins h.clear
    (Scene.masked_opening p _ _)
  exact congrArg (fun sp => { p.interrupted.regs with sp }) (UInt16.sub_zero _).symm

/-- A mode 0 interrupt executes the instruction of the device as if it had been fetched from memory at
    PC: the registers but PC, HALT, and memory outside the bytes of the instruction agree.  It takes
    two periods more, and PC stays where it was unless the instruction writes it.  A call or a restart
    saves the PC at which the interrupt was accepted. -/
theorem Machine.Answered.executes_answer :
    ((decode page opcode).mnemonic.pushesPc = false →
      ∀ m', m.Placed config p byteAt (Board.sought p.interrupted count page opcode) m' →
        Scene.SparesAll (m.surroundings config source) (Board.sought p.interrupted count page opcode)
          (Scene.opening p.interrupted (.memory p.interrupted.regs.pc) m'.memory.bytes) →
        Machine.Matches config m m' (Board.sought p.interrupted count page opcode))
      ∧ ((decode page opcode).mnemonic.pushesPc = true →
        m.SavesPc config (Board.sought p.interrupted count page opcode) p.interrupted) :=
  ⟨fun hpushes _ hplaced hspares => h.matches hcode hreckons hplaced hpushes hspares,
    h.savesPc hcode hreckons⟩

end Runs

/-- A source that asserts INT from the beginning, and answers with an INC A. -/
def incrementSource : InterruptSource :=
  { pulses := [⟨.intUntilAcknowledged 0, false⟩], firstByte := 0x3C }

/-- A small machine with a device. -/
def deviceMachine (device : Device) : Machine :=
  { clock := .atRest { smallMachine.board with device } smallConfig.frequencyHz }

/-- Its memory: a NOP and one more instruction. -/
def nopBytes (second : Byte) : Array Byte :=
  (0 :: second :: List.replicate 0x3FE 0).toArray

/-- It is about to start with the NOP at 0, with interrupts enabled or not. -/
def nopMachine (device : Device) (enabled : Bool) (second : Byte) : Machine :=
  (deviceMachine device).onBoard ((deviceMachine device).board.set {} {}
    (fun regs => { regs with iff1 := enabled, iff2 := enabled, pc := 0 }) (nopBytes second))

theorem attended_nopMachine (device : Device) (enabled : Bool) (second : Byte) :
    Attended smallConfig (nopMachine device enabled second).board := by
  have hbuilt : Machine.build smallConfig device = .ok (deviceMachine device) := rfl
  have hstart : Attended smallConfig (deviceMachine device).board := .start hbuilt (by decide +kernel)
  refine hstart.set _ _ _ _ ?_
  rw [nopBytes, List.size_toArray, List.length_cons, List.length_cons, List.length_replicate]
  rfl

/-- The machine whose NOP is followed by the interrupt. -/
def interruptedMachine : Machine :=
  (nopMachine (.source incrementSource) true 0).after 8

/-- The chip to which the NOP has led. -/
def nopChip : Core :=
  let before := (nopMachine (.source incrementSource) true 0).after 7
  (before.core.edge before.clock.level.flip before.board.inputs).core

/-- Its source, as INT is accepted. -/
def acceptedSource : InterruptSource :=
  interruptedMachine.device.source?.getD {}

/-- The machine whose NOP is followed by the INC A in memory. -/
def incrementingMachine : Machine :=
  (nopMachine .unattached false 0x3C).after 8

/-- An INC A from the source comes to what it comes to in memory. -/
theorem increment_from_source : Machine.Matches smallConfig interruptedMachine incrementingMachine
    (Board.sought nopChip.interrupted 0 .main 0x3C) := by
  have hclear (m : Machine) (last : Nat) (hends : (m.after last).ends = true)
      (hinputs : ∀ edge < last + 1, (m.after edge).board.inputs
        = { ({} : InputLevels) with int := (m.after edge).board.inputs.int }) (edge : Nat)
      (hunfinished : m.Unfinished edge) : (m.after edge).board.Clear := by
    refine hinputs edge (Nat.lt_succ_of_le (Nat.not_lt.mp fun hlate => ?_))
    cases (hunfinished last hlate).symm.trans hends
  have hdevice : interruptedMachine.device = .source acceptedSource
      ∧ acceptedSource.acknowledgeBytes = [0x3C] := by decide +kernel
  obtain ⟨hdevice, hbytes⟩ := hdevice
  have hanswered : interruptedMachine.Answered smallConfig nopChip acceptedSource := by
    refine ⟨Attended.after (attended_nopMachine _ _ _) 8, ?_, ?_, ⟨by decide +kernel, by decide +kernel,
      by decide +kernel, by decide +kernel, Or.inr ?_⟩, hclear _ 11 (by decide +kernel)
      (by decide +kernel)⟩
    · rw [hdevice]
      exact .source _
    · rw [hdevice]
      rfl
    · refine ⟨?_, ?_, ?_⟩ <;> decide +kernel
  have hsize : (Board.sought nopChip.interrupted 0 .main 0x3C).ignored
      + (Board.sought nopChip.interrupted 0 .main 0x3C).code.size = 1 := by decide +kernel
  have hpc : (Board.sought nopChip.interrupted 0 .main 0x3C).pc = 1 := by decide +kernel
  have hencoded : Encoded acceptedSource.acknowledgeBytes (fun _ => 0x3C)
      (Board.sought nopChip.interrupted 0 .main 0x3C) := by
    refine ⟨.main (by decide), fun i hi => ?_⟩
    obtain rfl : i = 0 := by omega
    rw [hbytes]
    rfl
  have hplaced : interruptedMachine.Placed smallConfig nopChip (fun _ => 0x3C)
      (Board.sought nopChip.interrupted 0 .main 0x3C) incrementingMachine := by
    have hnone : incrementingMachine.device = .unattached := by decide +kernel
    have hstored : interruptedMachine.memory.bytes = nopBytes 0
        ∧ incrementingMachine.memory.bytes = nopBytes 0x3C := by
      refine ⟨Array.toList_inj.mp ?_, Array.toList_inj.mp ?_⟩ <;> decide +kernel
    refine ⟨Attended.after (attended_nopMachine _ _ _) 8, ?_, ?_, ⟨?_, ?_, ?_, Or.inr ⟨?_, ?_, ?_⟩⟩,
      hclear _ 7 (by decide +kernel) (by decide +kernel), fun i hi => ?_, fun place hplace => ?_⟩
    · rw [hnone]
      exact .unattached
    · rw [hnone, hdevice]
      rfl
    · exact (Attended.after (attended_nopMachine _ _ _) 8).orderly
    · decide +kernel
    · decide +kernel
    · decide +kernel
    · decide +kernel
    · decide +kernel
    · obtain rfl : i = 0 := by omega
      rw [hpc, hstored.2]
      decide +kernel
    · rw [hstored.1, hstored.2, nopBytes, nopBytes, List.getElem?_toArray, List.getElem?_toArray]
      rcases place with _ | _ | place
      · rfl
      · exact absurd ⟨0, by omega, by rw [hpc]; rfl⟩ hplace
      · rw [List.getElem?_cons_succ, List.getElem?_cons_succ, List.getElem?_cons_succ,
          List.getElem?_cons_succ]
  have hspares : Scene.SparesAll (interruptedMachine.surroundings smallConfig acceptedSource)
      (Board.sought nopChip.interrupted 0 .main 0x3C)
      (Scene.opening nopChip.interrupted (.memory nopChip.interrupted.regs.pc)
        incrementingMachine.memory.bytes) := by
    intro count hlasts
    cases count with
    | zero => exact fun _ hread => by cases hread
    | succ count =>
      have hends : (Scene.opening nopChip.interrupted (.memory nopChip.interrupted.regs.pc)
          incrementingMachine.memory.bytes).ends
            (interruptedMachine.surroundings smallConfig acceptedSource) = true := by
        decide +kernel
      cases (hlasts 0 (Nat.succ_pos count)).symm.trans hends
  exact (hanswered.executes_answer hencoded (by decide +kernel)).1 (by decide +kernel) _ hplaced hspares

end Z80Board
