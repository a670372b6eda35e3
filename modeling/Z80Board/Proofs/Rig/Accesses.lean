import Z80Board.Proofs.Rig.Drivers

/-! # Every access to a port takes effect once

    A port latch sees the levels of the pins, edge by edge, and tells by them alone when a write to
    one of its ports begins.  A record is kept beside it of what the chip means: cycle by cycle, the
    writes to ports that got as far as asserting IORQ with WR.

    On every run, with waits, grants and resets wherever the levels have them, the log of the latch
    and its registers are those of the recorded writes to its ports, each of them once.  A cycle that
    reads from a port takes in the register of that port, or 0xFF where the latch does not answer. -/

namespace Z80Board

/-! ## What passes between the chip and the ports -/

/-- The writes to ports on a run. -/
structure PortTraffic where
  /-- The cycle in progress is a write to a port and has asserted IORQ with WR. -/
  struck : Bool := false
  /-- The writes before the log was last taken, oldest first. -/
  drained : List PortWrite := []
  /-- The writes since. -/
  writes : List PortWrite := []

namespace PortTraffic

/-- The half-period that a chip is about to run is the first one in which its write to a port asserts
    IORQ with WR. -/
def strikes (t : PortTraffic) (k : Core) : Bool :=
  k.cycle.kind == .portWrite && !(t.struck && k.cycle.half != 0) && k.runHalf.1.pins.givesPort

/-- The traffic with the half-period that a chip is about to run.  A cycle that begins has not struck
    yet. -/
def note (t : PortTraffic) (k : Core) : PortTraffic :=
  { t with
    struck := t.struck && k.cycle.half != 0 || t.strikes k
    writes := if t.strikes k then t.writes ++ [⟨k.latches.port, k.latches.outLow⟩] else t.writes }

/-- The traffic after an edge of the board. -/
def edge (t : PortTraffic) (b : Board) (level : Level) : PortTraffic :=
  match b.core.engaged level b.inputs with
  | some k => t.note k
  | none => t

/-- The traffic when the log has been taken. -/
def drain (t : PortTraffic) : PortTraffic :=
  { t with drained := t.drained ++ t.writes, writes := [] }

end PortTraffic

/-! ## The books of a latch -/

namespace PortLatch

variable {l₀ l : PortLatch} {t : PortTraffic}

/-- The write is to a port of the latch. -/
def covers (l : PortLatch) (w : PortWrite) : Bool :=
  l.answers (Word.low w.address)

/-- The registers after a write. -/
def store (registers : Vector Byte 256) (w : PortWrite) : Vector Byte 256 :=
  registers.set (Word.low w.address).toNat w.value (Word.low w.address).toNat_lt

/-- The latch holds what has been written to its ports since it was the given one. -/
structure Books (l₀ l : PortLatch) (t : PortTraffic) : Prop where
  range : l.first = l₀.first ∧ l.last = l₀.last
  writes : l.writes = t.writes.filter l₀.covers
  registers : l.registers = ((t.drained ++ t.writes).filter l₀.covers).foldl store l₀.registers

theorem Books.answers (h : l₀.Books l t) (port : Byte) : l.answers port = l₀.answers port := by
  rw [PortLatch.answers, PortLatch.answers, h.range.1, h.range.2]

/-- A write to a port, which may not be one of the latch. -/
theorem Books.take (h : l₀.Books l t) (address : Word) (byte : Byte) (struck : Bool) :
    l₀.Books (l.take address byte) { t with struck, writes := t.writes ++ [⟨address, byte⟩] } := by
  have hcovers : l₀.covers ⟨address, byte⟩ = l.answers (Word.low address) :=
    (h.answers (Word.low address)).symm
  cases hanswers : l.answers (Word.low address) with
  | true =>
    rw [hanswers] at hcovers
    rw [PortLatch.take, hanswers, if_pos rfl]
    refine ⟨h.range, ?_, ?_⟩
    · rw [List.filter_append, List.filter_cons_of_pos hcovers, ← h.writes]
      rfl
    · rw [← List.append_assoc, List.filter_append, List.filter_cons_of_pos hcovers,
        List.foldl_append, ← h.registers]
      rfl
  | false =>
    have hother : ¬ l₀.covers ⟨address, byte⟩ = true := by
      rw [hcovers, hanswers]
      exact Bool.false_ne_true
    rw [PortLatch.take, hanswers, if_neg Bool.false_ne_true]
    refine ⟨h.range, ?_, ?_⟩
    · rw [List.filter_append, List.filter_cons_of_neg hother, List.filter_nil, List.append_nil]
      exact h.writes
    · rw [← List.append_assoc, List.filter_append, List.filter_cons_of_neg hother, List.filter_nil,
        List.append_nil]
      exact h.registers

/-- Taking the log leaves the registers. -/
theorem Books.drain (h : l₀.Books l t) : l₀.Books l.takeWrites.1 t.drain := by
  refine ⟨h.range, rfl, ?_⟩
  show l.registers = ((t.drained ++ t.writes ++ []).filter l₀.covers).foldl store l₀.registers
  rw [List.append_nil]
  exact h.registers

end PortLatch

/-! ## Cycles that read from a port or write to one -/

theorem CycleKind.Uses.ports {kind : CycleKind} {pattern : BusPattern} (h : kind.Uses pattern) :
    (kind = .portRead ↔ pattern = .portRead) ∧ (kind = .portWrite ↔ pattern = .portWrite) := by
  obtain ⟨c, rfl⟩ := h
  unfold Core.busPattern
  cases kind
  case opcodeFetch =>
    dsimp only
    split
    · decide
    · split <;> decide
  all_goals
    dsimp only
    decide

/-- A read from a port takes its byte in at one half-period. -/
theorem Core.latches_portRead {k : Core} (hread : k.cycle.pattern = .portRead) :
    k.runHalf.1.latches =
      if k.cycle.half = 7 then { k.latches with fetched := k.data.value } else k.latches := by
  have hpush : ¬ (k.cycle.half = 0 ∧ k.cycle.pattern = .write) := by
    rw [hread]
    exact fun hboth => nomatch hboth.2
  have hsample : k.cycle.pattern.sampleHalf = 7 := by rw [hread]; rfl
  calc k.runHalf.1.latches
      = (k.runHalf.1.wiredAs k).latches := rfl
    _ = (k.effect k.cycle.half k.data.value).latches := by rw [runHalf_wiredAs_self]
    _ = _ := by
      rw [effect, if_neg hpush, hsample]
      split
      · rw [takeIn, hread]
        rfl
      · rfl

/-! ## The board on a run -/

namespace Board

variable {b : Board} {l₀ l : PortLatch} {t : PortTraffic} {k : Core} {level : Level}

/-- The data bus as the latch finds it on an edge. -/
def offered (b : Board) (level : Level) : Bus Byte :=
  b.memory.answered (b.moved level).pins (b.moved level).address (b.moved level).data

/-- The latch after an edge. -/
def latchAfter (l : PortLatch) (b : Board) (level : Level) : PortLatch :=
  (l.edge (b.moved level).pins (b.moved level).address (b.offered level)).1

theorem latchAfter_eq (l : PortLatch) (b : Board) (level : Level) :
    latchAfter l b level =
      { l.kept (b.moved level).pins (b.moved level).address.value
          (l.carried (b.moved level).pins (b.moved level).address.value (b.offered level)).value with
        driving := l.asked (b.moved level).pins (b.moved level).address.value
        writing := l.given (b.moved level).pins (b.moved level).address.value } := by
  rw [latchAfter, PortLatch.edge_eq]

/-- The components take turns, and the latch of the board is this one, which knows of the strobes. -/
structure Tracks (l : PortLatch) (b : Board) : Prop where
  turns : b.TakesTurns b.core.holding
  latch : b.device.latch? = some l
  /-- Once the chip has started, the latch follows the pins. -/
  writing : b.core.phase ≠ .powerOn → l.writing = l.given b.core.pins b.core.address.value

namespace Tracks

/-- A byte that the chip holds on the data bus is the one that the latch finds there. -/
theorem carried_chip (h : b.Tracks l) {byte : Byte} (hbyte : (b.moved level).holding = some byte) :
    (l.carried (b.moved level).pins (b.moved level).address.value (b.offered level)).value = byte := by
  have hcalls : (b.moved level).Calls .chip := by
    rw [Core.Calls, hbyte]
    exact Option.some_ne_none byte
  have hsound := h.turns.sound_moved level
  have hmemory : b.memory.driving = false :=
    (b.memory.isSome_driven b.core.address).symm.trans
      (h.turns.others hcalls (show Talker.memory ≠ .chip from nofun)).1
  have hdriving : l.driving = false := by
    have hsilent := (h.turns.others hcalls (show Talker.port ≠ .chip from nofun)).1
    rw [spoken, Device.latchDriven, h.latch] at hsilent
    exact (l.isSome_driven b.core.address.value).symm.trans hsilent
  have hsilent (other : Talker) (hne : other ≠ .chip) : ¬ (b.moved level).Calls other :=
    fun hother => hne (hsound.calls_unique hother hcalls)
  have hasksMemory : (b.moved level).pins.asksMemory = false :=
    Bool.eq_false_iff.mpr (hsilent .memory nofun)
  have hasksPort : (b.moved level).pins.asksPort = false :=
    Bool.eq_false_iff.mpr (hsilent .port nofun)
  rw [PortLatch.carried, PortLatch.asked, hasksPort, Bool.false_and, if_neg Bool.false_ne_true,
    hdriving, if_neg Bool.false_ne_true, offered, Memory.answered, hasksMemory,
    if_neg Bool.false_ne_true, hmemory, if_neg Bool.false_ne_true]
  exact (h.turns.voices level).carried byte hbyte

/-- An edge takes the byte of a write to a port when its strobe comes up, and nothing else. -/
theorem kept_edge (h : b.Tracks l) (level : Level) :
    l.kept (b.moved level).pins (b.moved level).address.value
        (l.carried (b.moved level).pins (b.moved level).address.value (b.offered level)).value
      = match b.core.engaged level b.inputs with
        | some k => if k.cycle.pattern = .portWrite ∧ k.cycle.half = 2 then
            l.take k.address.value k.latches.outLow
          else l
        | none => l := by
  obtain ⟨stopping, hstep⟩ := b.moved_eq level
  have houtcome := h.turns.sound.outcome level b.inputs stopping
  rw [← hstep] at houtcome
  cases houtcome with
  | rests rest _ closed =>
    rw [PortLatch.kept, PortLatch.given, (Core.no_port rest).2]
    cases hengaged : b.core.engaged level b.inputs with
    | none => rfl
    | some k =>
      -- the cycle is at its end
      obtain ⟨-, -, -, hroom⟩ := (h.turns.sound.engages hengaged).underway.last (closed k hengaged).1
      dsimp only
      refine (if_neg ?_).symm
      rintro ⟨hport, htwo⟩
      rw [hport, htwo] at hroom
      exact absurd hroom (by decide)
  | amid k runs more result =>
    have hk := h.turns.sound.engages runs
    have hhalf := hk.underway.half_runHalf more
    rw [runs]
    dsimp only
    have hphase : k.runHalf.1.phase = .running := Core.steady_runHalf.phase.trans hk.phase
    have hchosen : k.runHalf.1.boundaryPending = false :=
      Core.steady_runHalf.pending.trans hk.chosen
    have hwriting (hlater : k.cycle.half ≠ 0) : l.writing = l.given k.pins k.address.value := by
      obtain ⟨-, hruns, -⟩ := hk.amid hlater
      rw [h.writing (by rw [hruns]; decide), PortLatch.given, PortLatch.given,
        (Core.ports_congr hk.strobes).2, hk.address]
    have hbyte (hport : k.cycle.pattern = .portWrite) (htwo : k.cycle.half = 2) :
        (l.carried (b.moved level).pins (b.moved level).address.value (b.offered level)).value
          = k.latches.outLow := by
      refine h.carried_chip ?_
      rw [result, Core.holding_of_running hphase hchosen, Core.staged, Core.pattern_runHalf, hport,
        Core.latches_runHalf (Or.inr hport)]
      exact if_pos (by omega)
    have hkept := PortLatch.kept_runs hk.underway more hwriting hbyte
    rw [← result] at hkept
    exact hkept

/-- Every edge leaves a board with a latch that tracks the pins. -/
theorem edge (h : b.Tracks l) (level : Level) : (b.edge level).1.Tracks (latchAfter l b level) := by
  obtain ⟨-, hdevice, hcore⟩ := b.edge_parts level
  have hturns := h.turns.edge level
  have hholds := hturns.holds
  rw [hholds] at hturns
  have hpins : (b.edge level).1.core.pins = (b.moved level).pins := by rw [hcore]
  have haddress : (b.edge level).1.core.address = (b.moved level).address := by rw [hcore]
  refine ⟨hturns, ?_, fun _ => ?_⟩
  · rw [hdevice, h.turns.usual.latch_edge, h.latch]
    rfl
  · have hanswers (port : Byte) : (latchAfter l b level).answers port = l.answers port := by
      rw [latchAfter_eq, PortLatch.kept]
      split <;> rfl
    rw [PortLatch.given, hanswers, hpins, haddress, latchAfter_eq]
    rfl

end Tracks

/-- What holds between edges of a board with a latch, from the given one on. -/
structure Serves (l₀ l : PortLatch) (b : Board) (t : PortTraffic) : Prop extends b.Tracks l where
  books : l₀.Books l t
  driving : b.core.phase ≠ .powerOn → l.driving = l.asked b.core.pins b.core.address.value
  /-- The latch has its register on the data bus while it drives it. -/
  shown : b.core.phase ≠ .powerOn → l.driving = true →
    b.core.data.value = l.get (Word.low b.core.address.value)
  /-- A cycle that reads from a port or writes to one keeps its address on the address bus. -/
  address : b.core.phase = .running → b.core.boundaryPending = false → b.core.cycle.half ≠ 0 →
    b.core.cycle.pattern = .portRead ∨ b.core.cycle.pattern = .portWrite →
    b.core.address.value = b.core.latches.port
  /-- It has struck once its strobe has come up. -/
  struck : b.core.phase = .running → b.core.boundaryPending = false → b.core.cycle.half ≠ 0 →
    b.core.cycle.pattern = .portWrite → (t.struck = true ↔ 3 ≤ b.core.cycle.half)
  /-- Past the sampling, the byte of a read is the reply of the latch. -/
  taken : b.core.phase = .running → b.core.boundaryPending = false →
    b.core.cycle.pattern = .portRead → 7 < b.core.cycle.half →
    b.core.latches.fetched = l.reply b.core.latches.port

namespace Serves

/-- A write to a port that is under way has struck in its third half-period. -/
theorem struck_engaged (h : b.Serves l₀ l t) (hk : b.core.Engages k b.inputs)
    (hport : k.cycle.pattern = .portWrite) :
    (t.struck && k.cycle.half != 0) = true ↔ 3 ≤ k.cycle.half := by
  by_cases hfirst : k.cycle.half = 0
  · simp [hfirst]
  · obtain ⟨hsame, hphase, hchosen⟩ := hk.amid hfirst
    have hcycle : k.cycle = b.core.cycle := by rw [hsame]; rfl
    rw [hcycle] at hport hfirst ⊢
    rw [Bool.and_eq_true, h.struck hphase hchosen hfirst hport, bne_iff_ne]
    exact and_iff_left hfirst

/-- What strikes is the third half-period of a write to a port. -/
theorem strikes_iff (h : b.Serves l₀ l t) (hk : b.core.Engages k b.inputs) :
    t.strikes k = true ↔ k.cycle.pattern = .portWrite ∧ k.cycle.half = 2 := by
  rcases hk.underway.runHalf with ⟨hmore, -⟩ | ⟨hlast, hcloses, hwired⟩
  · have hhalf := hk.underway.half_runHalf hmore
    have hwired := (hk.underway.amid hmore).wired
    rw [PortTraffic.strikes, Bool.and_eq_true, Bool.and_eq_true, beq_iff_eq, Bool.not_eq_true',
      hk.underway.course.uses.ports.2, hwired.givesPort_iff, Core.pattern_runHalf, Bool.eq_false_iff]
    constructor
    · rintro ⟨⟨hport, hnot⟩, -, hroom⟩
      rw [Ne, h.struck_engaged hk hport] at hnot
      exact ⟨hport, by omega⟩
    · rintro ⟨hport, htwo⟩
      rw [Ne, h.struck_engaged hk hport]
      exact ⟨⟨hport, by omega⟩, hport, by omega⟩
  · -- the end of a cycle leaves no strobe up
    obtain ⟨-, -, -, hroom⟩ := hk.underway.last hlast
    rw [PortTraffic.strikes, (Core.no_port (hcloses.atRest hwired)).2, Bool.and_false]
    constructor
    · exact nofun
    · rintro ⟨hport, htwo⟩
      rw [hport, htwo] at hroom
      exact absurd hroom (by decide)

/-- Amid a cycle that reads from a port or writes to one, its address is on the address bus. -/
theorem address_engaged (h : b.Serves l₀ l t) (hk : b.core.Engages k b.inputs)
    (hlater : k.cycle.half ≠ 0)
    (hport : k.cycle.pattern = .portRead ∨ k.cycle.pattern = .portWrite) :
    k.address.value = k.latches.port := by
  obtain ⟨hsame, hphase, hchosen⟩ := hk.amid hlater
  rw [hsame] at hlater hport ⊢
  exact h.address hphase hchosen hlater hport

/-- It stays there over the half-period. -/
theorem address_runHalf (h : b.Serves l₀ l t) (hk : b.core.Engages k b.inputs)
    (hport : k.cycle.pattern = .portRead ∨ k.cycle.pattern = .portWrite) :
    k.runHalf.1.address.value = k.latches.port ∧ k.runHalf.1.latches.port = k.latches.port := by
  constructor
  · rw [Core.buses_runHalf.1]
    by_cases hfirst : k.cycle.half = 0
    · have hcycle : k.cycleAddress = some k.latches.port := by
        rw [Core.cycleAddress]
        rcases hport with hport | hport <;> rw [hport]
      rw [hfirst, Core.addressAfter_zero hcycle]
      rfl
    · have hplain : k.cycle.pattern ≠ .fetch ∧ k.cycle.pattern ≠ .acknowledge := by
        rcases hport with hport | hport <;> rw [hport] <;> decide
      rw [Core.addressAfter_later hfirst (Or.inr hplain)]
      exact h.address_engaged hk hfirst hport
  · rcases hport with hport | hport
    · rw [Core.latches_portRead hport]
      split <;> rfl
    · rw [Core.latches_runHalf (Or.inr hport)]

/-- An edge takes the byte of a write that strikes, and nothing else. -/
theorem kept_edge (h : b.Serves l₀ l t) (level : Level) :
    l.kept (b.moved level).pins (b.moved level).address.value
        (l.carried (b.moved level).pins (b.moved level).address.value (b.offered level)).value
      = match b.core.engaged level b.inputs with
        | some k => if t.strikes k then l.take k.latches.port k.latches.outLow else l
        | none => l := by
  rw [h.toTracks.kept_edge level]
  cases hengaged : b.core.engaged level b.inputs with
  | none => rfl
  | some k =>
    have hk := h.turns.sound.engages hengaged
    have hiff := h.strikes_iff hk
    dsimp only
    by_cases hstrikes : k.cycle.pattern = .portWrite ∧ k.cycle.half = 2
    · rw [if_pos hstrikes, if_pos (hiff.mpr hstrikes),
        h.address_engaged hk (by omega) (Or.inr hstrikes.1)]
    · rw [if_neg hstrikes, if_neg fun hother => hstrikes (hiff.mp hother)]

/-- A byte that the chip takes in from a port is the reply of the latch. -/
theorem samples (h : b.Serves l₀ l t) (hk : b.core.Engages k b.inputs)
    (hread : k.cycle.pattern = .portRead) (hseven : k.cycle.half = 7) :
    k.data.value = l.reply k.latches.port := by
  obtain ⟨-, hphase, -⟩ := hk.amid (by omega)
  have hstarted : b.core.phase ≠ .powerOn := by
    rw [hphase]
    exact nofun
  have hasks : b.core.pins.asksPort = true := by
    rw [← (Core.ports_congr hk.strobes).1]
    exact hk.underway.wired.asksPort_iff.mpr ⟨hread, by omega, by omega⟩
  have haddress := h.address_engaged hk (by omega) (Or.inl hread)
  rw [hk.address] at haddress
  have hdriving := h.driving hstarted
  rw [PortLatch.asked, hasks, Bool.true_and, haddress] at hdriving
  rw [hk.data, PortLatch.reply, ← hdriving]
  cases hnow : l.driving with
  | true =>
    rw [if_pos rfl, h.shown hstarted hnow, haddress]
  | false =>
    rw [if_neg Bool.false_ne_true]
    refine h.turns.floats fun talker => Bool.eq_false_iff.mpr fun hspeaks => ?_
    -- it would have been called on beside the port
    obtain rfl := h.turns.sound.calls_unique (show b.core.Calls .port from hasks)
      (h.turns.called hstarted talker hspeaks)
    rw [spoken, Device.latchDriven, h.latch] at hspeaks
    have hdrives : l.driving = true := (l.isSome_driven b.core.address.value).symm.trans hspeaks
    cases hnow.symm.trans hdrives

/-- It keeps it until the cycle is over. -/
theorem fetched_runHalf (h : b.Serves l₀ l t) (hk : b.core.Engages k b.inputs)
    (hread : k.cycle.pattern = .portRead) (hlate : 7 ≤ k.cycle.half) :
    k.runHalf.1.latches.fetched = l.reply k.latches.port := by
  rw [Core.latches_portRead hread]
  split
  · next hseven => exact h.samples hk hread hseven
  · next hother =>
    obtain ⟨hsame, hphase, hchosen⟩ := hk.amid (by omega)
    rw [hsame] at hread hlate hother ⊢
    exact h.taken hphase hchosen hread (Nat.lt_of_le_of_ne hlate fun hseven => hother hseven.symm)

/-- Every edge keeps the books. -/
theorem books_edge (h : b.Serves l₀ l t) (level : Level) :
    l₀.Books (latchAfter l b level) (t.edge b level) := by
  have hbooks : l₀.Books (l.kept (b.moved level).pins (b.moved level).address.value
      (l.carried (b.moved level).pins (b.moved level).address.value (b.offered level)).value)
      (t.edge b level) := by
    rw [h.kept_edge level, PortTraffic.edge]
    cases b.core.engaged level b.inputs with
    | none => exact h.books
    | some k =>
      dsimp only
      rw [PortTraffic.note]
      split
      · exact h.books.take _ _ _
      · exact ⟨h.books.range, h.books.writes, h.books.registers⟩
  rw [latchAfter_eq]
  exact ⟨hbooks.range, hbooks.writes, hbooks.registers⟩

theorem answers_latchAfter (h : b.Serves l₀ l t) (level : Level) (port : Byte) :
    (latchAfter l b level).answers port = l.answers port :=
  ((h.books_edge level).answers port).trans (h.books.answers port).symm

/-- After its third half-period a write to a port has struck. -/
theorem struck_runHalf (h : b.Serves l₀ l t) (hk : b.core.Engages k b.inputs)
    (hmore : k.runHalf.2 = false) (hport : k.cycle.pattern = .portWrite) :
    (t.note k).struck = true ↔ 3 ≤ k.runHalf.1.cycle.half := by
  -- a wait takes it back from the fifth half-period to the fourth
  have hsteps : k.runHalf.1.cycle.half = k.cycle.half + 1
      ∨ k.cycle.half = 5 ∧ k.runHalf.1.cycle.half = 4 := by
    rcases hk.underway.half_runHalf hmore with ⟨-, hnext⟩ | ⟨-, hback, ⟨-, -, hother⟩ | ⟨hfive, -⟩⟩
    · exact Or.inl hnext
    · exact absurd hport hother
    · exact Or.inr ⟨hfive, by omega⟩
  rw [show (t.note k).struck = (t.struck && k.cycle.half != 0 || t.strikes k) from rfl,
    Bool.or_eq_true, h.struck_engaged hk hport, h.strikes_iff hk]
  constructor
  · rintro (hstruck | ⟨-, htwo⟩) <;> omega
  · intro hroom
    by_cases htwo : k.cycle.half = 2
    · exact Or.inr ⟨hport, htwo⟩
    · exact Or.inl (by omega)

/-- What the chip has taken in from a port is what the latch still replies after the edge. -/
theorem fetched_edge (h : b.Serves l₀ l t) (hruns : b.core.engaged level b.inputs = some k)
    (hread : k.cycle.pattern = .portRead) (hlate : 7 ≤ k.cycle.half) :
    k.runHalf.1.latches.fetched = (latchAfter l b level).reply k.runHalf.1.latches.port := by
  have hk := h.turns.sound.engages hruns
  have hsame : (latchAfter l b level).registers = l.registers := by
    have hother : ¬ t.strikes k = true := by
      rw [h.strikes_iff hk, hread]
      exact fun hboth => by cases hboth.1
    have hkept := h.kept_edge level
    rw [hruns] at hkept
    dsimp only at hkept
    rw [if_neg hother] at hkept
    rw [latchAfter_eq, hkept]
  rw [(h.address_runHalf hk (Or.inl hread)).2, h.fetched_runHalf hk hread hlate, PortLatch.reply,
    PortLatch.reply, h.answers_latchAfter, PortLatch.get, PortLatch.get, hsame]

/-- Every edge leaves a board that serves the chip so. -/
theorem edge (h : b.Serves l₀ l t) (level : Level) :
    (b.edge level).1.Serves l₀ (latchAfter l b level) (t.edge b level) := by
  obtain ⟨-, -, hcore⟩ := b.edge_parts level
  have htracks := h.toTracks.edge level
  have hvoice := h.turns.oneVoice level
  rw [(h.turns.edge level).holds] at hvoice
  have hpins : (b.edge level).1.core.pins = (b.moved level).pins := by rw [hcore]
  have haddress : (b.edge level).1.core.address = (b.moved level).address := by rw [hcore]
  have hdriving : (latchAfter l b level).driving = (latchAfter l b level).asked
      (b.edge level).1.core.pins (b.edge level).1.core.address.value := by
    rw [PortLatch.asked, h.answers_latchAfter, hpins, haddress, latchAfter_eq]
    rfl
  have hshown (hdrives : (latchAfter l b level).driving = true) : (b.edge level).1.core.data.value
      = (latchAfter l b level).get (Word.low (b.edge level).1.core.address.value) := by
    refine hvoice.carried .port _ ?_
    rw [spoken, Device.latchDriven, htracks.latch]
    exact (if_pos hdrives : (latchAfter l b level).driven _ = _)
  obtain ⟨stopping, hstep⟩ := b.moved_eq level
  have houtcome := h.turns.sound.outcome level b.inputs stopping
  rw [← hstep] at houtcome
  cases houtcome with
  | rests rest first =>
    have hfirst : (b.edge level).1.core.phase = .running →
        (b.edge level).1.core.boundaryPending = false → (b.edge level).1.core.cycle.half = 0 := by
      rw [hcore]
      exact first
    refine ⟨htracks, h.books_edge level, fun _ => hdriving, fun _ => hshown,
      fun hphase hchosen hlater => absurd (hfirst hphase hchosen) hlater,
      fun hphase hchosen hlater => absurd (hfirst hphase hchosen) hlater,
      fun hphase hchosen _ hlate => ?_⟩
    rw [hfirst hphase hchosen] at hlate
    cases hlate
  | amid k runs more result =>
    have hk := h.turns.sound.engages runs
    have hcycle : (b.edge level).1.core.cycle = k.runHalf.1.cycle := by rw [hcore, result]
    have hlatches : (b.edge level).1.core.latches = k.runHalf.1.latches := by rw [hcore, result]
    refine ⟨htracks, h.books_edge level, fun _ => hdriving, fun _ => hshown,
      fun _ _ _ hport => ?_, fun _ _ _ hport => ?_, fun _ _ hread hlate => ?_⟩
    · rw [hcycle, Core.pattern_runHalf] at hport
      obtain ⟨hvalue, hkept⟩ := h.address_runHalf hk hport
      rw [haddress, result, hvalue, hlatches, hkept]
    · rw [hcycle, Core.pattern_runHalf] at hport
      have hnoted : t.edge b level = t.note k := by rw [PortTraffic.edge, runs]
      rw [hcycle, hnoted]
      exact h.struck_runHalf hk more hport
    · rw [hcycle, Core.pattern_runHalf] at hread
      rw [hcycle] at hlate
      have hhalf := hk.underway.half_runHalf more
      rw [hlatches]
      exact h.fetched_edge runs hread (by omega)

/-- The host may set what it likes. -/
theorem set (h : b.Serves l₀ l t) (host : InputLevels) (hooks : Hooks) (f : Registers → Registers)
    (bytes : Array Byte) : (b.set host hooks f bytes).Serves l₀ l t :=
  ⟨⟨h.turns.set host hooks f bytes, h.latch, h.writing⟩, h.books, h.driving, h.shown, h.address,
    h.struck, h.taken⟩

end Serves

/-- The board when the host has changed the latch. -/
def modifyLatch (b : Board) (f : PortLatch → PortLatch) : Board :=
  { b with device := b.device.modifyLatch f }

/-- The board when the log of the latch has been taken. -/
def drain (b : Board) : Board :=
  { b with device := b.device.modifyLatch fun l => l.takeWrites.1 }

/-- Unless the host changes whether the latch drives the data bus, nobody drives it otherwise. -/
theorem spoken_modifyLatch {f : PortLatch → PortLatch} (h : b.device.Usual)
    (hdriving : ∀ l, (f l).driving = l.driving) (held : Option Byte) (talker : Talker) :
    (b.modifyLatch f).device.Usual ∧ (b.modifyLatch f).device.source? = b.device.source?
      ∧ (b.modifyLatch f).device.latch? = b.device.latch?.map f
      ∧ ((b.modifyLatch f).spoken held talker).isSome = (b.spoken held talker).isSome := by
  have hport (l : PortLatch) (address : Word) :
      ((f l).driven address).isSome = (l.driven address).isSome := by
    rw [PortLatch.isSome_driven, PortLatch.isSome_driven, hdriving]
  obtain ⟨processor, memory, device, host⟩ := b
  cases h with
  | unattached => exact ⟨.unattached, rfl, rfl, by cases talker <;> rfl⟩
  | latch l => exact ⟨.latch _, rfl, rfl, by cases talker <;> first | rfl | exact hport l _⟩
  | source s => exact ⟨.source s, rfl, rfl, by cases talker <;> rfl⟩
  | both l s => exact ⟨.both _ s, rfl, rfl, by cases talker <;> first | rfl | exact hport l _⟩

/-- The host may change the registers and the log. -/
theorem Tracks.modifyLatch {f : PortLatch → PortLatch} (h : b.Tracks l)
    (hkept : ∀ l, ∃ registers writes, f l = { l with registers, writes }) :
    (b.modifyLatch f).Tracks (f l) := by
  have hdriving (l : PortLatch) : (f l).driving = l.driving := by
    obtain ⟨registers, writes, hf⟩ := hkept l
    rw [hf]
  have husual := h.turns.usual
  obtain ⟨husual', hsource, hlatch, -⟩ := spoken_modifyLatch husual hdriving none .chip
  have hspoken (talker : Talker) : ((b.modifyLatch f).spoken b.core.holding talker).isSome
      = (b.spoken b.core.holding talker).isSome :=
    (spoken_modifyLatch husual hdriving _ talker).2.2.2
  refine ⟨⟨h.turns.sound, husual', h.turns.floating, rfl, h.turns.carried,
    fun hphase talker hspeaks => h.turns.called hphase talker (hspoken talker ▸ hspeaks),
    fun hphase source hsome => h.turns.stocked hphase source (hsource ▸ hsome),
    fun hsilent => h.turns.floats fun talker => hspoken talker ▸ hsilent talker⟩,
    hlatch.trans (by rw [h.latch]; rfl), fun hphase => ?_⟩
  obtain ⟨registers, writes, hf⟩ := hkept l
  rw [hf]
  exact h.writing hphase

theorem Serves.drain (h : b.Serves l₀ l t) : b.drain.Serves l₀ l.takeWrites.1 t.drain :=
  ⟨h.toTracks.modifyLatch fun l => ⟨l.registers, [], rfl⟩, h.books.drain, h.driving, h.shown,
    h.address, h.struck, h.taken⟩

end Board

/-! ## Runs -/

/-- Boards with a latch, from power-on on, and the writes to ports that they have seen.  Between edges
    the host may set anything but the data bus and the registers of the latch, and take its log. -/
inductive Ported (config : BoardConfig) (l₀ : PortLatch) : Board → PortTraffic → Prop where
  | start {device : Device} {m : Machine} (usual : device.Usual) (latch : device.latch? = some l₀)
    (fresh : l₀.writes = []) (built : Machine.build config device = .ok m) :
    Ported config l₀ m.board {}
  | edge {b : Board} {t : PortTraffic} (h : Ported config l₀ b t) (level : Level) :
    Ported config l₀ (b.edge level).1 (t.edge b level)
  | set {b : Board} {t : PortTraffic} (h : Ported config l₀ b t) (host : InputLevels)
    (hooks : Hooks) (f : Registers → Registers) (bytes : Array Byte) :
    Ported config l₀ (b.set host hooks f bytes) t
  | drain {b : Board} {t : PortTraffic} (h : Ported config l₀ b t) :
    Ported config l₀ b.drain t.drain

variable {config : BoardConfig} {l₀ : PortLatch} {b : Board} {t : PortTraffic}

theorem Ported.serves (h : Ported config l₀ b t) : ∃ l, b.Serves l₀ l t := by
  induction h with
  | @start device m usual latch fresh built =>
    have hturns := Board.TakesTurns.start usual built
    rw [Machine.build] at built
    split at built
    · cases built
    · cases built
      have hasleep : Phase.powerOn ≠ .running := by decide
      exact ⟨l₀, ⟨hturns, latch, fun hphase => absurd rfl hphase⟩, ⟨⟨rfl, rfl⟩, fresh, rfl⟩,
        fun hphase => absurd rfl hphase, fun hphase => absurd rfl hphase,
        fun hruns => absurd hruns hasleep, fun hruns => absurd hruns hasleep,
        fun hruns => absurd hruns hasleep⟩
  | edge _ level ih =>
    obtain ⟨l, hserves⟩ := ih
    exact ⟨_, hserves.edge level⟩
  | set _ host hooks f bytes ih =>
    obtain ⟨l, hserves⟩ := ih
    exact ⟨l, hserves.set host hooks f bytes⟩
  | drain _ ih =>
    obtain ⟨l, hserves⟩ := ih
    exact ⟨_, hserves.drain⟩

/-- Whatever the run, the log of the latch is made of the writes to its ports since it was last taken,
    cycle by cycle, and its registers are what all of them have stored.  A cycle that reads from a
    port hands the chip the register of that port, or 0xFF if the latch does not answer it. -/
theorem Ported.takes_effect_once (h : Ported config l₀ b t) :
    ∃ l, b.device.latch? = some l
      ∧ l.writes = t.writes.filter l₀.covers
      ∧ l.registers
        = ((t.drained ++ t.writes).filter l₀.covers).foldl PortLatch.store l₀.registers
      ∧ ∀ level k, b.core.engaged level b.inputs = some k → k.cycle.kind = .portRead →
        k.runHalf.2 = true →
        k.runHalf.1.latches.fetched = if l₀.answers (Word.low k.latches.port)
          then l.get (Word.low k.latches.port) else 0xFF := by
  obtain ⟨l, hserves⟩ := h.serves
  refine ⟨l, hserves.latch, hserves.books.writes, hserves.books.registers,
    fun level k hengaged hkind hlast => ?_⟩
  have hk := hserves.turns.sound.engages hengaged
  have hread := hk.underway.course.uses.ports.1.mp hkind
  obtain ⟨-, -, -, hroom⟩ := hk.underway.last hlast
  rw [hread] at hroom
  rw [hserves.fetched_runHalf hk hread (Nat.le_of_succ_le_succ hroom), PortLatch.reply,
    hserves.books.answers]

/-- The board and the traffic after some edges. -/
def Board.transact (b : Board) (t : PortTraffic) : List Level → Board × PortTraffic
  | [] => (b, t)
  | level :: rest => (b.edge level).1.transact (t.edge b level) rest

theorem Ported.transact (h : Ported config l₀ b t) (levels : List Level) :
    Ported config l₀ (b.transact t levels).1 (b.transact t levels).2 := by
  induction levels generalizing b t with
  | nil => exact h
  | cons level rest ih => exact ih (h.edge level)

/-- A machine with a latch behind the lower half of the ports. -/
def latchMachine : Machine :=
  { clock := .atRest
      { processor := .powerOn (.released 0xFFFF) (.released 0xFF)
        memory :=
          { Memory.ofSize (.truncated Machine.addressBus smallConfig.addressLines) 0x400 with
            rom := smallConfig.rom }
        device := .latch { last := 0x7F } } smallConfig.frequencyHz }

/-- Its board with OUT (7),A and IN A,(7), and a byte in A. -/
def portBoard : Board :=
  latchMachine.board.set {} latchMachine.hooks (fun regs => { regs with a := 0x42 })
    #[0xD3, 0x07, 0xDB, 0x07]

/-- What is written to the port is read from it. -/
theorem read_after_write :
    let run := portBoard.transact {} ((List.range 43).map fun edge => .ofBool (edge % 2 == 0))
    ∃ l, run.1.device.latch? = some l ∧ l.writes = [⟨0x4207, 0x42⟩]
      ∧ ∃ k, run.1.core.engaged .low run.1.inputs = some k
        ∧ k.runHalf.1.latches.fetched = l.get 0x07 := by
  intro run
  have hbuilt : Machine.build smallConfig (.latch { last := 0x7F }) = .ok latchMachine := rfl
  have hstart : Ported smallConfig { last := 0x7F } portBoard {} :=
    (Ported.start (.latch _) rfl rfl hbuilt).set ..
  have hrun : Ported smallConfig { last := 0x7F } run.1 run.2 := hstart.transact _
  obtain ⟨l, hlatch, hwrites, -, hreads⟩ := hrun.takes_effect_once
  have htold : (run.1.core.engaged .low run.1.inputs).map
      (fun k => (k.cycle.kind, k.runHalf.2, k.latches.port)) = some (.portRead, true, 0x4207) := by
    decide +kernel
  obtain ⟨k, hengaged, hk⟩ := Option.map_eq_some_iff.mp htold
  simp only [Prod.mk.injEq] at hk
  obtain ⟨hkind, hlast, hport⟩ := hk
  refine ⟨l, hlatch, hwrites.trans ?_, k, hengaged, ?_⟩
  · decide +kernel
  · rw [hreads .low k hengaged hkind hlast, hport]
    rfl

end Z80Board
