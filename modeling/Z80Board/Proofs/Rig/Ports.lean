import Z80Board.Proofs.Chip.Logic
import Z80Board.Proofs.Rig.Stops

/-! # A port latch on the board

    A board with a port latch on it, or with nothing, and a host that drives no interrupt and no
    reset.  The latch puts its register on the data bus exactly while a read of one of its ports is
    going on, and it stores and logs what is written to one of them when the strobe comes up, once.
    While nobody drives the data bus it floats high. -/

namespace Z80Board

/-! ## The pins -/

/-- A port is asked for a byte. -/
def Pins.asksPort (pins : Pins) : Bool :=
  pins.portRequest && pins.rd.isAsserted

/-- A port is given a byte. -/
def Pins.givesPort (pins : Pins) : Bool :=
  pins.portRequest && pins.wr.isAsserted

namespace ActiveCycle

variable {cycle : ActiveCycle} {half : Nat}

/-- A port is asked for a byte late in a cycle that reads from it. -/
theorem asksPort_outputs : (cycle.outputs half).asksPort = true ↔
    cycle.pattern = .portRead ∧ 3 ≤ half ∧ half ≤ 7 := by
  unfold outputs
  cases cycle.pattern
  all_goals
    obtain rfl | rfl | rfl | rfl | rfl | rfl | rfl | rfl | rfl | ⟨n, rfl⟩ := half_cases half <;>
      simp [fetchOutputs, acknowledgeOutputs, readOutputs, writeOutputs, portOutputs,
        Pins.asksPort, Pins.portRequest, Level.isAsserted, Level.isLow]

/-- A port is given a byte late in a cycle that writes to it. -/
theorem givesPort_outputs : (cycle.outputs half).givesPort = true ↔
    cycle.pattern = .portWrite ∧ 3 ≤ half ∧ half ≤ 7 := by
  unfold outputs
  cases cycle.pattern
  all_goals
    obtain rfl | rfl | rfl | rfl | rfl | rfl | rfl | rfl | rfl | ⟨n, rfl⟩ := half_cases half <;>
      simp [fetchOutputs, acknowledgeOutputs, readOutputs, writeOutputs, portOutputs,
        Pins.givesPort, Pins.portRequest, Level.isAsserted, Level.isLow]

end ActiveCycle

namespace Core

variable {c : Core} {half : Nat}

/-- Whether a port is asked or given a byte is told by the strobes. -/
theorem ports_congr {pins pins' : Pins} (h : pins.strobes = pins'.strobes) :
    pins.asksPort = pins'.asksPort ∧ pins.givesPort = pins'.givesPort := by
  simp only [Pins.strobes, Prod.mk.injEq] at h
  obtain ⟨hm1, -, hiorq, hrd, hwr⟩ := h
  rw [Pins.asksPort, Pins.givesPort, Pins.portRequest, hm1, hiorq, hrd, hwr]
  exact ⟨rfl, rfl⟩

theorem Wired.asksPort_iff (h : c.Wired half) : c.pins.asksPort = true ↔
    c.cycle.pattern = .portRead ∧ 3 ≤ half ∧ half ≤ 7 := by
  rw [(ports_congr h.strobes).1]
  exact ActiveCycle.asksPort_outputs

theorem Wired.givesPort_iff (h : c.Wired half) : c.pins.givesPort = true ↔
    c.cycle.pattern = .portWrite ∧ 3 ≤ half ∧ half ≤ 7 := by
  rw [(ports_congr h.strobes).2]
  exact ActiveCycle.givesPort_outputs

/-- With no strobe up, no port is asked or given anything. -/
theorem no_port {pins : Pins} (h : pins.AtRest) :
    pins.asksPort = false ∧ pins.givesPort = false := by
  simp only [Pins.AtRest, Pins.strobes, Prod.mk.injEq] at h
  obtain ⟨-, -, hiorq, -, -⟩ := h
  rw [Pins.asksPort, Pins.givesPort, Pins.portRequest, hiorq]
  exact ⟨rfl, rfl⟩

/-- A sound chip has no strobe up, or it is amid an instruction. -/
theorem Sound.rests_or_underway (h : c.Sound) :
    c.pins.AtRest ∨ c.phase = .running ∧ c.boundaryPending = false ∧ c.Underway := by
  cases hchosen : c.boundaryPending with
  | true => exact Or.inl (h.pending hchosen).2
  | false =>
    cases hphase : c.phase with
    | powerOn => exact Or.inl (h.waiting (Or.inl hphase))
    | reset => exact Or.inl (h.waiting (Or.inr hphase))
    | running => exact Or.inr ⟨rfl, rfl, h.running hphase hchosen⟩
    | busReleased =>
      obtain ⟨hunderway, hfirst⟩ := h.released hphase
      exact Or.inl (hunderway.atRest hfirst)

/-- No port is asked and given a byte at once. -/
theorem Sound.givesPort_of_asksPort (h : c.Sound) (hasks : c.pins.asksPort = true) :
    c.pins.givesPort = false := by
  rcases h.rests_or_underway with hrest | ⟨-, -, hunderway⟩
  · exact nomatch (no_port hrest).1.symm.trans hasks
  · refine Bool.eq_false_iff.mpr fun hgives => ?_
    obtain ⟨hread, -⟩ := hunderway.wired.asksPort_iff.mp hasks
    obtain ⟨hwrite, -⟩ := hunderway.wired.givesPort_iff.mp hgives
    exact nomatch hread.symm.trans hwrite

end Core

/-! ## The latch -/

namespace PortLatch

variable {pins : Pins} {address : Bus Word} {data : Bus Byte}

/-- The latch is asked for the register of one of its ports. -/
def asked (l : PortLatch) (pins : Pins) (address : Word) : Bool :=
  pins.asksPort && l.answers (Word.low address)

/-- The latch is given a byte for one of its ports. -/
def given (l : PortLatch) (pins : Pins) (address : Word) : Bool :=
  pins.givesPort && l.answers (Word.low address)

/-- The latch with one more write. -/
def record (l : PortLatch) (address : Word) (byte : Byte) : PortLatch :=
  { l.set (Word.low address) byte with writes := l.writes ++ [⟨address, byte⟩] }

/-- The latch after a write to a port, which may not be one of its own. -/
def take (l : PortLatch) (address : Word) (byte : Byte) : PortLatch :=
  if l.answers (Word.low address) then l.record address byte else l

/-- What the data bus carries while a port is asked for a byte. -/
def reply (l : PortLatch) (address : Word) : Byte :=
  if l.answers (Word.low address) then l.get (Word.low address) else 0xFF

/-- The latch with no access going on. -/
def idle (l : PortLatch) : PortLatch :=
  { l with driving := false, writing := false }

theorem idle_take (l : PortLatch) (address : Word) (byte : Byte) :
    (l.take address byte).idle = l.idle.take address byte := by
  unfold take
  rw [show l.idle.answers (Word.low address) = l.answers (Word.low address) from rfl]
  split <;> rfl

/-- The data bus after an edge: the register that the latch is asked for, and afterwards floating
    lines. -/
def carried (l : PortLatch) (pins : Pins) (address : Word) (data : Bus Byte) : Bus Byte :=
  if l.asked pins address then data.drive (l.get (Word.low address))
  else if l.driving then data.release
  else data

theorem floating_carried (l : PortLatch) (pins : Pins) (address : Word) (data : Bus Byte) :
    (l.carried pins address data).floating = data.floating := by
  rw [carried]
  split
  · rfl
  · split <;> rfl

/-- The latch after an edge: a write counts when its strobe comes up. -/
def kept (l : PortLatch) (pins : Pins) (address : Word) (byte : Byte) : PortLatch :=
  if l.given pins address && !l.writing then l.record address byte else l

/-- An edge. -/
theorem edge_eq (l : PortLatch) (pins : Pins) (address : Bus Word) (data : Bus Byte) :
    l.edge pins address data =
      ({ l.kept pins address.value (l.carried pins address.value data).value with
          driving := l.asked pins address.value
          writing := l.given pins address.value },
        l.carried pins address.value data) := by
  have hasked : (l.selected pins address.value && pins.rd.isAsserted)
      = l.asked pins address.value := by
    rw [selected, asked, Pins.asksPort, Bool.and_right_comm]
  have hdrive : l.drive pins address.value data =
      ({ l with driving := l.asked pins address.value }, l.carried pins address.value data) := by
    rw [drive, hasked, carried]
    cases hnow : l.asked pins address.value with
    | true => rfl
    | false =>
      cases hdriving : l.driving with
      | true => rfl
      | false =>
        cases l
        cases hdriving
        rfl
  have hgiven (driving : Bool) :
      (({ l with driving } : PortLatch).selected pins address.value && pins.wr.isAsserted)
        = l.given pins address.value := by
    rw [selected, given, Pins.givesPort, Bool.and_right_comm]
    rfl
  have hcapture (driving : Bool) (data : Bus Byte) :
      ({ l with driving } : PortLatch).capture pins address.value data =
        { l.kept pins address.value data.value with
          driving, writing := l.given pins address.value } := by
    unfold capture kept
    rw [hgiven]
    dsimp only
    split <;> rfl
  rw [edge, hdrive]
  dsimp only
  rw [hcapture]

/-- Amid a cycle, a latch takes a byte when the strobe of a write to a port comes up, and then only. -/
theorem kept_runs {l : PortLatch} {k : Core} {byte : Byte} (h : k.Underway)
    (hmore : k.runHalf.2 = false)
    (hwriting : k.cycle.half ≠ 0 → l.writing = l.given k.pins k.address.value)
    (hbyte : k.cycle.pattern = .portWrite → k.cycle.half = 2 → byte = k.latches.outLow) :
    l.kept k.runHalf.1.pins k.runHalf.1.address.value byte =
      if k.cycle.pattern = .portWrite ∧ k.cycle.half = 2 then
        l.take k.address.value k.latches.outLow
      else l := by
  have hwired := (h.amid hmore).wired
  have hhalf := h.half_runHalf hmore
  cases hnow : k.runHalf.1.pins.givesPort with
  | false =>
    have hother : ¬ (k.cycle.pattern = .portWrite ∧ k.cycle.half = 2) := by
      rintro ⟨hport, htwo⟩
      have hup := hwired.givesPort_iff.mpr
        ⟨Core.pattern_runHalf.trans hport, by omega, by omega⟩
      cases hnow.symm.trans hup
    rw [if_neg hother, kept, given, hnow]
    rfl
  | true =>
    obtain ⟨hport, hroom⟩ := hwired.givesPort_iff.mp hnow
    rw [Core.pattern_runHalf] at hport
    have hlater : k.cycle.half ≠ 0 := by omega
    have haddress : k.runHalf.1.address = k.address := by
      have hplain : k.cycle.pattern ≠ .fetch ∧ k.cycle.pattern ≠ .acknowledge := by
        constructor <;> rw [hport] <;> exact nofun
      rw [Core.buses_runHalf.1, Core.addressAfter_later hlater (Or.inr hplain)]
    have hbefore := hwriting hlater
    by_cases htwo : k.cycle.half = 2
    · have hdown : k.pins.givesPort = false := by
        refine Bool.eq_false_iff.mpr fun hgives => ?_
        have hroom := (h.wired.givesPort_iff.mp hgives).2
        omega
      rw [given, hdown, Bool.false_and] at hbefore
      rw [if_pos ⟨hport, htwo⟩, hbyte hport htwo, kept, given, haddress, hbefore, hnow,
        Bool.not_false, Bool.and_true, Bool.true_and]
      rfl
    · -- the strobe has been up before
      have hup : k.pins.givesPort = true := by
        refine h.wired.givesPort_iff.mpr ⟨hport, ?_, ?_⟩ <;> omega
      rw [given, hup, Bool.true_and] at hbefore
      rw [if_neg fun hboth => htwo hboth.2, kept, given, haddress, hbefore, hnow, Bool.true_and,
        Bool.and_not_self]
      rfl

end PortLatch

/-! ## Nothing, or a latch -/

namespace Device

variable {level : Level} {pins : Pins} {address : Bus Word} {data : Bus Byte} {device : Device}

/-- Nothing is attached, or one port latch. -/
def Plain : Device → Prop
  | .unattached | .latch _ => True
  | _ => False

/-- The latch that is attached.  Nothing is as good as a latch without ports. -/
def bank : Device → PortLatch
  | .latch l => l
  | _ => { first := 1, last := 0 }

/-- An edge of a plain device is one of its latch. -/
theorem bank_edge (h : device.Plain) :
    (device.edge level pins address data).1.Plain
      ∧ (device.edge level pins address data).1.bank = (device.bank.edge pins address data).1
      ∧ (device.edge level pins address data).2 = (device.bank.edge pins address data).2 := by
  match device, h with
  | .latch l, _ => exact ⟨trivial, rfl, rfl⟩
  | .unattached, _ =>
    have hnone (port : Byte) : (bank .unattached).answers port = false := by
      refine Bool.eq_false_iff.mpr fun hanswers => ?_
      obtain ⟨hlow, hhigh⟩ := Bool.and_eq_true_iff.mp hanswers
      have hlow' := UInt8.le_iff_toNat_le.mp (of_decide_eq_true hlow)
      have hhigh' := UInt8.le_iff_toNat_le.mp (of_decide_eq_true hhigh)
      exact absurd (Nat.le_trans hlow' hhigh') (by decide)
    refine ⟨trivial, ?_, ?_⟩
    · rw [PortLatch.edge_eq, PortLatch.kept, PortLatch.asked, PortLatch.given, hnone, Bool.and_false,
        Bool.and_false]
      rfl
    · rw [PortLatch.edge_eq, PortLatch.carried, PortLatch.asked, hnone, Bool.and_false]
      rfl

/-- A plain device interrupts nobody. -/
theorem interrupts_plain (h : device.Plain) : device.int = .released ∧ device.nmi = .released := by
  match device, h with
  | .latch l, _ => exact ⟨rfl, rfl⟩
  | .unattached, _ => exact ⟨rfl, rfl⟩

end Device

/-! ## A board that nobody disturbs -/

namespace Board

variable {b : Board} {k : Core} {level : Level}

/-- Nobody interrupts, resets or stops the chip, and at most a port latch is attached.  Once the chip
    has started, the latch follows the pins. -/
structure Undisturbed (b : Board) : Prop where
  settled : b.Settled
  free : b.core.Free
  host : b.host.Gentle
  hooks : b.processor.hooks.Quiet
  plain : b.device.Plain
  driving : b.core.phase ≠ .powerOn →
    b.device.bank.driving = b.device.bank.asked b.core.pins b.core.address.value
  writing : b.core.phase ≠ .powerOn →
    b.device.bank.writing = b.device.bank.given b.core.pins b.core.address.value
  /-- The latch has its register on the data bus while it drives it. -/
  shown : b.core.phase ≠ .powerOn → b.device.bank.driving = true →
    b.core.data.value = b.device.bank.get (Word.low b.core.address.value)
  floating : b.core.data.floating = 0xFF
  /-- The data bus floats while nobody drives it. -/
  floats : b.core.pins.asksMemory = false →
    (b.core.phase = .running → b.core.staged b.core.cycle.half = none) →
    b.device.bank.driving = false → b.core.data.value = 0xFF

namespace Undisturbed

/-- Nothing interrupts or resets the chip on the next edge. -/
theorem gentle (h : b.Undisturbed) : b.inputs.Gentle := by
  obtain ⟨hint, hnmi⟩ := Device.interrupts_plain h.plain
  refine ⟨h.host.reset, ?_, ?_⟩
  · show (b.host.nmi.wiredAnd b.device.nmi).isAsserted = false
    rw [hnmi, Level.wiredAnd_released]
    exact h.host.nmi
  · show (b.host.int.wiredAnd b.device.int).isAsserted = false
    rw [hint, Level.wiredAnd_released]
    exact h.host.int

/-- The next instruction is always chosen at once. -/
theorem moved_eq (h : b.Undisturbed) (level : Level) :
    b.moved level = ((b.core.edge level b.inputs).finish false).1 := by
  rw [← stops_of_quiet h.hooks level]
  rfl

/-- The chip makes one of its strides. -/
theorem stride (h : b.Undisturbed) (level : Level) :
    b.core.Stride (b.core.edge level b.inputs) (b.core.engaged level b.inputs) :=
  (h.free.stride h.gentle level).1

/-- The latch after an edge, and the data bus. -/
theorem bank_edge (h : b.Undisturbed) (level : Level) :
    let latch := b.device.bank.edge (b.moved level).pins (b.moved level).address
      (b.memory.answered (b.moved level).pins (b.moved level).address (b.moved level).data)
    (b.edge level).1.device.Plain
      ∧ (b.edge level).1.device.bank = latch.1
      ∧ (b.edge level).1.core.data = latch.2 := by
  obtain ⟨-, hdevice, hcore⟩ := b.edge_parts level
  rw [hdevice, hcore]
  exact Device.bank_edge h.plain

/-- The data bus as the chip leaves it floats to where it always has. -/
theorem floating_moved (h : b.Undisturbed) (level : Level) :
    (b.moved level).data.floating = 0xFF := by
  have hstride := h.stride level
  have hengages (k : Core) (hk : b.core.engaged level b.inputs = some k) :
      k.runHalf.1.data.floating = 0xFF := by
    rw [Core.floating_runHalf, (h.settled.sound.engages hk).data]
    exact h.floating
  rw [h.moved_eq]
  generalize b.core.engaged level b.inputs = engaged at hstride hengages
  cases hstride with
  | stalls _ _ data =>
    rcases data with ⟨-, hsame⟩ | hreleased
    · rw [hsame]
      exact h.floating
    · rw [hreleased]
      exact h.floating
  | @runs k _ _ _ result =>
    rw [result]
    exact hengages k rfl
  | @closes k _ _ _ result =>
    rw [result, (Core.leaves_latchResult.trans Core.leaves_followed).data]
    exact hengages k rfl

/-- If nobody drove the data bus and nothing is staged, the chip leaves it floating. -/
theorem floats_moved (h : b.Undisturbed) (level : Level) (hasks : b.core.pins.asksMemory = false)
    (hdriving : b.device.bank.driving = false)
    (hstaged : (b.moved level).phase = .running →
      (b.moved level).staged (b.moved level).cycle.half = none) :
    (b.moved level).data.value = 0xFF := by
  have hstride := h.stride level
  have hengages (k : Core) (hk : b.core.engaged level b.inputs = some k) :
      k.runHalf.1.data.value = 0xFF
        ∨ (k.runHalf.2 = false ∧ k.runHalf.1.staged k.runHalf.1.cycle.half ≠ none
          ∧ k.runHalf.1.phase = .running) := by
    have hengages := h.settled.sound.engages hk
    rcases hengages.underway.data_runHalf with hreleased | ⟨hnone, hsame⟩ | ⟨hmore, hsome⟩
    · refine Or.inl ?_
      rw [hreleased, hengages.data]
      exact h.floating
    · refine Or.inl ?_
      rw [hsame, hengages.data]
      refine h.floats hasks (fun hphase => ?_) hdriving
      rw [hengages.kept hphase h.free.chosen] at hnone
      exact hnone
    · exact Or.inr ⟨hmore, hsome, Core.steady_runHalf.phase.trans hengages.phase⟩
  rw [h.moved_eq] at hstaged ⊢
  generalize b.core.engaged level b.inputs = engaged at hstride hengages
  cases hstride with
  | stalls _ _ data =>
    rcases data with ⟨hphase, hsame⟩ | hreleased
    · rw [hsame]
      exact h.floats hasks (fun hrunning => absurd hrunning hphase) hdriving
    · rw [hreleased]
      exact h.floating
  | @runs k _ _ _ result =>
    rw [result] at hstaged ⊢
    rcases hengages k rfl with hfloats | ⟨-, hsome, hphase⟩
    · exact hfloats
    · exact absurd (hstaged hphase) hsome
  | @closes k _ _ last result =>
    rw [result, (Core.leaves_latchResult.trans Core.leaves_followed).data]
    rcases hengages k rfl with hfloats | ⟨hmore, -⟩
    · exact hfloats
    · exact nomatch last.symm.trans hmore

/-- Every edge leaves the board undisturbed. -/
theorem edge (h : b.Undisturbed) (level : Level) : (b.edge level).1.Undisturbed := by
  obtain ⟨hmemory, -, hcore⟩ := b.edge_parts level
  obtain ⟨hplain, hbank, hdata⟩ := h.bank_edge level
  have hsettled := h.settled.edge level
  have hfree : (b.moved level).Free := by
    rw [h.moved_eq]
    exact (h.free.stride h.gentle level).2
  have hpins : (b.edge level).1.core.pins = (b.moved level).pins := by rw [hcore]
  have haddress : (b.edge level).1.core.address = (b.moved level).address := by rw [hcore]
  have hfloating := h.floating_moved level
  rw [PortLatch.edge_eq] at hbank hdata
  dsimp only at hbank hdata
  have hanswers (port : Byte) :
      (b.edge level).1.device.bank.answers port = b.device.bank.answers port := by
    rw [hbank, PortLatch.kept]
    split <;> rfl
  have hasked : (b.edge level).1.device.bank.driving = (b.edge level).1.device.bank.asked
      (b.edge level).1.core.pins (b.edge level).1.core.address.value := by
    rw [PortLatch.asked, hanswers, hpins, haddress, hbank]
    rfl
  have hgiven : (b.edge level).1.device.bank.writing = (b.edge level).1.device.bank.given
      (b.edge level).1.core.pins (b.edge level).1.core.address.value := by
    rw [PortLatch.given, hanswers, hpins, haddress, hbank]
    rfl
  refine ⟨hsettled, ?_, h.host, quiet_edge h.hooks level, hplain, fun _ => hasked, fun _ => hgiven,
    fun _ hdriving => ?_, ?_, fun hasks hstaged hdriving => ?_⟩
  · rw [hcore]
    exact ⟨hfree.phase, hfree.chosen, hfree.nmi⟩
  · -- what is asked for is not being written
    rw [hasked, PortLatch.asked, Bool.and_eq_true] at hdriving
    have hnone := hsettled.sound.givesPort_of_asksPort hdriving.1
    rw [hanswers, haddress, hpins] at hdriving
    rw [hpins] at hnone
    have hnow : b.device.bank.asked (b.moved level).pins (b.moved level).address.value = true := by
      rw [PortLatch.asked, hdriving.1, hdriving.2]
      rfl
    have hkept (byte : Byte) : b.device.bank.kept (b.moved level).pins
        (b.moved level).address.value byte = b.device.bank := by
      rw [PortLatch.kept, PortLatch.given, hnone]
      rfl
    rw [hdata, PortLatch.carried, if_pos hnow, hbank, hkept, haddress]
    rfl
  · rw [hdata, PortLatch.floating_carried, Memory.floating_answered]
    exact hfloating
  · have hnow : b.device.bank.asked (b.moved level).pins (b.moved level).address.value = false := by
      rw [hbank] at hdriving
      exact hdriving
    rw [hpins] at hasks
    rw [hdata, PortLatch.carried, hnow, if_neg Bool.false_ne_true, Memory.answered, hasks,
      if_neg Bool.false_ne_true]
    cases hmemory : b.memory.driving with
    | true =>
      rw [if_pos rfl]
      split <;> exact hfloating
    | false =>
      rw [if_neg Bool.false_ne_true]
      cases hlatch : b.device.bank.driving with
      | true => exact hfloating
      | false =>
        rw [hcore] at hstaged
        exact h.floats_moved level (h.settled.driving.symm.trans hmemory) hlatch hstaged

/-- A byte that the chip takes in from a port is the reply of the latch. -/
theorem samples_port (h : b.Undisturbed) (hk : b.core.Engages k b.inputs)
    (hread : k.cycle.pattern = .portRead) (hseven : k.cycle.half = 7) :
    k.data.value = b.device.bank.reply k.address.value := by
  obtain ⟨hsame, hphase, hchosen⟩ := hk.amid (by omega)
  have hstarted : b.core.phase ≠ .powerOn := by
    rw [hphase]
    decide
  have hasks : b.core.pins.asksPort = true := by
    have hasks := hk.underway.wired.asksPort_iff.mpr ⟨hread, by omega, by omega⟩
    rw [hsame] at hasks
    exact hasks
  have hdriving := h.driving hstarted
  rw [PortLatch.asked, hasks, Bool.true_and, ← hk.address] at hdriving
  rw [PortLatch.reply, ← hdriving]
  cases hnow : b.device.bank.driving with
  | true =>
    rw [if_pos rfl, hk.data, hk.address]
    exact h.shown hstarted hnow
  | false =>
    have hmemory : b.core.pins.asksMemory = false := by
      refine Bool.eq_false_iff.mpr fun hmemory => ?_
      have hreads : k.pins.asksMemory = true := by
        rw [hsame]
        exact hmemory
      have hother := (hk.underway.wired.asksMemory_iff.mp hreads).1
      rw [ActiveCycle.readsMemory, hread] at hother
      cases hother
    rw [if_neg Bool.false_ne_true, hk.data]
    refine h.floats hmemory (fun _ => ?_) hnow
    rw [hsame] at hread
    have hpattern : b.core.cycle.pattern = .portRead := hread
    rw [Core.staged, hpattern]

/-- An edge that leaves no strobe up leaves the latch alone. -/
theorem idle_rests (h : b.Undisturbed) (hrest : (b.moved level).pins.AtRest) :
    (b.edge level).1.device.bank.idle = b.device.bank.idle := by
  obtain ⟨-, hbank, -⟩ := h.bank_edge level
  rw [hbank, PortLatch.edge_eq, PortLatch.kept, PortLatch.given, (Core.no_port hrest).2]
  rfl

/-- Amid a cycle, the latch takes the byte of a write to a port when its strobe comes up. -/
theorem idle_runs (h : b.Undisturbed) (hk : b.core.Engages k b.inputs)
    (hmoved : b.moved level = k.runHalf.1) (hmore : k.runHalf.2 = false) :
    (b.edge level).1.device.bank.idle =
      (if k.cycle.pattern = .portWrite ∧ k.cycle.half = 2 then
        b.device.bank.take k.address.value k.latches.outLow
      else b.device.bank).idle := by
  obtain ⟨-, hbank, hdata⟩ := h.bank_edge level
  rw [PortLatch.edge_eq] at hbank hdata
  dsimp only at hbank hdata
  rw [← hdata] at hbank
  rw [hbank, ← PortLatch.kept_runs (l := b.device.bank) hk.underway hmore (fun hlater => ?_)
    (fun hport htwo => ?_), ← hmoved]
  · rfl
  · obtain ⟨-, hphase, -⟩ := hk.amid hlater
    have hstarted : b.core.phase ≠ .powerOn := by
      rw [hphase]
      exact nofun
    have hwriting := h.writing hstarted
    rwa [PortLatch.given, ← (Core.ports_congr hk.strobes).2, ← hk.address] at hwriting
  · have hlater : k.cycle.half ≠ 0 := by omega
    have hhalf := hk.underway.half_runHalf hmore
    have hnext : k.runHalf.1.staged k.runHalf.1.cycle.half = some k.latches.outLow := by
      rw [Core.staged, Core.pattern_runHalf, hport, Core.latches_runHalf (Or.inr hport)]
      exact if_pos (by omega)
    obtain ⟨hvalue, -⟩ := Core.staged_runHalf hk.underway hmore
      (h.settled.staged_engaged hk) hnext
    rw [h.settled.data_edge hk hmoved hmore hlater (Or.inr (Or.inr hport)),
      h.settled.answered_write hk hmoved hmore hlater (Or.inr hport), hmoved]
    exact hvalue

end Undisturbed

end Board

end Z80Board
