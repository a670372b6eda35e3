import Z80Board.Proofs.Rig.Gist

/-! # Stalls do not show

    Waits and bus grants hold the chip up, but nothing that a program can see depends on them.  Two
    runs that start alike pass through the same row of gists, each at its own pace.  Since every
    instruction is counted by exactly one step, they come to the same when they have ended the same
    number of instructions. -/

namespace Z80Board

namespace Machine

/-- The machine with WAIT and BUSREQ driven by the host. -/
def hold (m : Machine) (wait busreq : Level) : Machine :=
  (m.setInput .wait wait).setInput .busreq busreq

/-- One clock edge with WAIT and BUSREQ driven by the host. -/
def stall (m : Machine) (wait busreq : Level) : Machine :=
  (m.hold wait busreq).halfTick.1

/-- What the next edge comes to, up to the end of an instruction. -/
def nextEdge (m : Machine) : Edge :=
  m.core.edge m.clock.level.flip m.board.inputs

/-- The next edge ends the instruction of this number. -/
def Ends (m : Machine) (wait busreq : Level) (number : Nat) : Prop :=
  (m.hold wait busreq).nextEdge.ended = true
    ∧ (m.stall wait busreq).core.instructionCounter = number

theorem board_stall (m : Machine) (wait busreq : Level) :
    (m.stall wait busreq).board = ((m.hold wait busreq).board.edge m.clock.level.flip).1 := by
  rw [stall, halfTick]
  rfl

instance (m : Machine) (wait busreq : Level) (number : Nat) :
    Decidable (m.Ends wait busreq number) :=
  inferInstanceAs (Decidable (_ ∧ _))

/-- Some edges, each with its levels of WAIT and BUSREQ. -/
def stalls (m : Machine) (schedule : List (Level × Level)) : Machine :=
  schedule.foldl (fun m levels => m.stall levels.1 levels.2) m

end Machine

/-- A run of a machine that is built from a configuration, with the given registers and bytes.  The
    host drives WAIT and BUSREQ as it likes, anew for every edge, and does nothing else. -/
inductive StalledRun (config : BoardConfig) (device : Device) (regs : Registers)
    (bytes : Array Byte) : Machine → Prop where
  | start {m : Machine} (built : Machine.build config device = .ok m)
    (size : bytes.size = config.memorySize) :
    StalledRun config device regs bytes
      ((m.modifyRegs fun _ => regs).modifyMemory fun memory => { memory with bytes })
  | edge {m : Machine} (h : StalledRun config device regs bytes m) (wait busreq : Level) :
    StalledRun config device regs bytes (m.stall wait busreq)

/-- The gist from which such runs start. -/
def Gist.initial (device : Device) (regs : Registers) (bytes : Array Byte) : Gist :=
  { core := (({ Core.powerOn (.released 0xFFFF) (.released 0xFF) with regs } : Core).carryOn).logic
    half := 0
    address := 0
    bytes
    latch := device.bank.idle }

namespace Device

variable {level : Level} {pins : Pins} {address : Bus Word} {data : Bus Byte}
  {device device' : Device}

/-- Whether a latch is attached never changes. -/
theorem latch_edge (h : device.Plain) :
    (device.edge level pins address data).1.latch?.isSome = device.latch?.isSome := by
  match device, h with
  | .latch l, _ => rfl
  | .unattached, _ => rfl

/-- Plain devices with the same idle latch have the same registers and the same log. -/
theorem latch_of_bank (h : device.Plain) (h' : device'.Plain)
    (hsome : device.latch?.isSome = device'.latch?.isSome)
    (hbank : device.bank.idle = device'.bank.idle) :
    device.latch?.map (fun l => (l.registers, l.writes))
      = device'.latch?.map fun l => (l.registers, l.writes) := by
  have hregisters : device.bank.registers = device'.bank.registers :=
    show device.bank.idle.registers = device'.bank.idle.registers by rw [hbank]
  have hwrites : device.bank.writes = device'.bank.writes :=
    show device.bank.idle.writes = device'.bank.idle.writes by rw [hbank]
  match device, device', h, h' with
  | .unattached, .unattached, _, _ => rfl
  | .unattached, .latch l, _, _ => exact nomatch hsome
  | .latch l, .unattached, _, _ => exact nomatch hsome
  | .latch l, .latch l', _, _ =>
    show some (l.registers, l.writes) = some (l'.registers, l'.writes)
    rw [show l.registers = l'.registers from hregisters, show l.writes = l'.writes from hwrites]

end Device

namespace StalledRun

variable {config config' : BoardConfig} {device : Device} {regs : Registers} {bytes : Array Byte}
  {m m' : Machine}

/-- A machine that starts shows the initial gist. -/
theorem shows_start (hplain : device.Plain) (built : Machine.build config device = .ok m)
    (size : bytes.size = config.memorySize) :
    ((m.modifyRegs fun _ => regs).modifyMemory fun memory => { memory with bytes }).board.Shows
      config bytes {} (.initial device regs bytes) := by
  have hcarries := ((Run.start built size).regs fun _ => regs).carries
  unfold Machine.build at built
  split at built
  · exact nomatch built
  · obtain rfl := Except.ok.inj built
    exact {
      undisturbed :=
        { settled := hcarries.settled
          free := ⟨nofun, rfl, rfl⟩
          host := ⟨rfl, rfl, rfl⟩
          hooks := ⟨rfl, rfl⟩
          plain := hplain
          driving := fun hphase => absurd rfl hphase
          writing := fun hphase => absurd rfl hphase
          shown := fun hphase => absurd rfl hphase
          floating := rfl
          floats := fun _ _ _ => rfl }
      carries := hcarries
      calm := by
        rw [Core.ready_of_powerOn rfl]
        exact Core.calm_carryOn
      logic := rfl
      half := by
        rw [Core.ready_of_powerOn rfl]
        exact Or.inl (Core.half_carryOn _)
      address := rfl
      memory := rfl
      latch := rfl }

/-- WAIT and BUSREQ are no part of the gist. -/
theorem shows_hold {t : Traffic} {g : Gist} (h : m.board.Shows config bytes t g)
    (wait busreq : Level) : (m.hold wait busreq).board.Shows config bytes t g :=
  h.withHost (m.hold wait busreq).board.host
    ⟨h.undisturbed.host.reset, h.undisturbed.host.nmi, h.undisturbed.host.int⟩

/-- On every run the machine shows one of the gists that follow the initial one. -/
theorem shows (h : StalledRun config device regs bytes m) (hplain : device.Plain) :
    ∃ t n, m.board.Shows config bytes t ((Gist.initial device regs bytes).after config n) := by
  induction h with
  | start built size => exact ⟨{}, 0, shows_start hplain built size⟩
  | @edge m _ wait busreq ih =>
    obtain ⟨t, n, hshows⟩ := ih
    rw [m.board_stall]
    rcases (shows_hold hshows wait busreq).edge m.clock.level.flip with ⟨hsame, -⟩ | ⟨hnext, -⟩
    · exact ⟨_, n, hsame⟩
    · exact ⟨_, n + 1, hnext⟩

/-- What is attached stays a latch, or nothing. -/
theorem attached (h : StalledRun config device regs bytes m) (hplain : device.Plain) :
    m.device.latch?.isSome = device.latch?.isSome := by
  induction h with
  | @start m built size =>
    have hdevice : m.device = device := by
      unfold Machine.build at built
      split at built
      · exact nomatch built
      · obtain rfl := Except.ok.inj built
        rfl
    show m.device.latch?.isSome = _
    rw [hdevice]
  | @edge m h wait busreq ih =>
    obtain ⟨t, n, hshows⟩ := h.shows hplain
    show (m.stall wait busreq).board.device.latch?.isSome = _
    rw [m.board_stall, ((m.hold wait busreq).board.edge_parts _).2.1]
    exact (Device.latch_edge hshows.undisturbed.plain).trans ih

/-- An edge that ends an instruction is a step that ends it. -/
theorem ends (h : StalledRun config device regs bytes m) (hplain : device.Plain)
    {wait busreq : Level} {number : Nat} (hends : m.Ends wait busreq number) :
    ∃ t n, (m.stall wait busreq).board.Shows config bytes t
        ((Gist.initial device regs bytes).after config (n + 1))
      ∧ ((Gist.initial device regs bytes).after config n).ends config = true
      ∧ (m.hold wait busreq).nextEdge.core.instruction
        = ((Gist.initial device regs bytes).after config n).completed config
      ∧ ((Gist.initial device regs bytes).after config (n + 1)).core.instructionCounter = number := by
  obtain ⟨t, n, hshows⟩ := h.shows hplain
  obtain ⟨hended, hcount⟩ := hends
  rw [m.board_stall]
  rcases (shows_hold hshows wait busreq).edge m.clock.level.flip with ⟨-, hgoes⟩ | ⟨hnext, hstep, hcode⟩
  · exact nomatch hgoes.symm.trans hended
  · exact ⟨_, n, hnext, hstep.symm.trans hended, hcode hended,
      hnext.visible.2.2.symm.trans hcount⟩

/-- No wait and no bus grant can be seen by a program.  Take two runs from the same registers, bytes
    and device, a port latch or nothing, on boards that differ in their clocks and waits alone, with
    WAIT and BUSREQ driven in any way.  When each of them has ended its instruction of the same
    number, they have the same registers, halted flag, bytes of memory, registers of the latch and
    log of its writes, and it was the same instruction. -/
theorem unseen (hplain : device.Plain) (hsize : config'.memorySize = config.memorySize)
    (hrom : config'.rom = config.rom) (h : StalledRun config device regs bytes m)
    (h' : StalledRun config' device regs bytes m') {wait busreq wait' busreq' : Level} {number : Nat}
    (hends : m.Ends wait busreq number) (hends' : m'.Ends wait' busreq' number) :
    (m.stall wait busreq).core.regs = (m'.stall wait' busreq').core.regs
      ∧ (m.stall wait busreq).core.halted = (m'.stall wait' busreq').core.halted
      ∧ (m.hold wait busreq).nextEdge.core.instruction
        = (m'.hold wait' busreq').nextEdge.core.instruction
      ∧ (m.stall wait busreq).memory.bytes = (m'.stall wait' busreq').memory.bytes
      ∧ (m.stall wait busreq).device.latch?.map (fun l => (l.registers, l.writes))
        = (m'.stall wait' busreq').device.latch?.map fun l => (l.registers, l.writes) := by
  obtain ⟨t, n, hshows, hstep, hcode, hcount⟩ := h.ends hplain hends
  obtain ⟨t', n', hshows', hstep', hcode', hcount'⟩ := h'.ends hplain hends'
  have hattached := ((h.edge wait busreq).attached hplain).trans
    ((h'.edge wait' busreq').attached hplain).symm
  simp only [Gist.after_congr hsize hrom, Gist.step_congr hsize hrom] at hshows' hstep' hcode' hcount'
  obtain rfl : n = n' := Gist.ends_unique hstep hstep' (hcount.trans hcount'.symm)
  obtain ⟨hregs, hhalted, -⟩ := hshows.visible
  obtain ⟨hregs', hhalted', -⟩ := hshows'.visible
  exact ⟨hregs.trans hregs'.symm, hhalted.trans hhalted'.symm, hcode.trans hcode'.symm,
    hshows.memory.trans hshows'.memory.symm,
    Device.latch_of_bank hshows.undisturbed.plain hshows'.undisturbed.plain hattached
      (hshows.latch.trans hshows'.latch.symm)⟩

/-- A run goes on over any edges. -/
theorem stalls (h : StalledRun config device regs bytes m) (schedule : List (Level × Level)) :
    StalledRun config device regs bytes (m.stalls schedule) := by
  induction schedule generalizing m with
  | nil => exact h
  | cons levels rest ih => exact ih (h.edge levels.1 levels.2)

end StalledRun

/-- A board with a small memory that puts waits into every access. -/
def slowConfig (waitStates : Nat) : BoardConfig :=
  { memorySize := 0x400, waitStates }

/-- A machine with it and a port latch. -/
def slowMachine (waitStates : Nat) : Machine :=
  { clock := .atRest
      { processor := .powerOn (.released 0xFFFF) (.released 0xFF)
        memory :=
          { Memory.ofSize (.truncated Machine.addressBus 10) 0x400 with rom := none, waitStates }
        device := .latch {} } 3500000 }

/-- A program that writes the accumulator to port D3h, over and over. -/
def outBytes : Array Byte :=
  Array.replicate 0x400 0xD3

/-- The machine with this program, after some edges. -/
def outMachine (waitStates : Nat) (schedule : List (Level × Level)) : Machine :=
  (((slowMachine waitStates).modifyRegs fun _ => .afterReset).modifyMemory fun memory =>
    { memory with bytes := outBytes }).stalls schedule

theorem size_outBytes : outBytes.size = 0x400 :=
  Array.size_replicate

/-- The write takes 22 edges, or 32 with a wait in every access, WAIT held for five edges and the
    buses granted for some more.  The latch does not see the difference. -/
theorem unseen_by_latch :
    let fast := outMachine 0 (List.replicate 21 (.high, .high))
    let slow := outMachine 1
      (List.replicate 5 (.low, .high) ++ List.replicate 10 (.high, .low)
        ++ List.replicate 16 (.high, .high))
    fast.Ends .high .high 1 ∧ slow.Ends .high .high 1
      ∧ (fast.stall .high .high).device.latch?.map PortLatch.writes = some [⟨0xFFD3, 0xFF⟩]
      ∧ (fast.stall .high .high).device.latch?.map (fun l => (l.registers, l.writes))
        = (slow.stall .high .high).device.latch?.map fun l => (l.registers, l.writes) := by
  intro fast slow
  have hbuilt : Machine.build (slowConfig 0) (.latch {}) = .ok (slowMachine 0) := rfl
  have hbuilt' : Machine.build (slowConfig 1) (.latch {}) = .ok (slowMachine 1) := rfl
  have hfast : StalledRun (slowConfig 0) (.latch {}) .afterReset outBytes fast :=
    (StalledRun.start hbuilt size_outBytes).stalls _
  have hslow : StalledRun (slowConfig 1) (.latch {}) .afterReset outBytes slow :=
    (StalledRun.start hbuilt' size_outBytes).stalls _
  obtain ⟨hends, hends', hwrites⟩ : fast.Ends .high .high 1 ∧ slow.Ends .high .high 1
      ∧ (fast.stall .high .high).device.latch?.map PortLatch.writes = some [⟨0xFFD3, 0xFF⟩] := by
    decide +kernel
  have hplain : (Device.latch {}).Plain := trivial
  have hsize : (slowConfig 1).memorySize = (slowConfig 0).memorySize := rfl
  have hrom : (slowConfig 1).rom = (slowConfig 0).rom := rfl
  have hunseen := StalledRun.unseen hplain hsize hrom hfast hslow hends hends'
  exact ⟨hends, hends', hwrites, hunseen.2.2.2.2⟩

end Z80Board
