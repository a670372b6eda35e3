import Z80Board.Proofs.Rig.Transmissions

/-! # A block to a port, and a block from one

    Byte after byte the log of the latch grows at its end, or memory is filled.  What the bytes before
    have left does not change what the next one does: an output leaves memory alone, an input leaves the
    registers of the latch alone. -/

namespace Z80Board

/-! ## What is moved -/

namespace BoardConfig

variable {config : BoardConfig} {bytes : Array Byte} {stores : List Store} {address : Word}
  {byte : Byte}

/-- Stores that are ignored, or go elsewhere, leave a byte alone. -/
theorem byteAt_stores_apart (h : ∀ store ∈ stores, config.isRom (config.index store.address) = false →
      config.index store.address ≠ config.index address) :
    config.byteAt (stores.foldl config.apply bytes) address = config.byteAt bytes address := by
  induction stores generalizing bytes with
  | nil => rfl
  | cons store rest ih =>
    rw [List.foldl_cons, ih fun s hs => h s (List.mem_cons_of_mem _ hs)]
    exact byteAt_apply_apart (h store List.mem_cons_self)

/-- A byte that is there stays there while the same byte is stored, wherever it goes. -/
theorem byteAt_stores_same (hvalid : config.validate = .ok ()) (hsize : bytes.size = config.memorySize)
    (hall : ∀ store ∈ stores, store.byte = byte) (hthere : config.byteAt bytes address = byte) :
    config.byteAt (stores.foldl config.apply bytes) address = byte := by
  induction stores generalizing bytes with
  | nil => exact hthere
  | cons store rest ih =>
    refine ih (size_apply.trans hsize) (fun s hs => hall s (List.mem_cons_of_mem _ hs)) ?_
    by_cases hram : config.isRom (config.index store.address) = false
        ∧ config.index store.address = config.index address
    · -- the store reaches the place, with the byte that is there already
      have hstored : config.byteAt (config.apply bytes store) store.address = store.byte :=
        byteAt_apply_self hvalid hsize hram.1
      rw [byteAt, hram.2] at hstored
      rw [← hall store List.mem_cons_self]
      exact hstored
    · rw [byteAt_apply_apart fun hwritable hsame => hram ⟨hwritable, hsame⟩]
      exact hthere

/-- If the same byte is stored at many places, it is at each of them. -/
theorem byteAt_stores_mem (hvalid : config.validate = .ok ()) (hsize : bytes.size = config.memorySize)
    (hall : ∀ store ∈ stores, store.byte = byte) (hmem : ⟨address, byte⟩ ∈ stores)
    (hram : config.isRom (config.index address) = false) :
    config.byteAt (stores.foldl config.apply bytes) address = byte := by
  induction stores generalizing bytes with
  | nil => exact nomatch hmem
  | cons store rest ih =>
    have hrest : ∀ s ∈ rest, s.byte = byte := fun s hs => hall s (List.mem_cons_of_mem _ hs)
    rcases List.mem_cons.mp hmem with hfirst | hlater
    · rw [List.foldl_cons, ← hfirst]
      exact byteAt_stores_same hvalid (size_apply.trans hsize) hrest
        (byteAt_apply_self hvalid hsize hram)
    · exact ih (size_apply.trans hsize) hrest hlater

end BoardConfig

namespace Flow

variable {flow : Flow} {d : Direction} {config : BoardConfig} {before after : Registers}
  {bytes : Array Byte} {given : Byte}

/-- What so many bytes of a block write to ports. -/
def writes (flow : Flow) (d : Direction) (config : BoardConfig) (regs : Registers)
    (bytes : Array Byte) (count : Nat) : List PortWrite :=
  match flow with
  | .outward => (List.range count).map fun i => ⟨Word.ofBytes (regs.b - 1 - i.toUInt8) regs.c,
      config.byteAt bytes (regs.hl + d.stride * i.toUInt16)⟩
  | .inward => []

/-- What they store, if the port gives this byte each time. -/
def stores (flow : Flow) (d : Direction) (given : Byte) (regs : Registers) (count : Nat) :
    List Store :=
  match flow with
  | .outward => []
  | .inward => (List.range count).map fun i => ⟨regs.hl + d.stride * i.toUInt16, given⟩

theorem writes_one (d : Direction) (config : BoardConfig) (regs : Registers) (bytes : Array Byte) :
    outward.writes d config regs bytes 1
      = [⟨Word.ofBytes (regs.b - 1) regs.c, config.byteAt bytes regs.hl⟩] := by
  show [(⟨Word.ofBytes (regs.b - 1 - Nat.toUInt8 0) regs.c,
    config.byteAt bytes (regs.hl + d.stride * Nat.toUInt16 0)⟩ : PortWrite)] = _
  rw [Direction.offset_zero, show regs.b - 1 - Nat.toUInt8 0 = regs.b - 1 from UInt8.sub_zero _]

theorem writes_concat (d : Direction) (config : BoardConfig) (regs : Registers) (bytes : Array Byte)
    (count : Nat) : outward.writes d config regs bytes (count + 1)
      = outward.writes d config regs bytes count
        ++ [⟨Word.ofBytes (regs.b - 1 - count.toUInt8) regs.c,
          config.byteAt bytes (regs.hl + d.stride * count.toUInt16)⟩] := by
  rw [writes, List.range_succ, List.map_append]
  rfl

theorem stores_one (d : Direction) (given : Byte) (regs : Registers) :
    inward.stores d given regs 1 = [⟨regs.hl, given⟩] := by
  show [(⟨regs.hl + d.stride * Nat.toUInt16 0, given⟩ : Store)] = _
  rw [Direction.offset_zero]

theorem writes_succ (h : Registers.Ferries d 1 before after) (count : Nat) :
    flow.writes d config before bytes (count + 1) = flow.writes d config before bytes 1
      ++ flow.writes d config after ((flow.stores d given before 1).foldl config.apply bytes) count := by
  cases flow with
  | inward => rfl
  | outward =>
    have hb (i : Nat) : before.b - 1 - (i + 1).toUInt8 = after.b - 1 - i.toUInt8 := by
      have hsum : (i + 1).toUInt8 = i.toUInt8 + 1 := UInt8.ofNat_add i 1
      rw [h.b, hsum, show Nat.toUInt8 1 = 1 from rfl]
      grind
    have hhl (i : Nat) : before.hl + d.stride * (i + 1).toUInt16
        = after.hl + d.stride * i.toUInt16 := by
      rw [Direction.offset_succ, h.hl, Direction.offset_one]
    rw [writes, writes, writes, h.c, List.range_succ_eq_map, List.map_cons, List.map_map]
    simp only [Function.comp_def, Nat.succ_eq_add_one, hb, hhl]
    rfl

theorem stores_succ (h : Registers.Ferries d 1 before after) (count : Nat) :
    flow.stores d given before (count + 1)
      = flow.stores d given before 1 ++ flow.stores d given after count := by
  cases flow with
  | outward => rfl
  | inward =>
    have hhl (i : Nat) : before.hl + d.stride * (i + 1).toUInt16
        = after.hl + d.stride * i.toUInt16 := by
      rw [Direction.offset_succ, h.hl, Direction.offset_one]
    rw [stores, List.range_succ_eq_map, List.map_cons, List.map_map]
    simp only [Function.comp_def, Nat.succ_eq_add_one, hhl]
    rfl

theorem mem_stores {store : Store} {regs : Registers} {count : Nat}
    (h : store ∈ flow.stores d given regs count) :
    flow = inward ∧ ∃ i < count, store = ⟨regs.hl + d.stride * i.toUInt16, given⟩ := by
  cases flow with
  | outward => exact nomatch h
  | inward =>
    obtain ⟨i, hi, hstore⟩ := List.mem_map.mp h
    exact ⟨rfl, i, List.mem_range.mp hi, hstore.symm⟩

/-- The latch has logged the block, and holds its last byte. -/
theorem logged {l now : PortLatch} {regs : Registers} {count : Nat}
    (hanswers : l.answers regs.c = true)
    (h : now.idle = l.idle.takes (outward.writes d config regs bytes (count + 1))) :
    now.writes = l.writes ++ outward.writes d config regs bytes (count + 1)
      ∧ now.get regs.c = config.byteAt bytes (regs.hl + d.stride * count.toUInt16) := by
  have hcovers : ∀ w ∈ outward.writes d config regs bytes (count + 1), l.idle.covers w = true := by
    intro w hmem
    obtain ⟨i, -, rfl⟩ := List.mem_map.mp hmem
    rw [PortLatch.covers, (Word.halves_ofBytes _ _).2]
    exact hanswers
  have hwrites : now.idle.writes = l.idle.writes ++ outward.writes d config regs bytes (count + 1) := by
    rw [h, PortLatch.writes_takes hcovers]
  refine ⟨hwrites, ?_⟩
  rw [writes_concat] at h hcovers
  have hlast : now.idle.get (Word.low (Word.ofBytes (regs.b - 1 - count.toUInt8) regs.c))
      = config.byteAt bytes (regs.hl + d.stride * count.toUInt16) := by
    rw [h]
    exact PortLatch.get_takes_concat (hcovers _ (List.mem_append_right _ List.mem_cons_self))
  rw [(Word.halves_ofBytes _ _).2] at hlast
  exact hlast

/-- The block is filled, and the rest of memory is as it was. -/
theorem filled (d : Direction) (given : Byte) (regs : Registers) (count : Nat)
    (hvalid : config.validate = .ok ()) (hsize : bytes.size = config.memorySize) :
    let filled := (inward.stores d given regs count).foldl config.apply bytes
    (∀ i < count, config.isRom (config.index (regs.hl + d.stride * i.toUInt16)) = false →
        config.byteAt filled (regs.hl + d.stride * i.toUInt16) = given)
      ∧ ∀ address, (∀ i < count,
          config.isRom (config.index (regs.hl + d.stride * i.toUInt16)) = false →
            config.index (regs.hl + d.stride * i.toUInt16) ≠ config.index address) →
        config.byteAt filled address = config.byteAt bytes address := by
  refine ⟨fun i hi hram => ?_, fun address hapart => ?_⟩
  · refine BoardConfig.byteAt_stores_mem hvalid hsize (fun store hmem => ?_)
      (List.mem_map.mpr ⟨i, List.mem_range.mpr hi, rfl⟩) hram
    obtain ⟨-, i, -, rfl⟩ := mem_stores hmem
    rfl
  · refine BoardConfig.byteAt_stores_apart fun store hmem hram => ?_
    obtain ⟨-, i, hi, rfl⟩ := mem_stores hmem
    exact hapart i hi hram

end Flow

/-- The latch looks at the low byte of the address. -/
theorem PortLatch.reply_low {a b : Word} (l : PortLatch) (h : Word.low a = Word.low b) :
    l.reply a = l.reply b := by
  rw [reply, reply, h]

/-! ## Pass after pass -/

namespace Machine

variable {config : BoardConfig} {m : Machine} {k : Core} {l : PortLatch} {flow : Flow}
  {d : Direction} {given : Byte} {edges count : Nat}

/-- A pass on the machine. -/
theorem ferries_pass (hb : m.board.Orderly config) (htracks : m.board.Tracks l)
    (hopens : m.board.Opens m.clock.level.flip k) (hawake : k.halted = false)
    (hnmi : k.nmiPending = false) (hlead : config.byteAt m.memory.bytes k.regs.pc = 0xED)
    (hopcode : config.byteAt m.memory.bytes (k.regs.pc + 1) = flow.opcode d)
    (hgiven : flow = .inward → l.reply k.regs.bc = given)
    (hedges : edges = if k.regs.b - 1 != 0 then 42 else 32) (hcalm : m.Calm edges) :
    ∃ p, m.Finishes config edges p
        ((flow.stores d given k.regs 1).foldl config.apply m.memory.bytes)
      ∧ p.halted = false ∧ Registers.Ferries d 1 k.regs p.regs
      ∧ ∃ now, (m.after edges).board.Tracks now
        ∧ now.idle = l.idle.takes (flow.writes d config k.regs m.memory.bytes 1) := by
  let w : Surroundings := { config, reply := m.device.reply, answer := [] }
  have hreply (address : Word) : w.reply address = l.reply address := by
    show m.board.device.reply address = _
    rw [Device.reply, htracks.latch]
  have hfetches := hopens.fetches hb
  obtain ⟨asks, p, hexchanges, hports, hhalted, hferries⟩ : ∃ asks p,
      Scene.Exchanges w asks ⟨k, m.memory.bytes, 0⟩ edges
        (flow.writes d config k.regs m.memory.bytes 1) p
        ((flow.stores d given k.regs 1).foldl config.apply m.memory.bytes)
      ∧ (asks = true → flow.writes d config k.regs m.memory.bytes 1 = [])
      ∧ p.halted = false ∧ Registers.Ferries d 1 k.regs p.regs := by
    rw [hedges]
    cases flow with
    | outward =>
      obtain ⟨p, hexchanges, hleft⟩ := Scene.ferries_outward (w := w) (s := ⟨k, m.memory.bytes, 0⟩)
        false hfetches hawake hlead hopcode
      rw [Flow.writes_one]
      exact ⟨false, p, hexchanges, fun hasks => absurd hasks Bool.false_ne_true, hleft⟩
    | inward =>
      obtain ⟨p, hexchanges, hleft⟩ := Scene.ferries_inward (w := w) (s := ⟨k, m.memory.bytes, 0⟩)
        hfetches hawake hlead hopcode
      dsimp only at hexchanges
      rw [hreply, hgiven rfl] at hexchanges
      rw [Flow.stores_one]
      exact ⟨true, p, hexchanges, fun _ => rfl, hleft⟩
  obtain ⟨hfinishes, hlatch⟩ := exchanges (w := w) hopens hb htracks rfl hexchanges hports hnmi hcalm
  exact ⟨p.complete, hfinishes, hhalted, hferries, hlatch⟩

/-- A block is moved pass by pass. -/
theorem ferries (hb : m.board.Orderly config) (htracks : m.board.Tracks l)
    (hopens : m.board.Opens m.clock.level.flip k) (hawake : k.halted = false)
    (hnmi : k.nmiPending = false) (hlead : config.byteAt m.memory.bytes k.regs.pc = 0xED)
    (hopcode : config.byteAt m.memory.bytes (k.regs.pc + 1) = flow.opcode d)
    (hgiven : flow = .inward → l.reply k.regs.bc = given) (hcount : k.regs.rounds = count + 1)
    (hapart : ∀ store ∈ flow.stores d given k.regs (count + 1),
      config.isRom (config.index store.address) = false →
        config.index store.address ≠ config.index k.regs.pc
          ∧ config.index store.address ≠ config.index (k.regs.pc + 1))
    (hcalm : m.Calm (passEdges 42 32 (count + 1))) :
    m.Repeats 42 32 k.regs.pc (count + 1)
      ∧ Registers.Ferries d (count + 1) k.regs (m.after (passEdges 42 32 (count + 1))).core.regs
      ∧ (m.after (passEdges 42 32 (count + 1))).memory.bytes
        = (flow.stores d given k.regs (count + 1)).foldl config.apply m.memory.bytes
      ∧ ∃ now, (m.after (passEdges 42 32 (count + 1))).board.Tracks now
        ∧ now.idle = l.idle.takes (flow.writes d config k.regs m.memory.bytes (count + 1)) := by
  -- the machine behind a pass stands before the same instruction again, with one byte less to move
  induction count generalizing m k l with
  | zero =>
    have htotal : passEdges 42 32 (0 + 1) = 32 := rfl
    rw [htotal] at hcalm ⊢
    have hlast : (k.regs.b - 1 != 0) = false :=
      bne_eq_false_iff_eq.mpr (Registers.rounds_one.mp hcount)
    obtain ⟨p, hdone, -, hferries, hlatch⟩ := ferries_pass hb htracks hopens hawake hnmi hlead
      hopcode hgiven (by rw [hlast]; rfl) hcalm
    refine ⟨hdone.repeats (by decide) (by decide) _, ?_, hdone.bytes, hlatch⟩
    rw [hdone.regs]
    exact hferries
  | succ count ih =>
    have hmore : k.regs.b - 1 ≠ 0 := fun hlast => by
      have hone := Registers.rounds_one.mpr hlast
      omega
    rw [passEdges_succ] at hcalm ⊢
    obtain ⟨p, hdone, hhalted, hferries, now, hnow, hlatch⟩ := ferries_pass hb htracks hopens hawake
      hnmi hlead hopcode hgiven (by rw [bne_iff_ne.mpr hmore]; rfl)
      fun i hi => hcalm i (Nat.lt_add_right _ hi)
    obtain ⟨k', hopens', hregs, hawake', hnmi', hcalm'⟩ := hdone.opens_again hhalted hcalm
      (by rw [passEdges]; omega)
    have hb' : p.regs.b = k.regs.b - 1 := hferries.b
    have hpc : p.regs.pc = k.regs.pc := by
      rw [hferries.pc, if_neg (by rw [hb']; exact hmore)]
    have hstores : flow.stores d given k.regs (count + 1 + 1)
        = flow.stores d given k.regs 1 ++ flow.stores d given p.regs (count + 1) :=
      Flow.stores_succ hferries (count + 1)
    rw [hstores] at hapart ⊢
    have hfirst (store : Store) (hmem : store ∈ flow.stores d given k.regs 1) :=
      hapart store (List.mem_append_left _ hmem)
    have hih := ih (orderly_after hb 42) hnow hopens' hawake' hnmi'
      (by rw [hdone.bytes, hregs, hpc,
            BoardConfig.byteAt_stores_apart fun store hmem hram => (hfirst store hmem hram).1]
          exact hlead)
      (by rw [hdone.bytes, hregs, hpc,
            BoardConfig.byteAt_stores_apart fun store hmem hram => (hfirst store hmem hram).2]
          exact hopcode)
      (fun hinward => by
        subst hinward
        -- an input has written nothing, so the port gives the same byte again
        have hport : Word.low k'.regs.bc = Word.low k.regs.bc := by
          rw [hregs]
          exact (Word.halves_ofBytes _ _).2.trans (hferries.c.trans (Word.halves_ofBytes _ _).2.symm)
        have hsame : now.reply k'.regs.bc = l.reply k'.regs.bc := by
          show now.idle.reply _ = _
          rw [hlatch]
          rfl
        rw [hsame, l.reply_low hport, hgiven rfl])
      (Registers.rounds_step hcount (by rw [hregs, hb']))
      (fun store hmem => by
        rw [hregs] at hmem ⊢
        rw [hpc]
        exact hapart store (List.mem_append_right _ hmem)) hcalm'
    rw [hregs, hdone.bytes] at hih
    obtain ⟨hrepeats, hlater, hbytes, hlast⟩ := hih
    rw [hpc] at hrepeats
    rw [after_add]
    refine ⟨hdone.repeats_again (by decide) hpc hrepeats, ?_, ?_, ?_⟩
    · rw [show count + 1 + 1 = 1 + (count + 1) by omega]
      exact hferries.trans (by rw [hb']; exact hmore) hlater
    · rw [hbytes, List.foldl_append]
    · rw [hlatch, ← PortLatch.takes_append, ← Flow.writes_succ hferries] at hlast
      exact hlast

end Machine

variable {config : BoardConfig} {m : Machine} {k : Core} {l : PortLatch}

/-- OTIR and OTDR write a block to a port of the latch, and INIR and INDR fill one from there.  If the
    interrupts, the waits and the requests for the buses stay away, and no store reaches the
    instruction, it is completed as often as B counts, and PC is behind it only with the last time.
    The upper half of the port of an output is B as it has been counted down. -/
theorem Equipped.ferries_block (h : Equipped config m.board) (flow : Flow) (d : Direction)
    (hlatch : m.board.device.latch? = some l) (hanswers : l.answers k.regs.c = true)
    (hopens : m.board.Opens m.clock.level.flip k) (hnmi : k.nmiPending = false)
    (hlead : config.byteAt m.memory.bytes k.regs.pc = 0xED)
    (hopcode : config.byteAt m.memory.bytes (k.regs.pc + 1) = flow.opcode d)
    (hapart : flow = .inward → ∀ i < k.regs.rounds,
      config.isRom (config.index (k.regs.hl + d.stride * i.toUInt16)) = false →
        config.index (k.regs.hl + d.stride * i.toUInt16) ≠ config.index k.regs.pc
          ∧ config.index (k.regs.hl + d.stride * i.toUInt16) ≠ config.index (k.regs.pc + 1))
    (hcalm : m.Calm (2 * (21 * (k.regs.rounds - 1) + 16))) :
    let rounds := k.regs.rounds
    let edges := 2 * (21 * (rounds - 1) + 16)
    let after := (m.after edges).core.regs
    let bytes := (m.after edges).memory.bytes
    let place (i : Nat) := k.regs.hl + d.stride * i.toUInt16
    (∀ sofar ≤ edges, (m.after sofar).core.instructionCounter
        = m.core.instructionCounter + if sofar = edges then rounds else sofar / 42)
      ∧ (∀ before, 0 < before → before < rounds →
        (m.after (42 * before)).core.regs.pc = k.regs.pc)
      ∧ (m.after edges).core.halfTStates = m.core.halfTStates + edges
      ∧ after.b = 0 ∧ after.c = k.regs.c ∧ after.hl = place rounds
      ∧ Flag.test after.f Flag.zero = true ∧ after.pc = k.regs.pc + 2
      ∧ ∃ now, (m.after edges).board.device.latch? = some now
        ∧ (flow = .outward →
          now.writes = l.writes ++ (List.range rounds).map (fun i =>
              ⟨Word.ofBytes (k.regs.b - 1 - i.toUInt8) k.regs.c,
                config.byteAt m.memory.bytes (place i)⟩)
            ∧ now.get k.regs.c = config.byteAt m.memory.bytes (place (rounds - 1))
            ∧ bytes = m.memory.bytes)
        ∧ (flow = .inward →
          now.writes = l.writes ∧ now.registers = l.registers
            ∧ (∀ i < rounds, config.isRom (config.index (place i)) = false →
              config.byteAt bytes (place i) = l.get k.regs.c)
            ∧ ∀ address, (∀ i < rounds, config.isRom (config.index (place i)) = false →
                config.index (place i) ≠ config.index address) →
              config.byteAt bytes address = config.byteAt m.memory.bytes address) := by
  obtain ⟨count, hcount⟩ : ∃ count, k.regs.rounds = count + 1 :=
    Nat.exists_eq_succ_of_ne_zero (Nat.ne_of_gt k.regs.rounds_pos)
  have htotal : 2 * (21 * (k.regs.rounds - 1) + 16) = Machine.passEdges 42 32 k.regs.rounds := by
    rw [Machine.passEdges]
    omega
  -- the board has one latch, so the one that follows the chip is the one that is given
  obtain ⟨l', htracks⟩ := h.tracks
  obtain rfl : l' = l := Option.some.inj (htracks.latch.symm.trans hlatch)
  have hgiven : l'.reply k.regs.bc = l'.get k.regs.c := by
    rw [PortLatch.reply, Registers.bc, (Word.halves_ofBytes _ _).2, if_pos hanswers]
  rw [htotal, hcount] at hcalm
  intro rounds edges after bytes place
  have hedges : edges = Machine.passEdges 42 32 (count + 1) :=
    htotal.trans (congrArg (Machine.passEdges 42 32) hcount)
  obtain ⟨⟨hcompleted, hstays⟩, hferries, hbytes, now, hnow, hleft⟩ := Machine.ferries h.orderly
    htracks hopens (hopens.awake h.awake) hnmi hlead hopcode (fun _ => hgiven) hcount
    (fun store hmem hram => by
      obtain ⟨hinward, i, hi, rfl⟩ := Flow.mem_stores hmem
      exact hapart hinward i (hcount ▸ hi) hram) hcalm
  rw [← hedges, ← hcount] at hcompleted
  rw [← hedges] at hferries hbytes hnow
  have hb : after.b = 0 := by
    rw [hferries.b, ← hcount, k.regs.toUInt8_rounds, UInt8.sub_self]
  have hpc : after.pc = k.regs.pc + 2 := by
    rw [hferries.pc, if_pos hb]
  refine ⟨hcompleted, ?_, m.halfTStates_after edges, hb, hferries.c, ?_, ?_, hpc, now, hnow.latch, ?_, ?_⟩
  · rw [← hcount] at hstays
    exact hstays
  · rw [hferries.hl, ← hcount]
  · rw [hferries.zero, hb]
    rfl
  · rintro rfl
    obtain ⟨hwrites, hlast⟩ := Flow.logged hanswers hleft
    rw [← hcount] at hwrites
    exact ⟨hwrites, hlast.trans (by rw [show rounds - 1 = count by omega]), hbytes⟩
  · rintro rfl
    rw [← hcount] at hbytes
    have hsize : m.memory.bytes.size = config.memorySize := h.orderly.fits.size
    have hfilled := Flow.filled d (l'.get k.regs.c) k.regs k.regs.rounds h.orderly.fits.valid hsize
    rw [← hbytes] at hfilled
    have hsame : now.idle = l'.idle := hleft
    have hkept : now.idle.writes = l'.idle.writes ∧ now.idle.registers = l'.idle.registers := by
      rw [hsame]
      exact ⟨rfl, rfl⟩
    exact ⟨hkept.1, hkept.2, hfilled⟩

/-- A machine with a latch, whose first instruction moves two bytes between memory and port 7. -/
def ferryMachine (flow : Flow) (d : Direction) : Machine :=
  latchMachine.onBoard ((latchMachine.board.set {} {}
    (fun regs => { regs.setHl 0x10 with b := 2, c := 7, pc := 0 })
    (([0xED, flow.opcode d] : List Byte) ++ List.replicate 14 0 ++ [0x55, 0xAA]
      ++ List.replicate 0x3EE 0).toArray).modifyLatch
    fun l => { l with registers := Vector.replicate 256 0x42, writes := [] })

/-- The chip that runs its first half-period. -/
def ferryChip (flow : Flow) (d : Direction) : Core :=
  { (ferryMachine flow d).core.sampleInputs (ferryMachine flow d).board.inputs with
    phase := .running }.resolveNext

/-- Two bytes go out, and two bytes come in below the first one. -/
theorem two_bytes_each_way :
    (∃ now, ((ferryMachine .outward .up).after 74).board.device.latch? = some now
        ∧ now.writes = [⟨0x0107, 0x55⟩, ⟨0x0007, 0xAA⟩] ∧ now.get 7 = 0xAA)
      ∧ smallConfig.byteAt ((ferryMachine .inward .down).after 74).memory.bytes 0x0F = 0x42
      ∧ smallConfig.byteAt ((ferryMachine .inward .down).after 74).memory.bytes 0x10 = 0x42 := by
  have hbuilt : Machine.build smallConfig (.latch { last := 0x7F }) = .ok latchMachine := rfl
  have hstart : Equipped smallConfig latchMachine.board :=
    .start (.latch _) rfl hbuilt (by decide +kernel)
  have hequipped (flow : Flow) (d : Direction) : Equipped smallConfig (ferryMachine flow d).board :=
    (hstart.set {} {} _ _ (by cases flow <;> cases d <;> decide +kernel)).load _ _
  have hopens (flow : Flow) (d : Direction) : (ferryMachine flow d).board.Opens
      (ferryMachine flow d).clock.level.flip (ferryChip flow d) := by
    refine ⟨rfl, ?_, ?_, ?_, ?_⟩ <;> cases flow <;> cases d <;> decide +kernel
  have hstill (flow : Flow) (d : Direction) : (ferryMachine flow d).Still := ⟨rfl, rfl, rfl, rfl⟩
  have hchip (flow : Flow) (d : Direction) : (ferryChip flow d).nmiPending = false
      ∧ (ferryChip flow d).regs.rounds = 2 ∧ (ferryChip flow d).regs.b = 2
      ∧ (ferryChip flow d).regs.c = 7 ∧ (ferryChip flow d).regs.hl = 0x10
      ∧ (ferryChip flow d).regs.pc = 0 := by
    cases flow <;> cases d <;> decide +kernel
  have htotal : 2 * (21 * (2 - 1) + 16) = 74 := rfl
  constructor
  · obtain ⟨hnmi, hrounds, hb, hc, hhl, hpc⟩ := hchip .outward .up
    have hferries := (hequipped .outward .up).ferries_block .outward .up rfl
      (by rw [hc]; decide +kernel) (hopens _ _) hnmi (by rw [hpc]; decide +kernel)
      (by rw [hpc]; decide +kernel) nofun ((hstill _ _).calm _)
    dsimp only at hferries
    rw [hrounds, htotal, hb, hc, hhl] at hferries
    obtain ⟨-, -, -, -, -, -, -, -, now, hnow, hout, -⟩ := hferries
    obtain ⟨hwrites, hlast, -⟩ := hout rfl
    exact ⟨now, hnow, hwrites.trans (by decide +kernel), hlast.trans (by decide +kernel)⟩
  · obtain ⟨hnmi, hrounds, -, hc, hhl, hpc⟩ := hchip .inward .down
    have hferries := (hequipped .inward .down).ferries_block .inward .down rfl
      (by rw [hc]; decide +kernel) (hopens _ _) hnmi (by rw [hpc]; decide +kernel)
      (by rw [hpc]; decide +kernel)
      (fun _ => by rw [hrounds, hhl, hpc]; decide +kernel) ((hstill _ _).calm _)
    dsimp only at hferries
    rw [hrounds, htotal, hc, hhl] at hferries
    obtain ⟨-, -, -, -, -, -, -, -, now, -, -, hin⟩ := hferries
    obtain ⟨-, -, hfilled, -⟩ := hin rfl
    exact ⟨hfilled 1 (by decide) (by decide +kernel), hfilled 0 (by decide) (by decide +kernel)⟩

end Z80Board
