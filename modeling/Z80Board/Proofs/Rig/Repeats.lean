import Z80Board.Proofs.Rig.Sweeps

/-! # Copying and searching

    LDIR and LDDR store the bytes of a block one after the other, each read from memory as the ones
    before have left it.  CPIR and CPDR compare them with A until one matches.  Both are over at the
    latest with the pass that leaves BC at zero. -/

namespace Z80Board

/-! ## Pass after pass -/

/-- How many passes BC counts: zero stands for all of memory. -/
def Registers.passes (regs : Registers) : Nat :=
  if regs.bc = 0 then 0x10000 else regs.bc.toNat

theorem Registers.passes_one {regs : Registers} : regs.passes = 1 ↔ regs.bc - 1 = 0 := by
  rw [passes]
  constructor
  · intro hone
    split at hone
    · cases hone
    · have hbc : regs.bc = 1 := UInt16.toNat_inj.mp hone
      rw [hbc]
      rfl
  · intro hlast
    have hbc : regs.bc = 1 := by grind
    rw [hbc]
    rfl

/-- A pass that is not the last one leaves one less to do. -/
theorem Registers.passes_step {before after : Registers} {count : Nat}
    (h : before.passes = count + 2) (hbc : after.bc = before.bc - 1) : after.passes = count + 1 := by
  have hmore : before.bc - 1 ≠ 0 := fun hlast => by
    have hone := passes_one.mpr hlast
    omega
  rw [passes, hbc, if_neg hmore, UInt16.toNat_sub]
  rw [passes] at h
  split at h
  · next hzero =>
    rw [hzero, show UInt16.toNat 0 = 0 from rfl, show UInt16.toNat 1 = 1 from rfl]
    omega
  · have hsmall := before.bc.toNat_lt
    rw [h, show UInt16.toNat 1 = 1 from rfl]
    omega

/-- How many rounds B counts: zero stands for 256. -/
def Registers.rounds (regs : Registers) : Nat :=
  if regs.b = 0 then 0x100 else regs.b.toNat

theorem Registers.rounds_one {regs : Registers} : regs.rounds = 1 ↔ regs.b - 1 = 0 := by
  rw [rounds]
  constructor
  · intro hone
    split at hone
    · cases hone
    · have hb : regs.b = 1 := UInt8.toNat_inj.mp hone
      rw [hb]
      rfl
  · intro hlast
    have hb : regs.b = 1 := by grind
    rw [hb]
    rfl

/-- A round that is not the last one leaves one less to do. -/
theorem Registers.rounds_step {before after : Registers} {count : Nat}
    (h : before.rounds = count + 2) (hb : after.b = before.b - 1) : after.rounds = count + 1 := by
  have hmore : before.b - 1 ≠ 0 := fun hlast => by
    have hone := rounds_one.mpr hlast
    omega
  rw [rounds, hb, if_neg hmore, UInt8.toNat_sub]
  rw [rounds] at h
  split at h
  · next hzero =>
    rw [hzero, show UInt8.toNat 0 = 0 from rfl, show UInt8.toNat 1 = 1 from rfl]
    omega
  · have hsmall := before.b.toNat_lt
    rw [h, show UInt8.toNat 1 = 1 from rfl]
    omega

theorem Registers.rounds_pos (regs : Registers) : 0 < regs.rounds := by
  rw [rounds]
  split
  · decide
  · next hsome => exact Nat.pos_of_ne_zero fun hzero => hsome (UInt8.toNat_inj.mp hzero)

namespace BoardConfig

/-- A store that is ignored, or goes elsewhere, leaves a byte alone. -/
theorem byteAt_apply_apart {config : BoardConfig} {bytes : Array Byte} {store : Store} {address : Word}
    (h : config.isRom (config.index store.address) = false →
      config.index store.address ≠ config.index address) :
    config.byteAt (config.apply bytes store) address = config.byteAt bytes address := by
  cases hrom : config.isRom (config.index store.address) with
  | true => rw [apply, if_pos hrom]
  | false => exact byteAt_apply_of_ne (h hrom)

/-- Memory when so many bytes of a block have been copied one after the other. -/
def copied (config : BoardConfig) (d : Direction) (source target : Word) (bytes : Array Byte)
    (count : Nat) : Array Byte :=
  (List.range count).foldl (fun now i => config.apply now ⟨target + d.stride * i.toUInt16,
    config.byteAt now (source + d.stride * i.toUInt16)⟩) bytes

theorem copied_succ (config : BoardConfig) (d : Direction) (source target : Word)
    (bytes : Array Byte) (count : Nat) :
    config.copied d source target bytes (count + 1)
      = config.copied d (source + d.stride) (target + d.stride)
          (config.apply bytes ⟨target, config.byteAt bytes source⟩) count := by
  rw [copied, List.range_succ_eq_map, List.foldl_cons, List.foldl_map, Direction.offset_zero,
    Direction.offset_zero]
  simp only [Nat.succ_eq_add_one, Direction.offset_succ]
  rfl

/-- The first of so many bytes of a block that is the one that is sought. -/
def searched (config : BoardConfig) (d : Direction) (source : Word) (sought : Byte)
    (bytes : Array Byte) (count : Nat) : Option Nat :=
  (List.range count).find? fun i => sought == config.byteAt bytes (source + d.stride * i.toUInt16)

theorem searched_succ (config : BoardConfig) (d : Direction) (source : Word) (sought : Byte)
    (bytes : Array Byte) (count : Nat) :
    config.searched d source sought bytes (count + 1)
      = if sought == config.byteAt bytes source then some 0
        else (config.searched d (source + d.stride) sought bytes count).map (· + 1) := by
  rw [searched, List.range_succ_eq_map, List.find?_cons, Direction.offset_zero, List.find?_map]
  split
  · next hfound => rw [if_pos hfound]
  · next hother =>
    rw [if_neg (Bool.eq_false_iff.mp hother)]
    simp only [Function.comp_def, Nat.succ_eq_add_one, Direction.offset_succ]
    rfl

end BoardConfig

namespace Machine

variable {config : BoardConfig} {m : Machine} {edges more : Nat} {k p : Core} {bytes : Array Byte}

/-- Behind an instruction that has not halted the chip, the next one from memory begins. -/
theorem Finishes.opens_again (h : m.Finishes config edges p bytes) (hawake : p.halted = false)
    (hcalm : m.Calm (edges + more)) (hsome : 0 < more) :
    ∃ k, (m.after edges).board.Opens (m.after edges).clock.level.flip k ∧ k.regs = p.regs
      ∧ k.halted = false ∧ k.nmiPending = false ∧ (m.after edges).Calm more := by
  have hlater : (m.after edges).Calm more := hcalm.add
  have hnow : (m.after edges).board.inputs = {} := hlater 0 hsome
  obtain ⟨k, hopens, hlogic, hnmi⟩ := h.between.opens hawake (by rw [Board.Clear, hnow])
    (Or.inl (by rw [hnow])) (m.after edges).clock.level.flip
  obtain ⟨hregs, hhalted, -⟩ := p.carryOn_visible
  have hvisible : k.logic.regs = p.carryOn.logic.regs ∧ k.logic.halted = p.carryOn.logic.halted := by
    rw [hlogic]
    exact ⟨rfl, rfl⟩
  exact ⟨k, hopens, hvisible.1.trans hregs, hvisible.2.trans (hhalted.trans hawake), hnmi, hlater⟩

theorem Finishes.regs (h : m.Finishes config edges p bytes) : (m.after edges).core.regs = p.regs :=
  h.between.visible.1

/-- A pass of a copy on the machine. -/
theorem copies_pass {d : Direction} (hb : m.board.Orderly config)
    (hopens : m.board.Opens m.clock.level.flip k) (hawake : k.halted = false)
    (hnmi : k.nmiPending = false) (hlead : config.byteAt m.memory.bytes k.regs.pc = 0xED)
    (hopcode : config.byteAt m.memory.bytes (k.regs.pc + 1) = d.copies)
    (hedges : edges = if k.regs.bc - 1 != 0 then 42 else 32) (hcalm : m.Calm edges) :
    ∃ p, m.Finishes config edges p
        (config.apply m.memory.bytes ⟨k.regs.de, config.byteAt m.memory.bytes k.regs.hl⟩)
      ∧ p.halted = false ∧ Registers.Copies d 1 k.regs p.regs := by
  let w : Surroundings := { config, reply := fun _ => 0, answer := [] }
  obtain ⟨p, hfinishes, hhalted, hcopies⟩ := Scene.copies (w := w) (s := ⟨k, m.memory.bytes, 0⟩)
    (hopens.fetches hb) hawake hlead hopcode
  have hsame : (if (⟨k, m.memory.bytes, 0⟩ : Scene).core.regs.bc - 1 != 0 then 42 else 32) = edges :=
    hedges.symm
  rw [hsame] at hfinishes
  exact ⟨p.complete, finishes_scene (w := w) hopens hb hfinishes hnmi hcalm, hhalted, hcopies⟩

/-- A block is copied pass by pass. -/
theorem copies {d : Direction} {count : Nat} (hb : m.board.Orderly config)
    (hopens : m.board.Opens m.clock.level.flip k) (hawake : k.halted = false)
    (hnmi : k.nmiPending = false) (hlead : config.byteAt m.memory.bytes k.regs.pc = 0xED)
    (hopcode : config.byteAt m.memory.bytes (k.regs.pc + 1) = d.copies)
    (hcount : k.regs.passes = count + 1)
    (hapart : ∀ i < count + 1,
      config.isRom (config.index (k.regs.de + d.stride * i.toUInt16)) = false →
        config.index (k.regs.de + d.stride * i.toUInt16) ≠ config.index k.regs.pc
          ∧ config.index (k.regs.de + d.stride * i.toUInt16) ≠ config.index (k.regs.pc + 1))
    (hcalm : m.Calm (passEdges 42 32 (count + 1))) :
    m.Repeats 42 32 k.regs.pc (count + 1)
      ∧ Registers.Copies d (count + 1) k.regs (m.after (passEdges 42 32 (count + 1))).core.regs
      ∧ (m.after (passEdges 42 32 (count + 1))).memory.bytes
        = config.copied d k.regs.hl k.regs.de m.memory.bytes (count + 1) := by
  -- the machine behind a pass stands before the same instruction again, with one byte less to copy
  induction count generalizing m k with
  | zero =>
    have htotal : passEdges 42 32 (0 + 1) = 32 := rfl
    rw [htotal] at hcalm ⊢
    have hlast : (k.regs.bc - 1 != 0) = false :=
      bne_eq_false_iff_eq.mpr (Registers.passes_one.mp hcount)
    obtain ⟨p, hdone, -, hcopies⟩ := copies_pass hb hopens hawake hnmi hlead hopcode
      (by rw [hlast]; rfl) hcalm
    refine ⟨hdone.repeats (by decide) (by decide) _, ?_, ?_⟩
    · rw [hdone.regs]
      exact hcopies
    · rw [hdone.bytes, BoardConfig.copied_succ]
      rfl
  | succ count ih =>
    have hmore : k.regs.bc - 1 ≠ 0 := fun hlast => by
      have hone := Registers.passes_one.mpr hlast
      omega
    rw [passEdges_succ] at hcalm ⊢
    obtain ⟨p, hdone, hhalted, hcopies⟩ := copies_pass hb hopens hawake hnmi hlead hopcode
      (by rw [bne_iff_ne.mpr hmore]; rfl) fun i hi => hcalm i (Nat.lt_add_right _ hi)
    obtain ⟨k', hopens', hregs, hawake', hnmi', hcalm'⟩ := hdone.opens_again hhalted hcalm
      (by rw [passEdges]; omega)
    have hbc : p.regs.bc = k.regs.bc - 1 := hcopies.bc
    have hpc : p.regs.pc = k.regs.pc := by
      rw [hcopies.pc, if_neg (by rw [hbc]; exact hmore)]
    have hhl : p.regs.hl = k.regs.hl + d.stride := by rw [hcopies.hl, Direction.offset_one]
    have hde : p.regs.de = k.regs.de + d.stride := by rw [hcopies.de, Direction.offset_one]
    have hfirst := hapart 0 (by omega)
    rw [Direction.offset_zero] at hfirst
    have hih := ih (orderly_after hb 42) hopens' hawake' hnmi'
      (by rw [hdone.bytes, hregs, hpc, BoardConfig.byteAt_apply_apart fun hram => (hfirst hram).1]
          exact hlead)
      (by rw [hdone.bytes, hregs, hpc, BoardConfig.byteAt_apply_apart fun hram => (hfirst hram).2]
          exact hopcode)
      (Registers.passes_step hcount (by rw [hregs, hbc]))
      (fun i hi => by
        have hthere := hapart (i + 1) (by omega)
        rw [Direction.offset_succ, ← hde, ← hpc, ← hregs] at hthere
        exact hthere) hcalm'
    rw [hregs] at hih
    obtain ⟨hrepeats, hlater, hbytes⟩ := hih
    rw [hpc] at hrepeats
    rw [after_add]
    refine ⟨hdone.repeats_again (by decide) hpc hrepeats, ?_, ?_⟩
    · rw [show count + 1 + 1 = 1 + (count + 1) by omega]
      exact hcopies.trans (by rw [hbc]; exact hmore) hlater
    · rw [hbytes, hdone.bytes, hhl, hde, ← BoardConfig.copied_succ]

/-- A pass of a search on the machine. -/
theorem searches_pass {d : Direction} (hb : m.board.Orderly config)
    (hopens : m.board.Opens m.clock.level.flip k) (hawake : k.halted = false)
    (hnmi : k.nmiPending = false) (hlead : config.byteAt m.memory.bytes k.regs.pc = 0xED)
    (hopcode : config.byteAt m.memory.bytes (k.regs.pc + 1) = d.searches)
    (hedges : edges = if k.regs.goesOn (config.byteAt m.memory.bytes k.regs.hl) then 42 else 32)
    (hcalm : m.Calm edges) :
    ∃ p, m.Finishes config edges p m.memory.bytes ∧ p.halted = false
      ∧ Registers.Searches d 1 (k.regs.a == config.byteAt m.memory.bytes k.regs.hl) k.regs p.regs := by
  let w : Surroundings := { config, reply := fun _ => 0, answer := [] }
  obtain ⟨p, hfinishes, hhalted, hsearches⟩ := Scene.searches (w := w)
    (s := ⟨k, m.memory.bytes, 0⟩) (hopens.fetches hb) hawake hlead hopcode
  have hsame : (if (⟨k, m.memory.bytes, 0⟩ : Scene).core.regs.goesOn
      (w.config.byteAt m.memory.bytes k.regs.hl) then 42 else 32) = edges := hedges.symm
  rw [hsame] at hfinishes
  exact ⟨p.complete, finishes_scene (w := w) hopens hb hfinishes hnmi hcalm, hhalted, hsearches⟩

/-- The last pass of a search, whether it finds the byte or not. -/
theorem searches_last {d : Direction} {found : Bool} (hb : m.board.Orderly config)
    (hopens : m.board.Opens m.clock.level.flip k) (hawake : k.halted = false)
    (hnmi : k.nmiPending = false) (hlead : config.byteAt m.memory.bytes k.regs.pc = 0xED)
    (hopcode : config.byteAt m.memory.bytes (k.regs.pc + 1) = d.searches)
    (hfound : (k.regs.a == config.byteAt m.memory.bytes k.regs.hl) = found)
    (hover : k.regs.goesOn (config.byteAt m.memory.bytes k.regs.hl) = false)
    (hcalm : m.Calm (passEdges 42 32 1)) :
    m.Repeats 42 32 k.regs.pc 1
      ∧ Registers.Searches d 1 found k.regs (m.after (passEdges 42 32 1)).core.regs
      ∧ (m.after (passEdges 42 32 1)).memory.bytes = m.memory.bytes := by
  have htotal : passEdges 42 32 1 = 32 := rfl
  rw [htotal] at hcalm ⊢
  obtain ⟨p, hdone, -, hsearches⟩ := searches_pass hb hopens hawake hnmi hlead hopcode
    (by rw [hover]; rfl) hcalm
  rw [hfound] at hsearches
  refine ⟨hdone.repeats (by decide) (by decide) _, ?_, hdone.bytes⟩
  rw [hdone.regs]
  exact hsearches

/-- A block is searched pass by pass, until the byte is found or there is no more. -/
theorem searches {d : Direction} {count : Nat} {found : Option Nat} (hb : m.board.Orderly config)
    (hopens : m.board.Opens m.clock.level.flip k) (hawake : k.halted = false)
    (hnmi : k.nmiPending = false) (hlead : config.byteAt m.memory.bytes k.regs.pc = 0xED)
    (hopcode : config.byteAt m.memory.bytes (k.regs.pc + 1) = d.searches)
    (hcount : k.regs.passes = count + 1)
    (hfound : config.searched d k.regs.hl k.regs.a m.memory.bytes (count + 1) = found)
    (hcalm : m.Calm (passEdges 42 32 (found.elim (count + 1) (· + 1)))) :
    m.Repeats 42 32 k.regs.pc (found.elim (count + 1) (· + 1))
      ∧ Registers.Searches d (found.elim (count + 1) (· + 1)) found.isSome k.regs
        (m.after (passEdges 42 32 (found.elim (count + 1) (· + 1)))).core.regs
      ∧ (m.after (passEdges 42 32 (found.elim (count + 1) (· + 1)))).memory.bytes = m.memory.bytes := by
  -- pass by pass, as for a copy, but a pass that finds the byte is the last one in any case
  induction count generalizing m k found with
  | zero =>
    have hlast : k.regs.bc - 1 = 0 := Registers.passes_one.mp hcount
    have hover : k.regs.goesOn (config.byteAt m.memory.bytes k.regs.hl) = false := by
      rw [Registers.goesOn, hlast]
      rfl
    have hone : found.elim (0 + 1) (· + 1) = 1
        ∧ (k.regs.a == config.byteAt m.memory.bytes k.regs.hl) = found.isSome := by
      rw [BoardConfig.searched_succ] at hfound
      subst hfound
      cases k.regs.a == config.byteAt m.memory.bytes k.regs.hl <;> exact ⟨rfl, rfl⟩
    rw [hone.1] at hcalm ⊢
    exact searches_last hb hopens hawake hnmi hlead hopcode hone.2 hover hcalm
  | succ count ih =>
    rw [BoardConfig.searched_succ] at hfound
    cases hmatch : k.regs.a == config.byteAt m.memory.bytes k.regs.hl with
    | true =>
      rw [hmatch, if_pos rfl] at hfound
      subst hfound
      have hover : k.regs.goesOn (config.byteAt m.memory.bytes k.regs.hl) = false := by
        rw [Registers.goesOn, bne, bne, hmatch, Bool.not_true, Bool.and_false]
      exact searches_last hb hopens hawake hnmi hlead hopcode hmatch hover hcalm
    | false =>
      rw [hmatch, if_neg Bool.false_ne_true] at hfound
      have hmore : k.regs.bc - 1 ≠ 0 := fun hlast => by
        have hone := Registers.passes_one.mpr hlast
        omega
      have hgoes : k.regs.goesOn (config.byteAt m.memory.bytes k.regs.hl) = true := by
        rw [Registers.goesOn, bne_iff_ne.mpr hmore, bne, hmatch]
        rfl
      generalize hlater : config.searched d (k.regs.hl + d.stride) k.regs.a m.memory.bytes (count + 1)
        = later at hfound
      obtain ⟨looks, hlooks⟩ : ∃ looks, later.elim (count + 1) (· + 1) = looks + 1 := by
        cases later with
        | none => exact ⟨count, rfl⟩
        | some i => exact ⟨i, rfl⟩
      have htotal : found.elim (count + 1 + 1) (· + 1) = looks + 2 ∧ found.isSome = later.isSome := by
        subst hfound
        cases later with
        | none => exact ⟨congrArg (· + 1) hlooks, rfl⟩
        | some i => exact ⟨congrArg (· + 1) hlooks, rfl⟩
      rw [htotal.1, passEdges_succ] at hcalm
      rw [htotal.1, htotal.2, passEdges_succ]
      obtain ⟨p, hdone, hhalted, hsearches⟩ := searches_pass hb hopens hawake hnmi hlead hopcode
        (by rw [hgoes]; rfl) fun i hi => hcalm i (Nat.lt_add_right _ hi)
      rw [hmatch] at hsearches
      obtain ⟨k', hopens', hregs, hawake', hnmi', hcalm'⟩ := hdone.opens_again hhalted hcalm
        (by rw [passEdges]; omega)
      have hbc : p.regs.bc = k.regs.bc - 1 := hsearches.bc
      have hmore' : p.regs.bc ≠ 0 := by rw [hbc]; exact hmore
      have hpc : p.regs.pc = k.regs.pc := by
        rw [hsearches.pc, if_neg fun hover => hover.elim Bool.false_ne_true hmore']
      have hhl : p.regs.hl = k.regs.hl + d.stride := by rw [hsearches.hl, Direction.offset_one]
      rw [← hlooks] at hcalm'
      have hih := ih (orderly_after hb 42) hopens' hawake' hnmi'
        (by rw [hdone.bytes, hregs, hpc]; exact hlead)
        (by rw [hdone.bytes, hregs, hpc]; exact hopcode)
        (Registers.passes_step hcount (by rw [hregs, hbc]))
        (by rw [hdone.bytes, hregs, hhl, hsearches.a]; exact hlater) hcalm'
      rw [hregs, hlooks] at hih
      obtain ⟨hrepeats, hrest, hbytes⟩ := hih
      rw [hpc] at hrepeats
      rw [after_add]
      refine ⟨hdone.repeats_again (by decide) hpc hrepeats, ?_, hbytes.trans hdone.bytes⟩
      rw [show looks + 2 = 1 + (looks + 1) by omega]
      exact hsearches.trans hmore' hrest

end Machine

variable {config : BoardConfig} {m : Machine} {k : Core}

/-- The passes are as many as BC counts. -/
theorem Registers.toUInt16_passes (regs : Registers) : regs.passes.toUInt16 = regs.bc := by
  rw [passes]
  split
  · next hzero =>
    rw [hzero]
    rfl
  · exact UInt16.ofNat_toNat

theorem Registers.passes_pos (regs : Registers) : 0 < regs.passes := by
  rw [passes]
  split
  · decide
  · next hsome => exact Nat.pos_of_ne_zero fun hzero => hsome (UInt16.toNat_inj.mp hzero)

/-- LDIR and LDDR copy a block.  If the interrupts, the waits and the requests for the buses stay away,
    and no store reaches the instruction, it is completed as often as BC counts, and PC is behind it
    only with the last time.  Memory is what the copies one after the other have left of it. -/
theorem Attended.copies_block (h : Attended config m.board) (d : Direction)
    (hopens : m.board.Opens m.clock.level.flip k) (hnmi : k.nmiPending = false)
    (hlead : config.byteAt m.memory.bytes k.regs.pc = 0xED)
    (hopcode : config.byteAt m.memory.bytes (k.regs.pc + 1) = d.copies)
    (hapart : ∀ i < k.regs.passes,
      config.isRom (config.index (k.regs.de + d.stride * i.toUInt16)) = false →
        config.index (k.regs.de + d.stride * i.toUInt16) ≠ config.index k.regs.pc
          ∧ config.index (k.regs.de + d.stride * i.toUInt16) ≠ config.index (k.regs.pc + 1))
    (hcalm : m.Calm (2 * (21 * (k.regs.passes - 1) + 16))) :
    let edges := 2 * (21 * (k.regs.passes - 1) + 16)
    let after := (m.after edges).core.regs
    (∀ sofar ≤ edges, (m.after sofar).core.instructionCounter
        = m.core.instructionCounter + if sofar = edges then k.regs.passes else sofar / 42)
      ∧ (∀ before, 0 < before → before < k.regs.passes →
        (m.after (42 * before)).core.regs.pc = k.regs.pc)
      ∧ (m.after edges).core.halfTStates = m.core.halfTStates + edges
      ∧ (m.after edges).memory.bytes
        = config.copied d k.regs.hl k.regs.de m.memory.bytes k.regs.passes
      ∧ after.bc = 0 ∧ after.hl = k.regs.hl + d.stride * k.regs.passes.toUInt16
      ∧ after.de = k.regs.de + d.stride * k.regs.passes.toUInt16 ∧ after.pc = k.regs.pc + 2
      ∧ after.a = k.regs.a
      ∧ after.f &&& (Flag.sign ||| Flag.zero ||| Flag.carry)
        = k.regs.f &&& (Flag.sign ||| Flag.zero ||| Flag.carry)
      ∧ after.f &&& (Flag.half ||| Flag.subtract ||| Flag.parity) = 0 := by
  obtain ⟨count, hcount⟩ : ∃ count, k.regs.passes = count + 1 :=
    Nat.exists_eq_succ_of_ne_zero (Nat.ne_of_gt k.regs.passes_pos)
  have htotal : 2 * (21 * (k.regs.passes - 1) + 16) = Machine.passEdges 42 32 k.regs.passes := by
    rw [Machine.passEdges]
    omega
  rw [htotal] at hcalm ⊢
  rw [hcount] at hapart hcalm
  obtain ⟨⟨hcompleted, hstays⟩, hcopies, hbytes⟩ := Machine.copies h.orderly hopens
    (h.awake_opens hopens) hnmi hlead hopcode hcount hapart hcalm
  rw [← hcount] at hcompleted hstays hcopies hbytes
  generalize Machine.passEdges 42 32 k.regs.passes = edges at hcompleted hcopies hbytes ⊢
  have hbc : (m.after edges).core.regs.bc = 0 := by
    rw [hcopies.bc, k.regs.toUInt16_passes, UInt16.sub_self]
  have hclear := hcopies.parity
  have hpc := hcopies.pc
  rw [hbc] at hclear hpc
  have hparity : (m.after edges).core.regs.f &&& Flag.parity = 0 := bne_eq_false_iff_eq.mp hclear
  refine ⟨hcompleted, hstays, m.halfTStates_after edges, hbytes, hbc, hcopies.hl, hcopies.de, hpc,
    hcopies.a, hcopies.kept, ?_⟩
  rw [UInt8.and_comm, Flag.or_and, UInt8.and_comm, hcopies.cleared, UInt8.and_comm, hparity]
  rfl

/-- A machine whose first instruction is an LDIR over three bytes, from one place to the next. -/
def copyMachine : Machine :=
  smallMachine.onBoard (smallMachine.board.set {} {}
    (fun regs => { ((regs.setHl 0x10).setDe 0x11).setBc 3 with pc := 0 })
    (([0xED, 0xB0] : List Byte) ++ List.replicate 14 0 ++ [0x55] ++ List.replicate 0x3EF 0).toArray)

/-- The chip that runs its first half-period. -/
def copyChip : Core :=
  { copyMachine.core.sampleInputs copyMachine.board.inputs with phase := .running }.resolveNext

/-- The three bytes are copied, each from the one before. -/
theorem copy_of_three :
    copyMachine.board.Opens copyMachine.clock.level.flip copyChip ∧ copyMachine.Calm 116
      ∧ copyChip.regs.passes = 3 ∧ (copyMachine.after 116).core.regs.pc = 2
      ∧ (copyMachine.after 116).memory.bytes
        = smallConfig.copied .up 0x10 0x11 copyMachine.memory.bytes 3
      ∧ (copyMachine.after 116).core.instructionCounter = copyMachine.core.instructionCounter + 3 := by
  have hbuilt : Machine.build smallConfig .unattached = .ok smallMachine := rfl
  have hstart : Attended smallConfig smallMachine.board := .start hbuilt (by decide +kernel)
  have hattended : Attended smallConfig copyMachine.board := hstart.set _ _ _ _ (by decide +kernel)
  have hopens : copyMachine.board.Opens copyMachine.clock.level.flip copyChip := by
    refine ⟨rfl, ?_, ?_, ?_, ?_⟩ <;> decide +kernel
  have hstill : copyMachine.Still := ⟨rfl, rfl, rfl, rfl⟩
  have hpasses : copyChip.regs.passes = 3 := by decide +kernel
  have hplaces : copyChip.regs.hl = 0x10 ∧ copyChip.regs.de = 0x11 ∧ copyChip.regs.pc = 0 := by
    decide +kernel
  have hcopies := hattended.copies_block .up hopens (by decide +kernel) (by decide +kernel)
    (by decide +kernel) (by decide +kernel) (hstill.calm _)
  have htotal : 2 * (21 * (3 - 1) + 16) = 116 := rfl
  rw [hpasses, hplaces.1, hplaces.2.1, hplaces.2.2, htotal] at hcopies
  obtain ⟨hcompleted, -, -, hbytes, -, -, -, hpc, -⟩ := hcopies
  refine ⟨hopens, hstill.calm _, hpasses, hpc, hbytes, ?_⟩
  rw [hcompleted 116 (Nat.le_refl _)]
  rfl

/-- How many bytes a search looks at. -/
def BoardConfig.looks (config : BoardConfig) (d : Direction) (regs : Registers) (bytes : Array Byte) :
    Nat :=
  (config.searched d regs.hl regs.a bytes regs.passes).elim regs.passes (· + 1)

/-- They are not more than BC counts. -/
theorem BoardConfig.looks_le (d : Direction) (regs : Registers) (bytes : Array Byte) :
    config.looks d regs bytes ≤ regs.passes := by
  rw [looks]
  cases hfound : config.searched d regs.hl regs.a bytes regs.passes with
  | none => exact Nat.le_refl _
  | some i => exact List.mem_range.mp (List.mem_of_find?_eq_some hfound)

/-- CPIR and CPDR search a block for the byte in A.  If the interrupts, the waits and the requests for
    the buses stay away, the instruction is completed once for every byte up to the first that
    matches, or as often as BC counts, and PC is behind it only with the last time. -/
theorem Attended.searches_block (h : Attended config m.board) (d : Direction)
    (hopens : m.board.Opens m.clock.level.flip k) (hnmi : k.nmiPending = false)
    (hlead : config.byteAt m.memory.bytes k.regs.pc = 0xED)
    (hopcode : config.byteAt m.memory.bytes (k.regs.pc + 1) = d.searches)
    (hcalm : m.Calm (2 * (21 * (config.looks d k.regs m.memory.bytes - 1) + 16))) :
    let looks := config.looks d k.regs m.memory.bytes
    let edges := 2 * (21 * (looks - 1) + 16)
    let after := (m.after edges).core.regs
    (∀ sofar ≤ edges, (m.after sofar).core.instructionCounter
        = m.core.instructionCounter + if sofar = edges then looks else sofar / 42)
      ∧ (∀ before, 0 < before → before < looks →
        (m.after (42 * before)).core.regs.pc = k.regs.pc)
      ∧ (m.after edges).core.halfTStates = m.core.halfTStates + edges
      ∧ (m.after edges).memory.bytes = m.memory.bytes ∧ after.a = k.regs.a
      ∧ after.hl = k.regs.hl + d.stride * looks.toUInt16
      ∧ after.bc = (k.regs.passes - looks).toUInt16 ∧ after.pc = k.regs.pc + 2
      ∧ Flag.test after.f Flag.zero
        = (config.searched d k.regs.hl k.regs.a m.memory.bytes k.regs.passes).isSome
      ∧ Flag.test after.f Flag.parity = (after.bc != 0) ∧ Flag.test after.f Flag.subtract = true
      ∧ after.f &&& Flag.carry = k.regs.f &&& Flag.carry := by
  obtain ⟨count, hcount⟩ : ∃ count, k.regs.passes = count + 1 :=
    Nat.exists_eq_succ_of_ne_zero (Nat.ne_of_gt k.regs.passes_pos)
  intro looks
  have hle : looks ≤ k.regs.passes := config.looks_le d k.regs m.memory.bytes
  generalize hfound : config.searched d k.regs.hl k.regs.a m.memory.bytes k.regs.passes = found
  have hlooks : looks = found.elim (count + 1) (· + 1) := by
    rw [← hcount, ← hfound]
    rfl
  have htotal : 2 * (21 * (looks - 1) + 16) = Machine.passEdges 42 32 looks := by
    rw [Machine.passEdges]
    omega
  have hcalm' : m.Calm (Machine.passEdges 42 32 looks) := htotal ▸ hcalm
  clear_value looks
  rw [htotal]
  rw [hlooks] at hcalm'
  rw [hcount] at hfound
  obtain ⟨⟨hcompleted, hstays⟩, hsearches, hbytes⟩ := Machine.searches h.orderly hopens
    (h.awake_opens hopens) hnmi hlead hopcode hcount hfound hcalm'
  rw [← hlooks] at hcompleted hstays hsearches hbytes
  have hall (hnone : found = none) : looks = k.regs.passes := by
    rw [hlooks, hnone, hcount]
    rfl
  generalize Machine.passEdges 42 32 looks = edges at hcompleted hsearches hbytes ⊢
  have hbc : (m.after edges).core.regs.bc = (k.regs.passes - looks).toUInt16 := by
    have hleft : (k.regs.passes - looks).toUInt16 = k.regs.passes.toUInt16 - looks.toUInt16 :=
      UInt16.ofNat_sub hle
    rw [hsearches.bc, hleft, k.regs.toUInt16_passes]
  have hpc : (m.after edges).core.regs.pc = k.regs.pc + 2 := by
    rw [hsearches.pc, if_pos]
    cases found with
    | none =>
      refine Or.inr ?_
      rw [hbc, hall rfl, Nat.sub_self]
      rfl
    | some i => exact Or.inl rfl
  exact ⟨hcompleted, hstays, m.halfTStates_after edges, hbytes, hsearches.a, hsearches.hl, hbc, hpc,
    hsearches.zero, hsearches.parity, hsearches.subtract, hsearches.carry⟩

/-- A machine whose first instruction is a CPDR over three bytes, of which the second one matches. -/
def searchMachine : Machine :=
  smallMachine.onBoard (smallMachine.board.set {} {}
    (fun regs => { (regs.setHl 0x10).setBc 3 with a := 0x55, pc := 0 })
    (([0xED, 0xB9] : List Byte) ++ List.replicate 13 0 ++ [0x55] ++ List.replicate 0x3F0 0).toArray)

/-- The chip that runs its first half-period. -/
def searchChip : Core :=
  { searchMachine.core.sampleInputs searchMachine.board.inputs with phase := .running }.resolveNext

/-- The byte is found below the first one, with one more to do. -/
theorem search_of_second :
    searchMachine.board.Opens searchMachine.clock.level.flip searchChip ∧ searchMachine.Calm 74
      ∧ (searchMachine.after 74).core.regs.hl = 0x0E ∧ (searchMachine.after 74).core.regs.bc = 1
      ∧ (searchMachine.after 74).core.regs.pc = 2
      ∧ Flag.test (searchMachine.after 74).core.regs.f Flag.zero = true
      ∧ (searchMachine.after 74).core.instructionCounter
        = searchMachine.core.instructionCounter + 2 := by
  have hbuilt : Machine.build smallConfig .unattached = .ok smallMachine := rfl
  have hstart : Attended smallConfig smallMachine.board := .start hbuilt (by decide +kernel)
  have hattended : Attended smallConfig searchMachine.board :=
    hstart.set _ _ _ _ (by decide +kernel)
  have hopens : searchMachine.board.Opens searchMachine.clock.level.flip searchChip := by
    refine ⟨rfl, ?_, ?_, ?_, ?_⟩ <;> decide +kernel
  have hstill : searchMachine.Still := ⟨rfl, rfl, rfl, rfl⟩
  have hlooks : smallConfig.looks .down searchChip.regs searchMachine.memory.bytes = 2 := by
    decide +kernel
  have hfound : (smallConfig.searched .down searchChip.regs.hl searchChip.regs.a
      searchMachine.memory.bytes searchChip.regs.passes).isSome = true := by
    decide +kernel
  have hplaces : searchChip.regs.hl = 0x10 ∧ searchChip.regs.pc = 0 ∧ searchChip.regs.passes = 3 := by
    decide +kernel
  have hsearches := hattended.searches_block .down hopens (by decide +kernel) (by decide +kernel)
    (by decide +kernel) (hstill.calm _)
  have htotal : 2 * (21 * (2 - 1) + 16) = 74 := rfl
  rw [hlooks, hfound, hplaces.1, hplaces.2.1, hplaces.2.2] at hsearches
  dsimp only at hsearches
  rw [htotal] at hsearches
  obtain ⟨hcompleted, -, -, -, -, hhl, hbc, hpc, hzero, -⟩ := hsearches
  refine ⟨hopens, hstill.calm _, hhl.trans (by decide), hbc.trans (by decide), hpc, hzero, ?_⟩
  rw [hcompleted 74 (Nat.le_refl _)]
  rfl

end Z80Board
