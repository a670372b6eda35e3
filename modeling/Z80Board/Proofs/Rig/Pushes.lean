import Z80Board.Proofs.Rig.Doubles

/-! # A call from a device

    A call or a restart pushes PC.  When it comes from a device, PC has not moved over its bytes, so
    what it pushes is the PC at which the interrupt was accepted.  From cycle to cycle nothing else
    happens to the registers that it depends on. -/

namespace Z80Board

/-- Where PC goes on the stack, and what goes there. -/
def Registers.pushes (regs : Registers) : List Store :=
  [⟨regs.sp - 1, Word.high regs.pc⟩, ⟨regs.sp - 2, Word.low regs.pc⟩]

/-- The cycles that follow a cycle of this kind in a call and in a restart.  A call that names a
    condition stops before the push if the condition does not hold. -/
def Mnemonic.pushesAfter (m : Mnemonic) (met : Bool) : CycleKind → Option CycleKind → Bool
  | .opcodeFetch, some .stackWriteHigh => m == .rst
  | .opcodeFetch, some .operandLow | .operandLow, some .operandHigh
  | .operandHigh, some .stackWriteHigh => m == .call
  | .operandHigh, none => m == .call && !met
  | .stackWriteHigh, some .stackWriteLow | .stackWriteLow, none => true
  | _, _ => false

/-- So many bytes of PC are on the stack when a cycle of this kind begins. -/
def CycleKind.depth : CycleKind → Nat
  | .stackWriteLow => 1
  | _ => 0

/-- The instruction is a call or a restart of the tables. -/
structure Instruction.PushesPc (code : Instruction) : Prop where
  mnemonic : code.mnemonic = .call ∨ code.mnemonic = .rst
  plain : code.index? = none ∧ code.memoryOperand? = none
  follows : ∀ met (i : Nat) (cycle : MachineCycle), (code.timing.cycles met)[i]? = some cycle →
    code.mnemonic.pushesAfter met cycle.kind
      ((code.timing.cycles met)[i + 1]?.map MachineCycle.kind) = true

theorem Mnemonic.eq_of_pushesPc {m : Mnemonic} (h : m.pushesPc = true) : m = .call ∨ m = .rst := by
  cases m
  case call => exact Or.inl rfl
  case rst => exact Or.inr rfl
  all_goals cases h

theorem Listing.Entitled.pushesPc {page : Page} {code : Instruction}
    (h : Listing.Entitled Catalog.forms page code) (hpushes : code.mnemonic.pushesPc = true) :
    code.PushesPc := by
  have hplain : ∀ p ∈ Catalog.forms, p.1.pushesPc = true → ∀ encoding ∈ p.2.encodings,
      encoding.2.findSome? Operand.index? = none ∧ encoding.2.find? Operand.isMemory = none := by
    decide +kernel
  have hfollows : ∀ p ∈ Catalog.forms, p.1.pushesPc = true → ∀ met,
      ∀ i < (p.2.timing.cycles met).length, ∀ cycle ∈ (p.2.timing.cycles met)[i]?,
        p.1.pushesAfter met cycle.kind ((p.2.timing.cycles met)[i + 1]?.map MachineCycle.kind)
          = true := by
    decide +kernel
  obtain ⟨m, f, hf, -, hcode⟩ := h
  rw [hcode.mnemonic] at hpushes
  obtain ⟨opcode, hmem⟩ := hcode.operands
  refine ⟨Mnemonic.eq_of_pushesPc (hcode.mnemonic ▸ hpushes), hplain (m, f) hf hpushes _ hmem,
    fun met i cycle hcycle => ?_⟩
  rw [hcode.timing] at hcycle ⊢
  rw [hcode.mnemonic]
  exact hfollows (m, f) hf hpushes met i (List.getElem?_eq_some_iff.mp hcycle).1 cycle hcycle

namespace Core

variable {c d : Core} {code : Instruction} {byte : Byte} {regs : Registers}

/-- The bytes of this address are ready to be put out. -/
def Stages (c : Core) (pc : Word) : Prop :=
  c.outs = (Word.low pc, Word.high pc)

/-- The registers are these, and if the chip knows that its instruction is a restart, PC is ready to be
    pushed. -/
structure Prepares (code : Instruction) (regs : Registers) (c : Core) : Prop where
  kept : c.regs = regs
  stages : c.instruction ≠ none → code.mnemonic = .rst → c.Stages regs.pc

/-- Taking up a call or a restart changes no register, and a restart stages PC at once. -/
theorem prepares_beginExecution (h : code.PushesPc) :
    Prepares code c.regs (c.beginExecution code) := by
  obtain ⟨hindex, hmemory⟩ := h.plain
  have htaken : c.takeUp code = { c with
      instruction := some code, cycles := code.timing.primary.cycles, conditionMet := false } := by
    rw [takeUp, placeDisplacement, hindex]
  have hexecuted : (c.takeUp code).execute .decoded = (c.takeUp code).act code .decoded := by
    rw [htaken]
    simp only [execute, addressOperand, hmemory, if_pos]
  rw [beginExecution_eq, hexecuted, htaken]
  rcases h.mnemonic with hm | hm
  · refine ⟨?_, fun _ hrst => by cases hm.symm.trans hrst⟩
    simp only [act, hm]
    rfl
  · refine ⟨?_, fun _ _ => ?_⟩ <;> simp only [act, hm] <;> rfl

/-- So do the entries that lead to it. -/
theorem prepares_follow (h : code.PushesPc) (hregs : c.regs = regs) (hnone : c.instruction = none)
    {entry : Instruction} {again : Core → Page → Core}
    (hfit : ∀ found, (c.follow entry again).instruction = some found → found = code)
    (hagain : ∀ page, entry.action = .redecode page →
      Prepares code regs (again { c with position := 0 } page)) :
    Prepares code regs (c.follow entry again) := by
  unfold follow at hfit ⊢
  cases haction : entry.action with
  | execute =>
    rw [haction] at hfit
    obtain rfl := hfit entry (instruction_beginExecution c entry)
    rw [← hregs]
    exact prepares_beginExecution h
  | fetchNext page => exact ⟨hregs, fun hknown => absurd hnone hknown⟩
  | fetchDisplacement page => exact ⟨hregs, fun hknown => absurd hnone hknown⟩
  | redecode page => exact hagain page haction

theorem prepares_dispatch (h : code.PushesPc) (hregs : c.regs = regs) (hnone : c.instruction = none)
    (hfit : ∀ found, (c.dispatch byte).instruction = some found → found = code) :
    Prepares code regs (c.dispatch byte) := by
  unfold dispatch at hfit ⊢
  refine prepares_follow (c := { c with opcode := c.opcode.push byte }) h hregs hnone hfit
    fun page haction => ?_
  refine prepares_follow (c := { c with opcode := c.opcode.push byte, position := 0 }) h hregs hnone
    (fun found hfound => hfit found ?_) fun _ _ => ⟨hregs, fun hknown => absurd hnone hknown⟩
  unfold follow
  dsimp only
  rw [haction]
  exact hfound

/-- PC stays where it is when the instruction does not come from memory. -/
theorem advancePc_of_device (h : c.origin = .device) : c.advancePc = c := by
  refine if_neg ?_
  rw [fromMemory, h]
  exact Bool.false_ne_true

/-- The end of a cycle leaves that alone, if its instruction was not known before it. -/
theorem Prepares.latchResult (h : c.Prepares code regs)
    (hkind : c.instruction ≠ none → c.cycle.kind = .opcodeFetch) :
    c.latchResult.Prepares code regs := by
  cases hcode : c.instruction with
  | none =>
    rw [latchResult_of_none hcode]
    split <;> exact ⟨h.kept, fun hknown => absurd hcode hknown⟩
  | some found =>
    rw [latchResult_of_some hcode, if_pos (hkind (by rw [hcode]; exact Option.some_ne_none _))]
    exact h

/-- A cycle that takes in a byte of the opcode from a device counts a refresh at most. -/
theorem prepares_acted (h : code.PushesPc) (horigin : c.origin = .device)
    (huses : c.cycle.kind.Uses c.cycle.pattern) (hreads : c.cycle.kind.readsCode = true)
    (hnone : c.instruction = none)
    (hfit : ∀ found, (c.played byte).instruction = some found → found = code) :
    (∃ r, (c.acted byte).Prepares code { c.regs with r })
      ∧ ((c.played byte).instruction ≠ none → c.cycle.kind = .opcodeFetch) := by
  have hread : c.cycle.pattern ≠ .write := fun hwrite => by
    cases hreads.symm.trans (huses.readsCode_eq_false (by rw [hwrite]; decide))
  have hkind : (c.played byte).cycle.kind = c.cycle.kind := kind_of_use (c.use_played byte)
  have hplayed : ∃ r, (c.played byte).Prepares code { c.regs with r }
      ∧ ((c.played byte).instruction ≠ none → c.cycle.kind = .opcodeFetch) := by
    rw [played_eq, if_neg hread, takeIn] at hfit ⊢
    have hfetched (hkind : c.cycle.kind = .opcodeFetch)
        (hfit : ∀ found, (c.countRefresh.takeOpcodeByte byte).instruction = some found →
          found = code) :
        ∃ r, (c.countRefresh.takeOpcodeByte byte).Prepares code { c.regs with r }
          ∧ ((c.countRefresh.takeOpcodeByte byte).instruction ≠ none →
            c.cycle.kind = .opcodeFetch) := by
      rw [takeOpcodeByte_of_none (c := c.countRefresh) hnone,
        advancePc_of_device (c := c.countRefresh) horigin] at hfit ⊢
      exact ⟨_, prepares_dispatch (c := c.countRefresh) h rfl hnone hfit, fun _ => hkind⟩
    have hmoved : c.movePointer = c := by
      rw [movePointer]
      cases hkind : c.cycle.kind <;> rw [hkind] at hreads
      case opcodeFetch | operand | operandLow | operandHigh => exact advancePc_of_device horigin
      all_goals cases hreads
    cases hpattern : c.cycle.pattern <;> rw [hpattern] at hfit
    case fetch => exact hfetched (huses.opcodeFetch_iff.mpr (Or.inl hpattern)) hfit
    case acknowledge =>
      exact hfetched (huses.opcodeFetch_iff.mpr (Or.inr (Or.inl hpattern))) hfit
    case opcodeRead =>
      dsimp only at hfit ⊢
      rw [hmoved] at hfit ⊢
      exact ⟨_, prepares_dispatch h rfl hnone hfit,
        fun _ => huses.opcodeFetch_iff.mpr (Or.inr (Or.inr hpattern))⟩
    case read =>
      dsimp only
      rw [hmoved]
      exact ⟨c.regs.r, ⟨rfl, fun hknown => absurd hnone hknown⟩, fun hknown => absurd hnone hknown⟩
    all_goals cases hreads.symm.trans (huses.readsCode_eq_false (by rw [hpattern]; decide))
  obtain ⟨r, hprepares, hfetch⟩ := hplayed
  exact ⟨⟨r, hprepares.latchResult fun hknown => hkind.trans (hfetch hknown)⟩, hfetch⟩

/-- A byte of the instruction that is stowed leaves the registers alone, and what is staged. -/
theorem stow_kept (c : Core) (code : Instruction) :
    (c.stow code).regs = c.regs ∧ (c.stow code).outs = c.outs := by
  rw [stow]
  cases c.cycle.kind
  case operandHigh =>
    dsimp only
    split <;> exact ⟨rfl, rfl⟩
  all_goals exact ⟨rfl, rfl⟩

/-- A call or a restart leaves PC and what is staged alone while the first byte is pushed. -/
theorem act_pushed (h : code.PushesPc) : c.act code (.after .stackWriteHigh) = c := by
  rcases h.mnemonic with hm | hm <;> simp only [act, hm] <;> rfl

/-- With the last byte it goes to its target, and leaves SP alone. -/
theorem sp_act_pushed (h : code.PushesPc) :
    (c.act code (.after .stackWriteLow)).regs.sp = c.regs.sp := by
  rcases h.mnemonic with hm | hm
  · rw [c.act_call hm]
    unfold call
    repeat' split
    all_goals rfl
  · simp only [act, hm]
    unfold restart
    repeat' split
    all_goals rfl

/-- A push stores below the stack. -/
theorem stores_of_push (hpattern : c.cycle.pattern = .write)
    (hkind : c.cycle.kind = .stackWriteHigh ∨ c.cycle.kind = .stackWriteLow) :
    c.stores = [⟨c.regs.sp - 1, c.writeByte⟩] := by
  have haddress : c.cycleAddress = some (c.regs.sp - 1) := by
    rw [cycleAddress, hpattern]
    rcases hkind with h | h <;> exact congrArg some (by rw [writeAddress, h])
  rw [stores, if_pos hpattern, haddress]
  rfl

/-- The end of a cycle of a call or a restart leads to the cycle that follows it. -/
theorem nextCycle_pushes {half : Nat} (h : code.PushesPc) (hcode : c.instruction = some code)
    (hcourse : c.Course half) :
    c.nextCycle.1.regs = c.regs ∧ c.nextCycle.1.latches = c.latches
      ∧ c.nextCycle.1.conditionMet = c.conditionMet
      ∧ (c.nextCycle.2 = true ∧ code.mnemonic.pushesAfter c.conditionMet c.cycle.kind none = true
        ∨ c.nextCycle.2 = false ∧ code.mnemonic.pushesAfter c.conditionMet c.cycle.kind
          (some c.nextCycle.1.cycle.kind) = true) := by
  obtain ⟨hcycles, -⟩ := hcourse.scheduled code hcode
  have hcurrent := hcourse.current
  rw [plan, hcode] at hcurrent
  dsimp only at hcurrent
  rw [hcycles] at hcurrent
  have hfollows := h.follows _ _ _ hcurrent
  rw [nextCycle_of_some hcode, hcycles]
  cases hnext : (code.timing.cycles c.conditionMet)[c.position + 1]? with
  | none =>
    rw [hnext] at hfollows
    exact ⟨rfl, rfl, rfl, Or.inl ⟨rfl, hfollows⟩⟩
  | some next =>
    rw [hnext] at hfollows
    exact ⟨rfl, rfl, rfl, Or.inr ⟨rfl, hfollows⟩⟩

end Core

namespace Scene

variable {w : Surroundings} {code : Instruction} {regs : Registers} {bytes : Array Byte} {s : Scene}

/-- A call or a restart is on its way, from these registers and these bytes of memory. -/
structure Pushing (w : Surroundings) (regs : Registers) (bytes : Array Byte) (s : Scene) : Prop where
  kept : ∃ r wz, s.core.regs = { regs with r, wz, sp := regs.sp - s.core.cycle.kind.depth.toUInt16 }
  stages : s.core.cycle.kind.writesMemory = true → s.core.Stages regs.pc
  stored : s.bytes = (regs.pushes.take s.core.cycle.kind.depth).foldl w.config.apply bytes

/-- When it is known, the end of a cycle leads to the cycle that follows it. -/
theorem follows_of_played (hcode : code.PushesPc) (hcourse : s.core.Course 0)
    (hplayed : (s.core.played (s.byte w)).instruction = some code) :
    (s.core.acted (s.byte w)).instruction = some code
      ∧ (s.next w).core.regs = (s.core.acted (s.byte w)).regs
      ∧ (s.next w).core.latches = (s.core.acted (s.byte w)).latches
      ∧ (s.next w).core.conditionMet = (s.core.played (s.byte w)).conditionMet
      ∧ (s.ends w = true ∧ code.mnemonic.pushesAfter (s.core.played (s.byte w)).conditionMet
          s.core.cycle.kind none = true
        ∨ s.ends w = false ∧ code.mnemonic.pushesAfter (s.core.played (s.byte w)).conditionMet
          s.core.cycle.kind (some (s.next w).core.cycle.kind) = true) := by
  obtain ⟨e, hcloses, hlogic, -⟩ := hcourse.through (P := fun _ _ => True) (s.byte w) trivial
    fun _ _ _ => trivial
  have hstill := hcloses.course.of_logic hlogic.symm
  obtain ⟨hplace, hturns⟩ := Core.latchResult_turns hplayed
  have hpace : (s.core.acted (s.byte w)).pace = (s.core.played (s.byte w)).pace := by
    rcases hturns with hpace | ⟨⟨hrepeats, -⟩, -⟩
    · exact hpace
    · rcases hcode.mnemonic with hm | hm <;> rw [hm] at hrepeats <;> cases hrepeats
  have hknown := (Core.instruction_of_pace hpace).trans hplayed
  have hkind : (s.core.acted (s.byte w)).cycle.kind = s.core.cycle.kind :=
    (congrArg ActiveCycle.kind (Core.cycle_latchResult _)).trans
      (Core.kind_of_use (s.core.use_played _))
  have hnext := Core.nextCycle_pushes hcode hknown (hstill.congr hpace hplace)
  rw [Core.conditionMet_of_pace hpace, hkind] at hnext
  exact ⟨hknown, hnext⟩

/-- While bytes of the instruction are read, nothing is pushed. -/
theorem Pushing.next_of_read (h : s.Pushing w regs bytes) (hread : s.core.cycle.pattern ≠ .write)
    (hdepth : s.core.cycle.kind.depth = 0)
    (hnext : ∃ r wz, (s.next w).core.regs = { s.core.regs with r, wz })
    (hlater : (s.next w).core.cycle.kind.depth = 0)
    (hstages : (s.next w).core.cycle.kind.writesMemory = true → (s.next w).core.Stages regs.pc) :
    (s.next w).Pushing w regs bytes := by
  obtain ⟨r, wz, hregs⟩ := hnext
  obtain ⟨r', wz', hkept⟩ := h.kept
  refine ⟨⟨r, wz, ?_⟩, hstages, ?_⟩
  · rw [hregs, hkept, hdepth, hlater]
  · have hstored := h.stored
    rw [hdepth] at hstored
    rw [hlater, next, Core.leftBytes, Core.stores_of_reads hread]
    exact hstored

/-- The opcode is not complete yet, or it is now. -/
theorem Pushing.goes_of_unknown (h : s.Pushing w regs bytes) (hcode : code.PushesPc)
    (hcourse : s.core.Course 0) (horigin : s.core.origin = .device) (hnone : s.core.instruction = none)
    (hfit : ∀ found, (s.core.played (s.byte w)).instruction = some found → found = code) :
    s.ends w = false ∧ (s.next w).Pushing w regs bytes := by
  have huses := hcourse.uses
  have hreads := readsCode_of_unknown hcourse hnone
  have hread : s.core.cycle.pattern ≠ .write := fun hwrite => by
    cases hreads.symm.trans (huses.readsCode_eq_false (by rw [hwrite]; decide))
  have hdepth : s.core.cycle.kind.depth = 0 := by
    cases hkind : s.core.cycle.kind <;> rw [hkind] at hreads <;> first | rfl | cases hreads
  obtain ⟨r', wz', hkept⟩ := h.kept
  obtain ⟨⟨r, hkept', hstages⟩, hfetch⟩ :=
    Core.prepares_acted hcode horigin huses hreads hnone hfit
  have hregs (hsame : (s.next w).core.regs = (s.core.acted (s.byte w)).regs) :
      ∃ r wz, (s.next w).core.regs = { s.core.regs with r, wz } :=
    ⟨r, s.core.regs.wz, hsame.trans hkept'⟩
  cases hplayed : (s.core.played (s.byte w)).instruction with
  | none =>
    -- the byte was a prefix or a displacement, so another one is read
    have hacted : (s.core.acted (s.byte w)).instruction = none := by
      rw [Core.acted, Core.latchResult_of_none hplayed]
      split <;> exact hplayed
    have hnext := Core.nextCycle_of_none hacted
    have hgoes : s.ends w = false ∧ (s.next w).core.regs = (s.core.acted (s.byte w)).regs
        ∧ ((s.next w).core.cycle.kind = .opcodeFetch ∨ (s.next w).core.cycle.kind = .operand) := by
      show (s.core.acted (s.byte w)).nextCycle.2 = false
        ∧ (s.core.acted (s.byte w)).nextCycle.1.regs = _
        ∧ ((s.core.acted (s.byte w)).nextCycle.1.cycle.kind = _
          ∨ (s.core.acted (s.byte w)).nextCycle.1.cycle.kind = _)
      rw [hnext]
      cases (s.core.acted (s.byte w)).chain
      · exact ⟨rfl, rfl, Or.inl rfl⟩
      · exact ⟨rfl, rfl, Or.inr rfl⟩
      · exact ⟨rfl, rfl, Or.inl rfl⟩
    obtain ⟨hmore, hsame, hkind⟩ := hgoes
    refine ⟨hmore, h.next_of_read hread hdepth (hregs hsame) ?_ fun hwrites => ?_⟩
    · rcases hkind with hkind | hkind <;> rw [hkind] <;> rfl
    · rcases hkind with hkind | hkind <;> rw [hkind] at hwrites <;> cases hwrites
  | some found =>
    -- the byte has completed the opcode: a restart pushes at once, and a call reads its word first
    obtain rfl := hfit found hplayed
    have hkind := hfetch (by rw [hplayed]; exact Option.some_ne_none _)
    obtain ⟨hacted, hsame, hlatches, -, hfollows⟩ := follows_of_played hcode hcourse hplayed
    rw [hkind] at hfollows
    rcases hfollows with ⟨-, hnever⟩ | ⟨hmore, hafter⟩
    · cases hnever
    · refine ⟨hmore, h.next_of_read hread hdepth (hregs hsame) ?_ fun hwrites => ?_⟩
      · cases hlater : (s.next w).core.cycle.kind <;> rw [hlater] at hafter <;>
          first | rfl | cases hafter
      · have hrst : found.mnemonic = .rst := by
          cases hlater : (s.next w).core.cycle.kind <;> rw [hlater] at hafter hwrites
          case stackWriteHigh => exact beq_iff_eq.mp hafter
          all_goals first | cases hafter | cases hwrites
        have hstaged := hstages (by rw [hacted]; exact Option.some_ne_none _) hrst
        rw [Core.Stages, Core.outs, hlatches]
        rw [hkept] at hstaged
        exact hstaged

/-- A call or a restart that is known runs one of its cycles. -/
structure Calling (w : Surroundings) (code : Instruction) (regs : Registers) (bytes : Array Byte)
    (s : Scene) : Prop where
  pushing : s.Pushing w regs bytes
  pushes : code.PushesPc
  course : s.core.Course 0
  posed : s.core.Posed
  origin : s.core.origin = .device
  known : s.core.instruction = some code
  played : (s.core.played (s.byte w)).instruction = some code
  met : (s.core.played (s.byte w)).conditionMet = s.core.conditionMet

namespace Calling

variable {kind : CycleKind}

/-- What follows this cycle, if anything does. -/
theorem follows (h : s.Calling w code regs bytes) (hkind : s.core.cycle.kind = kind) :
    s.ends w = true ∧ code.mnemonic.pushesAfter s.core.conditionMet kind none = true
      ∨ s.ends w = false ∧ code.mnemonic.pushesAfter s.core.conditionMet kind
        (some (s.next w).core.cycle.kind) = true := by
  obtain ⟨-, -, -, -, hfollows⟩ := follows_of_played h.pushes h.course h.played
  rw [h.met, hkind] at hfollows
  exact hfollows

theorem pattern_eq (h : s.Calling w code regs bytes) (hkind : s.core.cycle.kind = kind) :
    s.core.cycle.pattern = s.core.busPattern kind := by
  rw [h.posed.pattern, hkind]

/-- What a device sends does not move PC. -/
theorem movePointer_eq (h : s.Calling w code regs bytes)
    (hkind : s.core.cycle.kind = .operandLow ∨ s.core.cycle.kind = .operandHigh) :
    s.core.movePointer = s.core := by
  rw [Core.movePointer]
  rcases hkind with hkind | hkind <;> rw [hkind] <;> exact Core.advancePc_of_device h.origin

/-- With the low byte of its target a call goes on to the high one. -/
theorem operandLow (h : s.Calling w code regs bytes) (hkind : s.core.cycle.kind = .operandLow) :
    s.ends w = false ∧ (s.next w).Pushing w regs bytes := by
  have hpattern : s.core.cycle.pattern = .read := h.pattern_eq hkind
  obtain ⟨-, hsame, -⟩ := follows_of_played h.pushes h.course h.played
  rcases h.follows hkind with ⟨-, hnever⟩ | ⟨hmore, hafter⟩
  · cases hnever
  obtain ⟨hlater, hm⟩ : (s.next w).core.cycle.kind = .operandHigh ∧ code.mnemonic = .call := by
    cases hlater : (s.next w).core.cycle.kind <;> rw [hlater] at hafter
    case operandHigh => exact ⟨rfl, beq_iff_eq.mp hafter⟩
    all_goals cases hafter
  have hacted := Core.acted_of_read (s.byte w) h.known h.pushes.plain.1 hpattern (by rw [hkind]; decide)
  rw [h.movePointer_eq (Or.inl hkind), hkind, Core.act_call _ hm] at hacted
  obtain ⟨hregs, -⟩ := (s.core.fetch (s.byte w)).stow_kept code
  have hnext : (s.next w).core.regs = s.core.regs := by
    rw [hsame, hacted]
    exact hregs
  refine ⟨hmore, h.pushing.next_of_read (by rw [hpattern]; decide) (by rw [hkind]; rfl)
    ⟨_, _, hnext⟩ (by rw [hlater]; rfl) fun hwrites => ?_⟩
  rw [hlater] at hwrites
  cases hwrites

/-- With the high one it has PC staged, unless its condition fails. -/
theorem operandHigh (h : s.Calling w code regs bytes) (hkind : s.core.cycle.kind = .operandHigh) :
    (s.ends w = false → (s.next w).Pushing w regs bytes)
      ∧ (s.ends w = true → code.mnemonic = .call ∧ s.core.conditionMet = false) := by
  have hpattern : s.core.cycle.pattern = .read := h.pattern_eq hkind
  obtain ⟨-, hsame, hlatches, -⟩ := follows_of_played h.pushes h.course h.played
  obtain ⟨r, wz, hkept⟩ := h.pushing.kept
  rw [hkind] at hkept
  have hfollows := h.follows hkind
  have hm : code.mnemonic = .call := by
    rcases hfollows with ⟨-, hafter⟩ | ⟨-, hafter⟩
    · exact beq_iff_eq.mp (Bool.and_eq_true_iff.mp hafter).1
    · cases hlater : (s.next w).core.cycle.kind <;> rw [hlater] at hafter
      case stackWriteHigh => exact beq_iff_eq.mp hafter
      all_goals cases hafter
  have hacted := Core.acted_of_read (s.byte w) h.known h.pushes.plain.1 hpattern (by rw [hkind]; decide)
  rw [h.movePointer_eq (Or.inr hkind), hkind, Core.act_call _ hm] at hacted
  obtain ⟨hregs, -⟩ := (s.core.fetch (s.byte w)).stow_kept code
  refine ⟨fun hmore => ?_, fun hends => ⟨hm, ?_⟩⟩
  · rcases hfollows with ⟨hends, -⟩ | ⟨-, hafter⟩
    · cases hmore.symm.trans hends
    have hlater : (s.next w).core.cycle.kind = .stackWriteHigh := by
      cases hlater : (s.next w).core.cycle.kind <;> rw [hlater] at hafter <;>
        first | rfl | cases hafter
    refine h.pushing.next_of_read (by rw [hpattern]; decide) (by rw [hkind]; rfl) ?_
      (by rw [hlater]; rfl) fun _ => ?_
    · refine ⟨s.core.regs.r, ((s.core.fetch (s.byte w)).stow code).imm16, ?_⟩
      rw [hsame, hacted]
      show ({ ((s.core.fetch (s.byte w)).stow code).regs with wz := _ } : Registers) = _
      rw [hregs]
      rfl
    · rw [Core.Stages, Core.outs, hlatches, hacted]
      show (Word.low ((s.core.fetch (s.byte w)).stow code).regs.pc,
        Word.high ((s.core.fetch (s.byte w)).stow code).regs.pc) = _
      rw [hregs, show (s.core.fetch (s.byte w)).regs = s.core.regs from rfl, hkept]
  · rcases hfollows with ⟨-, hafter⟩ | ⟨hmore, -⟩
    · simpa using (Bool.and_eq_true_iff.mp hafter).2
    · cases hmore.symm.trans hends

/-- The high byte of PC is pushed first. -/
theorem stackWriteHigh (h : s.Calling w code regs bytes)
    (hkind : s.core.cycle.kind = .stackWriteHigh) :
    s.ends w = false ∧ (s.next w).Pushing w regs bytes := by
  have hpattern : s.core.cycle.pattern = .write := h.pattern_eq hkind
  obtain ⟨-, hsame, hlatches, -⟩ := follows_of_played h.pushes h.course h.played
  obtain ⟨r, wz, hkept⟩ := h.pushing.kept
  have hstored := h.pushing.stored
  have hstaged := h.pushing.stages (by rw [hkind]; rfl)
  rw [hkind] at hkept hstored
  rcases h.follows hkind with ⟨-, hnever⟩ | ⟨hmore, hafter⟩
  · cases hnever
  have hlater : (s.next w).core.cycle.kind = .stackWriteLow := by
    cases hlater : (s.next w).core.cycle.kind <;> rw [hlater] at hafter <;>
      first | rfl | cases hafter
  have hacted := Core.acted_of_push (s.byte w) h.known h.pushes.plain.1 hpattern (Or.inl hkind)
  rw [hkind, Core.act_pushed h.pushes] at hacted
  refine ⟨hmore, ⟨r, wz, ?_⟩, fun _ => ?_, ?_⟩
  · rw [hsame, hacted, hkept, hlater]
    simp [CycleKind.depth]
  · rw [Core.Stages, Core.outs, hlatches, hacted]
    exact hstaged
  · rw [hlater, next, Core.leftBytes, Core.stores_of_push hpattern (Or.inl hkind), hstored,
      Core.writeByte, hkind, show s.core.latches.outHigh = _ from congrArg Prod.snd hstaged, hkept]
    simp [CycleKind.depth, Registers.pushes]

/-- With the low byte all is pushed. -/
theorem stackWriteLow (h : s.Calling w code regs bytes)
    (hkind : s.core.cycle.kind = .stackWriteLow) :
    s.ends w = true ∧ (s.next w).bytes = regs.pushes.foldl w.config.apply bytes
      ∧ (s.next w).core.regs.sp = regs.sp - 2 := by
  have hpattern : s.core.cycle.pattern = .write := h.pattern_eq hkind
  obtain ⟨-, hsame, -⟩ := follows_of_played h.pushes h.course h.played
  obtain ⟨r, wz, hkept⟩ := h.pushing.kept
  have hstored := h.pushing.stored
  have hstaged := h.pushing.stages (by rw [hkind]; rfl)
  rw [hkind] at hkept hstored
  have hdepth : regs.sp - 1 - 1 = regs.sp - 2 := by grind
  rcases h.follows hkind with ⟨hends, -⟩ | ⟨-, hnever⟩
  · refine ⟨hends, ?_, ?_⟩
    · rw [next, Core.leftBytes, Core.stores_of_push hpattern (Or.inr hkind), hstored,
        Core.writeByte, hkind, show s.core.latches.outLow = _ from congrArg Prod.fst hstaged, hkept]
      simp [CycleKind.depth, Registers.pushes, hdepth]
    · rw [hsame, Core.acted_of_push (s.byte w) h.known h.pushes.plain.1 hpattern (Or.inr hkind), hkind,
        Core.sp_act_pushed h.pushes]
      show s.core.regs.sp - 1 = _
      rw [hkept, ← hdepth]
      rfl
  · cases hlater : (s.next w).core.cycle.kind <;> rw [hlater] at hnever <;> cases hnever

/-- It takes in a byte of the target, or pushes a byte of PC. -/
theorem goes (h : s.Calling w code regs bytes) (hother : s.core.cycle.kind ≠ .opcodeFetch) :
    (s.ends w = false → (s.next w).Pushing w regs bytes)
      ∧ (s.ends w = true → ((s.next w).bytes = regs.pushes.foldl w.config.apply bytes
          ∧ (s.next w).core.regs.sp = regs.sp - 2)
        ∨ code.mnemonic = .call ∧ s.core.conditionMet = false) := by
  have hfollows := h.follows rfl
  cases hkind : s.core.cycle.kind
  case opcodeFetch => exact absurd hkind hother
  case operandLow =>
    obtain ⟨hmore, hnext⟩ := h.operandLow hkind
    exact ⟨fun _ => hnext, fun hends => by cases hmore.symm.trans hends⟩
  case operandHigh =>
    obtain ⟨hnext, hunmet⟩ := h.operandHigh hkind
    exact ⟨hnext, fun hends => Or.inr (hunmet hends)⟩
  case stackWriteHigh =>
    obtain ⟨hmore, hnext⟩ := h.stackWriteHigh hkind
    exact ⟨fun _ => hnext, fun hends => by cases hmore.symm.trans hends⟩
  case stackWriteLow =>
    obtain ⟨hends, hall⟩ := h.stackWriteLow hkind
    exact ⟨fun hmore => (by cases hmore.symm.trans hends), fun _ => Or.inl hall⟩
  -- it has no other cycles
  all_goals
    rw [hkind] at hfollows
    rcases hfollows with ⟨-, hnever⟩ | ⟨-, hnever⟩
    · cases hnever
    · cases hnever

end Calling

end Scene

/-! ## All the way -/

namespace Scene

variable {v w : Surroundings} {q : Sought} {listing : Array Byte} {regs : Registers}
  {bytes : Array Byte} {s d u : Scene} {pc : Word} {count last : Nat}

/-- A call or a restart from a device reads nothing from memory or from a port. -/
theorem Doubles.silent (h : Doubles v q listing pc s d) (hpushes : q.code.mnemonic.pushesPc = true) :
    s.core.cycle.readsMemory = false ∧ s.core.cycle.pattern ≠ .portRead := by
  have huses := h.sourced.course.uses
  have hkind := h.tracks.kind_of_pushes hpushes
  rw [h.twins.alike.kind] at hkind
  rcases hkind with hreads | hwrites
  · have hdevice : s.core.cycle.fromDevice = true := by
      rw [h.sourced.posed.fromDevice, decide_eq_true h.sourced.origin, hreads]
      rfl
    refine ⟨?_, fun hport => ?_⟩
    · rw [ActiveCycle.readsMemory, hdevice]
      cases s.core.cycle.pattern <;> rfl
    · cases hreads.symm.trans (huses.readsCode_eq_false (by rw [hport]; decide))
  · have hwrite := huses.writesMemory_iff.mp hwrites
    rw [ActiveCycle.readsMemory, hwrite]
    exact ⟨rfl, by decide⟩

/-- The scene of the same chip over another memory. -/
structure Shadows (u s : Scene) : Prop where
  core : u.core = s.core
  given : u.given = s.given

theorem Shadows.sourced {answer : List Byte} (h : u.Shadows s) (hs : s.Sourced answer) :
    u.Sourced answer := by
  obtain ⟨hcore, hgiven⟩ := h
  obtain ⟨course, posed, origin, first, later, room⟩ := hs
  rw [← hcore] at course posed origin first later room
  rw [← hgiven] at first later room
  exact ⟨course, posed, origin, first, later, room⟩

variable (hpushes : q.code.mnemonic.pushesPc = true) (hanswer : w.answer = v.answer)

include hpushes hanswer

/-- It does not matter which memory that is. -/
theorem Doubles.shadows_next (h : Doubles v q listing pc s d) (hshadows : u.Shadows s) :
    u.byte w = s.byte v ∧ u.ends w = s.ends v ∧ (u.next w).Shadows (s.next v) := by
  obtain ⟨hmemory, hport⟩ := h.silent hpushes
  obtain ⟨hcore, hgiven⟩ := hshadows
  have hbyte : u.byte w = s.byte v := by
    rw [byte, byte, hcore, hgiven, hanswer, if_neg (Bool.eq_false_iff.mp hmemory),
      if_neg (Bool.eq_false_iff.mp hmemory), if_neg hport, if_neg hport]
  refine ⟨hbyte, ?_, ?_, ?_⟩
  · rw [ends, ends, hcore, hbyte]
  · rw [Scene.next, Scene.next, hcore, hbyte]
  · rw [Scene.next, Scene.next, hcore, hgiven]

variable (hcode : Encodes v q listing) (hportable : q.code.Portable)

include hcode hportable

/-- From scene to scene the call is on its way, and at its end PC is on the stack. -/
theorem Doubles.pushing_goes (h : Doubles v q listing pc s d) (hshadows : u.Shadows s)
    (hpushing : u.Pushing w regs bytes) :
    (u.ends w = false → (u.next w).Pushing w regs bytes)
      ∧ (u.ends w = true → (u.next w).bytes = regs.pushes.foldl w.config.apply bytes
        ∨ s.core.departs q.code = false) := by
  have hspares : Spares v q d := fun hnone => by cases hnone.symm.trans hpushes
  have hplayed := h.played hcode hspares hportable
  obtain ⟨hbyte, -, -⟩ := h.shadows_next hpushes hanswer hshadows
  obtain ⟨hcourse, hposed, horigin, -⟩ := hshadows.sourced h.sourced
  have hcore := hshadows.core
  have hfound {found : Instruction} (hfound : (u.core.played (u.byte w)).instruction = some found) :
      found = q.code := by
    rw [hbyte, hcore, ← hplayed.alike.instruction] at hfound
    exact Option.some.inj (hfound.symm.trans (h.tracks.code_eq.2 (by rw [hfound]; exact Option.some_ne_none _)).known)
  have hlinks : q.code.PushesPc := by
    obtain ⟨page, hentitled⟩ := hportable.entitled
    exact hentitled.pushesPc hpushes
  by_cases hnone : s.core.instruction = none
  · obtain ⟨hmore, hnext⟩ := hpushing.goes_of_unknown hlinks hcourse horigin
      (by rw [hcore]; exact hnone) fun found hplayed => hfound hplayed
    exact ⟨fun _ => hnext, fun hends => by cases hmore.symm.trans hends⟩
  · have hbears := h.twins.bears (h.tracks.code_eq.1 (by rw [h.twins.alike.instruction]; exact hnone))
    have hknown : u.core.instruction = some q.code := by rw [hcore, hbears.known]
    have hother : u.core.cycle.kind ≠ .opcodeFetch := fun hkind => hnone <| by
      rw [hcore] at hkind
      rcases h.sourced.course.uses.opcodeFetch_iff.mp hkind with hpattern | hpattern | hpattern
      · exact h.unknown_of_takes (Or.inl ⟨Or.inl hpattern, rfl⟩)
      · exact h.unknown_of_takes (Or.inl ⟨Or.inr hpattern, rfl⟩)
      · exact h.unknown_of_takes (Or.inr ⟨hpattern, rfl⟩)
    have hnot (half : Nat) : ¬ u.core.TakesByte half := fun htakes => hnone <| by
      rw [hcore] at htakes
      exact h.unknown_of_takes htakes
    obtain ⟨hpace, -⟩ := Core.still_played hnot (u.byte w)
    have hcalling : u.Calling w q.code regs bytes :=
      ⟨hpushing, hlinks, hcourse, hposed, horigin, hknown,
        (Core.instruction_of_pace hpace).trans hknown, Core.conditionMet_of_pace hpace⟩
    obtain ⟨hgoes, hends⟩ := hcalling.goes hother
    refine ⟨hgoes, fun hend => (hends hend).imp And.left fun hcall => ?_⟩
    rw [← hbears.steered (Or.inr (by rw [hcall.1]; rfl)), ← hcore, hcall.2]

/-- Over all its scenes. -/
theorem Doubles.pushing (h : Doubles v q listing regs.pc s d) (hpushing : u.Pushing w regs bytes)
    (hshadows : u.Shadows s) (hlasts : d.Lasts v count) :
    Doubles v q listing regs.pc (s.nth v count) (d.nth v count)
      ∧ (u.nth w count).Shadows (s.nth v count) ∧ (u.nth w count).Pushing w regs bytes := by
  have hspares (d : Scene) : Spares v q d := fun hnone => by cases hnone.symm.trans hpushes
  induction count with
  | zero => exact ⟨h, hshadows, hpushing⟩
  | succ count ih =>
    obtain ⟨hbefore, hshadows', hpushing'⟩ := ih fun i hi => hlasts i (by omega)
    have hmore : (s.nth v count).ends v = false := by
      rw [← (hbefore.closed hcode (hspares _) hportable).1]
      exact hlasts count (Nat.lt_succ_self _)
    obtain ⟨-, hends, hnext⟩ := hbefore.shadows_next hpushes hanswer hshadows'
    exact ⟨hbefore.next hcode (hspares _) hportable hmore, hnext,
      (hbefore.pushing_goes hpushes hanswer hcode hportable hshadows' hpushing').1
        (hends.trans hmore)⟩

end Scene

end Z80Board
