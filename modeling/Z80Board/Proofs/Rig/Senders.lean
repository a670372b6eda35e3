import Z80Board.Proofs.Chip.FlipFlops
import Z80Board.Proofs.Rig.Pushes
import Z80Board.Proofs.Rig.Transfers

/-! # What a device sends

    In mode 0 a device sends an instruction for an INT, and nothing is known of the bytes that it sends.
    But if they come to be a restart, or a call that is taken, the PC at which the interrupt was
    accepted is on the stack when the instruction is complete. -/

namespace Z80Board

namespace Core

variable {c : Core} {code : Instruction} {byte : Byte}

/-- What the chip knows of an instruction is in the tables, and its timing has been chosen. -/
def Versed (c : Core) : Prop :=
  ∀ code, c.instruction = some code →
    (∃ page, Listing.Entitled Catalog.forms page code) ∧ c.Steered code

theorem versed_of_unknown (hnone : c.instruction = none) : c.Versed :=
  fun _ hcode => by cases hnone.symm.trans hcode

theorem versed_follow (hnone : c.instruction = none) {page : Page} {again : Core → Page → Core}
    (hagain : ∀ page, (again { c with position := 0 } page).Versed) :
    (c.follow (decode page byte) again).Versed := by
  unfold follow
  cases haction : (decode page byte).action with
  | execute =>
    have hentitled := entitled_of_execute haction
    have hbegins : Begins _ c (c.beginExecution (decode page byte)) := begins_beginExecution hentitled
    intro code hcode
    obtain rfl := Option.some.inj (hbegins.known.symm.trans hcode)
    exact ⟨⟨page, hentitled⟩, hbegins.steered⟩
  | fetchNext | fetchDisplacement => exact versed_of_unknown hnone
  | redecode page => exact hagain page

theorem versed_dispatch (hnone : c.instruction = none) : (c.dispatch byte).Versed :=
  versed_follow (c := { c with opcode := c.opcode.push byte }) hnone fun _ =>
    versed_follow (c := { c with opcode := c.opcode.push byte, position := 0 }) hnone fun _ =>
      versed_of_unknown hnone

/-- A cycle that completes an opcode has chosen the timing of its instruction. -/
theorem versed_played (hnone : c.instruction = none) (hread : c.cycle.pattern ≠ .write) :
    (c.played byte).Versed := by
  have hadvanced (d : Core) (hnone : d.instruction = none) : d.advancePc.instruction = none := by
    rw [advancePc]
    split <;> exact hnone
  have hfetched : (c.countRefresh.takeOpcodeByte byte).Versed := by
    rw [takeOpcodeByte_of_none (c := c.countRefresh) hnone]
    exact versed_dispatch (hadvanced c.countRefresh hnone)
  have hmoved : c.movePointer.instruction = none :=
    (congrArg Imprint.instruction (imprint_movePointer c)).trans hnone
  rw [played_eq, if_neg hread, takeIn]
  cases c.cycle.pattern
  case fetch | acknowledge => exact hfetched
  case opcodeRead => exact versed_dispatch hmoved
  all_goals first
    | exact versed_of_unknown hmoved
    | exact versed_of_unknown hnone

/-- The end of a cycle changes nothing about which instruction is known. -/
theorem instruction_closed (c : Core) (byte : Byte) :
    (c.closed byte).1.instruction = (c.played byte).instruction := by
  have hlatched : (c.acted byte).instruction = (c.played byte).instruction := by
    rcases imprint_latchResult (c.played byte) with ⟨-, hsame⟩ | ⟨code, hcode, hacts⟩
    · exact congrArg Imprint.instruction hsame
    · exact congrArg Imprint.instruction hacts
  exact (congrArg Imprint.instruction (imprint_nextCycle _)).trans hlatched

end Core

namespace Scene

variable {config : BoardConfig} {w : Surroundings} {code : Instruction} {regs : Registers}
  {bytes : Array Byte} {s : Scene}

/-- A scene is followed by one on course, which fetches nothing if the instruction is known. -/
theorem course_next (hcourse : s.core.Course 0) (hmore : s.ends w = false) :
    (s.next w).core.Course 0
      ∧ ∀ code, (s.next w).core.instruction = some code →
        (s.next w).core.cycle.kind ≠ .opcodeFetch := by
  obtain ⟨d, hcloses, hlogic, -⟩ := hcourse.through (P := fun _ _ => True) (s.byte w) trivial
    fun _ _ _ => trivial
  obtain ⟨-, hnext, -⟩ := goes_of_closes hcloses hlogic hmore
  refine ⟨hnext, fun code hknown => ?_⟩
  have hsame : d.logic.instruction = (s.core.played (s.byte w)).logic.instruction
      ∧ d.logic.position = (s.core.played (s.byte w)).logic.position := by
    rw [hlogic]
    exact ⟨rfl, rfl⟩
  have hbefore : d.instruction = some code :=
    hsame.1.trans ((s.core.instruction_closed _).symm.trans hknown)
  have hplace : (s.next w).core.position = d.position + 1 :=
    (Core.position_closed (c := s.core)).trans (congrArg (· + 1) hsame.2.symm)
  obtain ⟨hcycles, -⟩ := hnext.scheduled code hknown
  have hcurrent := hnext.current
  rw [Core.plan, hknown] at hcurrent
  dsimp only at hcurrent
  rw [hcycles, hplace] at hcurrent
  exact hcloses.course.later_kind hbefore hcurrent

/-- A device sends an instruction that may be a call or a restart, from these registers and these
    bytes of memory on. -/
structure Sends (config : BoardConfig) (regs : Registers) (bytes : Array Byte) (s : Scene) :
    Prop where
  course : s.core.Course 0
  posed : s.core.Posed
  origin : s.core.origin = .device
  listed : ∀ code, s.core.instruction = some code →
    (∃ page, Listing.Entitled Catalog.forms page code) ∧ s.core.cycle.kind ≠ .opcodeFetch
  met : ∀ code, s.core.instruction = some code → code.mnemonic = .call →
    s.core.conditionMet = code.taken regs
  pushing : (∀ code, s.core.instruction = some code → code.mnemonic.pushesPc = true) →
    s.Pushing config.alone regs bytes

/-- How many bytes have been given so far does not matter. -/
theorem Sends.congr {t : Scene} (h : s.Sends config regs bytes) (hcore : t.core = s.core)
    (hbytes : t.bytes = s.bytes) : t.Sends config regs bytes := by
  obtain ⟨core, now, given⟩ := s
  obtain ⟨core', now', given'⟩ := t
  obtain rfl : core' = core := hcore
  obtain rfl : now' = now := hbytes
  refine ⟨h.course, h.posed, h.origin, h.listed, h.met, fun hpushes => ?_⟩
  obtain ⟨kept, stages, stored⟩ := h.pushing hpushes
  exact ⟨kept, stages, stored⟩

section

variable (h : s.Sends w.config regs bytes)

include h

/-- On its way the call stays so. -/
theorem Sends.next (hmore : s.ends w = false)
    (hfound : ∀ code, (s.next w).core.instruction = some code →
      (∃ page, Listing.Entitled Catalog.forms page code)
        ∧ (code.mnemonic = .call → (s.next w).core.conditionMet = code.taken regs))
    (hpushing : (∀ code, (s.next w).core.instruction = some code → code.mnemonic.pushesPc = true) →
      (s.next w).Pushing w regs bytes) : (s.next w).Sends w.config regs bytes := by
  obtain ⟨hcourse, hkind⟩ := course_next h.course hmore
  refine ⟨hcourse, Core.posed_closed hmore, (Core.origin_closed (c := s.core)).trans h.origin,
    fun code hknown => ⟨(hfound code hknown).1, hkind code hknown⟩,
    fun code hknown => (hfound code hknown).2, fun hpushes => ?_⟩
  obtain ⟨kept, stages, stored⟩ := hpushing hpushes
  exact ⟨kept, stages, stored⟩

/-- While the opcode is not complete nothing is pushed, and with it the timing is chosen. -/
theorem Sends.goes_of_unknown (hnone : s.core.instruction = none) :
    (s.ends w = false → (s.next w).Sends w.config regs bytes)
      ∧ (s.ends w = true → ∀ code, (s.next w).core.instruction = some code →
        code.mnemonic.pushesPc = false) := by
  have hpushing : s.Pushing w regs bytes := by
    obtain ⟨kept, stages, stored⟩ := h.pushing fun code hknown => by cases hnone.symm.trans hknown
    exact ⟨kept, stages, stored⟩
  have hreads := readsCode_of_unknown h.course hnone
  have hread : s.core.cycle.pattern ≠ .write := fun hwrite => by
    cases hreads.symm.trans (h.course.uses.readsCode_eq_false (by rw [hwrite]; decide))
  have hsame : (s.next w).core.instruction = (s.core.played (s.byte w)).instruction :=
    s.core.instruction_closed _
  cases hplayed : (s.core.played (s.byte w)).instruction with
  | none =>
    -- it may still become a call
    have hrst : (decode .main 0xC7).PushesPc :=
      (entitled_of_alone (by decide) rfl).pushesPc (by decide +kernel)
    obtain ⟨hmore, hnext⟩ := hpushing.goes_of_unknown hrst h.course h.origin hnone
      fun found hfound => by cases hplayed.symm.trans hfound
    refine ⟨fun _ => h.next hmore (fun code hknown => ?_) fun _ => hnext,
      fun hends => by cases hmore.symm.trans hends⟩
    cases (hsame.trans hplayed).symm.trans hknown
  | some found =>
    obtain ⟨hentitled, hsteered⟩ := Core.versed_played hnone hread found hplayed
    have hfound {code : Instruction} (hknown : (s.next w).core.instruction = some code) :
        code = found :=
      Option.some.inj (hknown.symm.trans (hsame.trans hplayed))
    cases hpushes : found.mnemonic.pushesPc with
    | false =>
      refine ⟨fun hmore => h.next hmore (fun code hknown => ⟨hfound hknown ▸ hentitled, fun hm => ?_⟩)
        fun hall => ?_, fun _ code hknown => hfound hknown ▸ hpushes⟩
      · rw [hfound hknown] at hm
        rw [hm] at hpushes
        cases hpushes
      · cases hpushes.symm.trans (hall found (hsame.trans hplayed))
    | true =>
      obtain ⟨page, hlisted⟩ := hentitled
      have hcode := hlisted.pushesPc hpushes
      obtain ⟨hmore, hnext⟩ := hpushing.goes_of_unknown hcode h.course h.origin hnone
        fun code hother => Option.some.inj (hother.symm.trans hplayed)
      refine ⟨fun _ => h.next hmore (fun code hknown => ?_) fun _ => hnext,
        fun hends => by cases hmore.symm.trans hends⟩
      obtain rfl := hfound hknown
      refine ⟨⟨page, hlisted⟩, fun hm => ?_⟩
      obtain ⟨-, hregs, -, hmet, -⟩ := follows_of_played hcode h.course hplayed
      -- the opcode is complete, and the cycle does nothing else
      obtain ⟨-, hfetch⟩ := Core.prepares_acted hcode h.origin h.course.uses hreads hnone
        fun other hother => Option.some.inj (hother.symm.trans hplayed)
      have hkind : (s.core.played (s.byte w)).cycle.kind = .opcodeFetch :=
        (Core.kind_of_use (s.core.use_played _)).trans
          (hfetch (by rw [hplayed]; exact Option.some_ne_none _))
      have hacted : s.core.acted (s.byte w) = s.core.played (s.byte w) := by
        rw [Core.acted, Core.latchResult_of_some hplayed, if_pos hkind]
      obtain ⟨r, wz, hkept⟩ := hnext.kept
      have hflags : (s.core.played (s.byte w)).regs.f = regs.f := by
        rw [← hacted, ← hregs, hkept]
      rw [hmet, hsteered (Or.inr (by rw [hm]; rfl)), Core.departs, hm]
      exact Core.holds_eq regs (by rw [hm]; decide) hflags

/-- What is known is executed, and if it leaves PC is on the stack in the end. -/
theorem Sends.goes_of_known (hcode : s.core.instruction = some code) :
    (s.next w).core.instruction = some code
      ∧ (s.ends w = false → (s.next w).Sends w.config regs bytes)
      ∧ (s.ends w = true → code.mnemonic = .rst ∨ code.mnemonic = .call ∧ code.taken regs = true →
        (s.next w).bytes = regs.pushes.foldl w.config.apply bytes
          ∧ (s.next w).core.regs.sp = regs.sp - 2) := by
  obtain ⟨⟨page, hlisted⟩, hother⟩ := h.listed code hcode
  have hnot (half : Nat) : ¬ s.core.TakesByte half := fun htakes =>
    hother (htakes.kind h.course.uses)
  obtain ⟨hpace, -⟩ := Core.still_played hnot (s.byte w)
  have hplayed := (Core.instruction_of_pace hpace).trans hcode
  have hkept := Core.conditionMet_of_pace hpace
  have hsame : (s.next w).core.instruction = some code :=
    (s.core.instruction_closed _).trans hplayed
  have hfound {code' : Instruction} (hknown : (s.next w).core.instruction = some code') :
      code' = code :=
    Option.some.inj (hknown.symm.trans hsame)
  cases hpushes : code.mnemonic.pushesPc with
  | false =>
    refine ⟨hsame, fun hmore => h.next hmore (fun code' hknown => ?_) fun hall => ?_,
      fun _ hleaves => ?_⟩
    · obtain rfl := hfound hknown
      refine ⟨⟨page, hlisted⟩, fun hm => ?_⟩
      rw [hm] at hpushes
      cases hpushes
    · cases hpushes.symm.trans (hall code hsame)
    · rcases hleaves with hm | ⟨hm, -⟩ <;> rw [hm] at hpushes <;> cases hpushes
  | true =>
    have hpushing : s.Pushing w regs bytes := by
      obtain ⟨kept, stages, stored⟩ := h.pushing fun code' hknown => by
        obtain rfl := Option.some.inj (hcode.symm.trans hknown)
        exact hpushes
      exact ⟨kept, stages, stored⟩
    have hlinks := hlisted.pushesPc hpushes
    have hcalling : s.Calling w code regs bytes :=
      ⟨hpushing, hlinks, h.course, h.posed, h.origin, hcode, hplayed, hkept⟩
    obtain ⟨hgoes, hends⟩ := hcalling.goes hother
    obtain ⟨-, -, -, hmet, -⟩ := follows_of_played hlinks h.course hplayed
    refine ⟨hsame, fun hmore => h.next hmore (fun code' hknown => ?_) fun _ => hgoes hmore,
      fun hend hleaves => (hends hend).resolve_right fun hstays => ?_⟩
    · obtain rfl := hfound hknown
      exact ⟨⟨page, hlisted⟩, fun hm => (hmet.trans hkept).trans (h.met code' hcode hm)⟩
    · rcases hleaves with hm | ⟨hm, htaken⟩
      · cases hm.symm.trans hstays.1
      · cases hstays.2.symm.trans ((h.met code hcode hm).trans htaken)

/-- From cycle to cycle it goes on, and PC is on the stack in the end if it leaves. -/
theorem Sends.goes :
    (s.ends w = false → (s.next w).Sends w.config regs bytes)
      ∧ (s.ends w = true → ∀ code, (s.next w).core.instruction = some code →
        code.mnemonic = .rst ∨ code.mnemonic = .call ∧ code.taken regs = true →
          (s.next w).bytes = regs.pushes.foldl w.config.apply bytes
            ∧ (s.next w).core.regs.sp = regs.sp - 2) := by
  cases hcode : s.core.instruction with
  | none =>
    obtain ⟨hgoes, hends⟩ := h.goes_of_unknown hcode
    refine ⟨hgoes, fun hend code hknown hleaves => ?_⟩
    have hother := hends hend code hknown
    rcases hleaves with hm | ⟨hm, -⟩ <;> rw [hm] at hother <;> cases hother
  | some found =>
    obtain ⟨hsame, hgoes, hends⟩ := h.goes_of_known hcode
    refine ⟨hgoes, fun hend code hknown hleaves => hends hend ?_⟩
    obtain rfl := Option.some.inj (hknown.symm.trans hsame)
    exact hleaves

end

end Scene

/-! ## All the way -/

namespace Core

variable {config : BoardConfig} {elsewhere : Byte → Prop} {c e p : Core} {code : Instruction}
  {cycles : List MachineCycle} {regs : Registers} {bytes left : Array Byte} {count : Nat} {page : Page}
  {opcode : Byte} {w : Word}

/-- An instruction that is chosen begins with its first cycle. -/
theorem cycle_resolveNext (p : Core) : p.resolveNext.Posed ∧ p.resolveNext.cycle.kind = .opcodeFetch := by
  obtain ⟨d, length, hbegins, -⟩ := p.resolveNext_begins
  rw [hbegins]
  exact ⟨posed_beginCycle d _ _, rfl⟩

/-- A chip that accepts an INT in mode 0 is sent an instruction. -/
theorem sends_resolveNext (h : p.resolveNext.origin = .device) (config : BoardConfig)
    (bytes : Array Byte) :
    Scene.Sends config p.resolveNext.regs bytes ⟨p.resolveNext, bytes, 0⟩ := by
  obtain ⟨-, hnone⟩ := p.resolveNext_masks
  rw [h] at hnone
  obtain ⟨hposed, hkind⟩ := p.cycle_resolveNext
  have hstill (code : Instruction) : p.resolveNext.instruction ≠ some code := fun hknown => by
    cases hnone.symm.trans hknown
  have hsp : p.resolveNext.regs.sp - (0 : Nat).toUInt16 = p.resolveNext.regs.sp := UInt16.sub_zero _
  refine ⟨p.course_resolveNext.1, hposed, h, fun code hknown => absurd hknown (hstill code),
    fun code hknown => absurd hknown (hstill code), fun _ => ⟨⟨p.resolveNext.regs.r,
      p.resolveNext.regs.wz, ?_⟩, fun hwrites => ?_, ?_⟩⟩
  · show p.resolveNext.regs = { p.resolveNext.regs with
      sp := p.resolveNext.regs.sp - p.resolveNext.cycle.kind.depth.toUInt16 }
    rw [hkind]
    exact congrArg (fun sp => { p.resolveNext.regs with sp }) hsp.symm
  · rw [hkind] at hwrites
    cases hwrites
  · rw [hkind]
    rfl

/-- Whatever bytes a device sends, a restart, or a call that is taken, leaves PC on the stack.  By
    induction on the cycles. -/
theorem Performs.sent (h : c.Performs config elsewhere bytes e left)
    (hsends : Scene.Sends config regs bytes ⟨c, bytes, 0⟩) (hcode : e.instruction = some code)
    (hleaves : code.mnemonic = .rst ∨ code.mnemonic = .call ∧ code.taken regs = true) :
    left = regs.pushes.foldl config.apply bytes ∧ e.regs.sp = regs.sp - 2 := by
  -- the byte that a cycle takes is what a scene of its own reads
  have hbyte {d : Core} {now : Array Byte} {byte : Byte} (htakes : d.Takes config elsewhere now byte) :
      Scene.byte ⟨config, fun _ => byte, [byte]⟩ ⟨d, now, 0⟩ = byte := by
    rw [Scene.byte]
    split
    · next hread => exact (htakes.memory hread).symm
    · split <;> rfl
  have hamid {d : Core} {now : Array Byte} (hadvances : c.Advances config elsewhere bytes d now) :
      Scene.Sends config regs bytes ⟨d, now, 0⟩ := by
    induction hadvances with
    | start => exact hsends
    | @cycle d now byte _ takes goes ih =>
      have hnext := (ih.goes (w := ⟨config, fun _ => byte, [byte]⟩)).1
      rw [Scene.ends, Scene.next, hbyte takes] at hnext
      exact (hnext goes).congr rfl rfl
  cases h with
  | @ends d now byte hadvances takes ends =>
    have hover := ((hamid hadvances).goes (w := ⟨config, fun _ => byte, [byte]⟩)).2
    rw [Scene.ends, Scene.next, hbyte takes] at hover
    exact hover ends code hcode hleaves

end Core

end Z80Board
