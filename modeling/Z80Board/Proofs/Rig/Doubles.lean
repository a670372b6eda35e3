import Z80Board.Proofs.Rig.Suppliers

/-! # An instruction from a device, and from memory

    An instruction that comes from a device goes through the scenes that it would go through if it came
    from memory, with the same bytes from elsewhere.  The acknowledge takes two periods more than the
    fetch in its place, and PC does not move over the bytes of the answer. -/

namespace Z80Board

/-- The place is that of a byte of the instruction. -/
def BoardConfig.Holds (config : BoardConfig) (q : Sought) (place : Nat) : Prop :=
  ∃ i < q.ignored + q.code.size, config.index (q.pc + i.toUInt16) = place

/-- A store leaves two memories alike where they are. -/
theorem BoardConfig.getElem?_apply_congr {config : BoardConfig} {bytes bytes' : Array Byte}
    {place : Nat} (h : bytes[place]? = bytes'[place]?) (store : Store) :
    (config.apply bytes store)[place]? = (config.apply bytes' store)[place]? := by
  by_cases hplace : place = config.index store.address
  · have hsize : config.index store.address < bytes.size
        ↔ config.index store.address < bytes'.size := by
      rw [← hplace, ← Nat.not_le, ← Nat.not_le, ← Array.getElem?_eq_none_iff,
        ← Array.getElem?_eq_none_iff, h]
    rw [apply, apply]
    split
    · exact h
    · rw [hplace, Array.getElem?_setIfInBounds_self, Array.getElem?_setIfInBounds_self]
      simp only [hsize]
  · rw [getElem?_apply_of_ne hplace, getElem?_apply_of_ne hplace, h]

/-- An instruction writes to memory only when all its bytes are read. -/
theorem Listing.Entitled.reads_first {page : Page} {code : Instruction}
    (h : Listing.Entitled Catalog.forms page code) (met : Bool) :
    (code.timing.cycles met).Pairwise fun cycle later =>
      later.kind.readsCode = true → cycle.kind.writesMemory = false := by
  have hall : ∀ p ∈ Catalog.forms, ∀ met, (p.2.timing.cycles met).Pairwise fun cycle later =>
      later.kind.readsCode = true → cycle.kind.writesMemory = false := by
    decide +kernel
  obtain ⟨m, f, hf, -, hcode⟩ := h
  rw [hcode.timing]
  exact hall (m, f) hf met

/-- An instruction that pushes PC reads no data. -/
theorem Listing.Entitled.pushes_reads {page : Page} {code : Instruction}
    (h : Listing.Entitled Catalog.forms page code) (hpushes : code.mnemonic.pushesPc = true)
    {met : Bool} {cycle : MachineCycle} (hcycle : cycle ∈ code.timing.cycles met) :
    cycle.kind.readsCode = true ∨ cycle.kind.writesMemory = true := by
  have hall : ∀ p ∈ Catalog.forms, p.1.pushesPc = true → ∀ met, ∀ cycle ∈ p.2.timing.cycles met,
      cycle.kind.readsCode = true ∨ cycle.kind.writesMemory = true := by
    decide +kernel
  obtain ⟨m, f, hf, -, hcode⟩ := h
  rw [hcode.mnemonic] at hpushes
  rw [hcode.timing] at hcycle
  exact hall (m, f) hf hpushes met cycle hcycle

/-! ## Cycles -/

namespace Core

variable {c d : Core} {byte byte' : Byte}

/-- A write and any other cycle but an acknowledge use the buses in the same way. -/
theorem Twins.pattern_of_ne (h : c.Twins d) (hother : c.cycle.pattern ≠ .acknowledge) :
    d.cycle.pattern = c.cycle.pattern := by
  rcases h.pattern with hsame | ⟨hack, -⟩
  · exact hsame
  · exact absurd hack hother

theorem Twins.write_iff (h : c.Twins d) :
    d.cycle.pattern = .write ↔ c.cycle.pattern = .write := by
  rcases h.pattern with hsame | ⟨hack, hfetch⟩
  · rw [hsame]
  · rw [hack, hfetch]
    decide

/-- Twins play a cycle alike. -/
theorem Twins.played (h : c.Twins d)
    (hnone : c.TakesByte c.cycle.pattern.sampleHalf → c.instruction = none)
    (hbyte : c.cycle.pattern ∉ [.write, .portWrite, .internal] → byte' = byte)
    (hfit : ∀ code, (d.played byte').instruction = some code → code.Portable) :
    (c.played byte).Twins (d.played byte') := by
  rw [played_eq, played_eq] at *
  by_cases hwrite : c.cycle.pattern = .write
  · rw [if_pos hwrite, if_pos (h.write_iff.mpr hwrite)]
    exact h.pushPointer
  · rw [if_neg fun hd => hwrite (h.write_iff.mp hd)] at hfit
    rw [if_neg hwrite, if_neg fun hd => hwrite (h.write_iff.mp hd)]
    exact h.takeIn hnone hbyte hfit

/-- They end it together, and come to the next one as twins. -/
theorem Twins.closed (h : c.Twins d)
    (hnone : c.TakesByte c.cycle.pattern.sampleHalf → c.instruction = none)
    (hbyte : c.cycle.pattern ∉ [.write, .portWrite, .internal] → byte' = byte)
    (hfit : ∀ code, (d.played byte').instruction = some code → code.Portable) :
    (d.closed byte').2 = (c.closed byte).2 ∧ (c.closed byte).1.Twins (d.closed byte').1 :=
  ((h.played hnone hbyte hfit).latchResult hfit).nextCycle

/-- They address memory and the ports alike, but for the bytes of the instruction. -/
theorem Twins.cycleAddress (h : c.Twins d) (huses : c.cycle.kind.Uses c.cycle.pattern)
    (hdata : c.cycle.kind.readsCode = false) : d.cycleAddress = c.cycleAddress := by
  have hother : c.cycle.kind ≠ .opcodeFetch := fun hkind => by
    rw [hkind] at hdata
    cases hdata
  have hfetch := fun hpattern => hother (huses.opcodeFetch_iff.mpr hpattern)
  have hpattern := h.pattern_of_ne fun hack => hfetch (Or.inr (Or.inl hack))
  have hused := busPattern_of_uses huses hother c
  rw [h.same] at hpattern ⊢
  rw [Core.cycleAddress, Core.cycleAddress, hpattern]
  cases hcase : c.cycle.pattern <;> rw [hcase] at hused
  case fetch => exact absurd (Or.inl hcase) hfetch
  case acknowledge => exact absurd (Or.inr (Or.inl hcase)) hfetch
  case opcodeRead => exact absurd (Or.inr (Or.inr hcase)) hfetch
  case read =>
    have hread : (c.guise d).readAddress = c.readAddress := by
      rw [readAddress, readAddress, show (c.guise d).cycle.kind = c.cycle.kind from rfl]
      cases hkind : c.cycle.kind <;> rw [hkind] at hused hdata
      case opcodeFetch => cases hdata
      case operand | operandLow | operandHigh => cases hdata
      case memoryRead | memoryReadLow | memoryReadHigh | stackReadLow | stackReadHigh => rfl
      all_goals cases hused
    exact congrArg some hread
  all_goals rfl

/-- They store the same, unless they push PC. -/
theorem Twins.stores (h : c.Twins d) (huses : c.cycle.kind.Uses c.cycle.pattern)
    (houts : d.outs = c.outs) : d.stores = c.stores := by
  by_cases hwrite : c.cycle.pattern = .write
  · have hdata := huses.readsCode_eq_false (by rw [hwrite]; decide)
    have hbyte : d.writeByte = c.writeByte := by
      rw [writeByte, writeByte, h.alike.kind]
      simp only [Core.outs, Prod.mk.injEq] at houts
      split
      case h_1 | h_2 => exact houts.2
      case h_3 => exact houts.1
    rw [Core.stores, Core.stores, if_pos hwrite, if_pos (h.write_iff.mpr hwrite),
      h.cycleAddress huses hdata, hbyte]
  · rw [stores_of_reads hwrite, stores_of_reads fun hd => hwrite (h.write_iff.mp hd)]

end Core

/-! ## Scenes from memory -/

namespace Scene

variable {w : Surroundings} {q : Sought} {bytes : Array Byte} {s d : Scene} {pc : Word}

/-- An instruction that is known is the one that is sought, when a cycle begins and when it is over. -/
theorem Tracks.code_eq (h : d.Tracks w q bytes) :
    (d.core.instruction ≠ none → d.core.Bears q)
      ∧ ((d.core.played (d.byte w)).instruction ≠ none → (d.core.played (d.byte w)).Bears q) := by
  refine ⟨fun hknown => ?_, fun hknown => ?_⟩
  · obtain ⟨dropped, hreads, -⟩ := h.reads
    cases hreads with
    | seeks sought => exact absurd sought.unknown hknown
    | finds found => exact found.toBears
  · obtain ⟨e, dropped, -, hlogic, hreads, -⟩ := h.closing
    have hsame : e.logic.instruction = (d.core.played (d.byte w)).logic.instruction := by rw [hlogic]
    cases hreads with
    | seeks sought => exact absurd (hsame.symm.trans sought.unknown) hknown
    | finds found =>
      have hback : e.logic.Bears q := ⟨found.known, found.entitled, found.steered⟩
      rw [hlogic] at hback
      exact ⟨hback.known, hback.entitled, hback.steered⟩

/-- An instruction that pushes PC reads nothing but its own bytes. -/
theorem Tracks.kind_of_pushes (h : d.Tracks w q bytes) (hpushes : q.code.mnemonic.pushesPc = true) :
    d.core.cycle.kind.readsCode = true ∨ d.core.cycle.kind.writesMemory = true := by
  cases hknown : d.core.instruction with
  | none => exact Or.inl (readsCode_of_unknown h.course hknown)
  | some code =>
    have hbears := h.code_eq.1 (by rw [hknown]; exact Option.some_ne_none _)
    exact hbears.entitled.pushes_reads hpushes ((h.course.prefix_cycles hbears.known).subset
      (List.mem_append_right _ (List.mem_singleton.mpr rfl)))

/-- The answer begins with the bytes of the instruction, as memory has them. -/
def Encodes (w : Surroundings) (q : Sought) (bytes : Array Byte) : Prop :=
  ∀ i < q.ignored + q.code.size, w.answer[i]? = some (w.config.byteAt bytes (q.pc + i.toUInt16))

/-- A read that brings in data does not touch the bytes of the instruction. -/
def Spares (w : Surroundings) (q : Sought) (d : Scene) : Prop :=
  q.code.mnemonic.pushesPc = false → d.core.cycle.pattern = .read →
    d.core.cycle.kind.readsCode = false →
      ¬ w.config.Holds q (w.config.index (d.core.cycleAddress.getD 0))

/-- The instruction comes from a device in the first scene, and from memory in the second one. -/
structure Doubles (w : Surroundings) (q : Sought) (bytes : Array Byte) (pc : Word) (s d : Scene) :
    Prop where
  twins : s.core.Twins d.core
  sourced : s.Sourced w.answer
  tracks : d.Tracks w q bytes
  given : d.given = s.given
  /-- PC stays where it was. -/
  stays : s.core.Stays pc
  unwritten : (∀ cycle ∈ d.core.ran, cycle.kind.writesMemory = false) → d.bytes = bytes
  /-- Memory is the same, but for the bytes of the instruction. -/
  agrees : q.code.mnemonic.pushesPc = false →
    ∀ place, ¬ w.config.Holds q place → s.bytes[place]? = d.bytes[place]?

/-- While bytes of the instruction are read, none has been written. -/
theorem Doubles.bytes_eq (h : Doubles w q bytes pc s d)
    (hreads : d.core.cycle.kind.readsCode = true) : d.bytes = bytes := by
  cases hknown : d.core.instruction with
  | none => exact h.tracks.untouched hknown
  | some code =>
    have hbears := h.tracks.code_eq.1 (by rw [hknown]; exact Option.some_ne_none _)
    refine h.unwritten fun cycle hmem => ?_
    have hcycles := h.tracks.course.prefix_cycles hbears.known
    have hpairwise := (hbears.entitled.reads_first d.core.conditionMet).sublist hcycles.sublist
    exact (List.pairwise_append.mp hpairwise).2.2 cycle hmem _ (List.mem_singleton.mpr rfl) hreads

/-- Both read the same byte. -/
theorem Doubles.byte_eq (h : Doubles w q bytes pc s d) (hcode : Encodes w q bytes)
    (hspares : Spares w q d) (hread : s.core.cycle.pattern ∉ [.write, .portWrite, .internal]) :
    d.byte w = s.byte w := by
  have huses := h.sourced.course.uses
  have hkind : d.core.cycle.kind = s.core.cycle.kind := h.twins.alike.kind
  cases hreads : s.core.cycle.kind.readsCode with
  | true =>
    -- a byte of the instruction
    have hreads' : d.core.cycle.kind.readsCode = true := by rw [hkind, hreads]
    obtain ⟨hpc, hroom⟩ := h.tracks.located hreads'
    have hdevice : s.core.cycle.fromDevice = true := by
      rw [h.sourced.posed.fromDevice, decide_eq_true h.sourced.origin, hreads]
      rfl
    have hnone : s.core.cycle.readsMemory = false := by
      rw [ActiveCycle.readsMemory, hdevice]
      cases s.core.cycle.pattern <;> rfl
    have hport : s.core.cycle.pattern ≠ .portRead := fun hport => by
      cases hreads.symm.trans (huses.readsCode_eq_false (by rw [hport]; decide))
    rw [h.tracks.byte_eq hreads', h.bytes_eq hreads', hpc, byte,
      if_neg (Bool.eq_false_iff.mp hnone), if_neg hport, ← h.given, hcode _ hroom]
    rfl
  | false =>
    have hfetch := fun hpattern => huses.opcodeFetch_iff.mpr hpattern
    have hother (hpattern : s.core.cycle.pattern = .fetch ∨ s.core.cycle.pattern = .acknowledge
        ∨ s.core.cycle.pattern = .opcodeRead) : False := by
      rw [hfetch hpattern] at hreads
      cases hreads
    have hpattern := h.twins.pattern_of_ne fun hack => hother (Or.inr (Or.inl hack))
    have haddress := h.twins.cycleAddress huses hreads
    have hown : d.core.cycle.fromDevice = false := by
      rw [h.tracks.posed.fromDevice, hkind, hreads, Bool.and_false]
    have hown' : s.core.cycle.fromDevice = false := by
      rw [h.sourced.posed.fromDevice, hreads, Bool.and_false]
    have hmemory : d.core.cycle.readsMemory = s.core.cycle.readsMemory := by
      rw [ActiveCycle.readsMemory, ActiveCycle.readsMemory, hpattern, hown, hown']
    rw [byte, byte, hmemory, hpattern, haddress]
    cases hcase : s.core.cycle.pattern <;> rw [hcase] at hread
    case fetch => exact (hother (Or.inl hcase)).elim
    case acknowledge => exact (hother (Or.inr (Or.inl hcase))).elim
    case opcodeRead => exact (hother (Or.inr (Or.inr hcase))).elim
    case write | portWrite | internal => exact absurd (by decide) hread
    case read =>
      have hpushes : q.code.mnemonic.pushesPc = false := by
        refine Bool.eq_false_iff.mpr fun hpushes => ?_
        rcases h.tracks.kind_of_pushes hpushes with hcode | hwrites
        · rw [hkind, hreads] at hcode
          cases hcode
        · have hwrite := h.tracks.course.uses.writesMemory_iff.mp hwrites
          cases (hpattern.trans hcase).symm.trans hwrite
      have hplace := hspares hpushes (hpattern.trans hcase) (by rw [hkind, hreads])
      rw [haddress] at hplace
      have hreads : s.core.cycle.readsMemory = true := by
        rw [ActiveCycle.readsMemory, hcase, hown']
        rfl
      rw [if_pos hreads, if_pos hreads, BoardConfig.byteAt, BoardConfig.byteAt,
        Array.getD_eq_getD_getElem?, Array.getD_eq_getD_getElem?, h.agrees hpushes _ hplace]
    case portRead =>
      have hnone : s.core.cycle.readsMemory = false := by rw [ActiveCycle.readsMemory, hcase]
      have hport : d.core.latches.port = s.core.latches.port := by
        rw [h.twins.same]
        rfl
      rw [if_neg (Bool.eq_false_iff.mp hnone), if_neg (Bool.eq_false_iff.mp hnone), hport]
      rfl

/-! ## From scene to scene -/

/-- Only a cycle of an opcode that is not complete takes in a byte of it. -/
theorem Doubles.unknown_of_takes (h : Doubles w q bytes pc s d) {half : Nat}
    (htakes : s.core.TakesByte half) : s.core.instruction = none := by
  have htakes' : d.core.TakesByte half := by
    rw [Core.TakesByte] at htakes ⊢
    rcases h.twins.pattern with hsame | ⟨hack, hfetch⟩
    · rw [hsame]
      exact htakes
    · rw [hack] at htakes
      rw [hfetch]
      simpa using htakes
  exact h.twins.alike.instruction.symm.trans (h.tracks.unknown_of_takes htakes')

/-- What is known of the second chip when its cycle is over can come from anywhere. -/
theorem Tracks.portable (h : d.Tracks w q bytes) (hportable : q.code.Portable) :
    (∀ code, d.core.instruction = some code → code.Portable)
      ∧ ∀ code, (d.core.played (d.byte w)).instruction = some code → code.Portable := by
  refine ⟨fun code hcode => ?_, fun code hcode => ?_⟩
  · have hbears := h.code_eq.1 (by rw [hcode]; exact Option.some_ne_none _)
    rw [Option.some.inj (hcode.symm.trans hbears.known)]
    exact hportable
  · have hbears := h.code_eq.2 (by rw [hcode]; exact Option.some_ne_none _)
    rw [Option.some.inj (hcode.symm.trans hbears.known)]
    exact hportable

/-- Memory stays the same, but for the bytes of the instruction. -/
theorem Doubles.agrees_next (h : Doubles w q bytes pc s d)
    (hpushes : q.code.mnemonic.pushesPc = false) {place : Nat} (hplace : ¬ w.config.Holds q place) :
    (s.next w).bytes[place]? = (d.next w).bytes[place]? := by
  have houts : d.core.outs = s.core.outs := h.twins.outs fun code hknown => by
    have hcode' := h.twins.alike.instruction.trans hknown
    have hbears := h.tracks.code_eq.1 (by rw [hcode']; exact Option.some_ne_none _)
    rw [Option.some.inj (hcode'.symm.trans hbears.known)]
    exact hpushes
  have hstores := h.twins.stores h.sourced.course.uses houts
  show (s.core.stores.foldl w.config.apply s.bytes)[place]?
    = (d.core.stores.foldl w.config.apply d.bytes)[place]?
  rw [hstores, Core.stores]
  split
  · exact w.config.getElem?_apply_congr (h.agrees hpushes place hplace) _
  · exact h.agrees hpushes place hplace

/-- As long as nothing is written, memory is as it was. -/
theorem Doubles.unwritten_next (h : Doubles w q bytes pc s d) (hmore : d.ends w = false)
    (hnone : ∀ cycle ∈ (d.next w).core.ran, cycle.kind.writesMemory = false) :
    (d.next w).bytes = bytes := by
  have hkept (hread : d.core.cycle.pattern ≠ .write) : (d.next w).bytes = d.bytes := by
    rw [next, Core.leftBytes, Core.stores_of_reads hread]
    rfl
  cases hknown : d.core.instruction with
  | none =>
    refine (hkept fun hwrite => ?_).trans (h.tracks.untouched hknown)
    have hreads := readsCode_of_unknown h.tracks.course hknown
    cases hreads.symm.trans (h.tracks.course.uses.readsCode_eq_false (by rw [hwrite]; decide))
  | some code =>
    obtain ⟨e, dropped, hcloses, hlogic, -⟩ := h.tracks.closing
    obtain ⟨-, -, hran⟩ := goes_of_closes hcloses hlogic hmore
    have hsame : e.logic.ran = (d.core.played (d.byte w)).logic.ran := by rw [hlogic]
    have hplayed : e.ran = d.core.ran := by
      obtain ⟨hpace, hplace⟩ := h.tracks.still_played (by rw [hknown]; exact Option.some_ne_none _)
      exact hsame.trans (Core.ran_congr hpace hplace)
    rw [hran, hplayed] at hnone
    have hread := hnone _ (List.mem_append_right _ (List.mem_singleton.mpr rfl))
    refine (hkept fun hwrite => ?_).trans
      (h.unwritten fun cycle hmem => hnone cycle (List.mem_append_left _ hmem))
    cases hread.symm.trans (h.tracks.course.uses.writesMemory_iff.mpr hwrite)

variable (hcode : Encodes w q bytes) (hspares : Spares w q d) (hportable : q.code.Portable)

include hcode hspares hportable

/-- Both play the cycle alike. -/
theorem Doubles.played (h : Doubles w q bytes pc s d) :
    (s.core.played (s.byte w)).Twins (d.core.played (d.byte w)) :=
  h.twins.played h.unknown_of_takes (h.byte_eq hcode hspares) (h.tracks.portable hportable).2

/-- They end the instruction together, and come to the next cycle as twins. -/
theorem Doubles.closed (h : Doubles w q bytes pc s d) :
    d.ends w = s.ends w ∧ (s.next w).core.Twins (d.next w).core :=
  h.twins.closed h.unknown_of_takes (h.byte_eq hcode hspares) (h.tracks.portable hportable).2

/-- The acknowledge puts in two waits by itself. -/
theorem Doubles.span_eq (h : Doubles w q bytes pc s d) :
    s.span w = d.span w + if s.core.cycle.pattern = .acknowledge then 4 else 0 := by
  have hlength := (h.played hcode hspares hportable).alike.length
  have hother : d.core.cycle.pattern ≠ .acknowledge := fun hack => by
    have hmemory := (Core.origin_of_fromMemory h.tracks.memory).1
    cases hmemory.symm.trans (h.tracks.course.acknowledges hack).1
  rw [span, span, hlength, if_neg hother, Nat.add_zero]

/-- At every half-period of the cycle PC has stayed where it was. -/
theorem Doubles.stays_through (h : Doubles w q bytes pc s d) {half : Nat}
    (hcourse : (s.core.through (s.byte w) half).Course half)
    (hstays : (s.core.through (s.byte w) half).Stays pc) :
    (s.core.through (s.byte w) (half + 1)).Stays pc := by
  have hearly (half : Nat) (hfirst : half ≠ 0) (hroom : half ≤ s.core.cycle.pattern.sampleHalf) :
      (s.core.through (s.byte w) half).instruction = s.core.instruction := by
    rw [Core.through_early hfirst hroom, Core.effect_zero]
    split
    · rw [Core.pushPointer]
      split <;> rfl
    · rfl
  refine hstays.effect hcourse ?_ (fun htakes => ?_) fun code hknown => ?_
  · rw [Core.fromMemory, Core.origin_through, h.sourced.origin]
  · have hhere := htakes.half_eq
    rw [Core.TakesByte, Core.pattern_through] at htakes
    rw [Core.pattern_through] at hhere
    rw [hearly half (by have := htakes; omega) (Nat.le_of_eq hhere)]
    exact h.unknown_of_takes htakes
  · have hnext : (s.core.through (s.byte w) (half + 1)).instruction = some code := hknown
    rcases Nat.lt_or_ge s.core.cycle.pattern.sampleHalf (half + 1) with hlate | hroom
    · rw [Core.through_late hlate] at hnext
      refine (h.tracks.portable hportable).2 code ?_
      exact (h.played hcode hspares hportable).alike.instruction.trans hnext
    · rw [hearly _ (Nat.succ_ne_zero half) hroom] at hnext
      exact (h.tracks.portable hportable).1 code (h.twins.alike.instruction.trans hnext)

/-- So it has at the end of the cycle, unless the instruction has left. -/
theorem Doubles.stays_next (h : Doubles w q bytes pc s d) :
    (s.ends w = false → (s.next w).core.Course 0 ∧ (s.next w).core.Stays pc)
      ∧ (s.ends w = true → (s.next w).core.departs q.code = false →
        (s.next w).core.regs.pc = pc) := by
  obtain ⟨e, hcloses, hlogic, hstays⟩ := h.sourced.course.through (s.byte w)
    (P := fun e _ => e.Stays pc) h.stays fun _ hcourse hstays =>
      h.stays_through hcode hspares hportable hcourse hstays
  have hbears (hknown : e.instruction ≠ none) : e.Bears q := by
    have hsame : e.logic.instruction = (s.core.played (s.byte w)).logic.instruction := by
      rw [hlogic]
    have hplayed := h.played hcode hspares hportable
    have hthere : (s.core.played (s.byte w)).Bears q := by
      refine hplayed.bears (h.tracks.code_eq.2 ?_)
      rw [hplayed.alike.instruction]
      exact fun hnone => hknown (hsame.trans hnone)
    have hback : (s.core.played (s.byte w)).logic.Bears q :=
      ⟨hthere.known, hthere.entitled, hthere.steered⟩
    rw [← hlogic] at hback
    exact ⟨hback.known, hback.entitled, hback.steered⟩
  obtain ⟨hnext, hend⟩ := Core.closed_of_logic hlogic
  obtain ⟨hgoes, hover⟩ := (hstays.of_logic hlogic).next hcloses hbears
  refine ⟨fun hmore => ?_, fun hends hstays => ?_⟩
  · obtain ⟨-, hcourse, -⟩ := goes_of_closes hcloses hlogic hmore
    exact ⟨hcourse, (hgoes (hend.trans hmore)).of_logic hnext.symm⟩
  · have hsame : (s.next w).core.logic.departs q.code
        = e.latchResult.nextCycle.1.logic.departs q.code := by rw [hnext]; rfl
    have hpc : (s.next w).core.logic.regs = e.latchResult.nextCycle.1.logic.regs := by
      rw [hnext]
      rfl
    exact (congrArg Registers.pc hpc).trans (hover (hend.trans hends) (hsame.symm.trans hstays))

omit hcode hspares hportable in
/-- Only the first scene of an instruction acknowledges. -/
theorem next_not_acknowledge (hcourse : (s.next w).core.Course 0) :
    (s.next w).core.cycle.pattern ≠ .acknowledge := fun hack => by
  have hplace := (hcourse.acknowledges hack).2
  rw [Scene.next, Core.position_closed] at hplace
  cases hplace

/-- From one scene to the next they stay so. -/
theorem Doubles.next (h : Doubles w q bytes pc s d) (hmore : s.ends w = false) :
    Doubles w q bytes pc (s.next w) (d.next w) := by
  obtain ⟨hends, htwins⟩ := h.closed hcode hspares hportable
  have hmore' := hends.trans hmore
  obtain ⟨hcourse, hstays⟩ := (h.stays_next hcode hspares hportable).1 hmore
  have htracks := h.tracks.goes.1 hmore'
  have hkind : d.core.cycle.kind = s.core.cycle.kind := h.twins.alike.kind
  have hgiven : (d.next w).given = (s.next w).given := by
    rw [Scene.next, Scene.next, hkind, h.given]
  have hlater : 0 < (s.next w).given := by
    show 0 < s.given + s.core.cycle.kind.readsCode.toNat
    by_cases hpattern : s.core.cycle.pattern = .acknowledge
    · rw [h.sourced.course.uses.opcodeFetch_iff.mpr (Or.inr (Or.inl hpattern))]
      exact Nat.succ_pos _
    · exact Nat.add_pos_left (h.sourced.later hpattern) _
  refine ⟨htwins, ⟨hcourse, Core.posed_closed hmore, ?_, fun hack =>
    absurd hack (next_not_acknowledge hcourse),
    fun _ => hlater, fun hreads => ?_⟩, htracks, hgiven, hstays, h.unwritten_next hmore',
    fun hpushes _ hplace => h.agrees_next hpushes hplace⟩
  · rw [Scene.next, Core.origin_closed]
    exact h.sourced.origin
  · have hroom := (htracks.located (by rw [htwins.alike.kind]; exact hreads)).2
    rw [hgiven] at hroom
    exact (List.getElem?_eq_some_iff.mp (hcode _ hroom)).1

/-- When the instruction is over, all registers are the same but for PC, and so is memory but for the
    bytes of the instruction. -/
structure Matches (w : Surroundings) (q : Sought) (pc : Word) (s d : Scene) : Prop where
  twins : s.core.Twins d.core
  completes : Core.Completes q d.core
  stays : s.core.departs q.code = false → s.core.regs.pc = pc
  agrees : q.code.mnemonic.pushesPc = false →
    ∀ place, ¬ w.config.Holds q place → s.bytes[place]? = d.bytes[place]?

theorem Doubles.matches (h : Doubles w q bytes pc s d) (hends : d.ends w = true) :
    Matches w q pc (s.next w) (d.next w) := by
  obtain ⟨hsame, htwins⟩ := h.closed hcode hspares hportable
  exact ⟨htwins, h.tracks.goes.2 hends,
    (h.stays_next hcode hspares hportable).2 (hsame.symm.trans hends),
    fun hpushes _ hplace => h.agrees_next hpushes hplace⟩

end Scene

/-! ## All the way -/

namespace Scene

variable {w : Surroundings} {q : Sought} {bytes : Array Byte} {s d : Scene} {pc : Word} {count last : Nat}

/-- Scene by scene the two stay together. -/
theorem Doubles.nth (h : Doubles w q bytes pc s d) (hcode : Encodes w q bytes)
    (hportable : q.code.Portable) (hspares : ∀ i < count, Spares w q (d.nth w i))
    (hlasts : d.Lasts w count) : Doubles w q bytes pc (s.nth w count) (d.nth w count) := by
  induction count with
  | zero => exact h
  | succ count ih =>
    have hbefore := ih (fun i hi => hspares i (by omega)) fun i hi => hlasts i (by omega)
    have hhere := hspares count (Nat.lt_succ_self _)
    refine hbefore.next hcode hhere hportable ?_
    rw [← (hbefore.closed hcode hhere hportable).1]
    exact hlasts count (Nat.lt_succ_self _)

/-- The device run is as many scenes long, and four edges longer. -/
theorem Doubles.spent (h : Doubles w q bytes pc s d) (hack : s.core.cycle.pattern = .acknowledge)
    (hcode : Encodes w q bytes) (hportable : q.code.Portable)
    (hspares : ∀ i ≤ last, Spares w q (d.nth w i)) (hlasts : d.Lasts w last) :
    s.Lasts w last ∧ s.spent w (last + 1) = d.spent w (last + 1) + 4 := by
  have hall (count : Nat) (hcount : count ≤ last) :
      Doubles w q bytes pc (s.nth w count) (d.nth w count) :=
    h.nth hcode hportable (fun i hi => hspares i (by omega)) fun i hi => hlasts i (by omega)
  refine ⟨fun i hi => ?_, ?_⟩
  · have hhere := hall i (by omega)
    rw [← (hhere.closed hcode (hspares i (by omega)) hportable).1]
    exact hlasts i hi
  · induction last with
    | zero =>
      have hfirst : Spares w q d := hspares 0 (Nat.le_refl 0)
      have hspan := h.span_eq hcode hfirst hportable
      rw [if_pos hack] at hspan
      show s.span w + 0 = d.span w + 0 + 4
      omega
    | succ last ih =>
      have hbefore := ih (fun i hi => hspares i (by omega)) (fun i hi => hlasts i (by omega))
        fun count hcount => hall count (by omega)
      have hhere := hall (last + 1) (Nat.le_refl _)
      have hother : (s.nth w (last + 1)).core.cycle.pattern ≠ .acknowledge :=
        next_not_acknowledge hhere.sourced.course
      rw [Scene.spent_succ (last + 1), Scene.spent_succ (last + 1), hbefore,
        hhere.span_eq hcode (hspares _ (Nat.le_refl _)) hportable, if_neg hother]
      omega

end Scene

end Z80Board
