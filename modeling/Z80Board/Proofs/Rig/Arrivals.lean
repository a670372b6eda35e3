import Z80Board.Proofs.Rig.Itineraries

/-! # From the first byte to the instruction

    Before an instruction begins, its opcode is read byte by byte, behind prefixes that have no effect
    and perhaps behind a displacement.  All that this does to the chip is to move PC and to count
    refreshes; the displacement is kept for the instruction.  So what an instruction begins with does
    not depend on the way that has led to it. -/

namespace Z80Board

/-! ## Nothing is left of a displacement -/

namespace Core

variable {c k : Core} {n t : Nat} {emitted : List Emission}

theorem echoes_self (c : Core) : c.Echoes c {} 0 0 := by
  refine ⟨⟨c.latches, c.opcode, c.cycle.lastHalf, 0, 0⟩, rfl, rfl, rfl, ?_⟩
  rw [bearing, Nat.zero_add, Nat.zero_add]
  rfl

/-- A chip that is made ready knows the displacement of an opcode if it is to read the byte behind. -/
theorem Readied.seeking (h : c.Readied k emitted) (hc : c.Mirrors c n t)
    (hnone : k.instruction = none) :
    k.displacement.isSome = true ↔ k.chain = .opcodeAfterDisplacement := by
  cases h with
  | running phase chosen =>
    obtain ⟨_, -, hfeeds⟩ := hc.working ⟨Or.inl phase, chosen⟩
    exact hfeeds.seeking hnone
  | returned phase chosen =>
    obtain ⟨_, -, hfeeds⟩ := hc.working ⟨Or.inr phase, chosen⟩
    exact hfeeds.seeking hnone
  | started | resolved | returnedResolved => exact (starts_resolveNext _).feeds.seeking hnone

end Core

variable {config : BoardConfig} {b : Board} {level : Level} {k : Core}

/-- A chip is alike itself, so what its instruction still needs is there. -/
theorem Attended.mirrors (h : Attended config b) : b.core.Mirrors b.core 0 0 := by
  induction h with
  | start built =>
    rw [Machine.build] at built
    split at built
    · cases built
    · obtain rfl := Except.ok.inj built
      refine ⟨Core.echoes_self _, ?_⟩
      rintro ⟨hphase | hphase, -⟩ <;> cases hphase
  | @edge b h level ih =>
    obtain ⟨stopping, hstep⟩ := b.moved_eq level
    obtain ⟨-, -, hcore⟩ := b.edge_parts level
    have hmoved : (b.moved level).Mirrors (b.moved level) 0 0 := by
      rw [hstep]
      exact ((ih.edge h.orderly.sound level b.inputs).finish fun _ => rfl).1
    rw [hcore]
    exact hmoved.map (f := fun c : Core => { c with data := _ }) (fun _ _ => rfl) rfl rfl rfl id
  | @set b _ host hooks f bytes _ ih =>
    exact ih.map (f := fun c : Core => { c with regs := f c.regs }) (fun _ _ => rfl) rfl rfl rfl id

/-- An instruction from memory begins without a displacement. -/
theorem Attended.undisplaced (h : Attended config b) (hopens : b.Opens level k) :
    k.displacement = none := by
  obtain ⟨emitted, ready⟩ := Core.readied_engaged hopens.engaged
  have hseeking := ready.seeking (h.mirrors.sampled b.inputs) hopens.unknown
  rw [(hopens.fetches h.orderly).chain] at hseeking
  exact Option.not_isSome_iff_eq_none.mp fun hsome => by cases hseeking.mp hsome

/-! ## Byte by byte -/

namespace Core

variable {c d : Core} {byte : Byte} {current page next : Page} {count : Nat} {code : Instruction}

/-- A byte that completes the opcode of an instruction begins its execution. -/
theorem latchResult_begun (hkind : c.cycle.kind = .opcodeFetch) :
    (c.beginExecution code).latchResult = c.beginExecution code := by
  have hsame : (c.beginExecution code).cycle.kind = .opcodeFetch :=
    (decodes_beginExecution c code).kind.trans hkind
  rw [latchResult_of_some (displacement_beginExecution c code).2.2, if_pos hsame]

/-- The chip when PC has moved over a byte that is fetched. -/
def moved (c : Core) (byte : Byte) : Core :=
  { c with
    regs := { c.regs.incrementR with pc := c.regs.pc + 1 }
    opcode := c.opcode.push byte }

/-- A byte that is fetched is looked up on its page. -/
theorem Fetches.acted_eq (h : c.Fetches page count) (byte : Byte) :
    c.acted byte = ((c.moved byte).follow (decode page byte)
      fun c next => c.follow (decode next byte) fun c _ => c).latchResult := by
  have hentry : decode c.page byte = decode page byte := by rw [h.page]
  have hdispatched : c.countRefresh.advancePc.dispatch byte = (c.moved byte).follow
      (decode page byte) fun c next => c.follow (decode next byte) fun c _ => c := by
    rw [h.moved, dispatch]
    dsimp only
    rw [hentry]
    rfl
  rw [acted_of_opcode h.unknown h.pattern, hdispatched]

/-- A displacement is kept for the instruction that is to come. -/
theorem acted_of_displacement (hnone : c.instruction = none) (hmemory : c.fromMemory = true)
    (hkind : c.cycle.kind = .operand) (hpattern : c.cycle.pattern = .read) :
    c.acted byte = { c with
      regs.pc := c.regs.pc + 1
      latches.fetched := byte
      displacement := some byte
      chain := .opcodeAfterDisplacement } := by
  have hmoved : c.movePointer = { c with regs.pc := c.regs.pc + 1 } := by
    rw [movePointer, hkind]
    exact if_pos hmemory
  rw [acted, played_eq, if_neg (by rw [hpattern]; decide), takeIn, hpattern]
  dsimp only
  rw [hmoved, latchResult_of_none (by exact hnone), if_pos (by exact hkind)]
  rfl

/-- The byte behind a displacement completes the opcode. -/
theorem acted_of_opcodeRead (hmemory : c.fromMemory = true)
    (hkind : c.cycle.kind = .opcodeFetch) (hpattern : c.cycle.pattern = .opcodeRead)
    (hpage : c.page = page) (hexecutes : (decode page byte).action = .execute) :
    c.acted byte = ({ c with
      regs.pc := c.regs.pc + 1
      opcode := c.opcode.push byte } : Core).beginExecution (decode page byte) := by
  have hentry : decode c.page byte = decode page byte := by rw [hpage]
  have hmoved : c.movePointer = { c with regs.pc := c.regs.pc + 1 } := by
    rw [movePointer, hkind]
    exact if_pos hmemory
  rw [acted, played_eq, if_neg (by rw [hpattern]; decide), takeIn, hpattern]
  dsimp only
  rw [hmoved, dispatch]
  dsimp only
  rw [hentry, follow, hexecutes]
  exact latchResult_begun hkind

/-- An entry that does not hand its byte on is followed at once. -/
theorem follow_of_keeps (hkeeps : ∀ next, code.action ≠ .redecode next)
    (again again' : Core → Page → Core) : c.follow code again = c.follow code again' := by
  rw [follow, follow]
  cases haction : code.action with
  | redecode next => exact absurd haction (hkeeps next)
  | execute | fetchNext | fetchDisplacement => rfl

end Core

namespace Scene

variable {w : Surroundings} {s t : Scene} {c : Core} {current page next : Page}
  {count position : Nat} {opcode : Byte} {cycles : List MachineCycle} {p : Core}
  {bytes : Array Byte} {x : Index}

/-- The byte that the scene fetches is looked up on the main page: where an instruction begins, or
    behind a prefix that turns out to have no effect. -/
structure Enters (w : Surroundings) (s : Scene) (current : Page) (position : Nat) : Prop
    extends s.core.Fetches current position where
  looks : current = .main ∧ position = 0
    ∨ (decode current (s.byte w)).action = .redecode .main

theorem Enters.acted_eq (h : s.Enters w current position) :
    s.core.acted (s.byte w) = (({ s.core.moved (s.byte w) with position := 0 } : Core).follow
      (decode .main (s.byte w)) fun c _ => c).latchResult := by
  rw [h.toFetches.acted_eq]
  rcases h.looks with ⟨rfl, rfl⟩ | hhanded
  · have hplace : ({ s.core.moved (s.byte w) with position := 0 } : Core) = s.core.moved (s.byte w) := by
      rw [Core.moved, ← h.place]
    rw [hplace, Core.follow_of_keeps (Core.main_keeps (s.byte w)) (fun c _ => c)]
  · rw [Core.follow, hhanded]

/-- A byte that is fetched takes four T-states, unless it completes an opcode. -/
theorem span_of_fetch (h : s.core.Fetches current position)
    (hlength : (s.core.acted (s.byte w)).cycle.length = s.core.cycle.length) :
    s.span w = 2 * (4 : Nat) := by
  rw [span_eq (by rw [h.pattern]; decide), hlength, h.length]

/-- What is left when a byte has led on: the same registers, with PC behind it. -/
structure Leads (w : Surroundings) (s t : Scene) : Prop where
  bytes : t.bytes = s.bytes
  regs : ∃ r, t.core.regs = { s.core.regs with pc := s.core.regs.pc + 1, r }
  halted : t.core.halted = s.core.halted
  displacement : t.core.displacement = s.core.displacement
  spells : ∀ {cycles : List MachineCycle} {p : Core} {bytes : Array Byte},
    t.Spells w cycles p bytes → s.Spells w (⟨.opcodeFetch, 4⟩ :: cycles) p bytes

/-- A prefix byte leads to the fetch of the next one. -/
theorem Enters.leads (h : s.Enters w current position)
    (hnext : (decode .main (s.byte w)).action = .fetchNext next) :
    (s.next w).core.Fetches next 1 ∧ s.Leads w (s.next w) := by
  have hacted : s.core.acted (s.byte w)
      = { s.core.moved (s.byte w) with position := 0, page := next, chain := .opcode } := by
    rw [h.acted_eq, Core.follow, hnext]
    dsimp only
    rw [Core.latchResult_of_none (by exact h.unknown), if_neg]
    rw [show (s.core.moved (s.byte w)).cycle.kind = s.core.cycle.kind from rfl, h.kind]
    decide
  have hclosed : s.core.closed (s.byte w)
      = (({ s.core.moved (s.byte w) with position := 0, page := next, chain := .opcode } : Core).stepOn.beginCycle
          .opcodeFetch 4, false) := by
    show (s.core.acted (s.byte w)).nextCycle = _
    rw [hacted, Core.nextCycle_of_none (by exact h.unknown)]
  obtain ⟨-, hdevice⟩ := Core.origin_of_fromMemory h.origin
  have hmore : s.ends w = false := by rw [ends, hclosed]
  have hcore : (s.next w).core
      = ({ s.core.moved (s.byte w) with position := 0, page := next, chain := .opcode } : Core).stepOn.beginCycle
        .opcodeFetch 4 := by rw [Scene.next, hclosed]
  refine ⟨?_, bytes_next (by rw [h.pattern]; decide), ⟨s.core.regs.incrementR.r, ?_⟩, ?_, ?_,
    fun hlater => ?_⟩
  · rw [hcore]
    refine ⟨h.unknown, rfl, rfl, rfl, h.origin, rfl, ?_, ?_, rfl⟩
    · rfl
    · show (decide ((s.core.moved (s.byte w)).origin = .device) && _) = false
      rw [show (s.core.moved (s.byte w)).origin = s.core.origin from rfl, decide_eq_false hdevice]
      rfl
  · rw [hcore]
    rfl
  · rw [hcore]
    rfl
  · rw [hcore]
    rfl
  · refine .goes (own_of_fetch h.toFetches) h.kind (span_of_fetch h.toFetches ?_) hmore hlater
    rw [hacted]
    rfl

/-! ## The opcode is complete -/

/-- The chip `c` is about to take up an instruction of the page, over these bytes, that the chip `k`
    has begun with. -/
structure TakesUp (config : BoardConfig) (bytes : Array Byte) (count : Nat) (page : Page)
    (k c : Core) : Prop where
  place : c.position = page.approach.length
  displacement : c.displacement = if page.displaced
    then some (config.byteAt bytes (k.regs.pc + (count + 2).toUInt16)) else none
  regs : ∃ r, c.regs = { k.regs with
    pc := k.regs.pc + (count + codeBytes page.approach + 1).toUInt16, r }
  halted : c.halted = k.halted
  origin : c.fromMemory = true

/-- With the cycle of the scene `t` its opcode is complete. -/
structure Arrives (w : Surroundings) (k : Core) (bytes : Array Byte) (count : Nat) (page : Page)
    (opcode : Byte) (t : Scene) (c : Core) : Prop
    extends TakesUp w.config bytes count page k c where
  same : t.bytes = bytes
  acted : t.core.acted (t.byte w) = c.beginExecution (decode page opcode)
  own : t.core.cycle.readsElsewhere = false
  kind : t.core.cycle.kind = .opcodeFetch
  cycle : c.cycle = t.core.cycle
  reads : t.core.cycle.pattern = .fetch ∨ t.core.cycle.pattern = .opcodeRead

/-- A byte of the main page completes its opcode at once. -/
theorem Enters.completes (h : s.Enters w current position) (hfresh : s.core.displacement = none)
    (hexecutes : (decode .main (s.byte w)).action = .execute) :
    Arrives w s.core s.bytes 0 .main (s.byte w) s { s.core.moved (s.byte w) with position := 0 } := by
  refine ⟨⟨rfl, hfresh, ⟨s.core.regs.incrementR.r, rfl⟩, rfl, h.origin⟩, rfl, ?_,
    own_of_fetch h.toFetches, h.kind, rfl, Or.inl h.pattern⟩
  rw [h.acted_eq, Core.follow, hexecutes]
  exact Core.latchResult_begun h.kind

/-- A byte behind a prefix completes the opcode. -/
theorem Leads.completes (h : s.Leads w t) (hfetches : t.core.Fetches page 1)
    (hplace : page.approach = [⟨.opcodeFetch, 4⟩]) (hplain : page.displaced = false)
    (hfresh : s.core.displacement = none)
    (hexecutes : (decode page (t.byte w)).action = .execute) :
    Arrives w s.core s.bytes 0 page (t.byte w) t (t.core.moved (t.byte w)) := by
  obtain ⟨r, hregs⟩ := h.regs
  refine ⟨⟨?_, ?_, ⟨t.core.regs.incrementR.r, ?_⟩, h.halted, hfetches.origin⟩, h.bytes, ?_,
    own_of_fetch hfetches, hfetches.kind, rfl, Or.inl hfetches.pattern⟩
  · rw [hplace]
    exact hfetches.place
  · rw [hplain]
    exact h.displacement.trans hfresh
  · have htwo : s.core.regs.pc + 1 + 1 = s.core.regs.pc + (0 + 1 + 1 : Nat).toUInt16 :=
      UInt16.add_assoc _ 1 1
    rw [hplace]
    show _ = ({ s.core.regs with
      pc := s.core.regs.pc + (0 + 1 + 1 : Nat).toUInt16, r := _ } : Registers)
    rw [← htwo]
    rw [Core.moved, hregs]
    rfl
  · rw [hfetches.acted_eq, Core.follow, hexecutes]
    exact Core.latchResult_begun hfetches.kind

/-- A byte that is read from memory comes from where PC is. -/
theorem byte_of_code (hkind : s.core.cycle.kind.readsCode = true)
    (hpattern : s.core.cycle.pattern = .read ∨ s.core.cycle.pattern = .opcodeRead)
    (hmemory : s.core.cycle.fromDevice = false) :
    s.byte w = w.config.byteAt s.bytes s.core.regs.pc
      ∧ s.core.cycle.readsElsewhere = false := by
  have hreads : s.core.cycle.readsMemory = true := by
    rw [ActiveCycle.readsMemory, hmemory]
    rcases hpattern with hpattern | hpattern <;> rw [hpattern] <;> rfl
  have haddress : s.core.readAddress = s.core.regs.pc := by
    rw [Core.readAddress]
    cases hcase : s.core.cycle.kind <;> rw [hcase] at hkind <;> first | rfl | cases hkind
  constructor
  · rw [byte, if_pos hreads, Core.cycleAddress]
    rcases hpattern with hpattern | hpattern <;> rw [hpattern] <;> exact congrArg _ haddress
  · rw [ActiveCycle.readsElsewhere]
    rcases hpattern with hpattern | hpattern <;> rw [hpattern] <;> exact hmemory

/-- The chip of the scene `u` is about to read a displacement, for an instruction of the bit page that
    the chip `k` has begun with. -/
structure Displaces (k : Core) (bytes : Array Byte) (page : Page) (u : Scene) : Prop where
  same : u.bytes = bytes
  unknown : u.core.instruction = none
  page : u.core.page = page
  place : u.core.position = 2
  origin : u.core.fromMemory = true
  kind : u.core.cycle.kind = .operand
  pattern : u.core.cycle.pattern = .read
  memory : u.core.cycle.fromDevice = false
  length : u.core.cycle.length = 3
  regs : ∃ r, u.core.regs = { k.regs with pc := k.regs.pc + 2, r }
  halted : u.core.halted = k.halted

/-- Behind an index prefix CB leads to the displacement. -/
theorem Leads.displaces (h : s.Leads w t) (hfetches : t.core.Fetches x.page 1)
    (hbits : t.byte w = 0xCB) :
    Displaces s.core s.bytes x.bitPage (t.next w)
      ∧ ∀ {cycles p bytes}, (t.next w).Spells w cycles p bytes →
        t.Spells w (⟨.opcodeFetch, 4⟩ :: cycles) p bytes := by
  obtain ⟨r, hregs⟩ := h.regs
  obtain ⟨-, hdevice⟩ := Core.origin_of_fromMemory hfetches.origin
  have hleads : (decode x.page (t.byte w)).action = .fetchDisplacement x.bitPage := by
    rw [hbits]
    cases x <;> exact action_of_lead rfl
  have hacted : t.core.acted (t.byte w)
      = { t.core.moved (t.byte w) with page := x.bitPage, chain := .displacement } := by
    rw [hfetches.acted_eq, Core.follow, hleads]
    dsimp only
    rw [Core.latchResult_of_none (by exact hfetches.unknown), if_neg]
    rw [show (t.core.moved (t.byte w)).cycle.kind = t.core.cycle.kind from rfl, hfetches.kind]
    decide
  have hclosed : t.core.closed (t.byte w)
      = (({ t.core.moved (t.byte w) with
          page := x.bitPage, chain := .displacement } : Core).stepOn.beginCycle .operand 3, false) := by
    show (t.core.acted (t.byte w)).nextCycle = _
    rw [hacted, Core.nextCycle_of_none (by exact hfetches.unknown)]
  have hcore : (t.next w).core = ({ t.core.moved (t.byte w) with
      page := x.bitPage, chain := .displacement } : Core).stepOn.beginCycle .operand 3 := by
    rw [Scene.next, hclosed]
  have hmore : t.ends w = false := by rw [ends, hclosed]
  refine ⟨⟨(bytes_next (by rw [hfetches.pattern]; decide)).trans h.bytes, ?_, ?_, ?_, ?_, ?_, ?_, ?_,
    ?_, ⟨t.core.regs.incrementR.r, ?_⟩, ?_⟩, fun hlater => ?_⟩
  case refine_11 =>
    refine .goes (own_of_fetch hfetches) hfetches.kind (span_of_fetch hfetches ?_) hmore hlater
    rw [hacted]
    rfl
  all_goals rw [hcore]
  · exact hfetches.unknown
  · rfl
  · exact congrArg (· + 1) hfetches.place
  · exact hfetches.origin
  · rfl
  · rfl
  · show (decide (t.core.origin = .device) && _) = false
    rw [decide_eq_false hdevice]
    rfl
  · rfl
  · have htwo : s.core.regs.pc + 1 + 1 = s.core.regs.pc + 2 := UInt16.add_assoc _ 1 1
    rw [← htwo]
    show (t.core.moved (t.byte w)).regs = _
    rw [Core.moved, hregs]
    rfl
  · exact h.halted

/-- The chip of the scene `v` has read that displacement, and is about to read the byte behind it. -/
structure Displaced (w : Surroundings) (k : Core) (bytes : Array Byte) (page : Page) (v : Scene) :
    Prop where
  same : v.bytes = bytes
  page : v.core.page = page
  place : v.core.position = 3
  origin : v.core.fromMemory = true
  kind : v.core.cycle.kind = .opcodeFetch
  pattern : v.core.cycle.pattern = .opcodeRead
  memory : v.core.cycle.fromDevice = false
  displacement : v.core.displacement = some (w.config.byteAt bytes (k.regs.pc + 2))
  regs : ∃ r, v.core.regs = { k.regs with pc := k.regs.pc + 3, r }
  halted : v.core.halted = k.halted

/-- The displacement is read. -/
theorem Displaces.displaced {u : Scene} {k : Core} (h : Displaces k bytes page u) :
    Displaced w k bytes page (u.next w)
      ∧ ∀ {cycles p left}, (u.next w).Spells w cycles p left →
        u.Spells w (⟨.operand, 3⟩ :: cycles) p left := by
  obtain ⟨r, hregs⟩ := h.regs
  obtain ⟨-, hdevice⟩ := Core.origin_of_fromMemory h.origin
  obtain ⟨hbyte, hown⟩ := byte_of_code (w := w) (s := u) (by rw [h.kind]; rfl) (Or.inl h.pattern)
    h.memory
  rw [show u.core.regs.pc = k.regs.pc + 2 by rw [hregs], h.same] at hbyte
  have hacted : u.core.acted (u.byte w) = _ :=
    Core.acted_of_displacement h.unknown h.origin h.kind h.pattern
  have hclosed : u.core.closed (u.byte w) = ((u.core.acted (u.byte w)).stepOn.beginCycle
      .opcodeFetch 3, false) := by
    show (u.core.acted (u.byte w)).nextCycle = _
    rw [Core.nextCycle_of_none (by rw [hacted]; exact h.unknown), hacted]
  have hcore : (u.next w).core = (u.core.acted (u.byte w)).stepOn.beginCycle .opcodeFetch 3 := by
    rw [Scene.next, hclosed]
  have hmore : u.ends w = false := by rw [ends, hclosed]
  rw [hacted] at hcore
  refine ⟨⟨(bytes_next (by rw [h.pattern]; decide)).trans h.same, ?_, ?_, ?_, ?_, ?_, ?_, ?_,
    ⟨r, ?_⟩, ?_⟩, fun hlater => ?_⟩
  case refine_10 =>
    refine .goes hown h.kind ?_ hmore hlater
    rw [span_eq (by rw [h.pattern]; decide), hacted]
    exact congrArg (2 * ·) h.length
  all_goals rw [hcore]
  · exact h.page
  · exact congrArg (· + 1) h.place
  · exact h.origin
  · rfl
  · rfl
  · show (decide (u.core.origin = .device) && _) = false
    rw [decide_eq_false hdevice]
    rfl
  · exact congrArg some hbyte
  · have hthree : k.regs.pc + 2 + 1 = k.regs.pc + 3 := UInt16.add_assoc _ 2 1
    rw [← hthree]
    show ({ u.core.regs with pc := u.core.regs.pc + 1 } : Registers) = _
    rw [hregs]
  · exact h.halted

/-- The byte behind it completes the opcode. -/
theorem Displaced.completes {v : Scene} {k : Core} (h : Displaced w k bytes x.bitPage v) :
    Arrives w k bytes 0 x.bitPage (w.config.byteAt bytes (k.regs.pc + 3)) v
      { v.core with
        regs.pc := v.core.regs.pc + 1
        opcode := v.core.opcode.push (v.byte w) } := by
  obtain ⟨r, hregs⟩ := h.regs
  obtain ⟨hbyte, hown⟩ := byte_of_code (w := w) (s := v) (by rw [h.kind]; rfl) (Or.inr h.pattern)
    h.memory
  rw [show v.core.regs.pc = k.regs.pc + 3 by rw [hregs], h.same] at hbyte
  have hexecutes : (decode x.bitPage (v.byte w)).action = .execute := by
    have hentitled : Listing.Entitled Catalog.forms x.bitPage (decode x.bitPage (v.byte w)) := by
      cases x <;> exact entitled_of_alone rfl rfl
    exact hentitled.action
  refine ⟨⟨?_, ?_, ⟨r, ?_⟩, h.halted, h.origin⟩, h.same, ?_, hown, h.kind, rfl, Or.inr h.pattern⟩
  · have happroach : x.bitPage.approach.length = 3 := by cases x <;> rfl
    rw [happroach]
    exact h.place
  · have hdisplaced : x.bitPage.displaced = true := by cases x <;> rfl
    rw [if_pos hdisplaced]
    exact h.displacement
  · have hfour : k.regs.pc + 3 + 1 = k.regs.pc + (0 + codeBytes x.bitPage.approach + 1).toUInt16 := by
      have happroach : codeBytes x.bitPage.approach = 3 := by cases x <;> rfl
      rw [happroach]
      exact UInt16.add_assoc _ 3 1
    rw [← hfour]
    show ({ v.core.regs with pc := v.core.regs.pc + 1 } : Registers) = _
    rw [hregs]
  · rw [← hbyte]
    exact Core.acted_of_opcodeRead h.origin h.kind h.pattern h.page hexecutes

/-! ## Any opcode -/

/-- Every prefix without effect puts off the instruction by one byte. -/
theorem Arrives.behind {k : Core} {v : Scene} (h : Arrives w t.core bytes count page opcode v c)
    (hregs : ∃ r, t.core.regs = { k.regs with pc := k.regs.pc + 1, r })
    (hhalted : t.core.halted = k.halted) : Arrives w k bytes (count + 1) page opcode v c := by
  obtain ⟨r, hregs⟩ := hregs
  have hpc (n : Nat) : k.regs.pc + 1 + n.toUInt16 = k.regs.pc + (n + 1).toUInt16 := by
    rw [UInt16.add_assoc, Nat.add_comm]
    exact congrArg (k.regs.pc + ·) (UInt16.ofNat_add 1 n).symm
  obtain ⟨r', hregs'⟩ := h.regs
  refine ⟨⟨h.place, ?_, ⟨r', ?_⟩, h.halted.trans hhalted, h.origin⟩, h.same, h.acted, h.own, h.kind,
    h.cycle, h.reads⟩
  · rw [h.displacement, hregs]
    dsimp only
    rw [hpc, Nat.add_right_comm]
  · rw [hregs', hregs]
    dsimp only
    rw [hpc, show count + codeBytes page.approach + 1 + 1 = count + 1 + codeBytes page.approach + 1 by
      omega]

/-- A prefix byte at PC leads to the fetch behind it. -/
theorem Enters.selects (h : s.Enters w current position) {pc : Word} {byte : Byte}
    (hpc : s.core.regs.pc = pc) (hbyte : w.config.byteAt s.bytes pc = byte)
    (hlead : Page.main.lead? byte = some (.fetchNext next)) :
    (s.next w).core.Fetches next 1 ∧ s.Leads w (s.next w)
      ∧ (s.next w).byte w = w.config.byteAt s.bytes (pc + 1) := by
  rw [← hpc, ← byte_of_fetch h.toFetches] at hbyte
  have hnext : (decode .main (s.byte w)).action = .fetchNext next := by
    rw [hbyte]
    exact action_of_lead hlead
  obtain ⟨hfetches, hleads⟩ := h.leads hnext
  obtain ⟨r, hregs⟩ := hleads.regs
  refine ⟨hfetches, hleads, ?_⟩
  rw [byte_of_fetch hfetches, hleads.bytes, hregs, ← hpc]

/-- Whatever the opcode is, it is read as the grammar has it, and with its last byte the chip takes up
    the instruction.  By induction on the prefixes without effect. -/
theorem Enters.arrives {pc : Word} (h : s.Enters w current position)
    (hfresh : s.core.displacement = none) (hbytes : s.bytes = bytes) (hpc : s.core.regs.pc = pc)
    (hscans : Scans (w.config.byteAt bytes) pc count page opcode) :
    ∃ t c, Arrives w s.core bytes count page opcode t c
      ∧ ∀ {cycles p left}, t.Spells w cycles p left →
        s.Spells w (List.replicate count ⟨.opcodeFetch, 4⟩ ++ (page.approach ++ cycles)) p left := by
  have hindex {x : Index} : Page.main.lead? x.selector = some (.fetchNext x.page) := by
    cases x <;> rfl
  -- on the way to the opcode: only a prefix that is ignored starts the search again
  induction hscans generalizing s current position with
  | @main pc plain =>
    have hbyte : s.byte w = w.config.byteAt bytes pc := by
      rw [byte_of_fetch h.toFetches, hpc, hbytes]
    have hentitled := (Scans.main plain).entitled
    rw [← hbyte] at hentitled ⊢
    rw [← hbytes]
    exact ⟨s, _, h.completes hfresh hentitled.action, id⟩
  | cb selects =>
    subst hbytes
    obtain ⟨hfetches, hleads, hbyte⟩ := h.selects hpc selects rfl
    have hentitled := (Scans.cb selects).entitled
    rw [← hbyte] at hentitled ⊢
    exact ⟨_, _, hleads.completes hfetches rfl rfl hfresh hentitled.action, hleads.spells⟩
  | ed selects =>
    subst hbytes
    obtain ⟨hfetches, hleads, hbyte⟩ := h.selects hpc selects rfl
    have hentitled := (Scans.ed selects).entitled
    rw [← hbyte] at hentitled ⊢
    exact ⟨_, _, hleads.completes hfetches rfl rfl hfresh hentitled.action, hleads.spells⟩
  | @displaced pc x selects bits =>
    subst hbytes
    obtain ⟨hfetches, hleads, hbyte⟩ := h.selects hpc selects hindex
    obtain ⟨hdisplaces, hspells⟩ := hleads.displaces hfetches (hbyte.trans bits)
    obtain ⟨hdisplaced, hspells'⟩ := hdisplaces.displaced (w := w)
    have harrives := hdisplaced.completes
    rw [hpc] at harrives
    refine ⟨_, _, harrives, fun hlater => ?_⟩
    have happroach : x.bitPage.approach = [⟨.opcodeFetch, 4⟩, ⟨.opcodeFetch, 4⟩, ⟨.operand, 3⟩] := by
      cases x <;> rfl
    rw [happroach]
    exact hleads.spells (hspells (hspells' hlater))
  | @own pc x selects other owns =>
    subst hbytes
    obtain ⟨hfetches, hleads, hbyte⟩ := h.selects hpc selects hindex
    have hentitled := (Scans.own selects other owns).entitled
    have happroach : x.page.approach = [⟨.opcodeFetch, 4⟩] := by cases x <;> rfl
    rw [← hbyte] at hentitled ⊢
    refine ⟨_, _, hleads.completes hfetches happroach (by cases x <;> rfl) hfresh hentitled.action, ?_⟩
    rw [happroach]
    exact hleads.spells
  | @ignored pc x count page opcode selects other foreign rest ih =>
    subst hbytes
    obtain ⟨hfetches, hleads, hbyte⟩ := h.selects hpc selects hindex
    obtain ⟨r, hregs⟩ := hleads.regs
    have hhanded : (decode x.page ((s.next w).byte w)).action = .redecode .main := by
      rw [hbyte]
      exact action_of_foreign (by cases x <;> exact if_neg other) foreign
    obtain ⟨t, c, harrives, hspells⟩ := ih (s := s.next w) ⟨hfetches, Or.inr hhanded⟩
      (hleads.displacement.trans hfresh) hleads.bytes (by rw [hregs, hpc])
    exact ⟨t, c, harrives.behind ⟨r, hregs⟩ hleads.halted, fun hlater => hleads.spells (hspells hlater)⟩

end Scene

end Z80Board
