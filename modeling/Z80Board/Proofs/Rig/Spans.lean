import Z80Board.Proofs.Rig.Scripts

/-! # What a scene takes

    When neither WAIT nor a bus request holds the chip, every edge runs the next half-period, but for
    the waits that an acknowledge puts in by itself.  So a board that stands at the start of a scene
    plays it in as many edges as the scene spans, and stands at the start of the next one, or has
    completed the instruction. -/

namespace Z80Board

variable {w : Surroundings} {s : Scene} {b : Board} {level : Level} {left : Nat}

/-! ## One edge -/

namespace Core

variable {c k : Core} {inputs : InputLevels} {byte byte' : Byte}

/-- A running chip that nothing hinders is engaged once it has been made ready. -/
theorem engaged_of_readied {emitted : List Emission} (hphase : c.phase = .running)
    (hreset : inputs.reset = .released) (hbusreq : inputs.busreq = .released)
    (hready : (c.sampleInputs inputs).readied level = some (k, emitted))
    (hpins : k.pins.busreq = inputs.busreq) : c.engaged level inputs = some k := by
  have hkept : (c.sampleInputs inputs).leaveReset = c.sampleInputs inputs :=
    if_neg fun hother => Phase.noConfusion (hphase.symm.trans hother)
  have hreset' : ¬ (c.sampleInputs inputs).pins.reset.isAsserted = true := by
    show ¬ inputs.reset.isAsserted = true
    rw [hreset]
    exact Bool.false_ne_true
  have hfree : ¬ (k.cycle.half = 0 ∧ k.pins.busreq.isAsserted = true) := by
    rintro ⟨-, hasserted⟩
    rw [hpins, hbusreq] at hasserted
    cases hasserted
  rw [engaged, if_neg hreset', hkept, hready]
  exact if_neg hfree

/-- If it has chosen before, that changes nothing. -/
theorem engaged_of_running (hphase : c.phase = .running) (hchosen : c.boundaryPending = false)
    (hreset : inputs.reset = .released) (hbusreq : inputs.busreq = .released) :
    c.engaged level inputs = some (c.sampleInputs inputs) := by
  have hready : (c.sampleInputs inputs).readied level = some (c.sampleInputs inputs, []) := by
    rw [readied, show (c.sampleInputs inputs).phase = .running from hphase]
    dsimp only
    rw [chosen, if_neg (Bool.eq_false_iff.mp (show (c.sampleInputs inputs).boundaryPending = false
      from hchosen))]
  exact engaged_of_readied hphase hreset hbusreq hready rfl

/-- A chip that still has to choose does so before it is engaged. -/
theorem engaged_of_pending (hphase : c.phase = .running) (hpending : c.boundaryPending = true)
    (hreset : inputs.reset = .released) (hbusreq : inputs.busreq = .released) :
    c.engaged level inputs
      = some ({ c.sampleInputs inputs with boundaryPending := false } : Core).resolveNext := by
  have hready : (c.sampleInputs inputs).readied level
      = some (({ c.sampleInputs inputs with boundaryPending := false } : Core).resolveNext,
        [⟨.instructionStart,
          ({ c.sampleInputs inputs with boundaryPending := false } : Core).resolveNext⟩]) := by
    rw [readied, show (c.sampleInputs inputs).phase = .running from hphase]
    dsimp only
    rw [chosen, if_pos (show (c.sampleInputs inputs).boundaryPending = true from hpending)]
    rfl
  exact engaged_of_readied hphase hreset hbusreq hready
    (congrArg InputLevels.busreq (leaves_resolveNext (c := { c.sampleInputs inputs with
      boundaryPending := false })).inputPins)

/-- Only the waits of an acknowledge hold a cycle when WAIT does not. -/
theorem autoWaits_of_waits (hwait : c.pins.wait = .released) (h : c.waits = true) :
    c.cycle.autoWaits ≠ 0 := by
  intro hnone
  have hheld : c.held = false := by
    rw [held, hwait]
    rfl
  have hidle : ¬ 0 < 0 := Nat.lt_irrefl 0
  rw [waits, patternHalf] at h
  split at h
  case h_1 | h_2 =>
    rw [fetchHalf.eq_def] at h
    split at h
    case h_3 =>
      rw [hnone, if_neg hidle] at h
      cases hheld.symm.trans h
    all_goals cases h
  case h_3 | h_4 =>
    rw [readHalf.eq_def] at h
    split at h
    case h_3 => cases hheld.symm.trans h
    all_goals cases h
  case h_5 =>
    rw [writeHalf.eq_def, hheld] at h
    split at h <;> cases h
  case h_6 =>
    rw [portReadHalf.eq_def] at h
    split at h
    case h_3 => cases hheld.symm.trans h
    all_goals cases h
  case h_7 =>
    rw [portWriteHalf.eq_def] at h
    split at h
    case h_4 => cases hheld.symm.trans h
    all_goals cases h
  case h_8 =>
    rw [internalHalf.eq_def] at h
    split at h <;> cases h

/-- A cycle is at least as long as its pattern. -/
theorem Course.length_played (h : c.Course 0) (byte : Byte) :
    c.cycle.pattern.minimumLength ≤ (c.played byte).cycle.length := by
  obtain ⟨d, hcloses, hlogic, -⟩ := h.through (P := fun _ _ => True) byte trivial
    fun _ _ _ => trivial
  have hroom := hcloses.course.room
  have huse : d.logic.use = (c.played byte).logic.use := by rw [hlogic]
  have hlength : d.logic.cycle.length = (c.played byte).logic.cycle.length := by rw [hlogic]
  have hpattern : d.cycle.pattern = c.cycle.pattern := by
    exact pattern_of_use (huse.trans (c.use_played byte))
  rw [hpattern] at hroom
  exact Nat.le_trans hroom (Nat.le_of_eq hlength)

/-- Nothing interrupts a chip when INT is released, or when the chip would not accept it. -/
theorem carries_on {int : Level} (hnmi : c.nmiPending = false) (hpins : c.pins.int = int)
    (hlogic : c.logic = k.logic) (hint : int = .released ∨ k.heeds = false) :
    c.resolveNext = c.carryOn := by
  rcases hint with rfl | hmasked
  · refine resolveNext_carryOn hnmi ?_
    rw [hpins]
    rfl
  · have hsame : c.logic.heeds = k.logic.heeds := by rw [hlogic]
    exact resolveNext_masked hnmi (hsame.trans hmasked)

/-- A byte that a cycle does not read does not matter. -/
theorem played_of_unread (h : c.cycle.readsMemory = false) (helse : c.cycle.readsElsewhere = false) :
    c.played byte = c.played byte' := by
  rw [played_eq, played_eq, takeIn, takeIn]
  rw [ActiveCycle.readsMemory] at h
  rw [ActiveCycle.readsElsewhere] at helse
  cases hpattern : c.cycle.pattern <;> rw [hpattern] at h helse
  case fetch | opcodeRead | read =>
    dsimp only at h helse
    rw [helse] at h
    cases h
  case acknowledge | portRead => cases helse

end Core

/-- Nothing holds the chip on the next edge. -/
structure Board.Unhindered (b : Board) : Prop where
  wait : b.inputs.wait = .released
  busreq : b.inputs.busreq = .released
  reset : b.inputs.reset = .released

/-- No input of the chip is asserted but INT. -/
def Board.Clear (b : Board) : Prop :=
  b.inputs = { int := b.inputs.int }

theorem Board.Clear.unhindered (h : b.Clear) : b.Unhindered := by
  refine ⟨?_, ?_, ?_⟩ <;> rw [h]

theorem Board.Clear.nmi (h : b.Clear) (hnmi : b.core.nmiPending = false) :
    (b.core.sampleInputs b.inputs).nmiPending = false := by
  show (b.core.nmiPending || (b.inputs.nmi.isAsserted && !b.core.nmiSeen)) = false
  rw [hnmi, h]
  rfl

namespace Scene

/-- The board plays the scene and has so many edges left of it. -/
structure Runs (w : Surroundings) (s : Scene) (left : Nat) (b : Board) : Prop where
  plays : b.Plays w.config (· = s.byte w) s.bytes s.core
  phase : b.core.phase = .running
  left : left + b.core.cycle.half
    = 2 * (s.core.played (s.byte w)).cycle.length + 2 * b.core.cycle.autoWaits
  room : b.core.cycle.half < 2 * (s.core.played (s.byte w)).cycle.length
  least : s.core.cycle.pattern.minimumLength ≤ (s.core.played (s.byte w)).cycle.length

/-- The byte that a cycle takes is that of the scene, if it matters. -/
theorem played_takes {byte : Byte} (h : s.core.Takes w.config (· = s.byte w) s.bytes byte) :
    s.core.played byte = s.core.played (s.byte w) := by
  cases hmemory : s.core.cycle.readsMemory with
  | true =>
    rw [h.memory hmemory, Scene.byte, if_pos hmemory]
  | false =>
    cases helse : s.core.cycle.readsElsewhere with
    | true => rw [h.elsewhere helse]
    | false => exact Core.played_of_unread hmemory helse

/-- A scene spans its half-periods and the waits that its cycle puts in by itself. -/
theorem span_of_underway {c : Core} (h : c.Underway) (hfirst : c.cycle.half = 0)
    (hlogic : c.logic = s.core.logic) :
    s.core.Course 0 ∧ s.span w
      = 2 * (s.core.played (s.byte w)).cycle.length + 2 * c.cycle.autoWaits := by
  have hpattern : c.cycle.pattern = s.core.cycle.pattern := by
    have hsame : c.logic.cycle.pattern = s.core.logic.cycle.pattern := by rw [hlogic]
    exact hsame
  have hcourse := h.course
  have hwaits := h.wired.waits
  rw [hfirst] at hcourse hwaits
  refine ⟨hcourse.of_logic hlogic.symm, ?_⟩
  rw [span]
  split
  · next hack => rw [hwaits.eq_two (hpattern.trans hack) (Nat.zero_le 1)]
  · next hother => rw [hwaits.eq_zero (hpattern ▸ hother)]

/-- A board at the start of a cycle runs its scene. -/
theorem runs_start (h : b.Orderly w.config) (hphase : b.core.phase = .running)
    (hchosen : b.core.boundaryPending = false) (hfirst : b.core.cycle.half = 0)
    (hlogic : b.core.logic = s.core.logic) (hbytes : b.memory.bytes = s.bytes) :
    s.Runs w (s.span w) b := by
  obtain ⟨hcourse, hspan⟩ := span_of_underway (w := w) (h.sound.running hphase hchosen) hfirst hlogic
  have hlength := hcourse.length_played (s.byte w)
  refine ⟨?_, hphase, ?_, ?_, hlength⟩
  · rw [← hbytes]
    exact Board.plays_start h ⟨Or.inl hphase, hchosen⟩ hfirst hlogic
  · rw [hspan, hfirst, Nat.add_zero]
  · have hleast := s.core.cycle.pattern.three_le_minimumLength
    rw [hfirst]
    omega

/-- The scene is over: the next one starts, or the instruction is complete. -/
structure Ends (w : Surroundings) (s : Scene) (b : Board) (level : Level) : Prop where
  ended : (b.core.edge level b.inputs).ended = s.ends w
  logic : (b.core.edge level b.inputs).core.logic
    = (if s.ends w then (s.next w).core.complete else (s.next w).core).logic
  orderly : (b.edge level).1.Orderly w.config
  bytes : (b.edge level).1.memory.bytes = (s.next w).bytes
  goes : s.ends w = false → (s.next w).Runs w ((s.next w).span w) (b.edge level).1

/-- An edge leaves the cycle of the chip as it was before the others have answered. -/
theorem cycle_edge_of_goes (hgoes : (b.core.edge level b.inputs).ended = false) :
    (b.edge level).1.core.cycle = (b.core.edge level b.inputs).core.cycle := by
  obtain ⟨stopping, hstep⟩ := b.moved_eq level
  obtain ⟨-, -, hcore⟩ := b.edge_parts level
  rw [Edge.finish, hgoes, if_neg Bool.false_ne_true] at hstep
  rw [hcore, hstep]

/-- The board uses the buses as the scene does. -/
theorem Runs.use_eq (h : s.Runs w left b) : b.core.use = s.core.use := by
  obtain ⟨byte, hthrough, -⟩ := h.plays.taken
  have hsame : b.core.logic.use = (s.core.through byte b.core.cycle.half).logic.use := by
    rw [hthrough]
  exact hsame.trans (s.core.use_through byte _)

theorem Runs.pattern_eq (h : s.Runs w left b) : b.core.cycle.pattern = s.core.cycle.pattern :=
  Core.pattern_of_use h.use_eq

theorem Runs.underway (h : s.Runs w left b) : b.core.Underway :=
  h.plays.orderly.sound.running h.phase h.plays.amid.chosen

/-- Only an acknowledge has waits of its own to put in. -/
theorem Runs.autoWaits_eq_zero (h : s.Runs w left b)
    (hother : s.core.cycle.pattern ≠ .acknowledge) : b.core.cycle.autoWaits = 0 :=
  h.underway.wired.waits.eq_zero (by rw [h.pattern_eq]; exact hother)

/-- No more edges are left than the scene spans. -/
theorem Runs.left_le (h : s.Runs w left b) : left + b.core.cycle.half ≤ s.span w := by
  have hdue := h.underway.wired.waits
  rw [ActiveCycle.WaitsDue, h.pattern_eq] at hdue
  rw [h.left, span]
  split
  · next hack =>
    rw [if_pos hack] at hdue
    omega
  · next hother =>
    rw [if_neg hother] at hdue
    omega

/-- In the first two half-periods a cycle has put in no wait yet. -/
theorem Runs.left_of_first (h : s.Runs w left b) (hfirst : b.core.cycle.half ≤ 1) :
    left + b.core.cycle.half = s.span w := by
  have hdue := h.underway.wired.waits
  rw [h.left, span]
  split
  · next hack => rw [hdue.eq_two (h.pattern_eq.trans hack) hfirst]
  · next hother => rw [h.autoWaits_eq_zero hother]

/-- A scene of which all edges are left is at its start. -/
theorem Runs.half_eq_zero (h : s.Runs w (s.span w) b) : b.core.cycle.half = 0 := by
  have hle := h.left_le
  omega

/-- The chip that an edge engages is the one that runs the scene. -/
theorem Runs.engages {k : Core} (h : s.Runs w left b) (hk : b.engaged level = some k) :
    k = b.core.sampleInputs b.inputs :=
  (h.plays.orderly.sound.engages hk).kept h.phase h.plays.amid.chosen

section

variable {k : Core}

/-- Once the byte is taken in, the cycle has the length that the scene gives it. -/
theorem Runs.length_runHalf (h : s.Runs w left b) (hsupplies : b.Supplies (· = s.byte w) level)
    (hk : b.engaged level = some k)
    (hlate : s.core.cycle.pattern.sampleHalf < b.core.cycle.half + 1) :
    k.runHalf.1.cycle.length = (s.core.played (s.byte w)).cycle.length := by
  obtain rfl := h.engages hk
  obtain ⟨byte, hworks, htaken⟩ := (h.plays.runs hk rfl rfl).works hsupplies
  have hhere : (b.core.sampleInputs b.inputs).cycle = b.core.cycle := rfl
  rw [hhere] at hworks htaken
  rw [Core.through_late hlate, played_takes (htaken hlate)] at hworks
  exact congrArg (fun c => c.cycle.length) hworks

/-- An edge amid the cycle brings its end nearer by one edge. -/
theorem Runs.goes (h : s.Runs w left b) (hfree : b.Unhindered)
    (hsupplies : b.Supplies (· = s.byte w) level) (hk : b.engaged level = some k)
    (hmore : k.runHalf.2 = false) (hresult : (b.core.edge level b.inputs).core = k.runHalf.1)
    (hamid : (b.core.edge level b.inputs).core.Amid)
    (hgoes : (b.core.edge level b.inputs).ended = false) :
    1 < left ∧ s.Runs w (left - 1) (b.edge level).1 := by
  have hlength := h.length_runHalf hsupplies hk
  have hsample := s.core.cycle.pattern.sampleHalf_lt
  have hunderway : k.Underway := (h.plays.orderly.sound.engages hk).underway
  have hauto := Core.autoWaits_runHalf hunderway.wired
  obtain rfl := h.engages hk
  have hplays := (h.plays.runs hk rfl rfl).goes hsupplies hmore hresult hamid hgoes
  have hcycle := cycle_edge_of_goes hgoes
  have hphase : (b.edge level).1.core.phase = .running := by
    rw [(Board.core_edge_of_goes hgoes).2.2.1, hresult, Core.steady_runHalf.phase]
    exact h.phase
  rw [hresult] at hcycle
  have hhere : (b.core.sampleInputs b.inputs).cycle = b.core.cycle := rfl
  have hleft := h.left
  have hroom := h.room
  have hleast := h.least
  rw [hhere] at hauto
  rcases hunderway.half_runHalf hmore with ⟨hruns, hhalf⟩ | ⟨hwaits, hhalf, -⟩
  · -- the half-period after it is one of the cycle too
    have hnext : b.core.cycle.half + 1 < 2 * (s.core.played (s.byte w)).cycle.length := by
      by_cases hlate : s.core.cycle.pattern.sampleHalf < b.core.cycle.half + 1
      · rw [← hlength hlate, ← hhere, ← hhalf]
        rcases hunderway.course.runHalf_runs hruns with ⟨-, hcourse, -⟩ | ⟨hlast, -⟩
        · exact hcourse.half_lt
        · cases hmore.symm.trans hlast
      · omega
    rw [hruns, Bool.false_and, Bool.toNat_false, Nat.add_zero] at hauto
    rw [hhere] at hhalf
    refine ⟨by omega, hplays, hphase, ?_, ?_, h.least⟩
    · rw [hcycle, hhalf, hauto]
      omega
    · rw [hcycle, hhalf]
      exact hnext
  · -- the chip holds the cycle by itself, and has one wait less to put in
    have hsome := Core.autoWaits_of_waits hfree.wait hwaits
    rw [hhere] at hhalf hsome
    rw [hwaits, Bool.true_and, bne_iff_ne.mpr hsome, Bool.toNat_true] at hauto
    refine ⟨by omega, hplays, hphase, ?_, ?_, h.least⟩
    · rw [hcycle]
      omega
    · rw [hcycle]
      omega

/-- The last edge of the cycle ends the scene. -/
theorem Runs.closes (h : s.Runs w left b) (hsupplies : b.Supplies (· = s.byte w) level)
    (hk : b.engaged level = some k) (hlast : k.runHalf.2 = true)
    (hended : (b.core.edge level b.inputs).ended = k.runHalf.1.latchResult.nextCycle.2)
    (hresult : (b.core.edge level b.inputs).core = if (b.core.edge level b.inputs).ended
      then k.runHalf.1.latchResult.nextCycle.1.complete else k.runHalf.1.latchResult.nextCycle.1)
    (hamid : (b.core.edge level b.inputs).core.Amid) : left = 1 ∧ s.Ends w b level := by
  have hunderway : k.Underway := (h.plays.orderly.sound.engages hk).underway
  obtain ⟨-, hcloses, hhalf, hroom⟩ := hunderway.last hlast
  have hlength := h.length_runHalf hsupplies hk
  have hsample := s.core.cycle.pattern.sampleHalf_lt
  have hthree := s.core.cycle.pattern.three_le_minimumLength
  have hpattern := h.pattern_eq
  obtain rfl := h.engages hk
  have hhere : (b.core.sampleInputs b.inputs).cycle = b.core.cycle := rfl
  rw [hhere, hpattern] at hroom
  have hend := hcloses.last
  rw [hhalf, hhere, hlength (by omega)] at hend
  have hleft := h.left
  rw [h.underway.wired.waits.eq_zero_of_late (by omega)] at hleft
  refine ⟨by omega, ?_⟩
  obtain ⟨byte, hends⟩ := (h.plays.runs hk rfl rfl).ends hsupplies hlast hended hresult hamid
  have hclosed : s.core.closed byte = s.core.closed (s.byte w) := by
    rw [Core.closed, Core.closed, Core.acted, Core.acted, played_takes hends.takes]
  have hover := hends.ended
  have hlogic := hends.logic
  rw [hclosed] at hover hlogic
  refine ⟨hover, hlogic, hends.orderly, hends.left, fun hmore => ?_⟩
  -- the next scene starts
  have hgoes : (b.core.edge level b.inputs).ended = false := hover.trans hmore
  obtain ⟨hlogic', hhalf', hphase', hchosen'⟩ := Board.core_edge_of_goes hgoes
  rw [hlogic, show (s.core.closed (s.byte w)).2 = false from hmore, if_neg Bool.false_ne_true]
    at hlogic'
  rw [hresult, hgoes, if_neg Bool.false_ne_true] at hhalf' hphase'
  refine runs_start hends.orderly ?_ (hchosen'.trans hamid.chosen) ?_ hlogic' hends.left
  · rw [hphase', (Core.steady_nextCycle _).phase, Core.steady_latchResult.phase,
      Core.steady_runHalf.phase]
    exact h.phase
  · rw [hhalf']
    rcases hcloses.next with hgoes' | ⟨hall, -⟩
    · exact hgoes'.first
    · cases (hended.symm.trans hgoes).symm.trans hall

end

/-- An edge that nothing hinders brings the scene nearer to its end by one edge. -/
theorem Runs.edge (h : s.Runs w left b) (hfree : b.Unhindered)
    (hsupplies : b.Supplies (· = s.byte w) level) :
    (1 < left ∧ (b.core.edge level b.inputs).ended = false
        ∧ s.Runs w (left - 1) (b.edge level).1)
      ∨ (left = 1 ∧ s.Ends w b level) := by
  have hreset : b.host.reset.isAsserted = false := by
    show b.inputs.reset.isAsserted = false
    rw [hfree.reset]
    rfl
  have hengaged : b.engaged level = some (b.core.sampleInputs b.inputs) :=
    Core.engaged_of_running h.phase h.plays.amid.chosen hfree.reset hfree.busreq
  have hpass : b.core.Pass (b.core.edge level b.inputs) (b.engaged level) :=
    h.plays.amid.pass hreset
  rw [hengaged] at hpass
  cases hpass with
  | runs _ _ more result amid goes =>
    obtain ⟨hmore, hruns⟩ := h.goes hfree hsupplies hengaged more result amid goes
    exact Or.inl ⟨hmore, goes, hruns⟩
  | closes _ _ last ended result amid =>
    exact Or.inr (h.closes hsupplies hengaged last ended result amid)

/-- A cycle that reads from memory, or nothing, is supplied by memory. -/
theorem Runs.supplies (h : s.Runs w left b) (hown : s.core.cycle.readsElsewhere = false)
    (level : Level) : b.Supplies (· = s.byte w) level := by
  intro k hk helse
  rw [h.engages hk] at helse
  have helse' : b.core.cycle.readsElsewhere = true := helse
  rw [Core.readsElsewhere_of_use h.use_eq] at helse'
  cases hown.symm.trans helse'

end Scene

/-! ## The first edge -/

/-- The first edge of an instruction is one of its first scene. -/
theorem Board.Orderly.runs_first {k : Core} (hb : b.Orderly w.config)
    (hengaged : b.engaged level = some k) (hfirst : k.cycle.half = 0)
    (hlogic : s.core.logic = k.logic) (hbytes : b.memory.bytes = s.bytes) :
    (b.core.edge level b.inputs).ended = false ∧ 1 < s.span w
      ∧ s.Runs w (s.span w - 1) (b.edge level).1 := by
  have hk := hb.sound.engages hengaged
  obtain ⟨hcourse, hspan⟩ := Scene.span_of_underway (w := w) hk.underway hfirst hlogic.symm
  have hlength := hcourse.length_played (s.byte w)
  have hleast := s.core.cycle.pattern.three_le_minimumLength
  obtain ⟨hgoes, hplays⟩ : _ ∧ (b.edge level).1.Plays w.config (· = s.byte w) b.memory.bytes k :=
    hb.opens hengaged hfirst
  have hstart : (b.edge level).1.Plays w.config (· = s.byte w) s.bytes s.core := by
    rw [hbytes] at hplays
    exact hplays.of_logic hlogic
  have hpass : k.Pass (b.core.edge level b.inputs) (some k) :=
    Core.pass_engaged hengaged ⟨Or.inl hk.phase, hk.chosen⟩
  have hcycle := Scene.cycle_edge_of_goes hgoes
  have hphase := (Board.core_edge_of_goes hgoes).2.2.1
  cases hpass with
  | closes _ _ last _ _ _ =>
    cases (hk.underway.more_of_early (by omega)).symm.trans last
  | runs _ _ more result _ _ =>
    rw [result] at hcycle hphase
    have hauto := Core.autoWaits_runHalf hk.underway.wired
    rcases hk.underway.half_runHalf more with ⟨hruns, hhalf⟩ | ⟨-, hback, -⟩
    · rw [hruns, Bool.false_and, Bool.toNat_false, Nat.add_zero] at hauto
      rw [hfirst] at hhalf
      refine ⟨hgoes, by omega, hstart, ?_, ?_, ?_, hlength⟩
      · rw [hphase, Core.steady_runHalf.phase]
        exact hk.phase
      · rw [hcycle, hhalf, hauto]
        omega
      · rw [hcycle, hhalf]
        omega
    · rw [hfirst] at hback
      cases hback

/-! ## Instruction by instruction -/

namespace Board

variable {config : BoardConfig} {p : Core}

/-- The board is between two instructions, of which the first one has led to the chip `p`, and no
    interrupt waits. -/
structure Between (config : BoardConfig) (p : Core) (b : Board) : Prop where
  orderly : b.Orderly config
  phase : b.core.phase = .running
  nmi : b.core.nmiPending = false
  next : b.core.boundaryPending = true ∧ b.core.logic = p.logic
    ∨ b.core.boundaryPending = false ∧ b.core.cycle.half = 0 ∧ b.core.logic = p.carryOn.logic

/-- What a program sees between two instructions is what the first one has led to. -/
theorem Between.visible (h : b.Between config p) :
    b.core.regs = p.regs ∧ b.core.halted = p.halted
      ∧ b.core.instructionCounter = p.instructionCounter := by
  have hsame (q : Core) (hlogic : b.core.logic = q.logic) :
      b.core.logic.regs = q.logic.regs ∧ b.core.logic.halted = q.logic.halted
        ∧ b.core.logic.instructionCounter = q.logic.instructionCounter := by
    rw [hlogic]
    exact ⟨rfl, rfl, rfl⟩
  rcases h.next with ⟨-, hlogic⟩ | ⟨-, -, hlogic⟩
  · exact hsame p hlogic
  · obtain ⟨hregs, hhalted, hcounter⟩ := hsame _ hlogic
    obtain ⟨hregs', hhalted', hcounter'⟩ := p.carryOn_visible
    exact ⟨hregs.trans hregs', hhalted.trans hhalted', hcounter.trans hcounter'⟩

/-- At the end of an instruction that no interrupt follows the board is between two of them. -/
theorem between_of_ended (h : b.Orderly config)
    (hended : (b.core.edge level b.inputs).ended = true)
    (hlogic : (b.core.edge level b.inputs).core.logic = p.logic)
    (hnmi : (b.core.sampleInputs b.inputs).nmiPending = false)
    (hint : b.inputs.int = .released ∨ p.heeds = false) : (b.edge level).1.Between config p := by
  obtain ⟨stopping, hstep⟩ := b.moved_eq level
  obtain ⟨-, -, hcore⟩ := b.edge_parts level
  have hsound := h.sound.edge level b.inputs
  rw [Core.Edge.Sound, if_pos hended] at hsound
  obtain ⟨-, hphase, hchosen⟩ := hsound
  have hnone : (b.core.edge level b.inputs).core.nmiPending = false := Core.nmiPending_edge hnmi
  rw [Edge.finish, if_pos hended] at hstep
  -- a stop leaves the choice of the next instruction pending; otherwise it has been made by now
  cases stopping with
  | true =>
    have hcore' : (b.edge level).1.core = { { (b.core.edge level b.inputs).core with
        boundaryPending := true } with data := (b.edge level).1.core.data } := by
      rw [hcore, hstep]
      rfl
    refine ⟨h.edge level, ?_, ?_, Or.inl ⟨?_, ?_⟩⟩ <;> rw [hcore']
    · exact hphase
    · exact hnone
    · exact hlogic
  | false =>
    have hcarries : (b.core.edge level b.inputs).core.resolveNext
        = (b.core.edge level b.inputs).core.carryOn :=
      Core.carries_on hnone
        (congrArg InputLevels.int (b.core.remembers_edge level b.inputs).pins) hlogic hint
    have hcore' : (b.edge level).1.core = { (b.core.edge level b.inputs).core.resolveNext with
        data := (b.edge level).1.core.data } := by
      rw [hcore, hstep]
      rfl
    have hlogic' : (b.core.edge level b.inputs).core.carryOn.logic = p.carryOn.logic := by
      rw [Core.carryOn_logic, hlogic, ← Core.carryOn_logic]
    refine ⟨h.edge level, ?_, ?_, Or.inr ⟨?_, ?_, ?_⟩⟩ <;> rw [hcore']
    · exact ((b.core.edge level b.inputs).core.phase_resolveNext.1).trans hphase
    · exact Core.nmiPending_resolveNext _
    · exact ((b.core.edge level b.inputs).core.phase_resolveNext.2).trans hchosen
    · exact (Core.starts_resolveNext _).half
    · rw [hcarries]
      exact hlogic'

/-- The next edge starts the instruction at PC. -/
theorem Between.opens (h : b.Between config p) (hhalted : p.halted = false)
    (hclear : b.Clear) (hint : b.inputs.int = .released ∨ p.heeds = false) (level : Level) :
    ∃ k, b.Opens level k ∧ k.logic = p.carryOn.logic ∧ k.nmiPending = false := by
  have hfetch : p.carryOn = p.cleared.startFetch (.memory p.regs.pc) :=
    if_neg (Bool.eq_false_iff.mp hhalted)
  have hopens {k : Core} (hengaged : b.engaged level = some k) (hhalf : k.cycle.half = 0)
      (hlogic : k.logic = p.carryOn.logic) : b.Opens level k := by
    have hsame : k.logic.instruction = p.carryOn.logic.instruction
        ∧ k.logic.position = p.carryOn.logic.position ∧ k.logic.origin = p.carryOn.logic.origin := by
      rw [hlogic]
      exact ⟨rfl, rfl, rfl⟩
    rw [hfetch] at hsame
    refine ⟨hengaged, hsame.1, hsame.2.1, hhalf, ?_⟩
    rw [Core.fromMemory, show k.origin = .memory p.regs.pc from hsame.2.2]
  have hnmi := hclear.nmi h.nmi
  obtain ⟨-, hbusreq, hreset⟩ := hclear.unhindered
  rcases h.next with ⟨hpending, hlogic⟩ | ⟨hchosen, hhalf, hlogic⟩
  · -- the choice is still to be made
    have hcarries : ({ b.core.sampleInputs b.inputs with
        boundaryPending := false } : Core).resolveNext
        = ({ b.core.sampleInputs b.inputs with boundaryPending := false } : Core).carryOn :=
      Core.carries_on hnmi rfl hlogic hint
    have hengaged : b.engaged level = some ({ b.core.sampleInputs b.inputs with
        boundaryPending := false } : Core).resolveNext :=
      Core.engaged_of_pending h.phase hpending hreset hbusreq
    refine ⟨_, hopens hengaged (Core.starts_resolveNext _).half ?_, ?_, Core.nmiPending_resolveNext _⟩
    all_goals
      rw [hcarries, Core.carryOn_logic, Core.carryOn_logic (c := p), ← hlogic]
      rfl
  · have hengaged : b.engaged level = some (b.core.sampleInputs b.inputs) :=
      Core.engaged_of_running h.phase hchosen hreset hbusreq
    exact ⟨_, hopens hengaged hhalf hlogic, hlogic, hnmi⟩

end Board

/-! ## Scene after scene -/

namespace Scene

theorem spent_succ (count : Nat) :
    s.spent w (count + 1) = s.spent w count + (s.nth w count).span w := by
  induction count generalizing s with
  | zero => exact Nat.add_comm _ _
  | succ count ih =>
    rw [spent, ih, ← nth_succ, spent, Nat.add_assoc]

theorem spent_mono {count more : Nat} (h : count ≤ more) : s.spent w count ≤ s.spent w more := by
  induction h with
  | refl => exact Nat.le_refl _
  | step _ ih =>
    rw [spent_succ]
    exact Nat.le_trans ih (Nat.le_add_right _ _)

end Scene

/-! ## Devices without a source -/

namespace Device

variable {device : Device} {pins : Pins} {address : Bus Word} {data : Bus Byte}

theorem sourceless_pair {first second : Device} :
    (pair first second).source? = none ↔ first.source? = none ∧ second.source? = none := by
  rw [source?]
  cases first.source? with
  | none => exact ⟨fun h => ⟨rfl, h⟩, fun h => h.2⟩
  | some s => exact ⟨nofun, fun h => nomatch h.1⟩

/-- A device gets no source. -/
theorem sourceless_edge (h : device.source? = none) :
    (device.edge level pins address data).1.source? = none := by
  induction device generalizing data with
  | unattached => rfl
  | latch l => rfl
  | source s => exact nomatch h
  | pair first second ihFirst ihSecond =>
    obtain ⟨hfirst, hsecond⟩ := sourceless_pair.mp h
    exact sourceless_pair.mpr ⟨ihFirst hfirst, ihSecond hsecond⟩

/-- Only a source asks the chip for anything. -/
theorem released_of_sourceless (h : device.source? = none) :
    device.int = .released ∧ device.nmi = .released ∧ device.wait = .released := by
  induction device with
  | unattached => exact ⟨rfl, rfl, rfl⟩
  | latch l => exact ⟨rfl, rfl, rfl⟩
  | source s => exact nomatch h
  | pair first second ihFirst ihSecond =>
    obtain ⟨hfirst, hsecond⟩ := sourceless_pair.mp h
    obtain ⟨hint, hnmi, hwait⟩ := ihFirst hfirst
    obtain ⟨hint', hnmi', hwait'⟩ := ihSecond hsecond
    rw [int, nmi, wait, hint, hnmi, hwait, hint', hnmi', hwait']
    exact ⟨rfl, rfl, rfl⟩

end Device

namespace Machine

variable {config : BoardConfig} {m : Machine} {p : Core} {bytes : Array Byte} {edges : Nat}
  {last : Nat} {J : Nat → Board → Prop}

/-- The next edge completes an instruction. -/
def ends (m : Machine) : Bool :=
  (m.core.edge m.clock.level.flip m.board.inputs).ended

/-- Before this edge no instruction is completed. -/
def Unfinished (m : Machine) (edge : Nat) : Prop :=
  ∀ i < edge, (m.after i).ends = false

/-- After so many edges, on the last of which it is complete, an instruction has led to this chip over
    these bytes of memory. -/
structure Finishes (config : BoardConfig) (m : Machine) (edges : Nat) (p : Core)
    (bytes : Array Byte) : Prop where
  ended : ∀ i < edges, (m.after i).ends = decide (i + 1 = edges)
  between : (m.after edges).board.Between config p
  bytes : (m.after edges).memory.bytes = bytes

theorem Unfinished.succ {edge : Nat} (h : m.Unfinished edge) (hgoes : (m.after edge).ends = false) :
    m.Unfinished (edge + 1) := fun i hi => by
  rcases Nat.lt_succ_iff_lt_or_eq.mp hi with hbefore | rfl
  · exact h i hbefore
  · exact hgoes

/-- After this edge the machine is in this scene, and the board keeps up what goes with that. -/
structure Visits (w : Surroundings) (s : Scene) (J : Nat → Board → Prop) (m : Machine)
    (edge count left : Nat) : Prop where
  runs : (s.nth w count).Runs w (left + 1) (m.after edge).board
  elapsed : edge + (left + 1) = s.spent w (count + 1)
  keeps : J count (m.after edge).board
  nmi : (m.after edge).core.nmiPending = false

/-- What the board keeps up from scene to scene has it supply what the scenes read. -/
structure Upholds (w : Surroundings) (s : Scene) (J : Nat → Board → Prop) (last : Nat) : Prop where
  supplies : ∀ {b : Board} {count left : Nat}, count ≤ last → (s.nth w count).Runs w left b →
    J count b → ∀ level, b.Supplies (· = (s.nth w count).byte w) level
  goes : ∀ {b : Board} {count left : Nat} {level : Level}, count ≤ last →
    (s.nth w count).Runs w (left + 1) b → J count b → (s.nth w count).Runs w left (b.edge level).1 →
      J count (b.edge level).1
  next : ∀ {b : Board} {count : Nat} {level : Level}, count < last →
    (s.nth w count).Runs w 1 b → J count b →
      (s.nth w (count + 1)).Runs w ((s.nth w (count + 1)).span w) (b.edge level).1 →
        J (count + 1) (b.edge level).1

/-- On an edge the machine goes on in the scene, or comes to the next one, or completes the
    instruction. -/
theorem Visits.edge {edge count left : Nat} (h : m.Visits w s J edge count left)
    (hups : Upholds w s J last) (hlasts : s.Lasts w last) (hcount : count ≤ last)
    (hclear : (m.after edge).board.Clear) :
    ((m.after edge).ends = false ∧ ∃ count' ≤ last, ∃ left', m.Visits w s J (edge + 1) count' left')
      ∨ count = last ∧ edge + 1 = s.spent w (last + 1)
        ∧ (s.nth w last).Ends w (m.after edge).board (m.after edge).clock.level.flip := by
  have hsupplies := hups.supplies hcount h.runs h.keeps (m.after edge).clock.level.flip
  have helapsed := h.elapsed
  have hlater : (m.after (edge + 1)).core.nmiPending = false :=
    Board.nmiPending_edge (hclear.nmi h.nmi)
  rcases h.runs.edge hclear.unhindered hsupplies with ⟨hmore, hgoes, hruns⟩ | ⟨hone, hends⟩
  · obtain ⟨left', rfl⟩ : ∃ left', left = left' + 1 := Nat.exists_eq_succ_of_ne_zero (by omega)
    have hsame : (m.after (edge + 1)).board
        = ((m.after edge).board.edge (m.after edge).clock.level.flip).1 := rfl
    refine Or.inl ⟨hgoes, count, hcount, left', hruns, by omega, ?_, hlater⟩
    exact hups.goes hcount h.runs h.keeps hruns
  · obtain rfl : left = 0 := by omega
    rcases Nat.eq_or_lt_of_le hcount with rfl | hbefore
    · exact Or.inr ⟨rfl, helapsed, hends⟩
    · have hmore := hlasts count hbefore
      have hruns : (s.nth w (count + 1)).Runs w ((s.nth w (count + 1)).span w)
          ((m.after edge).board.edge (m.after edge).clock.level.flip).1 := hends.goes hmore
      obtain ⟨span, hspan⟩ : ∃ span, (s.nth w (count + 1)).span w = span + 1 :=
        Nat.exists_eq_succ_of_ne_zero (by have := hruns.left; have := hruns.room; omega)
      have hkeeps := hups.next hbefore h.runs h.keeps hruns
      rw [hspan] at hruns
      refine Or.inl ⟨hends.ended.trans hmore, count + 1, hbefore, span, hruns, ?_, hkeeps, hlater⟩
      rw [Scene.spent_succ (count + 1), hspan, ← helapsed]

/-- Until the instruction is complete the machine is in one of its scenes. -/
theorem visits {left : Nat} (hfirst : m.Visits w s J 1 0 left) (hgoes : m.ends = false)
    (hups : Upholds w s J last) (hlasts : s.Lasts w last)
    (hclear : ∀ edge < s.spent w (last + 1), m.Unfinished edge → (m.after edge).board.Clear)
    {edge : Nat} (hlater : 0 < edge) (hedge : edge < s.spent w (last + 1)) :
    m.Unfinished edge ∧ ∃ count ≤ last, ∃ left, m.Visits w s J edge count left := by
  induction hlater with
  | refl =>
    refine ⟨fun i hi => ?_, 0, Nat.zero_le _, left, hfirst⟩
    obtain rfl : i = 0 := by omega
    exact hgoes
  | @step edge hlater ih =>
    obtain ⟨hunfinished, count, hcount, left, hvisits⟩ := ih (by omega)
    rcases hvisits.edge hups hlasts hcount (hclear edge (by omega) hunfinished) with
      ⟨hmore, hnext⟩ | ⟨-, hall, -⟩
    · exact ⟨hunfinished.succ hmore, hnext⟩
    · omega

/-- Before the edge that completes it the machine is on the last edge of its last scene. -/
theorem visits_last {left edge : Nat} (hfirst : m.Visits w s J 1 0 left) (hgoes : m.ends = false)
    (hups : Upholds w s J last) (hlasts : s.Lasts w last)
    (hclear : ∀ edge < s.spent w (last + 1), m.Unfinished edge → (m.after edge).board.Clear)
    (hedge : edge + 1 = s.spent w (last + 1)) :
    m.Unfinished edge ∧ m.Visits w s J edge last 0 := by
  have hleast : s.spent w (0 + 1) ≤ s.spent w (last + 1) := Scene.spent_mono (by omega)
  have hstart := hfirst.elapsed
  obtain ⟨hunfinished, count, hcount, left', hvisits⟩ :=
    visits hfirst hgoes hups hlasts hclear (show 0 < edge by omega) (show edge < _ by omega)
  have helapsed := hvisits.elapsed
  rcases hvisits.edge hups hlasts hcount (hclear edge (by omega) hunfinished) with
    ⟨-, count', hcount', left'', hnext⟩ | ⟨rfl, -, -⟩
  · -- there is no edge left for another scene
    have hroom : s.spent w (count' + 1) ≤ s.spent w (last + 1) := Scene.spent_mono (by omega)
    have helapsed' := hnext.elapsed
    omega
  · obtain rfl : left' = 0 := by omega
    exact ⟨hunfinished, hvisits⟩

/-- The edge that completes it is the last one of its last scene. -/
theorem finishes_visits {left : Nat} (hfirst : m.Visits w s J 1 0 left) (hgoes : m.ends = false)
    (hups : Upholds w s J last) (hlasts : s.Lasts w last) (hends : (s.nth w last).ends w = true)
    (hclear : ∀ edge < s.spent w (last + 1), m.Unfinished edge → (m.after edge).board.Clear)
    (hint : (∀ edge, edge + 1 = s.spent w (last + 1) → (m.after edge).board.inputs.int = .released)
      ∨ (s.nth w (last + 1)).core.heeds = false) :
    m.Finishes w.config (s.spent w (last + 1)) (s.nth w (last + 1)).core.complete
      (s.nth w (last + 1)).bytes := by
  have hstart := hfirst.elapsed
  have hleast : s.spent w (0 + 1) ≤ s.spent w (last + 1) := Scene.spent_mono (by omega)
  obtain ⟨edge, htotal⟩ : ∃ edge, s.spent w (last + 1) = edge + 1 :=
    Nat.exists_eq_succ_of_ne_zero (by omega)
  obtain ⟨hunfinished, hvisits⟩ := visits_last hfirst hgoes hups hlasts hclear htotal.symm
  have hclear' := hclear edge (by omega) hunfinished
  rcases hvisits.edge hups hlasts (Nat.le_refl last) hclear' with
    ⟨-, count, hcount, left', hnext⟩ | ⟨-, -, hover⟩
  · have hroom : s.spent w (count + 1) ≤ s.spent w (last + 1) := Scene.spent_mono (by omega)
    have helapsed := hnext.elapsed
    omega
  · have hlogic := hover.logic
    rw [hends, if_pos rfl] at hlogic
    have hended : (m.after edge).ends = true := hover.ended.trans hends
    have hbetween : ((m.after edge).board.edge (m.after edge).clock.level.flip).1.Between w.config
        ((s.nth w last).next w).core.complete :=
      Board.between_of_ended hvisits.runs.plays.orderly hended hlogic (hclear'.nmi hvisits.nmi)
        (hint.imp_left fun hreleased => hreleased edge htotal.symm)
    rw [htotal]
    refine ⟨fun i hi => ?_, hbetween, hover.bytes⟩
    rcases Nat.lt_succ_iff_lt_or_eq.mp hi with hbefore | rfl
    · rw [hunfinished i hbefore]
      exact (decide_eq_false (by omega)).symm
    · rw [hended]
      exact (decide_eq_true rfl).symm

/-! ## A machine left to itself -/

/-- No input of the chip is asserted on any of so many edges. -/
def Calm (m : Machine) (edges : Nat) : Prop :=
  ∀ i < edges, (m.after i).board.inputs = {}

theorem orderly_after (h : m.board.Orderly config) (n : Nat) : (m.after n).board.Orderly config := by
  induction n with
  | zero => exact h
  | succ n ih => exact ih.edge _

theorem Calm.add {count : Nat} (h : m.Calm (edges + count)) : (m.after edges).Calm count :=
  fun i hi => by
    rw [← after_add]
    exact h (edges + i) (Nat.add_lt_add_left hi _)

/-- The host leaves the inputs of the chip alone, no device asks for anything, and memory asks for no
    waits. -/
structure Still (m : Machine) : Prop where
  host : m.board.host = {}
  device : m.board.device.source? = none
  waitStates : m.memory.waitStates = 0
  wait : m.memory.wait = .released

theorem Still.halfTick (h : m.Still) : m.halfTick.1.Still := by
  obtain ⟨hmemory, hdevice, -⟩ := m.board.edge_parts m.clock.level.flip
  rw [Memory.edge_eq] at hmemory
  have hkept : (m.board.edge m.clock.level.flip).1.memory.waitStates = m.memory.waitStates := by
    rw [hmemory]
    rfl
  refine ⟨h.host, ?_, hkept.trans h.waitStates, ?_⟩
  · show (m.board.edge m.clock.level.flip).1.device.source? = none
    rw [hdevice]
    exact Device.sourceless_edge h.device
  · show (m.board.edge m.clock.level.flip).1.memory.wait = .released
    rw [hmemory]
    show Level.activeLow (_ && m.memory.waitStates > 0 && _) = .released
    rw [h.waitStates, show decide (0 > 0) = false from rfl, Bool.and_false, Bool.false_and]
    rfl

/-- Such a machine is calm for good. -/
theorem Still.calm (h : m.Still) (edges : Nat) : m.Calm edges := by
  have hall (n : Nat) : (m.after n).Still := by
    induction n with
    | zero => exact h
    | succ n ih => exact ih.halfTick
  intro i _
  obtain ⟨hhost, hdevice, -, hwait⟩ := hall i
  have hwait' : (m.after i).board.memory.wait = .released := hwait
  obtain ⟨hint, hnmi, hwaits⟩ := Device.released_of_sourceless hdevice
  rw [Board.inputs, hhost, hwait', hint, hnmi, hwaits]
  rfl

/-- No NMI waits behind the first edge of an instruction that is started without one. -/
theorem nmiPending_first {k : Core} (hengaged : m.board.engaged m.clock.level.flip = some k)
    (hnmi : k.nmiPending = false) : (m.after 1).core.nmiPending = false := by
  refine Board.nmiPending_of_edge ?_
  obtain ⟨emitted, hedge⟩ := Core.edge_of_engaged hengaged
  show (m.board.core.edge m.clock.level.flip m.board.inputs).core.nmiPending = false
  rw [hedge, Core.nmiPending_runEdge]
  exact hnmi

/-- From its first edge on, an instruction that reads nothing but memory takes the edges that its scenes
    span. -/
theorem finishes_opens {k : Core} {count : Nat} (h : m.board.Opens m.clock.level.flip k)
    (hb : m.board.Orderly w.config) (hscene : s = ⟨k, m.memory.bytes, 0⟩) (hlasts : s.Lasts w count)
    (hends : (s.nth w count).ends w = true)
    (hown : ∀ i ≤ count, (s.nth w i).core.cycle.readsElsewhere = false)
    (hnmi : k.nmiPending = false) (hcalm : m.Calm (s.spent w (count + 1))) :
    m.Finishes w.config (s.spent w (count + 1)) (s.nth w (count + 1)).core.complete
      (s.nth w (count + 1)).bytes := by
  obtain ⟨hgoes, hmore, hruns⟩ := hb.runs_first (w := w) (s := s) h.engaged h.half
    (by rw [hscene]) (by rw [hscene]; rfl)
  obtain ⟨left, hleft⟩ : ∃ left, s.span w = left + 2 := ⟨s.span w - 2, by omega⟩
  have hclear (edge : Nat) (hedge : edge < s.spent w (count + 1)) : (m.after edge).board.Clear := by
    rw [Board.Clear, hcalm edge hedge]
  rw [hleft] at hruns
  have hfirst : m.Visits w s (fun _ _ => True) 1 0 left := by
    refine ⟨hruns, ?_, trivial, nmiPending_first h.engaged hnmi⟩
    rw [Scene.spent, Scene.spent, hleft]
    omega
  refine finishes_visits hfirst hgoes ⟨fun hcount hruns _ => hruns.supplies (hown _ hcount),
    fun _ _ _ _ => trivial, fun _ _ _ _ => trivial⟩ hlasts hends (fun edge hedge _ => hclear edge hedge)
    (Or.inl fun edge hlast => ?_)
  rw [hcalm edge (by omega)]

end Machine

/-- A machine is attended however many edges it takes. -/
theorem Attended.after {config : BoardConfig} {m : Machine} (h : Attended config m.board)
    (edges : Nat) : Attended config (m.after edges).board := by
  induction edges with
  | zero => exact h
  | succ edges ih => exact ih.edge _

end Z80Board
