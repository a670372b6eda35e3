import Z80Board.Chip.Boundary
import Z80Board.Proofs.Chip.Course

/-! # From cycle to cycle, on course

    At the end of a cycle the plan goes on: it has another cycle, and that one is set up on course,
    or it has none, and the cycles that were run are all the instruction has.  Latching what the
    cycle has read may choose the timing again, but only where both timings agree on the cycles run
    so far.  The next instruction starts on course too, whatever it is. -/

namespace Z80Board

/-- Timings that linger agree on everything up to a cycle that is not internal. -/
theorem Timings.Lingers.take_eq {t : Timings} (h : t.Lingers) {met : Bool} {position : Nat}
    {cycle : MachineCycle} (hget : (t.cycles met)[position]? = some cycle)
    (hkind : cycle.kind ≠ .internal) (met' : Bool) :
    (t.cycles met').take (position + 1) = (t.cycles met).take (position + 1) := by
  obtain ⟨more, hmore, hinternal⟩ := h
  have hlt : position < (t.cycles false).length := by
    cases met with
    | false => exact (List.getElem?_eq_some_iff.mp hget).1
    | true =>
      refine Nat.lt_of_not_ge fun hge => ?_
      rw [hmore, List.getElem?_append_right hge] at hget
      exact hkind (hinternal cycle (List.mem_of_getElem? hget))
  have hfalse (m : Bool) :
      (t.cycles m).take (position + 1) = (t.cycles false).take (position + 1) := by
    cases m with
    | false => rfl
    | true => rw [hmore, List.take_append_of_le_length hlt]
  rw [hfalse met', hfalse met]

namespace Core

variable {c c' : Core} {half : Nat}

/-! ## The end of a cycle -/

/-- The chip at the next position. -/
def stepOn (c : Core) : Core :=
  { c with position := c.position + 1 }

theorem nextCycle_of_some {code : Instruction} (h : c.instruction = some code) :
    c.nextCycle =
      match c.cycles[c.position + 1]? with
      | some next => (c.stepOn.beginCycle next.kind next.tStates, false)
      | none => (c.stepOn, true) := by
  cases c
  cases h
  rfl

theorem nextCycle_of_none (h : c.instruction = none) :
    c.nextCycle =
      match c.chain with
      | .opcode => (c.stepOn.beginCycle .opcodeFetch 4, false)
      | .displacement => (c.stepOn.beginCycle .operand 3, false)
      | .opcodeAfterDisplacement => (c.stepOn.beginCycle .opcodeFetch 3, false) := by
  cases c
  cases h
  rfl

/-- One more cycle lies behind. -/
theorem Course.take_succ (h : c.Course half) :
    c.plan.take (c.position + 1) = c.ran ++ [⟨c.cycle.kind, c.cycle.length⟩] := by
  rw [List.take_add_one, h.current]
  rfl

/-- An acknowledge is the first cycle of an instruction that begins with one. -/
theorem acknowledge_of_busPattern {kind : CycleKind} (h : c.busPattern kind = .acknowledge) :
    c.acknowledging = true ∧ c.position = 0 := by
  simp only [busPattern] at h
  cases kind
  case opcodeFetch =>
    dsimp only at h
    split at h
    · cases h
    split at h
    · next hfirst => exact ⟨hfirst.2, hfirst.1⟩
    · cases h
  all_goals cases h

/-- A cycle that is set up where the plan has it is on course, if the opcode still is. -/
theorem course_beginCycle {kind : CycleKind} {length : Nat}
    (hcurrent : c.plan[c.position]? = some ⟨kind, length⟩) (hlength : 0 < length)
    (hseeking : c.instruction = none → (c.beginCycle kind length).Seeking 0)
    (hscheduled : ∀ code, c.instruction = some code →
      c.cycles = code.timing.cycles c.conditionMet
        ∧ (∃ page, code.Scheduled page ∧ page.approach.length ≤ c.position)
        ∧ c.busPattern kind ≠ .opcodeRead) :
    (c.beginCycle kind length).Course 0 := by
  refine ⟨hcurrent, ?_, ⟨c, rfl⟩, acknowledge_of_busPattern, hseeking, fun code hcode => ?_⟩
  · show 0 < 2 * length
    omega
  · obtain ⟨hcycles, hpage, hread⟩ := hscheduled code hcode
    exact ⟨hcycles, hpage, fun h => absurd h hread⟩

/-- After the cycle comes another one, which is on course with one more cycle behind it. -/
structure GoesOn (c : Core) : Prop where
  more : c.latchResult.nextCycle.2 = false
  course : c.latchResult.nextCycle.1.Course 0
  first : c.latchResult.nextCycle.1.cycle.half = 0
  ran : c.latchResult.nextCycle.1.ran = c.ran ++ [⟨c.cycle.kind, c.cycle.length⟩]

/-- What latching the result does to a known instruction: it stays where it is, and its timing may
    be chosen again after a cycle on the buses. -/
theorem latchResult_turns {code : Instruction} (hcode : c.instruction = some code) :
    c.latchResult.place = c.place
      ∧ c.TurnsIf c.latchResult
        (code.mnemonic.repeats = true ∧ c.cycle.kind ≠ .internal) := by
  have hstow : (c.stow code).pace = c.pace ∧ (c.stow code).place = c.place := by
    rw [stow]
    cases c.cycle.kind
    case operandHigh =>
      dsimp only
      split <;> exact ⟨rfl, rfl⟩
    all_goals exact ⟨rfl, rfl⟩
  rw [latchResult_of_some hcode]
  split
  · exact ⟨rfl, Or.inl rfl⟩
  split
  · exact ⟨rfl, Or.inl rfl⟩
  · refine ⟨(place_execute _ _).trans hstow.2, ?_⟩
    have hknown : (c.stow code).instruction = some code := (instruction_of_pace hstow.1).trans hcode
    rcases turns_execute (c.stow code) hknown (.after c.cycle.kind) with
      hpace | ⟨htest, met, hpace⟩
    · exact Or.inl (hpace.trans hstow.1)
    · refine Or.inr ⟨?_, met, hpace.trans ?_⟩
      · rcases htest with hdecoded | hrepeats
        · cases hdecoded
        · exact ⟨hrepeats.1, fun hkind => hrepeats.2.2 (congrArg ExecPoint.after hkind)⟩
      · simp only [pace, takeAlternate, hknown, hcode]

/-- An instruction that is known fetches nothing any more. -/
theorem Course.later_kind (h : c.Course half) {code : Instruction}
    (hcode : c.instruction = some code) {met : Bool} {next : MachineCycle}
    (hnext : (code.timing.cycles met)[c.position + 1]? = some next) :
    next.kind ≠ .opcodeFetch := by
  obtain ⟨-, ⟨page, hscheduled, hpast⟩, -⟩ := h.scheduled code hcode
  intro hkind
  have hfetch : next = ⟨.opcodeFetch, next.tStates⟩ := by
    rw [← hkind]
  rw [hfetch] at hnext
  have := hscheduled.leads.position_of_fetch (Nat.le_succ_of_le hpast) hnext
  omega

/-- The end of a cycle of a known instruction. -/
theorem Closes.next_of_some (h : c.Closes) {code : Instruction} (hcode : c.instruction = some code) :
    c.GoesOn
      ∨ (c.latchResult.nextCycle.2 = true ∧ c.latchResult.nextCycle.1.instruction = some code
        ∧ (∃ page, code.Scheduled page)
        ∧ c.ran ++ [⟨c.cycle.kind, c.cycle.length⟩]
          = code.timing.cycles c.latchResult.nextCycle.1.conditionMet) := by
  obtain ⟨hcycles, ⟨page, hscheduled, hpast⟩, -⟩ := h.course.scheduled code hcode
  have hplan : c.plan = c.cycles := by
    rw [plan, hcode]
  have hcurrent := h.course.current
  rw [hplan, hcycles] at hcurrent
  obtain ⟨hplace, hturns⟩ := latchResult_turns hcode
  obtain ⟨hcode', hcycles'⟩ := hturns.cycles hcode hcycles
  have hposition := position_of_place hplace
  -- the cycles run so far belong to the timing that is chosen now, whichever it is
  have hran : c.ran ++ [⟨c.cycle.kind, c.cycle.length⟩]
      = c.latchResult.cycles.take (c.position + 1) := by
    rw [← h.course.take_succ, hplan]
    rcases hturns with hpace | ⟨⟨hrepeats, hkind⟩, -⟩
    · rw [cycles_of_pace hpace]
    · rw [hcycles, hcycles']
      exact ((hscheduled.lingers hrepeats).take_eq hcurrent hkind _).symm
  have hstep := nextCycle_of_some hcode'
  rw [hposition] at hstep
  cases hnext : c.latchResult.cycles[c.position + 1]? with
  | none =>
    rw [hnext] at hstep
    rw [hstep]
    refine Or.inr ⟨rfl, hcode', ⟨page, hscheduled⟩, ?_⟩
    have hlength := List.getElem?_eq_none_iff.mp hnext
    rw [hran, List.take_of_length_le hlength, hcycles']
    rfl
  | some next =>
    rw [hnext] at hstep
    have hplan' : c.latchResult.stepOn.plan = c.latchResult.cycles := by
      rw [plan]
      rw [show c.latchResult.stepOn.instruction = some code from hcode']
      rfl
    have hposition' : c.latchResult.stepOn.position = c.position + 1 :=
      congrArg (· + 1) hposition
    have hmem : next ∈ code.timing.cycles c.latchResult.conditionMet :=
      hcycles' ▸ List.mem_of_getElem? hnext
    have hpositive : 0 < next.tStates := by
      refine Nat.lt_of_lt_of_le ?_ (hscheduled.leads.minimumLength _ next hmem)
      cases next.kind <;> decide
    have hnotFetch := h.course.later_kind hcode (hcycles' ▸ hnext)
    refine Or.inl ?_
    constructor <;> rw [hstep]
    case course =>
      refine course_beginCycle ?_ hpositive (fun hnone => ?_) fun code' hsome => ?_
      · rw [hplan', hposition']
        exact hnext
      · cases hcode'.symm.trans hnone
      · obtain rfl := Option.some.inj (hcode'.symm.trans hsome)
        refine ⟨hcycles', ⟨page, hscheduled, ?_⟩, fun hread => ?_⟩
        · rw [hposition']
          exact Nat.le_succ_of_le hpast
        · exact hnotFetch
            ((CycleKind.Uses.opcodeFetch_iff ⟨_, rfl⟩).mpr (Or.inr (Or.inr hread)))
    case ran =>
      show c.latchResult.stepOn.ran = _
      rw [hran, ran, hplan', hposition']
    case first => rfl

/-- The plan of an opcode that stands behind a displacement. -/
theorem plan_displaced (hnone : c.instruction = none) (hdisplaced : c.page.displaced = true) :
    c.plan = [⟨.opcodeFetch, 4⟩, ⟨.opcodeFetch, 4⟩, ⟨.operand, 3⟩, ⟨.opcodeFetch, 3⟩] := by
  rw [plan, hnone, Page.approach_displaced hdisplaced, hdisplaced]
  rfl

section Seeking

/-! An opcode that is not complete: whatever the next cycle is, it is on course if the plan has it. -/

variable (h : c.Closes) (hnone : c.instruction = none)
include h hnone

theorem Closes.goesOn (d : Core) (kind : CycleKind) (length : Nat)
    (hdnone : d.instruction = none) (hpage : d.page = c.page) (hposition : d.position = c.position)
    (hnext : c.latchResult.nextCycle = (d.stepOn.beginCycle kind length, false))
    (hget : c.plan[c.position + 1]? = some ⟨kind, length⟩) (hlength : 0 < length)
    (hseeking : (d.stepOn.beginCycle kind length).Seeking 0) : c.GoesOn := by
  have hplan : d.stepOn.plan = c.plan := by
    rw [plan, plan, hnone, show d.stepOn.instruction = none from hdnone,
      show d.stepOn.page = c.page from hpage]
  have hposition' : d.stepOn.position = c.position + 1 := congrArg (· + 1) hposition
  constructor <;> rw [hnext]
  case course =>
    refine course_beginCycle ?_ hlength (fun _ => hseeking) fun code hcode => ?_
    · rw [hplan, hposition']
      exact hget
    · cases hdnone.symm.trans hcode
  case ran =>
    show d.stepOn.ran = _
    rw [← h.course.take_succ, ran, hplan, hposition']
  case first => rfl

/-- The prefix of a plain page is behind, and the opcode is next. -/
theorem Closes.goesOn_plain (hdisplaced : c.page.displaced = false) (hchain : c.chain = .opcode)
    (hshort : c.position < c.page.approach.length) : c.GoesOn := by
  have happroach : c.page.approach = [⟨.opcodeFetch, 4⟩] := by
    rcases Page.approach_plain hdisplaced with hempty | hone
    · rw [hempty] at hshort
      exact absurd hshort (Nat.not_lt_zero _)
    · exact hone
  have hposition : c.position = 0 := by
    rw [happroach] at hshort
    exact Nat.lt_one_iff.mp hshort
  have hplan : c.plan = [⟨.opcodeFetch, 4⟩, ⟨.opcodeFetch, 4⟩] := by
    rw [plan, hnone, happroach, hdisplaced]
    rfl
  have hcurrent := h.course.current
  rw [hplan, hposition] at hcurrent
  have hkind : .opcodeFetch = c.cycle.kind := (MachineCycle.mk.inj (Option.some.inj hcurrent)).1
  have hlatched : c.latchResult = c := by
    rw [latchResult_of_none hnone, if_neg (by rw [← hkind]; decide)]
  refine h.goesOn hnone c .opcodeFetch 4 hnone rfl rfl ?_ ?_ (by decide) ?_
  · rw [hlatched, nextCycle_of_none hnone, hchain]
  · rw [hplan, hposition]
    rfl
  · refine .fetching hdisplaced ?_ hchain (Or.inl ?_) (Nat.zero_le 4)
    · show c.position + 1 = c.page.approach.length
      rw [happroach, hposition]
      rfl
    · show c.stepOn.busPattern .opcodeFetch = .fetch
      rw [busPattern, if_neg (by rw [show c.stepOn.chain = .opcode from hchain]; decide),
        if_neg fun hfirst => Nat.succ_ne_zero _ hfirst.1]

/-- The prefix CB is behind, and the displacement is next. -/
theorem Closes.goesOn_prefix (hdisplaced : c.page.displaced = true)
    (hchain : c.chain = .displacement) (hposition : c.position = 1) : c.GoesOn := by
  have hplan := plan_displaced hnone hdisplaced
  have hcurrent := h.course.current
  rw [hplan, hposition] at hcurrent
  have hkind : .opcodeFetch = c.cycle.kind := (MachineCycle.mk.inj (Option.some.inj hcurrent)).1
  have hlatched : c.latchResult = c := by
    rw [latchResult_of_none hnone, if_neg (by rw [← hkind]; decide)]
  refine h.goesOn hnone c .operand 3 hnone rfl rfl ?_ ?_ (by decide) ?_
  · rw [hlatched, nextCycle_of_none hnone, hchain]
  · rw [hplan, hposition]
    rfl
  · refine .leading ?_ (fun _ => Nat.le_add_left 1 _) ?_ (by rintro ⟨⟩) ?_
    · show c.position + 1 < c.page.approach.length
      rw [Page.approach_displaced hdisplaced, hposition]
      decide
    · show c.chain = if c.page.displaced then _ else _
      rw [hchain, hdisplaced]
      rfl
    · exact BusPattern.noConfusion

/-- The displacement is behind, and the last byte is next. -/
theorem Closes.goesOn_displacement (hdisplaced : c.page.displaced = true)
    (hposition : c.position = 2) : c.GoesOn := by
  have hplan := plan_displaced hnone hdisplaced
  have hcurrent := h.course.current
  rw [hplan, hposition] at hcurrent
  have hkind : .operand = c.cycle.kind := (MachineCycle.mk.inj (Option.some.inj hcurrent)).1
  have hlatched : c.latchResult = c.keepDisplacement := by
    rw [latchResult_of_none hnone, if_pos hkind.symm]
  refine h.goesOn hnone c.keepDisplacement .opcodeFetch 3 hnone rfl rfl ?_ ?_ (by decide) ?_
  · rw [hlatched, nextCycle_of_none (c := c.keepDisplacement) hnone]
    rfl
  · rw [hplan, hposition]
    rfl
  · refine .reading hdisplaced ?_ rfl rfl (Nat.zero_le 5)
    show c.position + 1 = 3
    rw [hposition]

/-- The end of a cycle of an opcode that is not complete. -/
theorem Closes.next_of_none : c.GoesOn := by
  have hlast := h.last
  cases h.course.seeking hnone with
  | fetching plain here chain pattern early =>
    -- the cycle is over, and so its byte has been looked up
    have hcurrent := h.course.current
    rw [plan, hnone] at hcurrent
    dsimp only at hcurrent
    rw [here, List.getElem?_append_right (Nat.le_refl _), Nat.sub_self, plain] at hcurrent
    have hlength : c.cycle.length = 4 := (MachineCycle.mk.inj (Option.some.inj hcurrent)).2.symm
    omega
  | reading displaced here chain pattern early =>
    refine absurd (Or.inr ⟨pattern, ?_⟩) h.taken
    have hcurrent := h.course.current
    have hcycle := h.course.half_lt
    rw [here, plan_displaced hnone displaced] at hcurrent
    have hlength : c.cycle.length = 3 := (MachineCycle.mk.inj (Option.some.inj hcurrent)).2.symm
    omega
  | leading short started chain late pattern =>
    cases hdisplaced : c.page.displaced with
    | false =>
      rw [hdisplaced] at chain
      exact h.goesOn_plain hnone hdisplaced chain short
    | true =>
      have hstarted := started hdisplaced
      rw [hdisplaced] at chain
      rw [Page.approach_displaced hdisplaced] at short
      have hshort : c.position < 3 := short
      obtain hposition | hposition : c.position = 1 ∨ c.position = 2 := by omega
      · exact h.goesOn_prefix hnone hdisplaced chain hposition
      · exact h.goesOn_displacement hnone hdisplaced hposition

end Seeking

/-- The end of a cycle: the next one is on course with one more cycle behind it, or the instruction
    has run all its cycles. -/
theorem Closes.next (h : c.Closes) :
    c.GoesOn
      ∨ (c.latchResult.nextCycle.2 = true
        ∧ ∃ code, c.latchResult.nextCycle.1.instruction = some code
          ∧ (∃ page, code.Scheduled page)
          ∧ c.ran ++ [⟨c.cycle.kind, c.cycle.length⟩]
            = code.timing.cycles c.latchResult.nextCycle.1.conditionMet) := by
  cases hcode : c.instruction with
  | none => exact Or.inl (h.next_of_none hcode)
  | some code =>
    exact (h.next_of_some hcode).imp id fun hend => ⟨hend.1, code, hend.2⟩

/-- Latching leaves the chip in its phase and its instruction. -/
theorem steady_latchResult : c.Steady c.latchResult := by
  cases h : c.instruction with
  | none =>
    rw [latchResult_of_none h]
    split <;> exact ⟨rfl, rfl, rfl, rfl, rfl, rfl, rfl⟩
  | some code =>
    have hstow : c.Steady (c.stow code) := by
      rw [stow]
      cases c.cycle.kind
      case operandHigh =>
        dsimp only
        split <;> exact ⟨rfl, rfl, rfl, rfl, rfl, rfl, rfl⟩
      all_goals exact ⟨rfl, rfl, rfl, rfl, rfl, rfl, rfl⟩
    rw [latchResult_of_some h]
    split
    · exact ⟨rfl, rfl, rfl, rfl, rfl, rfl, rfl⟩
    split
    · exact ⟨rfl, rfl, rfl, rfl, rfl, rfl, rfl⟩
    · rw [control_execute]
      exact ⟨hstow.phase, hstow.pending, hstow.nmiPending, hstow.nmiSeen, hstow.time,
        hstow.origin, hstow.counter⟩

/-- So does setting up the next cycle. -/
theorem steady_nextCycle (c : Core) : c.Steady c.nextCycle.1 := by
  cases h : c.instruction with
  | none =>
    rw [nextCycle_of_none h]
    cases c.chain <;> exact ⟨rfl, rfl, rfl, rfl, rfl, rfl, rfl⟩
  | some code =>
    rw [nextCycle_of_some h]
    cases c.cycles[c.position + 1]? <;> exact ⟨rfl, rfl, rfl, rfl, rfl, rfl, rfl⟩

/-! ## The start of an instruction -/

/-- Nothing is known of the instruction yet. -/
structure Fresh (c : Core) : Prop where
  page : c.page = .main
  chain : c.chain = .opcode
  position : c.position = 0
  instruction : c.instruction = none
  conditionMet : c.conditionMet = false

/-- The first fetch of an instruction is an acknowledge if that begins with one. -/
theorem busPattern_first (hchain : c.chain = .opcode) (hposition : c.position = 0) :
    c.busPattern .opcodeFetch = if c.acknowledging then .acknowledge else .fetch := by
  unfold Core.busPattern
  dsimp only
  rw [hchain, hposition]
  cases c.acknowledging <;> rfl

/-- With the opcode not begun, a fetch is not behind a displacement. -/
theorem Fresh.busPattern (h : c.Fresh) :
    c.busPattern .opcodeFetch = .fetch ∨ c.busPattern .opcodeFetch = .acknowledge := by
  rw [busPattern_first h.chain h.position]
  split
  · exact Or.inr rfl
  · exact Or.inl rfl

/-- The fetch of an opcode starts on course, with no cycle behind it. -/
theorem Fresh.startFetch (h : c.Fresh) (origin : Origin) :
    (c.startFetch origin).Course 0 ∧ (c.startFetch origin).cycle.half = 0
      ∧ (c.startFetch origin).ran = [] := by
  have hfresh : ({ c with origin } : Core).Fresh :=
    ⟨h.page, h.chain, h.position, h.instruction, h.conditionMet⟩
  have hplan : ({ c with origin } : Core).plan = [⟨.opcodeFetch, 4⟩] := by
    rw [plan, hfresh.instruction, hfresh.page]
    rfl
  refine ⟨course_beginCycle ?_ (by decide) (fun _ => ?_) fun code hcode => ?_, rfl, ?_⟩
  · rw [hplan, hfresh.position]
    rfl
  · refine .fetching ?_ ?_ h.chain hfresh.busPattern (Nat.zero_le 4)
    · show c.page.displaced = false
      rw [h.page]
      rfl
    · show c.position = c.page.approach.length
      rw [h.page, h.position]
      rfl
  · cases h.instruction.symm.trans hcode
  · show ran { c with origin } = []
    rw [ran, hfresh.position]
    rfl

/-- An operation without an opcode starts on course, with no cycle behind it. -/
theorem Fresh.startInternal (h : c.Fresh) (op : InternalOp) :
    (c.startInternal op).Course 0 ∧ (c.startInternal op).cycle.half = 0
      ∧ (c.startInternal op).ran = [] := by
  have hscheduled := internal_scheduled op
  obtain ⟨length, hfetch⟩ := hscheduled.leads.exists_fetch
  have hfirst : (decoder.internal op).timing.primary.cycles[0]? = some ⟨.opcodeFetch, length⟩ := by
    rw [← Timings.cycles_false]
    exact hfetch false
  -- its first cycle is a fetch of full length, so the chip is on course at half-period 0
  have hlong : 4 ≤ length := by
    have hmem : ⟨.opcodeFetch, length⟩ ∈ (decoder.internal op).timing.cycles false :=
      List.mem_of_getElem? (hfetch false)
    exact hscheduled.leads.minimumLength _ _ hmem
  have hstart : c.startInternal op = ({ c with
      origin := .internal op
      instruction := some (decoder.internal op)
      cycles := (decoder.internal op).timing.primary.cycles } : Core).beginCycle .opcodeFetch
        length := by
    unfold Core.startInternal
    dsimp only
    cases hcycles : (decoder.internal op).timing.primary.cycles with
    | nil =>
      rw [hcycles] at hfirst
      exact nomatch hfirst
    | cons first rest =>
      rw [hcycles] at hfirst
      rw [Option.some.inj hfirst]
  rw [hstart]
  refine ⟨course_beginCycle ?_ (by omega) (fun hnone => nomatch hnone) fun code hcode => ?_, rfl, ?_⟩
  · show (decoder.internal op).timing.primary.cycles[c.position]? = _
    rw [h.position, hfirst]
  · obtain rfl := Option.some.inj hcode
    refine ⟨?_, ⟨.main, hscheduled, Nat.zero_le _⟩, ?_⟩
    · show (decoder.internal op).timing.primary.cycles = _
      rw [show ({ c with
          origin := .internal op
          instruction := some (decoder.internal op)
          cycles := (decoder.internal op).timing.primary.cycles } : Core).conditionMet = false
        from h.conditionMet, Timings.cycles_false]
    · rw [Core.busPattern, if_neg (by rw [show Core.chain _ = .opcode from h.chain]; decide)]
      split <;> exact BusPattern.noConfusion
  · show List.take c.position _ = []
    rw [h.position]
    rfl

/-- Leaving a HALT tells nothing of the next instruction. -/
theorem Fresh.leaveHalt (h : c.Fresh) : c.leaveHalt.Fresh := by
  rw [Core.leaveHalt]
  split
  · exact ⟨h.page, h.chain, h.position, h.instruction, h.conditionMet⟩
  · exact h

/-- Whichever instruction comes next, it starts on course, with no cycle behind it. -/
theorem course_resolveNext (c : Core) :
    c.resolveNext.Course 0 ∧ c.resolveNext.cycle.half = 0 ∧ c.resolveNext.ran = [] := by
  have hcleared : ({ c.clearInstruction with intBlocked := false } : Core).Fresh :=
    ⟨rfl, rfl, rfl, rfl, rfl⟩
  have hleft := hcleared.leaveHalt
  rw [resolveNext]
  dsimp only
  split
  · exact Fresh.startInternal (c := { Core.leaveHalt _ with nmiPending := false, regs.iff1 := false })
      ⟨hleft.page, hleft.chain, hleft.position, hleft.instruction, hleft.conditionMet⟩ .nmi
  split
  · have hserved : ({ ({ c.clearInstruction with intBlocked := false } : Core).leaveHalt with
        regs.iff1 := false
        regs.iff2 := false } : Core).Fresh :=
      ⟨hleft.page, hleft.chain, hleft.position, hleft.instruction, hleft.conditionMet⟩
    rw [acceptInt]
    dsimp only
    split
    · exact hserved.startFetch .device
    split
    · exact hserved.startInternal .intMode1
    · exact hserved.startInternal .intMode2
  split
  · exact hcleared.startInternal .haltNop
  · exact hcleared.startFetch _

end Core

end Z80Board
