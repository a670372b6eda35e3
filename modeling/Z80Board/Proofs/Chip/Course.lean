import Z80Board.Proofs.Chip.Wiring
import Z80Board.Proofs.Isa.Templates

/-! # The course of an instruction

    The cycles of an instruction are run before it is known which instruction it is.  So the chip
    follows a plan: as long as the opcode is being put together, the way to the page and a fetch of
    the usual length; afterwards the cycles of the instruction.  A chip is on course when its current
    cycle is the one that the plan has at its position, when the half-period to come lies in that
    cycle, and when the plan can still be kept: an opcode byte is still to be taken in where one is
    missing, and an instruction that is known is scheduled for the position it has reached.

    Each step of the chip keeps it on course, and says what becomes of the cycles that the chip has
    run.  An opcode byte does not change them, except that a prefix without effect starts the count
    over; a timing chosen in the middle of the instruction agrees with them; and the end of a cycle
    adds this cycle to them.  At the end of an instruction they are all the cycles it has. -/

namespace Z80Board

/-- Without a condition met, the primary cycles run. -/
theorem Timings.cycles_false (t : Timings) : t.cycles false = t.primary.cycles := by
  cases t with
  | mk primary alternate => cases alternate <;> rfl

/-- The page is reached over a displacement. -/
def Page.displaced : Page → Bool
  | .ddcb | .fdcb => true
  | _ => false

/-- The way to a displaced page. -/
theorem Page.approach_displaced {page : Page} (h : page.displaced = true) :
    page.approach = [⟨.opcodeFetch, 4⟩, ⟨.opcodeFetch, 4⟩, ⟨.operand, 3⟩] := by
  cases page with
  | ddcb | fdcb => rfl
  | main | cb | dd | ed | fd => exact nomatch h

/-- The way to any other page. -/
theorem Page.approach_plain {page : Page} (h : page.displaced = false) :
    page.approach = [] ∨ page.approach = [⟨.opcodeFetch, 4⟩] := by
  cases page with
  | main => exact Or.inl rfl
  | cb | dd | ed | fd => exact Or.inr rfl
  | ddcb | fdcb => exact nomatch h

/-- Where a prefix byte leads. -/
theorem Page.lead_cases {page : Page} {byte : Byte} {action : Action}
    (h : page.lead? byte = some action) :
    (page = .main ∧ ∃ next : Page, action = .fetchNext next ∧ next.displaced = false
        ∧ next.approach = [⟨.opcodeFetch, 4⟩])
      ∨ ((page = .dd ∨ page = .fd) ∧ ∃ next : Page, action = .fetchDisplacement next
        ∧ next.displaced = true
        ∧ next.approach = [⟨.opcodeFetch, 4⟩, ⟨.opcodeFetch, 4⟩, ⟨.operand, 3⟩]) := by
  unfold lead? at h
  cases page with
  | main =>
    refine Or.inl ⟨rfl, ?_⟩
    dsimp only at h
    split at h
    · exact ⟨.cb, (Option.some.inj h).symm, rfl, rfl⟩
    split at h
    · exact ⟨.dd, (Option.some.inj h).symm, rfl, rfl⟩
    split at h
    · exact ⟨.ed, (Option.some.inj h).symm, rfl, rfl⟩
    split at h
    · exact ⟨.fd, (Option.some.inj h).symm, rfl, rfl⟩
    · exact nomatch h
  | dd =>
    dsimp only at h
    split at h
    · exact Or.inr ⟨Or.inl rfl, .ddcb, (Option.some.inj h).symm, rfl, rfl⟩
    · exact nomatch h
  | fd =>
    dsimp only at h
    split at h
    · exact Or.inr ⟨Or.inr rfl, .fdcb, (Option.some.inj h).symm, rfl, rfl⟩
    · exact nomatch h
  | cb | ed | ddcb | fdcb => exact nomatch h

/-- The kind of cycle can use the buses by the pattern. -/
def CycleKind.Uses (kind : CycleKind) (pattern : BusPattern) : Prop :=
  ∃ c : Core, c.busPattern kind = pattern

/-- The patterns that bring in a byte of the opcode belong to fetches. -/
theorem CycleKind.Uses.opcodeFetch_iff {kind : CycleKind} {pattern : BusPattern}
    (h : kind.Uses pattern) :
    kind = .opcodeFetch
      ↔ pattern = .fetch ∨ pattern = .acknowledge ∨ pattern = .opcodeRead := by
  obtain ⟨c, rfl⟩ := h
  simp only [Core.busPattern]
  cases kind
  case opcodeFetch =>
    refine ⟨fun _ => ?_, fun _ => rfl⟩
    dsimp only
    split
    · exact Or.inr (Or.inr rfl)
    split
    · exact Or.inr (Or.inl rfl)
    · exact Or.inl rfl
  all_goals
    dsimp only
    decide

/-- The shortest cycle that has room for the pattern. -/
def BusPattern.minimumLength : BusPattern → Nat
  | .fetch | .acknowledge | .portRead | .portWrite => 4
  | .opcodeRead | .read | .write | .internal => 3

namespace BusPattern

variable (pattern : BusPattern)

theorem three_le_minimumLength : 3 ≤ pattern.minimumLength := by cases pattern <;> decide

/-- The address and the strobes of a cycle are out before it takes its byte in. -/
theorem four_le_sampleHalf : 4 ≤ pattern.sampleHalf := by cases pattern <;> decide

theorem sampleHalf_ne_zero : pattern.sampleHalf ≠ 0 :=
  Nat.ne_of_gt (Nat.lt_of_lt_of_le (by decide) pattern.four_le_sampleHalf)

/-- The byte is in before the cycle can end. -/
theorem sampleHalf_lt : pattern.sampleHalf < 2 * pattern.minimumLength := by
  cases pattern <;> decide

end BusPattern

/-- A kind of cycle is never too short for the pattern it uses. -/
theorem CycleKind.Uses.minimumLength_le {kind : CycleKind} {pattern : BusPattern}
    (h : kind.Uses pattern) : pattern.minimumLength ≤ kind.minimumLength := by
  obtain ⟨c, rfl⟩ := h
  cases kind
  case opcodeFetch =>
    rw [Core.busPattern]
    split
    · decide
    · split <;> decide
  all_goals exact Nat.le_refl _

namespace Core

/-! ## Plan and place -/

/-- The cycles of the instruction, or as long as it is not known, the way to the page and a fetch.
    The fetch behind a displacement is shorter. -/
def plan (c : Core) : List MachineCycle :=
  match c.instruction with
  | some _ => c.cycles
  | none => c.page.approach ++ [⟨.opcodeFetch, if c.page.displaced then 3 else 4⟩]

/-- The cycles of the plan that lie behind. -/
def ran (c : Core) : List MachineCycle :=
  c.plan.take c.position

/-- Where the chip stands in the opcode and in the plan, and the cycle it runs. -/
def place (c : Core) : Page × Chain × Nat × Bool × CycleKind × BusPattern × Nat :=
  (c.page, c.chain, c.position, c.acknowledging, c.cycle.kind, c.cycle.pattern, c.cycle.length)

section

variable {c c' : Core}

theorem page_of_place (h : c'.place = c.place) : c'.page = c.page :=
  congrArg (·.1) h

theorem position_of_place (h : c'.place = c.place) : c'.position = c.position :=
  congrArg (·.2.2.1) h

theorem pattern_of_place (h : c'.place = c.place) : c'.cycle.pattern = c.cycle.pattern :=
  congrArg (·.2.2.2.2.2.1) h

end

/-- At this half-period the chip takes in a byte of the opcode. -/
def TakesByte (c : Core) (half : Nat) : Prop :=
  ((c.cycle.pattern = .fetch ∨ c.cycle.pattern = .acknowledge) ∧ half = 4)
    ∨ (c.cycle.pattern = .opcodeRead ∧ half = 5)

/-- Where the chip can stand as long as the opcode is not complete, with a half-period to come. -/
inductive Seeking (c : Core) (half : Nat) : Prop where
  /-- It fetches a byte, and has not taken it in yet. -/
  | fetching (plain : c.page.displaced = false) (here : c.position = c.page.approach.length)
      (chain : c.chain = .opcode)
      (pattern : c.cycle.pattern = .fetch ∨ c.cycle.pattern = .acknowledge) (early : half ≤ 4)
  /-- It reads the byte behind a displacement, and has not taken it in yet. -/
  | reading (displaced : c.page.displaced = true) (here : c.position = 3)
      (chain : c.chain = .opcodeAfterDisplacement) (pattern : c.cycle.pattern = .opcodeRead)
      (early : half ≤ 5)
  /-- It has taken in a byte that leads on, or reads the displacement. -/
  | leading (short : c.position < c.page.approach.length)
      (started : c.page.displaced = true → 1 ≤ c.position)
      (chain : c.chain = if c.page.displaced then .displacement else .opcode)
      (late : c.cycle.kind = .opcodeFetch → 4 < half) (pattern : c.cycle.pattern ≠ .opcodeRead)

/-- The chip is on course, with a half-period to come. -/
structure Course (c : Core) (half : Nat) : Prop where
  current : c.plan[c.position]? = some ⟨c.cycle.kind, c.cycle.length⟩
  half_lt : half < 2 * c.cycle.length
  uses : c.cycle.kind.Uses c.cycle.pattern
  acknowledges : c.cycle.pattern = .acknowledge → c.acknowledging = true ∧ c.position = 0
  seeking : c.instruction = none → c.Seeking half
  scheduled : ∀ code, c.instruction = some code →
    c.cycles = code.timing.cycles c.conditionMet
      ∧ (∃ page, code.Scheduled page ∧ page.approach.length ≤ c.position)
      ∧ (c.cycle.pattern = .opcodeRead → 5 < half)

variable {c c' : Core} {half : Nat}

/-- The plan follows from the pace and the place. -/
theorem plan_congr (hpace : c'.pace = c.pace) (hplace : c'.place = c.place) : c'.plan = c.plan := by
  simp only [plan]
  rw [instruction_of_pace hpace, cycles_of_pace hpace, page_of_place hplace]

/-- What has been run follows from the pace and the place. -/
theorem ran_congr (hpace : c'.pace = c.pace) (hplace : c'.place = c.place) : c'.ran = c.ran := by
  rw [ran, ran, plan_congr hpace hplace]
  rw [position_of_place hplace]

/-- Whether a chip is on course depends on its pace and its place alone. -/
theorem Course.congr (h : c.Course half) (hpace : c'.pace = c.pace) (hplace : c'.place = c.place) :
    c'.Course half := by
  have hplan := plan_congr hpace hplace
  simp only [pace, place, Prod.mk.injEq] at hpace hplace
  obtain ⟨hinstruction, hcycles, hmet⟩ := hpace
  obtain ⟨hpage, hchain, hposition, hack, hkind, hpattern, hlength⟩ := hplace
  refine ⟨?_, ?_, ?_, ?_, fun hnone => ?_, fun code hcode => ?_⟩
  · rw [hplan, hposition, hkind, hlength]
    exact h.current
  · rw [hlength]
    exact h.half_lt
  · rw [hkind, hpattern]
    exact h.uses
  · rw [hpattern, hack, hposition]
    exact h.acknowledges
  · cases h.seeking (hinstruction ▸ hnone) with
    | fetching plain here chain pattern early =>
      exact .fetching (hpage ▸ plain) (by rw [hposition, hpage, here]) (hchain ▸ chain)
        (hpattern ▸ pattern) early
    | reading displaced here chain pattern early =>
      exact .reading (hpage ▸ displaced) (hposition ▸ here) (hchain ▸ chain) (hpattern ▸ pattern)
        early
    | leading short started chain late pattern =>
      exact .leading (by rw [hposition, hpage]; exact short) (by rw [hposition, hpage]; exact started)
        (by rw [hchain, hpage]; exact chain) (by rw [hkind]; exact late) (hpattern ▸ pattern)
  · rw [hcycles, hmet, hposition, hpattern]
    exact h.scheduled code (hinstruction ▸ hcode)

/-! ## An instruction that is known -/

/-- Acting leaves the place as it is. -/
theorem place_execute (c : Core) (point : ExecPoint) : (c.execute point).place = c.place := by
  rw [control_execute]
  rfl

/-- Taking up an instruction changes the datapath alone. -/
theorem control_takeUp (c : Core) (code : Instruction) :
    c.takeUp code = (c.takeUp code).under c := by
  rw [takeUp, placeDisplacement]
  dsimp only
  split <;> rfl

/-- An instruction that is taken up runs its primary cycles. -/
theorem pace_takeUp (c : Core) (code : Instruction) :
    (c.takeUp code).pace = (some code, code.timing.cycles false, false) := by
  rw [Timings.cycles_false]
  rw [takeUp, placeDisplacement]
  dsimp only
  split <;> rfl

theorem instruction_takeUp (c : Core) (code : Instruction) :
    (c.takeUp code).instruction = some code :=
  congrArg (·.1) (pace_takeUp c code)

theorem cycles_takeUp (c : Core) (code : Instruction) :
    (c.takeUp code).cycles = code.timing.cycles (c.takeUp code).conditionMet :=
  have hpace := pace_takeUp c code
  (congrArg (·.2.1) hpace).trans (congrArg (fun pace => code.timing.cycles pace.2.2) hpace).symm

/-- Whatever timing is chosen, it is one of the two that the instruction has. -/
theorem TurnsIf.cycles {code : Instruction} {test : Prop} (h : c.TurnsIf c' test)
    (hcode : c.instruction = some code) (hcycles : c.cycles = code.timing.cycles c.conditionMet) :
    c'.instruction = some code ∧ c'.cycles = code.timing.cycles c'.conditionMet := by
  rcases h with hpace | ⟨-, met, hpace⟩
  · simp only [pace, Prod.mk.injEq] at hpace
    rw [hpace.1, hpace.2.1, hpace.2.2]
    exact ⟨hcode, hcycles⟩
  · simp only [pace, takeAlternate, hcode, Prod.mk.injEq] at hpace
    rw [hpace.1, hpace.2.1, hpace.2.2]
    exact ⟨rfl, rfl⟩

/-- At the fetch that completes the opcode, the current cycle takes the length that the timing gives
    to it.  The cycles behind are those that lead to the page. -/
theorem course_fitLength {code : Instruction} {page : Page} (hcode : c.instruction = some code)
    (hcycles : c.cycles = code.timing.cycles c.conditionMet) (hscheduled : code.Scheduled page)
    (hhere : c.position = page.approach.length) (hkind : c.cycle.kind = .opcodeFetch)
    (huses : c.cycle.kind.Uses c.cycle.pattern)
    (hack : c.cycle.pattern = .acknowledge → c.acknowledging = true ∧ c.position = 0)
    (hearly : half < 7) (hlate : c.cycle.pattern = .opcodeRead → 4 < half) :
    c.fitLength.Course (half + 1) ∧ c.fitLength.ran = page.approach := by
  obtain ⟨length, hfetch⟩ := hscheduled.leads.exists_fetch
  have hget : c.cycles[c.position]? = some ⟨.opcodeFetch, length⟩ := by
    rw [hcycles, hhere]
    exact hfetch _
  have hlength : c.templateLength = length := by
    rw [templateLength]
    rw [hget]
  have hlong : 4 ≤ length := by
    have hmem : ⟨.opcodeFetch, length⟩ ∈ code.timing.cycles c.conditionMet :=
      hcycles ▸ List.mem_of_getElem? hget
    exact hscheduled.leads.minimumLength _ _ hmem
  have hplan : c.fitLength.plan = c.cycles := by
    rw [plan]
    rw [show c.fitLength.instruction = some code from hcode]
    rfl
  refine ⟨⟨?_, ?_, huses, hack, fun hnone => ?_, fun code' hcode' => ?_⟩, ?_⟩
  · rw [hplan]
    show c.cycles[c.position]? = some ⟨c.cycle.kind, c.templateLength⟩
    rw [hget, hkind, hlength]
  · show half + 1 < 2 * c.templateLength
    omega
  · exact nomatch hcode.symm.trans hnone
  · obtain rfl := Option.some.inj (hcode.symm.trans hcode')
    refine ⟨hcycles, ⟨page, hscheduled, Nat.le_of_eq hhere.symm⟩, fun hread => ?_⟩
    have := hlate hread
    omega
  · rw [ran, hplan]
    show c.cycles.take c.position = page.approach
    rw [hcycles, hhere]
    exact hscheduled.leads.take_approach _

/-! ## A byte of the opcode -/

/-- The chip is about to look a byte up on the page, which the way behind it leads to. -/
structure Looks (c : Core) (page : Page) (half : Nat) : Prop where
  unknown : c.instruction = none
  here : c.position = page.approach.length
  takes : c.TakesByte half
  kind : c.cycle.kind = .opcodeFetch
  uses : c.cycle.kind.Uses c.cycle.pattern
  acknowledges : c.cycle.pattern = .acknowledge → c.acknowledging = true ∧ c.position = 0
  plain : page.displaced = false → c.cycle.length = 4 ∧ c.cycle.pattern ≠ .opcodeRead

/-- Bytes are taken in early in a cycle. -/
theorem TakesByte.early (h : c.TakesByte half) : 4 ≤ half ∧ half ≤ 5 := by
  rcases h with ⟨-, hhalf⟩ | ⟨-, hhalf⟩ <;> omega

/-- They are taken in where the pattern has it. -/
theorem TakesByte.half_eq (h : c.TakesByte half) : half = c.cycle.pattern.sampleHalf := by
  rcases h with ⟨hpattern | hpattern, hhalf⟩ | ⟨hpattern, hhalf⟩ <;> rw [hpattern] <;> exact hhalf

/-- Such a cycle is a fetch. -/
theorem TakesByte.kind (h : c.TakesByte half) (huses : c.cycle.kind.Uses c.cycle.pattern) :
    c.cycle.kind = .opcodeFetch := by
  refine huses.opcodeFetch_iff.mpr ?_
  rcases h with ⟨hfetch | hack, -⟩ | ⟨hread, -⟩
  · exact Or.inl hfetch
  · exact Or.inr (Or.inl hack)
  · exact Or.inr (Or.inr hread)

theorem TakesByte.effect_eq (h : c.TakesByte half) (byte : Byte) :
    c.effect half byte = c.takeIn byte := by
  have hearly := h.early
  rw [effect, if_neg fun hfirst => by omega, if_pos h.half_eq]

/-- On a page that is not displaced, a byte is fetched. -/
theorem Looks.half_eq {page : Page} (h : c.Looks page half) (hplain : page.displaced = false) :
    half = 4 := by
  rcases h.takes with ⟨-, hhalf⟩ | ⟨hread, -⟩
  · exact hhalf
  · exact absurd hread (h.plain hplain).2

/-- A chip whose byte leads on to a page. -/
theorem Looks.course_of_lead {page : Page} (next : Page) (h : c.Looks page half)
    (hplain : page.displaced = false) (hnone : c'.instruction = none) (hpage : c'.page = next)
    (hchain : c'.chain = if next.displaced then .displacement else .opcode)
    (hposition : c'.position = c.position) (hack : c'.acknowledging = c.acknowledging)
    (hcycle : c'.cycle = c.cycle) (hshort : page.approach.length < next.approach.length)
    (hstarted : next.displaced = true → 1 ≤ page.approach.length)
    (hfetch : next.approach[page.approach.length]? = some ⟨.opcodeFetch, 4⟩)
    (htake : next.approach.take page.approach.length = page.approach) :
    c'.Course (half + 1) ∧ c'.ran = page.approach := by
  have hhalf := h.half_eq hplain
  obtain ⟨hlength, hread⟩ := h.plain hplain
  have hhere : c'.position = page.approach.length := hposition.trans h.here
  have hplan : c'.plan = next.approach ++ [⟨.opcodeFetch, if next.displaced then 3 else 4⟩] := by
    rw [plan]
    rw [hnone, hpage]
  refine ⟨⟨?_, ?_, ?_, ?_, fun _ => ?_, fun code hcode => ?_⟩, ?_⟩
  · rw [hplan, hhere, hcycle, List.getElem?_append_left hshort, hfetch, h.kind, hlength]
  · rw [hcycle, hlength]
    omega
  · rw [hcycle]
    exact h.uses
  · rw [hcycle, hack, hposition]
    exact h.acknowledges
  · refine .leading ?_ (fun hdisplaced => ?_) (hpage ▸ hchain) (fun _ => ?_) ?_
    · rw [hhere, hpage]
      exact hshort
    · rw [hhere]
      exact hstarted (hpage ▸ hdisplaced)
    · omega
    · rw [hcycle]
      exact hread
  · exact nomatch hnone.symm.trans hcode
  · rw [ran, hplan, hhere, List.take_append_of_le_length (Nat.le_of_lt hshort), htake]

/-- A chip that takes up an instruction of the page. -/
theorem Looks.course_of_entitled {page : Page} {code : Instruction} (h : c.Looks page half)
    (hcode : Listing.Entitled Catalog.forms page code) :
    (c.beginExecution code).Course (half + 1) ∧ (c.beginExecution code).ran = page.approach := by
  have hplace : ((c.takeUp code).execute .decoded).place = c.place := by
    rw [place_execute, control_takeUp]
    rfl
  simp only [place, Prod.mk.injEq] at hplace
  obtain ⟨-, -, hposition, hack, hkind, hpattern, -⟩ := hplace
  have hinstruction := instruction_takeUp c code
  obtain ⟨hinstruction', hcycles'⟩ :=
    (turns_execute (c.takeUp code) hinstruction .decoded).cycles hinstruction (cycles_takeUp c code)
  have hearly := h.takes.early
  rw [beginExecution_eq]
  refine course_fitLength hinstruction' hcycles' hcode.scheduled (hposition.trans h.here)
    (hkind.trans h.kind) (by rw [hkind, hpattern]; exact h.uses) ?_ (by omega) (fun _ => ?_)
  · rw [hpattern, hack, hposition]
    exact h.acknowledges
  · rcases h.takes with ⟨hfetch, -⟩ | ⟨-, hhalf⟩
    · next hread =>
      rw [hpattern] at hread
      rw [hread] at hfetch
      exact absurd hfetch (by decide)
    · omega

/-- Whatever the byte is, unless it is handed to another page the chip stays on course, with the
    same cycles behind it. -/
theorem Looks.follow {page : Page} (h : c.Looks page half) {byte : Byte}
    (again : Core → Page → Core) (hkeep : ∀ next, (decode page byte).action ≠ .redecode next) :
    (c.follow (decode page byte) again).Course (half + 1)
      ∧ (c.follow (decode page byte) again).ran = page.approach := by
  rw [Core.follow]
  -- a lead keeps the chip on the way to its opcode; an instruction replaces the way by a plan
  rcases decode_cases page byte with ⟨action, hlead, haction⟩ | ⟨-, haction⟩ | hentitled
  · rw [haction]
    rcases Page.lead_cases hlead with
      ⟨rfl, next, rfl, hplain, hnext⟩ | ⟨hpage, next, rfl, hdisplaced, hnext⟩
    · refine h.course_of_lead next rfl h.unknown rfl ?_ rfl rfl rfl ?_ ?_ ?_ ?_
      · rw [hplain]
        rfl
      · rw [hnext]
        decide
      · rw [hplain]
        decide
      · rw [hnext]
        rfl
      · rfl
    · have happroach : page.approach = [⟨.opcodeFetch, 4⟩] := by
        rcases hpage with rfl | rfl <;> rfl
      refine h.course_of_lead next (by rcases hpage with rfl | rfl <;> rfl) h.unknown rfl
        ?_ rfl rfl rfl ?_ ?_ ?_ ?_
      · rw [hdisplaced]
        rfl
      · rw [hnext, happroach]
        decide
      · rw [happroach]
        exact fun _ => Nat.le_refl 1
      · rw [hnext, happroach]
        rfl
      · rw [hnext, happroach]
        rfl
  · exact absurd haction (hkeep _)
  · have haction : (decode page byte).action = .execute := by
      obtain ⟨_, _, _, _, hcode⟩ := hentitled
      exact hcode.action
    rw [haction]
    exact h.course_of_entitled hentitled

/-- The page of the chip hands the byte to another page: the prefix in front of it has no effect. -/
def drops (c : Core) (byte : Byte) : Bool :=
  match (decode c.page byte).action with
  | .redecode _ => true
  | _ => false

/-- Only an index page hands a byte on, and only to the main page. -/
theorem drops_cases {byte : Byte} (h : c.drops byte = true) :
    (c.page = .dd ∨ c.page = .fd) ∧ (decode c.page byte).action = .redecode .main := by
  rcases decode_cases c.page byte with ⟨action, hlead, haction⟩ | hhanded | hentitled
  · rw [drops] at h
    rw [haction] at h
    rcases Page.lead_cases hlead with ⟨-, _, rfl, -⟩ | ⟨-, _, rfl, -⟩ <;> exact nomatch h
  · exact hhanded
  · obtain ⟨_, _, _, _, hcode⟩ := hentitled
    rw [drops] at h
    rw [hcode.action] at h
    exact nomatch h

/-- A page that does not hand a byte on keeps it. -/
theorem keeps_of_not_drops {byte : Byte} (h : ¬ c.drops byte = true) (next : Page) :
    (decode c.page byte).action ≠ .redecode next := by
  intro haction
  rw [drops] at h
  rw [haction] at h
  exact h rfl

/-- The main page keeps every byte. -/
theorem main_keeps (byte : Byte) (next : Page) : (decode .main byte).action ≠ .redecode next := by
  rcases decode_cases .main byte with ⟨action, hlead, haction⟩ | ⟨hpage, -⟩ | hentitled
  · rw [haction]
    rcases Page.lead_cases hlead with ⟨-, _, rfl, -⟩ | ⟨-, _, rfl, -⟩ <;> exact Action.noConfusion
  · exact absurd hpage (by decide)
  · obtain ⟨_, _, _, _, hcode⟩ := hentitled
    rw [hcode.action]
    exact Action.noConfusion

/-- A byte that is looked up keeps the chip on course.  The cycles behind it stay as they are; a
    prefix without effect is not counted among them any more. -/
theorem Looks.dispatch (h : c.Looks c.page half) (byte : Byte) :
    (c.dispatch byte).Course (half + 1)
      ∧ if c.drops byte then c.ran = [⟨.opcodeFetch, 4⟩] ∧ (c.dispatch byte).ran = []
        else (c.dispatch byte).ran = c.ran := by
  have hran : c.ran = c.page.approach := by
    rw [ran, plan]
    rw [h.unknown, h.here]
    exact List.take_left
  have hpushed : ({ c with opcode := c.opcode.push byte } : Core).Looks c.page half :=
    ⟨h.unknown, h.here, h.takes, h.kind, h.uses, h.acknowledges, h.plain⟩
  rw [Core.dispatch]
  dsimp only
  by_cases hdrops : c.drops byte = true
  · obtain ⟨hpage, haction⟩ := drops_cases hdrops
    have happroach : c.page.approach = [⟨.opcodeFetch, 4⟩] := by
      rcases hpage with hpage | hpage <;> rw [hpage] <;> rfl
    have hplain : c.page.displaced = false := by
      rcases hpage with hpage | hpage <;> rw [hpage] <;> rfl
    have hmain : ({ c with opcode := c.opcode.push byte, position := 0 } : Core).Looks .main half :=
      ⟨h.unknown, rfl, h.takes, h.kind, h.uses, fun hack => ⟨(h.acknowledges hack).1, rfl⟩,
        fun _ => h.plain hplain⟩
    rw [if_pos hdrops, Core.follow, haction]
    obtain ⟨hcourse, hmainRan⟩ := hmain.follow (fun c _ => c) (main_keeps byte)
    exact ⟨hcourse, hran.trans happroach, hmainRan⟩
  · rw [if_neg hdrops]
    obtain ⟨hcourse, hsame⟩ := hpushed.follow
      (fun c page => c.follow (decode page byte) fun c _ => c) (keeps_of_not_drops hdrops)
    exact ⟨hcourse, hsame.trans hran.symm⟩

/-! ## Half-periods -/

/-- A chip on course that takes in a byte of an unknown opcode is about to look it up. -/
theorem Course.looks (h : c.Course half) (hnone : c.instruction = none) (htakes : c.TakesByte half) :
    c.Looks c.page half := by
  have hkind := htakes.kind h.uses
  have hcurrent := h.current
  rw [plan] at hcurrent
  rw [hnone] at hcurrent
  dsimp only at hcurrent
  cases h.seeking hnone with
  | fetching plain here chain pattern early =>
    refine ⟨hnone, here, htakes, hkind, h.uses, h.acknowledges, fun _ => ⟨?_, ?_⟩⟩
    · rw [here, List.getElem?_append_right (Nat.le_refl _), Nat.sub_self, plain] at hcurrent
      exact (MachineCycle.mk.inj (Option.some.inj hcurrent)).2.symm
    · rcases pattern with hpattern | hpattern <;> rw [hpattern] <;> decide
  | reading displaced here chain pattern early =>
    refine ⟨hnone, ?_, htakes, hkind, h.uses, h.acknowledges, fun hplain => ?_⟩
    · rw [here, Page.approach_displaced displaced]
      rfl
    · exact nomatch displaced.symm.trans hplain
  | leading short started chain late pattern =>
    have hlate := late hkind
    rcases htakes with ⟨-, hhalf⟩ | ⟨hread, -⟩
    · omega
    · exact absurd hread pattern

/-- A fetch brings in a byte: the next one of the opcode, or one that an internal operation has no
    opcode to take for. -/
theorem Course.takeOpcodeByte (h : c.Course half) (htakes : c.TakesByte half)
    (hread : c.cycle.pattern ≠ .opcodeRead) (byte : Byte) :
    (c.takeOpcodeByte byte).Course (half + 1)
      ∧ if c.instruction.isNone && c.drops byte then
          c.ran = [⟨.opcodeFetch, 4⟩] ∧ (c.takeOpcodeByte byte).ran = []
        else (c.takeOpcodeByte byte).ran = c.ran := by
  cases hcode : c.instruction with
  | none =>
    have hplace : c.advancePc.place = c.place ∧ c.advancePc.pace = c.pace := by
      rw [advancePc]
      split <;> exact ⟨rfl, rfl⟩
    have hadvanced := h.congr hplace.2 hplace.1
    have hlooks : c.advancePc.Looks c.advancePc.page half := by
      refine hadvanced.looks ((instruction_of_pace hplace.2).trans hcode) ?_
      have hpattern : c.advancePc.cycle.pattern = c.cycle.pattern := by
        rw [advancePc]
        split <;> rfl
      rw [TakesByte]
      rw [hpattern]
      exact htakes
    have hdispatch := hlooks.dispatch byte
    have hdrops : c.advancePc.drops byte = c.drops byte := by
      simp only [drops]
      rw [page_of_place hplace.1]
    rw [takeOpcodeByte_of_none hcode]
    rw [hdrops, ran_congr hplace.2 hplace.1] at hdispatch
    exact hdispatch
  | some code =>
    obtain ⟨hcycles, ⟨page, hscheduled, hpast⟩, -⟩ := h.scheduled code hcode
    have hkind := htakes.kind h.uses
    have hplan : c.plan = c.cycles := by
      rw [plan]
      rw [hcode]
    have hhere : c.position = page.approach.length := by
      have hcurrent := h.current
      rw [hplan, hcycles, hkind] at hcurrent
      exact hscheduled.leads.position_of_fetch hpast hcurrent
    have hturns := (turns_execute (c.fetch byte) hcode .decoded).cycles hcode hcycles
    have hplace : ((c.fetch byte).execute .decoded).place = c.place := place_execute _ _
    simp only [place, Prod.mk.injEq] at hplace
    obtain ⟨-, -, hposition, hack, hkind', hpattern, -⟩ := hplace
    have hran : c.ran = page.approach := by
      rw [ran, hplan, hcycles, hhere]
      exact hscheduled.leads.take_approach _
    have hearly := htakes.early
    rw [takeOpcodeByte_of_some hcode, hran]
    refine course_fitLength hturns.1 hturns.2 hscheduled (hposition.trans hhere)
      (hkind'.trans hkind) (by rw [hkind', hpattern]; exact h.uses) ?_ (by omega) fun hlast => ?_
    · rw [hpattern, hack, hposition]
      exact h.acknowledges
    · exact absurd (hpattern.symm.trans hlast) hread

/-! ## Any half-period -/

/-- What no half-period changes. -/
structure Steady (c d : Core) : Prop where
  phase : d.phase = c.phase
  pending : d.boundaryPending = c.boundaryPending
  nmiPending : d.nmiPending = c.nmiPending
  nmiSeen : d.nmiSeen = c.nmiSeen
  time : d.halfTStates = c.halfTStates
  origin : d.origin = c.origin
  counter : d.instructionCounter = c.instructionCounter

/-- What two steps leave alone, their sequence leaves alone. -/
theorem Steady.trans {d e : Core} (h : c.Steady d) (h' : d.Steady e) : c.Steady e :=
  ⟨h'.phase.trans h.phase, h'.pending.trans h.pending, h'.nmiPending.trans h.nmiPending,
    h'.nmiSeen.trans h.nmiSeen, h'.time.trans h.time, h'.origin.trans h.origin,
    h'.counter.trans h.counter⟩

theorem Decodes.steady (h : c.Decodes c') : c.Steady c' := by
  refine ⟨?_, ?_, ?_, ?_, ?_, h.origin, h.counter⟩ <;> rw [← h.wires] <;> rfl

theorem steady_sampleRead : c.Steady c.sampleRead := by
  have hclosed : c.Steady c.closeRead := by
    rw [closeRead]
    rw [movePointer_eq]
    exact ⟨rfl, rfl, rfl, rfl, rfl, rfl, rfl⟩
  rw [sampleRead_eq]
  split
  · exact hclosed.trans (decodes_dispatch c.closeRead c.data.value).steady
  · exact hclosed.trans ⟨rfl, rfl, rfl, rfl, rfl, rfl, rfl⟩

/-- Every half-period leaves the chip in its phase and its instruction. -/
theorem steady_patternHalf : c.Steady (c.patternHalf half).1 := by
  rw [patternHalf]
  split
  case h_1 | h_2 =>
    simp only [fetchHalf]
    split
    case h_2 => split <;> exact ⟨rfl, rfl, rfl, rfl, rfl, rfl, rfl⟩
    case h_3 => split <;> exact ⟨rfl, rfl, rfl, rfl, rfl, rfl, rfl⟩
    case h_4 =>
      have hrefresh : c.Steady c.turnToRefresh := ⟨rfl, rfl, rfl, rfl, rfl, rfl, rfl⟩
      exact hrefresh.trans (decodes_takeOpcodeByte c.turnToRefresh c.data.value).steady
    all_goals exact ⟨rfl, rfl, rfl, rfl, rfl, rfl, rfl⟩
  case h_3 | h_4 =>
    simp only [readHalf]
    split
    case h_4 => exact steady_sampleRead
    all_goals exact ⟨rfl, rfl, rfl, rfl, rfl, rfl, rfl⟩
  case h_5 =>
    simp only [writeHalf]
    split
    case h_1 =>
      rw [addressWrite]
      split <;> exact ⟨rfl, rfl, rfl, rfl, rfl, rfl, rfl⟩
    case h_3 => split <;> exact ⟨rfl, rfl, rfl, rfl, rfl, rfl, rfl⟩
    all_goals exact ⟨rfl, rfl, rfl, rfl, rfl, rfl, rfl⟩
  case h_6 =>
    simp only [portReadHalf]
    split <;> exact ⟨rfl, rfl, rfl, rfl, rfl, rfl, rfl⟩
  case h_7 =>
    simp only [portWriteHalf]
    split <;> exact ⟨rfl, rfl, rfl, rfl, rfl, rfl, rfl⟩
  case h_8 =>
    simp only [internalHalf]
    split <;> exact ⟨rfl, rfl, rfl, rfl, rfl, rfl, rfl⟩


/-- The chip `d` is where `c` is, in the same instruction and before the same half-period. -/
structure Still (c d : Core) : Prop where
  pace : d.pace = c.pace
  place : d.place = c.place
  half : d.cycle.half = c.cycle.half

theorem still_fetchHalf (h : half ≠ 4) : c.Still (c.fetchHalf half).1 := by
  simp only [fetchHalf]
  split
  case h_4 => exact absurd rfl h
  case h_3 => split <;> exact ⟨rfl, rfl, rfl⟩
  case h_2 => split <;> exact ⟨rfl, rfl, rfl⟩
  all_goals exact ⟨rfl, rfl, rfl⟩

theorem still_closeRead : c.Still c.closeRead := by
  rw [closeRead]
  rw [movePointer_eq]
  exact ⟨rfl, rfl, rfl⟩

theorem still_sampleRead (h : c.cycle.pattern ≠ .opcodeRead) : c.Still c.sampleRead := by
  have hstill := still_closeRead (c := c)
  rw [sampleRead_eq, if_neg h]
  exact ⟨hstill.pace, hstill.place, hstill.half⟩

theorem still_readHalf (h : c.cycle.pattern = .opcodeRead → half ≠ 5) :
    c.Still (c.readHalf half).1 := by
  simp only [readHalf]
  split
  case h_4 => exact still_sampleRead fun hread => h hread rfl
  all_goals exact ⟨rfl, rfl, rfl⟩

theorem still_writeHalf : c.Still (c.writeHalf half).1 := by
  simp only [writeHalf]
  split
  case h_1 =>
    rw [addressWrite]
    split <;> exact ⟨rfl, rfl, rfl⟩
  case h_3 => split <;> exact ⟨rfl, rfl, rfl⟩
  all_goals exact ⟨rfl, rfl, rfl⟩

/-- A half-period that takes in no byte of the opcode leaves the chip where it is. -/
theorem still_patternHalf (h : ¬ c.TakesByte half) : c.Still (c.patternHalf half).1 := by
  rw [patternHalf]
  split
  case h_1 hpattern => exact still_fetchHalf fun hhalf => h (Or.inl ⟨Or.inl hpattern, hhalf⟩)
  case h_2 hpattern => exact still_fetchHalf fun hhalf => h (Or.inl ⟨Or.inr hpattern, hhalf⟩)
  case h_3 hpattern => exact still_readHalf fun _ hhalf => h (Or.inr ⟨hpattern, hhalf⟩)
  case h_4 hpattern =>
    refine still_readHalf fun hread => ?_
    cases hpattern.symm.trans hread
  case h_5 => exact still_writeHalf
  case h_6 =>
    simp only [portReadHalf]
    split <;> exact ⟨rfl, rfl, rfl⟩
  case h_7 =>
    simp only [portWriteHalf]
    split <;> exact ⟨rfl, rfl, rfl⟩
  case h_8 =>
    simp only [internalHalf]
    split <;> exact ⟨rfl, rfl, rfl⟩

/-- Where a wait can hold a cycle. -/
theorem waits_cases (h : (c.patternHalf half).2 = true) :
    (half = 3 ∧ c.cycle.pattern ≠ .portRead ∧ c.cycle.pattern ≠ .portWrite)
      ∨ (half = 5 ∧ (c.cycle.pattern = .portRead ∨ c.cycle.pattern = .portWrite)) := by
  rw [patternHalf] at h
  split at h
  case h_1 hpattern | h_2 hpattern =>
    rw [hpattern]
    simp only [fetchHalf] at h
    split at h
    case h_3 => exact Or.inl ⟨rfl, by decide, by decide⟩
    all_goals cases h
  case h_3 hpattern | h_4 hpattern =>
    rw [hpattern]
    simp only [readHalf] at h
    split at h
    case h_3 => exact Or.inl ⟨rfl, by decide, by decide⟩
    all_goals cases h
  case h_5 hpattern =>
    rw [hpattern]
    simp only [writeHalf] at h
    split at h
    case h_3 => exact Or.inl ⟨rfl, by decide, by decide⟩
    all_goals cases h
  case h_6 hpattern =>
    rw [hpattern]
    simp only [portReadHalf] at h
    split at h
    case h_3 => exact Or.inr ⟨rfl, Or.inl rfl⟩
    all_goals cases h
  case h_7 hpattern =>
    rw [hpattern]
    simp only [portWriteHalf] at h
    split at h
    case h_4 => exact Or.inr ⟨rfl, Or.inr rfl⟩
    all_goals cases h
  case h_8 =>
    simp only [internalHalf] at h
    split at h <;> cases h

/-- No byte of the opcode is taken in where a wait can hold the cycle. -/
theorem not_takesByte_of_waits (h : (c.patternHalf half).2 = true) : ¬ c.TakesByte half := by
  intro htakes
  rcases waits_cases h with ⟨hhalf, -, -⟩ | ⟨-, hport⟩
  · have := htakes.early
    omega
  · rcases htakes with ⟨hpattern | hpattern, -⟩ | ⟨hpattern, -⟩ <;> rcases hport with hport | hport <;>
      exact nomatch hpattern.symm.trans hport

/-- A chip that is held stays on course one half-period back. -/
theorem Course.hold (h : c.Course half) (hwaits : (c.patternHalf half).2 = true) :
    c.Course (half - 1) := by
  have hhalf := h.half_lt
  refine ⟨h.current, by omega, h.uses, h.acknowledges, fun hnone => ?_, fun code hcode => ?_⟩
  · cases h.seeking hnone with
    | fetching plain here chain pattern early =>
      exact .fetching plain here chain pattern (by omega)
    | reading displaced here chain pattern early =>
      exact .reading displaced here chain pattern (by omega)
    | leading short started chain late pattern =>
      refine .leading short started chain (fun hkind => ?_) pattern
      have hlate := late hkind
      rcases waits_cases hwaits with ⟨hthree, -, -⟩ | ⟨-, hport⟩
      · omega
      · rcases h.uses.opcodeFetch_iff.mp hkind with hpattern | hpattern | hpattern <;>
          rcases hport with hport | hport <;> exact nomatch hpattern.symm.trans hport
  · obtain ⟨hcycles, hscheduled, hlate⟩ := h.scheduled code hcode
    refine ⟨hcycles, hscheduled, fun hread => ?_⟩
    have hfive := hlate hread
    rcases waits_cases hwaits with ⟨hthree, -, -⟩ | ⟨hfive', -⟩ <;> omega

/-- A chip that takes in no byte goes on to the next half-period, if the cycle has one. -/
theorem Course.proceed (h : c.Course half) (htakes : ¬ c.TakesByte half)
    (hmore : half + 1 < 2 * c.cycle.length) : c.Course (half + 1) := by
  refine ⟨h.current, hmore, h.uses, h.acknowledges, fun hnone => ?_, fun code hcode => ?_⟩
  · cases h.seeking hnone with
    | fetching plain here chain pattern early =>
      refine .fetching plain here chain pattern ?_
      have hfour : half ≠ 4 := fun hhalf => htakes (Or.inl ⟨pattern, hhalf⟩)
      omega
    | reading displaced here chain pattern early =>
      refine .reading displaced here chain pattern ?_
      have hfive : half ≠ 5 := fun hhalf => htakes (Or.inr ⟨pattern, hhalf⟩)
      omega
    | leading short started chain late pattern =>
      refine .leading short started chain (fun hkind => ?_) pattern
      have hlate := late hkind
      omega
  · obtain ⟨hcycles, hscheduled, hlate⟩ := h.scheduled code hcode
    refine ⟨hcycles, hscheduled, fun hread => ?_⟩
    have hfive := hlate hread
    omega

/-- A half-period that takes in a byte of the opcode keeps the chip on course. -/
theorem Course.takes (h : c.Course half) (htakes : c.TakesByte half) :
    (c.patternHalf half).1.Course (half + 1)
      ∧ if c.instruction.isNone && c.drops c.data.value then
          c.ran = [⟨.opcodeFetch, 4⟩] ∧ (c.patternHalf half).1.ran = []
        else (c.patternHalf half).1.ran = c.ran := by
  have hfetch (hpattern : c.cycle.pattern ≠ .opcodeRead) :
      c.sampleOpcode.Course (half + 1)
        ∧ if c.instruction.isNone && c.drops c.data.value then
            c.ran = [⟨.opcodeFetch, 4⟩] ∧ c.sampleOpcode.ran = []
          else c.sampleOpcode.ran = c.ran :=
    Course.takeOpcodeByte (c := c.turnToRefresh) (h.congr rfl rfl) htakes hpattern c.data.value
  rcases htakes with ⟨hpattern | hpattern, rfl⟩ | ⟨hpattern, rfl⟩
  · rw [patternHalf, hpattern]
    exact hfetch (by rw [hpattern]; decide)
  · rw [patternHalf, hpattern]
    exact hfetch (by rw [hpattern]; decide)
  · -- a byte behind a displacement: no instruction can be known yet
    have hnone : c.instruction = none := by
      cases hcode : c.instruction with
      | none => rfl
      | some code =>
        obtain ⟨-, -, hlate⟩ := h.scheduled code hcode
        have := hlate hpattern
        omega
    have hstill := still_closeRead (c := c)
    have hplace := hstill.place
    simp only [place, Prod.mk.injEq] at hplace
    have hlooks : c.closeRead.Looks c.closeRead.page 5 := by
      refine (h.congr hstill.pace hstill.place).looks ((Prod.mk.inj hstill.pace).1.trans hnone) ?_
      exact Or.inr ⟨hplace.2.2.2.2.2.1.trans hpattern, rfl⟩
    have hdispatch := hlooks.dispatch c.data.value
    have hdrops : c.closeRead.drops c.data.value = c.drops c.data.value := by
      rw [drops, drops, hplace.1]
    rw [hdrops, ran_congr hstill.pace hstill.place] at hdispatch
    have hsample : (c.patternHalf 5).1 = c.closeRead.dispatch c.data.value := by
      rw [patternHalf, hpattern]
      show c.sampleRead = _
      rw [sampleRead_eq, if_pos hpattern]
    rw [hsample, hnone]
    exact hdispatch

instance (c : Core) (half : Nat) : Decidable (c.TakesByte half) :=
  inferInstanceAs (Decidable (_ ∨ _))

/-- The half-period to come holds the cycle. -/
def waits (c : Core) : Bool :=
  (c.patternHalf c.cycle.half).2

/-- The half-period to come makes the prefix in front of its byte one that has no effect. -/
def dropsPrefix (c : Core) : Bool :=
  c.TakesByte c.cycle.half && c.instruction.isNone && c.drops c.data.value

/-- One more edge in the cycle. -/
def countEdge (c : Core) : Core :=
  { c with cycle.lastHalf := c.cycle.half, cycle.edges := c.cycle.edges + 1 }

/-- The number of the edge does not decide whether the cycle is held. -/
theorem waits_countEdge (c : Core) : (c.countEdge.patternHalf c.cycle.half).2 = c.waits := by
  simp only [waits, patternHalf]
  rw [show c.countEdge.cycle.pattern = c.cycle.pattern from rfl]
  cases c.cycle.pattern <;> dsimp only
  case fetch | acknowledge =>
    simp only [fetchHalf]
    rw [show c.countEdge.cycle.autoWaits = c.cycle.autoWaits from rfl]
    split <;> first | rfl | (split <;> rfl)
  case opcodeRead | read =>
    simp only [readHalf]
    split <;> rfl
  case write =>
    simp only [writeHalf]
    rw [show c.countEdge.held = c.held from rfl]
    split <;> first | rfl | (split <;> rfl)
  case portRead =>
    simp only [portReadHalf]
    split <;> rfl
  case portWrite =>
    simp only [portWriteHalf]
    split <;> rfl
  case internal =>
    simp only [internalHalf]
    split <;> rfl

theorem still_countEdge (h : ¬ c.TakesByte half) :
    c.Still (c.countEdge.patternHalf half).1 := by
  have hstill : c.countEdge.Still (c.countEdge.patternHalf half).1 := still_patternHalf h
  exact ⟨hstill.pace, hstill.place, hstill.half⟩

/-- What running a half-period comes to. -/
theorem runHalf_eq (c : Core) :
    c.runHalf =
      let d := (c.countEdge.patternHalf c.cycle.half).1
      if c.waits then
        ({ d with
            cycle.half := c.cycle.half - 1
            cycle.waitStates := min 255 (d.cycle.waitStates + 1) }, false)
      else if c.cycle.half + 1 ≥ 2 * d.cycle.length then (d, true)
      else ({ d with cycle.half := c.cycle.half + 1 }, false) := by
  rw [← waits_countEdge]
  rw [runHalf]
  dsimp only
  split
  · next d hd =>
    rw [show c.countEdge.patternHalf c.cycle.half = (d, true) from hd]
    rfl
  · next d hd =>
    rw [show c.countEdge.patternHalf c.cycle.half = (d, false) from hd]
    rfl

/-- Running a half-period leaves the chip in its phase and its instruction. -/
theorem steady_runHalf : c.Steady c.runHalf.1 := by
  have hcounted : c.Steady c.countEdge := ⟨rfl, rfl, rfl, rfl, rfl, rfl, rfl⟩
  have hsteady : c.Steady (c.countEdge.patternHalf c.cycle.half).1 :=
    hcounted.trans steady_patternHalf
  rw [runHalf_eq]
  dsimp only
  split
  · exact hsteady.trans ⟨rfl, rfl, rfl, rfl, rfl, rfl, rfl⟩
  · split
    · exact hsteady
    · exact hsteady.trans ⟨rfl, rfl, rfl, rfl, rfl, rfl, rfl⟩

/-- The cycle is at its end, and what it has brought in is still to be latched. -/
structure Closes (c : Core) : Prop where
  course : c.Course c.cycle.half
  taken : ¬ c.TakesByte c.cycle.half
  last : c.cycle.half + 1 = 2 * c.cycle.length

/-- A wait takes the chip back by one half-period. -/
theorem Course.runHalf_waits (h : c.Course c.cycle.half) (hwaits : c.waits = true) :
    c.runHalf.2 = false ∧ c.runHalf.1.Course c.runHalf.1.cycle.half
      ∧ c.runHalf.1.cycle.half + 1 = c.cycle.half ∧ c.runHalf.1.ran = c.ran := by
  have hhold := h.hold hwaits
  have hstill := still_countEdge (not_takesByte_of_waits hwaits)
  have hpositive : c.cycle.half - 1 + 1 = c.cycle.half := by
    rcases waits_cases hwaits with ⟨hhalf, -⟩ | ⟨hhalf, -⟩ <;> omega
  rw [runHalf_eq, if_pos hwaits]
  exact ⟨rfl, hhold.congr hstill.pace hstill.place, hpositive, ran_congr hstill.pace hstill.place⟩

/-- Without a wait the chip goes on to the next half-period, or the cycle is at its end. -/
theorem Course.runHalf_runs (h : c.Course c.cycle.half) (hruns : c.waits = false) :
    (c.runHalf.2 = false ∧ c.runHalf.1.Course c.runHalf.1.cycle.half
        ∧ c.runHalf.1.cycle.half = c.cycle.half + 1
        ∧ if c.dropsPrefix then c.ran = [⟨.opcodeFetch, 4⟩] ∧ c.runHalf.1.ran = []
          else c.runHalf.1.ran = c.ran)
      ∨ (c.runHalf.2 = true ∧ c.runHalf.1.Closes ∧ c.runHalf.1.cycle.half = c.cycle.half
        ∧ c.dropsPrefix = false ∧ c.runHalf.1.ran = c.ran) := by
  have hcounted : c.countEdge.Course c.cycle.half := h.congr rfl rfl
  rw [runHalf_eq, if_neg (by rw [hruns]; exact Bool.false_ne_true)]
  by_cases htakes : c.TakesByte c.cycle.half
  · obtain ⟨hcourse, hran⟩ := hcounted.takes htakes
    have hmore := hcourse.half_lt
    refine Or.inl ?_
    rw [if_neg (Nat.not_le_of_gt hmore)]
    refine ⟨rfl, hcourse.congr rfl rfl, rfl, ?_⟩
    rw [dropsPrefix, decide_eq_true htakes, Bool.true_and]
    exact hran
  · have hstill := still_countEdge htakes
    have hsame := h.congr hstill.pace hstill.place
    have hran := ran_congr hstill.pace hstill.place
    have hkept : c.dropsPrefix = false := by
      rw [dropsPrefix, decide_eq_false htakes]
      rfl
    have hplace := hstill.place
    simp only [place, Prod.mk.injEq] at hplace
    obtain ⟨-, -, -, -, -, hpattern, hlength⟩ := hplace
    have hlt := h.half_lt
    by_cases hlast : c.cycle.half + 1 ≥ 2 * c.cycle.length
    · refine Or.inr ?_
      rw [if_pos (by rw [hlength]; exact hlast)]
      refine ⟨rfl, ⟨?_, ?_, ?_⟩, hstill.half, hkept, hran⟩
      · rw [hstill.half]
        exact hsame
      · rw [hstill.half, TakesByte, hpattern]
        exact htakes
      · rw [hstill.half, hlength]
        omega
    · refine Or.inl ?_
      rw [if_neg (by rw [hlength]; exact hlast), hkept]
      refine ⟨rfl, (h.proceed htakes (by omega)).congr hstill.pace hstill.place, rfl, hran⟩

end Core

end Z80Board
