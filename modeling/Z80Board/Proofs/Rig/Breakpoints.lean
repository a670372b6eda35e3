import Z80Board.Proofs.Rig.Tapes

/-! # No breakpoint is missed

    Of several conditions that are met on one edge only the first one counts, and an edge may tell the
    end of one instruction and the start of the next.  Still no breakpoint is missed.  The start of an
    instruction is told before everything else on its edge, or after an end at which nobody has asked
    to stop: no stop is held when it is told, and the edge ends with the stop that it brings about.
    After a stop at the end of an instruction the next one starts on the edge that goes on. -/

namespace Z80Board

namespace Hooks

variable {hooks : Hooks} {e : Emission}

/-- The condition is met at the event. -/
def Meets (condition : ExitCondition) (s : Snapshot) (event : Event) : Prop :=
  condition.events.contains event = true ∧ condition.isMet s event = true

/-- What holds of the hooks between edges: no stop is held, every condition is looked at, and they
    stand in the order of their numbers. -/
structure Ranked (hooks : Hooks) : Prop where
  free : hooks.tripped = none
  watched : ∀ c ∈ hooks.conditions, ∀ event, c.2.events.contains event = true →
    hooks.watched.contains event = true
  rising : hooks.conditions.Pairwise fun c d => c.1.number < d.1.number
  given : ∀ c ∈ hooks.conditions, c.1.number ≤ hooks.lastId

/-! ## Registration -/

theorem ranked_empty : ({} : Hooks).Ranked :=
  ⟨rfl, fun _ h => absurd h List.not_mem_nil, .nil, fun _ h => absurd h List.not_mem_nil⟩

theorem Ranked.observe (h : hooks.Ranked) (events : EventSet) : (hooks.observe events).1.Ranked :=
  ⟨h.free, h.watched, h.rising, fun c hc => Nat.le_succ_of_le (h.given c hc)⟩

theorem Ranked.removeObserver (h : hooks.Ranked) (id : ObserverId) :
    (hooks.removeObserver id).1.Ranked :=
  ⟨h.free, h.watched, h.rising, h.given⟩

theorem Ranked.drainNotices (h : hooks.Ranked) : hooks.drainNotices.1.Ranked :=
  ⟨h.free, h.watched, h.rising, h.given⟩

theorem Ranked.addExitCondition (h : hooks.Ranked) (condition : ExitCondition) :
    (hooks.addExitCondition condition).1.Ranked := by
  have hcases (c : ConditionId × ExitCondition)
      (hc : c ∈ hooks.conditions ++ [(⟨hooks.lastId + 1⟩, condition)]) :
      c ∈ hooks.conditions ∨ c = (⟨hooks.lastId + 1⟩, condition) :=
    (List.mem_append.mp hc).imp_right List.mem_singleton.mp
  refine ⟨h.free, fun c hc event hevent => ?_, ?_, fun c hc => ?_⟩
  · show (hooks.watched.union condition.events).contains event = true
    rw [EventSet.contains_union]
    rcases hcases c hc with hold | rfl
    · rw [h.watched c hold event hevent, Bool.true_or]
    · rw [show condition.events.contains event = true from hevent, Bool.or_true]
  · refine List.pairwise_append.mpr ⟨h.rising, List.pairwise_singleton _ _, fun c hc d hd => ?_⟩
    rw [List.mem_singleton.mp hd]
    exact Nat.lt_succ_of_le (h.given c hc)
  · rcases hcases c hc with hold | rfl
    · exact Nat.le_succ_of_le (h.given c hold)
    · exact Nat.le_refl _

/-- Events are in a union of sets when they are in one of them. -/
theorem contains_unions {Entry : Type} (events : Entry → EventSet) (entries : List Entry)
    (set : EventSet) (event : Event) :
    (entries.foldl (fun set entry => set.union (events entry)) set).contains event
      = (set.contains event || entries.any fun entry => (events entry).contains event) := by
  induction entries generalizing set with
  | nil => exact (Bool.or_false _).symm
  | cons entry rest ih =>
    rw [List.foldl_cons, ih, EventSet.contains_union, List.any_cons, Bool.or_assoc]

/-- The events of the observers are those that one of them subscribes to. -/
theorem contains_unionOfObservers (observers : List Subscription) (event : Event) :
    (unionOfObservers observers).contains event
      = observers.any fun o => o.events.contains event := by
  rw [unionOfObservers, contains_unions (fun o : Subscription => o.events), EventSet.contains_empty,
    Bool.false_or]

/-- So are those of the conditions. -/
theorem contains_unionOfConditions (conditions : List (ConditionId × ExitCondition))
    (event : Event) : (unionOfConditions conditions).contains event
      = conditions.any fun c => c.2.events.contains event := by
  rw [unionOfConditions, contains_unions fun c : ConditionId × ExitCondition => c.2.events,
    EventSet.contains_empty, Bool.false_or]

theorem Ranked.removeExitCondition (h : hooks.Ranked) (id : ConditionId) :
    (hooks.removeExitCondition id).1.Ranked :=
  ⟨h.free, fun c hc event hevent => (contains_unionOfConditions _ event).trans
      (List.any_eq_true.mpr ⟨c, hc, hevent⟩), h.rising.filter _,
    fun c hc => h.given c (List.mem_filter.mp hc).1⟩

/-! ## Delivery -/

/-- Telling an emission changes the notices and the stop that is held. -/
theorem deliver_eq (hooks : Hooks) (e : Emission) :
    ∃ notices tripped, Processor.deliver hooks e = { hooks with notices, tripped } := by
  rw [Processor.deliver]
  split
  · exact ⟨_, _, rfl⟩
  · exact ⟨_, _, rfl⟩

theorem deliverAll_eq (hooks : Hooks) (emitted : List Emission) :
    ∃ notices tripped, Processor.deliverAll hooks emitted = { hooks with notices, tripped } := by
  induction emitted generalizing hooks with
  | nil => exact ⟨_, _, rfl⟩
  | cons e rest ih =>
    obtain ⟨notices, tripped, hfirst⟩ := hooks.deliver_eq e
    obtain ⟨notices', tripped', hrest⟩ := ih (Processor.deliver hooks e)
    rw [hfirst] at hrest
    refine ⟨notices', tripped', Eq.trans ?_ hrest⟩
    rw [← hfirst]
    rfl

/-- A stop that is held stays the one that is held. -/
theorem tripped_deliverAll {stop : StopReason} (h : hooks.tripped = some stop)
    (emitted : List Emission) : (Processor.deliverAll hooks emitted).tripped = some stop := by
  induction emitted generalizing hooks with
  | nil => exact h
  | cons e rest ih =>
    refine ih ?_
    rw [Processor.deliver]
    split
    · show (hooks.tripped <|> _) = _
      rw [h]
      rfl
    · exact h

/-- Of entries in the order of their numbers, the first one that passes a test is the one with the
    least number. -/
theorem find?_eq_some_iff_least {entries : List (ConditionId × ExitCondition)}
    (hrising : entries.Pairwise fun c d => c.1.number < d.1.number)
    (test : ConditionId × ExitCondition → Bool) (first : ConditionId × ExitCondition) :
    entries.find? test = some first ↔ first ∈ entries ∧ test first = true
      ∧ ∀ c ∈ entries, test c = true → first.1.number ≤ c.1.number := by
  constructor
  · intro hfirst
    obtain ⟨hpasses, before, behind, rfl, hnone⟩ := List.find?_eq_some_iff_append.mp hfirst
    refine ⟨List.mem_of_find?_eq_some hfirst, hpasses, fun c hc hc' => ?_⟩
    rcases List.mem_append.mp hc with hc | hc
    · have hnot := hnone c hc
      rw [hc'] at hnot
      cases hnot
    · rcases List.mem_cons.mp hc with rfl | hc
      · exact Nat.le_refl _
      · exact Nat.le_of_lt ((List.pairwise_cons.mp (List.pairwise_append.mp hrising).2.1).1 c hc)
  · rintro ⟨hmem, hpasses, hleast⟩
    obtain ⟨before, behind, rfl⟩ := List.append_of_mem hmem
    refine List.find?_eq_some_iff_append.mpr ⟨hpasses, before, behind, rfl, fun c hc => ?_⟩
    refine Bool.not_eq_true' _ ▸ Bool.eq_false_iff.mpr fun hc' => ?_
    have hbefore := (List.pairwise_append.mp hrising).2.2 c hc first List.mem_cons_self
    exact absurd (hleast c (List.mem_append_left _ hc) hc') (Nat.not_le_of_lt hbefore)

/-- When no stop is held, the first condition that is met brings one about. -/
theorem Ranked.stop (h : hooks.Ranked) (hmet : ∃ c ∈ hooks.conditions, Meets c.2 e.core.snapshot e.event)
    {now : Hooks} (hnow : ∃ notices, now = { hooks with notices }) :
    ∃ first ∈ hooks.conditions, Meets first.2 e.core.snapshot e.event
      ∧ (∀ c ∈ hooks.conditions, Meets c.2 e.core.snapshot e.event →
        first.1.number ≤ c.1.number)
      ∧ (Processor.deliver now e).tripped = some ⟨first.1, e.event, e.core.snapshot⟩ := by
  obtain ⟨notices, rfl⟩ := hnow
  obtain ⟨c, hc, hevents, hismet⟩ := hmet
  let met (c : ConditionId × ExitCondition) : Bool :=
    c.2.events.contains e.event && c.2.isMet e.core.snapshot e.event
  have hsome : (hooks.conditions.find? met).isSome = true :=
    List.find?_isSome.mpr ⟨c, hc, by rw [Bool.and_eq_true]; exact ⟨hevents, hismet⟩⟩
  obtain ⟨first, hfirst⟩ := Option.isSome_iff_exists.mp hsome
  obtain ⟨hmem, hmeets, hleast⟩ := (find?_eq_some_iff_least h.rising met first).mp hfirst
  have hwatched : hooks.watched.contains e.event = true := h.watched c hc _ hevents
  refine ⟨first, hmem, Bool.and_eq_true_iff.mp hmeets,
    fun d hd hdmeets => hleast d hd (Bool.and_eq_true_iff.mpr hdmeets), ?_⟩
  have hwants : ({ hooks with notices } : Hooks).wants e.event = true := by
    show (hooks.observed.union hooks.watched).contains e.event = true
    rw [EventSet.contains_union, hwatched, Bool.or_true]
  rw [Processor.deliver, if_pos hwants]
  show (hooks.tripped <|> hooks.stopAt e.core.snapshot e.event) = _
  rw [h.free, stopAt, if_pos hwatched, hfirst]
  rfl

/-- While no stop is held, an emission brings one about just if a condition is met at it. -/
theorem Ranked.deliver (h : hooks.Ranked) (e : Emission) :
    ((Processor.deliver hooks e).Ranked
        ∧ ∀ c ∈ hooks.conditions, ¬ Meets c.2 e.core.snapshot e.event)
      ∨ ∃ c ∈ hooks.conditions, Meets c.2 e.core.snapshot e.event
        ∧ (Processor.deliver hooks e).tripped = some ⟨c.1, e.event, e.core.snapshot⟩ := by
  by_cases hmet : ∃ c ∈ hooks.conditions, Meets c.2 e.core.snapshot e.event
  · obtain ⟨first, hmem, hmeets, -, hstop⟩ := h.stop hmet ⟨_, rfl⟩
    exact Or.inr ⟨first, hmem, hmeets, hstop⟩
  · have hnone : ∀ c ∈ hooks.conditions, ¬ Meets c.2 e.core.snapshot e.event :=
      fun c hc hmeets => hmet ⟨c, hc, hmeets⟩
    have hfind : hooks.conditions.find? (fun c => c.2.events.contains e.event
        && c.2.isMet e.core.snapshot e.event) = none :=
      List.find?_eq_none.mpr fun c hc hmeets => hnone c hc (Bool.and_eq_true_iff.mp hmeets)
    have hfree : (Processor.deliver hooks e).tripped = none := by
      rw [Processor.deliver]
      split
      · show (hooks.tripped <|> hooks.stopAt e.core.snapshot e.event) = none
        rw [h.free, stopAt, hfind]
        split <;> rfl
      · exact h.free
    obtain ⟨notices, tripped, htold⟩ := hooks.deliver_eq e
    rw [htold] at hfree ⊢
    exact Or.inl ⟨⟨hfree, h.watched, h.rising, h.given⟩, hnone⟩

/-- So do some emissions in a row. -/
theorem Ranked.deliverAll (h : hooks.Ranked) (emitted : List Emission) :
    ((Processor.deliverAll hooks emitted).Ranked
        ∧ ∀ e ∈ emitted, ∀ c ∈ hooks.conditions, ¬ Meets c.2 e.core.snapshot e.event)
      ∨ ∃ e ∈ emitted, ∃ c ∈ hooks.conditions, Meets c.2 e.core.snapshot e.event
        ∧ (Processor.deliverAll hooks emitted).tripped = some ⟨c.1, e.event, e.core.snapshot⟩ := by
  induction emitted generalizing hooks with
  | nil => exact Or.inl ⟨h, fun _ he => absurd he List.not_mem_nil⟩
  | cons e rest ih =>
    rcases h.deliver e with ⟨hranked, hnone⟩ | ⟨c, hc, hmeets, hstop⟩
    · have hsame : (Processor.deliver hooks e).conditions = hooks.conditions := by
        obtain ⟨notices, tripped, htold⟩ := hooks.deliver_eq e
        rw [htold]
      have hrest := ih hranked
      rw [hsame] at hrest
      rcases hrest with ⟨hall, hothers⟩ | ⟨d, hd, hmet⟩
      · refine Or.inl ⟨hall, fun d hd => ?_⟩
        rcases List.mem_cons.mp hd with rfl | hd
        · exact hnone
        · exact hothers d hd
      · exact Or.inr ⟨d, List.mem_cons_of_mem e hd, hmet⟩
    · exact Or.inr ⟨e, List.mem_cons_self, c, hc, hmeets, tripped_deliverAll hstop rest⟩

end Hooks

/-! ## Starts and ends of instructions -/

/-- What an edge tells of the end of an instruction. -/
def Edge.ending (e : Edge) : List Emission :=
  if e.ended then [⟨.instructionEnd, e.core⟩] else []

/-- The rest of an edge tells of no end of an instruction. -/
theorem Edge.events_finish {edge : Edge} {stopping : Bool} {e : Emission}
    (h : e ∈ (edge.finish stopping).2) : e.event ≠ .instructionEnd := by
  rw [Edge.finish] at h
  split at h
  · split at h
    · rw [List.mem_singleton.mp h]
      exact fun hsame => by cases hsame
    · rcases List.mem_cons.mp h with rfl | h
      · exact fun hsame => by cases hsame
      · rw [List.mem_singleton.mp h]
        exact fun hsame => by cases hsame
  · rw [List.mem_singleton.mp h]
    exact fun hsame => by cases hsame

theorem Edge.of_mem_ending {edge : Edge} {e : Emission} (h : e ∈ edge.ending) :
    edge.ended = true ∧ e = ⟨.instructionEnd, edge.core⟩ := by
  rw [Edge.ending] at h
  split at h
  · next hended => exact ⟨hended, List.mem_singleton.mp h⟩
  · exact absurd h List.not_mem_nil

namespace Core

variable {c k : Core} {level : Level} {inputs : InputLevels}

/-- A chip is made ready without a word, or with the start of an instruction. -/
theorem Readied.emitted {emitted : List Emission} (h : c.Readied k emitted) :
    emitted = [] ∨ emitted = [⟨.instructionStart, k⟩] := by
  cases h with
  | running | returned => exact Or.inl rfl
  | started | resolved | returnedResolved => exact Or.inr rfl

/-- A half-period tells what it has been given to tell, and then of ends. -/
theorem emitted_runEdge (c : Core) (emitted : List Emission) :
    ∃ ends, (c.runEdge emitted).emitted = emitted ++ (ends ++ (c.runEdge emitted).ending)
      ∧ ∀ e ∈ ends, e.event = .cycleEnd := by
  rw [runEdge_eq, endCycle_eq]
  split
  · refine ⟨[⟨.cycleEnd, c.runHalf.1.latchResult⟩], ?_, fun e he => by rw [List.mem_singleton.mp he]⟩
    split
    · exact List.append_assoc _ _ _
    · rfl
  · exact ⟨[], (List.append_nil _).symm, fun _ he => absurd he List.not_mem_nil⟩

/-- The end of an instruction is told last, and nothing before it tells of an end of one. -/
theorem emitted_edge (c : Core) (level : Level) (inputs : InputLevels) :
    ∃ row, (c.edge level inputs).emitted = row ++ (c.edge level inputs).ending
      ∧ ∀ e ∈ row, e.event ≠ .instructionEnd ∧ e.event ≠ .halfTState := by
  have hready {k : Core} {emitted : List Emission}
      (h : (c.sampleInputs inputs).leaveReset.Readied k emitted) :
      ∀ e ∈ emitted, e.event ≠ .instructionEnd ∧ e.event ≠ .halfTState := by
    rcases h.emitted with rfl | rfl
    · exact fun _ he => absurd he List.not_mem_nil
    · exact fun e he => by rw [List.mem_singleton.mp he]; exact ⟨nofun, nofun⟩
  -- what has been told before the half-period, and the ends of cycles that it tells
  have hrun {k : Core} {emitted : List Emission}
      (h : ∀ e ∈ emitted, e.event ≠ .instructionEnd ∧ e.event ≠ .halfTState) :
      ∃ row, (k.runEdge emitted).emitted = row ++ (k.runEdge emitted).ending
        ∧ ∀ e ∈ row, e.event ≠ .instructionEnd ∧ e.event ≠ .halfTState := by
    obtain ⟨ends, htold, hends⟩ := k.emitted_runEdge emitted
    refine ⟨emitted ++ ends, htold.trans (List.append_assoc _ _ _).symm, fun e he => ?_⟩
    rcases List.mem_append.mp he with he | he
    · exact h e he
    · rw [hends e he]
      exact ⟨nofun, nofun⟩
  have hturn := c.turn level inputs
  generalize c.engaged level inputs = engaged at hturn
  generalize c.edge level inputs = edge at hturn ⊢
  cases hturn with
  | resets | passes => exact ⟨[], rfl, fun _ he => absurd he List.not_mem_nil⟩
  | grants ready => exact ⟨_, (List.append_nil _).symm, hready ready⟩
  | continues ready => exact hrun (hready ready)
  | begins ready =>
    refine hrun fun e he => ?_
    rcases List.mem_append.mp he with he | he
    · exact hready ready e he
    · rw [List.mem_singleton.mp he]
      exact ⟨nofun, nofun⟩

/-- Before the end of an instruction, nothing is told before the start of another one. -/
theorem start_leads {e : Emission} (he : e ∈ (c.edge level inputs).emitted)
    (hstart : e.event = .instructionStart) : ∃ rest, (c.edge level inputs).emitted = e :: rest := by
  have hleads {k : Core} {emitted more : List Emission}
      (hmore : ∀ d ∈ more, d.event ≠ .instructionStart)
      (hready : (c.sampleInputs inputs).leaveReset.Readied k emitted)
      (hmem : e ∈ emitted ++ more) : ∃ rest, emitted ++ more = e :: rest := by
    rcases List.mem_append.mp hmem with hmem | hmem
    · rcases hready.emitted with rfl | rfl
      · exact absurd hmem List.not_mem_nil
      · rw [List.mem_singleton.mp hmem]
        exact ⟨more, rfl⟩
    · exact absurd hstart (hmore e hmem)
  have hlater {edge : Edge} {ends : List Emission} (hends : ∀ d ∈ ends, d.event = .cycleEnd) :
      ∀ d ∈ ends ++ edge.ending, d.event ≠ .instructionStart := fun d hd => by
    rcases List.mem_append.mp hd with hd | hd
    · rw [hends d hd]
      exact nofun
    · rw [(Edge.of_mem_ending hd).2]
      exact nofun
  -- whatever else is told on an edge comes behind the start of the instruction
  have hturn := c.turn level inputs
  generalize c.engaged level inputs = engaged at hturn
  generalize c.edge level inputs = edge at hturn he ⊢
  cases hturn with
  | resets | passes => exact absurd he List.not_mem_nil
  | @grants k emitted ready =>
    have hnothing : ∀ d ∈ ([] : List Emission), d.event ≠ .instructionStart :=
      fun _ h => absurd h List.not_mem_nil
    have hfirst := hleads hnothing ready
    rw [List.append_nil] at hfirst
    exact hfirst he
  | @begins k emitted ready =>
    obtain ⟨ends, htold, hends⟩ := k.emitted_runEdge (emitted ++ [⟨.cycleStart, k⟩])
    rw [htold, List.append_assoc] at he ⊢
    refine hleads (fun d hd => ?_) ready he
    rcases List.mem_cons.mp hd with rfl | hd
    · exact nofun
    · exact hlater hends d hd
  | @continues k emitted ready =>
    obtain ⟨ends, htold, hends⟩ := k.emitted_runEdge emitted
    rw [htold] at he ⊢
    exact hleads (hlater hends) ready he

/-- The end of an instruction is told only when there is one, and shows the chip as it is then. -/
theorem ended_of_told {e : Emission} (he : e ∈ (c.edge level inputs).emitted)
    (hend : e.event = .instructionEnd) :
    (c.edge level inputs).ended = true ∧ e.core = (c.edge level inputs).core := by
  obtain ⟨row, htold, hrow⟩ := c.emitted_edge level inputs
  rw [htold] at he
  rcases List.mem_append.mp he with he | he
  · exact absurd hend (hrow e he).1
  · obtain ⟨hended, rfl⟩ := Edge.of_mem_ending he
    exact ⟨hended, rfl⟩

end Core

namespace Board

variable {b : Board} {level : Level} {e : Emission}

/-- An edge ends with the stop that is held when everything has been told. -/
theorem stop_edge (b : Board) (level : Level) :
    (b.edge level).2 = (Processor.deliverAll b.processor.hooks (b.emissions level)).tripped := by
  rw [← hooks_step]
  rfl

theorem hooks_edge (b : Board) (level : Level) :
    (b.edge level).1.processor.hooks
      = (Processor.deliverAll b.processor.hooks (b.emissions level)).takeStop.1 := by
  rw [← hooks_step]
  rfl

/-- No stop is held when the start of an instruction is told. -/
theorem free_at_start (hfree : b.processor.hooks.tripped = none) (he : e ∈ b.emissions level)
    (hstart : e.event = .instructionStart) :
    ∃ front back, b.emissions level = front ++ e :: back
      ∧ (Processor.deliverAll b.processor.hooks front).tripped = none := by
  rcases List.mem_append.mp he with htold | hfinish
  · obtain ⟨rest, hleads⟩ := Core.start_leads htold hstart
    refine ⟨[], rest ++ ((b.core.edge level b.inputs).finish (b.stops level)).2, ?_, hfree⟩
    rw [emissions, hleads]
    rfl
  · rw [Edge.finish] at hfinish
    split at hfinish
    · next hended =>
      split at hfinish
      · rw [List.mem_singleton.mp hfinish] at hstart
        cases hstart
      · next hgoes =>
        have hfirst : e = (b.core.edge level b.inputs).core.startInstruction.2 := by
          rcases List.mem_cons.mp hfinish with hfirst | hlast
          · exact hfirst
          · rw [List.mem_singleton.mp hlast] at hstart
            cases hstart
        refine ⟨(b.core.edge level b.inputs).emitted,
          [⟨.halfTState, (b.core.edge level b.inputs).core.startInstruction.1⟩], ?_, ?_⟩
        · rw [emissions, Edge.finish, if_pos hended, if_neg hgoes, hfirst]
        · exact Option.not_isSome_iff_eq_none.mp hgoes
    · rw [List.mem_singleton.mp hfinish] at hstart
      cases hstart

/-- The edge ends with a stop at this event, by the first of the conditions that are met there. -/
structure StopsAt (b : Board) (level : Level) (e : Emission) (first : ConditionId × ExitCondition) :
    Prop where
  registered : first ∈ b.processor.hooks.conditions
  meets : Hooks.Meets first.2 e.core.snapshot e.event
  least : ∀ c ∈ b.processor.hooks.conditions, Hooks.Meets c.2 e.core.snapshot e.event →
    first.1.number ≤ c.1.number
  stop : (b.edge level).2 = some ⟨first.1, e.event, e.core.snapshot⟩

/-- The start of an instruction at which a condition is met ends its edge with the stop of the first
    such condition. -/
theorem stopsAt_start (h : b.processor.hooks.Ranked) (he : e ∈ b.emissions level)
    (hstart : e.event = .instructionStart)
    (hmet : ∃ c ∈ b.processor.hooks.conditions, Hooks.Meets c.2 e.core.snapshot e.event) :
    ∃ first, b.StopsAt level e first := by
  obtain ⟨front, back, hsplit, hfree⟩ := free_at_start h.free he hstart
  obtain ⟨notices, tripped, hfront⟩ := Hooks.deliverAll_eq b.processor.hooks front
  have hnow : ∃ notices, Processor.deliverAll b.processor.hooks front
      = { b.processor.hooks with notices } := by
    rw [hfront] at hfree ⊢
    refine ⟨notices, ?_⟩
    rw [show tripped = b.processor.hooks.tripped from hfree.trans h.free.symm]
  obtain ⟨first, hmem, hmeets, hleast, hstop⟩ := h.stop hmet hnow
  refine ⟨first, hmem, hmeets, hleast, ?_⟩
  have hall : Processor.deliverAll b.processor.hooks (front ++ e :: back)
      = Processor.deliverAll
        (Processor.deliver (Processor.deliverAll b.processor.hooks front) e) back :=
    List.foldl_append
  rw [stop_edge, hsplit, hall]
  exact Hooks.tripped_deliverAll hstop back

/-- Every edge leaves the hooks as they have been registered. -/
theorem ranked_edge (h : b.processor.hooks.Ranked) (level : Level) :
    (b.edge level).1.processor.hooks.Ranked
      ∧ (b.edge level).1.processor.hooks.conditions = b.processor.hooks.conditions := by
  obtain ⟨notices, tripped, htold⟩ :=
    Hooks.deliverAll_eq b.processor.hooks (b.emissions level)
  rw [hooks_edge, htold]
  exact ⟨⟨rfl, h.watched, h.rising, h.given⟩, rfl⟩

/-- After a stop at the end of an instruction, the first thing told is the start of the next one. -/
theorem start_of_pending (hphase : b.core.phase = .running) (hpending : b.core.boundaryPending = true)
    (hreset : b.inputs.reset.isAsserted = false) (level : Level) :
    ∃ rest, b.emissions level = ⟨.instructionStart,
      ({ b.core.sampleInputs b.inputs with boundaryPending := false } : Core).resolveNext⟩ :: rest := by
  have hready : (b.core.sampleInputs b.inputs).leaveReset.readied level
      = some (({ b.core.sampleInputs b.inputs with boundaryPending := false } : Core).resolveNext,
        [⟨.instructionStart,
          ({ b.core.sampleInputs b.inputs with boundaryPending := false } : Core).resolveNext⟩]) := by
    have hkept : (b.core.sampleInputs b.inputs).leaveReset = b.core.sampleInputs b.inputs :=
      if_neg fun hother => Phase.noConfusion (hphase.symm.trans hother)
    rw [hkept, Core.readied, show (b.core.sampleInputs b.inputs).phase = .running from hphase]
    dsimp only
    rw [Core.chosen, if_pos (show (b.core.sampleInputs b.inputs).boundaryPending = true from hpending)]
    rfl
  rw [emissions, Core.edge_eq, if_neg (Bool.eq_false_iff.mp hreset), hready]
  dsimp only
  rw [Core.advance]
  split
  · split
    · exact ⟨_, rfl⟩
    · obtain ⟨ends, htold, -⟩ := Core.emitted_runEdge _ _
      rw [htold]
      exact ⟨_, rfl⟩
  · obtain ⟨ends, htold, -⟩ := Core.emitted_runEdge _ _
    rw [htold]
    exact ⟨_, rfl⟩

/-- An edge that stops at the end of an instruction leaves the next one to be chosen. -/
theorem pending_of_stop (h : b.processor.hooks.Ranked) {stop : StopReason}
    (hstop : (b.edge level).2 = some stop) (hevent : stop.event = .instructionEnd) :
    (b.edge level).1.core.boundaryPending = true := by
  have hall : Processor.deliverAll b.processor.hooks (b.emissions level)
      = Processor.deliverAll
        (Processor.deliverAll b.processor.hooks (b.core.edge level b.inputs).emitted)
        ((b.core.edge level b.inputs).finish (b.stops level)).2 :=
    List.foldl_append
  rw [stop_edge, hall] at hstop
  -- the stop is held before the rest of the edge, which tells of no end
  rcases h.deliverAll (b.core.edge level b.inputs).emitted with ⟨hranked, -⟩ | ⟨e, he, c, -, -, hheld⟩
  · rcases hranked.deliverAll ((b.core.edge level b.inputs).finish (b.stops level)).2 with
      ⟨hfree, -⟩ | ⟨e, he, c, -, -, hlate⟩
    · cases hfree.free.symm.trans hstop
    · obtain rfl := Option.some.inj (hlate.symm.trans hstop)
      exact absurd hevent (Edge.events_finish he)
  · obtain rfl := Option.some.inj ((Hooks.tripped_deliverAll hheld _).symm.trans hstop)
    obtain ⟨hended, -⟩ := Core.ended_of_told he hevent
    have hstops : b.stops level = true := by
      rw [stops, Hooks.isStopping, hheld]
      rfl
    have hcore := (b.edge_parts level).2.2
    have hmoved : b.moved level = ((b.core.edge level b.inputs).finish (b.stops level)).1 := rfl
    rw [hcore, hmoved, Edge.finish, if_pos hended, if_pos hstops]

end Board

namespace Clock

variable {W Stop : Type} [Wiring W Stop] {c d : Clock W} {tape : List (W × Level)}
  {stop : Option Stop}

/-- As long as there is no stop, no edge has brought one about. -/
theorem Delivers.unstopped (h : c.Delivers tape d stop) (hgoes : stop = none) :
    ∀ edge ∈ tape, (Wiring.edge edge.1 edge.2).2 = none := by
  induction h with
  | start => exact fun edge h => absurd h List.not_mem_nil
  | edge _ ih =>
    intro edge hedge
    rcases List.mem_append.mp hedge with hedge | hedge
    · exact ih rfl edge hedge
    · rw [List.mem_singleton.mp hedge]
      exact hgoes

/-- An edge that brings about a stop is the last one. -/
theorem Delivers.last (h : c.Delivers tape d stop) {edge : W × Level} (hedge : edge ∈ tape)
    (hstop : (Wiring.edge edge.1 edge.2).2 ≠ none) :
    stop = (Wiring.edge edge.1 edge.2).2 ∧ ∃ front, tape = front ++ [edge] := by
  cases h with
  | start => exact absurd hedge List.not_mem_nil
  | edge before =>
    rcases List.mem_append.mp hedge with hedge | hedge
    · exact absurd (before.unstopped rfl edge hedge) hstop
    · rw [List.mem_singleton.mp hedge]
      exact ⟨rfl, _, rfl⟩

/-- A stop is that of the last edge. -/
theorem Delivers.final (h : c.Delivers tape d stop) (hstop : stop ≠ none) :
    ∃ front e, tape = front ++ [(e.wiring, e.level.flip)] ∧ c.Delivers front e none
      ∧ e.halfTick = (d, stop) := by
  cases h with
  | start => exact absurd rfl hstop
  | edge before => exact ⟨_, _, rfl, before, rfl⟩

theorem Delivers.stopped (h : c.Delivers tape d stop) (hstop : stop ≠ none) :
    ∃ edge ∈ tape, Wiring.edge edge.1 edge.2 = (d.wiring, stop) := by
  obtain ⟨front, e, rfl, -, hlast⟩ := h.final hstop
  refine ⟨_, List.mem_append_right _ (List.mem_singleton.mpr rfl), ?_⟩
  obtain ⟨rfl, rfl⟩ := Prod.mk.inj hlast
  rfl

end Clock

namespace Machine

variable {m : Machine} {call : Call} {log : List (Board × Level)}

/-- The edges of a clock keep the hooks as they have been registered. -/
theorem ranked_delivers {c d : Clock Board} {tape : List (Board × Level)} {stop : Option StopReason}
    (h : c.Delivers tape d stop) (hranked : c.wiring.processor.hooks.Ranked) :
    (∀ edge ∈ tape, edge.1.processor.hooks.Ranked
        ∧ edge.1.processor.hooks.conditions = c.wiring.processor.hooks.conditions)
      ∧ d.wiring.processor.hooks.Ranked
      ∧ d.wiring.processor.hooks.conditions = c.wiring.processor.hooks.conditions := by
  induction h with
  | start => exact ⟨fun _ h => absurd h List.not_mem_nil, hranked, rfl⟩
  | @edge tape d _ ih =>
    obtain ⟨hall, hnow, hsame⟩ := ih
    obtain ⟨hnext, hkept⟩ := Board.ranked_edge hnow d.level.flip
    refine ⟨fun edge hedge => ?_, hnext, hkept.trans hsame⟩
    rcases List.mem_append.mp hedge with hedge | hedge
    · exact hall edge hedge
    · rw [List.mem_singleton.mp hedge]
      exact ⟨hnow, hsame⟩

theorem ranked_calling (h : m.hooks.Ranked) (call : Call) : (m.calling call).hooks.Ranked := by
  cases call with
  | halfTick | tick | run => exact h
  | stepInstructions | stepTStates => exact h.addExitCondition _

theorem Driven.ranked (h : m.Driven log) : m.hooks.Ranked := by
  induction h with
  | built build =>
    rw [Machine.build] at build
    split at build
    · cases build
    · cases build
      exact Hooks.ranked_empty
  | @call m log _ call ih =>
    have hdriven : (m.driven call).hooks.Ranked :=
      (ranked_delivers (m.delivers_call call) (ranked_calling ih call)).2.1
    rcases m.perform_eq call with hperform | ⟨id, hperform⟩
    · rw [hperform]
      exact hdriven
    · rw [hperform]
      exact hdriven.removeExitCondition id
  | observe _ events ih => exact ih.observe events
  | removeObserver _ id ih => exact ih.removeObserver id
  | addExitCondition _ condition ih => exact ih.addExitCondition condition
  | removeExitCondition _ id ih => exact ih.removeExitCondition id
  | drainNotices _ ih => exact ih.drainNotices
  | regs _ _ ih | memory _ _ ih | device _ _ ih | input _ _ _ ih | images _ _ ih => exact ih

/-- A call leaves the conditions as the host has registered them. -/
theorem conditions_perform (h : m.hooks.Ranked) (call : Call) :
    (m.perform call).1.hooks.conditions = m.hooks.conditions := by
  have hdriven : (m.driven call).hooks.conditions = (m.calling call).hooks.conditions :=
    (ranked_delivers (m.delivers_call call) (ranked_calling h call)).2.2
  -- the number of the added one has not been given before
  have hremoved (added : ExitCondition)
      (hadded : (m.calling call).hooks.conditions
        = m.hooks.conditions ++ [(⟨m.hooks.lastId + 1⟩, added)]) :
      ((m.driven call).removeExitCondition ⟨m.hooks.lastId + 1⟩).1.hooks.conditions
        = m.hooks.conditions := by
    show (m.driven call).hooks.conditions.filter _ = _
    rw [hdriven, hadded, List.filter_append, List.filter_eq_self.mpr fun c hc => ?_]
    · have hnone : [((⟨m.hooks.lastId + 1⟩ : ConditionId), added)].filter
          (fun c => c.1 ≠ ⟨m.hooks.lastId + 1⟩) = [] := by simp
      exact (congrArg _ hnone).trans (List.append_nil _)
    · refine decide_eq_true fun hsame => ?_
      have hgiven := h.given c hc
      rw [hsame] at hgiven
      exact absurd hgiven (Nat.not_succ_le_self _)
  cases call with
  | halfTick | tick | run => exact hdriven
  | stepInstructions | stepTStates => exact hremoved _ rfl

theorem tape_halfTick (m : Machine) : m.tape .halfTick = [(m.board, m.clock.level.flip)] := rfl

/-- A call ends with a stop wherever an instruction starts at a breakpoint, whatever else is met on
    that edge: those who follow the chip are told the start, and the conditions are those with which
    the call has begun.  It leaves the conditions of the host.  After a stop at the end of an
    instruction the start of the next one is told on the edge that goes on, unless it resets the
    chip. -/
theorem Driven.breakpoints_stop (h : m.Driven log) (call : Call) :
    (∀ b level, (b, level) ∈ m.tape call →
      b.processor.hooks.conditions = (m.calling call).hooks.conditions
      ∧ (b.edge level).1.processor.hooks
        = (Processor.deliverAll b.processor.hooks (b.emissions level)).takeStop.1
      ∧ ∀ e ∈ b.emissions level, e.event = .instructionStart →
        ∀ address id, e.core.origin = .memory address →
          (id, .addressReached address) ∈ b.processor.hooks.conditions →
          ∃ first, b.StopsAt level e first ∧ (m.perform call).2 = (b.edge level).2
            ∧ ∃ front, m.tape call = front ++ [(b, level)])
      ∧ (m.perform call).1.hooks.conditions = m.hooks.conditions
      ∧ ∀ stop, (m.perform call).2 = some stop → stop.event = .instructionEnd →
        ∀ next : Machine, next.core = (m.perform call).1.core →
          next.board.inputs.reset.isAsserted = false →
          ∃ rest, next.board.emissions next.clock.level.flip = ⟨.instructionStart,
            ({ next.core.sampleInputs next.board.inputs with
              boundaryPending := false } : Core).resolveNext⟩ :: rest := by
  have hdelivers := m.delivers_call call
  obtain ⟨hall, -, -⟩ := ranked_delivers hdelivers (ranked_calling h.ranked call)
  refine ⟨fun b level hedge => ?_, conditions_perform h.ranked call,
    fun stop hstop hevent next hsame hreset => ?_⟩
  · obtain ⟨hranked, hconditions⟩ := hall _ hedge
    refine ⟨hconditions, b.hooks_edge level, fun e he hstart address id horigin hbreak => ?_⟩
    have hmeets : Hooks.Meets (.addressReached address) e.core.snapshot e.event := by
      refine ⟨?_, ?_⟩
      · rw [hstart]
        rfl
      · show (e.core.snapshot.address? == some address) = true
        rw [Snapshot.address?, show e.core.snapshot.origin = e.core.origin from rfl, horigin]
        exact beq_self_eq_true _
    obtain ⟨first, hstops⟩ := Board.stopsAt_start hranked he hstart ⟨_, hbreak, hmeets⟩
    have hsome : (Wiring.edge b level).2 ≠ none := by
      show (b.edge level).2 ≠ none
      rw [hstops.stop]
      exact Option.some_ne_none _
    obtain ⟨hperform, hlast⟩ := hdelivers.last hedge hsome
    exact ⟨first, hstops, hperform, hlast⟩
  · obtain ⟨⟨b, level⟩, hedge, hlast⟩ := hdelivers.stopped (by rw [hstop]; exact Option.some_ne_none _)
    have hedge' : b.edge level = ((m.driven call).board, (m.perform call).2) := hlast
    have hpending := Board.pending_of_stop (hall _ hedge).1
      ((congrArg Prod.snd hedge').trans hstop) hevent
    rw [hedge'] at hpending
    have hwaits : next.core.boundaryPending = true := by
      rw [hsame, m.core_perform]
      exact hpending
    have hphase : next.core.phase = .running := by
      rw [hsame] at hwaits ⊢
      exact ((h.call call).steady.1.sound.pending hwaits).1
    exact Board.start_of_pending hphase hwaits hreset _

/-- The same machine with a breakpoint at its second instruction, after a step over the first one. -/
def stepped : Machine :=
  ((idling.addBreakpoint 1).1.perform (.stepInstructions 1 10)).1

/-- The next edge stops there. -/
theorem breakpoint_after_step :
    ∃ e first, e.core.origin = .memory 1 ∧ stepped.board.StopsAt .high e first
      ∧ (stepped.perform .halfTick).2 = (stepped.board.edge .high).2 := by
  have hbuilt : Machine.build { memorySize := 0x400 } .unattached = .ok idling := rfl
  have hstart : (idling.addBreakpoint 1).1.Driven [] := (Driven.built hbuilt).addExitCondition _
  have hdriven : stepped.Driven _ := hstart.call (.stepInstructions 1 10)
  obtain ⟨stop, hstop, hevent⟩ := Option.map_eq_some_iff.mp
    (show ((idling.addBreakpoint 1).1.perform (.stepInstructions 1 10)).2.map (·.event)
      = some .instructionEnd by decide +kernel)
  obtain ⟨-, hconditions, hresumes⟩ := hstart.breakpoints_stop (.stepInstructions 1 10)
  obtain ⟨rest, htold⟩ := hresumes stop hstop hevent stepped rfl (by decide +kernel)
  have hlevel : stepped.clock.level.flip = .high := by decide +kernel
  have hedge : (stepped.board, .high) ∈ stepped.tape .halfTick := by
    rw [tape_halfTick, hlevel]
    exact List.mem_singleton.mpr rfl
  rw [hlevel] at htold
  obtain ⟨-, -, hstops⟩ := (hdriven.breakpoints_stop .halfTick).1 stepped.board .high hedge
  have horigin : ({ stepped.core.sampleInputs stepped.board.inputs with
      boundaryPending := false } : Core).resolveNext.origin = .memory 1 := by decide +kernel
  have hbreak : (⟨1⟩, .addressReached 1) ∈ stepped.hooks.conditions := by
    rw [stepped, hconditions]
    exact List.mem_cons_self
  rw [Machine.hooks] at hbreak
  generalize ({ stepped.core.sampleInputs stepped.board.inputs with
    boundaryPending := false } : Core).resolveNext = c at htold horigin
  have htold' : (⟨.instructionStart, c⟩ : Emission) ∈ stepped.board.emissions .high := by
    rw [htold]
    exact List.mem_cons_self
  obtain ⟨first, hfirst, hperform, -⟩ := hstops ⟨.instructionStart, c⟩ htold' rfl 1 ⟨1⟩ horigin hbreak
  exact ⟨⟨.instructionStart, c⟩, first, horigin, hfirst, hperform⟩

end Machine

end Z80Board
