import Mathlib.Data.List.Induction
import Z80Board.Proofs.Rig.Stops

/-! # An interrupt source and its script

    A source is shown one edge after the other, with any pins on them.  What it drives onto its pins
    after each of them is read off its script and the edges so far, with no regard to the state of the
    source: NMI and WAIT are asserted in the periods that one of their pulses spans.  INT is asserted
    so only until the first acknowledge begins.  That acknowledge ends all pulses of INT, those that
    have not started yet among them. -/

namespace Z80Board

/-- What a source is shown on an edge. -/
structure Showing where
  level : Level
  pins : Pins
  data : Bus Byte

/-- The period lies between the start of the pulse and its end. -/
def Pulse.Spans (p : Pulse) (period : Nat) : Prop :=
  p.start ≤ period ∧ period < p.start + p.duration

namespace Showing

/-- The edge shows an acknowledge. -/
def acknowledges (e : Showing) : Bool :=
  e.pins.interruptAcknowledge

/-- How many of the edges rise. -/
def rising (edges : List Showing) : Nat :=
  edges.countP fun e => e.level.isHigh

/-- The period after some edges. -/
def period (edges : List Showing) : Nat :=
  rising edges - 1

/-- An acknowledge has begun in the period: an edge of the period shows it, and the edge before it,
    if there is one, does not. -/
def Begins (edges : List Showing) (begun : Nat) : Prop :=
  ∃ before e after, edges = before ++ e :: after ∧ e.acknowledges = true
    ∧ (∀ last ∈ before.getLast?, last.acknowledges = false) ∧ period (before ++ [e]) = begun

/-- A pulse of INT spans the present period, and no acknowledge has begun since it has started. -/
def CallsForInt (script : List Pulse) (edges : List Showing) : Prop :=
  ∃ p ∈ script, p.pin = .int ∧ p.Spans (period edges)
    ∧ ¬ ∃ begun, Begins edges begun ∧ p.start ≤ begun ∧ begun ≤ period edges

variable {edges : List Showing} {e : Showing}

theorem rising_append (edges : List Showing) (e : Showing) :
    rising (edges ++ [e]) = rising edges + if e.level.isHigh then 1 else 0 := by
  rw [rising, List.countP_append, List.countP_singleton]
  rfl

/-- An acknowledge that is shown has begun some time, with the first edge that shows one. -/
theorem begins_iff : (∃ begun, Begins edges begun) ↔ edges.any acknowledges = true := by
  constructor
  · rintro ⟨begun, before, e, after, rfl, hshows, -, -⟩
    exact List.any_eq_true.mpr ⟨e, List.mem_append_right before List.mem_cons_self, hshows⟩
  · intro hany
    obtain ⟨first, hfirst⟩ := Option.isSome_iff_exists.mp
      ((List.find?_isSome (p := acknowledges)).mpr (List.any_eq_true.mp hany))
    obtain ⟨hshows, before, after, hsplit, hnone⟩ := List.find?_eq_some_iff_append.mp hfirst
    refine ⟨_, before, first, after, hsplit, hshows, fun last hlast => ?_, rfl⟩
    exact Bool.not_eq_true' _ ▸ hnone last (List.mem_of_getLast? hlast)

/-- No acknowledge begins later than now. -/
theorem Begins.le {begun : Nat} (h : Begins edges begun) : begun ≤ period edges := by
  obtain ⟨before, e, after, rfl, -, -, rfl⟩ := h
  have hcount : rising (before ++ [e]) ≤ rising (before ++ e :: after) := by
    refine List.Sublist.countP_le (List.append_sublist_append_left before |>.mpr ?_)
    exact List.cons_sublist_cons.mpr (List.nil_sublist after)
  rw [period, period]
  omega

end Showing

namespace InterruptSource

/-- A source with a script and an answer, before its first edge. -/
def scripted (script : List Pulse) (answer : List Byte) : InterruptSource :=
  script.foldl withPulse (({} : InterruptSource).withAcknowledgeBytes answer)

/-- The source after some edges. -/
def shown (s : InterruptSource) (edges : List Showing) : InterruptSource :=
  edges.foldl (fun s e => (s.edge e.level e.pins e.data).1) s

variable {script : List Pulse} {answer : List Byte} {edges : List Showing} {s : InterruptSource}
  {e : Showing} {pins : Pins} {data : Bus Byte}

theorem shown_append (s : InterruptSource) (edges : List Showing) (e : Showing) :
    s.shown (edges ++ [e]) = ((s.shown edges).edge e.level e.pins e.data).1 :=
  List.foldl_append

/-- The pulses of a script, those of INT ended or not. -/
def marked (script : List Pulse) (ended : Bool) : List ScriptedPulse :=
  script.map fun p => ⟨p, p.pin == .int && ended⟩

/-- What a source remembers of the edges it has been shown. -/
structure Remembers (script : List Pulse) (edges : List Showing) (s : InterruptSource) : Prop where
  rising : s.risingEdges = Showing.rising edges
  /-- An acknowledge goes on if the last edge has shown one. -/
  acknowledging : s.acknowledging = edges.getLast?.any Showing.acknowledges
  /-- The first acknowledge has ended the pulses of INT. -/
  pulses : s.pulses = marked script (edges.any Showing.acknowledges)

/-- Before its first edge the source has its script. -/
theorem remembers_scripted (script : List Pulse) (answer : List Byte) :
    (scripted script answer).Remembers script [] := by
  have hall (s : InterruptSource) :
      (script.foldl withPulse s).pulses = s.pulses ++ marked script false
        ∧ (script.foldl withPulse s).risingEdges = s.risingEdges
        ∧ (script.foldl withPulse s).acknowledging = s.acknowledging := by
    induction script generalizing s with
    | nil => exact ⟨(List.append_nil _).symm, rfl, rfl⟩
    | cons p rest ih =>
      obtain ⟨hpulses, hrising, hidle⟩ := ih (s.withPulse p)
      refine ⟨?_, hrising, hidle⟩
      rw [List.foldl_cons, hpulses, withPulse, marked, marked, List.map_cons, Bool.and_false,
        List.append_assoc]
      rfl
  have hfresh : (({} : InterruptSource).withAcknowledgeBytes answer).pulses = []
      ∧ (({} : InterruptSource).withAcknowledgeBytes answer).risingEdges = 0
      ∧ (({} : InterruptSource).withAcknowledgeBytes answer).acknowledging = false := by
    cases answer <;> exact ⟨rfl, rfl, rfl⟩
  obtain ⟨hpulses, hrising, hidle⟩ := hall (({} : InterruptSource).withAcknowledgeBytes answer)
  rw [hfresh.1, List.nil_append] at hpulses
  exact ⟨hrising.trans hfresh.2.1, hidle.trans hfresh.2.2, hpulses⟩

/-- Ending the pulses of INT a second time changes nothing. -/
theorem pulses_beginAcknowledge {ended : Bool} (h : s.pulses = marked script ended) :
    s.beginAcknowledge.pulses = marked script true := by
  rw [beginAcknowledge, h, marked, marked, List.map_map]
  refine List.map_congr_left fun p _ => ?_
  by_cases hpin : p.pin = .int <;> simp [hpin]

/-- The answer goes by whether an acknowledge is shown, and ends the pulses when it begins one. -/
theorem remembers_answer (s : InterruptSource) (pins : Pins) (data : Bus Byte) :
    (s.answer pins data).1.risingEdges = s.risingEdges
      ∧ (s.answer pins data).1.acknowledging = pins.interruptAcknowledge
      ∧ (s.answer pins data).1.pulses
        = if pins.interruptAcknowledge && !s.acknowledging then s.beginAcknowledge.pulses
          else s.pulses := by
  cases hshows : pins.interruptAcknowledge with
  | true =>
    rw [answer, hshows, if_pos rfl]
    cases s.acknowledging <;> exact ⟨rfl, rfl, rfl⟩
  | false =>
    obtain ⟨hpulses, hrising⟩ := s.script_answer data hshows
    refine ⟨hrising, ?_, hpulses⟩
    have hstop (s : InterruptSource) : (s.stopDriving data).1.acknowledging = s.acknowledging := by
      rw [stopDriving]
      split <;> rfl
    rw [answer, hshows, if_neg Bool.false_ne_true]
    split
    · exact hstop _
    next hidle =>
    have hidle := Bool.eq_false_iff.mpr hidle
    split
    · split <;> exact hidle
    split
    · exact (hstop _).trans hidle
    · split <;> exact hidle

/-- One more edge. -/
theorem Remembers.edge (h : s.Remembers script edges) (e : Showing) :
    (s.edge e.level e.pins e.data).1.Remembers script (edges ++ [e]) := by
  have hlast : (edges ++ [e]).getLast?.any Showing.acknowledges = e.acknowledges := by
    rw [List.getLast?_append]
    rfl
  have hany : (edges ++ [e]).any Showing.acknowledges
      = (edges.any Showing.acknowledges || e.acknowledges) := by
    rw [List.any_append, List.any_cons, List.any_nil, Bool.or_false]
  -- an acknowledge that goes on has ended the pulses before
  have hbefore : s.acknowledging = true → edges.any Showing.acknowledges = true := by
    rw [h.acknowledging]
    intro hgoes
    cases hlast : edges.getLast? with
    | none =>
      rw [hlast] at hgoes
      cases hgoes
    | some last =>
      rw [hlast] at hgoes
      exact List.any_eq_true.mpr ⟨last, List.mem_of_getLast? hlast, hgoes⟩
  have hanswers (s' : InterruptSource) (hacknowledging : s'.acknowledging = s.acknowledging)
      (hpulses : s'.pulses = s.pulses) :
      (s'.answer e.pins e.data).1.setLevels.risingEdges = s'.risingEdges
        ∧ (s'.answer e.pins e.data).1.setLevels.acknowledging = e.acknowledges
        ∧ (s'.answer e.pins e.data).1.setLevels.pulses
          = marked script (edges.any Showing.acknowledges || e.acknowledges) := by
    obtain ⟨hrising, hnow, hscript⟩ := s'.remembers_answer e.pins e.data
    refine ⟨hrising, hnow, hscript.trans ?_⟩
    cases hshows : e.acknowledges with
    | false =>
      rw [show e.pins.interruptAcknowledge = false from hshows, Bool.false_and,
        if_neg Bool.false_ne_true, hpulses, Bool.or_false]
      exact h.pulses
    | true =>
      rw [show e.pins.interruptAcknowledge = true from hshows, Bool.true_and, Bool.or_true]
      split
      · exact pulses_beginAcknowledge (hpulses.trans h.pulses)
      · next hgoes =>
        rw [Bool.not_eq_true', Bool.not_eq_false, hacknowledging] at hgoes
        rw [hpulses, h.pulses, hbefore hgoes]
  refine ⟨?_, hlast ▸ ?_, hany ▸ ?_⟩
  all_goals rw [InterruptSource.edge]
  · rw [Showing.rising_append, ← h.rising]
    cases e.level with
    | low => exact (hanswers s rfl rfl).1
    | high => exact (hanswers { s with risingEdges := s.risingEdges + 1 } rfl rfl).1
  · cases e.level with
    | low => exact (hanswers s rfl rfl).2.1
    | high => exact (hanswers { s with risingEdges := s.risingEdges + 1 } rfl rfl).2.1
  · cases e.level with
    | low => exact (hanswers s rfl rfl).2.2
    | high => exact (hanswers { s with risingEdges := s.risingEdges + 1 } rfl rfl).2.2

/-- After any edges the source remembers them. -/
theorem remembers_shown (script : List Pulse) (answer : List Byte) (edges : List Showing) :
    ((scripted script answer).shown edges).Remembers script edges := by
  induction edges using List.reverseRecOn with
  | nil => exact remembers_scripted script answer
  | append_singleton edges e ih =>
    rw [shown_append]
    exact ih.edge e

/-- The levels after an edge are those of its period. -/
theorem levels_shown (s : InterruptSource) (hedges : edges ≠ []) :
    (s.shown edges).int = (s.shown edges).levelOf .int
      ∧ (s.shown edges).nmi = (s.shown edges).levelOf .nmi
      ∧ (s.shown edges).wait = (s.shown edges).levelOf .wait := by
  obtain ⟨before, e, rfl⟩ := List.eq_nil_or_concat edges |>.resolve_left hedges
  rw [List.concat_eq_append, shown_append]
  exact ⟨rfl, rfl, rfl⟩

/-- While the periods can be counted, a pulse covers those that it spans. -/
theorem covers_iff {p : Pulse} {period : Nat} (h : period < maxCount) :
    p.covers period = true ↔ p.Spans period := by
  rw [Pulse.covers, Bool.and_eq_true, decide_eq_true_eq, decide_eq_true_eq, Pulse.Spans,
    Nat.lt_min]
  exact ⟨fun ⟨hstart, hend, _⟩ => ⟨hstart, hend⟩, fun ⟨hstart, hend⟩ => ⟨hstart, hend, h⟩⟩

/-- A pin is asserted in the periods that one of its pulses spans, if no acknowledge has ended it. -/
theorem Remembers.levelOf (h : s.Remembers script edges) (hcount : Showing.rising edges ≤ maxCount)
    (pin : InputPin) : (s.levelOf pin).isAsserted = true ↔
      (∃ p ∈ script, p.pin = pin ∧ p.Spans (Showing.period edges))
        ∧ (pin = .int → edges.any Showing.acknowledges = false) := by
  have hperiod : s.period = Showing.period edges := congrArg (· - 1) h.rising
  have hroom : Showing.period edges < maxCount := by
    rw [Showing.period, maxCount] at *
    omega
  rw [InterruptSource.levelOf, Level.isAsserted_activeLow, h.pulses, marked, List.any_map, hperiod,
    List.any_eq_true]
  constructor
  · rintro ⟨p, hp, hcovers⟩
    simp only [Function.comp_apply, Bool.and_eq_true, beq_iff_eq, Bool.not_eq_true',
      covers_iff hroom] at hcovers
    obtain ⟨⟨hpin, hlasts⟩, hspans⟩ := hcovers
    refine ⟨⟨p, hp, hpin, hspans⟩, fun hint => ?_⟩
    rw [hpin, hint] at hlasts
    exact hlasts
  · rintro ⟨⟨p, hp, hpin, hspans⟩, hnone⟩
    refine ⟨p, hp, ?_⟩
    simp only [Function.comp_apply, Bool.and_eq_true, beq_iff_eq, Bool.not_eq_true',
      covers_iff hroom]
    refine ⟨⟨hpin, ?_⟩, hspans⟩
    by_cases hint : p.pin = .int
    · rw [hnone (hpin.symm.trans hint), Bool.and_false]
    · rw [beq_eq_false_iff_ne.mpr hint, Bool.false_and]

/-- The levels after any edges, for as long as they can be counted.  NMI and WAIT are asserted just in
    the periods that a pulse of theirs spans.  INT is asserted in the periods that a pulse of INT
    spans, up to the first acknowledge.  If all pulses of INT have started when an acknowledge begins,
    that comes to the same as an acknowledge that ends the pulses which have started. -/
theorem follows_script (script : List Pulse) (answer : List Byte) (edges : List Showing)
    (hedges : edges ≠ []) (hcount : Showing.rising edges ≤ maxCount) :
    let s := (scripted script answer).shown edges
    let now := Showing.period edges
    (s.nmi.isAsserted = true ↔ ∃ p ∈ script, p.pin = .nmi ∧ p.Spans now)
      ∧ (s.wait.isAsserted = true ↔ ∃ p ∈ script, p.pin = .wait ∧ p.Spans now)
      ∧ (s.int.isAsserted = true ↔
        (∃ p ∈ script, p.pin = .int ∧ p.Spans now) ∧ ¬ ∃ begun, Showing.Begins edges begun)
      ∧ ((∀ p ∈ script, p.pin = .int → ∀ begun, Showing.Begins edges begun → p.start ≤ begun) →
        (s.int.isAsserted = true ↔ Showing.CallsForInt script edges)) := by
  intro s now
  have hremembers := remembers_shown script answer edges
  obtain ⟨hint, hnmi, hwait⟩ := (scripted script answer).levels_shown hedges
  have hend : edges.any Showing.acknowledges = false ↔ ¬ ∃ begun, Showing.Begins edges begun := by
    rw [Showing.begins_iff, Bool.not_eq_true]
  have hspans : s.int.isAsserted = true ↔ (∃ p ∈ script, p.pin = .int ∧ p.Spans now)
      ∧ ¬ ∃ begun, Showing.Begins edges begun := by
    rw [hint, hremembers.levelOf hcount, hend]
    exact and_congr_right fun _ => ⟨fun h => h rfl, fun h _ => h⟩
  refine ⟨?_, ?_, hspans, fun hstarted => ?_⟩
  · rw [hnmi, hremembers.levelOf hcount]
    exact ⟨And.left, fun h => ⟨h, nofun⟩⟩
  · rw [hwait, hremembers.levelOf hcount]
    exact ⟨And.left, fun h => ⟨h, nofun⟩⟩
  · rw [hspans]
    constructor
    · rintro ⟨⟨p, hp, hpin, hnow⟩, hnone⟩
      exact ⟨p, hp, hpin, hnow, fun ⟨begun, hbegins, _⟩ => hnone ⟨begun, hbegins⟩⟩
    · rintro ⟨p, hp, hpin, hnow, hnone⟩
      refine ⟨⟨p, hp, hpin, hnow⟩, fun ⟨begun, hbegins⟩ => hnone ⟨begun, hbegins, ?_, hbegins.le⟩⟩
      exact hstarted p hp hpin begun hbegins

/-- An edge that shows nothing, or an acknowledge. -/
def plainEdge (level : Level) (acknowledge : Bool) : Showing :=
  ⟨level, { m1 := .activeLow acknowledge, iorq := .activeLow acknowledge }, .released 0xFF⟩

/-- An acknowledge in the first period, and the second one. -/
def earlyAcknowledge : List Showing :=
  [plainEdge .high true, plainEdge .low false, plainEdge .high false]

/-- In the second period NMI is asserted as its pulse has it, and no INT is left. -/
theorem script_after_acknowledge :
    earlyAcknowledge ≠ [] ∧ Showing.rising earlyAcknowledge ≤ maxCount
      ∧ ((scripted [.nmi 1 2, .intUntilAcknowledged 0] []).shown earlyAcknowledge).nmi.isAsserted
        = true
      ∧ ((scripted [.nmi 1 2, .intUntilAcknowledged 0] []).shown earlyAcknowledge).int.isAsserted
        = false := by
  have hedges : earlyAcknowledge ≠ [] := List.cons_ne_nil _ _
  have hcount : Showing.rising earlyAcknowledge ≤ maxCount := by decide
  obtain ⟨hnmi, -, hint, -⟩ :=
    follows_script [.nmi 1 2, .intUntilAcknowledged 0] [] earlyAcknowledge hedges hcount
  refine ⟨hedges, hcount, hnmi.mpr ⟨.nmi 1 2, List.mem_cons_self, rfl, by decide, by decide⟩, ?_⟩
  refine Bool.eq_false_iff.mpr fun hasserted => (hint.mp hasserted).2 ?_
  exact Showing.begins_iff.mpr (by decide)

/-- A pulse of INT in the second period is lost to an acknowledge in the first one. -/
theorem later_pulse_lost :
    ¬ (((scripted [⟨.int, 1, 10⟩] []).shown earlyAcknowledge).int.isAsserted = true ↔
      Showing.CallsForInt [⟨.int, 1, 10⟩] earlyAcknowledge) := by
  have hreleased :
      ((scripted [⟨.int, 1, 10⟩] []).shown earlyAcknowledge).int.isAsserted = false := by decide
  have hcalls : Showing.CallsForInt [⟨.int, 1, 10⟩] earlyAcknowledge := by
    refine ⟨_, List.mem_cons_self, rfl, ⟨by decide, by decide⟩, ?_⟩
    rintro ⟨begun, ⟨before, e, after, hsplit, hshows, -, rfl⟩, hstarted, -⟩
    -- the acknowledge is on the first edge, in the period before the pulse
    match before with
    | [] =>
      obtain ⟨rfl, -⟩ := List.cons.inj hsplit
      exact absurd hstarted (by decide)
    | [first] =>
      obtain ⟨rfl, -⟩ := List.cons.inj (List.cons.inj hsplit).2
      cases hshows
    | [first, second] =>
      obtain ⟨rfl, -⟩ := List.cons.inj (List.cons.inj (List.cons.inj hsplit).2).2
      cases hshows
    | first :: second :: third :: more =>
      cases more <;> cases hsplit
  rw [hreleased]
  exact fun hiff => Bool.false_ne_true (hiff.mpr hcalls)

end InterruptSource

end Z80Board
