import Mathlib.Data.List.Induction
import Z80Board.Proofs.Chip.Lifecycle
import Z80Board.Proofs.Rig.Restart

/-! # The chronicle of a run

    What the edges of a run tell makes a log.  Every edge adds a beat to it, and only the last event
    of a beat is the end of the edge; the others, read from one reset to the next, are those of whole
    instructions, the last of which may still be under way.  This holds whoever stops the machine,
    wherever that happens, and whatever the levels of the inputs are. -/

namespace Z80Board

/-! ## Events one by one -/

/-- An event comes on the right edge of the clock, and a cycle starts and ends only while the chip
    has its buses. -/
structure Emission.Timely (e : Emission) (level : Level) : Prop where
  rising : e.event = .cycleStart → level = .high
  falling : e.event = .cycleEnd ∨ e.event = .instructionEnd → level = .low
  possessed : e.event = .cycleStart ∨ e.event = .cycleEnd → e.core.snapshot.busReleased = false

/-- Number of instructions that have ended. -/
def endings (told : List Emission) : Nat :=
  told.countP (·.event == .instructionEnd)

/-- Every event shows a number of instructions that is greater than the given one by as many as have
    ended, up to that event. -/
def CountsFrom (n : Nat) (told : List Emission) : Prop :=
  ∀ before e after, told = before ++ e :: after →
    e.core.instructionCounter = n + endings (before ++ [e])

theorem endings_append (told told' : List Emission) :
    endings (told ++ told') = endings told + endings told' :=
  List.countP_append

theorem countsFrom_nil (n : Nat) : CountsFrom n [] := by
  intro before e after h
  simp at h

/-- Where a list ends with an element, so does every last part of it. -/
theorem append_eq_snoc {α : Type} {front back list : List α} {last : α}
    (h : front ++ back = list ++ [last]) :
    (back = [] ∧ front = list ++ [last]) ∨ ∃ rest, back = rest ++ [last] ∧ list = front ++ rest := by
  rcases List.append_eq_append_iff.mp h with ⟨rest, hlist, hback⟩ | ⟨rest, hfront, hlast⟩
  · exact Or.inr ⟨rest, hback, hlist⟩
  · rcases List.append_eq_singleton_iff.mp hlast.symm with ⟨rfl, rfl⟩ | ⟨rfl, rfl⟩
    · exact Or.inr ⟨[], rfl, by rw [hfront, List.append_nil, List.append_nil]⟩
    · exact Or.inl ⟨rfl, hfront⟩

/-- One more event counts on. -/
theorem CountsFrom.another {n : Nat} {told : List Emission} {e : Emission} (h : CountsFrom n told)
    (hcounter : e.core.instructionCounter = n + endings (told ++ [e])) :
    CountsFrom n (told ++ [e]) := by
  intro before e' after heq
  rw [List.append_cons before] at heq
  rcases append_eq_snoc heq.symm with ⟨-, hsame⟩ | ⟨rest, -, htold⟩
  · rw [hsame, List.singleton_inj.mp (List.append_inj' hsame rfl).2]
    exact hcounter
  · rw [← List.append_cons] at htold
    exact h before e' rest htold

namespace Account

variable {a b : Account} {level : Level} {e : Emission} {row : List Emission}

theorem Admits.timely (h : a.Admits level e b) : e.Timely level ∧ e.event ≠ .halfTState := by
  have possessed {c : Core} (running : c.phase = .running) : c.snapshot.busReleased = false := by
    show decide (c.phase = .busReleased) = false
    rw [running]
    rfl
  cases h with
  | instructionStart => exact ⟨⟨nofun, nofun, nofun⟩, nofun⟩
  | cycleStart _ rising running =>
    exact ⟨⟨fun _ => rising, nofun, fun _ => possessed running⟩, nofun⟩
  | cycleEnd falling running =>
    exact ⟨⟨nofun, fun _ => falling, fun _ => possessed running⟩, nofun⟩
  | instructionEnd falling => exact ⟨⟨nofun, fun _ => falling, nofun⟩, nofun⟩

theorem Admits.counts (h : a.Admits level e b) :
    e.core.instructionCounter = a.completed + endings [e]
      ∧ b.completed = a.completed + endings [e] := by
  cases h with
  | instructionStart counter => exact ⟨counter, rfl⟩
  | cycleStart _ _ _ counter => exact ⟨counter, rfl⟩
  | cycleEnd _ _ counter => exact ⟨counter, rfl⟩
  | instructionEnd _ counter => exact ⟨counter, rfl⟩

theorem Tells.timely (h : a.Tells level row b) : ∀ e ∈ row, e.Timely level ∧ e.event ≠ .halfTState := by
  induction h with
  | nothing => exact fun _ he => absurd he List.not_mem_nil
  | another _ admits ih =>
    intro e he
    rcases List.mem_append.mp he with he | he
    · exact ih e he
    · rw [List.mem_singleton.mp he]
      exact admits.timely

/-- Events that are in order count on from those before them. -/
theorem Tells.counts (h : a.Tells level row b) {n : Nat} {told : List Emission}
    (hcounts : CountsFrom n told) (hcompleted : a.completed = n + endings told) :
    CountsFrom n (told ++ row) ∧ b.completed = n + endings (told ++ row) := by
  induction h with
  | nothing =>
    rw [List.append_nil]
    exact ⟨hcounts, hcompleted⟩
  | another _ admits ih =>
    obtain ⟨hcounted, hended⟩ := ih
    obtain ⟨hshown, hthen⟩ := admits.counts
    rw [← List.append_assoc, endings_append _ [_], ← Nat.add_assoc, ← hended]
    refine ⟨hcounted.another ?_, hthen⟩
    rw [endings_append _ [_], ← Nat.add_assoc, ← hended]
    exact hshown

end Account

/-! ## Beats -/

/-- What an edge tells, in order, with the level that the clock has from then on. -/
structure Beat where
  level : Level
  /-- RESET is asserted on the edge. -/
  reset : Bool
  told : List Emission

/-- The events of a beat besides the end of the edge. -/
def Beat.others (beat : Beat) : List Event :=
  (beat.told.map Emission.event).filter (· != .halfTState)

/-- The same of a log. -/
def others (log : List Beat) : List Event :=
  log.flatMap Beat.others

/-- A log that is as it should be. -/
structure Orderly (log : List Beat) : Prop where
  /-- The end of the edge is told once, and after everything else. -/
  last : ∀ beat ∈ log, ∃ row e, beat.told = row ++ [e] ∧ e.event = .halfTState
    ∧ ∀ e ∈ row, e.event ≠ .halfTState
  /-- The other events from power-on or a reset on, up to the next one at most, are a prefix of the
      events of whole instructions. -/
  rows : ∀ before between after, log = before ++ between ++ after →
    (before = [] ∨ ∃ start beat, before = start ++ [beat] ∧ beat.reset = true) →
    (∀ beat ∈ between, beat.reset = false) → ∃ rest, InstructionRow (others between ++ rest)
  timely : ∀ beat ∈ log, ∀ e ∈ beat.told, e.Timely beat.level
  /-- Every event shows how many instructions have ended. -/
  counts : CountsFrom 0 (log.flatMap Beat.told)
  /-- Of an instruction that a reset cuts short nothing more is told: an instruction starts next. -/
  afresh : ∀ before beat after, log = before ++ beat :: after → beat.reset = true →
    beat.others = [] ∧ (others after = [] ∨ (others after).head? = some .instructionStart)

/-- The account that a log gives.  A reset starts it over, but for the count. -/
inductive Gives : List Beat → Account → Prop where
  | nothing : Gives [] ⟨.boundary, 0⟩
  | reset {log : List Beat} {a : Account} {level : Level} {c : Core} (h : Gives log a)
    (counter : c.instructionCounter = a.completed) :
    Gives (log ++ [⟨level, true, [⟨.halfTState, c⟩]⟩]) ⟨.boundary, a.completed⟩
  | tells {log : List Beat} {a b : Account} {level : Level} {row : List Emission} {c : Core}
    (h : Gives log a) (tells : a.Tells level row b) (counter : c.instructionCounter = b.completed) :
    Gives (log ++ [⟨level, false, row ++ [⟨.halfTState, c⟩]⟩]) b

namespace Gives

variable {log log' : List Beat} {a : Account}

/-- So does every beginning of it. -/
theorem beginning (h : Gives (log ++ log') a) : ∃ b, Gives log b := by
  generalize hwhole : log ++ log' = whole at h
  induction h generalizing log' with
  | nothing =>
    rw [(List.append_eq_nil_iff.mp hwhole).1]
    exact ⟨_, .nothing⟩
  | reset h counter ih =>
    rcases append_eq_snoc hwhole with ⟨-, rfl⟩ | ⟨rest, -, hrest⟩
    · exact ⟨_, h.reset counter⟩
    · exact ih hrest.symm
  | tells h tells counter ih =>
    rcases append_eq_snoc hwhole with ⟨-, rfl⟩ | ⟨rest, -, hrest⟩
    · exact ⟨_, h.tells tells counter⟩
    · exact ih hrest.symm

/-- The events of a beat besides its end. -/
theorem others_told {level : Level} {reset : Bool} {row : List Emission} {c : Core}
    (h : ∀ e ∈ row, e.event ≠ .halfTState) :
    Beat.others ⟨level, reset, row ++ [⟨.halfTState, c⟩]⟩ = row.map Emission.event := by
  rw [Beat.others, List.map_append, List.filter_append]
  refine (List.append_nil _).trans (List.filter_eq_self.mpr fun event hevent => ?_)
  obtain ⟨e, he, rfl⟩ := List.mem_map.mp hevent
  exact bne_iff_ne.mpr (h e he)

theorem beats (h : Gives log a) : ∀ beat ∈ log,
    (∃ row e, beat.told = row ++ [e] ∧ e.event = .halfTState ∧ ∀ e ∈ row, e.event ≠ .halfTState)
      ∧ (∀ e ∈ beat.told, e.Timely beat.level) ∧ (beat.reset = true → beat.others = []) := by
  induction h with
  | nothing => exact fun _ hbeat => absurd hbeat List.not_mem_nil
  | @reset log a level c _ _ ih =>
    intro beat hbeat
    rcases List.mem_append.mp hbeat with hbeat | hbeat
    · exact ih beat hbeat
    · rw [List.mem_singleton.mp hbeat]
      refine ⟨⟨[], _, rfl, rfl, fun _ he => absurd he List.not_mem_nil⟩, fun e he => ?_,
        fun _ => rfl⟩
      rw [List.mem_singleton.mp he]
      exact ⟨nofun, nofun, nofun⟩
  | @tells log a b level row c _ tells _ ih =>
    intro beat hbeat
    rcases List.mem_append.mp hbeat with hbeat | hbeat
    · exact ih beat hbeat
    · rw [List.mem_singleton.mp hbeat]
      refine ⟨⟨row, _, rfl, rfl, fun e he => (tells.timely e he).2⟩, fun e he => ?_, nofun⟩
      rcases List.mem_append.mp he with he | he
      · exact (tells.timely e he).1
      · rw [List.mem_singleton.mp he]
        exact ⟨nofun, nofun, nofun⟩

theorem counts (h : Gives log a) :
    CountsFrom 0 (log.flatMap Beat.told) ∧ a.completed = endings (log.flatMap Beat.told) := by
  have told (log : List Beat) (beat : Beat) :
      (log ++ [beat]).flatMap Beat.told = log.flatMap Beat.told ++ beat.told := by
    rw [List.flatMap_append, List.flatMap_singleton]
  induction h with
  | nothing => exact ⟨countsFrom_nil 0, rfl⟩
  | reset _ counter ih =>
    obtain ⟨hcounts, hended⟩ := ih
    rw [told]
    refine ⟨hcounts.another ?_, ?_⟩
    · rw [endings_append, ← hended, Nat.zero_add]
      exact counter
    · rw [endings_append, ← hended]
      rfl
  | tells _ tells counter ih =>
    obtain ⟨hcounts, hended⟩ := ih
    obtain ⟨hcounts, hended⟩ := tells.counts hcounts (by rw [hended, Nat.zero_add])
    rw [Nat.zero_add] at hended
    rw [told, ← List.append_assoc]
    refine ⟨hcounts.another ?_, ?_⟩
    · rw [endings_append, ← hended, Nat.zero_add]
      exact counter
    · rw [endings_append, ← hended]
      rfl

/-- The events since the last reset are those that the account is of. -/
theorem reaches (h : Gives log a) : ∀ before between, log = before ++ between →
    (before = [] ∨ ∃ start beat, before = start ++ [beat] ∧ beat.reset = true) →
    (∀ beat ∈ between, beat.reset = false) → a.progress.Reaches (others between) := by
  induction h with
  | nothing =>
    intro before between hlog _ _
    rw [(List.append_eq_nil_iff.mp hlog.symm).2]
    exact .none
  | reset _ _ _ =>
    intro before between hlog _ hbetween
    rcases append_eq_snoc hlog.symm with ⟨rfl, -⟩ | ⟨rest, rfl, -⟩
    · exact InstructionRow.none
    · exact nomatch hbetween _ (List.mem_append_right _ (List.mem_singleton_self _))
  | tells _ tells _ ih =>
    intro before between hlog hbefore hbetween
    rcases append_eq_snoc hlog.symm with ⟨rfl, hsame⟩ | ⟨rest, rfl, hrest⟩
    · rcases hbefore with rfl | ⟨start, beat, rfl, hreset⟩
      · exact absurd hsame.symm (List.append_ne_nil_of_right_ne_nil _ (List.cons_ne_nil _ _))
      · rw [List.singleton_inj.mp (List.append_inj' hsame rfl).2] at hreset
        exact nomatch hreset
    · have hreached := ih before rest hrest hbefore fun beat hbeat =>
        hbetween beat (List.mem_append_left _ hbeat)
      rw [others, List.flatMap_append, List.flatMap_singleton,
        others_told fun e he => (tells.timely e he).2]
      exact tells.reaches hreached

/-- A row of whole instructions begins with the start of one. -/
theorem head_row {events : List Event} (h : InstructionRow events) :
    events = [] ∨ events.head? = some .instructionStart := by
  induction h with
  | none => exact Or.inl rfl
  | @more events cycles _ _ ih =>
    rcases ih with rfl | ih
    · exact Or.inr rfl
    · refine Or.inr ?_
      rw [List.head?_append, ih]
      rfl

/-- What follows a reset has a last part without resets. -/
theorem since_reset {beat : Beat} (hreset : beat.reset = true) (after : List Beat) :
    ∃ mid last between, beat :: after = mid ++ [last] ++ between ∧ last.reset = true
      ∧ (∀ beat ∈ between, beat.reset = false) ∧ ∃ front, after = front ++ between := by
  induction after using List.reverseRecOn with
  | nil => exact ⟨[], beat, [], rfl, hreset, nofun, [], rfl⟩
  | append_singleton after next ih =>
    cases hnext : next.reset with
    | true => exact ⟨beat :: after, next, [], by simp, hnext, nofun, _, (List.append_nil _).symm⟩
    | false =>
      obtain ⟨mid, last, between, hall, hlast, hbetween, front, rfl⟩ := ih
      refine ⟨mid, last, between ++ [next], ?_, hlast, fun beat hbeat => ?_, front,
        List.append_assoc _ _ _⟩
      · rw [← List.append_assoc, ← hall, List.cons_append]
      · rcases List.mem_append.mp hbeat with hbeat | hbeat
        · exact hbetween beat hbeat
        · rw [List.mem_singleton.mp hbeat]
          exact hnext

/-- The first event after a reset is the start of an instruction. -/
theorem afresh {before after : List Beat} {beat : Beat} (h : Gives (before ++ beat :: after) a)
    (hreset : beat.reset = true) :
    others after = [] ∨ (others after).head? = some .instructionStart := by
  induction after using List.reverseRecOn generalizing a with
  | nil => exact Or.inl rfl
  | append_singleton after next ih =>
    have hwhole : before ++ beat :: (after ++ [next]) = (before ++ beat :: after) ++ [next] := by
      rw [List.append_assoc, List.cons_append]
    have hothers (log : List Beat) : others (log ++ [next]) = others log ++ next.others := by
      rw [others, List.flatMap_append, List.flatMap_singleton]
      rfl
    obtain ⟨b, hb⟩ := (hwhole ▸ h).beginning
    rw [hothers]
    rcases ih hb with hnone | hhead
    · rw [hnone, List.nil_append]
      cases hagain : next.reset with
      | true => exact Or.inl ((h.beats next (by simp)).2.2 hagain)
      | false =>
        -- nothing has been told since the last reset, so that the next event is the first one
        obtain ⟨mid, last, between, hall, hlast, hbetween, front, rfl⟩ := since_reset hreset after
        have hquiet : others between = [] := by
          rw [others, List.flatMap_append] at hnone
          exact (List.append_eq_nil_iff.mp hnone).2
        have hreached := h.reaches (before ++ mid ++ [last]) (between ++ [next]) (by
            rw [hwhole, hall]
            simp only [List.append_assoc])
          (Or.inr ⟨_, last, rfl, hlast⟩) fun beat hbeat => by
            rcases List.mem_append.mp hbeat with hbeat | hbeat
            · exact hbetween beat hbeat
            · rw [List.mem_singleton.mp hbeat]
              exact hagain
        rw [hothers, hquiet, List.nil_append] at hreached
        obtain ⟨rest, hrow⟩ := hreached.completes
        rcases hevents : next.others with - | ⟨event, events⟩
        · exact Or.inl rfl
        · rw [hevents] at hrow
          exact Or.inr ((head_row hrow).resolve_left (List.cons_ne_nil _ _))
    · refine Or.inr ?_
      rw [List.head?_append, hhead]
      rfl

/-- A log that gives an account is as it should be. -/
theorem orderly (h : Gives log a) : Orderly log where
  last beat hbeat := (h.beats beat hbeat).1
  rows before between after hlog hbefore hbetween := by
    subst hlog
    obtain ⟨b, hb⟩ := h.beginning
    exact (hb.reaches before between rfl hbefore hbetween).completes
  timely beat hbeat := (h.beats beat hbeat).2.1
  counts := h.counts.1
  afresh before beat after hlog hreset := by
    subst hlog
    exact ⟨(h.beats beat (by simp)).2.2 hreset, h.afresh hreset⟩

end Gives

/-! ## Runs -/

namespace Machine

variable {m : Machine} {log : List Beat}

/-- What the next edge tells. -/
def beat (m : Machine) : Beat :=
  ⟨m.clock.level.flip, m.board.inputs.reset.isAsserted, m.board.emissions m.clock.level.flip⟩

/-- A machine with the log of its run: it has been built from a configuration, driven by its clock,
    and changed by the host in between, who may also have stopped and resumed it. -/
inductive Chronicle : Machine → List Beat → Prop where
  | built {config : BoardConfig} {device : Device} {m : Machine}
    (build : Machine.build config device = .ok m) : Chronicle m []
  | halfTick {m : Machine} {log : List Beat} (h : Chronicle m log) :
    Chronicle m.halfTick.1 (log ++ [m.beat])
  | hooks {m : Machine} {log : List Beat} (h : Chronicle m log) (f : Hooks → Hooks) :
    Chronicle (m.modifyHooks f) log
  | regs {m : Machine} {log : List Beat} (h : Chronicle m log) (f : Registers → Registers) :
    Chronicle (m.modifyRegs f) log
  | memory {m : Machine} {log : List Beat} (h : Chronicle m log) (f : Memory → Memory) :
    Chronicle (m.modifyMemory f) log
  | device {m : Machine} {log : List Beat} (h : Chronicle m log) (f : Device → Device) :
    Chronicle (m.modifyDevice f) log
  | input {m : Machine} {log : List Beat} (h : Chronicle m log) (pin : InputPin) (level : Level) :
    Chronicle (m.setInput pin level) log
  | images {m : Machine} {log : List Beat} (h : Chronicle m log) (images : List ProgramImage) :
    Chronicle { m with images } log

/-- What is known of a machine with its log. -/
structure Logged (m : Machine) (log : List Beat) : Prop where
  sound : m.core.Sound
  inStep : m.core.InStep m.clock.level
  gives : Gives log m.core.account

/-- One edge adds a beat that is in order. -/
theorem Logged.halfTick (h : m.Logged log) : m.halfTick.1.Logged (log ++ [m.beat]) := by
  have hsound : m.board.core.Sound := h.sound
  have hstep : m.board.core.InStep m.clock.level := h.inStep
  obtain ⟨data, hcore⟩ : ∃ data, m.halfTick.1.core
      = { ((m.board.core.edge m.clock.level.flip m.board.inputs).finish
          (m.board.stops m.clock.level.flip)).1 with data } :=
    ⟨_, (m.board.edge_parts m.clock.level.flip).2.2⟩
  refine ⟨?_, ?_, ?_⟩
  · rw [hcore]
    exact ((hsound.edge _ _).finish _).withData _
  · rw [hcore]
    exact (hstep.edge hsound _).2
  · have haccount : m.halfTick.1.core.account
        = ((m.board.core.edge m.clock.level.flip m.board.inputs).finish
          (m.board.stops m.clock.level.flip)).1.account := by
      rw [hcore]
      rfl
    rw [haccount, beat, Board.emissions]
    cases hreset : m.board.inputs.reset.isAsserted with
    | true =>
      obtain ⟨htold, hafter⟩ := m.board.core.edge_resets m.clock.level.flip hreset
        (m.board.stops m.clock.level.flip)
      rw [htold, hafter]
      exact h.gives.reset (congrArg Account.completed hafter)
    | false =>
      obtain ⟨row, htold, htells⟩ := hstep.inOrder hsound hreset
        (m.board.stops m.clock.level.flip)
      rw [htold]
      exact h.gives.tells htells rfl

theorem Chronicle.logged (h : m.Chronicle log) : m.Logged log := by
  induction h with
  | @built config device m build =>
    rw [Machine.build] at build
    split at build
    · cases build
    · cases build
      exact ⟨Core.sound_powerOn _ _, fun hphase => Phase.noConfusion hphase, .nothing⟩
  | halfTick _ ih => exact ih.halfTick
  | hooks _ _ ih | memory _ _ ih | device _ _ ih | input _ _ _ ih | images _ _ ih =>
    exact ⟨ih.sound, ih.inStep, ih.gives⟩
  | regs _ f ih => exact ⟨ih.sound.modifyRegs f, ih.inStep, ih.gives⟩

/-- The events of any run are in order, and those who follow the chip are told just these.  The chip
    counts the instructions that have ended. -/
theorem Chronicle.events_in_order (h : m.Chronicle log) :
    Orderly log ∧ m.core.instructionCounter = endings (log.flatMap Beat.told)
      ∧ m.halfTick.1.hooks = (Processor.deliverAll m.hooks m.beat.told).takeStop.1 := by
  have hgives := h.logged.gives
  refine ⟨hgives.orderly, hgives.counts.2, ?_⟩
  show (m.board.processor.step m.clock.level.flip m.board.inputs).hooks.takeStop.1 = _
  rw [Board.hooks_step]
  rfl

/-- The log of some edges. -/
def beats (m : Machine) : Nat → List Beat
  | 0 => []
  | n + 1 => m.beats n ++ [(m.after n).beat]

/-- A run goes on by some edges. -/
theorem Chronicle.after (h : m.Chronicle log) (n : Nat) :
    (m.after n).Chronicle (log ++ m.beats n) := by
  induction n with
  | zero =>
    rw [beats, List.append_nil]
    exact h
  | succ n ih =>
    rw [beats, ← List.append_assoc]
    exact ih.halfTick

/-- A machine that stops at the end of every instruction, and is reset in the middle of the second
    one. -/
theorem orderly_reset :
    ∃ log, ((stopping.after 9).setInput .reset .asserted).halfTick.1.Chronicle log
      ∧ others log = [.instructionStart, .cycleStart, .cycleEnd, .instructionEnd, .instructionStart,
        .cycleStart]
      ∧ Orderly log := by
  have hbuilt : Machine.build { memorySize := 0x400 } .unattached = .ok idling := rfl
  have hrun := ((((Chronicle.built hbuilt).hooks _ : stopping.Chronicle []).after 9).input .reset
    .asserted).halfTick
  refine ⟨_, hrun, ?_, hrun.events_in_order.1⟩
  decide +kernel

end Machine

end Z80Board
