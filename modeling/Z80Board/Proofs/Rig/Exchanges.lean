import Z80Board.Proofs.Rig.Accesses
import Z80Board.Proofs.Rig.Blocks
import Z80Board.Proofs.Rig.Suppliers

/-! # What an instruction leaves in a latch

    A cycle that writes to a port hands its byte to the latch in its third half-period, when the
    strobe comes up.  No other cycle changes the latch.  So on a board with a latch that is left to
    itself the writes of an instruction are read off its scenes, as its outcome is. -/

namespace Z80Board

/-! ## Some writes -/

namespace PortLatch

variable {l : PortLatch} {writes : List PortWrite}

/-- The latch after some writes to ports. -/
def takes (l : PortLatch) (writes : List PortWrite) : PortLatch :=
  writes.foldl (fun l w => l.take w.address w.value) l

theorem takes_append (l : PortLatch) (writes later : List PortWrite) :
    l.takes (writes ++ later) = (l.takes writes).takes later :=
  List.foldl_append

theorem answers_take (l : PortLatch) (address : Word) (byte port : Byte) :
    (l.take address byte).answers port = l.answers port := by
  rw [take]
  split <;> rfl

theorem answers_takes (l : PortLatch) (writes : List PortWrite) (port : Byte) :
    (l.takes writes).answers port = l.answers port := by
  induction writes generalizing l with
  | nil => rfl
  | cons w rest ih => exact (ih (l.take w.address w.value)).trans (l.answers_take _ _ _)

/-- Writes to its own ports are logged in their order. -/
theorem writes_takes (h : ∀ w ∈ writes, l.covers w = true) :
    (l.takes writes).writes = l.writes ++ writes := by
  induction writes generalizing l with
  | nil => exact (List.append_nil _).symm
  | cons w rest ih =>
    have hfirst : l.take w.address w.value = l.record w.address w.value :=
      if_pos (h w List.mem_cons_self)
    have hrest : ∀ w' ∈ rest, (l.take w.address w.value).covers w' = true := fun w' hmem => by
      rw [covers, answers_take]
      exact h w' (List.mem_cons_of_mem _ hmem)
    have hlater : ((l.take w.address w.value).takes rest).writes
        = (l.take w.address w.value).writes ++ rest := ih hrest
    rw [hfirst] at hlater
    calc (l.takes (w :: rest)).writes
        = ((l.record w.address w.value).takes rest).writes := by rw [← hfirst]; rfl
      _ = l.writes ++ [w] ++ rest := hlater
      _ = l.writes ++ w :: rest := by rw [List.append_assoc]; rfl

/-- The last write to a port is in its register. -/
theorem get_takes_concat {w : PortWrite} (h : l.covers w = true) :
    (l.takes (writes ++ [w])).get (Word.low w.address) = w.value := by
  have hanswers : (l.takes writes).answers (Word.low w.address) = true :=
    (l.answers_takes writes _).trans h
  have hlast : l.takes (writes ++ [w]) = (l.takes writes).record w.address w.value := by
    rw [takes_append]
    exact if_pos hanswers
  rw [hlast]
  exact Vector.getElem_set_self _

end PortLatch

/-! ## Boards with a latch -/

/-- Boards with a usual device that has a latch, from power-on on.  At every edge the level may be any,
    and between edges the host may drive the input pins, follow the chip, change its registers and
    memory, and set the registers and the log of the latch. -/
inductive Equipped (config : BoardConfig) : Board → Prop where
  | start {device : Device} {m : Machine} {l : PortLatch} {bytes : Array Byte} (usual : device.Usual)
    (latch : device.latch? = some l) (built : Machine.build config device = .ok m)
    (size : bytes.size = config.memorySize) : Equipped config { m.board with memory.bytes := bytes }
  | edge {b : Board} (h : Equipped config b) (level : Level) : Equipped config (b.edge level).1
  | set {b : Board} (h : Equipped config b) (host : InputLevels) (hooks : Hooks)
    (f : Registers → Registers) (bytes : Array Byte) (size : bytes.size = config.memorySize) :
    Equipped config (b.set host hooks f bytes)
  | load {b : Board} (h : Equipped config b) (registers : Vector Byte 256)
    (writes : List PortWrite) :
    Equipped config (b.modifyLatch fun l => { l with registers, writes })

namespace Equipped

variable {config : BoardConfig} {b : Board}

theorem tracks (h : Equipped config b) : ∃ l, b.Tracks l := by
  induction h with
  | @start device m l bytes usual latch built size =>
    have hturns := (Board.TakesTurns.start usual built).set m.board.host m.board.processor.hooks id
      bytes
    unfold Machine.build at built
    split at built
    · exact nomatch built
    · obtain rfl := Except.ok.inj built
      exact ⟨l, hturns, latch, fun hphase => absurd rfl hphase⟩
  | edge _ level ih =>
    obtain ⟨l, htracks⟩ := ih
    exact ⟨_, htracks.edge level⟩
  | set _ host hooks f bytes size ih =>
    obtain ⟨l, htracks⟩ := ih
    exact ⟨l, htracks.turns.set host hooks f bytes, htracks.latch, htracks.writing⟩
  | load _ registers writes ih =>
    obtain ⟨l, htracks⟩ := ih
    exact ⟨_, htracks.modifyLatch fun l => ⟨registers, writes, rfl⟩⟩

theorem orderly (h : Equipped config b) : b.Orderly config := by
  induction h with
  | start usual latch built size => exact (Attended.start built size).orderly
  | edge _ level ih => exact ih.edge level
  | set _ host hooks f bytes size ih => exact ih.changed host hooks f size
  | @load b h registers writes ih =>
    have hdriving : (b.device.modifyLatch fun l => { l with registers, writes }).driving
        = b.device.driving := by
      obtain ⟨l, htracks⟩ := h.tracks
      have husual := htracks.turns.usual
      revert husual
      cases b.device with
      | unattached | latch | source => exact fun _ => rfl
      | pair first second =>
        intro husual
        cases husual
        rfl
    refine ⟨ih.sound, ih.phased, ih.driving, fun hphase hdrives => ih.turned hphase ?_, ih.fits⟩
    exact hdriving.symm.trans hdrives

theorem awake (h : Equipped config b) : b.core.Awake := by
  induction h with
  | start usual latch built size => exact (Attended.start built size).awake
  | edge h level ih => exact Board.awake_edge ih h.orderly.sound level
  | set _ _ _ _ _ _ ih => exact ih
  | load _ _ _ ih => exact ih

end Equipped

/-! ## The writes of a scene -/

namespace Scene

variable {w : Surroundings} {s : Scene} {b : Board} {level : Level} {left : Nat}

/-- What the scene writes to ports. -/
def sends (s : Scene) : List PortWrite :=
  if s.core.cycle.pattern = .portWrite then [⟨s.core.latches.port, s.core.latches.outLow⟩] else []

/-- What it has written when its cycle has come to a half-period. -/
def begun (s : Scene) (half : Nat) : List PortWrite :=
  if 3 ≤ half then s.sends else []

/-- What so many scenes write to ports. -/
def sent (w : Surroundings) (s : Scene) : Nat → List PortWrite
  | 0 => []
  | count + 1 => s.sends ++ (s.next w).sent w count

theorem sent_succ (count : Nat) :
    s.sent w (count + 1) = s.sent w count ++ (s.nth w count).sends := by
  induction count generalizing s with
  | zero => exact List.append_nil _
  | succ count ih => rw [sent, ih, ← nth_succ, sent, List.append_assoc]

/-- The cycle of the scene has no waits, and so many half-periods are to come. -/
theorem Runs.half_eq (h : s.Runs w left b) (hown : s.Own) :
    left + b.core.cycle.half = 2 * (s.core.played (s.byte w)).cycle.length := by
  rw [h.left, h.autoWaits_eq_zero hown.pattern, Nat.mul_zero, Nat.add_zero]

/-- A scene spans the half-periods of its cycle. -/
theorem Own.span (h : s.Own) (w : Surroundings) :
    s.span w = 2 * (s.core.played (s.byte w)).cycle.length := by
  rw [Scene.span, if_neg h.pattern, Nat.add_zero]

/-- An edge that leads into a cycle runs a half-period of it. -/
theorem Runs.engaged_of_amid (h : s.Runs w left b) (hphase : (b.edge level).1.core.phase = .running)
    (hchosen : (b.edge level).1.core.boundaryPending = false)
    (hlater : (b.edge level).1.core.cycle.half ≠ 0) :
    b.engaged level = some (b.core.sampleInputs b.inputs) := by
  obtain ⟨stopping, hstep⟩ := b.moved_eq level
  have houtcome := h.plays.orderly.sound.outcome level b.inputs stopping
  rw [← hstep] at houtcome
  rw [(b.edge_parts level).2.2] at hphase hchosen hlater
  cases houtcome with
  | rests _ first => exact absurd (first hphase hchosen) hlater
  | amid k runs =>
    have hengaged : b.engaged level = some k := runs
    rw [hengaged, h.engages hengaged]

/-- A cycle that writes to a port has its address on the address bus, and its byte in a latch of the
    chip. -/
theorem Runs.port_write (h : s.Runs w left b) (hport : s.core.cycle.pattern = .portWrite)
    (hlater : b.core.cycle.half ≠ 0) :
    b.core.address.value = s.core.latches.port ∧ b.core.latches.outLow = s.core.latches.outLow := by
  constructor
  · rw [h.address_eq hlater (fun hfetch => by cases hport.symm.trans hfetch)
      (by rw [ActiveCycle.Addresses, hport]; decide), Core.cycleAddress, hport]
    rfl
  · obtain ⟨byte, hthrough, -⟩ := h.plays.taken
    have hlatches : b.core.logic.latches
        = (s.core.through byte b.core.cycle.half).logic.latches := by rw [hthrough]
    have hsame : b.core.latches = s.core.latches :=
      hlatches.trans (s.core.latches_through byte _ (Or.inr hport))
    rw [hsame]

/-- An edge that runs a half-period of a scene hands the latch what the scene writes, in the third
    half-period. -/
theorem Runs.idle_edge {l : PortLatch} (h : s.Runs w left b) (htracks : b.Tracks l)
    (hengaged : b.engaged level = some (b.core.sampleInputs b.inputs)) :
    (b.latchAfter l level).idle = l.idle.takes (if b.core.cycle.half = 2 then s.sends else []) := by
  have hkept := htracks.kept_edge level
  rw [show b.core.engaged level b.inputs = some (b.core.sampleInputs b.inputs) from hengaged] at hkept
  have hidle : (b.latchAfter l level).idle
      = (if s.core.cycle.pattern = .portWrite ∧ b.core.cycle.half = 2 then
          l.take b.core.address.value b.core.latches.outLow else l).idle := by
    rw [Board.latchAfter_eq, hkept, ← h.pattern_eq]
    rfl
  rw [hidle, sends]
  by_cases htwo : b.core.cycle.half = 2
  · rw [if_pos htwo]
    by_cases hport : s.core.cycle.pattern = .portWrite
    · obtain ⟨haddress, hout⟩ := h.port_write hport (by omega)
      rw [if_pos ⟨hport, htwo⟩, if_pos hport, haddress, hout, PortLatch.idle_take]
      rfl
    · rw [if_neg fun hboth => hport hboth.1, if_neg hport]
      rfl
  · rw [if_neg fun hboth => htwo hboth.2, if_neg htwo]
    rfl

/-- An edge that runs no third half-period hands it nothing. -/
theorem idle_edge_of_other {l : PortLatch} (htracks : b.Tracks l)
    (hother : ∀ k, b.engaged level = some k → k.cycle.half ≠ 2) :
    (b.latchAfter l level).idle = l.idle := by
  have hkept := htracks.kept_edge level
  rw [Board.latchAfter_eq, hkept]
  cases hengaged : b.core.engaged level b.inputs with
  | none => rfl
  | some k =>
    dsimp only
    rw [if_neg fun hboth => hother k hengaged hboth.2]
    rfl

end Scene

/-! ## Scene after scene -/

/-- The latch of the board has taken what the scenes before have written, and what this one has. -/
def Board.Receives (w : Surroundings) (s : Scene) (l : PortLatch) (count : Nat) (b : Board) : Prop :=
  ∃ now, b.Tracks now
    ∧ now.idle = l.idle.takes (s.sent w count ++ (s.nth w count).begun b.core.cycle.half)

namespace Scene

variable {w : Surroundings} {s : Scene} {b : Board} {level : Level} {left edges : Nat} {p : Core}
  {bytes : Array Byte} {asks : Bool} {writes : List PortWrite}

/-- From edge to edge of a scene. -/
theorem receives_goes {l : PortLatch} {count : Nat} (hown : (s.nth w count).Own)
    (hruns : (s.nth w count).Runs w (left + 1) b) (h : b.Receives w s l count)
    (hnext : (s.nth w count).Runs w left (b.edge level).1) :
    (b.edge level).1.Receives w s l count := by
  obtain ⟨now, htracks, hnow⟩ := h
  have hhalf := hruns.half_eq hown
  have hhalf' := hnext.half_eq hown
  have hengaged := hruns.engaged_of_amid hnext.phase hnext.plays.amid.chosen (by omega)
  refine ⟨_, htracks.edge level, ?_⟩
  rw [hruns.idle_edge htracks hengaged, hnow, ← PortLatch.takes_append, List.append_assoc]
  have hbegun : (s.nth w count).begun b.core.cycle.half
      ++ (if b.core.cycle.half = 2 then (s.nth w count).sends else [])
      = (s.nth w count).begun (b.edge level).1.core.cycle.half := by
    rw [show (b.edge level).1.core.cycle.half = b.core.cycle.half + 1 by omega, begun, begun]
    -- only the third half-period hands anything over
    rcases Nat.lt_trichotomy b.core.cycle.half 2 with hearly | htwo | hlate
    · rw [if_neg (by omega), if_neg (by omega), if_neg (by omega)]
      rfl
    · rw [if_neg (by omega), if_pos htwo, if_pos (by omega)]
      rfl
    · rw [if_pos (by omega), if_neg (by omega), if_pos (by omega), List.append_nil]
  rw [hbegun]

/-- The last edge of a scene comes when all is written. -/
theorem receives_last {l : PortLatch} {count : Nat} (hown : (s.nth w count).Own)
    (hruns : (s.nth w count).Runs w 1 b) (h : b.Receives w s l count) :
    ∃ now, (b.edge level).1.Tracks now ∧ now.idle = l.idle.takes (s.sent w (count + 1)) := by
  obtain ⟨now, htracks, hnow⟩ := h
  have hhalf := hruns.half_eq hown
  have hleast := hruns.least
  have hthree := (s.nth w count).core.cycle.pattern.three_le_minimumLength
  refine ⟨_, htracks.edge level, ?_⟩
  have hsame : (b.latchAfter now level).idle = now.idle :=
    idle_edge_of_other htracks fun k hengaged => by
      rw [hruns.engages hengaged]
      show b.core.cycle.half ≠ 2
      omega
  rw [hsame, hnow, begun, if_pos (by omega), sent_succ]

/-- From scene to scene. -/
theorem receives_next {l : PortLatch} {count : Nat} (hown : (s.nth w count).Own)
    (hown' : (s.nth w (count + 1)).Own) (hruns : (s.nth w count).Runs w 1 b)
    (h : b.Receives w s l count)
    (hnext : (s.nth w (count + 1)).Runs w ((s.nth w (count + 1)).span w) (b.edge level).1) :
    (b.edge level).1.Receives w s l (count + 1) := by
  obtain ⟨now, htracks, hnow⟩ := receives_last hown hruns h
  have hhalf := hnext.half_eq hown'
  rw [hown'.span] at hhalf
  refine ⟨now, htracks, ?_⟩
  rw [hnow, begun, if_neg (by omega), List.append_nil]

/-- From this scene on the instruction takes so many edges, writes this to ports, and leads to this chip
    over these bytes.  It comes from memory, and reads from a port only if it asks for bytes. -/
inductive Exchanges (w : Surroundings) (asks : Bool) :
    Scene → Nat → List PortWrite → Core → Array Byte → Prop where
  | ends {s : Scene} (own : s.Own) (reads : s.core.cycle.pattern = .portRead → asks = true)
    (ends : s.ends w = true) :
    Exchanges w asks s (s.span w) s.sends (s.next w).core (s.next w).bytes
  | goes {s : Scene} {edges : Nat} {writes : List PortWrite} {p : Core} {bytes : Array Byte}
    (own : s.Own) (reads : s.core.cycle.pattern = .portRead → asks = true) (more : s.ends w = false)
    (later : Exchanges w asks (s.next w) edges writes p bytes) :
    Exchanges w asks s (s.span w + edges) (s.sends ++ writes) p bytes

/-- A scene that uses no port writes nothing to one. -/
theorem sends_eq_nil (h : s.core.cycle.pattern ≠ .portWrite) : s.sends = [] := if_neg h

/-- A scene that uses no port. -/
theorem Exchanges.passes (own : s.Own) (silent : s.core.cycle.pattern ∉ [.portRead, .portWrite])
    (more : s.ends w = false) (later : Exchanges w asks (s.next w) edges writes p bytes) :
    Exchanges w asks s (s.span w + edges) writes p bytes := by
  simp only [List.mem_cons, List.not_mem_nil, or_false, not_or] at silent
  have hgoes := Exchanges.goes own (fun hport => absurd hport silent.1) more later
  rw [sends_eq_nil silent.2] at hgoes
  exact hgoes

/-- It has so many scenes, of which the last one ends it. -/
theorem Exchanges.count (h : s.Exchanges w asks edges writes p bytes) :
    ∃ last, s.Lasts w last ∧ (s.nth w last).ends w = true
      ∧ (∀ i ≤ last, (s.nth w i).Own ∧ ((s.nth w i).core.cycle.pattern = .portRead → asks = true))
      ∧ edges = s.spent w (last + 1) ∧ writes = s.sent w (last + 1)
      ∧ p = (s.nth w (last + 1)).core ∧ bytes = (s.nth w (last + 1)).bytes := by
  induction h with
  | ends own reads ends =>
    refine ⟨0, fun _ hbefore => absurd hbefore (Nat.not_lt_zero _), ends, fun i hi => ?_, rfl,
      (List.append_nil _).symm, rfl, rfl⟩
    rw [Nat.le_zero.mp hi]
    exact ⟨own, reads⟩
  | @goes s edges writes p bytes own reads more _ ih =>
    obtain ⟨last, hlasts, hends, hall, hedges, hwrites, hp, hbytes⟩ := ih
    rw [← nth_succ] at hends hp hbytes
    refine ⟨last + 1, hlasts.succ more, hends, fun i hi => ?_, by rw [spent, hedges],
      by rw [sent, hwrites], hp, hbytes⟩
    cases i with
    | zero => exact ⟨own, reads⟩
    | succ i =>
      rw [nth_succ]
      exact hall i (by omega)

/-- A scene of an instruction that writes nothing writes nothing. -/
theorem sends_of_sent {count : Nat} (h : s.sent w count = []) {i : Nat} (hi : i < count) :
    (s.nth w i).core.cycle.pattern ≠ .portWrite := by
  induction count generalizing i with
  | zero => exact absurd hi (Nat.not_lt_zero _)
  | succ count ih =>
    rw [sent_succ, List.append_eq_nil_iff] at h
    rcases Nat.lt_succ_iff_lt_or_eq.mp hi with hbefore | rfl
    · exact ih h.1 hbefore
    · intro hport
      have hsends := h.2
      rw [sends, if_pos hport] at hsends
      cases hsends

end Scene

/-! ## On a machine that is left to itself -/

namespace Machine

variable {m : Machine} {w : Surroundings} {s : Scene} {k p : Core} {l : PortLatch}
  {edges last : Nat} {bytes : Array Byte} {asks : Bool} {writes : List PortWrite}
  {J J' : Nat → Board → Prop}

/-- What else the board keeps up. -/
theorem Upholds.with_also (h : Upholds w s J last)
    (goes : ∀ {b : Board} {count left : Nat} {level : Level}, count ≤ last →
      (s.nth w count).Runs w (left + 1) b → J' count b →
        (s.nth w count).Runs w left (b.edge level).1 → J' count (b.edge level).1)
    (next : ∀ {b : Board} {count : Nat} {level : Level}, count < last →
      (s.nth w count).Runs w 1 b → J' count b →
        (s.nth w (count + 1)).Runs w ((s.nth w (count + 1)).span w) (b.edge level).1 →
          J' (count + 1) (b.edge level).1) :
    Upholds w s (fun count b => J count b ∧ J' count b) last :=
  ⟨fun hcount hruns hboth => h.supplies hcount hruns hboth.1,
    fun hcount hruns hboth hnext =>
      ⟨h.goes hcount hruns hboth.1 hnext, goes hcount hruns hboth.2 hnext⟩,
    fun hcount hruns hboth hnext =>
      ⟨h.next hcount hruns hboth.1 hnext, next hcount hruns hboth.2 hnext⟩⟩

/-- A machine that is about to run the first half-period of an instruction comes to its end so, with the
    writes of the instruction in its latch. -/
theorem exchanges (h : m.board.Opens m.clock.level.flip k) (hb : m.board.Orderly w.config)
    (htracks : m.board.Tracks l) (hreply : m.device.reply = w.reply)
    (hexchanges : Scene.Exchanges w asks ⟨k, m.memory.bytes, 0⟩ edges writes p bytes)
    (hports : asks = true → writes = []) (hnmi : k.nmiPending = false) (hcalm : m.Calm edges) :
    m.Finishes w.config edges p.complete bytes
      ∧ ∃ now, (m.after edges).board.Tracks now ∧ now.idle = l.idle.takes writes := by
  obtain ⟨last, hlasts, hends, hall, rfl, rfl, rfl, rfl⟩ := hexchanges.count
  generalize hscene : (⟨k, m.memory.bytes, 0⟩ : Scene) = s at *
  have hheard : s.Heard w last :=
    ⟨fun i hi => Or.inl (hall i hi).1, fun i hi hread j hj =>
      Scene.sends_of_sent (hports ((hall i hi).2 hread)) (by omega)⟩
  have hfirstOwn : s.Own := (hall 0 (Nat.zero_le _)).1
  obtain ⟨hgoes, hmore, hruns⟩ := hb.runs_first (w := w) (s := s) h.engaged h.half
    (by rw [← hscene]) (by rw [← hscene]; rfl)
  obtain ⟨left, hleft⟩ : ∃ left, s.span w = left + 2 := ⟨s.span w - 2, by omega⟩
  have hone := hruns.half_eq hfirstOwn
  rw [← hfirstOwn.span w] at hone
  obtain ⟨hlatch, hkept, -⟩ := Board.device_edge htracks.turns.usual m.clock.level.flip
  have hsupplied : (m.board.edge m.clock.level.flip).1.Supplied w s 0 :=
    ⟨⟨⟨_, htracks.turns.edge _, htracks.turns.oneVoice _⟩, hlatch,
      fun hdevice => absurd hdevice hfirstOwn.origin⟩,
      fun hnone => (hkept (hruns.givesPort (hnone 0 (Nat.le_refl 0)))).trans hreply⟩
  -- the first edge runs the first half-period, which hands nothing over
  have hreceives : (m.board.edge m.clock.level.flip).1.Receives w s l 0 := by
    refine ⟨_, htracks.edge _, ?_⟩
    rw [Scene.idle_edge_of_other htracks fun k' hengaged => ?_, Scene.begun, if_neg (by omega)]
    · rfl
    · rw [Option.some.inj (hengaged.symm.trans h.engaged), h.half]
      decide
  have hups : Upholds w s (fun count b => b.Supplied w s count ∧ b.Receives w s l count) last :=
    hheard.upholds.with_also
      (fun hcount hruns hreceives hnext =>
        Scene.receives_goes (hall _ hcount).1 hruns hreceives hnext)
      (fun hcount hruns hreceives hnext =>
        Scene.receives_next (hall _ (Nat.le_of_lt hcount)).1 (hall _ hcount).1 hruns hreceives hnext)
  have hclear (edge : Nat) (hedge : edge < s.spent w (last + 1)) : (m.after edge).board.Clear := by
    rw [Board.Clear, hcalm edge hedge]
  rw [hleft] at hruns
  have hfirst : m.Visits w s (fun count b => b.Supplied w s count ∧ b.Receives w s l count) 1 0
      left := by
    refine ⟨hruns, ?_, ⟨hsupplied, hreceives⟩, nmiPending_first h.engaged hnmi⟩
    rw [Scene.spent, Scene.spent, hleft]
    omega
  refine ⟨finishes_visits hfirst hgoes hups hlasts hends (fun edge hedge _ => hclear edge hedge)
    (Or.inl fun edge hlast => by rw [hcalm edge (by omega)]), ?_⟩
  obtain ⟨edge, htotal⟩ : ∃ edge, s.spent w (last + 1) = edge + 1 :=
    Nat.exists_eq_succ_of_ne_zero (by
      have hleast : s.spent w (0 + 1) ≤ s.spent w (last + 1) := Scene.spent_mono (by omega)
      have helapsed := hfirst.elapsed
      omega)
  obtain ⟨-, hvisits⟩ := visits_last hfirst hgoes hups hlasts (fun edge hedge _ => hclear edge hedge)
    htotal.symm
  rw [htotal]
  exact Scene.receives_last (hall last (Nat.le_refl _)).1 hvisits.runs hvisits.keeps.2

end Machine

end Z80Board
