import Z80Board.Proofs.Rig.Blocks

/-! # Which cycles an instruction runs

    An instruction that reads nothing but memory is determined by the chip and the bytes that it starts
    with: which cycles it runs, how long each of them is, and what it leaves.  However it is held up,
    every run of it that ends comes to the same; and on a machine that is left alone it comes there,
    with each of its cycles in its time. -/

namespace Z80Board

/-- The kind of the cycle that is due after so many edges of an instruction. -/
def kindAt : List MachineCycle → Nat → Option CycleKind
  | [], _ => none
  | cycle :: rest, edge =>
    if edge < 2 * cycle.tStates then some cycle.kind else kindAt rest (edge - 2 * cycle.tStates)

namespace Scene

variable {w : Surroundings} {s : Scene} {cycles : List MachineCycle} {p e : Core}
  {bytes left : Array Byte} {elsewhere : Byte → Prop}

/-- From this scene on the instruction runs these cycles, reads nothing but memory, and leads to this
    chip over these bytes. -/
inductive Spells (w : Surroundings) : Scene → List MachineCycle → Core → Array Byte → Prop where
  | ends {s : Scene} {cycle : MachineCycle} (own : s.core.cycle.readsElsewhere = false)
    (kind : s.core.cycle.kind = cycle.kind) (span : s.span w = 2 * cycle.tStates)
    (ends : s.ends w = true) : Spells w s [cycle] (s.next w).core (s.next w).bytes
  | goes {s : Scene} {cycle : MachineCycle} {cycles : List MachineCycle} {p : Core}
    {bytes : Array Byte} (own : s.core.cycle.readsElsewhere = false)
    (kind : s.core.cycle.kind = cycle.kind) (span : s.span w = 2 * cycle.tStates)
    (more : s.ends w = false) (later : Spells w (s.next w) cycles p bytes) :
    Spells w s (cycle :: cycles) p bytes

/-- It takes as many edges as its cycles have half-periods. -/
theorem Spells.finishes (h : s.Spells w cycles p bytes) :
    s.Finishes w (2 * Timing.sum cycles) p bytes := by
  induction h with
  | @ends s cycle own _ span ends =>
    have hlast : s.Finishes w (s.span w) (s.next w).core (s.next w).bytes := .ends own ends
    rw [span] at hlast
    exact hlast
  | @goes s cycle cycles p bytes own _ span more _ ih =>
    have hgoes : s.Finishes w (s.span w + 2 * Timing.sum cycles) p bytes := .goes own more ih
    have hsum : s.span w + 2 * Timing.sum cycles = 2 * Timing.sum (cycle :: cycles) := by
      rw [span, ← Nat.mul_add]
      rfl
    rw [hsum] at hgoes
    exact hgoes

/-- Amid its cycles the scene is one of the kind that is due. -/
theorem Spells.kindAt_eq (h : s.Spells w cycles p bytes) {edge count left : Nat}
    (hcount : count < cycles.length) (helapsed : edge + (left + 1) = s.spent w (count + 1))
    (hleft : left + 1 ≤ (s.nth w count).span w) :
    kindAt cycles edge = some (s.nth w count).core.cycle.kind := by
  induction h generalizing edge count with
  | @ends s cycle _ kind span _ =>
    obtain rfl : count = 0 := by
      rw [List.length_singleton] at hcount
      omega
    have hhere : edge + (left + 1) = s.span w := helapsed
    rw [kindAt, if_pos (by omega)]
    exact congrArg some kind.symm
  | @goes s cycle cycles _ _ _ kind span _ _ ih =>
    rw [spent] at helapsed
    cases count with
    | zero =>
      rw [spent, Nat.add_zero] at helapsed
      rw [kindAt, if_pos (by omega)]
      exact congrArg some kind.symm
    | succ count =>
      rw [nth_succ] at hleft ⊢
      rw [List.length_cons] at hcount
      have hroom := spent_succ (w := w) (s := s.next w) count
      rw [kindAt, if_neg (by omega)]
      exact ih (by omega) (by omega) hleft

/-- There are as many scenes as cycles. -/
theorem Spells.count (h : s.Spells w cycles p bytes) : ∃ count, cycles.length = count + 1
    ∧ s.Lasts w count ∧ (s.nth w count).ends w = true := by
  induction h with
  | ends _ _ _ ends => exact ⟨0, rfl, fun _ hbefore => absurd hbefore (Nat.not_lt_zero _), ends⟩
  | @goes s cycle cycles _ _ _ _ _ more _ ih =>
    obtain ⟨count, hlength, hlasts, hends⟩ := ih
    refine ⟨count + 1, ?_, hlasts.succ more, ?_⟩
    · rw [List.length_cons, hlength]
    · rw [nth_succ]
      exact hends

/-- The first scene that ends the instruction is the last one. -/
theorem Lasts.eq_of_ends {count count' : Nat} (h : s.Lasts w count)
    (hends : (s.nth w count).ends w = true) (h' : s.Lasts w count')
    (hends' : (s.nth w count').ends w = true) : count = count' := by
  rcases Nat.lt_trichotomy count count' with hbefore | rfl | hbefore
  · cases (h' count hbefore).symm.trans hends
  · rfl
  · cases (h count' hbefore).symm.trans hends'

/-! ## However it is held up -/

/-- A cycle that reads nothing but memory has no choice. -/
theorem closed_takes {byte : Byte} (hown : s.core.cycle.readsElsewhere = false)
    (htakes : s.core.Takes w.config elsewhere s.bytes byte) :
    s.core.closed byte = s.core.closed (s.byte w) := by
  have hsame : s.core.Takes w.config (· = s.byte w) s.bytes byte :=
    ⟨htakes.memory, fun helse => by cases hown.symm.trans helse⟩
  rw [Core.closed, Core.closed, Core.acted, Core.acted, played_takes hsame]

/-- Whatever else could be read, the instruction leads to the same. -/
theorem Spells.performs (h : s.Spells w cycles p bytes)
    (hperforms : s.core.Performs w.config elsewhere s.bytes e left) :
    e = p.complete ∧ left = bytes := by
  obtain ⟨count, hlasts, hends, hown, -, rfl, rfl⟩ := h.finishes.count
  -- every cycle before the end is one of the scenes
  have hamid {d : Core} {now : Array Byte}
      (hadvances : s.core.Advances w.config elsewhere s.bytes d now) :
      ∃ i ≤ count, d = (s.nth w i).core ∧ now = (s.nth w i).bytes := by
    induction hadvances with
    | start => exact ⟨0, Nat.zero_le _, rfl, rfl⟩
    | cycle _ takes goes ih =>
      obtain ⟨i, hi, rfl, rfl⟩ := ih
      have hclosed := closed_takes (hown i hi) takes
      rw [hclosed] at goes ⊢
      have hother : i ≠ count := by
        rintro rfl
        cases hends.symm.trans goes
      exact ⟨i + 1, by omega, rfl, rfl⟩
  cases hperforms with
  | ends hadvances takes ends =>
    obtain ⟨i, hi, rfl, rfl⟩ := hamid hadvances
    have hclosed := closed_takes (hown i hi) takes
    rw [hclosed] at ends ⊢
    rcases Nat.lt_or_eq_of_le hi with hbefore | rfl
    · cases (hlasts i hbefore).symm.trans ends
    · exact ⟨rfl, rfl⟩

end Scene

/-! ## On the board -/

section

variable {config : BoardConfig} {b b₀ : Board} {level level₀ : Level} {k p : Core}
  {elsewhere : Byte → Prop} {regs : Registers} {bytes : Array Byte}

/-- A board that is executing an instruction is on its way through its cycles. -/
theorem Executing.goes_on (h : Executing b₀ level₀ b)
    (hstart : (b₀.edge level₀).1.Performing config (fun _ => True) bytes k) :
    b.Performing config (fun _ => True) bytes k := by
  induction h with
  | first => exact hstart
  | @edge b _ level reset goes ih =>
    rcases ih.edge reset (fun _ _ _ _ => trivial) with ⟨-, hnext⟩ | ⟨hended, -⟩
    · exact hnext
    · cases goes.symm.trans hended
  | @host b _ host ih => exact ih.set host b.processor.hooks
  | @hooks b _ hooks ih => exact ih.set b.host hooks

/-- The edge that ends it completes them. -/
theorem Executing.completes (h : Executing b₀ level₀ b)
    (hstart : (b₀.edge level₀).1.Performing config (fun _ => True) bytes k)
    (hreset : b.host.reset.isAsserted = false) (hended : (b.core.edge level b.inputs).ended = true) :
    b.Completing config (fun _ => True) bytes k level := by
  rcases (h.goes_on hstart).edge hreset (fun _ _ _ _ => trivial) with ⟨hgoes, -⟩ | ⟨-, hcompleting⟩
  · cases hgoes.symm.trans hended
  · exact hcompleting

/-- What has become of the board is attended too. -/
theorem Executing.attended (h : Executing b₀ level₀ b) (hb : Attended config b₀) :
    Attended config b := by
  induction h with
  | first => exact hb.edge level₀
  | edge _ level _ _ ih => exact ih.edge level
  | @host b _ host ih => exact ih.set host b.processor.hooks id b.memory.bytes ih.orderly.fits.size
  | @hooks b _ hooks ih => exact ih.set b.host hooks id b.memory.bytes ih.orderly.fits.size

/-- Every run of the instruction that begins on this edge, held up or not, leaves these registers and
    these bytes if it ends. -/
def Board.Leaves (b₀ : Board) (level₀ : Level) (regs : Registers) (bytes : Array Byte) : Prop :=
  ∀ b, Executing b₀ level₀ b → ∀ level, b.host.reset.isAsserted = false →
    (b.core.edge level b.inputs).ended = true →
      (b.core.edge level b.inputs).core.regs = regs ∧ (b.edge level).1.memory.bytes = bytes

/-- It leaves what its scenes lead to. -/
theorem Board.Opens.leaves {w : Surroundings} {cycles : List MachineCycle}
    (h : b₀.Opens level₀ k) (hb : b₀.Orderly w.config)
    (hspells : Scene.Spells w ⟨k, b₀.memory.bytes, 0⟩ cycles p bytes) :
    b₀.Leaves level₀ p.regs bytes := by
  intro b hb' level hreset hended
  have hstart : (b₀.edge level₀).1.Performing w.config (fun _ => True) b₀.memory.bytes k :=
    .amid .start (hb.opens h.engaged h.half).2
  obtain ⟨performs, logic, memory⟩ := hb'.completes hstart hreset hended
  obtain ⟨rfl, rfl⟩ := hspells.performs performs
  refine ⟨?_, memory⟩
  have hregs : (b.core.edge level b.inputs).core.logic.regs = p.complete.logic.regs := by
    rw [logic]
  exact hregs

end

/-! ## On a machine that is left alone -/

namespace Machine

variable {config : BoardConfig} {m : Machine} {w : Surroundings} {cycles : List MachineCycle}
  {k p : Core} {bytes : Array Byte}

/-- The machine runs these cycles, each in its time, and with the last one the instruction has led to
    this chip over these bytes. -/
structure Plays (config : BoardConfig) (m : Machine) (cycles : List MachineCycle) (p : Core)
    (bytes : Array Byte) : Prop where
  finishes : m.Finishes config (2 * Timing.sum cycles) p bytes
  kinds : ∀ edge, 0 < edge → edge < 2 * Timing.sum cycles →
    some (m.after edge).core.cycle.kind = kindAt cycles edge

/-- A machine that is about to run the first half-period of an instruction plays its cycles. -/
theorem plays_spelled (h : m.board.Opens m.clock.level.flip k) (hb : m.board.Orderly w.config)
    (hspells : Scene.Spells w ⟨k, m.memory.bytes, 0⟩ cycles p bytes) (hnmi : k.nmiPending = false)
    (hcalm : m.Calm (2 * Timing.sum cycles)) : m.Plays w.config cycles p.complete bytes := by
  have hfinishes := finishes_scene h hb hspells.finishes hnmi hcalm
  refine ⟨hfinishes, fun edge hsome hedge => ?_⟩
  obtain ⟨last, hlasts, hends, hown, htotal, -, -⟩ := hspells.finishes.count
  obtain ⟨last', hlength, hlasts', hends'⟩ := hspells.count
  obtain rfl := hlasts.eq_of_ends hends hlasts' hends'
  rw [htotal] at hcalm hedge
  obtain ⟨hgoes, hmore, hruns⟩ := hb.runs_first (w := w) (s := ⟨k, m.memory.bytes, 0⟩) h.engaged h.half
    rfl rfl
  obtain ⟨left, hleft⟩ : ∃ left, Scene.span w ⟨k, m.memory.bytes, 0⟩ = left + 2 :=
    ⟨Scene.span w ⟨k, m.memory.bytes, 0⟩ - 2, by omega⟩
  rw [hleft] at hruns
  have hfirst : m.Visits w ⟨k, m.memory.bytes, 0⟩ (fun _ _ => True) 1 0 left := by
    refine ⟨hruns, ?_, trivial, nmiPending_first h.engaged hnmi⟩
    rw [Scene.spent, Scene.spent, hleft]
    omega
  obtain ⟨-, count, hcount, left', hvisits⟩ := visits hfirst hgoes
    ⟨fun hcount hruns _ => hruns.supplies (hown _ hcount), fun _ _ _ _ => trivial,
      fun _ _ _ _ => trivial⟩ hlasts
    (fun i hi _ => by rw [Board.Clear, hcalm i hi]) hsome hedge
  have hroom := Nat.le_trans (Nat.le_add_right _ _) hvisits.runs.left_le
  have hkind : (m.after edge).core.cycle.kind = _ := Core.kind_of_use hvisits.runs.use_eq
  rw [hkind]
  exact (hspells.kindAt_eq (by omega) hvisits.elapsed hroom).symm

end Machine

end Z80Board
