import Z80Board.Proofs.Chip.Edges
import Z80Board.Proofs.Chip.Supply

/-! # What another run has left does not matter

    Two chips are alike but for a residue: stale latches, cells of the opcode buffer behind its end,
    the number of the last half-period, and the two counters.  As long as the filled latches are
    those that the instruction still needs, a half-period keeps the chips alike.

    This is shown point by point: acting, taking up an instruction, looking up a byte of the opcode,
    and each half-period of each way to use the buses take no notice of the residue.  A byte that is
    read is in its latch from its sample on, and is used at the end of the cycle. -/

namespace Z80Board

/-! ## What is left of an earlier run -/

/-- What another run has left in a chip: latches and cells that nothing has been put into since, and
    counts. -/
structure Residue where
  latches : Latches
  opcode : OpcodeBytes
  lastHalf : Nat
  instructions : Nat
  edges : Nat

/-- The chip with what is left of another run, but for the latches that are filled. -/
def Core.bearing (c : Core) (filled : Filled) (r : Residue) : Core :=
  { c with
    latches := c.latches.patched filled r.latches
    opcode := r.opcode
    cycle.lastHalf := r.lastHalf
    instructionCounter := r.instructions + c.instructionCounter
    halfTStates := r.edges + c.halfTStates }

/-- A set that meets some needs holds them. -/
theorem Filled.eq_of_meets {filled needs : Filled} (h : filled.meets needs = true) :
    needs ∪ filled = filled :=
  eq_of_beq h

/-- A byte is added as long as there is a free cell. -/
theorem OpcodeBytes.toList_push (a : OpcodeBytes) (byte : Byte) :
    (a.push byte).toList = if a.toList.length < 4 then a.toList ++ [byte] else a.toList := by
  obtain ⟨cells, count, hcount⟩ := a
  have hlength : (OpcodeBytes.mk cells count hcount).toList.length = count := by
    simp [toList, hcount]
  rw [hlength, push]
  split
  · next hroom =>
    have hin : count < cells.toList.length := by simpa using hroom
    simp only [toList, Vector.toList_set]
    rw [List.take_add_one, List.take_set_of_le (Nat.le_refl _), List.getElem?_set_self hin]
    rfl
  · rfl

theorem Filled.union_left_comm (s t u : Filled) : s ∪ (t ∪ u) = t ∪ (s ∪ u) := by
  simp only [Union.union, Filled.union, Bool.or_left_comm]

/-- A set that is counted in already adds nothing. -/
theorem Filled.union_absorb (s t : Filled) : s ∪ (t ∪ s) = t ∪ s := by
  rw [union_left_comm]
  simp only [Union.union, Filled.union, Bool.or_self]

/-- With more filled, the needs are still met. -/
theorem Filled.meets_union {filled needs : Filled} (h : filled.meets needs = true) (more : Filled) :
    (more ∪ filled).meets needs = true := by
  rw [meets, beq_iff_eq, union_left_comm, eq_of_beq h]

/-- With nothing filled besides, a set stays as it is. -/
theorem Filled.union_empty (s : Filled) : s ∪ {} = s := by
  show Filled.mk _ _ _ _ _ _ _ _ _ = s
  simp only [Bool.or_false]

/-- Latches that are filled may count as stale. -/
theorem Latches.patched_patched {filled less : Filled} (h : less ∪ filled = filled)
    (own stale : Latches) :
    own.patched less (own.patched filled stale) = own.patched filled stale := by
  have hbit {α : Type} (l f : Bool) (hlf : (l || f) = f) (a b : α) :
      (bif l then a else bif f then a else b) = bif f then a else b := by
    cases l
    · rfl
    · rw [← hlf]
      rfl
  simp only [patched, Latches.mk.injEq]
  exact ⟨hbit _ _ (congrArg Filled.fetched h) _ _, hbit _ _ (congrArg Filled.addr h) _ _,
    hbit _ _ (congrArg Filled.port h) _ _, hbit _ _ (congrArg Filled.immLow h) _ _,
    hbit _ _ (congrArg Filled.immHigh h) _ _, hbit _ _ (congrArg Filled.dataLow h) _ _,
    hbit _ _ (congrArg Filled.dataHigh h) _ _, hbit _ _ (congrArg Filled.outLow h) _ _,
    hbit _ _ (congrArg Filled.outHigh h) _ _⟩

namespace Core

variable {c : Core} {code : Instruction} {filled filled' less : Filled} {point : ExecPoint}
  {r : Residue} {half : Nat}

/-- The residue that counts some filled latches as stale. -/
def spent (c : Core) (filled : Filled) (r : Residue) : Residue :=
  { r with latches := c.latches.patched filled r.latches }

theorem bearing_spent (h : less ∪ filled = filled) :
    c.bearing less (c.spent filled r) = c.bearing filled r := by
  unfold bearing spent
  rw [Latches.patched_patched h]

/-- What is stale counts as filled when it is the same. -/
theorem execute_staled {stale : Latches} (hcode : c.instruction = some code)
    (h : filled.act code.mnemonic code.operands point = some filled') :
    (c.staled filled stale).execute point = (c.execute point).staled filled' stale := by
  have haddress : (c.staled filled stale).addressOperand code
      = (c.addressOperand code).staled (Filled.addressed code.operands ∪ filled) stale := by
    rw [addressOperand, addressOperand, Filled.addressed]
    rw [Instruction.memoryOperand?]
    cases code.operands.find? Operand.isMemory with
    | none => rfl
    | some operand =>
      cases operand
      case indirect rr => cases rr <;> rfl
      all_goals rfl
  have hacts {d : Core} {filled : Filled}
      (h : (if filled.meets (Demand.act code.mnemonic code.operands point).needs then
        some ((Demand.act code.mnemonic code.operands point).fills ∪ filled) else none)
          = some filled') :
      (d.staled filled stale).act code point = (d.act code point).staled filled' stale := by
    split at h
    · next hmeets =>
      have hact := act_staled d filled stale code point
      rw [Filled.eq_of_meets hmeets, Option.some.inj h] at hact
      exact hact
    · cases h
  rw [execute, execute]
  rw [show (c.staled filled stale).instruction = c.instruction from rfl, hcode]
  dsimp only
  rw [Filled.act] at h
  split
  · next hpoint =>
    rw [if_pos hpoint] at h
    rw [haddress]
    exact hacts h
  · next hpoint =>
    rw [if_neg hpoint] at h
    exact hacts h

/-- Acting takes no notice of what is stale. -/
theorem execute_bearing (hcode : c.instruction = some code)
    (h : filled.act code.mnemonic code.operands point = some filled') :
    (c.bearing filled r).execute point = (c.execute point).bearing filled' r := by
  calc (c.bearing filled r).execute point
      = ((c.staled filled r.latches).under (c.bearing filled r)).execute point := rfl
    _ = ((c.execute point).staled filled' r.latches).under (c.bearing filled r) := by
      rw [execute_under, execute_staled hcode h]
    _ = ((c.execute point).under c).bearing filled' r := rfl
    _ = (c.execute point).bearing filled' r := by rw [← control_execute]

/-! ## An opcode -/

/-- Putting a displacement in its place fills the latch that addresses memory. -/
theorem takeUp_bearing (code : Instruction) :
    (c.bearing filled r).takeUp code
      = (c.takeUp code).bearing
        (({ addr := c.displacement.isSome && Operand.indexed? code.operands } : Filled) ∪ filled)
        r := by
  rw [takeUp, takeUp, placeDisplacement, placeDisplacement, Operand.indexed?]
  rw [Instruction.index?]
  rw [show (c.bearing filled r).displacement = c.displacement from rfl]
  cases code.operands.findSome? Operand.index? <;> cases c.displacement <;> rfl

/-- The timing of the instruction supplies what its cycles need from here on. -/
structure Supplied (c : Core) (code : Instruction) (filled : Filled) : Prop where
  nested : code.timing.nested = true
  supplies : Filled.supplies code.mnemonic code.operands c.displacement.isSome filled
    (code.timing.kinds.drop c.position) = true

/-- The chip is still to take in the byte of a fetch. -/
def Fetching (c : Core) (half : Nat) : Prop :=
  (c.cycle.pattern = .fetch ∨ c.cycle.pattern = .acknowledge) ∧ half ≤ 4

/-- What is filled is all that is needed. -/
structure Feeds (c : Core) (half : Nat) (filled : Filled) : Prop where
  /-- The displacement is there when the byte behind it is read, and not before. -/
  seeking : c.instruction = none → (c.displacement.isSome = true ↔ c.chain = .opcodeAfterDisplacement)
  /-- An instruction that has not acted yet is one of the chip's own. -/
  own : ∀ code, c.instruction = some code → c.Fetching half →
    (∃ op, code = decoder.internal op) ∧ c.position = 0 ∧ c.displacement = none
  supplied : ∀ code, c.instruction = some code → ¬ c.Fetching half → c.Supplied code filled

/-- Taking up an instruction of the page takes no notice of what is stale. -/
theorem beginExecution_bearing {page : Page} (h : Listing.Entitled Catalog.forms page code)
    (hdisplaced : c.displacement.isSome = page.displaced) (r : Residue) :
    ∃ filled, (c.bearing {} r).beginExecution code = (c.beginExecution code).bearing filled r
      ∧ code.timing.nested = true
      ∧ Filled.supplies code.mnemonic code.operands page.displaced filled
        (code.timing.kinds.drop page.approach.length) = true := by
  have hsuits := h.suits
  rw [Timings.suits, Bool.and_eq_true, Option.any_eq_true] at hsuits
  obtain ⟨hnested, filled, hacts, hsupplies⟩ := hsuits
  refine ⟨filled, ?_, hnested, hsupplies⟩
  rw [← hdisplaced] at hacts
  have hcode : (c.takeUp code).instruction = some code := instruction_takeUp c code
  rw [beginExecution_eq, beginExecution_eq, takeUp_bearing, Filled.union_empty]
  exact congrArg fitLength (execute_bearing hcode hacts)

/-- Acting leaves the opcode and its displacement as they are. -/
theorem displacement_beginExecution (c : Core) (code : Instruction) :
    (c.beginExecution code).displacement = c.displacement
      ∧ (c.beginExecution code).opcode = c.opcode
      ∧ (c.beginExecution code).instruction = some code := by
  have hcode : (c.takeUp code).instruction = some code := instruction_takeUp c code
  refine ⟨?_, ?_, ?_⟩
  · rw [beginExecution_eq, control_execute, control_takeUp]
    rfl
  · rw [beginExecution_eq, control_execute, control_takeUp]
    rfl
  · exact (turns_execute (c.takeUp code) hcode .decoded).instruction.trans hcode

/-- A prefix is read before any displacement, and does not lead to the byte behind one. -/
theorem Looks.undisplaced {page : Page} {byte : Byte} {action : Action}
    (h : page.lead? byte = some action) : page.displaced = false := by
  rcases Page.lead_cases h with ⟨rfl, -⟩ | ⟨rfl | rfl, -⟩ <;> rfl

/-- A byte that is looked up on the page and kept there takes no notice of what is stale. -/
theorem Looks.follow_bearing {page : Page} (h : c.Looks page half)
    (hdisplaced : c.displacement.isSome = page.displaced) {byte : Byte}
    (again : Core → Page → Core) (hkeep : ∀ next, (decode page byte).action ≠ .redecode next)
    (r : Residue) :
    ∃ filled, (c.bearing {} r).follow (decode page byte) again
        = (c.follow (decode page byte) again).bearing filled r
      ∧ (c.follow (decode page byte) again).Feeds (half + 1) filled
      ∧ (c.follow (decode page byte) again).opcode = c.opcode := by
  have hlate (d : Core) (hpattern : d.cycle.pattern = c.cycle.pattern) : ¬ d.Fetching (half + 1) := by
    have hearly := h.takes.early
    rintro ⟨-, hhalf⟩
    omega
  rw [Core.follow, Core.follow]
  rcases decode_cases page byte with ⟨action, hlead, haction⟩ | ⟨-, haction⟩ | hentitled
  · have hnone : c.displacement.isSome = false :=
      hdisplaced.trans (Looks.undisplaced hlead)
    rw [haction]
    rcases Page.lead_cases hlead with ⟨-, next, rfl, -⟩ | ⟨-, next, rfl, -⟩
    · refine ⟨{}, rfl, ⟨fun _ => ?_, fun code hcode => ?_, fun code hcode => ?_⟩, rfl⟩
      · show c.displacement.isSome = true ↔ Chain.opcode = _
        rw [hnone]
        decide
      all_goals cases h.unknown.symm.trans hcode
    · refine ⟨{}, rfl, ⟨fun _ => ?_, fun code hcode => ?_, fun code hcode => ?_⟩, rfl⟩
      · show c.displacement.isSome = true ↔ Chain.displacement = _
        rw [hnone]
        decide
      all_goals cases h.unknown.symm.trans hcode
  · exact absurd haction (hkeep _)
  · have haction : (decode page byte).action = .execute := by
      obtain ⟨_, _, _, _, hcode⟩ := hentitled
      exact hcode.action
    rw [haction]
    obtain ⟨filled, hbegun, hnested, hsupplies⟩ := beginExecution_bearing hentitled hdisplaced r
    obtain ⟨hkept, hopcode, hcode⟩ := displacement_beginExecution c (decode page byte)
    have hdecodes := decodes_beginExecution c (decode page byte)
    have hposition : (c.beginExecution (decode page byte)).position = page.approach.length := by
      have hplace : ((c.takeUp (decode page byte)).execute .decoded).place = c.place := by
        rw [place_execute, control_takeUp]
        rfl
      rw [beginExecution_eq]
      exact (position_of_place hplace).trans h.here
    refine ⟨filled, hbegun, ⟨fun hnone => ?_, fun code _ hfetching => ?_, fun code hsome _ => ?_⟩,
      hopcode⟩
    · cases hcode.symm.trans hnone
    · exact absurd hfetching (hlate _ hdecodes.pattern)
    · obtain rfl := Option.some.inj (hcode.symm.trans hsome)
      refine ⟨hnested, ?_⟩
      rw [hkept, hdisplaced, hposition]
      exact hsupplies

/-- A byte of an opcode takes no notice of what is stale. -/
theorem Looks.dispatch_bearing (h : c.Looks c.page half)
    (hdisplaced : c.displacement.isSome = c.page.displaced) (byte : Byte) (r : Residue) :
    ∃ filled, (c.bearing {} r).dispatch byte
        = (c.dispatch byte).bearing filled { r with opcode := r.opcode.push byte }
      ∧ (c.dispatch byte).Feeds (half + 1) filled
      ∧ (c.dispatch byte).opcode = c.opcode.push byte := by
  have hpushed : ({ c with opcode := c.opcode.push byte } : Core).Looks c.page half :=
    ⟨h.unknown, h.here, h.takes, h.kind, h.uses, h.acknowledges, h.plain⟩
  have hpushes : (c.bearing {} r).dispatch byte
      = (({ c with opcode := c.opcode.push byte } : Core).bearing {}
          { r with opcode := r.opcode.push byte }).follow (decode c.page byte)
          fun c page => c.follow (decode page byte) fun c _ => c := rfl
  have hpushes' : c.dispatch byte = ({ c with opcode := c.opcode.push byte } : Core).follow
      (decode c.page byte) fun c page => c.follow (decode page byte) fun c _ => c := rfl
  rw [hpushes, hpushes']
  by_cases hdrops : c.drops byte = true
  · obtain ⟨hpage, haction⟩ := drops_cases hdrops
    have hplain : c.page.displaced = false := by
      rcases hpage with hpage | hpage <;> rw [hpage] <;> rfl
    -- the prefix in front has no effect, and the byte is looked up on the main page
    have hmain : ({ c with opcode := c.opcode.push byte, position := 0 } : Core).Looks .main half :=
      ⟨h.unknown, rfl, h.takes, h.kind, h.uses, fun hack => ⟨(h.acknowledges hack).1, rfl⟩,
        fun _ => h.plain hplain⟩
    rw [Core.follow, Core.follow, haction]
    exact hmain.follow_bearing (hdisplaced.trans hplain) (fun c _ => c) (main_keeps byte)
      { r with opcode := r.opcode.push byte }
  · exact hpushed.follow_bearing hdisplaced _ (keeps_of_not_drops hdrops)
      { r with opcode := r.opcode.push byte }

/-- The chip `d` is the chip `c`, but for what another run has left in it. -/
def Echoes (c d : Core) (filled : Filled) (instructions edges : Nat) : Prop :=
  ∃ r : Residue, r.instructions = instructions ∧ r.edges = edges
    ∧ r.opcode.toList = c.opcode.toList ∧ d = c.bearing filled r

variable {d : Core} {n t : Nat}

/-- What takes no notice of the residue keeps the chips alike. -/
theorem Echoes.map {f : Core → Core} (h : c.Echoes d filled n t)
    (hf : ∀ r, f (c.bearing filled r) = (f c).bearing filled' r) (hopcode : (f c).opcode = c.opcode) :
    (f c).Echoes (f d) filled' n t := by
  obtain ⟨r, hn, ht, hlist, rfl⟩ := h
  exact ⟨r, hn, ht, by rw [hopcode, hlist], hf r⟩

/-- Filled latches may be forgotten. -/
theorem Echoes.forget (h : c.Echoes d filled n t) (hless : less ∪ filled = filled) :
    c.Echoes d less n t := by
  obtain ⟨r, hn, ht, hlist, rfl⟩ := h
  exact ⟨c.spent filled r, hn, ht, hlist, (bearing_spent hless).symm⟩

theorem Echoes.emptied (h : c.Echoes d filled n t) : c.Echoes d {} n t :=
  h.forget rfl

/-- What keeps to the latches keeps the chips alike, with the same ones filled. -/
theorem Echoes.keep {f : Core → Core} (h : c.Echoes d filled n t)
    (hf : ∀ r, f (c.bearing filled r) = (f c).bearing filled r) (hopcode : (f c).opcode = c.opcode) :
    (f c).Echoes (f d) filled n t :=
  h.map hf hopcode

/-- The displacement is there when a byte is taken in behind one. -/
theorem Feeds.displaced (h : c.Feeds half filled) (hcourse : c.Course half)
    (hnone : c.instruction = none) (htakes : c.TakesByte half) :
    c.displacement.isSome = c.page.displaced := by
  have hiff := h.seeking hnone
  cases hcourse.seeking hnone with
  | fetching plain here chain pattern early =>
    rw [plain, Bool.eq_false_iff, ne_eq, hiff, chain]
    decide
  | reading displaced here chain pattern early => rw [displaced, hiff, chain]
  | leading short started chain late pattern =>
    have hlooks := hcourse.looks hnone htakes
    exact absurd hlooks.here (Nat.ne_of_lt short)

/-- A byte of the opcode keeps the chips alike. -/
theorem Echoes.dispatch (h : c.Echoes d filled n t) (hlooks : c.Looks c.page half)
    (hdisplaced : c.displacement.isSome = c.page.displaced) (byte : Byte) :
    ∃ filled, (c.dispatch byte).Echoes (d.dispatch byte) filled n t
      ∧ (c.dispatch byte).Feeds (half + 1) filled := by
  obtain ⟨r, hn, ht, hlist, rfl⟩ := h.emptied
  obtain ⟨filled, hdispatch, hfeeds, hopcode⟩ := hlooks.dispatch_bearing hdisplaced byte r
  refine ⟨filled, ⟨{ r with opcode := r.opcode.push byte }, hn, ht, ?_, hdispatch⟩, hfeeds⟩
  rw [hopcode, OpcodeBytes.toList_push, OpcodeBytes.toList_push, hlist]

theorem advancePc_bearing : (c.bearing filled r).advancePc = c.advancePc.bearing filled r := by
  simp only [advancePc]
  rw [show (c.bearing filled r).fromMemory = c.fromMemory from rfl]
  split <;> rfl

/-- The byte of a fetch keeps the chips alike. -/
theorem Echoes.takeOpcodeByte (h : c.Echoes d filled n t) (hfeeds : c.Feeds half less)
    (hcourse : c.Course half) (htakes : c.TakesByte half) (hread : c.cycle.pattern ≠ .opcodeRead)
    (byte : Byte) :
    ∃ filled, (c.takeOpcodeByte byte).Echoes (d.takeOpcodeByte byte) filled n t
      ∧ (c.takeOpcodeByte byte).Feeds (half + 1) filled := by
  have hearly := htakes.early
  have hd : d.instruction = c.instruction := by
    obtain ⟨r, -, -, -, rfl⟩ := h
    rfl
  cases hcode : c.instruction with
  | none =>
    -- the byte is looked up behind PC, on the page that has been reached
    have hadvanced : c.advancePc.Echoes d.advancePc filled n t := by
      refine h.map (fun r => advancePc_bearing) ?_
      rw [advancePc_eq]
    have hcourse' : c.advancePc.Course half := by
      rw [advancePc_eq]
      exact hcourse.congr rfl rfl
    have hlooks : c.advancePc.Looks c.advancePc.page half := by
      refine hcourse'.looks ?_ ?_
      · rw [advancePc_eq]
        exact hcode
      · rw [advancePc_eq]
        exact htakes
    rw [takeOpcodeByte_of_none hcode, takeOpcodeByte_of_none (hd.trans hcode)]
    refine hadvanced.dispatch hlooks ?_ byte
    rw [advancePc_eq]
    exact hfeeds.displaced hcourse hcode htakes
  | some code =>
    -- only an entry of its own is known to the chip before it fetches, and its cycles read what it
    -- fills
    have hhalf : half = 4 := by
      rcases htakes with ⟨-, hhalf⟩ | ⟨hlast, -⟩
      · exact hhalf
      · exact absurd hlast hread
    have hpattern : c.cycle.pattern = .fetch ∨ c.cycle.pattern = .acknowledge := by
      rcases htakes with ⟨hpattern, -⟩ | ⟨hlast, -⟩
      · exact hpattern
      · exact absurd hlast hread
    obtain ⟨⟨op, rfl⟩, hposition, hnone⟩ := hfeeds.own code hcode ⟨hpattern, Nat.le_of_eq hhalf⟩
    obtain ⟨hnested, hsuits⟩ := internal_suits op
    rw [Option.any_eq_true] at hsuits
    obtain ⟨filled', hacts, hsupplies⟩ := hsuits
    have hfetched : (c.fetch byte).Echoes (d.fetch byte) { fetched := true } n t :=
      h.emptied.map (f := fun c => c.fetch byte) (fun r => rfl) rfl
    have hexecuted : ((c.fetch byte).execute .decoded).Echoes ((d.fetch byte).execute .decoded)
        filled' n t := by
      refine hfetched.map (f := fun c => c.execute .decoded)
        (fun r => execute_bearing (c := c.fetch byte) hcode hacts) ?_
      show ((c.fetch byte).execute .decoded).opcode = c.opcode
      rw [control_execute]
      rfl
    obtain ⟨hknown, -⟩ := (turns_execute (c.fetch byte) hcode .decoded).cycles hcode
      (hcourse.scheduled _ hcode).1
    rw [takeOpcodeByte_of_some hcode, takeOpcodeByte_of_some (hd.trans hcode)]
    refine ⟨filled', hexecuted.map (f := fitLength) (fun r => rfl) rfl,
      ⟨fun hunknown => ?_, fun _ _ hfetching => ?_, fun code hsome _ => ?_⟩⟩
    · exact nomatch hknown.symm.trans hunknown
    · have hlate : half + 1 ≤ 4 := hfetching.2
      omega
    · obtain rfl := Option.some.inj (hknown.symm.trans hsome)
      have hkept : ((c.fetch byte).execute .decoded).displacement = none
          ∧ ((c.fetch byte).execute .decoded).position = 0 := by
        rw [control_execute]
        exact ⟨hnone, hposition⟩
      refine ⟨hnested, ?_⟩
      show Filled.supplies _ _ ((c.fetch byte).execute .decoded).displacement.isSome filled'
        (List.drop ((c.fetch byte).execute .decoded).position _) = true
      rw [hkept.1, hkept.2]
      exact hsupplies

/-! ## A half-period -/

end Core

/-- The latch that the byte of a cycle is in, before the half-period. -/
def BusPattern.sampled (pattern : BusPattern) (half : Nat) : Filled :=
  { fetched := (pattern == .read || pattern == .portRead) && pattern.sampleHalf < half }

/-- Only a read puts its byte in a latch. -/
theorem BusPattern.sampled_of_ne {pattern : BusPattern} (hread : pattern ≠ .read)
    (hport : pattern ≠ .portRead) (half : Nat) : pattern.sampled half = {} := by
  rw [sampled, beq_eq_false_iff_ne.mpr hread, beq_eq_false_iff_ne.mpr hport]
  rfl

/-- Only a cycle of a port uses the buses as one. -/
theorem CycleKind.Uses.port {kind : CycleKind} {pattern : BusPattern} (h : kind.Uses pattern) :
    (pattern = .portRead → kind = .portRead) ∧ (pattern = .portWrite → kind = .portWrite) := by
  by_cases hfetch : kind = .opcodeFetch
  · rcases h.opcodeFetch_iff.mp hfetch with rfl | rfl | rfl <;> exact ⟨nofun, nofun⟩
  · obtain ⟨c, rfl⟩ := h
    cases kind
    case opcodeFetch => exact absurd rfl hfetch
    case portRead => exact ⟨fun _ => rfl, nofun⟩
    case portWrite => exact ⟨nofun, fun _ => rfl⟩
    all_goals exact ⟨nofun, nofun⟩

namespace Core

variable {c d : Core} {code : Instruction} {filled filled' less : Filled} {point : ExecPoint}
  {r : Residue} {half n t : Nat}

/-- A cycle that is no fetch uses the buses in one way only. -/
theorem busPattern_of_uses {kind : CycleKind} {pattern : BusPattern} (h : kind.Uses pattern)
    (hkind : kind ≠ .opcodeFetch) (c : Core) : c.busPattern kind = pattern := by
  obtain ⟨d, rfl⟩ := h
  cases kind
  case opcodeFetch => exact absurd rfl hkind
  all_goals rfl

theorem readAddress_bearing (h : filled.meets c.cycle.kind.uses = true) :
    (c.bearing filled r).readAddress = c.readAddress := by
  rw [← Filled.eq_of_meets h]
  simp only [readAddress]
  rw [show (c.bearing _ r).cycle.kind = c.cycle.kind from rfl]
  cases c.cycle.kind <;> rfl

theorem addressWrite_bearing (h : filled.meets c.cycle.kind.uses = true)
    (huses : c.cycle.kind.Uses .write) :
    (c.bearing filled r).addressWrite = c.addressWrite.bearing filled r := by
  rw [← Filled.eq_of_meets h]
  simp only [addressWrite]
  rw [show (c.bearing _ r).cycle.kind = c.cycle.kind from rfl]
  cases hkind : c.cycle.kind <;> rw [hkind] at huses
  case opcodeFetch =>
    rcases huses.opcodeFetch_iff.mp rfl with hfetch | hack | hread <;> contradiction
  all_goals first | rfl | cases busPattern_of_uses huses (by decide) c

theorem writeByte_bearing (h : filled.meets c.cycle.kind.uses = true)
    (huses : c.cycle.kind.Uses .write) : (c.bearing filled r).writeByte = c.writeByte := by
  rw [← Filled.eq_of_meets h]
  simp only [writeByte]
  rw [show (c.bearing _ r).cycle.kind = c.cycle.kind from rfl]
  cases hkind : c.cycle.kind <;> rw [hkind] at huses
  case opcodeFetch =>
    rcases huses.opcodeFetch_iff.mp rfl with hfetch | hack | hread <;> contradiction
  all_goals first | rfl | exact nomatch busPattern_of_uses huses nofun c

theorem fetchHalf_bearing (h : half ≠ 4) :
    (c.bearing filled r).fetchHalf half = ((c.fetchHalf half).1.bearing filled r, (c.fetchHalf half).2) := by
  simp only [fetchHalf]
  split
  case h_4 => exact absurd rfl h
  case h_2 =>
    rw [show (c.bearing filled r).cycle.pattern = c.cycle.pattern from rfl]
    split <;> rfl
  case h_3 =>
    rw [show (c.bearing filled r).cycle.autoWaits = c.cycle.autoWaits from rfl]
    split <;> rfl
  all_goals rfl

theorem readHalf_bearing (h : half ≠ 5) (hmeets : filled.meets c.cycle.kind.uses = true) :
    (c.bearing filled r).readHalf half = ((c.readHalf half).1.bearing filled r, (c.readHalf half).2) := by
  simp only [readHalf]
  split
  case h_1 =>
    rw [readAddress_bearing hmeets]
    rfl
  case h_4 => exact absurd rfl h
  all_goals rfl

theorem writeHalf_bearing (hmeets : filled.meets c.cycle.kind.uses = true)
    (huses : c.cycle.kind.Uses .write) :
    (c.bearing filled r).writeHalf half = ((c.writeHalf half).1.bearing filled r, (c.writeHalf half).2) := by
  simp only [writeHalf]
  split
  case h_1 =>
    have haddress := addressWrite_bearing (c := c.releaseRefresh) (r := r) hmeets huses
    rw [← haddress]
    rfl
  case h_2 =>
    rw [writeByte_bearing hmeets huses]
    rfl
  case h_3 =>
    rw [show (c.bearing filled r).held = c.held from rfl]
    split <;> rfl
  all_goals rfl

theorem portReadHalf_bearing (h : half ≠ 7) (hmeets : filled.meets CycleKind.portRead.uses = true) :
    (c.bearing filled r).portReadHalf half
      = ((c.portReadHalf half).1.bearing filled r, (c.portReadHalf half).2) := by
  rw [← Filled.eq_of_meets hmeets]
  simp only [portReadHalf]
  split
  case h_4 => exact absurd rfl h
  all_goals rfl

theorem portWriteHalf_bearing (hmeets : filled.meets CycleKind.portWrite.uses = true) :
    (c.bearing filled r).portWriteHalf half
      = ((c.portWriteHalf half).1.bearing filled r, (c.portWriteHalf half).2) := by
  rw [← Filled.eq_of_meets hmeets]
  simp only [portWriteHalf]
  split <;> rfl

theorem internalHalf_bearing :
    (c.bearing filled r).internalHalf half
      = ((c.internalHalf half).1.bearing filled r, (c.internalHalf half).2) := by
  simp only [internalHalf]
  split <;> rfl

/-- The cycle that an instruction runs is the next one that its timing supplies. -/
theorem Supplied.pass (h : c.Supplied code filled) (hcourse : c.Course half)
    (hcode : c.instruction = some code) :
    ∃ filled', filled.pass code.mnemonic code.operands c.displacement.isSome c.cycle.kind
        = some filled'
      ∧ Filled.supplies code.mnemonic code.operands
        (c.displacement.isSome || c.cycle.kind == .operand && Operand.indexed? code.operands) filled'
        (code.timing.kinds.drop (c.position + 1)) = true := by
  have hget : code.timing.kinds[c.position]? = some c.cycle.kind := by
    have hcurrent := hcourse.current
    rw [plan, hcode] at hcurrent
    dsimp only at hcurrent
    rw [(hcourse.scheduled code hcode).1] at hcurrent
    have hmapped : ((code.timing.cycles c.conditionMet).map MachineCycle.kind)[c.position]?
        = some c.cycle.kind := by
      rw [List.getElem?_map, hcurrent]
      rfl
    obtain ⟨rest, hrest⟩ : (code.timing.cycles c.conditionMet).map MachineCycle.kind
        <+: code.timing.kinds := by
      have hnested := h.nested
      rw [Timings.nested, List.all_eq_true] at hnested
      refine List.isPrefixOf_iff_prefix.mp (hnested c.conditionMet ?_)
      cases c.conditionMet <;> decide
    rw [← hrest, List.getElem?_append_left (List.getElem?_eq_some_iff.mp hmapped).1]
    exact hmapped
  have hsupplies := h.supplies
  obtain ⟨hlt, hget⟩ := List.getElem?_eq_some_iff.mp hget
  rw [List.drop_eq_getElem_cons hlt, hget, Filled.supplies] at hsupplies
  split at hsupplies
  · cases hsupplies
  · next filled' hpass => exact ⟨filled', hpass, hsupplies⟩

/-- The cycle in progress finds everything filled that it puts on the buses. -/
theorem Feeds.meets (h : c.Feeds half filled) (hcourse : c.Course half) :
    filled.meets c.cycle.kind.uses = true := by
  have hnothing {kind : CycleKind} (hkind : kind = .opcodeFetch ∨ kind = .operand) :
      filled.meets kind.uses = true := by
    rcases hkind with rfl | rfl <;> exact beq_self_eq_true filled
  cases hcode : c.instruction with
  | none =>
    have hcurrent := hcourse.current
    rw [plan, hcode] at hcurrent
    have hmem := List.mem_of_getElem? hcurrent
    refine hnothing ?_
    rcases List.mem_append.mp hmem with happroach | hlast
    · have hkinds : ∀ cycle ∈ c.page.approach, cycle.kind = .opcodeFetch ∨ cycle.kind = .operand := by
        cases c.page <;> decide
      exact hkinds _ happroach
    · rw [(MachineCycle.mk.inj (List.mem_singleton.mp hlast)).1]
      exact Or.inl rfl
  | some code =>
    by_cases hfetching : c.Fetching half
    · refine hnothing (Or.inl (hcourse.uses.opcodeFetch_iff.mpr ?_))
      rcases hfetching.1 with hpattern | hpattern
      · exact Or.inl hpattern
      · exact Or.inr (Or.inl hpattern)
    · obtain ⟨filled', hpass, -⟩ := (h.supplied code hcode hfetching).pass hcourse hcode
      rw [Filled.pass] at hpass
      split at hpass
      · next hmeets => exact hmeets
      · cases hpass

/-- The half-period takes in the byte that the cycle reads. -/
def Samples (c : Core) (half : Nat) : Prop :=
  half = c.cycle.pattern.sampleHalf
    ∧ c.cycle.pattern ≠ .write ∧ c.cycle.pattern ≠ .portWrite ∧ c.cycle.pattern ≠ .internal

/-- A half-period that takes in no byte takes no notice of what is stale. -/
theorem patternHalf_bearing (hmeets : filled.meets c.cycle.kind.uses = true)
    (huses : c.cycle.kind.Uses c.cycle.pattern) (hplain : ¬ c.Samples half) :
    (c.bearing filled r).patternHalf half
      = ((c.patternHalf half).1.bearing filled r, (c.patternHalf half).2) := by
  have hother : c.cycle.pattern ≠ .write → c.cycle.pattern ≠ .portWrite →
      c.cycle.pattern ≠ .internal → half ≠ c.cycle.pattern.sampleHalf :=
    fun hwrite hport hinternal hhalf => hplain ⟨hhalf, hwrite, hport, hinternal⟩
  rw [patternHalf, patternHalf]
  rw [show (c.bearing filled r).cycle.pattern = c.cycle.pattern from rfl]
  cases hpattern : c.cycle.pattern <;> rw [hpattern] at hother huses <;> dsimp only
  case fetch | acknowledge => exact fetchHalf_bearing (hother (by decide) (by decide) (by decide))
  case opcodeRead | read => exact readHalf_bearing (hother (by decide) (by decide) (by decide)) hmeets
  case write => exact writeHalf_bearing hmeets huses
  case portRead =>
    rw [huses.port.1 rfl] at hmeets
    exact portReadHalf_bearing (hother (by decide) (by decide) (by decide)) hmeets
  case portWrite =>
    rw [huses.port.2 rfl] at hmeets
    exact portWriteHalf_bearing hmeets
  case internal => exact internalHalf_bearing

/-- What the needs of an instruction depend on. -/
def stage (c : Core) : Option Instruction × Chain × Nat × Option Byte × BusPattern :=
  (c.instruction, c.chain, c.position, c.displacement, c.cycle.pattern)

theorem Feeds.congr (h : c.Feeds half filled) (hstage : d.stage = c.stage) :
    d.Feeds half filled := by
  simp only [stage, Prod.mk.injEq] at hstage
  obtain ⟨hinstruction, hchain, hposition, hdisplacement, hpattern⟩ := hstage
  have hfetching : d.Fetching half ↔ c.Fetching half := by rw [Fetching, Fetching, hpattern]
  refine ⟨fun hnone => ?_, fun code hcode hlate => ?_, fun code hcode hlate => ?_⟩
  · rw [hdisplacement, hchain]
    exact h.seeking (hinstruction ▸ hnone)
  · rw [hposition, hdisplacement]
    exact h.own code (hinstruction ▸ hcode) (hfetching.mp hlate)
  · obtain ⟨hnested, hsupplies⟩ :=
      h.supplied code (hinstruction ▸ hcode) (fun hc => hlate (hfetching.mpr hc))
    refine ⟨hnested, ?_⟩
    rw [hdisplacement, hposition]
    exact hsupplies

/-- Taking in no byte of the opcode leaves the stage and the opcode as they are. -/
theorem stage_patternHalf (h : ¬ c.TakesByte half) :
    (c.patternHalf half).1.stage = c.stage ∧ (c.patternHalf half).1.opcode = c.opcode := by
  have hmoved : c.movePointer.stage = c.stage ∧ c.movePointer.opcode = c.opcode := by
    rw [movePointer_eq]
    exact ⟨rfl, rfl⟩
  have heffect : (c.effect half c.data.value).stage = c.stage
      ∧ (c.effect half c.data.value).opcode = c.opcode := by
    rw [effect]
    split
    · rw [pushPointer]
      split <;> exact ⟨rfl, rfl⟩
    split
    · next hsample =>
      rw [takeIn]
      split
      case h_1 hpattern =>
        exact absurd (Or.inl ⟨Or.inl hpattern, hsample.trans (by rw [hpattern]; rfl)⟩) h
      case h_2 hpattern =>
        exact absurd (Or.inl ⟨Or.inr hpattern, hsample.trans (by rw [hpattern]; rfl)⟩) h
      case h_3 hpattern =>
        exact absurd (Or.inr ⟨hpattern, hsample.trans (by rw [hpattern]; rfl)⟩) h
      case h_4 => exact hmoved
      all_goals exact ⟨rfl, rfl⟩
    · exact ⟨rfl, rfl⟩
  rw [← patternHalf_wiredAs_self] at heffect
  exact heffect

/-- Which half-period comes next matters only as long as a fetch is still to take its byte in. -/
theorem Feeds.move {half' : Nat} (h : c.Feeds half filled)
    (hfetching : c.Fetching half' ↔ c.Fetching half) : c.Feeds half' filled :=
  ⟨h.seeking, fun code hcode hearly => h.own code hcode (hfetching.mp hearly),
    fun code hcode hlate => h.supplied code hcode (fun hearly => hlate (hfetching.mpr hearly))⟩

/-- A half-period does not change how the cycle uses the buses. -/
theorem use_patternHalf : (c.patternHalf half).1.use = c.use := by
  calc (c.patternHalf half).1.use
      = ((c.patternHalf half).1.wiredAs c).use := rfl
    _ = c.use := by rw [patternHalf_wiredAs_self, use_effect]

theorem movePointer_bearing : (c.bearing filled r).movePointer = c.movePointer.bearing filled r := by
  simp only [movePointer]
  rw [show (c.bearing filled r).cycle.kind = c.cycle.kind from rfl]
  cases c.cycle.kind
  case opcodeFetch | operand | operandLow | operandHigh => exact advancePc_bearing
  all_goals rfl

theorem closeRead_bearing : (c.bearing filled r).closeRead = c.closeRead.bearing filled r := by
  rw [closeRead, closeRead, ← movePointer_bearing]
  rfl

/-- The strobes and pointers of a read leave the opcode as it is. -/
theorem opcode_closeRead : c.closeRead.opcode = c.opcode := by
  rw [closeRead, movePointer_eq]

/-- A byte that is taken in for the opcode keeps the chips alike. -/
theorem Echoes.takesByte (h : c.Echoes d filled n t) (hfeeds : c.Feeds half less)
    (hcourse : c.Course half) (htakes : c.TakesByte half) :
    (c.patternHalf half).2 = false ∧ (d.patternHalf half).2 = false
      ∧ ∃ filled, (c.patternHalf half).1.Echoes (d.patternHalf half).1 filled n t
        ∧ (c.patternHalf half).1.Feeds (half + 1) filled := by
  have halike : d.cycle.pattern = c.cycle.pattern ∧ d.data = c.data := by
    obtain ⟨r, -, -, -, rfl⟩ := h
    exact ⟨rfl, rfl⟩
  rcases htakes with ⟨hpattern, rfl⟩ | ⟨hpattern, rfl⟩
  · have hsample (c : Core) (hpattern : c.cycle.pattern = .fetch ∨ c.cycle.pattern = .acknowledge) :
        c.patternHalf 4 = (c.turnToRefresh.takeOpcodeByte c.data.value, false) := by
      rw [Core.patternHalf]
      rcases hpattern with hpattern | hpattern <;> rw [hpattern] <;> rfl
    have hturned : c.turnToRefresh.Echoes d.turnToRefresh filled n t :=
      h.map (f := turnToRefresh) (fun r => rfl) rfl
    have hread : c.cycle.pattern ≠ .opcodeRead := by
      rcases hpattern with hpattern | hpattern <;> rw [hpattern] <;> decide
    rw [hsample c hpattern, hsample d (halike.1 ▸ hpattern), halike.2]
    exact ⟨rfl, rfl, hturned.takeOpcodeByte (hfeeds.congr (d := c.turnToRefresh) rfl)
      (hcourse.congr rfl rfl) (Or.inl ⟨hpattern, rfl⟩) hread c.data.value⟩
  · have hsample (c : Core) (hpattern : c.cycle.pattern = .opcodeRead) :
        c.patternHalf 5 = (c.closeRead.dispatch c.data.value, false) := by
      rw [Core.patternHalf, hpattern]
      show (c.sampleRead, false) = _
      rw [sampleRead_eq, if_pos hpattern]
    have hclosed : c.closeRead.Echoes d.closeRead filled n t :=
      h.map (f := closeRead) (fun r => closeRead_bearing) opcode_closeRead
    -- the byte behind a displacement comes before anything is known of the instruction
    have hnone : c.instruction = none := by
      cases hcode : c.instruction with
      | none => rfl
      | some code =>
        have := (hcourse.scheduled code hcode).2.2 hpattern
        omega
    have htakes : c.TakesByte 5 := Or.inr ⟨hpattern, rfl⟩
    have hstill := still_closeRead (c := c)
    have hlooks : c.closeRead.Looks c.closeRead.page 5 :=
      (hcourse.congr hstill.pace hstill.place).looks
        ((instruction_of_pace hstill.pace).trans hnone)
        (Or.inr ⟨(pattern_of_place hstill.place).trans hpattern, rfl⟩)
    have hdisplaced : c.closeRead.displacement.isSome = c.closeRead.page.displaced := by
      rw [closeRead, movePointer_eq]
      exact hfeeds.displaced hcourse hnone htakes
    rw [hsample c hpattern, hsample d (halike.1.trans hpattern), halike.2]
    exact ⟨rfl, rfl, hclosed.dispatch hlooks hdisplaced c.data.value⟩

/-- A byte that is latched for later keeps the chips alike, and from then on the latch is filled. -/
theorem Echoes.latchesByte (h : c.Echoes d filled n t) (hsamples : c.Samples half)
    (htakes : ¬ c.TakesByte half) :
    (c.patternHalf half).2 = false ∧ (d.patternHalf half).2 = false
      ∧ (c.patternHalf half).1.Echoes (d.patternHalf half).1
        (c.cycle.pattern.sampled (half + 1) ∪ filled) n t := by
  have halike : d.cycle.pattern = c.cycle.pattern ∧ d.data = c.data := by
    obtain ⟨r, -, -, -, rfl⟩ := h
    exact ⟨rfl, rfl⟩
  obtain ⟨hhalf, hwrite, hportWrite, hinternal⟩ := hsamples
  cases hpattern : c.cycle.pattern <;> rw [hpattern] at hhalf hwrite hportWrite hinternal
  case fetch => exact absurd (Or.inl ⟨Or.inl hpattern, hhalf⟩) htakes
  case acknowledge => exact absurd (Or.inl ⟨Or.inr hpattern, hhalf⟩) htakes
  case opcodeRead => exact absurd (Or.inr ⟨hpattern, hhalf⟩) htakes
  case read =>
    obtain rfl : half = 5 := hhalf
    have hsample (c : Core) (hpattern : c.cycle.pattern = .read) :
        c.patternHalf 5 = (c.closeRead.fetch c.data.value, false) := by
      rw [Core.patternHalf, hpattern]
      show (c.sampleRead, false) = _
      rw [sampleRead_eq, if_neg (by rw [hpattern]; decide)]
    rw [hsample c hpattern, hsample d (halike.1.trans hpattern), halike.2]
    refine ⟨rfl, rfl, h.map (f := fun k => k.closeRead.fetch c.data.value) (fun r => ?_) opcode_closeRead⟩
    show (c.bearing filled r).closeRead.fetch c.data.value = _
    rw [closeRead_bearing]
    rfl
  case portRead =>
    obtain rfl : half = 7 := hhalf
    have hsample (c : Core) (hpattern : c.cycle.pattern = .portRead) :
        c.patternHalf 7 = ({ c.fetch c.data.value with
          pins.iorq := .released, pins.rd := .released }, false) := by
      rw [Core.patternHalf, hpattern]
      rfl
    rw [hsample c hpattern, hsample d (halike.1.trans hpattern), halike.2]
    exact ⟨rfl, rfl, h.map (f := fun k => ({ k.fetch c.data.value with
      pins.iorq := .released, pins.rd := .released } : Core)) (fun r => rfl) rfl⟩
  case write => exact absurd rfl hwrite
  case portWrite => exact absurd rfl hportWrite
  case internal => exact absurd rfl hinternal

/-- Before and after a half-period that latches no byte, the latch holds the same. -/
theorem sampled_succ (h : ¬ c.Samples half) :
    c.cycle.pattern.sampled (half + 1) = c.cycle.pattern.sampled half := by
  have hother : c.cycle.pattern ≠ .write → c.cycle.pattern ≠ .portWrite →
      c.cycle.pattern ≠ .internal → half ≠ c.cycle.pattern.sampleHalf :=
    fun hwrite hport hinternal hhalf => h ⟨hhalf, hwrite, hport, hinternal⟩
  cases hpattern : c.cycle.pattern <;> rw [hpattern] at hother
  case read | portRead =>
    have hne := hother nofun nofun nofun
    simp only [BusPattern.sampled]
    congr 2
    simp only [decide_eq_decide]
    omega
  all_goals rfl

/-- A half-period keeps the chips alike, and what it needs supplied. -/
theorem Echoes.patternHalf (h : c.Echoes d (c.cycle.pattern.sampled half ∪ filled) n t)
    (hfeeds : c.Feeds half filled) (hcourse : c.Course half) :
    (d.patternHalf half).2 = (c.patternHalf half).2
      ∧ ∃ filled, (c.patternHalf half).1.Echoes (d.patternHalf half).1
          (c.cycle.pattern.sampled (half + 1) ∪ filled) n t
        ∧ (c.patternHalf half).1.Feeds (half + 1) filled := by
  by_cases htakes : c.TakesByte half
  · obtain ⟨hgoes, hgoes', filled', hechoes, hnext⟩ := h.takesByte hfeeds hcourse htakes
    refine ⟨hgoes'.trans hgoes.symm, filled', ?_, hnext⟩
    rw [BusPattern.sampled_of_ne]
    · exact hechoes
    all_goals
      rcases htakes with ⟨hpattern | hpattern, -⟩ | ⟨hpattern, -⟩ <;> rw [hpattern] <;> decide
  · obtain ⟨hstage, hopcode⟩ := stage_patternHalf htakes
    -- no byte of the opcode is taken in, so it is still to come or lies behind
    have hnext : (c.patternHalf half).1.Feeds (half + 1) filled := by
      refine (hfeeds.move ?_).congr hstage
      constructor
      · rintro ⟨hpattern, hearly⟩
        exact ⟨hpattern, Nat.le_of_succ_le hearly⟩
      · rintro ⟨hpattern, hearly⟩
        refine ⟨hpattern, Nat.succ_le_of_lt (Nat.lt_of_le_of_ne hearly fun hfour => ?_)⟩
        exact htakes (Or.inl ⟨hpattern, hfour⟩)
    by_cases hsamples : c.Samples half
    · have hkept := h.forget (Filled.union_absorb filled _)
      obtain ⟨hgoes, hgoes', hechoes⟩ := hkept.latchesByte hsamples htakes
      exact ⟨hgoes'.trans hgoes.symm, filled, hechoes, hnext⟩
    · have hmeets := Filled.meets_union (hfeeds.meets hcourse) (c.cycle.pattern.sampled half)
      obtain ⟨r, hn, ht, hlist, rfl⟩ := h
      rw [patternHalf_bearing hmeets hcourse.uses hsamples, sampled_succ hsamples]
      exact ⟨rfl, filled, ⟨r, hn, ht, by rw [hopcode, hlist], rfl⟩, hnext⟩

/-- The latch that is filled at a half-period is filled later on. -/
theorem sampled_mono {half' : Nat} (pattern : BusPattern) (filled : Filled) (h : half ≤ half') :
    (pattern.sampled half ∪ filled) ∪ (pattern.sampled half' ∪ filled)
      = pattern.sampled half' ∪ filled := by
  have hbit (reads : Bool) : ((reads && decide (pattern.sampleHalf < half) || filled.fetched)
      || (reads && decide (pattern.sampleHalf < half') || filled.fetched))
        = (reads && decide (pattern.sampleHalf < half') || filled.fetched) := by
    by_cases hbefore : pattern.sampleHalf < half
    · rw [decide_eq_true hbefore, decide_eq_true (Nat.lt_of_lt_of_le hbefore h), Bool.or_self]
    · rw [decide_eq_false hbefore, Bool.and_false, Bool.false_or, Bool.or_left_comm, Bool.or_self]
  simp only [BusPattern.sampled, Union.union, Filled.union, Bool.false_or, Bool.or_self, hbit]

/-- Running a half-period keeps the chips alike, in the cycle or at its end. -/
theorem Echoes.runHalf (h : c.Echoes d (c.cycle.pattern.sampled c.cycle.half ∪ filled) n t)
    (hfeeds : c.Feeds c.cycle.half filled) (hcourse : c.Course c.cycle.half) :
    d.runHalf.2 = c.runHalf.2
      ∧ ∃ filled half, (half = if c.runHalf.2 then c.cycle.half + 1 else c.runHalf.1.cycle.half)
        ∧ c.runHalf.1.Echoes d.runHalf.1 (c.cycle.pattern.sampled half ∪ filled) n t
        ∧ c.runHalf.1.Feeds half filled := by
  have hhalf : d.cycle.half = c.cycle.half := by
    obtain ⟨r, -, -, -, rfl⟩ := h
    rfl
  have hcounted :
      c.countEdge.Echoes d.countEdge (c.cycle.pattern.sampled c.cycle.half ∪ filled) n t := by
    obtain ⟨r, hn, ht, hlist, rfl⟩ := h
    exact ⟨{ r with lastHalf := c.cycle.half }, hn, ht, hlist, rfl⟩
  obtain ⟨hgoes, filled', hechoes, hnext⟩ :=
    hcounted.patternHalf (hfeeds.congr (d := c.countEdge) rfl) (hcourse.congr rfl rfl)
  have hwaits : d.waits = c.waits := by
    rw [← waits_countEdge d, ← waits_countEdge c, hhalf]
    exact hgoes
  have hlength : (d.countEdge.patternHalf c.cycle.half).1.cycle.length
      = (c.countEdge.patternHalf c.cycle.half).1.cycle.length := by
    obtain ⟨r, -, -, -, hd⟩ := hechoes
    rw [hd]
    rfl
  rw [runHalf_eq, runHalf_eq, hwaits, hhalf]
  dsimp only
  cases hheld : c.waits with
  | true =>
    have hcases := waits_cases ((waits_countEdge c).trans hheld)
    have hback := hechoes.forget (sampled_mono c.cycle.pattern filled'
      (Nat.le_trans (Nat.sub_le c.cycle.half 1) (Nat.le_succ _)))
    rw [if_pos rfl, if_pos rfl]
    refine ⟨rfl, filled', c.cycle.half - 1, rfl, ?_, ?_⟩
    · exact hback.map (f := fun k => { k with
        cycle.half := c.cycle.half - 1
        cycle.waitStates := min 255 (k.cycle.waitStates + 1) }) (fun r => rfl) rfl
    · -- a wait holds a fetch before its byte is taken in
      refine (hnext.move ?_).congr rfl
      have hpattern : (c.countEdge.patternHalf c.cycle.half).1.cycle.pattern = c.cycle.pattern :=
        pattern_of_use use_patternHalf
      rw [Fetching, Fetching, hpattern]
      refine and_congr_right fun hfetch => ?_
      rcases hcases with ⟨hthree, -⟩ | ⟨-, hport⟩
      · omega
      · rcases hfetch with hfetch | hfetch <;> rcases hport with hport | hport <;>
          exact nomatch hfetch.symm.trans hport
  | false =>
    by_cases hlast : c.cycle.half + 1 ≥ 2 * (c.countEdge.patternHalf c.cycle.half).1.cycle.length
    · rw [if_neg Bool.false_ne_true, if_neg Bool.false_ne_true, if_pos hlast,
        if_pos (by rw [hlength]; exact hlast)]
      exact ⟨rfl, filled', _, rfl, hechoes, hnext⟩
    · rw [if_neg Bool.false_ne_true, if_neg Bool.false_ne_true, if_neg hlast,
        if_neg (by rw [hlength]; exact hlast)]
      exact ⟨rfl, filled', _, rfl, hechoes.map (f := fun k => { k with
        cycle.half := c.cycle.half + 1 }) (fun r => rfl) rfl, hnext.congr rfl⟩

end Core

end Z80Board
