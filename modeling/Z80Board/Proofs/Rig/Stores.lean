import Z80Board.Proofs.Rig.Configurations

/-! # Memory as an array

    Behind its strobes, its waits and its truncated address lines, memory is an array with a
    read-only window.  A record is kept of what passes between the chip and memory: the address that
    the cycle in progress has put out, the byte that it has taken in, and the stores.

    On every run of a board built from a valid configuration, whatever the levels and the devices,
    the bytes are the initial ones with the stores applied in order, and every byte that a cycle
    takes in from memory is the one in the array at the address of the cycle. -/

namespace Z80Board

/-! ## The array -/

/-- A byte on its way to an address. -/
structure Store where
  address : Word
  byte : Byte
deriving DecidableEq, Repr

namespace BoardConfig

/-- The index lies in the read-only window. -/
def isRom (config : BoardConfig) (index : Nat) : Bool :=
  match config.rom with
  | some rom => rom.contains index
  | none => false

/-- Where an address leads in the array. -/
def index (config : BoardConfig) (address : Word) : Nat :=
  address.toNat % config.memorySize

/-- The byte of the array at an address. -/
def byteAt (config : BoardConfig) (bytes : Array Byte) (address : Word) : Byte :=
  bytes.getD (config.index address) 0

/-- The array after a store, which the read-only window ignores. -/
def apply (config : BoardConfig) (bytes : Array Byte) (store : Store) : Array Byte :=
  if config.isRom (config.index store.address) then bytes
  else bytes.setIfInBounds (config.index store.address) store.byte

/-- No store changes a read-only byte. -/
theorem getElem?_foldl_apply (config : BoardConfig) (stores : List Store) (bytes : Array Byte)
    {index : Nat} (hrom : config.isRom index = true) :
    (stores.foldl config.apply bytes)[index]? = bytes[index]? := by
  induction stores generalizing bytes with
  | nil => rfl
  | cons store rest ih =>
    rw [List.foldl_cons, ih, apply]
    split
    · rfl
    · next hwritable =>
      have hother : config.index store.address ≠ index := by
        rintro rfl
        exact hwritable hrom
      rw [Array.getElem?_setIfInBounds_ne hother]

variable {config : BoardConfig} {bytes : Array Byte} {store : Store} {address : Word}

/-- A store leaves the other bytes alone. -/
theorem getElem?_apply_of_ne {index : Nat} (h : index ≠ config.index store.address) :
    (config.apply bytes store)[index]? = bytes[index]? := by
  rw [apply]
  split
  · rfl
  · exact Array.getElem?_setIfInBounds_ne h.symm

/-- So do any number of them. -/
theorem getElem?_stores_of_ne {stores : List Store} {index : Nat}
    (h : ∀ store ∈ stores, index ≠ config.index store.address) :
    (stores.foldl config.apply bytes)[index]? = bytes[index]? := by
  induction stores generalizing bytes with
  | nil => rfl
  | cons store rest ih =>
    rw [List.foldl_cons, ih fun s hs => h s (List.mem_cons_of_mem _ hs)]
    exact getElem?_apply_of_ne (h store List.mem_cons_self)

theorem byteAt_stores_of_ne {stores : List Store}
    (h : ∀ store ∈ stores, config.index store.address ≠ config.index address) :
    config.byteAt (stores.foldl config.apply bytes) address = config.byteAt bytes address := by
  rw [byteAt, byteAt, Array.getD_eq_getD_getElem?, Array.getD_eq_getD_getElem?,
    getElem?_stores_of_ne fun store hstore => (h store hstore).symm]

theorem byteAt_apply_of_ne (h : config.index store.address ≠ config.index address) :
    config.byteAt (config.apply bytes store) address = config.byteAt bytes address := by
  have hone : ∀ other ∈ [store], config.index other.address ≠ config.index address := by
    simpa using h
  exact byteAt_stores_of_ne hone

/-- A byte that is stored in memory is there. -/
theorem byteAt_apply_self {byte : Byte} (hvalid : config.validate = .ok ())
    (hsize : bytes.size = config.memorySize) (hram : config.isRom (config.index address) = false) :
    config.byteAt (config.apply bytes ⟨address, byte⟩) address = byte := by
  obtain ⟨lines, -, -, hpower, -⟩ := exists_lines hvalid
  have hin : config.index address < bytes.size := by
    rw [hsize, index]
    refine Nat.mod_lt _ ?_
    rw [hpower]
    exact Nat.two_pow_pos lines
  rw [apply, hram, if_neg Bool.false_ne_true, byteAt, Array.getD_eq_getD_getElem?,
    Array.getElem?_setIfInBounds_self_of_lt hin]
  rfl

/-- A store does not change the size. -/
theorem size_apply : (config.apply bytes store).size = bytes.size := by
  rw [apply]
  split
  · rfl
  · exact Array.size_setIfInBounds

/-- Two bytes that are stored in different places are both there. -/
theorem byteAt_apply_both {other : Word} {byte byte' : Byte} (hvalid : config.validate = .ok ())
    (hsize : bytes.size = config.memorySize) (hne : config.index other ≠ config.index address)
    (hram : config.isRom (config.index address) = false)
    (hram' : config.isRom (config.index other) = false) :
    config.byteAt ([⟨address, byte⟩, ⟨other, byte'⟩].foldl config.apply bytes) address = byte
      ∧ config.byteAt ([⟨address, byte⟩, ⟨other, byte'⟩].foldl config.apply bytes) other = byte' := by
  refine ⟨?_, byteAt_apply_self hvalid (size_apply.trans hsize) hram'⟩
  rw [List.foldl_cons, List.foldl_cons, List.foldl_nil, byteAt_apply_of_ne hne]
  exact byteAt_apply_self hvalid hsize hram

/-- Neighbouring addresses lead to different places. -/
theorem index_succ_ne (hvalid : config.validate = .ok ()) (address : Word) :
    config.index (address + 1) ≠ config.index address := by
  obtain ⟨lines, hleast, hmost, hpower, -⟩ := exists_lines hvalid
  have htwo : 2 ≤ 2 ^ lines := Nat.le_self_pow (by omega) 2
  have hdivides : 2 ^ lines ∣ 65536 := Nat.pow_dvd_pow 2 hmost
  rw [index, index, hpower, UInt16.toNat_add, Nat.mod_mod_of_dvd _ hdivides]
  intro hsame
  have hone : (address.toNat + 1 - address.toNat) % 2 ^ lines = 0 :=
    Nat.sub_mod_eq_zero_of_mod_eq hsame
  rw [Nat.add_sub_cancel_left, Nat.mod_eq_of_lt (by omega)] at hone
  cases hone

end BoardConfig

namespace Memory.Fits

variable {config : BoardConfig} {m : Memory}

/-- Memory answers with the byte of the array. -/
theorem byteAt_eq (h : m.Fits config) (address : Bus Word) :
    m.byteAt address = config.byteAt m.bytes address.value := by
  rw [Memory.byteAt, h.place_eq]
  rfl

/-- Memory stores as the array does. -/
theorem stored_eq (h : m.Fits config) (address : Bus Word) (byte : Byte) :
    m.stored address byte = config.apply m.bytes ⟨address.value, byte⟩ := by
  rw [stored, h.place_eq, isRom, h.rom]
  rfl

end Memory.Fits

/-! ## What passes between the chip and memory -/

/-- Cycles of this kind write to memory. -/
def CycleKind.writesMemory : CycleKind → Bool
  | .memoryWrite | .memoryWriteLow | .memoryWriteHigh | .stackWriteHigh | .stackWriteLow => true
  | _ => false

/-- Cycles that write to memory are those that use the buses so. -/
theorem CycleKind.Uses.writesMemory_iff {kind : CycleKind} {pattern : BusPattern}
    (h : kind.Uses pattern) : kind.writesMemory = true ↔ pattern = .write := by
  obtain ⟨c, rfl⟩ := h
  unfold Core.busPattern
  cases kind
  case opcodeFetch =>
    refine ⟨nofun, fun hwrite => ?_⟩
    dsimp only at hwrite
    split at hwrite
    · exact nomatch hwrite
    · split at hwrite <;> exact nomatch hwrite
  all_goals
    dsimp only
    decide

/-- The cycle has an address, and keeps it on the address bus while it asks for a byte or gives
    one. -/
def ActiveCycle.Addresses (cycle : ActiveCycle) : Prop :=
  cycle.pattern ≠ .internal ∧ cycle.pattern ≠ .acknowledge

theorem ActiveCycle.addresses_of_readsMemory {cycle : ActiveCycle}
    (h : cycle.readsMemory = true) : cycle.Addresses := by
  rw [readsMemory] at h
  constructor <;> intro hpattern <;> rw [hpattern] at h <;> cases h

theorem ActiveCycle.addresses_of_write {cycle : ActiveCycle} (h : cycle.pattern = .write) :
    cycle.Addresses := by
  rw [Addresses, h]
  decide

namespace Core

/-- The half-period to come takes a byte in from memory. -/
def samplesMemory (k : Core) : Bool :=
  k.cycle.readsMemory && k.cycle.half == k.cycle.pattern.sampleHalf

/-- The half-period to come asserts WR in a cycle that writes to memory. -/
def strikes (k : Core) : Bool :=
  k.cycle.kind.writesMemory && !k.pins.wr.isAsserted && k.runHalf.1.pins.wr.isAsserted

end Core

/-- What has passed between the chip and memory. -/
structure Traffic where
  /-- The address that the cycle in progress has put out. -/
  address : Word := 0
  /-- The byte that it has taken in. -/
  taken : Option Byte := none
  /-- The stores, oldest first. -/
  stores : List Store := []

namespace Traffic

/-- The traffic when the chip begins a cycle. -/
def begin (t : Traffic) (k : Core) : Traffic :=
  if k.cycle.half = 0 then { t with address := k.cycleAddress.getD t.address, taken := none } else t

/-- The traffic with the half-period that a chip is about to run. -/
def note (t : Traffic) (k : Core) : Traffic :=
  { t.begin k with
    taken := if k.samplesMemory then some k.data.value else (t.begin k).taken
    stores :=
      if k.strikes then t.stores ++ [⟨(t.begin k).address, k.writeByte⟩] else t.stores }

/-- The traffic after an edge of the board. -/
def edge (t : Traffic) (b : Board) (level : Level) : Traffic :=
  match b.engaged level with
  | some k => t.note k
  | none => t

theorem edge_eq (t : Traffic) (b : Board) (level : Level) :
    t.edge b level = match b.core.engaged level b.inputs with
      | some k => t.note k
      | none => t :=
  rfl

end Traffic

/-- A run of a board that is built from a configuration, over the given bytes.  At every edge the
    level may be any, and between edges the host may drive the input pins, follow the chip and
    change its registers, but not memory. -/
inductive Run (config : BoardConfig) (bytes : Array Byte) : Board → Traffic → Prop where
  | start {device : Device} {m : Machine} (built : Machine.build config device = .ok m)
    (size : bytes.size = config.memorySize) :
    Run config bytes { m.board with memory.bytes := bytes } {}
  | edge {b : Board} {t : Traffic} (h : Run config bytes b t) (level : Level) :
    Run config bytes (b.edge level).1 (t.edge b level)
  | host {b : Board} {t : Traffic} (h : Run config bytes b t) (host : InputLevels) :
    Run config bytes { b with host } t
  | regs {b : Board} {t : Traffic} (h : Run config bytes b t) (f : Registers → Registers) :
    Run config bytes { b with processor := b.processor.modifyRegs f } t
  | hooks {b : Board} {t : Traffic} (h : Run config bytes b t) (hooks : Hooks) :
    Run config bytes { b with processor.hooks := hooks } t

/-! ## The board on a run -/

/-- What holds of the board on every run. -/
structure Board.Carries (config : BoardConfig) (bytes : Array Byte) (b : Board) (t : Traffic) :
    Prop where
  settled : b.Settled
  fits : b.memory.Fits config
  stores : b.memory.bytes = t.stores.foldl config.apply bytes
  /-- The address of the cycle is on the address bus, until a fetch turns to its refresh. -/
  address : b.core.phase = .running → b.core.boundaryPending = false → b.core.cycle.half ≠ 0 →
    (b.core.cycle.pattern = .fetch → b.core.cycle.half ≤ 4) → b.core.cycle.Addresses →
    b.core.address.value = t.address
  /-- A cycle that reads from memory has taken its byte in when it is past the sampling. -/
  taken : b.core.phase = .running → b.core.boundaryPending = false →
    b.core.cycle.readsMemory = true → b.core.cycle.pattern.sampleHalf < b.core.cycle.half →
    t.taken.isSome = true

namespace Board

variable {config : BoardConfig} {bytes : Array Byte} {b : Board} {t : Traffic} {k : Core}
  {level : Level}

/-- Amid a cycle, WR is asserted by the fourth half-period of a write. -/
theorem strikes_iff (h : k.Underway) (hmore : k.runHalf.2 = false) :
    k.strikes = true ↔ k.cycle.half = 3 ∧ k.runHalf.1.pins.givesMemory = true := by
  have hhalf := h.half_runHalf hmore
  have hwired := (h.amid hmore).wired
  rw [Core.strikes, Bool.and_eq_true, Bool.and_eq_true, Bool.not_eq_true',
    h.course.uses.writesMemory_iff, hwired.givesMemory_iff, Core.pattern_runHalf,
    Bool.eq_false_iff]
  constructor
  · rintro ⟨⟨hwrite, hdown⟩, hup⟩
    rw [Ne, h.wired.wr_iff hwrite] at hdown
    rw [hwired.wr_iff (Core.pattern_runHalf.trans hwrite)] at hup
    exact ⟨by omega, hwrite, hup⟩
  · rintro ⟨hthree, hwrite, hroom⟩
    refine ⟨⟨hwrite, ?_⟩, ?_⟩
    · rw [Ne, h.wired.wr_iff hwrite]
      omega
    · rw [hwired.wr_iff (Core.pattern_runHalf.trans hwrite)]
      exact hroom

/-- No write strikes on an edge that leaves no strobe up. -/
theorem strikes_rests (hrest : k.runHalf.1.pins.AtRest) : k.strikes = false := by
  simp only [Pins.AtRest, Pins.strobes, Prod.mk.injEq] at hrest
  rw [Core.strikes, hrest.2.2.2.2]
  exact Bool.and_false _

/-- The address that the chip has put out after a half-period is the noted one, until a fetch turns
    to its refresh. -/
theorem Carries.address_runHalf (h : b.Carries config bytes t) (hk : b.core.Engages k b.inputs)
    (hearly : k.cycle.pattern = .fetch → k.cycle.half < 4)
    (howned : k.cycle.Addresses) :
    k.runHalf.1.address.value = (t.begin k).address := by
  rw [Core.buses_runHalf.1, Traffic.begin]
  by_cases hfirst : k.cycle.half = 0
  · obtain ⟨address, haddress⟩ : ∃ address, k.cycleAddress = some address := by
      rw [Core.cycleAddress]
      cases hpattern : k.cycle.pattern
      case internal => exact absurd hpattern howned.1
      all_goals exact ⟨_, rfl⟩
    rw [if_pos hfirst, hfirst, Core.addressAfter_zero haddress, haddress]
    rfl
  · obtain ⟨hsame, hphase, hchosen⟩ := hk.amid hfirst
    have hplain : k.cycle.half ≠ 4 ∨ k.cycle.pattern ≠ .fetch ∧ k.cycle.pattern ≠ .acknowledge := by
      by_cases hfetch : k.cycle.pattern = .fetch
      · exact Or.inl (Nat.ne_of_lt (hearly hfetch))
      · exact Or.inr ⟨hfetch, howned.2⟩
    rw [if_neg hfirst, Core.addressAfter_later hfirst hplain]
    rw [hsame] at hfirst hearly howned ⊢
    exact h.address hphase hchosen hfirst (fun hfetch => Nat.le_of_lt (hearly hfetch)) howned

/-- While memory is given a byte, it is the one that the chip has for it. -/
theorem Carries.given_byte (h : b.Carries config bytes t) (hk : b.core.Engages k b.inputs)
    (hmoved : b.moved level = k.runHalf.1) (hmore : k.runHalf.2 = false)
    (hgives : k.runHalf.1.pins.givesMemory = true) :
    (b.memory.answered (b.moved level).pins (b.moved level).address (b.moved level).data).value
      = k.writeByte := by
  obtain ⟨hwrite, hroom⟩ := (hk.underway.amid hmore).wired.givesMemory_iff.mp hgives
  rw [Core.pattern_runHalf] at hwrite
  have hnext : k.runHalf.1.staged k.runHalf.1.cycle.half = some k.writeByte := by
    rw [Core.staged, Core.pattern_runHalf, hwrite]
    dsimp only
    rw [if_pos (by omega), Core.writeByte, Core.kind_of_use Core.use_runHalf, Core.latches_runHalf (Or.inl hwrite)]
    rfl
  obtain ⟨hvalue, hlater, -⟩ :=
    Core.staged_runHalf hk.underway hmore (h.settled.staged_engaged hk) hnext
  rw [h.settled.answered_write hk hmoved hmore hlater (Or.inl hwrite), hmoved]
  exact hvalue

/-- Before the fifth half-period of a write its byte has been stored. -/
theorem Carries.given_already (h : b.Carries config bytes t) (hk : b.core.Engages k b.inputs)
    (hwrite : k.cycle.pattern = .write) (hfour : k.cycle.half = 4) :
    config.apply b.memory.bytes ⟨(t.begin k).address, k.writeByte⟩ = b.memory.bytes := by
  have hlater : k.cycle.half ≠ 0 := by omega
  have hbyte : k.data.value = k.writeByte := by
    refine h.settled.staged_engaged hk _ ?_
    rw [Core.staged, hwrite, hfour]
    rfl
  have hgives : k.pins.givesMemory = true :=
    hk.underway.wired.givesMemory_iff.mpr ⟨hwrite, by omega, by omega⟩
  obtain ⟨hsame, hphase, hchosen⟩ := hk.amid hlater
  rw [Traffic.begin, if_neg hlater, ← hbyte]
  rw [hsame] at hlater hwrite hgives ⊢
  have hgiven := h.settled.given hgives
  rw [h.fits.stored_eq] at hgiven
  rw [← h.address hphase hchosen hlater
    (fun hfetch => absurd (hfetch.symm.trans hwrite) (by decide))
    (ActiveCycle.addresses_of_write hwrite)]
  exact hgiven

/-- An edge stores the byte of a write that asserts WR, and nothing else. -/
theorem Carries.bytes_edge (h : b.Carries config bytes t) (level : Level) :
    (b.edge level).1.memory.bytes = (t.edge b level).stores.foldl config.apply bytes := by
  obtain ⟨stopping, hstep⟩ := b.moved_eq level
  have hbytes : (b.edge level).1.memory.bytes =
      if (b.moved level).pins.givesMemory then
        b.memory.stored (b.moved level).address
          (b.memory.answered (b.moved level).pins (b.moved level).address
            (b.moved level).data).value
      else b.memory.bytes := by
    rw [(b.edge_parts level).1, Memory.edge_eq]
  have houtcome := h.settled.sound.outcome level b.inputs stopping
  rw [← hstep] at houtcome
  have hedge := t.edge_eq b level
  rw [hbytes, hedge]
  cases houtcome with
  | rests rest _ closed =>
    rw [(Core.nobody_asked rest).2.1, if_neg Bool.false_ne_true, h.stores]
    cases hengaged : b.core.engaged level b.inputs with
    | none => rfl
    | some k =>
      have hdown : k.strikes = false := strikes_rests (closed k hengaged).2
      show _ = List.foldl config.apply bytes (if k.strikes then _ else t.stores)
      rw [hdown]
      rfl
  | amid k runs more result =>
    have hk := h.settled.sound.engages runs
    rw [runs]
    show _ = List.foldl config.apply bytes (if k.strikes then _ else t.stores)
    cases hgives : k.runHalf.1.pins.givesMemory with
    | false =>
      have hdown : k.strikes = false := by
        refine Bool.eq_false_iff.mpr fun hstrikes => ?_
        have hup := ((strikes_iff hk.underway more).mp hstrikes).2
        exact nomatch hup.symm.trans hgives
      rw [result, hgives, if_neg Bool.false_ne_true, h.stores, hdown]
      rfl
    | true =>
      obtain ⟨hwrite, hroom⟩ := (hk.underway.amid more).wired.givesMemory_iff.mp hgives
      rw [Core.pattern_runHalf] at hwrite
      have hvalue := h.given_byte hk result more hgives
      have haddress := h.address_runHalf hk
        (fun hfetch => absurd (hfetch.symm.trans hwrite) (by decide))
        (ActiveCycle.addresses_of_write hwrite)
      rw [result] at hvalue ⊢
      rw [hgives, if_pos rfl, h.fits.stored_eq, hvalue, haddress]
      cases hstrikes : k.strikes with
      | true =>
        rw [if_pos rfl, List.foldl_append, ← h.stores]
        rfl
      | false =>
        -- the byte has been stored on the edge before, and is stored again
        have hfour : k.cycle.half = 4 := by
          have hother : k.cycle.half ≠ 3 := fun hthree => by
            rw [(strikes_iff hk.underway more).mpr ⟨hthree, hgives⟩] at hstrikes
            exact nomatch hstrikes
          rcases hk.underway.half_runHalf more with
            ⟨-, hnext⟩ | ⟨-, -, ⟨hthree, -⟩ | ⟨-, hport | hport⟩⟩
          · omega
          · exact absurd hthree hother
          · exact nomatch hwrite.symm.trans hport
          · exact nomatch hwrite.symm.trans hport
        have hgiven := h.given_already hk hwrite hfour
        rw [if_neg Bool.false_ne_true, ← h.stores]
        exact hgiven

/-- Past the sampling, a cycle that reads from memory has taken its byte in. -/
theorem Carries.taken_runHalf (h : b.Carries config bytes t) (hk : b.core.Engages k b.inputs)
    (hmore : k.runHalf.2 = false) (hreads : k.cycle.readsMemory = true)
    (hlater : k.cycle.pattern.sampleHalf < k.runHalf.1.cycle.half) :
    (t.note k).taken.isSome = true := by
  show (if k.samplesMemory then some k.data.value else (t.begin k).taken).isSome = true
  by_cases hhere : k.cycle.half = k.cycle.pattern.sampleHalf
  · have hsamples : k.samplesMemory = true := by
      rw [Core.samplesMemory, hreads, beq_iff_eq.mpr hhere]
      rfl
    rw [hsamples]
    rfl
  · have hpast : k.cycle.pattern.sampleHalf < k.cycle.half := by
      have hhalf := hk.underway.half_runHalf hmore
      omega
    have hfirst : k.cycle.half ≠ 0 := Nat.ne_of_gt (Nat.zero_lt_of_lt hpast)
    obtain ⟨hsame, hphase, hchosen⟩ := hk.amid hfirst
    rw [Traffic.begin, if_neg hfirst]
    split
    · rfl
    · rw [hsame] at hreads hpast
      exact h.taken hphase hchosen hreads hpast

/-- On every run the board carries what passes between the chip and memory. -/
theorem Carries.edge (h : b.Carries config bytes t) (level : Level) :
    (b.edge level).1.Carries config bytes (t.edge b level) := by
  obtain ⟨stopping, hstep⟩ := b.moved_eq level
  obtain ⟨hmemory, -, hcore⟩ := b.edge_parts level
  obtain ⟨hconnector, hrom, hsize⟩ := b.memory.edge_fixed level (b.moved level).pins
    (b.moved level).address (b.moved level).data
  rw [← hmemory] at hconnector hrom hsize
  have houtcome := h.settled.sound.outcome level b.inputs stopping
  rw [← hstep] at houtcome
  have hedge := t.edge_eq b level
  have hfits : (b.edge level).1.memory.Fits config :=
    ⟨h.fits.valid, hconnector.trans h.fits.address, hrom.trans h.fits.rom, hsize.trans h.fits.size⟩
  -- amid a cycle the address is the one recorded, and past its sample the byte is the one in memory
  cases houtcome with
  | rests rest first _ =>
    refine ⟨h.settled.edge level, hfits, h.bytes_edge level, fun hphase hchosen hlater => ?_,
      fun hphase hchosen _ hlater => ?_⟩
    · rw [hcore] at hphase hchosen hlater
      exact absurd (first hphase hchosen) hlater
    · rw [hcore] at hphase hchosen hlater
      exact absurd (first hphase hchosen) (Nat.ne_of_gt (Nat.zero_lt_of_lt hlater))
  | amid k runs more result =>
    have hk := h.settled.sound.engages runs
    have hhalf := hk.underway.half_runHalf more
    rw [runs] at hedge
    refine ⟨h.settled.edge level, hfits, h.bytes_edge level, fun _ _ _ hearly howned => ?_,
      fun _ _ hreads hlater => ?_⟩
    · rw [hcore, result] at hearly howned ⊢
      rw [hedge]
      have hearly' (hfetch : k.cycle.pattern = .fetch) : k.cycle.half < 4 := by
        have hnext : k.runHalf.1.cycle.half ≤ 4 := hearly (Core.pattern_runHalf.trans hfetch)
        rcases hhalf with ⟨-, hstep⟩ | ⟨-, hback, ⟨hthree, -⟩ | ⟨-, hport | hport⟩⟩
        · omega
        · omega
        · exact nomatch hfetch.symm.trans hport
        · exact nomatch hfetch.symm.trans hport
      refine h.address_runHalf hk hearly' ?_
      rw [ActiveCycle.Addresses, ← Core.pattern_runHalf]
      exact howned
    · rw [hcore, result] at hreads hlater
      rw [hedge]
      exact h.taken_runHalf hk more (Core.readsMemory_runHalf.symm.trans hreads)
        (Core.pattern_runHalf ▸ hlater)

/-- A byte that the chip takes in from memory is the one in the array. -/
theorem Carries.samples (h : b.Carries config bytes t) (hk : b.core.Engages k b.inputs)
    (hsamples : k.samplesMemory = true) :
    k.data.value = config.byteAt b.memory.bytes (t.begin k).address := by
  rw [Core.samplesMemory, Bool.and_eq_true, beq_iff_eq] at hsamples
  obtain ⟨hreads, hhere⟩ := hsamples
  have hroom : 4 ≤ k.cycle.half ∧ (k.cycle.pattern = .fetch → k.cycle.half ≤ 4) := by
    rw [hhere]
    cases k.cycle.pattern <;> decide
  have hlater : k.cycle.half ≠ 0 := by omega
  have hasks : k.pins.asksMemory = true :=
    hk.underway.wired.asksMemory_iff.mpr ⟨hreads, by omega, Nat.le_of_eq hhere⟩
  obtain ⟨hsame, hphase, hchosen⟩ := hk.amid hlater
  rw [Traffic.begin, if_neg hlater]
  rw [hsame] at hreads hroom hlater hasks ⊢
  rw [← h.address hphase hchosen hlater hroom.2
    (ActiveCycle.addresses_of_readsMemory hreads), ← h.fits.byteAt_eq]
  exact h.settled.asked hasks

/-- A cycle that reads from memory has taken its byte in when it ends. -/
theorem Carries.taken_last (h : b.Carries config bytes t) (hk : b.core.Engages k b.inputs)
    (hreads : k.cycle.readsMemory = true) (hlast : k.runHalf.2 = true) :
    (t.note k).taken.isSome = true := by
  have hroom : k.cycle.pattern.sampleHalf ≤ k.cycle.half := by
    have hlate := (hk.underway.last hlast).2.2.2
    have hsample := k.cycle.pattern.sampleHalf_lt
    omega
  show (if k.samplesMemory then some k.data.value else (t.begin k).taken).isSome = true
  rcases Nat.eq_or_lt_of_le hroom with hhere | hpast
  · rw [Core.samplesMemory, hreads, beq_iff_eq.mpr hhere.symm]
    rfl
  · have hfirst : k.cycle.half ≠ 0 := Nat.ne_of_gt (Nat.zero_lt_of_lt hpast)
    obtain ⟨hsame, hphase, hchosen⟩ := hk.amid hfirst
    rw [Traffic.begin, if_neg hfirst]
    split
    · rfl
    · rw [hsame] at hreads hpast
      exact h.taken hphase hchosen hreads hpast

/-- A board that has just been built carries nothing yet. -/
theorem carries_start {device : Device} {m : Machine} (built : Machine.build config device = .ok m)
    (size : bytes.size = config.memorySize) :
    ({ m.board with memory.bytes := bytes } : Board).Carries config bytes {} := by
  unfold Machine.build at built
  split at built
  · exact nomatch built
  · next hvalid =>
    obtain rfl := Except.ok.inj built
    refine ⟨⟨Core.sound_powerOn _ _, nofun, rfl, nofun, nofun, fun hphase => absurd rfl hphase⟩,
      ⟨hvalid, rfl, rfl, size⟩, rfl, nofun, nofun⟩

end Board

/-! ## Runs -/

variable {config : BoardConfig} {bytes : Array Byte} {b : Board} {t : Traffic}

/-- On every run the board carries what passes between the chip and memory. -/
theorem Run.carries (h : Run config bytes b t) : b.Carries config bytes t := by
  induction h with
  | start built size => exact Board.carries_start built size
  | edge _ level ih => exact ih.edge level
  | host _ host ih =>
    obtain ⟨hsettled, hfits, hstores, haddress, htaken⟩ := ih
    exact ⟨⟨hsettled.sound, hsettled.staged, hsettled.driving, hsettled.asked, hsettled.given,
      hsettled.turned⟩, hfits, hstores, haddress, htaken⟩
  | regs _ f ih =>
    obtain ⟨hsettled, hfits, hstores, haddress, htaken⟩ := ih
    exact ⟨⟨hsettled.sound.modifyRegs f, hsettled.staged, hsettled.driving, hsettled.asked,
      hsettled.given, hsettled.turned⟩, hfits, hstores, haddress, htaken⟩
  | hooks _ hooks ih =>
    obtain ⟨hsettled, hfits, hstores, haddress, htaken⟩ := ih
    exact ⟨⟨hsettled.sound, hsettled.staged, hsettled.driving, hsettled.asked, hsettled.given,
      hsettled.turned⟩, hfits, hstores, haddress, htaken⟩

/-- On every run memory is an array with a read-only window.  It holds the initial bytes with the
    stores applied in order; no read-only byte ever changes; and whenever the chip takes a byte in
    from memory it takes in the one of the array at the address of the cycle, as it does in every
    cycle that reads from memory and ends. -/
theorem Run.array (h : Run config bytes b t) :
    b.memory.bytes = t.stores.foldl config.apply bytes
      ∧ (∀ index, config.isRom index = true → b.memory.bytes[index]? = bytes[index]?)
      ∧ ∀ level k, b.engaged level = some k →
        (k.samplesMemory = true →
          k.data.value = config.byteAt b.memory.bytes (t.begin k).address
            ∧ k.runHalf.1.wiredAs k
              = k.takeIn (config.byteAt b.memory.bytes (t.begin k).address))
        ∧ (k.cycle.readsMemory = true → k.runHalf.2 = true → (t.note k).taken.isSome = true) := by
  have hcarries := h.carries
  refine ⟨hcarries.stores, fun index hrom => ?_, fun level k hengaged => ?_⟩
  · rw [hcarries.stores]
    exact config.getElem?_foldl_apply t.stores bytes hrom
  · have hk := hcarries.settled.sound.engages hengaged
    refine ⟨fun hsamples => ?_, fun hreads hlast => hcarries.taken_last hk hreads hlast⟩
    have hbyte := hcarries.samples hk hsamples
    refine ⟨hbyte, ?_⟩
    rw [Core.samplesMemory, Bool.and_eq_true, beq_iff_eq] at hsamples
    have hlater : ¬ (k.cycle.half = 0 ∧ k.cycle.pattern = .write) := by
      rintro ⟨-, hwrite⟩
      rw [ActiveCycle.readsMemory, hwrite] at hsamples
      cases hsamples.1
    rw [Core.runHalf_wiredAs_self, Core.effect, if_neg hlater, if_pos hsamples.2, hbyte]

/-- The board and the traffic after some edges. -/
def Board.travel (b : Board) (t : Traffic) : List Level → Board × Traffic
  | [] => (b, t)
  | level :: rest => (b.edge level).1.travel (t.edge b level) rest

/-- A run goes on over any edges. -/
theorem Run.travel (h : Run config bytes b t) (levels : List Level) :
    Run config bytes (b.travel t levels).1 (b.travel t levels).2 := by
  induction levels generalizing b t with
  | nil => exact h
  | cons level rest ih => exact ih (h.edge level)

/-- A small memory whose last byte but one is read-only. -/
def smallConfig : BoardConfig :=
  { memorySize := 0x400, rom := some ⟨0x3FE, 1⟩ }

/-- A machine with it. -/
def smallMachine : Machine :=
  { clock := .atRest
      { processor := .powerOn (.released 0xFFFF) (.released 0xFF)
        memory :=
          { Memory.ofSize (.truncated Machine.addressBus smallConfig.addressLines) 0x400 with
            rom := smallConfig.rom }
        device := .unattached } smallConfig.frequencyHz }

/-- Its board over other bytes, with NMI asserted from power-on. -/
def nmiBoard : Board :=
  { smallMachine.board with
    memory.bytes := Array.replicate 0x400 0xAA
    host := { nmi := .asserted } }

/-- The interrupt pushes PC.  The array takes one byte of it and refuses the other. -/
theorem array_after_nmi :
    let levels := (List.range 22).map fun edge => Level.ofBool (edge % 2 == 0)
    let last := nmiBoard.travel {} levels
    Run smallConfig (Array.replicate 0x400 0xAA) last.1 last.2
      ∧ last.2.stores = [⟨0xFFFE, 0⟩, ⟨0xFFFD, 0⟩]
      ∧ last.1.memory.bytes
        = last.2.stores.foldl smallConfig.apply (Array.replicate 0x400 0xAA) := by
  intro levels last
  have hbuilt : Machine.build smallConfig .unattached = .ok smallMachine := rfl
  have hstart : Run smallConfig (Array.replicate 0x400 0xAA) nmiBoard {} :=
    (Run.start hbuilt (Array.size_replicate ..)).host { nmi := .asserted }
  have hrun : Run smallConfig (Array.replicate 0x400 0xAA) last.1 last.2 := hstart.travel levels
  have hstores : last.2.stores = [⟨0xFFFE, 0⟩, ⟨0xFFFD, 0⟩] := by decide +kernel
  exact ⟨hrun, hstores, (Run.array hrun).1⟩

end Z80Board
