import Mathlib.Data.List.Induction
import Z80Board.Proofs.Rig.Configurations

/-! # Programs in memory

    A host loads programs, and in between it lets the machine run and does with it what it likes.
    Whether a program can be loaded is told by the program and the size of memory alone.  A program
    that can be loaded is copied to its place, also into the read-only window, and nothing else
    changes; one that cannot changes nothing.

    Breakpoints are set on lines.  The address of a line is that in the latest of the programs that
    have been loaded and map the line, and within the program it is that of the last entry. -/

namespace Z80Board

/-! ## The map of lines -/

namespace ProgramImage

variable {lines : List (Nat × Word)} {line : Nat} {address : Word}

theorem lookup_entry (l : Nat) : ((line, address) :: lines).lookup l
    = if l = line then some address else lines.lookup l := by
  rw [List.lookup_cons]
  split
  · next hsame => rw [if_pos (beq_iff_eq.mp hsame)]
  · next hother => rw [if_neg (beq_eq_false_iff_ne.mp hother)]

/-- A new entry for a line is the one that is found for it. -/
theorem lookup_insertLine (l : Nat) : (insertLine line address lines).lookup l
    = if l = line then some address else lines.lookup l := by
  induction lines with
  | nil => exact lookup_entry l
  | cons first rest ih =>
    rw [insertLine]
    split
    · exact lookup_entry l
    · next hmore =>
      split
      · next hsame =>
        rw [lookup_entry, lookup_entry, ← hsame]
        split <;> rfl
      · next hother =>
        rw [lookup_entry, lookup_entry, ih]
        split
        · next hfirst => rw [if_neg fun hline => hother (hline.symm.trans hfirst)]
        · rfl

/-- The lines of a map rise. -/
def Rising (lines : List (Nat × Word)) : Prop :=
  lines.Pairwise fun earlier later => earlier.1 < later.1

theorem mem_insertLine {entry : Nat × Word} (h : entry ∈ insertLine line address lines) :
    entry = (line, address) ∨ entry ∈ lines := by
  induction lines with
  | nil => exact Or.inl (List.mem_singleton.mp h)
  | cons first rest ih =>
    rw [insertLine] at h
    split at h
    · exact List.mem_cons.mp h
    · split at h
      · exact (List.mem_cons.mp h).imp_right (List.mem_cons_of_mem _)
      · rcases List.mem_cons.mp h with rfl | h
        · exact Or.inr List.mem_cons_self
        · exact (ih h).imp_right (List.mem_cons_of_mem _)

/-- The map stays sorted. -/
theorem Rising.insertLine (h : Rising lines) : Rising (insertLine line address lines) := by
  induction lines with
  | nil => exact List.pairwise_singleton _ _
  | cons first rest ih =>
    obtain ⟨hfirst, hrest⟩ := List.pairwise_cons.mp h
    rw [ProgramImage.insertLine]
    split
    · next hless =>
      refine List.pairwise_cons.mpr ⟨fun entry hentry => ?_, h⟩
      rcases List.mem_cons.mp hentry with rfl | hentry
      · exact hless
      · exact Nat.lt_trans hless (hfirst entry hentry)
    · next hmore =>
      split
      · next hsame =>
        exact List.pairwise_cons.mpr ⟨fun entry hentry => hsame ▸ hfirst entry hentry, hrest⟩
      · next hother =>
        refine List.pairwise_cons.mpr ⟨fun entry hentry => ?_, ih hrest⟩
        rcases mem_insertLine hentry with rfl | hentry
        · exact Nat.lt_of_le_of_ne (Nat.le_of_not_lt hmore) (Ne.symm hother)
        · exact hfirst entry hentry

/-- In a sorted map every entry is the one that is found for its line. -/
theorem Rising.mem_iff (h : Rising lines) :
    (line, address) ∈ lines ↔ lines.lookup line = some address := by
  induction lines with
  | nil => exact ⟨nofun, nofun⟩
  | cons first rest ih =>
    obtain ⟨hfirst, hrest⟩ := List.pairwise_cons.mp h
    obtain ⟨l, a⟩ := first
    rw [List.mem_cons, lookup_entry, Prod.mk.injEq]
    by_cases hsame : line = l
    · have hlater : (line, address) ∉ rest := fun hmem =>
        Nat.lt_irrefl _ (hsame ▸ hfirst (line, address) hmem : l < l)
      rw [if_pos hsame, Option.some_inj]
      exact ⟨fun h => ((h.resolve_right hlater).2).symm, fun h => Or.inl ⟨hsame, h.symm⟩⟩
    · rw [if_neg hsame, ← ih hrest]
      exact ⟨fun h => h.resolve_left fun h => hsame h.1, Or.inr⟩

end ProgramImage

/-! ## Programs -/

/-- What an image is made from: bytes, where they are to be loaded, and entries of lines in the order
    in which they are made. -/
structure Program where
  loadAddress : Word
  bytes : Array Byte
  entries : List (Nat × Word) := []

namespace Program

/-- The image of the program. -/
def image (p : Program) : ProgramImage :=
  p.entries.foldl (fun image (line, address) => image.withLine line address)
    (.ofBytes p.loadAddress p.bytes)

/-- One past the place of the last byte. -/
def stop (p : Program) : Nat :=
  p.loadAddress.toNat + p.bytes.size

/-- The address of a line, by the last entry for it. -/
def addressOf? (p : Program) (line : Nat) : Option Word :=
  p.entries.reverse.lookup line

/-- The program can be loaded into a memory of this size: it has bytes, they end inside memory, and
    every line that it maps stands on one of them. -/
structure Fits (p : Program) (size : Nat) : Prop where
  occupied : p.bytes ≠ #[]
  inside : p.stop ≤ size
  lines : ∀ line address, p.addressOf? line = some address →
    p.loadAddress.toNat ≤ address.toNat ∧ address.toNat < p.stop

variable (p : Program) {size : Nat}

/-- The image has the bytes of the program, and a sorted map of its lines. -/
theorem image_parts : p.image.loadAddress = p.loadAddress ∧ p.image.bytes = p.bytes
    ∧ ProgramImage.Rising p.image.lines
    ∧ ∀ line, p.image.lines.lookup line = p.addressOf? line := by
  obtain ⟨loadAddress, bytes, entries⟩ := p
  -- by induction from the end, where the entry is that is made last
  induction entries using List.reverseRecOn with
  | nil => exact ⟨rfl, rfl, List.Pairwise.nil, fun _ => rfl⟩
  | append_singleton entries entry ih =>
    obtain ⟨haddress, hbytes, hrising, hlookup⟩ := ih
    have himage : image ⟨loadAddress, bytes, entries ++ [entry]⟩
        = (image ⟨loadAddress, bytes, entries⟩).withLine entry.1 entry.2 := by
      rw [image, List.foldl_append]
      rfl
    rw [himage]
    refine ⟨haddress, hbytes, hrising.insertLine, fun line => ?_⟩
    rw [ProgramImage.withLine, ProgramImage.lookup_insertLine, hlookup, addressOf?, addressOf?,
      List.reverse_append, List.reverse_singleton, List.singleton_append,
      ProgramImage.lookup_entry]

/-- The check tells whether the program can be loaded. -/
theorem check_iff : p.image.check size = .ok () ↔ p.Fits size := by
  obtain ⟨haddress, hbytes, hrising, hlookup⟩ := p.image_parts
  have hstop : p.image.stop = p.stop := by
    rw [ProgramImage.stop, haddress, hbytes, stop]
  have hempty : p.image.bytes.isEmpty = true ↔ p.bytes = #[] := by
    rw [hbytes, Array.isEmpty_iff]
  have hspans (address : Word) : p.image.spans address = true
      ↔ p.loadAddress.toNat ≤ address.toNat ∧ address.toNat < p.stop := by
    rw [ProgramImage.spans, haddress, hstop, Bool.and_eq_true, decide_eq_true_iff,
      decide_eq_true_iff]
  have hlines : p.image.lines.find? (fun (_, address) => !p.image.spans address) = none
      ↔ ∀ line address, p.addressOf? line = some address →
        p.loadAddress.toNat ≤ address.toNat ∧ address.toNat < p.stop := by
    rw [List.find?_eq_none]
    constructor
    · intro hall line address hfound
      rw [← hlookup, ← hrising.mem_iff] at hfound
      refine (hspans address).mp ?_
      simpa using hall _ hfound
    · rintro hall ⟨line, address⟩ hmem
      rw [hrising.mem_iff, hlookup] at hmem
      have hin := (hspans address).mpr (hall line address hmem)
      simpa using hin
  rw [ProgramImage.check]
  constructor
  · intro hpasses
    split at hpasses
    · exact nomatch hpasses
    next hbytes =>
    split at hpasses
    · exact nomatch hpasses
    next hinside =>
    split at hpasses
    · exact nomatch hpasses
    next hnone =>
    exact ⟨fun hnil => hbytes (hempty.mpr hnil), hstop ▸ Nat.le_of_not_gt hinside, hlines.mp hnone⟩
  · rintro ⟨hoccupied, hinside, hmapped⟩
    rw [if_neg fun h => hoccupied (hempty.mp h), hstop, if_neg (Nat.not_lt.mpr hinside),
      hlines.mpr hmapped]

end Program

/-! ## The bytes in memory -/

/-- The bytes that are stored are found in their places, and the others are left. -/
theorem Memory.getElem?_store {bytes : Array Byte} {start : Nat} {image : List Byte}
    (h : start + image.length ≤ bytes.size) (index : Nat) : (store bytes start image)[index]?
      = if start ≤ index ∧ index < start + image.length then image[index - start]?
        else bytes[index]? := by
  induction image generalizing bytes start with
  | nil =>
    rw [if_neg fun h => absurd h.2 (Nat.not_lt.mpr h.1)]
    rfl
  | cons v rest ih =>
    have hrest : store bytes start (v :: rest) = store (bytes.setIfInBounds start v) (start + 1) rest :=
      rfl
    rw [List.length_cons] at h ⊢
    rw [hrest, ih (by rw [Array.size_setIfInBounds]; omega)]
    by_cases hfirst : index = start
    · subst hfirst
      rw [if_neg fun h => Nat.not_succ_le_self _ h.1, if_pos ⟨Nat.le_refl _, by omega⟩, Nat.sub_self,
        Array.getElem?_setIfInBounds_self_of_lt (by omega)]
      rfl
    · rw [Array.getElem?_setIfInBounds_ne (Ne.symm hfirst)]
      by_cases hlater : start + 1 ≤ index ∧ index < start + 1 + rest.length
      · obtain ⟨k, rfl⟩ := Nat.exists_eq_add_of_le hlater.1
        rw [if_pos hlater, if_pos ⟨by omega, by omega⟩, Nat.add_sub_cancel_left,
          show start + 1 + k - start = k + 1 by omega]
        rfl
      · rw [if_neg hlater, if_neg (by omega)]

theorem Memory.size_store (bytes : Array Byte) (start : Nat) (image : List Byte) :
    (store bytes start image).size = bytes.size := by
  induction image generalizing bytes start with
  | nil => rfl
  | cons v rest ih =>
    exact (ih (bytes.setIfInBounds start v) (start + 1)).trans Array.size_setIfInBounds

/-! ## Loading -/

/-- The latest of the programs that can be loaded and map the line maps it to this address.  The
    programs are given latest first. -/
inductive Latest (size line : Nat) : List Program → Word → Prop where
  | here {p : Program} {programs : List Program} {address : Word} (fits : p.Fits size)
    (maps : p.addressOf? line = some address) : Latest size line (p :: programs) address
  | earlier {p : Program} {programs : List Program} {address : Word}
    (passes : p.Fits size → p.addressOf? line = none) (rest : Latest size line programs address) :
    Latest size line (p :: programs) address

/-- A program that cannot be loaded does not count, nor does one that does not map the line. -/
theorem latest_cons {size line : Nat} {p : Program} {programs : List Program} {address : Word} :
    Latest size line (p :: programs) address
      ↔ p.Fits size ∧ p.addressOf? line = some address
        ∨ (p.Fits size → p.addressOf? line = none) ∧ Latest size line programs address := by
  constructor
  · rintro (⟨hfits, hmaps⟩ | ⟨hpasses, hrest⟩)
    · exact Or.inl ⟨hfits, hmaps⟩
    · exact Or.inr ⟨hpasses, hrest⟩
  · rintro (⟨hfits, hmaps⟩ | ⟨hpasses, hrest⟩)
    · exact .here hfits hmaps
    · exact .earlier hpasses hrest

namespace Machine

/-- The machine after a program has been loaded, if it can be. -/
def afterLoad (m : Machine) (p : Program) : Machine :=
  match m.load p.image with
  | .ok loaded => loaded
  | .error _ => m

/-- The program has been copied to its place, and nothing else has changed but what is remembered of
    programs. -/
structure Takes (m : Machine) (p : Program) (loaded : Machine) : Prop where
  inside : ∀ index, p.loadAddress.toNat ≤ index → index < p.stop →
    loaded.memory.bytes[index]? = p.bytes[index - p.loadAddress.toNat]?
  outside : ∀ index, index < p.loadAddress.toNat ∨ p.stop ≤ index →
    loaded.memory.bytes[index]? = m.memory.bytes[index]?
  size : loaded.memory.size = m.memory.size
  rest : loaded = { m.modifyMemory fun memory => { memory with bytes := loaded.memory.bytes } with
    images := loaded.images }

/-- A host's dealings with a machine, with the programs that it has tried to load, latest first.  In
    between it may drive the clock and the input pins, change what follows the chip, the registers,
    the device, and the bytes of memory. -/
inductive Session (config : BoardConfig) : List Program → Machine → Prop where
  | built {device : Device} {m : Machine} (build : Machine.build config device = .ok m) :
    Session config [] m
  | load {programs : List Program} {m : Machine} (h : Session config programs m) (p : Program) :
    Session config (p :: programs) (m.afterLoad p)
  | halfTick {programs : List Program} {m : Machine} (h : Session config programs m) :
    Session config programs m.halfTick.1
  | hooks {programs : List Program} {m : Machine} (h : Session config programs m)
    (f : Hooks → Hooks) : Session config programs (m.modifyHooks f)
  | regs {programs : List Program} {m : Machine} (h : Session config programs m)
    (f : Registers → Registers) : Session config programs (m.modifyRegs f)
  | memory {programs : List Program} {m : Machine} (h : Session config programs m)
    (f : Memory → Memory) (size : (f m.memory).size = m.memory.size) :
    Session config programs (m.modifyMemory f)
  | device {programs : List Program} {m : Machine} (h : Session config programs m)
    (f : Device → Device) : Session config programs (m.modifyDevice f)
  | input {programs : List Program} {m : Machine} (h : Session config programs m) (pin : InputPin)
    (level : Level) : Session config programs (m.setInput pin level)

variable {m loaded : Machine} {p : Program} {size line : Nat} {programs : List Program}
  {config : BoardConfig}

/-- A program is loaded exactly if it fits. -/
theorem load_iff : (∃ loaded, m.load p.image = .ok loaded) ↔ p.Fits m.memory.size := by
  rw [← p.check_iff, load, Memory.load]
  cases p.image.check m.memory.size with
  | error e => exact ⟨fun ⟨_, h⟩ => (nomatch h), fun h => (nomatch h)⟩
  | ok => exact ⟨fun _ => rfl, fun _ => ⟨_, rfl⟩⟩

/-- The machine with the program copied to its place, and remembered if it maps lines. -/
def holding (m : Machine) (p : Program) : Machine :=
  { m.modifyMemory fun memory =>
      { memory with bytes := Memory.store memory.bytes p.loadAddress.toNat p.bytes.toList } with
    images := if p.image.lines.isEmpty then m.images else m.images ++ [p.image] }

theorem load_eq (h : p.Fits m.memory.size) : m.load p.image = .ok (m.holding p) := by
  obtain ⟨haddress, hbytes, -, -⟩ := p.image_parts
  rw [load, Memory.load, p.check_iff.mpr h]
  dsimp only
  rw [haddress, hbytes, holding]
  split <;> rfl

theorem takes_of_load (hload : m.load p.image = .ok loaded) : m.Takes p loaded := by
  have hfits : p.Fits m.memory.size := load_iff.mp ⟨loaded, hload⟩
  rw [load_eq hfits] at hload
  cases hload
  have hinside : p.loadAddress.toNat + p.bytes.toList.length ≤ m.memory.bytes.size := hfits.inside
  have hbytes (index : Nat) := Memory.getElem?_store hinside index
  refine ⟨fun index hfrom hto => ?_, fun index hother => ?_, ?_, rfl⟩
  · exact (hbytes index).trans ((if_pos ⟨hfrom, hto⟩).trans Array.getElem?_toList)
  · refine (hbytes index).trans (if_neg fun hin => ?_)
    rcases hother with hbefore | hpast
    · exact absurd hin.1 (Nat.not_le.mpr hbefore)
    · exact absurd hin.2 (Nat.not_lt.mpr hpast)
  · exact Memory.size_store _ _ _

/-! ## The lines of what has been loaded -/

theorem addressOfLine_eq_ok {address : Word} : m.addressOfLine line = .ok address
    ↔ m.images.reverse.findSome? (fun image => image.lines.lookup line) = some address := by
  rw [addressOfLine]
  split
  · next hfound => rw [hfound, Except.ok.injEq, Option.some_inj]
  · next hnone => exact ⟨fun h => (nomatch h), fun h => (nomatch hnone.symm.trans h)⟩

/-- A program that is loaded is asked for a line before the others. -/
theorem findSome?_holding (line : Nat) :
    (m.holding p).images.reverse.findSome? (fun image => image.lines.lookup line)
      = (p.addressOf? line).or (m.images.reverse.findSome? fun image => image.lines.lookup line) := by
  obtain ⟨-, -, -, hlookup⟩ := p.image_parts
  have himages : (m.holding p).images
      = if p.image.lines.isEmpty then m.images else m.images ++ [p.image] := rfl
  rw [himages]
  split
  · next hempty =>
    rw [← hlookup, List.isEmpty_iff.mp hempty, List.lookup_nil, Option.none_or]
  · rw [List.reverse_append, List.reverse_singleton, List.singleton_append, List.findSome?_cons,
      hlookup]
    cases p.addressOf? line <;> rfl

/-- The memory has its size, and a line is found in the latest program that maps it. -/
structure Shelves (m : Machine) (size : Nat) (programs : List Program) : Prop where
  memory : m.memory.size = size
  found : ∀ line address, m.addressOfLine line = .ok address ↔ Latest size line programs address

/-- Loading a program puts it before the others. -/
theorem Shelves.afterLoad (h : m.Shelves size programs) (p : Program) :
    (m.afterLoad p).Shelves size (p :: programs) := by
  by_cases hfits : p.Fits m.memory.size
  · have hload := load_eq hfits
    have hlater : m.afterLoad p = m.holding p := by rw [Machine.afterLoad, hload]
    rw [hlater]
    refine ⟨(takes_of_load hload).size.trans h.memory, fun line address => ?_⟩
    rw [latest_cons, ← h.found, addressOfLine_eq_ok, addressOfLine_eq_ok, findSome?_holding]
    rw [h.memory] at hfits
    -- only a program that maps the line comes before what has been found so far
    cases p.addressOf? line with
    | none => exact ⟨fun hfound => Or.inr ⟨fun _ => rfl, hfound⟩,
        fun hor => (hor.resolve_left fun hhere => nomatch hhere.2).2⟩
    | some address' => exact ⟨fun hfound => Or.inl ⟨hfits, hfound⟩,
        fun hor => (hor.resolve_right fun hpasses => nomatch hpasses.1 hfits).2⟩
  · have hsame : m.afterLoad p = m := by
      rw [Machine.afterLoad]
      split
      · next hload => exact absurd (load_iff.mp ⟨_, hload⟩) hfits
      · rfl
    rw [hsame]
    rw [h.memory] at hfits
    refine ⟨h.memory, fun line address => ?_⟩
    rw [latest_cons, ← h.found]
    exact ⟨fun hfound => Or.inr ⟨fun hfits' => absurd hfits' hfits, hfound⟩,
      fun hor => (hor.resolve_left fun hhere => hfits hhere.1).2⟩

/-- Whatever the host does, a line is found in the latest program that has been loaded and maps it. -/
theorem Session.shelves (h : Session config programs m) :
    m.Shelves config.memorySize programs := by
  induction h with
  | @built device m build =>
    rw [Machine.build] at build
    split at build
    · cases build
    · cases build
      refine ⟨Array.size_replicate, fun line address => ⟨fun hfound => ?_, fun hlatest => ?_⟩⟩
      · cases hfound
      · cases hlatest
  | load _ p ih => exact ih.afterLoad p
  | @halfTick programs m _ ih =>
    obtain ⟨hmemory, -, -⟩ := m.board.edge_parts m.clock.level.flip
    obtain ⟨-, -, hsize⟩ := m.board.memory.edge_fixed m.clock.level.flip
      (m.board.moved m.clock.level.flip).pins (m.board.moved m.clock.level.flip).address
      (m.board.moved m.clock.level.flip).data
    rw [← hmemory] at hsize
    exact ⟨hsize.trans ih.memory, ih.found⟩
  | memory _ f size ih => exact ⟨size.trans ih.memory, ih.found⟩
  | hooks _ _ ih | regs _ _ ih | device _ _ ih | input _ _ _ ih => exact ⟨ih.memory, ih.found⟩

/-- One condition more is registered: to stop at the address. -/
structure Watches (m : Machine) (address : Word) (watching : Machine) (id : ConditionId) : Prop where
  conditions : watching.hooks.conditions = m.hooks.conditions ++ [(id, .addressReached address)]
  rest : watching = m.modifyHooks fun _ => watching.hooks

/-- Loading is all or nothing, and breakpoints follow what has been loaded.  At any time in a host's
    dealings with a machine a program can be loaded exactly if it fits memory; if it is loaded its
    bytes are in their places and nothing else has changed, and if not the machine is as before.  A
    breakpoint on a line registers one condition, on the address in the latest program that has been
    loaded and maps the line; if there is none the line is unknown. -/
theorem Session.loads_and_watches (h : Session config programs m) (p : Program) (line : Nat) :
    ((∃ loaded, m.load p.image = .ok loaded) ↔ p.Fits config.memorySize)
      ∧ (∀ loaded, m.load p.image = .ok loaded → m.Takes p loaded ∧ m.afterLoad p = loaded)
      ∧ (∀ fault, m.load p.image = .error fault → m.afterLoad p = m)
      ∧ (∀ address, Latest config.memorySize line programs address →
        ∃ watching id, m.addLineBreakpoint line = .ok (watching, id) ∧ m.Watches address watching id)
      ∧ ((∀ address, ¬ Latest config.memorySize line programs address) →
        m.addLineBreakpoint line = .error (.unknownLine line)) := by
  obtain ⟨hsize, hfound⟩ := h.shelves
  refine ⟨hsize ▸ load_iff, fun loaded hload => ⟨takes_of_load hload, ?_⟩, fun fault hfault => ?_,
    fun address hlatest => ?_, fun hnone => ?_⟩
  · rw [afterLoad, hload]
  · rw [afterLoad, hfault]
  · rw [addLineBreakpoint, (hfound line address).mpr hlatest]
    exact ⟨_, _, rfl, rfl, rfl⟩
  · rw [addLineBreakpoint, addressOfLine]
    cases hfirst : m.images.reverse.findSome? fun image => image.lines.lookup line with
    | none => rfl
    | some address =>
      exact absurd ((hfound line address).mp (addressOfLine_eq_ok.mpr hfirst)) (hnone address)

/-- Three programs have been loaded, of which the second is empty.  The third enters a line of the
    first anew, and twice: there its last entry is watched, and for another line that of the first. -/
theorem Session.watches_latest_entry :
    let first : Program := ⟨0x100, #[0x00, 0x76], [(10, 0x100), (11, 0x101)]⟩
    let empty : Program := ⟨0x200, #[], [(10, 0x200), (12, 0x200)]⟩
    let third : Program := ⟨0x101, #[0x00, 0x76], [(10, 0x101), (10, 0x102)]⟩
    ∃ m, Session { memorySize := 0x400 } [third, empty, first] m
      ∧ (∃ watching id, m.addLineBreakpoint 10 = .ok (watching, id) ∧ m.Watches 0x102 watching id)
      ∧ (∃ watching id, m.addLineBreakpoint 11 = .ok (watching, id) ∧ m.Watches 0x101 watching id)
      ∧ m.addLineBreakpoint 12 = .error (.unknownLine 12) := by
  intro first empty third
  obtain ⟨m, hbuilt⟩ : ∃ m, Machine.build { memorySize := 0x400 } .unattached = .ok m := ⟨_, rfl⟩
  have hfirst : first.Fits 0x400 := first.check_iff.mp rfl
  have hempty : ¬ empty.Fits 0x400 := fun hfits => hfits.occupied rfl
  have hthird : third.Fits 0x400 := third.check_iff.mp rfl
  have hsession := (((Session.built hbuilt).load first).load empty).load third
  refine ⟨_, hsession, ?_, ?_, ?_⟩
  · exact (Session.loads_and_watches hsession first 10).2.2.2.1 0x102 (.here hthird rfl)
  · exact (Session.loads_and_watches hsession first 11).2.2.2.1 0x101
      (.earlier (fun _ => rfl) (.earlier (fun hfits => absurd hfits hempty) (.here hfirst rfl)))
  · refine (Session.loads_and_watches hsession first 12).2.2.2.2 fun address hlatest => ?_
    rcases latest_cons.mp hlatest with ⟨-, hmaps⟩ | ⟨-, hlatest⟩
    · cases hmaps
    rcases latest_cons.mp hlatest with ⟨hfits, -⟩ | ⟨-, hlatest⟩
    · exact hempty hfits
    rcases latest_cons.mp hlatest with ⟨-, hmaps⟩ | ⟨-, hlatest⟩
    · cases hmaps
    cases hlatest

end Machine

end Z80Board
