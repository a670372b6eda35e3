import Z80Board.Proofs.Rig.Stack

/-! # Last in, first out

    Words are pushed and popped in any order, and in between anything may happen that leaves SP alone
    and what is on the stack.  Then what is popped is what has been pushed last, and SP comes back to
    where it has been.  The proof follows the steps of the run: before each of them the words that
    are on the stack stand in memory from SP up. -/

namespace Z80Board

/-- Two chips with the same AF have the same A and the same flags. -/
theorem Registers.flags_of_af {regs regs' : Registers} (h : regs'.reg16 .af = regs.reg16 .af) :
    regs'.a = regs.a ∧ regs'.f = regs.f := by
  have hsame : Word.ofBytes regs'.a regs'.f = Word.ofBytes regs.a regs.f := h
  obtain ⟨hhigh, hlow⟩ := Word.halves_ofBytes regs.a regs.f
  obtain ⟨hhigh', hlow'⟩ := Word.halves_ofBytes regs'.a regs'.f
  rw [hsame] at hhigh' hlow'
  exact ⟨hhigh'.symm.trans hhigh, hlow'.symm.trans hlow⟩

/-- The pairs that are pushed and popped do not have SP among them. -/
theorem Registers.sp_setReg16 {rr : Reg16} (regs : Registers) (w : Word) (h : rr.isStacked = true) :
    (regs.setReg16 w rr).sp = regs.sp := by
  cases rr <;> first
    | rfl
    | cases h

/-- Nor where the chip is. -/
theorem Registers.reg16_moved (regs : Registers) (pc wz : Word) (r : Byte) (rr : Reg16) :
    ({ regs with pc, r, wz } : Registers).reg16 rr = regs.reg16 rr := by
  cases rr <;> rfl

/-! ## The stack in memory -/

namespace BoardConfig

variable {config : BoardConfig} {bytes bytes' : Array Byte} {base sp w : Word} {words : List Word}
  {count : Nat}

/-- Below this address is room for so many words: their bytes are in RAM, each in a place of its
    own. -/
structure Room (config : BoardConfig) (base : Word) (count : Nat) : Prop where
  ram : ∀ i < 2 * count, config.isRom (config.index (base - 1 - i.toUInt16)) = false
  apart : ∀ i < 2 * count, ∀ j < 2 * count, i ≠ j →
    config.index (base - 1 - i.toUInt16) ≠ config.index (base - 1 - j.toUInt16)

/-- From this address on the words stand in memory. -/
def Keeps (config : BoardConfig) (bytes : Array Byte) : Word → List Word → Prop
  | _, [] => True
  | sp, w :: rest => config.wordAt bytes sp = w ∧ config.Keeps bytes (sp + 2) rest

/-- A word that is pushed to RAM stands there, its high byte at the higher address. -/
theorem byteAt_pushes (hvalid : config.validate = .ok ()) (hsize : bytes.size = config.memorySize)
    (hhigh : config.isRom (config.index (sp - 1)) = false)
    (hlow : config.isRom (config.index (sp - 2)) = false) :
    config.byteAt ((w.pushes sp).foldl config.apply bytes) (sp - 1) = Word.high w
      ∧ config.byteAt ((w.pushes sp).foldl config.apply bytes) (sp - 2) = Word.low w := by
  have hnext : sp - 2 + 1 = sp - 1 := by grind
  have hother : config.index (sp - 2) ≠ config.index (sp - 1) := by
    rw [← hnext]
    exact Ne.symm (index_succ_ne hvalid _)
  exact byteAt_apply_both hvalid hsize hother hhigh hlow

/-- Nothing else changes. -/
theorem getElem?_pushes_of_ne {place : Nat} (hhigh : place ≠ config.index (sp - 1))
    (hlow : place ≠ config.index (sp - 2)) :
    ((w.pushes sp).foldl config.apply bytes)[place]? = bytes[place]? :=
  getElem?_stores_of_ne (by simpa [Word.pushes] using And.intro hhigh hlow)

theorem wordAt_pushes (hvalid : config.validate = .ok ()) (hsize : bytes.size = config.memorySize)
    (hhigh : config.isRom (config.index (sp - 1)) = false)
    (hlow : config.isRom (config.index (sp - 2)) = false) :
    config.wordAt ((w.pushes sp).foldl config.apply bytes) (sp - 2) = w := by
  obtain ⟨hhigh', hlow'⟩ := byteAt_pushes (w := w) hvalid hsize hhigh hlow
  have hnext : sp - 2 + 1 = sp - 1 := by grind
  rw [wordAt, hnext, hhigh', hlow']
  exact Word.ofBytes_halves w

/-- What is in memory is what can be read from it. -/
theorem eq_of_byteAt (hvalid : config.validate = .ok ()) (hsize : bytes.size = config.memorySize)
    (hsize' : bytes'.size = config.memorySize)
    (h : ∀ address, config.byteAt bytes' address = config.byteAt bytes address) : bytes' = bytes := by
  obtain ⟨lines, -, hmost, hpower, -⟩ := exists_lines hvalid
  have hroom : config.memorySize ≤ 2 ^ 16 := by
    rw [hpower]
    exact Nat.pow_le_pow_right (by decide) hmost
  refine Array.ext (hsize'.trans hsize.symm) fun i hi' hi => ?_
  have hplace : config.index i.toUInt16 = i := by
    have hword : i.toUInt16.toNat = i % 2 ^ 16 := UInt16.toNat_ofNat'
    rw [index, hword, Nat.mod_eq_of_lt (by omega), Nat.mod_eq_of_lt (by omega)]
  have hsame := h i.toUInt16
  rw [byteAt, byteAt, hplace, Array.getD_eq_getD_getElem?, Array.getD_eq_getD_getElem?,
    Array.getElem?_eq_getElem hi', Array.getElem?_eq_getElem hi] at hsame
  exact hsame

/-- A push of the word that was at an address brings back what was in memory before another push has
    replaced it. -/
theorem pushes_back (hvalid : config.validate = .ok ()) (hsize : bytes.size = config.memorySize)
    (hhigh : config.isRom (config.index (sp - 1)) = false)
    (hlow : config.isRom (config.index (sp - 2)) = false) :
    ((config.wordAt bytes (sp - 2)).pushes sp).foldl config.apply
      ((w.pushes sp).foldl config.apply bytes) = bytes := by
  have hnext : sp - 2 + 1 = sp - 1 := by grind
  obtain ⟨hword, hword'⟩ :=
    Word.halves_ofBytes (config.byteAt bytes (sp - 1)) (config.byteAt bytes (sp - 2))
  have hwordAt : config.wordAt bytes (sp - 2)
      = Word.ofBytes (config.byteAt bytes (sp - 1)) (config.byteAt bytes (sp - 2)) := by
    rw [wordAt, hnext]
  have hkept (v : Word) (bytes : Array Byte) :
      ((v.pushes sp).foldl config.apply bytes).size = bytes.size :=
    size_apply.trans size_apply
  obtain ⟨hhigh', hlow'⟩ := byteAt_pushes (w := config.wordAt bytes (sp - 2)) hvalid
    ((hkept w bytes).trans hsize) hhigh hlow
  rw [hwordAt] at hhigh' hlow' ⊢
  rw [hword] at hhigh'
  rw [hword'] at hlow'
  -- in both places the old byte is back, and nothing else has changed
  refine eq_of_byteAt hvalid hsize (((hkept _ _).trans (hkept _ _)).trans hsize) fun address => ?_
  have hcongr {bytes : Array Byte} {other : Word} (hplace : config.index address = config.index other) :
      config.byteAt bytes address = config.byteAt bytes other := by
    rw [byteAt, byteAt, hplace]
  by_cases hfirst : config.index address = config.index (sp - 1)
  · rw [hcongr hfirst, hhigh', hcongr hfirst]
  by_cases hsecond : config.index address = config.index (sp - 2)
  · rw [hcongr hsecond, hlow', hcongr hsecond]
  have hother (v : Word) : ∀ store ∈ v.pushes sp, config.index store.address ≠ config.index address := by
    intro store hstore
    rw [Word.pushes, List.mem_cons, List.mem_singleton] at hstore
    rcases hstore with rfl | rfl
    · exact Ne.symm hfirst
    · exact Ne.symm hsecond
  rw [byteAt_stores_of_ne (hother _), byteAt_stores_of_ne (hother _)]

/-- Only the bytes from there on matter. -/
theorem Keeps.congr (h : config.Keeps bytes sp words)
    (hsame : ∀ i < 2 * words.length,
      config.byteAt bytes' (sp + i.toUInt16) = config.byteAt bytes (sp + i.toUInt16)) :
    config.Keeps bytes' sp words := by
  induction words generalizing sp with
  | nil => trivial
  | cons w rest ih =>
    obtain ⟨hword, hrest⟩ := h
    rw [List.length_cons] at hsame
    have hlow : config.byteAt bytes' sp = config.byteAt bytes sp := by
      have hzero := hsame 0 (by omega)
      rwa [show sp + (0 : Nat).toUInt16 = sp from UInt16.add_zero sp] at hzero
    have hhigh : config.byteAt bytes' (sp + 1) = config.byteAt bytes (sp + 1) := hsame 1 (by omega)
    refine ⟨?_, ih hrest fun i hi => ?_⟩
    · rw [← hword, wordAt, wordAt, hlow, hhigh]
    · have hlater : sp + 2 + i.toUInt16 = sp + (2 + i).toUInt16 := Core.add_toUInt16 sp 2 i
      rw [hlater]
      exact hsame (2 + i) (by omega)

/-- A push puts its word on top of the others. -/
theorem Keeps.push (h : config.Keeps bytes (base - (2 * words.length).toUInt16) words)
    (hroom : config.Room base count) (hmore : words.length < count)
    (hvalid : config.validate = .ok ()) (hsize : bytes.size = config.memorySize) :
    config.Keeps ((w.pushes (base - (2 * words.length).toUInt16)).foldl config.apply bytes)
      (base - (2 * words.length).toUInt16 - 2) (w :: words) := by
  generalize hdepth : 2 * words.length = depth at h ⊢
  have hsum (m n : Nat) : (m + n).toUInt16 = m.toUInt16 + n.toUInt16 := UInt16.ofNat_add m n
  have hhigh : base - depth.toUInt16 - 1 = base - 1 - depth.toUInt16 := by grind
  have hlow : base - depth.toUInt16 - 2 = base - 1 - (depth + 1).toUInt16 := by
    rw [hsum, show (1 : Nat).toUInt16 = 1 from rfl]
    grind
  have hunder : base - depth.toUInt16 - 2 + 2 = base - depth.toUInt16 := by grind
  refine ⟨?_, ?_⟩
  · refine wordAt_pushes hvalid hsize ?_ ?_
    · rw [hhigh]
      exact hroom.ram depth (by omega)
    · rw [hlow]
      exact hroom.ram (depth + 1) (by omega)
  · rw [hunder]
    refine h.congr fun i hi => byteAt_stores_of_ne fun store hstore => ?_
    obtain ⟨j, hj⟩ : ∃ j, depth = i + 1 + j := ⟨depth - i - 1, by omega⟩
    have hplace : base - depth.toUInt16 + i.toUInt16 = base - 1 - j.toUInt16 := by
      rw [hj, hsum, hsum, show (1 : Nat).toUInt16 = 1 from rfl]
      grind
    rw [hplace]
    rw [Word.pushes, List.mem_cons, List.mem_singleton] at hstore
    rcases hstore with rfl | rfl
    · rw [hhigh]
      exact hroom.apart depth (by omega) j (by omega) (by omega)
    · rw [hlow]
      exact hroom.apart (depth + 1) (by omega) j (by omega) (by omega)

end BoardConfig

/-! ## Steps of a run -/

/-- What a step of a run does to the stack. -/
inductive StackStep where
  | push (w : Word)
  | pop (got : Word)

/-- The words on the stack after the step.  What is popped has to be on top. -/
def StackStep.act : List Word → StackStep → Option (List Word)
  | stack, .push w => some (w :: stack)
  | w :: stack, .pop got => if got = w then some stack else none
  | [], .pop _ => none

namespace StackStep

variable {words got stack left : List Word}

/-- Pushes put their words on top, the last one first. -/
theorem replay_pushes (words stack : List Word) :
    (words.map StackStep.push).foldlM act stack = some (words.reverse ++ stack) := by
  induction words generalizing stack with
  | nil => rfl
  | cons w rest ih =>
    rw [List.map_cons, List.foldlM_cons, act, Option.bind_eq_bind, Option.bind_some, ih,
      List.reverse_cons, List.append_assoc]
    rfl

/-- Pops take what is on top. -/
theorem replay_pops (h : (got.map StackStep.pop).foldlM act stack = some left) :
    stack = got ++ left := by
  induction got generalizing stack with
  | nil => exact Option.some.inj h
  | cons w rest ih =>
    rw [List.map_cons, List.foldlM_cons] at h
    cases stack with
    | nil => cases h
    | cons top stack =>
      rw [act] at h
      split at h
      · next hsame =>
        rw [hsame, List.cons_append, ← ih h]
      · cases h

/-- As many pops as pushes give the words back in the reverse order. -/
theorem replay_reverse (hlength : got.length = words.length)
    (h : (words.map StackStep.push ++ got.map StackStep.pop).foldlM act [] = some left) :
    got = words.reverse ∧ left = [] := by
  rw [List.foldlM_append, replay_pushes, List.append_nil] at h
  have hall := replay_pops h
  have hcount := congrArg List.length hall
  rw [List.length_reverse, List.length_append, hlength] at hcount
  have hnone : left = [] := List.length_eq_zero_iff.mp (by omega)
  rw [hnone, List.append_nil] at hall
  exact ⟨hall.symm, hnone⟩

end StackStep

/-! ## From instruction to instruction -/

/-- The board goes on from here, whatever is on its pins, and whatever the host does with it. -/
inductive Board.Later (b : Board) : Board → Prop where
  | here : Later b b
  | edge {b' : Board} (h : Later b b') (level : Level) : Later b (b'.edge level).1
  | set {b' : Board} (h : Later b b') (host : InputLevels) (hooks : Hooks)
    (f : Registers → Registers) (bytes : Array Byte) (size : bytes.size = b'.memory.bytes.size) :
    Later b (b'.set host hooks f bytes)

theorem Board.Later.attended {config : BoardConfig} {b b' : Board} (h : b.Later b')
    (hb : Attended config b) : Attended config b' := by
  induction h with
  | here => exact hb
  | edge _ level ih => exact ih.edge level
  | set _ host hooks f bytes size ih =>
    exact ih.set host hooks f bytes (size.trans ih.orderly.fits.size)

/-- An edge on which a chip chooses its next instruction. -/
structure Juncture where
  board : Board
  level : Level
  chip : Core

namespace Juncture

variable {config : BoardConfig} {j t j' : Juncture} {count : Nat} {words : List Word} {w : Word}
  {got : Registers → Word} {rr : Reg16}

/-- The bytes of memory that the instruction begins with. -/
def bytes (j : Juncture) : Array Byte :=
  (j.board.edge j.level).1.memory.bytes

def sp (j : Juncture) : Word :=
  j.chip.regs.sp

/-- The chip makes its choice on a board that is built from this configuration. -/
structure Sound (config : BoardConfig) (j : Juncture) : Prop where
  attended : Attended config j.board
  chooses : j.board.Chooses j.level j.chip

/-- There the instruction is complete, and has led to this chip. -/
structure Turns (j t : Juncture) : Prop where
  executing : Executing j.board j.level t.board
  reset : t.board.host.reset.isAsserted = false
  ended : (t.board.core.edge t.level t.board.inputs).ended = true
  chip : t.chip = (t.board.core.edge t.level t.board.inputs).core

/-- The instruction has been performed then. -/
theorem Turns.performs (h : j.Turns t) (hj : j.Sound config) :
    ∃ e, j.chip.resolveNext.Performs config (fun _ => True) j.bytes e t.bytes
      ∧ e.regs = t.chip.regs ∧ e.instruction = t.chip.instruction := by
  obtain ⟨-, hplays⟩ : _ ∧ (j.board.edge j.level).1.Plays config (fun _ => True) _ _ :=
    hj.attended.orderly.chooses hj.chooses
  obtain ⟨performs, hlogic, hleft⟩ := h.executing.completes (.amid .start hplays) h.reset h.ended
  have hsame {e : Core} (hlogic : (t.board.core.edge t.level t.board.inputs).core.logic = e.logic) :
      e.regs = t.chip.regs ∧ e.instruction = t.chip.instruction := by
    have hregs := congrArg Core.regs hlogic.symm
    have hinstruction := congrArg Core.instruction hlogic.symm
    rw [h.chip]
    exact ⟨hregs, hinstruction⟩
  rw [← hleft] at performs
  exact ⟨_, performs, hsame hlogic⟩

/-- After the one the other follows, at once or later, with SP and so many bytes above it left alone. -/
structure Spares (config : BoardConfig) (count : Nat) (t j : Juncture) : Prop where
  later : j = t ∨ (t.board.edge t.level).1.Later j.board
  chooses : j.board.Chooses j.level j.chip
  sp : j.sp = t.sp
  kept : ∀ i < count, config.byteAt j.bytes (t.sp + i.toUInt16)
    = config.byteAt t.bytes (t.sp + i.toUInt16)

theorem Spares.sound (h : t.Spares config count j') (hturns : j.Turns t) (hj : j.Sound config) :
    j'.Sound config := by
  have ht : Attended config t.board := hturns.executing.attended hj.attended
  refine ⟨?_, h.chooses⟩
  rcases h.later with rfl | hlater
  · exact ht
  · exact hlater.attended (ht.edge t.level)

/-- The words that are on the stack stay there. -/
theorem Spares.keeps (h : t.Spares config (2 * words.length) j) (hkeeps : config.Keeps t.bytes t.sp words) :
    config.Keeps j.bytes j.sp words := by
  rw [h.sp]
  exact hkeeps.congr h.kept

/-- A word has been pushed on the way: its high byte is at the higher address, and everything else is
    as it was. -/
structure Pushed (config : BoardConfig) (w : Word) (j t : Juncture) : Prop where
  sp : t.sp = j.sp - 2
  high : config.byteAt t.bytes (j.sp - 1) = Word.high w
  low : config.byteAt t.bytes (j.sp - 2) = Word.low w
  others : ∀ place, place ≠ config.index (j.sp - 1) → place ≠ config.index (j.sp - 2) →
    t.bytes[place]? = j.bytes[place]?

/-- A pair and the word at SP have changed places on the way, and everything else is as it was. -/
structure Swapped (config : BoardConfig) (rr : Reg16) (j t : Juncture) : Prop where
  regs : ∃ pc r, t.chip.regs = { j.chip.regs.setReg16 (config.wordAt j.bytes j.sp) rr with
    pc, r, wz := config.wordAt j.bytes j.sp }
  sp : t.sp = j.sp
  pair : t.chip.regs.reg16 rr = config.wordAt j.bytes j.sp
  word : config.wordAt t.bytes j.sp = j.chip.regs.reg16 rr
  others : ∀ place, place ≠ config.index j.sp → place ≠ config.index (j.sp + 1) →
    t.bytes[place]? = j.bytes[place]?

theorem Sound.fits (h : j.Sound config) :
    config.validate = .ok () ∧ j.bytes.size = config.memorySize := by
  have hfits := (h.attended.edge j.level).orderly.fits
  exact ⟨hfits.valid, hfits.size⟩

/-- A push moves SP down by two and stores its word, and nothing else. -/
theorem Turns.pushes (h : j.Turns t) (hj : j.Sound config)
    (hpushes : j.chip.Pushes config j.bytes t.chip.instruction w) :
    t.sp = j.sp - 2 ∧ t.bytes = (w.pushes j.sp).foldl config.apply j.bytes := by
  obtain ⟨e, hperforms, hregs, hcompleted⟩ := h.performs hj
  obtain ⟨hsp, hbytes⟩ := hpushes.performs hperforms hcompleted
  exact ⟨(congrArg Registers.sp hregs).symm.trans hsp, hbytes⟩

/-- In RAM the word is there then. -/
theorem Turns.pushed (h : j.Turns t) (hj : j.Sound config)
    (hpushes : j.chip.Pushes config j.bytes t.chip.instruction w)
    (hhigh : config.isRom (config.index (j.sp - 1)) = false)
    (hlow : config.isRom (config.index (j.sp - 2)) = false) : Pushed config w j t := by
  obtain ⟨hsp, hbytes⟩ := h.pushes hj hpushes
  obtain ⟨hvalid, hsize⟩ := hj.fits
  obtain ⟨hhigh', hlow'⟩ := BoardConfig.byteAt_pushes (w := w) hvalid hsize hhigh hlow
  rw [← hbytes] at hhigh' hlow'
  refine ⟨hsp, hhigh', hlow', fun place hother hother' => ?_⟩
  rw [hbytes]
  exact BoardConfig.getElem?_pushes_of_ne hother hother'

/-- A pop moves SP up by two, and takes the word that is there. -/
theorem Turns.pops (h : j.Turns t) (hj : j.Sound config) (hpops : j.chip.Pops config j.bytes got) :
    t.sp = j.sp + 2 ∧ t.bytes = j.bytes ∧ got t.chip.regs = config.wordAt j.bytes j.sp := by
  obtain ⟨e, hperforms, hregs, -⟩ := h.performs hj
  obtain ⟨hsp, hbytes, hword⟩ := hpops.performs hperforms
  rw [hregs] at hsp hword
  exact ⟨hsp, hbytes, hword⟩

/-- EX with the top of the stack swaps a pair with the word at SP. -/
theorem Turns.swaps (h : j.Turns t) (hj : j.Sound config) (hswaps : j.chip.Swaps config j.bytes rr) :
    (∃ pc r, t.chip.regs = { j.chip.regs.setReg16 (config.wordAt j.bytes j.sp) rr with
        pc, r, wz := config.wordAt j.bytes j.sp })
      ∧ rr.isStacked = true
      ∧ t.bytes = ((j.chip.regs.reg16 rr).pushes (j.sp + 2)).foldl config.apply j.bytes := by
  obtain ⟨e, hperforms, hregs, -⟩ := h.performs hj
  obtain ⟨hafter, hstacked, hbytes⟩ := hswaps.performs hperforms
  rw [hregs] at hafter
  exact ⟨hafter, hstacked, hbytes⟩

/-- The pair holds the word then, and SP is where it was. -/
theorem Turns.swaps_pair (h : j.Turns t) (hj : j.Sound config)
    (hswaps : j.chip.Swaps config j.bytes rr) :
    t.chip.regs.reg16 rr = config.wordAt j.bytes j.sp ∧ t.sp = j.sp := by
  obtain ⟨⟨pc, r, hregs⟩, hstacked, -⟩ := h.swaps hj hswaps
  refine ⟨?_, (congrArg Registers.sp hregs).trans (Registers.sp_setReg16 _ _ hstacked)⟩
  rw [hregs, Registers.reg16_moved]
  exact Registers.reg16_setReg16 _ _ _

/-- In RAM the word is the pair then. -/
theorem Turns.swapped (h : j.Turns t) (hj : j.Sound config)
    (hswaps : j.chip.Swaps config j.bytes rr) (hlow : config.isRom (config.index j.sp) = false)
    (hhigh : config.isRom (config.index (j.sp + 1)) = false) : Swapped config rr j t := by
  obtain ⟨hregs, -, hbytes⟩ := h.swaps hj hswaps
  obtain ⟨hpair, hsp⟩ := h.swaps_pair hj hswaps
  obtain ⟨hvalid, hsize⟩ := hj.fits
  have hback : j.sp + 2 - 2 = j.sp := UInt16.add_sub_cancel _ _
  have hnext : j.sp + 2 - 1 = j.sp + 1 := by grind
  refine ⟨hregs, hsp, hpair, ?_, fun place hother hother' => ?_⟩
  · rw [← hnext] at hhigh
    rw [← hback] at hlow
    have hword := BoardConfig.wordAt_pushes (w := j.chip.regs.reg16 rr) hvalid hsize hhigh hlow
    rw [hback, ← hbytes] at hword
    exact hword
  · rw [hbytes]
    refine BoardConfig.getElem?_pushes_of_ne ?_ ?_
    · rw [hnext]
      exact hother'
    · rw [hback]
      exact hother

/-- The same exchange again brings everything back. -/
theorem Swapped.back {t' : Juncture} (h : Swapped config rr j t) (hj : j.Sound config)
    (hbytes : t.bytes = ((j.chip.regs.reg16 rr).pushes (j.sp + 2)).foldl config.apply j.bytes)
    (hlow : config.isRom (config.index j.sp) = false)
    (hhigh : config.isRom (config.index (j.sp + 1)) = false) (hj' : j'.Sound config)
    (hsp : j'.sp = t.sp) (hsame : j'.bytes = t.bytes)
    (hpair : j'.chip.regs.reg16 rr = t.chip.regs.reg16 rr)
    (hswaps : j'.chip.Swaps config j'.bytes rr) (hturns : j'.Turns t') :
    t'.chip.regs.reg16 rr = j.chip.regs.reg16 rr ∧ t'.sp = j.sp ∧ t'.bytes = j.bytes := by
  obtain ⟨-, -, hbytes'⟩ := hturns.swaps hj' hswaps
  obtain ⟨hpair', hsp'⟩ := hturns.swaps_pair hj' hswaps
  obtain ⟨hvalid, hsize⟩ := hj.fits
  have hback : j.sp + 2 - 2 = j.sp := UInt16.add_sub_cancel _ _
  have hnext : j.sp + 2 - 1 = j.sp + 1 := by grind
  rw [hsp, h.sp] at hpair' hsp' hbytes'
  rw [hsame] at hpair' hbytes'
  refine ⟨hpair'.trans h.word, hsp', ?_⟩
  rw [← hnext] at hhigh
  rw [← hback] at hlow
  have hrestores := BoardConfig.pushes_back (w := j.chip.regs.reg16 rr) hvalid hsize hhigh hlow
  rw [hback, ← h.pair, ← hpair, ← hbytes] at hrestores
  exact hbytes'.trans hrestores

end Juncture

/-! ## Runs -/

/-- From the juncture `j₀` on, these pushes and pops have come to this juncture, with so many words on
    the stack, and no more than `n` at any time. -/
inductive Stacking (config : BoardConfig) (n : Nat) (j₀ : Juncture) :
    Nat → List StackStep → Juncture → Prop where
  | start : Stacking config n j₀ 0 [] j₀
  | push {depth : Nat} {steps : List StackStep} {j t j' : Juncture} {w : Word}
    (h : Stacking config n j₀ depth steps j) (room : depth < n) (turns : j.Turns t)
    (pushes : j.chip.Pushes config j.bytes t.chip.instruction w)
    (spares : t.Spares config (2 * (depth + 1)) j') :
    Stacking config n j₀ (depth + 1) (steps ++ [.push w]) j'
  | pop {depth : Nat} {steps : List StackStep} {j t j' : Juncture} {got : Registers → Word}
    (h : Stacking config n j₀ (depth + 1) steps j) (turns : j.Turns t)
    (pops : j.chip.Pops config j.bytes got) (spares : t.Spares config (2 * depth) j') :
    Stacking config n j₀ depth (steps ++ [.pop (got t.chip.regs)]) j'

/-- The words that the steps have left on the stack stand in memory from SP up. -/
structure Stacked (config : BoardConfig) (j₀ : Juncture) (depth : Nat) (steps : List StackStep)
    (j : Juncture) (words : List Word) : Prop where
  sound : j.Sound config
  length : words.length = depth
  replay : steps.foldlM StackStep.act [] = some words
  sp : j.sp = j₀.sp - (2 * depth).toUInt16
  keeps : config.Keeps j.bytes j.sp words

namespace Stacked

variable {config : BoardConfig} {n depth : Nat} {steps : List StackStep} {j₀ j t j' : Juncture}
  {words : List Word} {w : Word} {got : Registers → Word}

theorem push (h : Stacked config j₀ depth steps j words) (hroom : config.Room j₀.sp n)
    (hmore : depth < n) (hturns : j.Turns t)
    (hpushes : j.chip.Pushes config j.bytes t.chip.instruction w)
    (hspares : t.Spares config (2 * (depth + 1)) j') :
    Stacked config j₀ (depth + 1) (steps ++ [.push w]) j' (w :: words) := by
  obtain ⟨hsound, rfl, hreplay, hsp, hkeeps⟩ := h
  obtain ⟨hsp', hbytes⟩ := hturns.pushes hsound hpushes
  obtain ⟨hvalid, hsize⟩ := hsound.fits
  rw [hsp] at hkeeps hbytes hsp'
  have hpushed := hkeeps.push hroom hmore hvalid hsize (w := w)
  rw [← hsp', ← hbytes] at hpushed
  refine ⟨hspares.sound hturns hsound, rfl, ?_, ?_, hspares.keeps hpushed⟩
  · rw [List.foldlM_append, hreplay]
    rfl
  · have hsum : (2 * (words.length + 1)).toUInt16 = (2 * words.length).toUInt16 + 2 :=
      UInt16.ofNat_add (2 * words.length) 2
    rw [hspares.sp, hsp', hsum]
    grind

theorem pop (h : Stacked config j₀ (depth + 1) steps j words) (hturns : j.Turns t)
    (hpops : j.chip.Pops config j.bytes got) (hspares : t.Spares config (2 * depth) j') :
    ∃ rest, Stacked config j₀ depth (steps ++ [.pop (got t.chip.regs)]) j' rest := by
  obtain ⟨hsound, hdepth, hreplay, hsp, hkeeps⟩ := h
  obtain ⟨hsp', hbytes, hgot⟩ := hturns.pops hsound hpops
  cases words with
  | nil => cases hdepth
  | cons w rest =>
    obtain ⟨hword, hrest⟩ := hkeeps
    obtain rfl : rest.length = depth := Nat.succ.inj hdepth
    rw [← hsp', ← hbytes] at hrest
    refine ⟨rest, hspares.sound hturns hsound, rfl, ?_, ?_, hspares.keeps hrest⟩
    · rw [List.foldlM_append, hreplay, hgot, hword]
      simp [StackStep.act]
    · have hsum : (2 * (rest.length + 1)).toUInt16 = (2 * rest.length).toUInt16 + 2 :=
        UInt16.ofNat_add (2 * rest.length) 2
      rw [hspares.sp, hsp', hsp, hsum]
      grind

end Stacked

/-- So it is all along a run.  By induction on its steps. -/
theorem Stacking.stacked {config : BoardConfig} {n depth : Nat} {steps : List StackStep}
    {j₀ j : Juncture} (h : Stacking config n j₀ depth steps j) (hstart : j₀.Sound config)
    (hroom : config.Room j₀.sp n) : ∃ words, Stacked config j₀ depth steps j words := by
  induction h with
  | start => exact ⟨[], hstart, rfl, rfl, (UInt16.sub_zero _).symm, trivial⟩
  | push _ room turns pushes spares ih =>
    obtain ⟨words, hstacked⟩ := ih
    exact ⟨_, hstacked.push hroom room turns pushes spares⟩
  | pop _ turns pops spares ih =>
    obtain ⟨words, hstacked⟩ := ih
    exact hstacked.pop turns pops spares

/-- Last in, first out.  In a run of pushes and pops that has room below SP, the words that have been
    pushed and not been popped stand in memory from SP up, the last one first.  Every push moves SP down
    by two and stores the high byte of its word at the higher address, and every pop moves SP up again
    and takes the last word; one that goes from AF to AF brings back every flag.  So as many pops as
    pushes give the words back in the reverse order, and SP comes back.  EX with the top of the stack
    swaps a pair with the word at SP, and swaps them back when it comes again. -/
theorem Juncture.Sound.last_in_first_out {config : BoardConfig} {j₀ : Juncture} {n : Nat}
    (h : j₀.Sound config) (hroom : config.Room j₀.sp n) :
    (∀ (depth : Nat) (steps : List StackStep) (j : Juncture), Stacking config n j₀ depth steps j →
      ∃ words, Stacked config j₀ depth steps j words
        ∧ (∀ (t : Juncture) (w : Word), j.Turns t →
          j.chip.Pushes config j.bytes t.chip.instruction w → depth < n → Pushed config w j t)
        ∧ ∀ (t : Juncture) (got : Registers → Word), j.Turns t → j.chip.Pops config j.bytes got →
          t.sp = j.sp + 2 ∧ t.bytes = j.bytes ∧ ∀ w ∈ words.head?, got t.chip.regs = w
            ∧ ∀ regs : Registers, w = regs.reg16 .af → (got = fun regs => regs.reg16 .af) →
              t.chip.regs.a = regs.a ∧ t.chip.regs.f = regs.f)
    ∧ (∀ (depth : Nat) (words got : List Word) (j : Juncture),
      Stacking config n j₀ depth (words.map StackStep.push ++ got.map StackStep.pop) j →
        got.length = words.length → got = words.reverse ∧ j.sp = j₀.sp)
    ∧ ∀ (j t : Juncture) (rr : Reg16), j.Sound config → j.chip.Swaps config j.bytes rr →
      config.isRom (config.index j.sp) = false → config.isRom (config.index (j.sp + 1)) = false →
      j.Turns t → Swapped config rr j t
        ∧ ∀ j' t' : Juncture, j'.Sound config → j'.sp = t.sp → j'.bytes = t.bytes →
          j'.chip.regs.reg16 rr = t.chip.regs.reg16 rr → j'.chip.Swaps config j'.bytes rr →
          j'.Turns t' →
            t'.chip.regs.reg16 rr = j.chip.regs.reg16 rr ∧ t'.sp = j.sp ∧ t'.bytes = j.bytes := by
  refine ⟨fun depth steps j hrun => ?_, fun depth words got j hrun hlength => ?_,
    fun j t rr hj hswaps hlow hhigh hturns => ?_⟩
  · obtain ⟨words, hstacked⟩ := hrun.stacked h hroom
    refine ⟨words, hstacked, fun t w hturns hpushes hmore => ?_, fun t got hturns hpops => ?_⟩
    · have hsp := hstacked.sp
      have hsum : (2 * depth + 1).toUInt16 = (2 * depth).toUInt16 + 1 := UInt16.ofNat_add (2 * depth) 1
      refine hturns.pushed hstacked.sound hpushes ?_ ?_
      · rw [hsp, show j₀.sp - (2 * depth).toUInt16 - 1 = j₀.sp - 1 - (2 * depth).toUInt16 by grind]
        exact hroom.ram (2 * depth) (by omega)
      · rw [hsp, show j₀.sp - (2 * depth).toUInt16 - 2 = j₀.sp - 1 - (2 * depth + 1).toUInt16 by
          rw [hsum]; grind]
        exact hroom.ram (2 * depth + 1) (by omega)
    · obtain ⟨hsp, hbytes, hgot⟩ := hturns.pops hstacked.sound hpops
      refine ⟨hsp, hbytes, fun w hw => ?_⟩
      have hkeeps := hstacked.keeps
      cases words with
      | nil => cases hw
      | cons top rest =>
        obtain rfl : top = w := Option.some.inj hw
        have htop : got t.chip.regs = top := hgot.trans hkeeps.1
        refine ⟨htop, fun regs hflags hpair => Registers.flags_of_af ?_⟩
        rw [hpair] at htop
        exact htop.trans hflags
  · obtain ⟨left, hstacked⟩ := hrun.stacked h hroom
    obtain ⟨hreverse, hnone⟩ := StackStep.replay_reverse hlength hstacked.replay
    refine ⟨hreverse, ?_⟩
    have hdepth : depth = 0 := by rw [← hstacked.length, hnone]; rfl
    rw [hstacked.sp, hdepth]
    exact UInt16.sub_zero _
  · have hswapped := hturns.swapped hj hswaps hlow hhigh
    obtain ⟨-, -, hbytes⟩ := hturns.swaps hj hswaps
    exact ⟨hswapped, fun j' t' hj' hsp hsame hpair hswaps' hturns' =>
      hswapped.back hj hbytes hlow hhigh hj' hsp hsame hpair hswaps' hturns'⟩

/-- A board with PUSH BC and POP DE. -/
def stackBoard : Board :=
  smallMachine.board.set {} {} (fun regs => { regs with b := 0x12, c := 0x34, sp := 0x200 })
    (([0xC5, 0xD1] : List Byte) ++ List.replicate 0x3FE 0).toArray

/-- Where its first instruction is chosen. -/
def stackStart : Juncture :=
  { board := stackBoard
    level := .high
    chip := { (stackBoard.core.sampleInputs stackBoard.inputs).leaveReset with phase := .running } }

/-- Where the instruction that is chosen on this edge is complete, after so many edges between. -/
def Juncture.turned (j : Juncture) (levels : List Level) : Option Juncture :=
  ((j.board.edge j.level).1.within levels).map fun b =>
    { board := b, level := .low, chip := (b.core.edge .low b.inputs).core }

/-- An instruction that the chip goes on from. -/
def Juncture.completes (t : Juncture) : Bool :=
  !t.board.host.reset.isAsserted && (t.board.core.edge t.level t.board.inputs).ended
    && !(t.board.edge t.level).1.core.boundaryPending

theorem Juncture.turns_of_turned {j t : Juncture} {levels : List Level}
    (h : j.turned levels = some t) (hover : t.completes = true) :
    j.Turns t ∧ t.board.Chooses t.level t.chip := by
  obtain ⟨b, hwithin, rfl⟩ := Option.map_eq_some_iff.mp h
  simp only [completes, Bool.and_eq_true, Bool.not_eq_true'] at hover
  obtain ⟨⟨hreset, hended⟩, hgoes⟩ := hover
  exact ⟨⟨Executing.first.within hwithin, hreset, hended, rfl⟩, .ended hended hgoes⟩

/-- The chip goes on at once. -/
theorem Juncture.Spares.atOnce {config : BoardConfig} {count : Nat} {t : Juncture}
    (hchooses : t.board.Chooses t.level t.chip) : t.Spares config count t :=
  ⟨Or.inl rfl, hchooses, rfl, fun _ _ => rfl⟩

/-- Each of the two instructions can be chosen, and completed. -/
theorem stackBoard_runs : (stackStart.turned (fallingLevels 20)).any (fun t => t.completes
    && t.chip.resolveNext.fromMemory && smallConfig.byteAt t.bytes t.chip.regs.pc == 0xD1
    && (t.turned ((fallingLevels 20).drop 1)).any Juncture.completes) = true := by
  decide +kernel

/-- DE holds then what BC has been, and SP is where it was. -/
theorem pops_what_is_pushed : ∃ t t', stackStart.Turns t ∧ t.Turns t'
    ∧ Stacking smallConfig 1 stackStart 0
      [.push (stackStart.chip.regs.reg16 .bc), .pop (t'.chip.regs.reg16 .de)] t'
    ∧ t'.chip.regs.reg16 .de = 0x1234 ∧ t'.sp = 0x200 := by
  have hbuilt : Machine.build smallConfig .unattached = .ok smallMachine := rfl
  have hstart : Attended smallConfig smallMachine.board := .start hbuilt (by decide +kernel)
  have hsound : stackStart.Sound smallConfig :=
    ⟨hstart.set _ _ _ _ (by decide +kernel), .started rfl rfl (by decide +kernel)⟩
  have hroom : smallConfig.Room stackStart.sp 1 := by
    refine ⟨?_, ?_⟩ <;> decide +kernel
  have hpicks : stackStart.chip.Picks smallConfig stackStart.bytes 0 .main 0xC5 := by
    have hopcode : smallConfig.byteAt stackStart.bytes stackStart.chip.regs.pc = 0xC5 := by
      decide +kernel
    refine ⟨by decide +kernel, ?_⟩
    rw [← hopcode]
    exact .main (by rw [hopcode]; decide)
  have hpush : (decode .main 0xC5).mnemonic = .push ∧ (decode .main 0xC5).operands = [.reg16 .bc] := by
    decide +kernel
  have hpop : (decode .main 0xD1).mnemonic = .pop ∧ (decode .main 0xD1).operands = [.reg16 .de] := by
    decide +kernel
  obtain ⟨t, hturned, hgoes⟩ := (Option.any_eq_true _ _).mp stackBoard_runs
  simp only [Bool.and_eq_true, beq_iff_eq] at hgoes
  obtain ⟨⟨⟨hover, hmemory⟩, hopcode⟩, hlater⟩ := hgoes
  obtain ⟨t', hturned', hover'⟩ := (Option.any_eq_true _ _).mp hlater
  obtain ⟨hturns, hchooses⟩ := Juncture.turns_of_turned hturned hover
  obtain ⟨hturns', hchooses'⟩ := Juncture.turns_of_turned hturned' hover'
  have hpicks' : t.chip.Picks smallConfig t.bytes 0 .main 0xD1 := by
    refine ⟨hmemory, ?_⟩
    rw [← hopcode]
    exact .main (by rw [hopcode]; decide)
  have hbefore : Stacking smallConfig 1 stackStart 0 [] stackStart := .start
  have hrun := (hbefore.push Nat.one_pos hturns (.pair hpicks hpush.1 hpush.2)
    (.atOnce hchooses)).pop hturns' (.pair hpicks' hpop.1 hpop.2) (.atOnce hchooses')
  obtain ⟨hreverse, hsp⟩ := (hsound.last_in_first_out hroom).2.1 0
    [stackStart.chip.regs.reg16 .bc] [t'.chip.regs.reg16 .de] t' hrun rfl
  refine ⟨t, t', hturns, hturns', hrun, ?_, hsp⟩
  exact (List.cons.inj hreverse).1

end Z80Board
