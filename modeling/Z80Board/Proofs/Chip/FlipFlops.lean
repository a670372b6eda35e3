import Z80Board.Proofs.Chip.Arbitration

/-! # The interrupt flip-flops

    What has come to pass since power-on decides the flip-flops: each instruction that has ended,
    each choice and each reset changes them in its own way, and nothing else does.  So they can be
    replayed from the history alone, whatever the program, the levels and the stops have been, as long
    as the host writes no registers.

    What the replay cannot show is an EI or a DI that has been decoded and has not ended yet: it has
    acted already. -/

namespace Z80Board

/-! ## Replaying the history -/

/-- The flip-flops after an instruction has ended. -/
def Instruction.leavesFlipFlops (code : Option Instruction) (flipFlops : Bool × Bool) :
    Bool × Bool :=
  if performs code .ei then (true, true)
  else if performs code .di then (false, false)
  else if performs code .retn || performs code .reti then (flipFlops.2, flipFlops.2)
  else flipFlops

namespace Happening

/-- What comes to pass sets both flip-flops alike: a reset, an EI, a DI, an RETN or an RETI that has
    ended, or an INT that has been accepted. -/
def settles : Happening → Bool
  | .sampled inputs => inputs.reset.isAsserted
  | .ended code => Instruction.performs code .ei || Instruction.performs code .di
    || Instruction.performs code .retn || Instruction.performs code .reti
  | .chose origin => origin.interrupts && origin != .internal .nmi

/-- An NMI has been accepted. -/
def acceptsNmi : Happening → Bool
  | .chose origin => origin == .internal .nmi
  | _ => false

/-- The flip-flops after it, from those before. -/
def flipFlops : Happening → Bool × Bool → Bool × Bool
  | .sampled inputs, before => if inputs.reset.isAsserted then (false, false) else before
  | .ended code, before => Instruction.leavesFlipFlops code before
  | .chose origin, before =>
    if origin = .internal .nmi then (false, before.2)
    else if origin.interrupts then (false, false)
    else before

end Happening

namespace History

/-- The flip-flops, replayed.  They are clear at power-on. -/
def flipFlops (history : History) : Bool × Bool :=
  history.foldr Happening.flipFlops (false, false)

/-- An NMI has been accepted since both flip-flops were set alike. -/
def nmiSince : History → Bool
  | [] => false
  | happening :: earlier => happening.acceptsNmi || !happening.settles && nmiSince earlier

end History

namespace Happening

variable {happening : Happening} {before : Bool × Bool}

/-- What settles the flip-flops sets both alike. -/
theorem flipFlops_of_settles (h : happening.settles = true) :
    (happening.flipFlops before).1 = (happening.flipFlops before).2 := by
  cases happening with
  | sampled inputs =>
    have hreset : inputs.reset.isAsserted = true := h
    rw [flipFlops, if_pos hreset]
  | ended code =>
    rw [flipFlops, Instruction.leavesFlipFlops]
    simp only [settles, Bool.or_eq_true] at h
    split
    · rfl
    split
    · rfl
    · rw [if_pos]
      simp_all
  | chose origin =>
    simp only [settles, Bool.and_eq_true, bne_iff_ne] at h
    rw [flipFlops, if_neg h.2, if_pos h.1]

/-- Anything else lets them be, but for an NMI, which clears the first one. -/
theorem flipFlops_of_not_settles (h : happening.settles = false) :
    happening.flipFlops before = if happening.acceptsNmi then (false, before.2) else before := by
  cases happening with
  | sampled inputs =>
    have hreset : inputs.reset.isAsserted = false := h
    rw [flipFlops, if_neg (Bool.eq_false_iff.mp hreset)]
    rfl
  | ended code =>
    simp only [settles, Bool.or_eq_false_iff] at h
    obtain ⟨⟨⟨hei, hdi⟩, hretn⟩, hreti⟩ := h
    rw [flipFlops, Instruction.leavesFlipFlops, hei, hdi, hretn, hreti]
    rfl
  | chose origin =>
    rw [flipFlops, acceptsNmi]
    by_cases hnmi : origin = .internal .nmi
    · rw [if_pos hnmi, if_pos (beq_iff_eq.mpr hnmi)]
    · have hquiet : origin.interrupts = false := by
        simpa [settles, hnmi] using h
      rw [if_neg hnmi, hquiet, if_neg (fun heq => hnmi (beq_iff_eq.mp heq))]
      rfl

end Happening

namespace History

theorem flipFlops_cons (happening : Happening) (earlier : History) :
    flipFlops (happening :: earlier) = happening.flipFlops earlier.flipFlops := rfl

/-- The first flip-flop is never set alone. -/
theorem flipFlops_ordered (history : History) :
    history.flipFlops.1 = true → history.flipFlops.2 = true := by
  induction history with
  | nil => exact nofun
  | cons happening earlier ih =>
    rw [flipFlops_cons]
    cases hsettles : happening.settles with
    | true =>
      rw [Happening.flipFlops_of_settles hsettles]
      exact id
    | false =>
      rw [Happening.flipFlops_of_not_settles hsettles]
      split
      · exact nofun
      · exact ih

/-- They are set apart by an NMI only. -/
theorem nmiSince_of_apart (history : History) (h : history.flipFlops.1 ≠ history.flipFlops.2) :
    history.nmiSince = true := by
  induction history with
  | nil => exact absurd rfl h
  | cons happening earlier ih =>
    rw [flipFlops_cons] at h
    rw [nmiSince]
    cases hsettles : happening.settles with
    | true => exact absurd (Happening.flipFlops_of_settles hsettles) h
    | false =>
      rw [Happening.flipFlops_of_not_settles hsettles] at h
      cases haccepts : happening.acceptsNmi with
      | true => rfl
      | false =>
        rw [haccepts, if_neg Bool.false_ne_true] at h
        exact ih h

/-- As long as nothing settles them, the second one stays as it is. -/
theorem flipFlops_unsettled (later earlier : History)
    (h : ∀ happening ∈ later, happening.settles = false) :
    (flipFlops (later ++ earlier)).2 = earlier.flipFlops.2 := by
  induction later with
  | nil => rfl
  | cons happening later ih =>
    have hrest := ih fun other hother => h other (List.mem_cons_of_mem _ hother)
    rw [List.cons_append, flipFlops_cons, Happening.flipFlops_of_not_settles (h happening (List.mem_cons_self ..))]
    split <;> exact hrest

end History

/-! ## The flip-flops of the chip -/

/-- The mode is one of the three there are. -/
def IsMode (mode : Byte) : Prop :=
  mode = 0 ∨ mode = 1 ∨ mode = 2

instance (mode : Byte) : Decidable (IsMode mode) :=
  inferInstanceAs (Decidable (_ ∨ _))

/-- What the flip-flops need of an instruction: its mode is one that there is, and if it restores the
    first flip-flop, then after its last cycle, which has no like among the others. -/
structure Instruction.Proper (code : Instruction) : Prop where
  mode : code.mnemonic = .im → ∀ mode, code.operands[0]? = some (.mode mode) → IsMode mode
  restores : code.mnemonic = .reti ∨ code.mnemonic = .retn → ∀ met, ∃ front last,
    code.timing.cycles met = front ++ [last] ∧ last.kind = .stackReadHigh
      ∧ ∀ cycle ∈ front, cycle.kind ≠ .stackReadHigh

/-- The test for the cycles of an instruction that restores the first flip-flop. -/
def Timings.endsWithPop (t : Timings) (met : Bool) : Bool :=
  (t.cycles met).getLast?.any (fun cycle => cycle.kind == .stackReadHigh)
    && (t.cycles met).dropLast.all fun cycle => cycle.kind != .stackReadHigh

theorem Timings.endsWithPop_eq {t : Timings} {met : Bool} (h : t.endsWithPop met = true) :
    ∃ front last, t.cycles met = front ++ [last] ∧ last.kind = .stackReadHigh
      ∧ ∀ cycle ∈ front, cycle.kind ≠ .stackReadHigh := by
  simp only [endsWithPop, Bool.and_eq_true, List.all_eq_true, bne_iff_ne] at h
  obtain ⟨hlast, hfront⟩ := h
  rcases List.eq_nil_or_concat (t.cycles met) with hnil | ⟨front, last, hcycles⟩
  · rw [hnil] at hlast
    exact nomatch hlast
  · rw [hcycles, List.concat_eq_append] at hlast hfront
    rw [List.getLast?_concat] at hlast
    rw [List.dropLast_concat] at hfront
    exact ⟨front, last, hcycles.trans (List.concat_eq_append ..), eq_of_beq hlast, hfront⟩

/-- The operand names no mode, or one that there is. -/
def Operand.modeFits : Operand → Bool
  | .mode m => IsMode m
  | _ => true

/-- Every instruction of a page is proper. -/
theorem Listing.Entitled.proper {page : Page} {code : Instruction}
    (h : Listing.Entitled Catalog.forms page code) : code.Proper := by
  have hmodes : ∀ p ∈ Catalog.forms, p.1 = .im → ∀ encoding ∈ p.2.encodings,
      encoding.2[0]?.all Operand.modeFits = true := by
    decide +kernel
  have hpops : ∀ p ∈ Catalog.forms, p.1 = .reti ∨ p.1 = .retn → ∀ met,
      p.2.timing.endsWithPop met = true := by
    decide +kernel
  obtain ⟨m, f, hf, -, hcode⟩ := h
  obtain ⟨opcode, hmem⟩ := hcode.operands
  refine ⟨fun him mode hmode => ?_, fun hrestores met => ?_⟩
  · have hfits := hmodes (m, f) hf (hcode.mnemonic ▸ him) _ hmem
    rw [hmode] at hfits
    exact of_decide_eq_true hfits
  · rw [hcode.timing]
    exact Timings.endsWithPop_eq (hpops (m, f) hf (hcode.mnemonic ▸ hrestores) met)

/-- So is every operation of the chip itself, which neither sets a mode nor restores anything. -/
theorem proper_internal (op : InternalOp) : (decoder.internal op).Proper := by
  have hall : ∀ p ∈ Catalog.internalOps, p.1 ≠ .im ∧ p.1 ≠ .reti ∧ p.1 ≠ .retn := by
    decide
  obtain ⟨p, hp, hmnemonic, -, -⟩ := internal_listed op
  obtain ⟨him, hreti, hretn⟩ := hall p hp
  refine ⟨fun h => absurd (hmnemonic.symm.trans h) him, fun h => ?_⟩
  rcases h with h | h
  · exact absurd (hmnemonic.symm.trans h) hreti
  · exact absurd (hmnemonic.symm.trans h) hretn

namespace Instruction

/-- What an instruction in progress has done to the flip-flops already: an EI and a DI act when they
    are decoded. -/
def early (code : Option Instruction) (flipFlops : Bool × Bool) : Bool × Bool :=
  if performs code .ei then (true, true)
  else if performs code .di then (false, false)
  else flipFlops

variable {code : Instruction} {flipFlops : Bool × Bool}

/-- At decode, an instruction does what it does early. -/
theorem switchesTo_decoded : code.switchesTo .decoded flipFlops = early (some code) flipFlops := by
  rw [switchesTo, early, performs, performs, Option.any_some, Option.any_some]
  cases code.mnemonic <;> rfl

theorem early_early (code : Option Instruction) :
    early code (early code flipFlops) = early code flipFlops := by
  simp only [early]
  split
  · rfl
  split <;> rfl

/-- The end of an instruction adds nothing to that, but for a return that restores. -/
theorem leaves_eq_early (h : code.mnemonic ≠ .reti ∧ code.mnemonic ≠ .retn) :
    leavesFlipFlops (some code) flipFlops = early (some code) flipFlops := by
  have hneither : (performs (some code) .retn || performs (some code) .reti) = false := by
    simp only [performs, Option.any_some, Bool.or_eq_false_iff, beq_eq_false_iff_ne]
    exact ⟨h.2, h.1⟩
  rw [leavesFlipFlops, hneither, if_neg Bool.false_ne_true]
  rfl

/-- An RETN restores the first flip-flop from the second. -/
theorem leaves_of_retn {code : Option Instruction} (h : performs code .retn = true) :
    leavesFlipFlops code flipFlops = (flipFlops.2, flipFlops.2) := by
  cases code with
  | none => exact nomatch h
  | some code =>
    have hm : code.mnemonic = .retn := eq_of_beq h
    simp [leavesFlipFlops, performs, hm]

/-- What an instruction has left it does not change any more. -/
theorem early_leaves {code : Option Instruction} :
    early code (leavesFlipFlops code flipFlops) = leavesFlipFlops code flipFlops := by
  simp only [early, leavesFlipFlops]
  split
  · rfl
  split <;> rfl

/-- After a cycle, only a return that has read the upper byte does something to them. -/
theorem switchesTo_after (kind : CycleKind) :
    code.switchesTo (.after kind) (early (some code) flipFlops)
      = if kind = .stackReadHigh then leavesFlipFlops (some code) flipFlops
        else early (some code) flipFlops := by
  by_cases hrestores : code.mnemonic = .reti ∨ code.mnemonic = .retn
  · have hearly : early (some code) flipFlops = flipFlops := by
      rcases hrestores with h | h <;> simp [early, performs, h]
    have hleaves : leavesFlipFlops (some code) flipFlops = (flipFlops.2, flipFlops.2) := by
      rcases hrestores with h | h <;> simp [leavesFlipFlops, performs, h]
    rw [hearly, hleaves, switchesTo]
    by_cases hkind : kind = .stackReadHigh
    · rcases hrestores with h | h <;> rw [h, hkind] <;> rfl
    · rw [if_neg hkind]
      rcases hrestores with h | h <;> rw [h] <;> exact if_neg fun hpoint => hkind (by cases hpoint; rfl)
  · rw [leaves_eq_early (not_or.mp hrestores), ite_self]
    rw [switchesTo]
    cases hm : code.mnemonic
    case reti => exact absurd (Or.inl hm) hrestores
    case retn => exact absurd (Or.inr hm) hrestores
    all_goals rfl

end Instruction

/-- What the chip performs by itself does nothing early. -/
theorem Origin.early_own (origin : Origin) (flipFlops : Bool × Bool) :
    Instruction.early origin.own flipFlops = flipFlops := by
  have hall : ∀ p ∈ Catalog.internalOps, (p.1 == .ei) = false ∧ (p.1 == .di) = false := by
    decide
  cases origin with
  | internal op =>
    obtain ⟨p, hp, hmnemonic, -, -⟩ := internal_listed op
    obtain ⟨hei, hdi⟩ := hall p hp
    rw [own, Instruction.early, Instruction.performs, Instruction.performs, Option.any_some,
      Option.any_some, hmnemonic, hei, hdi]
    rfl
  | memory | device | none => rfl

theorem Origin.proper_own (origin : Origin) (code : Instruction) (h : origin.own = some code) :
    code.Proper := by
  cases origin with
  | internal op => exact Option.some.inj h ▸ proper_internal op
  | memory | device | none => exact nomatch h

/-- The imprint is what the replayed flip-flops say, as long as the instruction has not ended. -/
structure Imprint.Follows (i : Imprint) (replayed : Bool × Bool) : Prop where
  proper : ∀ code, i.instruction = some code → code.Proper
  flipFlops : i.flipFlops = Instruction.early i.instruction replayed
  mode : IsMode i.mode

/-- A proper instruction sets no other mode than one that there is. -/
theorem Instruction.Proper.selects {code : Instruction} (h : code.Proper) (point : ExecPoint)
    {mode : Byte} (hmode : IsMode mode) : IsMode (code.selects point mode) := by
  rw [Instruction.selects]
  split
  · next him =>
    split
    · next m hfirst =>
      split
      · exact h.mode him m hfirst
      · exact hmode
    · exact hmode
  · exact hmode

/-- It goes on saying so in every half-period. -/
theorem Imprint.holds_follows (replayed : Bool × Bool) :
    Imprint.Holds fun i => i.Follows replayed where
  acts i code hcode h := by
    refine ⟨h.proper, ?_, (h.proper code hcode).selects _ h.mode⟩
    show code.switchesTo .decoded i.flipFlops = Instruction.early i.instruction replayed
    rw [Instruction.switchesTo_decoded, h.flipFlops, hcode, Instruction.early_early]
  begins i page code hnone hentitled h := by
    have hproper := hentitled.proper
    refine ⟨fun other hother => Option.some.inj hother ▸ hproper, ?_, hproper.selects _ h.mode⟩
    show code.switchesTo .decoded i.flipFlops = Instruction.early (some code) replayed
    rw [Instruction.switchesTo_decoded, h.flipFlops, hnone]
    rfl

namespace Core

variable {c k : Core} {replayed : Bool × Bool}

/-- Only the last cycle of a return that restores reads the upper byte from the stack. -/
theorem Closes.pops (h : c.Closes) {code : Instruction} (hcode : c.instruction = some code)
    (hproper : code.Proper) (hrestores : code.mnemonic = .reti ∨ code.mnemonic = .retn) :
    c.cycle.kind = .stackReadHigh ↔ c.latchResult.nextCycle.2 = true := by
  have hkept : c.latchResult.nextCycle.1.instruction = some code := by
    have hnext := congrArg Imprint.instruction c.latchResult.imprint_nextCycle
    refine hnext.trans (Eq.trans ?_ hcode)
    rcases c.imprint_latchResult with ⟨-, hlatched⟩ | ⟨_, -, hlatched⟩ <;>
      exact congrArg Imprint.instruction hlatched
  rcases h.next with hgoes | ⟨hend, other, hother, -, hran⟩
  · -- another cycle follows, so that this one is not the last
    obtain ⟨hcycles, -⟩ := hgoes.course.scheduled code hkept
    obtain ⟨front, last, hall, -, hfront⟩ := hproper.restores hrestores
      c.latchResult.nextCycle.1.conditionMet
    have hplan : c.latchResult.nextCycle.1.plan = front ++ [last] := by
      rw [plan, hkept]
      exact hcycles.trans hall
    have hplace := hgoes.course.current
    have hran := hgoes.ran
    rw [ran, hplan] at hran
    rw [hplan] at hplace
    have hshort : c.latchResult.nextCycle.1.position ≤ front.length := by
      have := (List.getElem?_eq_some_iff.mp hplace).1
      rw [List.length_append, List.length_singleton] at this
      omega
    rw [List.take_append_of_le_length hshort] at hran
    have hmem : ⟨c.cycle.kind, c.cycle.length⟩ ∈ front :=
      List.mem_of_mem_take (hran ▸ List.mem_append_right _ (List.mem_singleton_self _))
    exact iff_of_false (hfront _ hmem) (Bool.eq_false_iff.mp hgoes.more)
  · obtain rfl := Option.some.inj (hother.symm.trans hkept)
    obtain ⟨front, last, hall, hlast, -⟩ := hproper.restores hrestores
      c.latchResult.nextCycle.1.conditionMet
    obtain ⟨-, hsame⟩ := List.append_inj' (hran.trans hall) rfl
    rw [← List.singleton_inj.mp hsame] at hlast
    exact iff_of_true hlast hend

/-- The imprint at the end of a cycle of a known instruction. -/
theorem follows_latchResult {code : Instruction} (hcode : c.instruction = some code)
    (hfollows : c.imprint.Follows replayed) :
    c.latchResult.imprint.instruction = some code ∧ IsMode c.latchResult.imprint.mode
      ∧ c.latchResult.imprint.flipFlops
        = if c.cycle.kind = .stackReadHigh then Instruction.leavesFlipFlops (some code) replayed
          else Instruction.early (some code) replayed := by
  have hbefore : c.imprint.flipFlops = Instruction.early (some code) replayed :=
    hcode ▸ hfollows.flipFlops
  rcases c.imprint_latchResult with ⟨hkind, hkept⟩ | ⟨other, hother, hacted⟩
  · rw [hkept, if_neg]
    · exact ⟨hcode, hfollows.mode, hbefore⟩
    · intro hpops
      rw [hpops, hcode] at hkind
      rcases hkind with hkind | hkind | hkind <;> exact nomatch hkind
  · obtain rfl := Option.some.inj (hcode.symm.trans hother)
    rw [hacted]
    refine ⟨hcode, (hfollows.proper code hcode).selects _ hfollows.mode, ?_⟩
    show code.switchesTo _ c.imprint.flipFlops = _
    rw [hbefore, Instruction.switchesTo_after]

/-- The end of a cycle: an instruction that goes on follows as before, and one that has ended has
    left the flip-flops as it leaves them. -/
theorem Closes.follows (h : c.Closes) (hfollows : c.imprint.Follows replayed) :
    c.latchResult.nextCycle.1.imprint.Follows
      (if c.latchResult.nextCycle.2 then
        Instruction.leavesFlipFlops c.latchResult.nextCycle.1.instruction replayed
      else replayed) := by
  have hsame : c.latchResult.nextCycle.1.instruction = c.latchResult.instruction :=
    congrArg Imprint.instruction c.latchResult.imprint_nextCycle
  rw [imprint_nextCycle, hsame]
  cases hcode : c.instruction with
  | none =>
    -- an instruction that is not known does not end
    have hnone : c.latchResult.imprint = c.imprint := by
      rcases c.imprint_latchResult with ⟨-, hkept⟩ | ⟨code, hother, -⟩
      · exact hkept
      · exact nomatch hcode.symm.trans hother
    have hgoes : c.latchResult.nextCycle.2 = false := by
      rcases h.next with hgoes | ⟨-, code, hother, -⟩
      · exact hgoes.more
      · have hunknown := hsame.trans ((congrArg Imprint.instruction hnone).trans hcode)
        exact nomatch hunknown.symm.trans hother
    rw [hgoes, if_neg Bool.false_ne_true, hnone]
    exact hfollows
  | some code =>
    have hproper := hfollows.proper code hcode
    obtain ⟨hinstruction, hmode, hflipFlops⟩ := follows_latchResult hcode hfollows
    have hinstruction : c.latchResult.instruction = some code := hinstruction
    refine ⟨fun other hother => ?_, ?_, hmode⟩
    · exact Option.some.inj (hinstruction.symm.trans hother) ▸ hproper
    · rw [hflipFlops]
      show _ = Instruction.early c.latchResult.instruction _
      rw [hinstruction]
      by_cases hrestores : code.mnemonic = .reti ∨ code.mnemonic = .retn
      · simp only [h.pops hcode hproper hrestores]
        split
        · exact Instruction.early_leaves.symm
        · rfl
      · rw [Instruction.leaves_eq_early (not_or.mp hrestores), ite_self]
        split
        · exact (Instruction.early_early _).symm
        · rfl

/-! ## The choice -/

/-- Choosing the next instruction changes the flip-flops as its origin tells. -/
theorem resolveNext_masks (c : Core) :
    c.resolveNext.regs = c.resolveNext.origin.masks c.regs
      ∧ c.resolveNext.instruction = c.resolveNext.origin.own := by
  have hleft : c.cleared.leaveHalt.regs = c.regs := by
    rw [leaveHalt]
    split <;> rfl
  have hnone : c.cleared.leaveHalt.instruction = none := by
    rw [leaveHalt]
    split <;> rfl
  rw [resolveNext_eq]
  split
  · rw [acceptNmi_eq]
    refine ⟨?_, rfl⟩
    show ({ c.cleared.leaveHalt.regs with iff1 := false } : Registers) = _
    rw [hleft]
    rfl
  split
  · have hcut : ({ c.cleared.leaveHalt.regs with iff1 := false, iff2 := false } : Registers)
        = { c.regs with iff1 := false, iff2 := false } := by rw [hleft]
    rw [acceptInt_eq]
    split
    · exact ⟨hcut, hnone⟩
    split <;> exact ⟨hcut, rfl⟩
  split <;> exact ⟨rfl, rfl⟩

theorem follows_resolveNext (hflipFlops : c.regs.flipFlops = replayed) (hmode : IsMode c.regs.im) :
    c.resolveNext.imprint.Follows ((Happening.chose c.resolveNext.origin).flipFlops replayed)
      ∧ c.resolveNext.regs.flipFlops
        = (Happening.chose c.resolveNext.origin).flipFlops replayed := by
  obtain ⟨hregs, hown⟩ := c.resolveNext_masks
  generalize c.resolveNext = k at hregs hown ⊢
  generalize k.origin = origin at hregs hown ⊢
  have hmasked : k.regs.flipFlops = (Happening.chose origin).flipFlops replayed := by
    rw [hregs, ← hflipFlops]
    cases origin with
    | internal op => cases op <;> rfl
    | memory | device | none => rfl
  have hsame : k.regs.im = c.regs.im := by
    rw [hregs]
    cases origin with
    | internal op => cases op <;> rfl
    | memory | device | none => rfl
  refine ⟨⟨fun code hcode => ?_, hmasked.trans ?_, ?_⟩, hmasked⟩
  · exact origin.proper_own code (hown.symm.trans hcode)
  · show _ = Instruction.early k.instruction _
    rw [hown, origin.early_own]
  · show IsMode k.regs.im
    rw [hsame]
    exact hmode

end Core

/-! ## Runs -/

deriving instance DecidableEq for Happening

/-- Something that has come to pass, with the registers at that point. -/
structure Record where
  happening : Happening
  regs : Registers
deriving DecidableEq

/-- What has come to pass, newest first. -/
abbrev Journal := List Record

namespace Journal

/-- The history that the journal tells. -/
def history (journal : Journal) : History :=
  journal.map Record.happening

/-- The journal with an event. -/
def note (journal : Journal) (e : Emission) : Journal :=
  match e.event with
  | .instructionEnd => ⟨.ended e.core.instruction, e.core.regs⟩ :: journal
  | .instructionStart => ⟨.chose e.core.origin, e.core.regs⟩ :: journal
  | _ => journal

/-- The journal after an edge of the chip. -/
def edge (journal : Journal) (c : Core) (level : Level) (inputs : InputLevels)
    (stopping : Bool) : Journal :=
  ((c.edge level inputs).emitted ++ ((c.edge level inputs).finish stopping).2).foldl note
    (⟨.sampled inputs, c.regs⟩ :: journal)

end Journal

/-- The registers of a record are what the history before it asks for: those at the end of an
    instruction, and those right before a choice. -/
def Record.Fits (record : Record) (earlier : Journal) : Prop :=
  match record.happening with
  | .sampled _ => True
  | .ended code =>
    record.regs.flipFlops = Instruction.leavesFlipFlops code earlier.history.flipFlops
  | .chose _ => ∀ last rest, earlier = last :: rest →
    last.regs.flipFlops = earlier.history.flipFlops

namespace Journal

/-- So are those of every record. -/
def Truthful (journal : Journal) : Prop :=
  ∀ later record earlier, journal = later ++ record :: earlier → record.Fits earlier

theorem Truthful.cons {journal : Journal} {record : Record} (h : Truthful journal)
    (fits : record.Fits journal) : Truthful (record :: journal) := by
  intro later other earlier heq
  rcases List.cons_eq_append_iff.mp heq with ⟨rfl, hhere⟩ | ⟨rest, rfl, hrest⟩
  · cases hhere
    exact fits
  · exact h rest other earlier hrest

/-- A return from an NMI sets both flip-flops as they were when it was accepted, if both were alike
    then and nothing has settled them since. -/
theorem Truthful.returns {journal later middle earlier : Journal} {returned accepted last : Record}
    {code : Option Instruction} {x : Bool} (h : Truthful journal)
    (hjournal : journal = later ++ returned :: middle ++ accepted :: last :: earlier)
    (haccepted : accepted.happening = .chose (.internal .nmi))
    (hlast : last.regs.flipFlops = (x, x))
    (hmiddle : ∀ record ∈ middle, record.happening.settles = false)
    (hreturned : returned.happening = .ended code)
    (hretn : Instruction.performs code .retn = true) :
    returned.regs.flipFlops = (x, x) := by
  have hfits := h later returned (middle ++ accepted :: last :: earlier) (by
    rw [hjournal, List.append_assoc, List.cons_append])
  have hbefore := h (later ++ returned :: middle) accepted (last :: earlier) hjournal
  rw [Record.Fits, hreturned] at hfits
  rw [Record.Fits, haccepted] at hbefore
  have hbefore : last.regs.flipFlops = (history (last :: earlier)).flipFlops := hbefore _ _ rfl
  -- from the choice on the second flip-flop has stayed as it was
  have hsecond : (history (middle ++ accepted :: last :: earlier)).flipFlops.2 = x := by
    rw [history, List.map_append]
    refine (History.flipFlops_unsettled _ _ fun happening hmem => ?_).trans ?_
    · obtain ⟨record, hrecord, rfl⟩ := List.mem_map.mp hmem
      exact hmiddle record hrecord
    · rw [List.map_cons, History.flipFlops_cons, haccepted]
      show (history (last :: earlier)).flipFlops.2 = x
      rw [← hbefore, hlast]
  have hfits : returned.regs.flipFlops = Instruction.leavesFlipFlops code _ := hfits
  rw [hfits, Instruction.leaves_of_retn hretn, hsecond]

end Journal

/-- A run of the chip from power-on with its journal, on which nobody writes the registers.  Between
    edges anybody may drive the data bus. -/
inductive Unwritten : Core → Journal → Prop where
  | powerOn (address : Bus Word) (data : Bus Byte) : Unwritten (Core.powerOn address data) []
  | edge {c : Core} {journal : Journal} (h : Unwritten c journal) (level : Level)
    (inputs : InputLevels) (stopping : Bool) :
    Unwritten ((c.edge level inputs).finish stopping).1 (journal.edge c level inputs stopping)
  | data {c : Core} {journal : Journal} (h : Unwritten c journal) (data : Bus Byte) :
    Unwritten { c with data } journal

namespace Core

variable {c k : Core} {journal : Journal}

/-- What is known of the chip between edges, given the journal. -/
structure Governed (c : Core) (journal : Journal) : Prop where
  follows : c.imprint.Follows journal.history.flipFlops
  settled : c.phase = .powerOn ∨ c.phase = .reset ∨ c.boundaryPending = true →
    c.regs.flipFlops = journal.history.flipFlops
  truthful : journal.Truthful

/-- A choice is noted. -/
theorem governed_resolveNext {last : Record} (h : Journal.Truthful (last :: journal))
    (hlast : last.regs.flipFlops = (Journal.history (last :: journal)).flipFlops)
    (hc : c.regs.flipFlops = (Journal.history (last :: journal)).flipFlops)
    (hmode : IsMode c.regs.im) :
    c.resolveNext.Governed (Journal.note (last :: journal) ⟨.instructionStart, c.resolveNext⟩) := by
  obtain ⟨hfollows, hafter⟩ := follows_resolveNext hc hmode
  exact ⟨hfollows, fun _ => hafter, h.cons fun _ _ heq => by cases heq; exact hlast⟩

/-- A chip amid its instruction that follows the journal is governed by it. -/
theorem governed_of_chosen (hphase : c.phase = .running ∨ c.phase = .busReleased)
    (hchosen : c.boundaryPending = false) (hfollows : c.imprint.Follows journal.history.flipFlops)
    (htruthful : journal.Truthful) : c.Governed journal := by
  refine ⟨hfollows, ?_, htruthful⟩
  rintro (hpower | hreset | hpending)
  · rw [hpower] at hphase
    exact nomatch hphase
  · rw [hreset] at hphase
    exact nomatch hphase
  · exact nomatch hchosen.symm.trans hpending

/-- A half-period, and what ends with it, keep to the journal. -/
theorem Underway.governed {emitted : List Emission} (hunderway : c.Underway)
    (hphase : c.phase = .running) (hchosen : c.boundaryPending = false)
    (h : c.Governed (emitted.foldl Journal.note journal)) (stopping : Bool) :
    ((c.runEdge emitted).finish stopping).1.Governed
      (((c.runEdge emitted).emitted ++ ((c.runEdge emitted).finish stopping).2).foldl
        Journal.note journal) := by
  have hran := (Imprint.holds_follows _).runHalf hunderway h.follows
  rw [runEdge_eq]
  rcases hunderway.runHalf with ⟨hmore, -⟩ | ⟨hlast, hcloses, -⟩
  · rw [if_neg (Bool.eq_false_iff.mp hmore)]
    show c.runHalf.1.Governed ((emitted ++ [_]).foldl Journal.note journal)
    rw [List.foldl_append]
    exact governed_of_chosen (Or.inl (steady_runHalf.phase.trans hphase))
      (steady_runHalf.pending.trans hchosen) hran h.truthful
  · have hsteady := steady_runHalf.trans ((steady_latchResult (c := c.runHalf.1)).trans
      (steady_nextCycle _))
    have hclosed := hcloses.follows hran
    rw [if_pos hlast, endCycle_eq]
    cases hend : c.runHalf.1.latchResult.nextCycle.2 with
    | false =>
      rw [hend, if_neg Bool.false_ne_true] at hclosed
      rw [if_neg Bool.false_ne_true]
      show c.runHalf.1.latchResult.nextCycle.1.Governed
        (((emitted ++ [_]) ++ [_]).foldl Journal.note journal)
      rw [List.foldl_append, List.foldl_append]
      exact governed_of_chosen (Or.inl (hsteady.phase.trans hphase))
        (hsteady.pending.trans hchosen) hclosed h.truthful
    | true =>
      rw [hend, if_pos rfl] at hclosed
      rw [if_pos rfl]
      generalize c.runHalf.1.latchResult.nextCycle.1 = d at hclosed
      have hleft : d.regs.flipFlops = Instruction.leavesFlipFlops d.instruction _ :=
        hclosed.flipFlops.trans Instruction.early_leaves
      have hended : Journal.Truthful (⟨.ended d.instruction, d.regs⟩ ::
          emitted.foldl Journal.note journal) := h.truthful.cons hleft
      cases stopping with
      | true =>
        show Governed _ ((((emitted ++ [_]) ++ [_]) ++ [_]).foldl Journal.note journal)
        rw [List.append_assoc, List.append_assoc, List.foldl_append]
        exact ⟨hclosed, fun _ => hleft, hended⟩
      | false =>
        show Governed _ ((((emitted ++ [_]) ++ [_]) ++ [_, _]).foldl Journal.note journal)
        rw [List.append_assoc, List.append_assoc, List.foldl_append]
        exact governed_resolveNext (c := d.complete) hended hleft hleft hclosed.mode

/-- An edge without a reset is noted. -/
theorem Governed.sampled {inputs : InputLevels} (h : c.Governed journal)
    (hinputs : inputs.reset.isAsserted = false) (regs : Registers) :
    c.Governed (⟨.sampled inputs, regs⟩ :: journal) := by
  have hkept : (Journal.history (⟨.sampled inputs, regs⟩ :: journal)).flipFlops
      = journal.history.flipFlops := by
    rw [Journal.history, List.map_cons, History.flipFlops_cons, Happening.flipFlops,
      if_neg (Bool.eq_false_iff.mp hinputs)]
    rfl
  exact ⟨hkept ▸ h.follows, fun hwaits => (h.settled hwaits).trans hkept.symm,
    h.truthful.cons trivial⟩

/-- A chip that is made ready keeps to the journal, and so does the choice that it may have made. -/
theorem Readied.governed {emitted : List Emission} {last : Record} (hready : c.Readied k emitted)
    (h : c.Governed (last :: journal)) (hlast : last.regs = c.regs) :
    k.Governed (emitted.foldl Journal.note (last :: journal)) := by
  have chooses {d : Core} (hd : d.regs = c.regs)
      (hsettled : c.regs.flipFlops = (Journal.history (last :: journal)).flipFlops) :
      d.resolveNext.Governed ([⟨.instructionStart, d.resolveNext⟩].foldl Journal.note
        (last :: journal)) := by
    refine governed_resolveNext h.truthful ?_ ?_ ?_
    · rw [← hsettled, hlast]
    · rw [← hsettled, hd]
    · rw [hd]
      exact h.follows.mode
  cases hready with
  | running phase chosen => exact h
  | returned phase chosen =>
    exact governed_of_chosen (c := c.returnBus) (Or.inl rfl) chosen h.follows h.truthful
  | started phase running =>
    subst running
    exact chooses rfl (h.settled (Or.inl phase))
  | resolved phase pending cleared | returnedResolved phase pending cleared =>
    subst cleared
    exact chooses rfl (h.settled (Or.inr (Or.inr pending)))

/-- Every edge keeps to the journal. -/
theorem Governed.edge (h : c.Governed journal) (hsound : c.Sound) (level : Level)
    (inputs : InputLevels) (stopping : Bool) :
    ((c.edge level inputs).finish stopping).1.Governed
      (journal.edge c level inputs stopping) := by
  have hsampled := (hsound.sampleInputs inputs).leaveReset
  have hleft : (c.sampleInputs inputs).leaveReset.Governed journal
      ∧ (c.sampleInputs inputs).leaveReset.regs = c.regs := by
    rw [leaveReset]
    split
    · next hphase => exact ⟨⟨h.follows, fun _ => h.settled (Or.inr (Or.inl hphase)), h.truthful⟩, rfl⟩
    · exact ⟨⟨h.follows, h.settled, h.truthful⟩, rfl⟩
  obtain ⟨hgoverned, hregs⟩ := hleft
  rw [Journal.edge]
  -- a reset clears them at once; otherwise they are what they have been, until an instruction ends
  cases hinputs : inputs.reset.isAsserted with
  | true =>
    rw [edge_eq, if_pos hinputs]
    have hclear : (Journal.history (⟨.sampled inputs, c.regs⟩ :: journal)).flipFlops
        = (false, false) := by
      rw [Journal.history, List.map_cons, History.flipFlops_cons, Happening.flipFlops,
        if_pos hinputs]
    show Governed _ (⟨.sampled inputs, c.regs⟩ :: journal)
    refine ⟨⟨fun code hcode => ?_, hclear.symm, Or.inl rfl⟩, fun _ => hclear.symm,
      h.truthful.cons trivial⟩
    have hnone : none = some code := hcode
    exact absurd hnone.symm (Option.some_ne_none code)
  | false =>
    have hgoverned := hgoverned.sampled hinputs c.regs
    have hturn := c.turn level inputs
    generalize c.engaged level inputs = engaged at hturn
    generalize c.edge level inputs = e at hturn ⊢
    cases hturn with
    | resets reset => exact absurd (hinputs.symm.trans reset) Bool.false_ne_true
    | @passes s sampled phase =>
      subst sampled
      exact hgoverned
    | @grants k emitted ready first =>
      obtain ⟨-, -, hchosen⟩ := ready.underway hsampled
      have hk := ready.governed hgoverned hregs.symm
      show k.releaseBus.Governed ((emitted ++ [_]).foldl Journal.note _)
      rw [List.foldl_append]
      exact governed_of_chosen (c := k.releaseBus) (Or.inr rfl) hchosen hk.follows hk.truthful
    | @begins k emitted ready first =>
      obtain ⟨hunderway, hphase, hchosen⟩ := ready.underway hsampled
      refine hunderway.governed hphase hchosen ?_ stopping
      rw [List.foldl_append]
      exact ready.governed hgoverned hregs.symm
    | @continues k emitted ready later =>
      obtain ⟨hunderway, hphase, hchosen⟩ := ready.underway hsampled
      exact hunderway.governed hphase hchosen (ready.governed hgoverned hregs.symm) stopping

end Core

variable {c : Core} {journal : Journal}

/-- On every run on which nobody writes the registers the chip is sound, and governed by its
    journal. -/
theorem Unwritten.governed (h : Unwritten c journal) : c.Sound ∧ c.Governed journal := by
  induction h with
  | powerOn address data =>
    refine ⟨Core.sound_powerOn address data, ⟨⟨fun code hcode => ?_, rfl, Or.inl rfl⟩,
      fun _ => rfl, fun later record earlier heq => ?_⟩⟩
    · have hnone : none = some code := hcode
      exact nomatch hnone
    · exact absurd heq.symm (List.append_ne_nil_of_right_ne_nil _ (List.cons_ne_nil _ _))
  | edge _ level inputs stopping ih =>
    exact ⟨(ih.1.edge level inputs).finish stopping, ih.2.edge ih.1 level inputs stopping⟩
  | data _ data ih =>
    exact ⟨ih.1.withData data, ⟨ih.2.follows, ih.2.settled, ih.2.truthful⟩⟩

/-- Without writes to the registers from outside, on every run, the first flip-flop is set only
    together with the second one; they differ only after an NMI has been accepted, until an EI, a DI,
    an RETN or an RETI has ended, an INT has been accepted, or a reset; and the mode is one of the
    three there are.  So if an NMI is accepted while both flip-flops are `x`, and none of these comes
    to pass until an RETN ends, then that leaves both at `x` again. -/
theorem Unwritten.flipFlops_in_order (h : Unwritten c journal) :
    (c.regs.iff1 = true → c.regs.iff2 = true)
      ∧ (c.regs.iff1 ≠ c.regs.iff2 → journal.history.nmiSince = true)
      ∧ IsMode c.regs.im
      ∧ ∀ (later middle earlier : Journal) (returned accepted last : Record)
        (code : Option Instruction) (x : Bool),
        journal = later ++ returned :: middle ++ accepted :: last :: earlier →
        accepted.happening = .chose (.internal .nmi) → last.regs.flipFlops = (x, x) →
        (∀ record ∈ middle, record.happening.settles = false) →
        returned.happening = .ended code → Instruction.performs code .retn = true →
        returned.regs.flipFlops = (x, x) := by
  obtain ⟨-, hfollows, -, htruthful⟩ := h.governed
  have hflipFlops : c.regs.flipFlops
      = Instruction.early c.instruction journal.history.flipFlops := hfollows.flipFlops
  have hnow : c.regs.flipFlops.1 = c.regs.flipFlops.2
      ∨ c.regs.flipFlops = journal.history.flipFlops := by
    rw [hflipFlops, Instruction.early]
    split
    · exact Or.inl rfl
    split
    · exact Or.inl rfl
    · exact Or.inr rfl
  refine ⟨fun hfirst => ?_, fun happart => ?_, hfollows.mode, ?_⟩
  · rcases hnow with hsame | hreplayed
    · exact hsame.symm.trans hfirst
    · have hordered := journal.history.flipFlops_ordered
      rw [← hreplayed] at hordered
      exact hordered hfirst
  · rcases hnow with hsame | hreplayed
    · exact absurd hsame happart
    · refine journal.history.nmiSince_of_apart ?_
      rw [← hreplayed]
      exact happart
  · intro later middle earlier returned accepted last code x hjournal haccepted hlast hmiddle
      hreturned hretn
    exact htruthful.returns hjournal haccepted hlast hmiddle hreturned hretn

/-- A chip and its journal after some edges, with a byte put on the data bus before each. -/
def Journal.fed (c : Core) (journal : Journal) :
    List (Byte × Level × InputLevels) → Core × Journal
  | [] => (c, journal)
  | (byte, level, inputs) :: rest =>
    let c := { c with data := c.data.drive byte }
    fed ((c.edge level inputs).finish false).1 (journal.edge c level inputs false) rest

theorem Unwritten.fed (h : Unwritten c journal) (edges : List (Byte × Level × InputLevels)) :
    Unwritten (Journal.fed c journal edges).1 (Journal.fed c journal edges).2 := by
  induction edges generalizing c journal with
  | nil => exact h
  | cons edge rest ih => exact ih ((h.data _).edge edge.2.1 edge.2.2 false)

/-- An EI, during which NMI comes up, the entry of the NMI, and an RETN. -/
def nmiAndBack : Core × Journal :=
  Journal.fed (Core.powerOn (.released 0xFFFF) (.released 0xFF)) []
    ((List.range 58).map fun edge =>
      (if edge < 8 then 0xFB else if edge < 38 then 0xED else 0x45, .ofBool (edge % 2 == 0),
        { nmi := if edge < 4 then .released else .asserted }))

/-- The RETN leaves both flip-flops set, as the EI did. -/
theorem flipFlops_nmiAndBack : ∃ later middle earlier returned accepted last,
    nmiAndBack.2 = later ++ returned :: middle ++ accepted :: last :: earlier
      ∧ accepted.happening = .chose (.internal .nmi) ∧ last.regs.flipFlops = (true, true)
      ∧ accepted.regs.flipFlops = (false, true) ∧ returned.regs.flipFlops = (true, true) := by
  have hrun : Unwritten nmiAndBack.1 nmiAndBack.2 :=
    Unwritten.fed (.powerOn (.released 0xFFFF) (.released 0xFF)) _
  let record (n : Nat) : Record := nmiAndBack.2.getD n ⟨.sampled {}, {}⟩
  -- one evaluation of the run for everything that is to be seen in its journal
  obtain ⟨hjournal, haccepted, hlast, hcleared, hmiddle, hreturned, hretn⟩ :
      nmiAndBack.2 = nmiAndBack.2.take 1 ++ record 1 :: (nmiAndBack.2.drop 2).take 52
          ++ record 54 :: record 55 :: nmiAndBack.2.drop 56
        ∧ (record 54).happening = .chose (.internal .nmi)
        ∧ (record 55).regs.flipFlops = (true, true) ∧ (record 54).regs.flipFlops = (false, true)
        ∧ (∀ other ∈ (nmiAndBack.2.drop 2).take 52, other.happening.settles = false)
        ∧ (record 1).happening = .ended (some (decode .ed 0x45))
        ∧ Instruction.performs (some (decode .ed 0x45)) .retn = true := by
    decide +kernel
  exact ⟨_, _, _, _, _, _, hjournal, haccepted, hlast, hcleared,
    hrun.flipFlops_in_order.2.2.2 _ _ _ _ _ _ _ true hjournal haccepted hlast hmiddle hreturned hretn⟩

end Z80Board
