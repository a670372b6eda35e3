import Z80Board.Chip.Semantics.Block
import Z80Board.Proofs.Isa.Entries

/-! # What timings look like

    A timing that keeps the rules has cycles long enough for what they do on the buses, and they add
    up to the declared total.  Beyond the rules, every timing of the catalog begins with the cycles
    by which its opcode is reached at all: none on the main page, the fetch of the prefix byte
    behind one prefix, and two fetches and the read of the displacement on the bit pages behind an
    index prefix.  The fetch that completes the opcode comes next, and it is as long in the
    alternate timing as in the primary one.  So the cycles that run before anything is known of the
    instruction are those that its timing asks for. -/

namespace Z80Board

/-! ## Timings that keep the rules -/

namespace Timing

/-- A cycle that is checked is long enough. -/
theorem minimumLength_of_checkCycle {position : Nat} {previous : CycleKind} {c : MachineCycle}
    {next : Option CycleKind} (h : checkCycle position previous c next = .ok ()) :
    c.kind.minimumLength ≤ c.tStates := by
  rw [checkCycle] at h
  split at h
  · exact nomatch h
  · split at h
    · exact nomatch h
    · split at h
      · next hlength => exact hlength.1
      · exact nomatch h

/-- So are all cycles of a list that is checked. -/
theorem minimumLength_of_checkFrom {cycles : List MachineCycle} {position : Nat}
    {previous : CycleKind} (h : checkFrom position previous cycles = .ok ()) :
    ∀ c ∈ cycles, c.kind.minimumLength ≤ c.tStates := by
  induction cycles generalizing position previous with
  | nil => intro c hc; exact absurd hc List.not_mem_nil
  | cons first rest ih =>
    rw [checkFrom] at h
    split at h
    · exact nomatch h
    · next hfirst =>
      intro c hc
      rcases List.mem_cons.mp hc with rfl | hc
      · exact minimumLength_of_checkCycle hfirst
      · exact ih h c hc

/-- What a timing that keeps the rules is good for. -/
theorem of_validate {t : Timing} (h : t.validate = .ok ()) :
    (∀ c ∈ t.cycles, c.kind.minimumLength ≤ c.tStates) ∧ sum t.cycles = t.tStates := by
  rw [validate] at h
  split at h
  · exact nomatch h
  · split at h
    · exact nomatch h
    · split at h
      · exact nomatch h
      · next hcheck =>
        split at h
        · exact nomatch h
        · next hsum => exact ⟨minimumLength_of_checkFrom hcheck, Decidable.not_not.mp hsum⟩

end Timing

/-- Both timings of an instruction keep the rules when they are checked. -/
theorem Timings.validate_select {t : Timings} (h : t.validate = .ok ()) (met : Bool) :
    (t.select met).validate = .ok () := by
  obtain ⟨primary, alternate⟩ := t
  rw [validate] at h
  cases hprimary : primary.validate with
  | error e =>
    rw [hprimary] at h
    exact nomatch h
  | ok _ =>
    rw [hprimary] at h
    cases alternate with
    | none => exact hprimary
    | some alternate =>
      cases met with
      | false => exact hprimary
      | true => exact h

/-! ## The way to an opcode -/

/-- The cycles that come before a byte is looked up on the page. -/
def Page.approach : Page → List MachineCycle
  | .main => []
  | .cb | .dd | .ed | .fd => [⟨.opcodeFetch, 4⟩]
  | .ddcb | .fdcb => [⟨.opcodeFetch, 4⟩, ⟨.opcodeFetch, 4⟩, ⟨.operand, 3⟩]

/-- The timings keep the rules and begin with the way to the page and the fetch of the opcode, which
    is as long in both.  No other fetch comes after it. -/
structure Timings.LeadsTo (t : Timings) (page : Page) : Prop where
  valid : t.validate = .ok ()
  opening : ∃ length, ∀ met, ∃ rest,
    t.cycles met = page.approach ++ ⟨.opcodeFetch, length⟩ :: rest
      ∧ ∀ c ∈ rest, c.kind ≠ .opcodeFetch

namespace Timings

/-- The timings lead to the page, as a test. -/
def leadsTo (t : Timings) (page : Page) : Bool :=
  let n := page.approach.length
  t.validate.isOk
    && [false, true].all (fun met =>
      (t.cycles met).take n == page.approach
        && ((t.cycles met).drop (n + 1)).all fun c => c.kind != .opcodeFetch)
    && ((t.cycles false)[n]?.map MachineCycle.kind == some .opcodeFetch)
    && ((t.cycles false)[n]? == (t.cycles true)[n]?)

/-- The test is right. -/
theorem LeadsTo.of_test {t : Timings} {page : Page} (h : t.leadsTo page = true) :
    t.LeadsTo page := by
  simp only [leadsTo, Bool.and_eq_true, List.all_cons, List.all_nil, beq_iff_eq, and_true,
    List.all_eq_true, bne_iff_ne] at h
  obtain ⟨⟨⟨hvalid, ⟨hprimary, hrest⟩, halternate, hrest'⟩, hkind⟩, hsame⟩ := h
  refine ⟨?_, ?_⟩
  · cases hv : t.validate with
    | error e =>
      rw [hv] at hvalid
      exact nomatch hvalid
    | ok _ => rfl
  · obtain ⟨⟨kind, length⟩, hcycle, rfl⟩ := Option.map_eq_some_iff.mp hkind
    have split_at {met : Bool} (htake : (t.cycles met).take page.approach.length = page.approach)
        (hget : (t.cycles met)[page.approach.length]? = some ⟨.opcodeFetch, length⟩) :
        t.cycles met = page.approach
          ++ ⟨.opcodeFetch, length⟩ :: (t.cycles met).drop (page.approach.length + 1) := by
      obtain ⟨hlt, hget⟩ := List.getElem?_eq_some_iff.mp hget
      rw [← hget, ← List.drop_eq_getElem_cons hlt]
      calc t.cycles met
          = (t.cycles met).take page.approach.length ++ (t.cycles met).drop page.approach.length :=
            (List.take_append_drop _ _).symm
        _ = page.approach ++ (t.cycles met).drop page.approach.length := by rw [htake]
    refine ⟨length, fun met => ?_⟩
    cases met with
    | false => exact ⟨_, split_at hprimary hcycle, hrest⟩
    | true => exact ⟨_, split_at halternate (hsame ▸ hcycle), hrest'⟩

variable {t : Timings} {page : Page}

/-- Every cycle of timings that lead somewhere is long enough. -/
theorem LeadsTo.minimumLength (h : t.LeadsTo page) (met : Bool) :
    ∀ c ∈ t.cycles met, c.kind.minimumLength ≤ c.tStates :=
  (Timing.of_validate (validate_select h.valid met)).1

/-- The cycles of timings that lead somewhere add up to the declared total. -/
theorem LeadsTo.sum (h : t.LeadsTo page) (met : Bool) :
    Timing.sum (t.cycles met) = (t.select met).tStates :=
  (Timing.of_validate (validate_select h.valid met)).2

/-- The way to the page is the same in both timings. -/
theorem LeadsTo.take_approach (h : t.LeadsTo page) (met : Bool) :
    (t.cycles met).take page.approach.length = page.approach := by
  obtain ⟨length, hopening⟩ := h.opening
  obtain ⟨rest, hcycles, -⟩ := hopening met
  rw [hcycles, List.take_left]

/-- The cycle that comes after the way to the page is a fetch, and the same in both timings. -/
theorem LeadsTo.exists_fetch (h : t.LeadsTo page) :
    ∃ length, ∀ met, (t.cycles met)[page.approach.length]? = some ⟨.opcodeFetch, length⟩ := by
  obtain ⟨length, hopening⟩ := h.opening
  refine ⟨length, fun met => ?_⟩
  obtain ⟨rest, hcycles, -⟩ := hopening met
  rw [hcycles, List.getElem?_append_right (Nat.le_refl _), Nat.sub_self]
  rfl

/-- A fetch that does not belong to the way to the page completes the opcode. -/
theorem LeadsTo.position_of_fetch (h : t.LeadsTo page) {met : Bool} {position length : Nat}
    (hpast : page.approach.length ≤ position)
    (hget : (t.cycles met)[position]? = some ⟨.opcodeFetch, length⟩) :
    position = page.approach.length := by
  obtain ⟨_, hopening⟩ := h.opening
  obtain ⟨rest, hcycles, hrest⟩ := hopening met
  rw [hcycles, List.getElem?_append_right hpast] at hget
  match hn : position - page.approach.length with
  | 0 => exact Nat.le_antisymm (Nat.le_of_sub_eq_zero hn) hpast
  | n + 1 =>
    rw [hn, List.getElem?_cons_succ] at hget
    exact absurd rfl (hrest _ (List.mem_of_getElem? hget))

end Timings

/-- The alternate cycles are the primary ones with more internal work. -/
def Timings.Lingers (t : Timings) : Prop :=
  ∃ more, t.cycles true = t.cycles false ++ more ∧ ∀ c ∈ more, c.kind = .internal

/-- Where the timings lead to, and that they linger if the instruction repeats. -/
structure Instruction.Scheduled (code : Instruction) (page : Page) : Prop where
  leads : code.timing.LeadsTo page
  lingers : code.mnemonic.repeats = true → code.timing.Lingers

namespace Catalog

/-- Every form of the catalog leads to its page. -/
theorem leadsTo_of_mem {m : Mnemonic} {f : Form} {page : Page} (hf : (m, f) ∈ forms)
    (hpage : f.page = some page) : f.timing.LeadsTo page := by
  have hall : ∀ p ∈ forms, ∀ page, p.2.page = some page → p.2.timing.leadsTo page = true := by
    decide +kernel
  exact .of_test (hall (m, f) hf page hpage)

/-- A repeating block instruction lingers. -/
theorem lingers_of_mem {m : Mnemonic} {f : Form} (hf : (m, f) ∈ forms) (hm : m.repeats = true) :
    f.timing.Lingers := by
  have hall : ∀ p ∈ forms, p.1.repeats = true →
      p.2.timing.cycles true = p.2.timing.cycles false ++ [inside 5] := by
    decide +kernel
  refine ⟨[inside 5], hall (m, f) hf hm, fun c hc => ?_⟩
  rw [List.mem_singleton.mp hc]
  rfl

end Catalog

/-- What an encoding of a form of a page is scheduled for. -/
theorem Listing.Entitled.scheduled {page : Page} {code : Instruction}
    (h : Listing.Entitled Catalog.forms page code) : code.Scheduled page := by
  obtain ⟨m, f, hf, hpage, hcode⟩ := h
  refine ⟨hcode.timing ▸ Catalog.leadsTo_of_mem hf hpage, fun hm => ?_⟩
  rw [hcode.timing]
  exact Catalog.lingers_of_mem hf (hcode.mnemonic ▸ hm)

/-- An operation without an opcode is one that the catalog has apart from its pages. -/
theorem internal_listed (op : InternalOp) : ∃ p ∈ Catalog.internalOps,
    (decoder.internal op).mnemonic = p.1 ∧ (decoder.internal op).timing = p.2.timing
      ∧ (decoder.internal op).operands
        = (p.2.slots.head?.bind fun slot => slot.operands.head?).toList := by
  rw [decoder, Decoder.internal_ofTypes]
  cases op <;> decide +kernel

/-- Such operations are scheduled like the main page: their first cycle is a fetch. -/
theorem internal_scheduled (op : InternalOp) : (decoder.internal op).Scheduled .main := by
  have hall : ∀ p ∈ Catalog.internalOps,
      p.2.timing.leadsTo .main = true ∧ p.1.repeats = false := by
    decide
  obtain ⟨p, hp, hmnemonic, htiming, -⟩ := internal_listed op
  obtain ⟨hleads, hrepeats⟩ := hall p hp
  refine ⟨htiming ▸ .of_test hleads, fun hagain => ?_⟩
  rw [hmnemonic, hrepeats] at hagain
  cases hagain

end Z80Board
