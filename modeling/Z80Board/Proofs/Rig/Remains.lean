import Z80Board.Proofs.Rig.Stops

/-! # What an opcode buffer keeps

    Bytes are pushed into the buffer of an opcode, and it is cleared.  What it shows are the first
    four bytes since it was last cleared.  What it holds is more: clearing sets the count back and
    leaves the cells, so that each cell behind the end still has the byte that an earlier opcode has
    put there last.

    Buffers are compared cell by cell, and so are snapshots, which hold a buffer.  Two of them that
    show the same are therefore equal exactly if the same is left behind the end.  Chips that have
    come to the same point by different instructions show the same there, and their snapshots can be
    unequal all the same. -/

namespace Z80Board

/-! ## Histories -/

/-- What can be called on a buffer. -/
inductive BufferCall where
  | push (byte : Byte)
  | clear
deriving DecidableEq, Repr

/-- What the calls have written: the bytes since the last clear, and the rows of bytes that were
    ended by one, the latest first. -/
structure Scroll where
  current : List Byte := []
  past : List (List Byte) := []

namespace Scroll

/-- One call more. -/
def call (scroll : Scroll) : BufferCall → Scroll
  | .push byte => { scroll with current := scroll.current ++ [byte] }
  | .clear => { current := [], past := scroll.current :: scroll.past }

/-- The calls, from the first one on. -/
def of (calls : List BufferCall) : Scroll :=
  calls.foldl call {}

/-- The byte that the ended rows have left at a position: that of the latest row so long. -/
def left (scroll : Scroll) (position : Nat) : Byte :=
  (scroll.past.findSome? fun row => row[position]?).getD 0

/-- The byte last written at a position. -/
def byteAt (scroll : Scroll) (position : Nat) : Byte :=
  scroll.current[position]?.getD (scroll.left position)

variable {scroll : Scroll} {position : Nat} {byte : Byte}

/-- Once a row is ended, what was last written is left. -/
theorem byteAt_clear : (scroll.call .clear).byteAt position = scroll.byteAt position := by
  show (([] : List Byte)[position]?).getD
    (((scroll.current :: scroll.past).findSome? fun row => row[position]?).getD 0) = _
  rw [List.getElem?_nil, Option.getD_none, List.findSome?_cons, byteAt, left]
  cases scroll.current[position]? <;> rfl

theorem byteAt_push_self :
    (scroll.call (.push byte)).byteAt scroll.current.length = byte := by
  show ((scroll.current ++ [byte])[scroll.current.length]?).getD _ = byte
  rw [List.getElem?_concat_length, Option.getD_some]

theorem byteAt_push_of_ne (h : position ≠ scroll.current.length) :
    (scroll.call (.push byte)).byteAt position = scroll.byteAt position := by
  show ((scroll.current ++ [byte])[position]?).getD (scroll.left position) = _
  rcases Nat.lt_or_gt_of_ne h with hwithin | hbehind
  · rw [List.getElem?_append_left hwithin, byteAt]
  · rw [List.getElem?_eq_none (by rw [List.length_append]; exact hbehind), byteAt,
      List.getElem?_eq_none (Nat.le_of_lt hbehind)]

end Scroll

/-! ## Buffers -/

namespace OpcodeBytes

/-- One call. -/
def call (opcode : OpcodeBytes) : BufferCall → OpcodeBytes
  | .push byte => opcode.push byte
  | .clear => opcode.clear

/-- The buffer after some calls. -/
def after (calls : List BufferCall) : OpcodeBytes :=
  calls.foldl call empty

/-- The buffer holds what was last written, and counts the bytes since the last clear. -/
structure Holds (opcode : OpcodeBytes) (scroll : Scroll) : Prop where
  count : opcode.count = min scroll.current.length 4
  cells : ∀ position (h : position < 4), opcode.cells[position] = scroll.byteAt position

variable {opcode a b : OpcodeBytes} {scroll scroll' : Scroll}

theorem Holds.push (h : opcode.Holds scroll) (byte : Byte) :
    (opcode.push byte).Holds (scroll.call (.push byte)) := by
  have hlength : (scroll.call (.push byte)).current.length = scroll.current.length + 1 :=
    List.length_append
  have hcount := h.count
  rw [OpcodeBytes.push]
  split
  · next hroom =>
    -- as long as there is room, the end of the buffer is the end of the row
    have hend : opcode.count = scroll.current.length := by omega
    refine ⟨?_, fun position hposition => ?_⟩
    · show opcode.count + 1 = _
      omega
    · show (opcode.cells.set opcode.count byte hroom)[position] = _
      rw [Vector.getElem_set]
      split
      · next hhere => rw [← hhere, hend, Scroll.byteAt_push_self]
      · next helse =>
        rw [Scroll.byteAt_push_of_ne (hend ▸ Ne.symm helse)]
        exact h.cells position hposition
  · next hfull =>
    -- the position of the byte is behind the cells, so they still hold what was last written
    refine ⟨by omega, fun position hposition => ?_⟩
    rw [Scroll.byteAt_push_of_ne (by omega)]
    exact h.cells position hposition

theorem Holds.clear (h : opcode.Holds scroll) : opcode.clear.Holds (scroll.call .clear) :=
  ⟨rfl, fun position hposition => (h.cells position hposition).trans Scroll.byteAt_clear.symm⟩

/-- Whatever the calls, the buffer holds what they have written. -/
theorem holds_after (calls : List BufferCall) : (after calls).Holds (Scroll.of calls) := by
  have run (opcode : OpcodeBytes) (scroll : Scroll) (h : opcode.Holds scroll) :
      (calls.foldl call opcode).Holds (calls.foldl Scroll.call scroll) := by
    induction calls generalizing opcode scroll with
    | nil => exact h
    | cons first rest ih =>
      cases first with
      | push byte => exact ih _ _ (h.push byte)
      | clear => exact ih _ _ h.clear
  refine run _ _ ⟨rfl, fun position hposition => ?_⟩
  show (Vector.replicate 4 (0 : Byte))[position] = _
  rw [Vector.getElem_replicate]
  rfl

/-! ## What is shown and what is held -/

theorem length_toList (opcode : OpcodeBytes) : opcode.toList.length = opcode.count := by
  rw [toList, List.length_take, Vector.length_toList]
  exact Nat.min_eq_left opcode.count_le

theorem getElem?_toList {position : Nat} (h : position < 4) :
    opcode.toList[position]?
      = if position < opcode.count then some opcode.cells[position] else none := by
  rw [toList, List.getElem?_take]
  split
  · rw [Vector.getElem?_toList, Vector.getElem?_eq_getElem h]
  · rfl

/-- The buffer shows the first four bytes since it was last cleared. -/
theorem Holds.toList (h : opcode.Holds scroll) : opcode.toList = scroll.current.take 4 := by
  refine List.ext_getElem? fun position => ?_
  rw [List.getElem?_take]
  split
  · next hposition =>
    rw [getElem?_toList hposition, h.cells position hposition, h.count, Scroll.byteAt]
    by_cases hwithin : position < scroll.current.length
    · rw [if_pos (by omega), List.getElem?_eq_getElem hwithin, Option.getD_some]
    · rw [if_neg (by omega), List.getElem?_eq_none (Nat.le_of_not_lt hwithin)]
  · next hposition =>
    refine List.getElem?_eq_none ?_
    have hcount := opcode.count_le
    rw [length_toList]
    omega

/-- Behind the bytes that it shows, the buffer holds what was left. -/
theorem Holds.cells_behind (h : opcode.Holds scroll) {position : Nat} (hposition : position < 4)
    (hbehind : opcode.toList.length ≤ position) :
    opcode.cells[position] = scroll.left position := by
  have hlength := length_toList opcode
  have hcount := h.count
  rw [h.cells position hposition, Scroll.byteAt, List.getElem?_eq_none (by omega), Option.getD_none]

/-- Buffers are equal if they show the same and hold the same behind it. -/
theorem eq_iff : a = b ↔ a.toList = b.toList
    ∧ ∀ position (h : position < 4), a.toList.length ≤ position →
      a.cells[position] = b.cells[position] := by
  constructor
  · rintro rfl
    exact ⟨rfl, fun _ _ _ => rfl⟩
  · rintro ⟨hlist, hbehind⟩
    have hcount : a.count = b.count := by rw [← length_toList, hlist, length_toList]
    have hcells : a.cells = b.cells := by
      refine Vector.ext fun position hposition => ?_
      by_cases hwithin : position < a.count
      · have hget := congrArg (·[position]?) hlist
        simp only [getElem?_toList hposition, ← hcount, if_pos hwithin] at hget
        exact Option.some.inj hget
      · exact hbehind position hposition (by rw [length_toList]; omega)
    cases a
    cases b
    subst hcount hcells
    rfl

/-- Two buffers that hold what was written are equal if they show the same and the same was left
    behind it. -/
theorem Holds.eq_iff (ha : a.Holds scroll) (hb : b.Holds scroll') : a = b ↔ a.toList = b.toList
    ∧ ∀ position < 4, a.toList.length ≤ position →
      scroll.left position = scroll'.left position := by
  rw [OpcodeBytes.eq_iff]
  refine and_congr_right fun hlist => forall_congr' fun position => forall_congr' fun hposition =>
    forall_congr' fun hbehind => ?_
  rw [ha.cells_behind hposition hbehind, hb.cells_behind hposition (hlist ▸ hbehind)]

end OpcodeBytes

/-! ## Snapshots -/

/-- The snapshots show the same: they agree in all fields, but for the cells of the opcode. -/
structure Snapshot.Alike (s s' : Snapshot) : Prop where
  opcode : s.opcode.toList = s'.opcode.toList
  others : { s' with opcode := s.opcode } = s

instance (s s' : Snapshot) : Decidable (s.Alike s') :=
  decidable_of_iff (_ ∧ _) ⟨fun ⟨hopcode, hothers⟩ => ⟨hopcode, hothers⟩,
    fun h => ⟨h.opcode, h.others⟩⟩

/-- Snapshots that show the same are equal if their buffers are. -/
theorem Snapshot.Alike.eq_iff {s s' : Snapshot} (h : s.Alike s') :
    s = s' ↔ s.opcode = s'.opcode := by
  constructor
  · rintro rfl
    rfl
  · intro hopcode
    rw [← h.others, hopcode]

namespace OpcodeBytes

/-- A buffer shows the first four bytes that were pushed since it was last cleared.  Two buffers are
    equal exactly if they show the same and earlier opcodes have left the same bytes in the cells
    behind it; and so it is with two snapshots that show the same. -/
theorem equal_with_remains (calls calls' : List BufferCall) :
    (after calls).toList = (Scroll.of calls).current.take 4
      ∧ (after calls = after calls' ↔ (after calls).toList = (after calls').toList
        ∧ ∀ position < 4, (after calls).toList.length ≤ position →
          (Scroll.of calls).left position = (Scroll.of calls').left position)
      ∧ ∀ s s' : Snapshot, s.opcode = after calls → s'.opcode = after calls' → s.Alike s' →
        (s = s' ↔ ∀ position < 4, (after calls).toList.length ≤ position →
          (Scroll.of calls).left position = (Scroll.of calls').left position) := by
  have hequal := (holds_after calls).eq_iff (holds_after calls')
  refine ⟨(holds_after calls).toList, hequal, fun s s' hs hs' halike => ?_⟩
  have hlist : (after calls).toList = (after calls').toList := hs ▸ hs' ▸ halike.opcode
  rw [halike.eq_iff, hs, hs', hequal, and_iff_right hlist]

end OpcodeBytes

namespace Machine

/-- A machine over `LD A, A`, and zeros behind it. -/
def copying : Machine :=
  idling.modifyMemory fun memory => memory.poke 0 0x7F

/-- After its second instruction, which has been the same as on a machine over zeros, the snapshots
    are equal: the second opcode has been written over the first one. -/
theorem equal_once_overwritten :
    (copying.after 16).snapshot.opcode
        = .after [.clear, .push 0x7F, .clear, .push 0x00, .clear]
      ∧ (idling.after 16).snapshot.opcode
        = .after [.clear, .push 0x00, .clear, .push 0x00, .clear]
      ∧ (copying.after 16).snapshot.Alike (idling.after 16).snapshot
      ∧ (copying.after 16).snapshot = (idling.after 16).snapshot := by
  have hcopying : (copying.after 16).snapshot.opcode
      = .after [.clear, .push 0x7F, .clear, .push 0x00, .clear] := by decide +kernel
  have hidling : (idling.after 16).snapshot.opcode
      = .after [.clear, .push 0x00, .clear, .push 0x00, .clear] := by decide +kernel
  have halike : (copying.after 16).snapshot.Alike (idling.after 16).snapshot := by decide +kernel
  refine ⟨hcopying, hidling, halike, ?_⟩
  refine ((OpcodeBytes.equal_with_remains _ _).2.2 _ _ hcopying hidling halike).mpr ?_
  decide +kernel

/-- After the first instruction they show the same and are not equal, nor are the buffers: the first
    opcode has been cleared and is still in its cell. -/
theorem unequal_before_overwritten :
    (copying.after 8).snapshot.opcode = .after [.clear, .push 0x7F, .clear]
      ∧ (idling.after 8).snapshot.opcode = .after [.clear, .push 0x00, .clear]
      ∧ (copying.after 8).snapshot.opcode.toList = (idling.after 8).snapshot.opcode.toList
      ∧ (copying.after 8).snapshot.opcode ≠ (idling.after 8).snapshot.opcode
      ∧ (copying.after 8).snapshot.Alike (idling.after 8).snapshot
      ∧ (copying.after 8).snapshot ≠ (idling.after 8).snapshot := by
  refine ⟨?_, ?_, ?_, ?_, ?_, ?_⟩ <;> decide +kernel

end Machine

end Z80Board
