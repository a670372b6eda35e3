/-! # Clock periods

    Time on the board is counted in full periods of its clock, in a counter of 64 bits. -/

namespace Z80Board

/-- A count of full clock periods. -/
structure Ticks where
  count : UInt64
deriving DecidableEq, Repr

namespace Ticks

/-- No time at all. -/
def zero : Ticks := ⟨0⟩

instance : Add Ticks := ⟨fun a b => ⟨a.count + b.count⟩⟩

/-- A shorter time less a longer one is no time. -/
instance : Sub Ticks := ⟨fun a b => ⟨if a.count < b.count then 0 else a.count - b.count⟩⟩

instance : Ord Ticks := ⟨fun a b => compare a.count b.count⟩

/-- The count, followed by the letter T. -/
def render (t : Ticks) : String :=
  toString t.count.toNat ++ "T"

end Ticks

end Z80Board
