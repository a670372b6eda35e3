/-! # Logic levels

    One line is low or high.  Every control line of the board is active low: pulling a line low
    asserts it, and a line nobody pulls is high.  Two open outputs on one line therefore combine as
    a conjunction of levels. -/

namespace Z80Board

/-- Level of a single line. -/
inductive Level where
  | low
  | high
deriving DecidableEq, Repr

namespace Level

/-- Level of an active-low line somebody pulls. -/
abbrev asserted : Level := .low

/-- Level of an active-low line at rest. -/
abbrev released : Level := .high

instance : Inhabited Level := ⟨released⟩

/-- The line is high. -/
def isHigh : Level → Bool
  | .low => false
  | .high => true

/-- The line is low. -/
def isLow : Level → Bool
  | .low => true
  | .high => false

/-- An active-low line is pulled exactly when it is low. -/
def isAsserted (l : Level) : Bool :=
  l.isLow

/-- One letter for the level. -/
def letter : Level → String
  | .low => "L"
  | .high => "H"

/-- The other level. -/
def flip : Level → Level
  | .low => .high
  | .high => .low

/-- Level of an active-low line, from whether somebody pulls it. -/
def activeLow (pulled : Bool) : Level :=
  if pulled then asserted else released

/-- Level of a line that is high exactly when the flag is set. -/
def ofBool (high : Bool) : Level :=
  if high then .high else .low

/-- Two open outputs on one line: it is low when either pulls it low. -/
def wiredAnd (a b : Level) : Level :=
  if a.isLow || b.isLow then .low else .high

/-- A line nobody else pulls follows its one output. -/
@[simp] theorem wiredAnd_released (a : Level) : a.wiredAnd released = a := by
  cases a <;> rfl

/-- Which of two outputs is named first does not matter. -/
theorem wiredAnd_comm (a b : Level) : a.wiredAnd b = b.wiredAnd a := by
  cases a <;> cases b <;> rfl

/-- The line is asserted exactly when one of its outputs is. -/
@[simp] theorem isAsserted_wiredAnd (a b : Level) :
    (a.wiredAnd b).isAsserted = (a.isAsserted || b.isAsserted) := by
  cases a <;> cases b <;> rfl

/-- A line is asserted when somebody pulls it. -/
@[simp] theorem isAsserted_activeLow (pulled : Bool) : (activeLow pulled).isAsserted = pulled := by
  cases pulled <;> rfl

/-- Turning a level over twice gives it back. -/
@[simp] theorem flip_flip (a : Level) : a.flip.flip = a := by
  cases a <;> rfl

end Level

end Z80Board
