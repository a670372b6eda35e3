import Z80Board.Word

/-! # Opcode pages -/

namespace Z80Board

/-- One of the seven tables an opcode byte can be looked up in. -/
inductive Page where
  | main | cb | dd | ed | fd | ddcb | fdcb
deriving DecidableEq, Repr

namespace Page

/-- Every page. -/
def all : List Page :=
  [.main, .cb, .dd, .ed, .fd, .ddcb, .fdcb]

/-- The place of the page in the list of all pages. -/
def index : Page → Nat
  | .main => 0
  | .cb => 1
  | .dd => 2
  | .ed => 3
  | .fd => 4
  | .ddcb => 5
  | .fdcb => 6

/-- The bytes in front of an opcode that select the page. -/
def selectors : Page → List Byte
  | .main => []
  | .cb => [0xCB]
  | .dd => [0xDD]
  | .ed => [0xED]
  | .fd => [0xFD]
  | .ddcb => [0xDD, 0xCB]
  | .fdcb => [0xFD, 0xCB]

/-- The name of the page. -/
def name : Page → String
  | .main => "main"
  | .cb => "CB"
  | .dd => "DD"
  | .ed => "ED"
  | .fd => "FD"
  | .ddcb => "DDCB"
  | .fdcb => "FDCB"

end Page

end Z80Board
