import Predictive.Body

set_option autoImplicit false

namespace Predictive

inductive ParseError where
  | missingArrow (line : Nat)
  | tooManyArrows (line : Nat)
  | emptyLeft (line : Nat)
  | leftContainsWhitespace (line : Nat)
  | noPreviousLeft (line : Nat)
  | emptyAlternative (line : Nat)
  | reservedSymbol (line : Nat) (symbol : Symbol)
  | empty
deriving DecidableEq

namespace ParseError

/-- A complaint about a line. -/
def atLine (line : Nat) (complaint : String) : String :=
  "Line " ++ line.repr ++ ": " ++ complaint

def message : ParseError → String
  | missingArrow line => atLine line "missing \"->\""
  | tooManyArrows line => atLine line "too many \"->\""
  | emptyLeft line => atLine line "empty left side"
  | leftContainsWhitespace line => atLine line "left side contains whitespace"
  | noPreviousLeft line => atLine line "cannot find left side"
  | emptyAlternative line => atLine line "empty alternative, write \"&\" for an empty body"
  | reservedSymbol line symbol => atLine line ("\"" ++ symbol ++ "\" is reserved")
  | empty => "the grammar has no productions"

end ParseError

end Predictive
