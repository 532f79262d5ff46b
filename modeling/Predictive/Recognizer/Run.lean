import Predictive.Recognizer.Guard

set_option autoImplicit false

namespace Predictive

namespace ParseTable

/-- Runs the machine from a configuration; `live` are the expansions since the last consumed token.
-/
def run (t : ParseTable) (c : Config) (live : List Expansion) : Bool :=
  match moves : t.move c with
  | .accept => true
  | .reject => false
  | .consume next => t.run next []
  | .expand head next =>
    if refused : isExpanded live head (c.stack.length - 1) then false
    else t.run next (expansionsAfter live head (c.stack.length - 1))
termination_by t.weight c live
decreasing_by
  · exact weight_consume live moves
  · exact weight_expand moves (Bool.eq_false_iff.2 refused)

/-- Whether the machine accepts the tokens from `start`. The end mark is no token. -/
def recognizes (t : ParseTable) (start : Symbol) (tokens : List Symbol) : Bool :=
  !decide (endMark ∈ tokens) && t.run (initial start tokens) []

end ParseTable

end Predictive
