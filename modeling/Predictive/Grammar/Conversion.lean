import Predictive.Grammar.Factoring
import Predictive.Grammar.Follow

set_option autoImplicit false

namespace Predictive

namespace Grammar

/-- Removes left recursion, factors once and computes the FIRST and FOLLOW sets. -/
def convert (g : Grammar) : Except Fault Grammar :=
  g.eliminateLeftRecursion.leftFactor.computeFirstFollow

end Grammar

end Predictive
