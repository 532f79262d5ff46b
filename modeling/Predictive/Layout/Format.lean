import Predictive.Json
import Predictive.Text.Tex

set_option autoImplicit false

namespace Predictive

/-- The notations that results are written in. -/
inductive Format where
  | plain
  | latex
  | json
deriving DecidableEq

/-- The functions of other libraries that results are written with: one for a symbol in LaTeX, one for
a value in JSON. -/
structure Writers where
  escape : String → String
  print : Json → String

/-- The functions that the program is run with. -/
def Writers.linked : Writers := ⟨Text.Tex.escape, Json.render⟩

end Predictive
