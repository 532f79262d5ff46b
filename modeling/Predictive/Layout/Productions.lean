import Predictive.Grammar.Basic
import Predictive.Layout.Format
import Predictive.Layout.Rule

set_option autoImplicit false

namespace Predictive

namespace Grammar

/-- The rules of the grammar: that of the start symbol, then the others. -/
def rules (g : Grammar) : List Rule :=
  let others := g.entries.filter fun entry => !decide (entry.name = g.start)
  ((g.nonTerminals.get? g.start).toList ++ others).map fun entry =>
    ⟨entry.name, entry.productions.toList⟩

def productionsPlain (g : Grammar) : String :=
  let width := (g.rules.map fun rule => rule.head.utf8ByteSize).foldr max 0
  "\n".intercalate (g.rules.map fun rule => rule.plain width true)

def productionsLatex (g : Grammar) (escape : String → String) : String :=
  "\\\\\n".intercalate ("\\[\\begin\x7barray\x7d\x7bcll\x7d"
    :: g.rules.map (fun rule => rule.latex true g.terminals.toList escape)
    ++ ["\\end\x7barray\x7d\\]"])

def productionsJson (g : Grammar) : Json :=
  .object [("productions", .array (g.rules.map Rule.json))]

def showProductions (g : Grammar) (format : Format) (writers : Writers := .linked) : String :=
  match format with
  | .plain => g.productionsPlain
  | .latex => g.productionsLatex writers.escape
  | .json => writers.print g.productionsJson

end Grammar

end Predictive
