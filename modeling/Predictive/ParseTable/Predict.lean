import Predictive.Grammar.Follow
import Predictive.ParseTable

set_option autoImplicit false

namespace Predictive

namespace Grammar

/-- Writes a body of a non-terminal under the terminals that it can begin with and, if it can be empty,
under those that are stored to follow the non-terminal. -/
def writeBody (g : Grammar) (entry : NonTerminal) (t : ParseTable) (body : Body) :
    Except Fault ParseTable := do
  let first ← g.firstOf body
  let opened := t.insertAll entry.name body (first.erase epsilon).toList
  if epsilon ∈ first then return opened.insertAll entry.name body entry.follow.toList
  else return opened

/-- Adds the row of a non-terminal and writes its bodies. -/
def writeRow (g : Grammar) (t : ParseTable) (entry : NonTerminal) : Except Fault ParseTable :=
  entry.productions.toList.foldlM (g.writeBody entry) (t.addRow entry.name)

/-- The table by the stored FIRST and FOLLOW sets. -/
def tableOfStored (g : Grammar) : Except Fault ParseTable :=
  g.entries.foldlM g.writeRow ⟨g.terminals.toList ++ [endMark], ∅⟩

/-- The table of the grammar. Sets that are not valid are computed on the way. -/
def buildTable (g : Grammar) : Except Fault ParseTable := do
  let current ← g.withFirstFollow
  current.tableOfStored

def isLL1 (g : Grammar) : Except Fault Bool := do
  let table ← g.buildTable
  return table.isLL1

end Grammar

end Predictive
