import Predictive.Grammar.First

set_option autoImplicit false

namespace Predictive

namespace Grammar

/-- The stored FOLLOW set of a head, which has to be a non-terminal. -/
def headFollow (g : Grammar) (head : Symbol) : Except Fault (OrderedSet Symbol) :=
  match g.nonTerminals.get? head with
  | some entry => .ok entry.follow
  | none => .error .missingEntry

/-- Adds to the stored FOLLOW set of a non-terminal. -/
def extendFollow (g : Grammar) (name : Symbol) (marks : OrderedSet Symbol) : Grammar :=
  g.overwrite name fun entry => { entry with follow := entry.follow ∪ marks }

/-- What an occurrence of `name` before `rest` in a body of `head` adds to its FOLLOW set. -/
def followBefore (g : Grammar) (head name : Symbol) (rest : List Symbol) :
    Except Fault (OrderedSet Symbol) := do
  let first ← g.firstOf rest
  if epsilon ∈ first ∧ name ≠ head then
    let above ← g.headFollow head
    return first.erase epsilon ∪ above
  else
    return first.erase epsilon

/-- Extends the FOLLOW sets by the occurrences in a body of `head`, from left to right. -/
def followBody (head : Symbol) : List Symbol → Grammar → Except Fault Grammar
  | [], g => .ok g
  | s :: rest, g =>
    if g.isNonTerminal s then do
      let marks ← g.followBefore head s rest
      followBody head rest (g.extendFollow s marks)
    else followBody head rest g

/-- Extends the FOLLOW sets by the body of a production. -/
def followProduction (g : Grammar) (production : Production) : Except Fault Grammar :=
  followBody production.1 production.2 g

/-- Extends the FOLLOW sets by every body, from the least production to the greatest. -/
def followPass (g : Grammar) : Except Fault Grammar := sweep allProductions followProduction g

/-- Puts the end mark behind the start symbol and repeats passes until the sets are stable. -/
def computeFollow (g : Grammar) : Except Fault Grammar :=
  untilStable followPass g.passBound (g.extendFollow g.start {endMark})

/-- Computes the FIRST and FOLLOW sets of the productions as they are. -/
def computeFirstFollow (g : Grammar) : Except Fault Grammar := do
  let withFirst ← g.resetFirstFollow.computeFirst
  let withFollow ← withFirst.computeFollow
  return { withFollow with firstFollowValid := true }

/-- The grammar with FIRST and FOLLOW sets that belong to its productions, by its own account. -/
def withFirstFollow (g : Grammar) : Except Fault Grammar :=
  if g.firstFollowValid then .ok g else g.computeFirstFollow

end Grammar

end Predictive
