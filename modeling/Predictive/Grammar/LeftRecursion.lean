import Predictive.Grammar.Basic

set_option autoImplicit false

namespace Predictive

/-- The bodies with `expand b` in place of each `b` of `chosen`, one after another. A body that is
put in may be one that is still to be replaced. -/
def replaceBodies (bodies : OrderedSet Body) (chosen : List Body) (expand : Body → List Body) :
    OrderedSet Body :=
  chosen.foldl (fun bodies b => (bodies.erase b).insertMany (expand b)) bodies

/-- The body with each of `fronts` in place of its first symbol. -/
def expandFront (fronts : List Body) (b : Body) : List Body :=
  fronts.map fun front => Body.join front b.tail

namespace Grammar

/-- The bodies of `head` that begin with `first`. -/
def bodiesStarting (g : Grammar) (head first : Symbol) : List Body :=
  (g.bodies head).toList.filter (Body.startsWith first)

/-- The bodies of `head` that do not begin with `head`. -/
def directBodies (g : Grammar) (head : Symbol) : OrderedSet Body :=
  (g.bodies head).filter fun b => !Body.startsWith head b

/-- What follows `head` in the bodies that begin with it, where anything does. -/
def recursiveTails (g : Grammar) (head : Symbol) : List Body :=
  ((g.bodiesStarting head head).filter fun b => decide (1 < b.length)).map List.tail

/-- Expands the bodies of `head` that begin with `earlier`. -/
def expandLeading (g : Grammar) (head earlier : Symbol) : Grammar :=
  let leading := g.bodiesStarting head earlier
  if leading.isEmpty then g
  else
    let expand := expandFront (g.bodies earlier).toList
    g.setBodies head (replaceBodies (g.bodies head) leading expand)

/-- Gives `head` the bodies of `starts` with `fresh` behind them, and adds `fresh` with the empty
body and those of `tails` with `fresh` behind them. -/
def loopThrough (g : Grammar) (head fresh : Symbol) (starts : OrderedSet Body)
    (tails : List Body) : Grammar :=
  let continued := replaceBodies starts starts.toList fun b => [Body.join b [fresh]]
  let loops := tails.map fun tail => Body.join tail [fresh]
  (g.setBodies head continued).addNonTerminal fresh (.ofList ([epsilon] :: loops))

/-- Turns `A → A a | b` into `A → b A'` and `A' → a A' | &` with a fresh `A'`. The body `A → A` is
dropped, and a non-terminal that has only recursive bodies stays as it is. -/
def removeImmediate (g : Grammar) (head : Symbol) : Grammar :=
  if (g.bodiesStarting head head).isEmpty || (g.directBodies head).isEmpty then g
  else if (g.recursiveTails head).isEmpty then g.setBodies head (g.directBodies head)
  else g.loopThrough head (g.freshName head) (g.directBodies head) (g.recursiveTails head)

/-- `removeImmediate` for a name that has to be a non-terminal. -/
def eliminateImmediateLeftRecursion (g : Grammar) (head : Symbol) : Except Fault Grammar := do
  let _ ← g.productions head
  return g.removeImmediate head

/-- Visits the non-terminals of a list after those of `visited`. -/
def eliminateFrom (visited : List Symbol) : List Symbol → Grammar → Grammar
  | [], g => g
  | head :: rest, g =>
    let expanded := visited.foldl (fun g earlier => g.expandLeading head earlier) g
    eliminateFrom (visited ++ [head]) rest (expanded.removeImmediate head)

/-- Removes direct and indirect left recursion. -/
def eliminateLeftRecursion (g : Grammar) : Grammar := eliminateFrom [] g.names g

end Grammar

end Predictive
