import Predictive.Grammar.Basic

set_option autoImplicit false

namespace Predictive

/-- Repeats `step` until it changes nothing, at most `bound` times. -/
def untilStable {ε σ : Type} [DecidableEq σ] (step : σ → Except ε σ) : Nat → σ → Except ε σ
  | 0, s => .ok s
  | bound + 1, s => do
    let next ← step s
    if next = s then return s else untilStable step bound next

/-- One step for each item of the state, one after another. -/
def sweep {ε σ α : Type} (items : σ → List α) (step : σ → α → Except ε σ) (s : σ) : Except ε σ :=
  (items s).foldlM step s

namespace Grammar

/-- The terminals that the sequence can begin with by the stored FIRST sets, and `&` if all of it
can be empty. Fails at the first symbol that it comes to and that the grammar does not know. -/
def firstOf (g : Grammar) : List Symbol → Except Fault (OrderedSet Symbol)
  | [] => .ok {epsilon}
  | s :: rest =>
    if s = epsilon then g.firstOf rest
    else
      match g.nonTerminals.get? s with
      | some entry =>
        if epsilon ∈ entry.first then do
          let following ← g.firstOf rest
          return entry.first.erase epsilon ∪ following
        else .ok entry.first
      | none => if s ∈ g.terminals then .ok {s} else .error (.unknownSymbol s)

/-- The union of the FIRST sets of some bodies. -/
def firstOfBodies (g : Grammar) (bodies : List Body) : Except Fault (OrderedSet Symbol) := do
  let sets ← bodies.mapM g.firstOf
  return sets.foldl (· ∪ ·) ∅

/-- Recomputes the FIRST set of a non-terminal from its bodies. -/
def refreshFirst (g : Grammar) (name : Symbol) : Except Fault Grammar := do
  let first ← g.firstOfBodies (g.bodies name).toList
  let nullable := decide (epsilon ∈ first)
  return g.overwrite name fun entry => { entry with first, nullable }

/-- Recomputes the FIRST sets one after another, each from those before it. -/
def firstPass (g : Grammar) : Except Fault Grammar := sweep names refreshFirst g

/-- A number of passes within which sets of terminals and one mark stop growing: all but the last
pass add a member to the set of some non-terminal. -/
def passBound (g : Grammar) : Nat := g.names.length * (g.terminals.size + 1) + 1

/-- Forgets the stored FIRST and FOLLOW sets. -/
def resetFirstFollow (g : Grammar) : Grammar :=
  { g with
    nonTerminals := g.nonTerminals.mapValues fun _ entry => .ofProductions entry.name entry.productions
    firstFollowValid := false }

/-- Repeats passes over the FIRST sets until they are stable. -/
def computeFirst (g : Grammar) : Except Fault Grammar := untilStable firstPass g.passBound g

end Grammar

end Predictive
