import Predictive.Proofs.Grammar.Reachable

set_option autoImplicit false

namespace Predictive

namespace Grammar

variable {g : Grammar}

/-- Neither the removal of all left recursion nor that of the immediate left recursion of one
non-terminal changes what the non-terminals generate. -/
theorem Reachable.generates_iff_without_leftRecursion (reachable : g.Reachable) {name : Symbol}
    (known : name ∈ g.nonTerminals) :
    (∀ w, g.Generates name w ↔ g.eliminateLeftRecursion.Generates name w) ∧
      ∀ head ∈ g.names, ∃ g', g.eliminateImmediateLeftRecursion head = .ok g' ∧
        ∀ w, g.Generates name w ↔ g'.Generates name w := by
  have valid := reachable.wellFormed
  have named : name ∈ g.names := known
  refine ⟨(preserves_eliminateLeftRecursion valid).generates_iff valid named, ?_⟩
  intro head among
  refine ⟨_, eliminateImmediateLeftRecursion_eq_ok_iff.2 ⟨among, rfl⟩, ?_⟩
  exact (preserves_removeImmediate valid among).generates_iff valid named

/-- A grammar with a cycle, a nullable head and a name that carries a prime, as it is read. -/
def cyclicGrammar : Grammar where
  start := "S"
  nonTerminals :=
    .insert (.insert ∅ "S" (.ofProductions "S" (.ofList [["S", "S'"], ["S"], [epsilon]]))) "S'"
      (.ofProductions "S'" (.ofList [["S", "a"], ["b"]]))
  terminals := .ofList ["a", "b"]
  firstFollowValid := false

theorem cyclicGrammar_generates_iff :
    Grammar.parse "S -> S S' | S | &\nS' -> S a | b" = .ok cyclicGrammar ∧
      "S'" ∈ cyclicGrammar.nonTerminals ∧
      ∀ w, cyclicGrammar.Generates "S'" w ↔
        cyclicGrammar.eliminateLeftRecursion.Generates "S'" w := by
  have read : Grammar.parse "S -> S S' | S | &\nS' -> S a | b" = .ok cyclicGrammar := rfl
  have known : "S'" ∈ cyclicGrammar.nonTerminals := by decide
  exact ⟨read, known, ((Reachable.parse read).generates_iff_without_leftRecursion known).1⟩

end Grammar

end Predictive
