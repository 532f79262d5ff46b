import Predictive.Proofs.Grammar.Reachable

set_option autoImplicit false

namespace Predictive

namespace Grammar

variable {g : Grammar}

/-- The inlining phase keeps what the non-terminals generate. The factoring phase and the whole
round do where every body that is moved begins with the prefix. -/
theorem Reachable.generates_iff_leftFactor (reachable : g.Reachable) {name : Symbol}
    (known : name ∈ g.nonTerminals) :
    (∀ w, g.Generates name w ↔ g.inlineCollisions.Generates name w) ∧
      (FactorsAllByPrefix g.names g → ∀ w, g.Generates name w ↔ g.factorAll.Generates name w) ∧
      (FactorsAllByPrefix g.inlineCollisions.names g.inlineCollisions →
        ∀ w, g.Generates name w ↔ g.leftFactor.Generates name w) := by
  have valid := reachable.wellFormed
  have named : name ∈ g.names := known
  refine ⟨(preserves_inlineCollisions valid).generates_iff valid named, ?_, ?_⟩
  · intro begin
    exact (preserves_factorAll valid begin).generates_iff valid named
  · intro begin
    exact (preserves_leftFactor valid begin).generates_iff valid named

/-- A grammar whose alternatives collide behind two non-terminals, one of them nullable, as it is
read. -/
def collidingGrammar : Grammar where
  start := "S"
  nonTerminals :=
    .insert (.insert (.insert ∅ "S" (.ofProductions "S" (.ofList [["c", "A", "d"], ["c", "B"]]))) "A"
      (.ofProductions "A" (.ofList [["a"], [epsilon]]))) "B"
      (.ofProductions "B" (.ofList [["a", "b"]]))
  terminals := .ofList ["a", "b", "c", "d"]
  firstFollowValid := false

theorem collidingGrammar_generates_iff :
    Grammar.parse "S -> c A d | c B\nA -> a | &\nB -> a b" = .ok collidingGrammar ∧
      "S" ∈ collidingGrammar.nonTerminals ∧
      FactorsAllByPrefix collidingGrammar.names collidingGrammar ∧
      FactorsAllByPrefix collidingGrammar.inlineCollisions.names collidingGrammar.inlineCollisions ∧
      (∀ w, collidingGrammar.Generates "S" w ↔ collidingGrammar.factorAll.Generates "S" w) ∧
      ∀ w, collidingGrammar.Generates "S" w ↔ collidingGrammar.leftFactor.Generates "S" w := by
  have read : Grammar.parse "S -> c A d | c B\nA -> a | &\nB -> a b" = .ok collidingGrammar := rfl
  have known : "S" ∈ collidingGrammar.nonTerminals := by decide
  have alone : FactorsAllByPrefix collidingGrammar.names collidingGrammar := by decide +kernel
  have inlined : FactorsAllByPrefix collidingGrammar.inlineCollisions.names
      collidingGrammar.inlineCollisions := by decide +kernel
  obtain ⟨-, factored, round⟩ := (Reachable.parse read).generates_iff_leftFactor known
  exact ⟨read, known, alone, inlined, factored alone, round inlined⟩

end Grammar

end Predictive
