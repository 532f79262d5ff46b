import Predictive.Proofs.Grammar.Reachable
import Predictive.Proofs.LeftRecursion.Layers

set_option autoImplicit false

namespace Predictive

namespace Grammar

variable {g : Grammar}

/-- Afterwards no non-terminal has some bodies that begin with it and some that do not. If there were
no empty productions and every non-terminal generates something, the first symbols of the original
non-terminals ascend; if there were no cycles either, no left recursion is left, not even behind
nullable symbols. -/
theorem Reachable.leftRecursion_removed (reachable : g.Reachable) :
    (∀ name ∈ g.eliminateLeftRecursion.names, g.eliminateLeftRecursion.Settled name) ∧
      (g.EpsilonFree → (∀ name ∈ g.names, ∃ w, g.Generates name w) →
        (∀ name ∈ g.names, ∀ b ∈ g.eliminateLeftRecursion.bodies name, g.LedBy (name < ·) b) ∧
          ((∀ name, ¬ g.Cyclic name) →
            ∀ name, ¬ g.eliminateLeftRecursion.LeftRecursive name)) := by
  have valid := reachable.wellFormed
  refine ⟨settled_eliminateLeftRecursion valid, fun free generates => ?_⟩
  have productive := (productive_iff valid).2 generates
  refine ⟨ledBy_eliminateLeftRecursion valid free productive, fun acyclic => ?_⟩
  exact not_leftRecursive_eliminateLeftRecursion valid free productive acyclic

/-- Two non-terminals that recur to the left through each other, one of them also by itself, as they
are read. -/
def mutualGrammar : Grammar where
  start := "A"
  nonTerminals :=
    .insert (.insert ∅ "A" (.ofProductions "A" (.ofList [["B", "a"], ["c"]]))) "B"
      (.ofProductions "B" (.ofList [["A", "b"], ["B", "d"], ["d"]]))
  terminals := .ofList ["a", "b", "c", "d"]
  firstFollowValid := false

theorem mutualGrammar_leftRecursion_removed :
    Grammar.parse "A -> B a | c\nB -> A b | B d | d" = .ok mutualGrammar ∧
      mutualGrammar.EpsilonFree ∧
      (∀ name ∈ mutualGrammar.names, ∃ w, mutualGrammar.Generates name w) ∧
      (∀ name, ¬ mutualGrammar.Cyclic name) ∧
      mutualGrammar.eliminateLeftRecursion.names = ["A", "B", "B'"] ∧
      (mutualGrammar.eliminateLeftRecursion.bodies "A").toList = [["B", "a"], ["c"]] ∧
      (mutualGrammar.eliminateLeftRecursion.bodies "B").toList = [["c", "b", "B'"], ["d", "B'"]] ∧
      (mutualGrammar.eliminateLeftRecursion.bodies "B'").toList =
        [["&"], ["a", "b", "B'"], ["d", "B'"]] ∧
      ∀ name, ¬ mutualGrammar.eliminateLeftRecursion.LeftRecursive name := by
  have read : Grammar.parse "A -> B a | c\nB -> A b | B d | d" = .ok mutualGrammar := rfl
  have held : ∀ name ∈ mutualGrammar.names, ∀ b ∈ (mutualGrammar.bodies name).toList,
      b ≠ [epsilon] ∧ ∃ t ∈ Body.symbols b, t ∈ mutualGrammar.terminals := by decide
  have free : mutualGrammar.EpsilonFree := fun name b inside =>
    (held name (mem_names_of_mem_bodies inside) b inside).1
  have generates : ∀ name ∈ mutualGrammar.names, ∃ w, mutualGrammar.Generates name w := by
    intro name named
    have listed : name ∈ ["A", "B"] := named
    have cases : name = "A" ∨ name = "B" := by simpa using listed
    rcases cases with rfl | rfl
    · have body : ["c"] ∈ mutualGrammar.bodies "A" := by decide
      exact ⟨["c"], derives_of_mem_bodies body (Derives.refl _ ["c"]), by decide⟩
    · have body : ["d"] ∈ mutualGrammar.bodies "B" := by decide
      exact ⟨["d"], derives_of_mem_bodies body (Derives.refl _ ["d"]), by decide⟩
  have acyclic : ∀ name, ¬ mutualGrammar.Cyclic name := by
    intro name cyclic
    obtain ⟨b, inside, derived⟩ := cyclic
    have named := mem_names_of_mem_bodies inside
    obtain ⟨t, among, terminal⟩ := (held name named b inside).2
    have valid := (Reachable.parse read).wellFormed
    have kept := valid.mem_of_derives derived terminal among
    obtain rfl := List.mem_singleton.1 kept
    exact valid.disjoint t named terminal
  exact ⟨read, free, generates, acyclic, by decide +kernel, by decide +kernel, by decide +kernel,
    by decide +kernel, ((Reachable.parse read).leftRecursion_removed.2 free generates).2 acyclic⟩

end Grammar

end Predictive
