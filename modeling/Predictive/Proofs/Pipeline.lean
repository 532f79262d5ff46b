import Predictive.Proofs.Recognizer.Exactness
import Predictive.Summary

set_option autoImplicit false

namespace Predictive

open Grammar

variable {g : Grammar}

theorem exists_convert_generates (valid : g.WellFormed)
    (begin : g.eliminateLeftRecursion.LeftFactorsByPrefix) :
    ∃ converted, g.convert = .ok converted ∧ converted.WellFormed ∧ converted.Current ∧
      converted.start = g.start ∧
      ∀ name ∈ g.names, ∀ w, g.Generates name w ↔ converted.Generates name w := by
  have eliminated := preserves_eliminateLeftRecursion valid
  have factored := eliminated.trans (preserves_leftFactor eliminated.wellFormed begin)
  obtain ⟨converted, done, same, valid', current⟩ := exists_convert valid
  refine ⟨converted, done, valid', current, same.start.trans factored.start, ?_⟩
  intro name named w
  exact (factored.generates_iff valid named w).trans same.generates_iff

namespace Summary

/-- The verdict on an input whose tokens are no non-terminals of the converted grammar. -/
theorem recognize_exact {text : String} (read : Grammar.parse text = .ok g)
    (begin : g.eliminateLeftRecursion.LeftFactorsByPrefix) :
    ∃ converted, g.convert = .ok converted ∧
      ∀ input, (∀ s ∈ tokens input, ¬ s ∈ converted.nonTerminals) →
        ∃ verdict, recognize text input = .ok verdict ∧
          (verdict = true → g.Generates g.start (tokens input)) ∧
          (converted.isLL1 = .ok true → g.Generates g.start (tokens input) → verdict = true) := by
  have valid := (wellFormed_of_parse read).1
  obtain ⟨converted, done, valid', current, start, language⟩ := exists_convert_generates valid begin
  obtain ⟨table, built, sound, complete⟩ := exists_exact_table valid' current
  refine ⟨converted, done, fun input plain => ?_⟩
  refine ⟨table.recognizes converted.start (tokens input), ?_, ?_, ?_⟩
  · rw [recognize, read]
    exact bind_eq_ok_iff.2 ⟨converted, done, bind_eq_ok_iff.2 ⟨table, built, rfl⟩⟩
  · intro accepted
    rw [language g.start valid.start, ← start]
    exact ⟨sound _ accepted, plain⟩
  · intro ll1 generated
    rw [language g.start valid.start, ← start] at generated
    have terminal := ((generates_iff valid' valid'.start).1 generated).2
    exact complete ((isLL1_eq_ok_true_iff built).1 ll1) _ terminal generated.1

/-- A left-recursive grammar with a shared prefix, as it is read. -/
def choiceGrammar : Grammar where
  start := "S"
  nonTerminals :=
    .insert ∅ "S" (.ofProductions "S" (.ofList [["S", "a"], ["b", "c"], ["b", "d"]]))
  terminals := .ofList ["a", "b", "c", "d"]
  firstFollowValid := false

theorem choiceGrammar_recognized :
    Grammar.parse "S -> S a | b c | b d" = .ok choiceGrammar ∧
      choiceGrammar.eliminateLeftRecursion.LeftFactorsByPrefix ∧
      ∃ verdict, recognize "S -> S a | b c | b d" "b d a a" = .ok verdict ∧
        (verdict = true ↔ choiceGrammar.Generates "S" ["b", "d", "a", "a"]) := by
  have read : Grammar.parse "S -> S a | b c | b d" = .ok choiceGrammar := rfl
  have begin : choiceGrammar.eliminateLeftRecursion.LeftFactorsByPrefix := by decide +kernel
  obtain ⟨converted, done, exact⟩ := recognize_exact read begin
  have names : choiceGrammar.convert.toOption.map Grammar.names = some ["S", "S'", "S''"] := by
    decide +kernel
  have ll1 : choiceGrammar.convert.toOption.map (fun c => c.isLL1.toOption) = some (some true) := by
    decide +kernel
  have split : tokens "b d a a" = ["b", "d", "a", "a"] := rfl
  rw [done] at names ll1
  have apart : ∀ s ∈ ["b", "d", "a", "a"], s ∉ ["S", "S'", "S''"] := by decide
  have plain : ∀ s ∈ tokens "b d a a", ¬ s ∈ converted.nonTerminals := by
    rw [split]
    intro s inside named
    have among : s ∈ converted.names := named
    rw [Option.some.inj names] at among
    exact apart s inside among
  obtain ⟨verdict, answered, sound, complete⟩ := exact "b d a a" plain
  rw [split] at sound complete
  have free : converted.isLL1 = .ok true := by
    cases answer : converted.isLL1 with
    | error fault => simp [answer, Except.toOption] at ll1
    | ok free => simpa [answer, Except.toOption] using ll1
  exact ⟨read, begin, verdict, answered, sound, complete free⟩

end Summary

end Predictive
