import Predictive.Proofs.Grammar.Reachable
import Predictive.Proofs.Prediction.Factoring
import Predictive.Proofs.Prediction.LeftRecursion
import Predictive.Proofs.Prediction.Verdict

set_option autoImplicit false

namespace Predictive

namespace Grammar

variable {g : Grammar}

/-- The conversion of an LL(1) grammar is LL(1) if, and only if, what two bodies of a non-terminal
begin with alike stands for nothing. Every non-terminal has to stand for something, and every body
that is factored has to begin with the prefix. -/
theorem Reachable.exists_isLL1_convert (reachable : g.Reachable) (ll1 : g.isLL1 = .ok true)
    (generates : ∀ name ∈ g.names, ∃ w, g.Generates name w)
    (begin : g.eliminateLeftRecursion.LeftFactorsByPrefix) :
    ∃ c, g.convert = .ok c ∧ ∃ verdict, c.isLL1 = .ok verdict ∧
      (verdict = true ↔ c.SharesNothing) := by
  have valid := reachable.wellFormed
  obtain ⟨verdict, judged, exact⟩ := exists_isLL1 valid reachable.current
  obtain rfl := Except.ok.inj (ll1.symm.trans judged)
  have productive := (productive_iff valid).2 generates
  have separated := (exact.1 rfl).separated valid productive
  have eliminated := separated.eliminateLeftRecursion valid
  have factored := eliminated.leftFactor (preserves_eliminateLeftRecursion valid).wellFormed begin
  obtain ⟨c, done, same, valid', current⟩ := exists_convert valid
  obtain ⟨verdict, judged, exact⟩ := exists_isLL1 valid' current
  refine ⟨c, done, verdict, judged, ?_⟩
  rw [exact, (same.separated factored).deterministic_iff valid']

/-- An LL(1) grammar two non-terminals of which have alternatives that begin alike, as it is read. -/
def inlinedGrammar : Grammar where
  start := "S"
  nonTerminals :=
    .insert (.insert (.insert ∅ "S" (.ofProductions "S" (.ofList [["c", "A"], ["d", "B"]]))) "A"
      (.ofProductions "A" (.ofList [["x"], ["y"]]))) "B" (.ofProductions "B" (.ofList [["x", "z"]]))
  terminals := .ofList ["c", "d", "x", "y", "z"]
  firstFollowValid := false

theorem inlinedGrammar_isLL1_convert :
    Grammar.parse "S -> c A | d B\nA -> x | y\nB -> x z" = .ok inlinedGrammar ∧
      inlinedGrammar.isLL1 = .ok true ∧
      (∀ name ∈ inlinedGrammar.names, ∃ w, inlinedGrammar.Generates name w) ∧
      inlinedGrammar.eliminateLeftRecursion.LeftFactorsByPrefix ∧
      ∃ c, inlinedGrammar.convert = .ok c ∧ c.isLL1 = .ok true ∧ c.SharesNothing := by
  have read : Grammar.parse "S -> c A | d B\nA -> x | y\nB -> x z" = .ok inlinedGrammar := rfl
  have ll1 : inlinedGrammar.isLL1 = .ok true := by decide +kernel
  have begin : inlinedGrammar.eliminateLeftRecursion.LeftFactorsByPrefix := by decide +kernel
  have generates : ∀ name ∈ inlinedGrammar.names, ∃ w, inlinedGrammar.Generates name w := by
    intro name named
    have listed : name ∈ ["A", "B", "S"] := named
    have cases : name = "A" ∨ name = "B" ∨ name = "S" := by simpa using listed
    have first : ["x"] ∈ inlinedGrammar.bodies "A" := by decide
    have second : ["x", "z"] ∈ inlinedGrammar.bodies "B" := by decide
    have third : ["c", "A"] ∈ inlinedGrammar.bodies "S" := by decide
    rcases cases with rfl | rfl | rfl
    · exact ⟨["x"], derives_of_mem_bodies first (Derives.refl _ ["x"]), by decide⟩
    · exact ⟨["x", "z"], derives_of_mem_bodies second (Derives.refl _ ["x", "z"]), by decide⟩
    · have inner := derives_of_mem_bodies first (Derives.refl _ ["x"])
      exact ⟨["c", "x"], derives_of_mem_bodies third (.keep "c" inner), by decide⟩
  have judged : (inlinedGrammar.convert >>= isLL1) = .ok true := by decide +kernel
  -- the `@` spares an evaluation of what `begin` says
  obtain ⟨c, done, verdict, answered, exact⟩ :=
    (Reachable.parse read).exists_isLL1_convert ll1 generates @begin
  obtain ⟨c', done', positive⟩ := bind_eq_ok_iff.1 judged
  obtain rfl := Except.ok.inj (done.symm.trans done')
  obtain rfl := Except.ok.inj (answered.symm.trans positive)
  exact ⟨read, ll1, generates, begin, c, done, positive, exact.1 rfl⟩

/-- The text is read as an LL(1) grammar, the conversion of which is not LL(1). -/
def LosesLL1 (text : String) : Prop :=
  ∃ g, Grammar.parse text = .ok g ∧ g.isLL1 = .ok true ∧
    ∃ c, g.convert = .ok c ∧ c.isLL1 = .ok false

/-- The LL(1) verdicts on the grammar of a text before and after the conversion. -/
def verdicts (text : String) : Option (Bool × Bool) := do
  let g ← (Grammar.parse text).toOption
  let before ← g.isLL1.toOption
  let converted ← g.convert.toOption
  let after ← converted.isLL1.toOption
  return (before, after)

theorem toOption_eq_some_iff {ε α : Type} {x : Except ε α} {a : α} :
    x.toOption = some a ↔ x = .ok a := by
  cases x <;> simp [Except.toOption]

theorem losesLL1_iff {text : String} : LosesLL1 text ↔ verdicts text = some (true, false) := by
  simp only [LosesLL1, verdicts, Option.bind_eq_bind, Option.bind_eq_some_iff, toOption_eq_some_iff]
  constructor
  · rintro ⟨g, read, before, c, done, after⟩
    exact ⟨g, read, true, before, c, done, false, after, rfl⟩
  · rintro ⟨g, read, _, before, c, done, _, after, same⟩
    cases same
    exact ⟨g, read, before, c, done, after⟩

instance (text : String) : Decidable (LosesLL1 text) := decidable_of_iff _ losesLL1_iff.symm

/-- An LL(1) grammar does lose the property: where two groups of alternatives begin alike after
inlining, as a round factors one of them; where the symbols of the prefix stand in another alternative
as well, which is then cut off; and where the shared beginning stands for nothing at all. -/
theorem losesLL1_examples :
    LosesLL1 "S -> c A | d B\nA -> x | y\nB -> x | z" ∧
      LosesLL1 "S -> Z a | Z b | c Z a\nZ -> &" ∧
      LosesLL1 "T -> t S x\nS -> B x | B y | B\nB -> B" := by
  decide +kernel

end Grammar

end Predictive
