import Predictive.Proofs.Grammar.Reachable
import Predictive.Proofs.InPlace.Factoring
import Predictive.Proofs.InPlace.FirstFollow
import Predictive.Proofs.InPlace.LeftRecursion
import Predictive.Proofs.Prediction.Verdict

set_option autoImplicit false

namespace Predictive

namespace Grammar

/-- The passes that a program may ask for. -/
inductive Pass where
  | eliminateLeftRecursion
  | eliminateImmediateLeftRecursion (name : Symbol)
  | leftFactor
  | convert
  | computeFirstFollow
  | resetFirstFollow
deriving DecidableEq

namespace Pass

/-- A pass for one name asks for a non-terminal. -/
def Applicable (g : Grammar) : Pass → Prop
  | .eliminateImmediateLeftRecursion name => name ∈ g.names
  | _ => True

def apply (g : Grammar) : Pass → Except Fault Grammar
  | .eliminateLeftRecursion => .ok g.eliminateLeftRecursion
  | .eliminateImmediateLeftRecursion name => g.eliminateImmediateLeftRecursion name
  | .leftFactor => .ok g.leftFactor
  | .convert => g.convert
  | .computeFirstFollow => g.computeFirstFollow
  | .resetFirstFollow => .ok g.resetFirstFollow

/-- The pass by edits of single bodies, each of which fails at a name that is no non-terminal. -/
def perform (g : Grammar) : Pass → Except Fault Grammar
  | .eliminateLeftRecursion => InPlace.eliminateLeftRecursion g
  | .eliminateImmediateLeftRecursion name => InPlace.removeImmediate g name
  | .leftFactor => InPlace.leftFactor g
  | .convert => do
    let eliminated ← InPlace.eliminateLeftRecursion g
    let factored ← InPlace.leftFactor eliminated
    InPlace.computeFirstFollow factored
  | .computeFirstFollow => InPlace.computeFirstFollow g
  | .resetFirstFollow => .ok g.resetFirstFollow

/-- Whether every pass of a sequence is applicable to the grammar that the passes before it leave. -/
def AllApplicable : List Pass → Grammar → Prop
  | [], _ => True
  | pass :: rest, g => pass.Applicable g ∧ ∀ g', pass.apply g = .ok g' → AllApplicable rest g'

end Pass

/-- Start symbol and terminals are those of `g`, and no non-terminal of `g` is missing. -/
structure Retains (g g' : Grammar) : Prop where
  start : g'.start = g.start
  terminals : g'.terminals = g.terminals
  names : ∀ name ∈ g.names, name ∈ g'.names

variable {g g' g'' : Grammar}

theorem Retains.refl (g : Grammar) : g.Retains g := ⟨rfl, rfl, fun _ named => named⟩

theorem Retains.trans (first : g.Retains g') (second : g'.Retains g'') : g.Retains g'' where
  start := second.start.trans first.start
  terminals := second.terminals.trans first.terminals
  names name named := second.names name (first.names name named)

theorem Rewrites.retains (rewrites : g.Rewrites g') : g.Retains g' :=
  ⟨rewrites.start, rewrites.terminals, rewrites.names⟩

theorem SameRules.retains (same : g.SameRules g') : g.Retains g' :=
  ⟨same.start, same.terminals, fun name named => by rwa [same.names]⟩

theorem Reachable.exists_apply (reachable : g.Reachable) {pass : Pass}
    (applicable : pass.Applicable g) :
    ∃ g', pass.apply g = .ok g' ∧ g'.Reachable ∧ g.Retains g' := by
  have valid := reachable.wellFormed
  have eliminated := (preserves_eliminateLeftRecursion valid).toRewrites
  cases pass with
  | eliminateLeftRecursion => exact ⟨_, rfl, .eliminateLeftRecursion reachable, eliminated.retains⟩
  | eliminateImmediateLeftRecursion name =>
      have done : g.eliminateImmediateLeftRecursion name = .ok (g.removeImmediate name) :=
        eliminateImmediateLeftRecursion_eq_ok_iff.2 ⟨applicable, rfl⟩
      exact ⟨_, done, .eliminateImmediateLeftRecursion reachable done,
        (preserves_removeImmediate valid applicable).toRewrites.retains⟩
  | leftFactor => exact ⟨_, rfl, .leftFactor reachable, (rewrites_leftFactor valid).retains⟩
  | convert =>
      obtain ⟨g', done, same, -, -⟩ := exists_convert valid
      have factored := rewrites_leftFactor eliminated.wellFormed
      exact ⟨g', done, .convert reachable done,
        (eliminated.trans factored).retains.trans same.retains⟩
  | computeFirstFollow =>
      obtain ⟨g', done, -⟩ := valid.exists_computed
      exact ⟨g', done, .computeFirstFollow reachable done,
        (current_of_computeFirstFollow valid done).1.retains⟩
  | resetFirstFollow =>
      exact ⟨_, rfl, .resetFirstFollow reachable, (sameRules_resetFirstFollow g).retains⟩

theorem Reachable.perform_eq_apply (reachable : g.Reachable) (pass : Pass) :
    pass.perform g = pass.apply g := by
  have valid := reachable.wellFormed
  cases pass with
  | eliminateLeftRecursion => exact InPlace.eliminateLeftRecursion_eq g
  | eliminateImmediateLeftRecursion name => exact InPlace.removeImmediate_eq_eliminateImmediate g name
  | leftFactor => exact InPlace.leftFactor_eq valid.named
  | convert =>
      have eliminated := (preserves_eliminateLeftRecursion valid).toRewrites.wellFormed
      rw [Pass.perform, InPlace.eliminateLeftRecursion_eq]
      show (InPlace.leftFactor g.eliminateLeftRecursion >>= InPlace.computeFirstFollow) = _
      rw [InPlace.leftFactor_eq eliminated.named]
      exact InPlace.computeFirstFollow_eq _
  | computeFirstFollow => exact InPlace.computeFirstFollow_eq g
  | resetFirstFollow => rfl

theorem Reachable.exists_foldlM (reachable : g.Reachable) {passes : List Pass}
    (applicable : Pass.AllApplicable passes g) :
    ∃ g', passes.foldlM Pass.perform g = .ok g' ∧ passes.foldlM Pass.apply g = .ok g' ∧
      g'.Reachable ∧ g.Retains g' := by
  induction passes generalizing g with
  | nil => exact ⟨g, rfl, rfl, reachable, .refl g⟩
  | cons pass passes ih =>
      obtain ⟨first, later⟩ := applicable
      obtain ⟨next, done, reachable', retains⟩ := reachable.exists_apply first
      obtain ⟨g', edited, rest, reachable'', retains'⟩ := ih reachable' (later next done)
      refine ⟨g', ?_, ?_, reachable'', retains.trans retains'⟩
      · rw [List.foldlM_cons, reachable.perform_eq_apply, done]
        exact edited
      · rw [List.foldlM_cons, done]
        exact rest

/-- A grammar that was read from a text and has gone through some passes is well-formed, every entry
carries the name that it is held under, and further passes keep all that: edit by edit they answer
with such a grammar again, with the same start symbol and terminals and no non-terminal less. The
table, the verdict on it and FIRST of known symbols are answered as well. -/
theorem Reachable.exists_run (reachable : g.Reachable) :
    g.WellFormed ∧
      (∀ key entry, g.nonTerminals.get? key = some entry → entry.name = key) ∧
      (∀ passes : List Pass, Pass.AllApplicable passes g →
        ∃ g', passes.foldlM Pass.perform g = .ok g' ∧ passes.foldlM Pass.apply g = .ok g' ∧
          g'.Reachable ∧ g.Retains g') ∧
      (∃ table, g.buildTable = .ok table) ∧ (∃ verdict, g.isLL1 = .ok verdict) ∧
      ∀ body : Body, (∀ s ∈ body, s = epsilon ∨ s ∈ g.allSymbols) →
        ∃ marks, g.firstOf body = .ok marks := by
  have valid := reachable.wellFormed
  obtain ⟨_, table, -, -, built, -⟩ := exists_tabulates valid reachable.current
  have verdict : g.isLL1 = .ok table.isLL1 := bind_eq_ok_iff.2 ⟨table, built, rfl⟩
  exact ⟨valid, valid.named, fun _ applicable => reachable.exists_foldlM applicable,
    ⟨table, built⟩, ⟨table.isLL1, verdict⟩, fun _ known => exists_firstOf known⟩

/-- A left-recursive grammar with a primed name and two alternatives that begin alike, as it is read.
-/
def primedGrammar : Grammar where
  start := "S"
  nonTerminals :=
    .insert (.insert ∅ "S" (.ofProductions "S" (.ofList [["S", "a"], ["b", "S'"], ["b", "c"]]))) "S'"
      (.ofProductions "S'" (.ofList [["S'", "d"], [epsilon]]))
  terminals := .ofList ["a", "b", "c", "d"]
  firstFollowValid := false

/-- Passes the third of which is for the fresh name that the first one adds. -/
def primedPasses : List Pass :=
  [.eliminateImmediateLeftRecursion "S", .leftFactor, .eliminateImmediateLeftRecursion "S''",
    .convert, .resetFirstFollow]

theorem primedGrammar_run :
    Grammar.parse "S -> S a | b S' | b c\nS' -> S' d | &" = .ok primedGrammar ∧
      Pass.AllApplicable primedPasses primedGrammar ∧
      ∃ g', primedPasses.foldlM Pass.perform primedGrammar = .ok g' ∧ g'.Reachable ∧
        primedGrammar.Retains g' := by
  have read : Grammar.parse "S -> S a | b S' | b c\nS' -> S' d | &" = .ok primedGrammar := rfl
  have known : "S" ∈ primedGrammar.names := by decide
  have fresh : "S''" ∈ (primedGrammar.removeImmediate "S").leftFactor.names := by decide +kernel
  have applicable : Pass.AllApplicable primedPasses primedGrammar := by
    refine ⟨known, fun g first => ⟨trivial, fun h second => ⟨?_, fun _ _ =>
      ⟨trivial, fun _ _ => ⟨trivial, fun _ _ => trivial⟩⟩⟩⟩⟩
    obtain ⟨-, rfl⟩ := eliminateImmediateLeftRecursion_eq_ok_iff.1 first
    obtain rfl := Except.ok.inj second
    exact fresh
  obtain ⟨-, -, runs, -⟩ := (Reachable.parse read).exists_run
  obtain ⟨g', done, -, reachable, retains⟩ := runs primedPasses applicable
  exact ⟨read, applicable, g', done, reachable, retains⟩

end Grammar

end Predictive
