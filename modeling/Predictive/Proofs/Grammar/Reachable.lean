import Predictive.Grammar.Conversion
import Predictive.Proofs.Factoring.Rounds
import Predictive.Proofs.FirstFollow.Computed
import Predictive.Proofs.Grammar.Reading
import Predictive.Proofs.LeftRecursion.Elimination

set_option autoImplicit false

namespace Predictive

namespace Grammar

/-- The grammar is read from a text and has gone through some passes. -/
inductive Reachable : Grammar → Prop where
  | parse {text : String} {g : Grammar} (read : Grammar.parse text = .ok g) : Reachable g
  | eliminateLeftRecursion {g : Grammar} (before : Reachable g) :
      Reachable g.eliminateLeftRecursion
  | eliminateImmediateLeftRecursion {g g' : Grammar} {name : Symbol} (before : Reachable g)
      (done : g.eliminateImmediateLeftRecursion name = .ok g') : Reachable g'
  | leftFactor {g : Grammar} (before : Reachable g) : Reachable g.leftFactor
  | convert {g g' : Grammar} (before : Reachable g) (done : g.convert = .ok g') : Reachable g'
  | computeFirstFollow {g g' : Grammar} (before : Reachable g)
      (done : g.computeFirstFollow = .ok g') : Reachable g'
  | resetFirstFollow {g : Grammar} (before : Reachable g) : Reachable g.resetFirstFollow

variable {g g' : Grammar}

/-- A rewriting either does nothing or declares the stored sets out of date. -/
theorem Rewrites.current (rewrites : g.Rewrites g') (current : g.Current) : g'.Current := by
  rcases rewrites.stale with rfl | stale
  · exact current
  · exact current_of_invalid stale

/-- The conversion answers on a well-formed grammar. -/
theorem exists_convert (valid : g.WellFormed) : ∃ g', g.convert = .ok g' ∧
    g.eliminateLeftRecursion.leftFactor.SameRules g' ∧ g'.WellFormed ∧ g'.Current := by
  have eliminated := (preserves_eliminateLeftRecursion valid).toRewrites
  have factored := rewrites_leftFactor eliminated.wellFormed
  obtain ⟨g', done, -⟩ := factored.wellFormed.exists_computed
  obtain ⟨same, current⟩ := current_of_computeFirstFollow factored.wellFormed done
  exact ⟨g', done, same, same.wellFormed factored.wellFormed, current⟩

theorem Reachable.wellFormed_and_current (reachable : g.Reachable) :
    g.WellFormed ∧ g.Current := by
  induction reachable with
  | parse read =>
      obtain ⟨valid, stale⟩ := wellFormed_of_parse read
      exact ⟨valid, current_of_invalid stale⟩
  | eliminateLeftRecursion _ ih =>
      have rewrites := (preserves_eliminateLeftRecursion ih.1).toRewrites
      exact ⟨rewrites.wellFormed, rewrites.current ih.2⟩
  | eliminateImmediateLeftRecursion _ done ih =>
      obtain ⟨known, rfl⟩ := eliminateImmediateLeftRecursion_eq_ok_iff.1 done
      have rewrites := (preserves_removeImmediate ih.1 known).toRewrites
      exact ⟨rewrites.wellFormed, rewrites.current ih.2⟩
  | leftFactor _ ih =>
      have rewrites := rewrites_leftFactor ih.1
      exact ⟨rewrites.wellFormed, rewrites.current ih.2⟩
  | convert _ done ih =>
      obtain ⟨g', done', -, valid, current⟩ := exists_convert ih.1
      obtain rfl := Except.ok.inj (done.symm.trans done')
      exact ⟨valid, current⟩
  | computeFirstFollow _ done ih =>
      obtain ⟨same, current⟩ := current_of_computeFirstFollow ih.1 done
      exact ⟨same.wellFormed ih.1, current⟩
  | resetFirstFollow _ ih =>
      exact ⟨(sameRules_resetFirstFollow _).wellFormed ih.1, current_of_invalid rfl⟩

/-- Every symbol of a reachable grammar has one kind, and every body is in normal form. -/
theorem Reachable.wellFormed (reachable : g.Reachable) : g.WellFormed :=
  reachable.wellFormed_and_current.1

/-- The stored sets of a reachable grammar belong to its productions if they are declared valid. -/
theorem Reachable.current (reachable : g.Reachable) : g.Current :=
  reachable.wellFormed_and_current.2

end Grammar

end Predictive
