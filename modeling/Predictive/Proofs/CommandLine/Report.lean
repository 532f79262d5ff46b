import Predictive.CommandLine.Report
import Predictive.Proofs.Layout.Rules
import Predictive.Proofs.ParseTable.Determined

set_option autoImplicit false

namespace Predictive

namespace Grammar

variable {g h : Grammar}

theorem SameRules.showProductions_eq (same : g.SameRules h) (format : Format) :
    h.showProductions format = g.showProductions format := by
  cases format with
  | plain => simp only [showProductions, productionsPlain, same.rules_eq]
  | latex => simp only [showProductions, productionsLatex, same.rules_eq, same.terminals]
  | json => simp only [showProductions, productionsJson, same.rules_eq]

end Grammar

namespace CommandLine

open Grammar

variable {g r : Grammar} {table : ParseTable} {format : Format}

/-- The text of an output that shows the productions of `g`, the sets of `r` or the table. -/
def Output.text (format : Format) (g r : Grammar) (table : ParseTable) : Output → String
  | .productions => g.showProductions format ++ "\n"
  | .firstFollow => r.showFirstFollow format ++ "\n"
  | .table => table.render format ++ "\n"

/-- The warnings that come with an output. -/
def Output.warnings (table : ParseTable) : Output → String
  | .table => "".intercalate (table.conflicts.map conflictWarning)
  | _ => ""

/-- The last line of a report and its warning: what the table says about the tokens, if there are any.
-/
def Report.withVerdict (report : Report) (table : ParseTable) (start : Symbol) :
    Option String → Report
  | none => report
  | some tokens =>
    let accepted := table.recognizes start (Summary.tokens tokens)
    { stdout := report.stdout ++ if accepted then "accept\n" else "reject\n"
      stderr := report.stderr ++
        if table.isLL1 then "" else "warning: the grammar is not LL(1), the result is unreliable\n"
      code := if accepted then report.code else 2 }

/-- The report on the productions of `g`, where the sets are those of `r`. -/
def describe (options : Options) (g r : Grammar) (table : ParseTable) : Report :=
  let format := options.format.getD .plain
  let written := Report.mk (String.join (options.outputs.map (Output.text format g r table)))
    (String.join (options.outputs.map (Output.warnings table))) 0
  written.withVerdict table g.start options.tokens

theorem addOutput_eq (determines : g.Determines r table) (report : Report) (output : Output) :
    report.addOutput format r output = .ok
      ⟨report.stdout ++ output.text format g r table, report.stderr ++ output.warnings table,
        report.code⟩ := by
  cases output with
  | productions =>
      rw [Report.addOutput, determines.rules.showProductions_eq]
      simp only [Output.text, Output.warnings, String.append_assoc, String.append_empty]
  | firstFollow =>
      simp only [Report.addOutput, Output.text, Output.warnings, String.append_assoc,
        String.append_empty]
  | table =>
      have built := (determines.rules.determines determines).buildTable determines.current
      refine bind_eq_ok_iff.2 ⟨table, built, ?_⟩
      simp only [Output.text, Output.warnings, String.append_assoc]
      rfl

theorem foldlM_addOutput_eq (determines : g.Determines r table) (outputs : List Output)
    (report : Report) :
    outputs.foldlM (Report.addOutput format r) report = .ok
      ⟨report.stdout ++ String.join (outputs.map (Output.text format g r table)),
        report.stderr ++ String.join (outputs.map (Output.warnings table)), report.code⟩ := by
  induction outputs generalizing report with
  | nil => simp only [List.foldlM_nil, List.map_nil, String.join_nil, String.append_empty]; rfl
  | cons output outputs ih =>
      rw [List.foldlM_cons, addOutput_eq determines]
      refine (ih _).trans ?_
      simp only [List.map_cons, String.join_cons, String.append_assoc]

theorem addVerdict_eq (built : r.buildTable = .ok table) (report : Report) (tokens : String) :
    report.addVerdict r tokens = .ok (report.withVerdict table r.start (some tokens)) := by
  refine bind_eq_ok_iff.2 ⟨table, built, ?_⟩
  simp only [Report.withVerdict]
  split
  case isTrue accepted => rfl
  case isFalse rejected => rfl

theorem exists_transformed (reachable : g.Reachable) (actions : List Action) :
    ∃ g', actions.foldlM Action.apply g = .ok g' ∧ g'.Reachable := by
  induction actions generalizing g with
  | nil => exact ⟨g, rfl, reachable⟩
  | cons action actions ih =>
      have step : ∃ next, action.apply g = .ok next ∧ next.Reachable := by
        cases action with
        | eliminateLeftRecursion => exact ⟨_, rfl, .eliminateLeftRecursion reachable⟩
        | leftFactor => exact ⟨_, rfl, .leftFactor reachable⟩
        | convert =>
            obtain ⟨next, done, -⟩ := exists_convert reachable.wellFormed
            exact ⟨next, done, .convert reachable done⟩
      obtain ⟨next, done, reachable'⟩ := step
      obtain ⟨g', rest, reachable''⟩ := ih reachable'
      refine ⟨g', ?_, reachable''⟩
      rw [List.foldlM_cons, done]
      exact rest

theorem exists_respond_eq_describe (options : Options) {text : String}
    (read : Grammar.parse text = .ok g) :
    ∃ g' r table, options.actions.foldlM Action.apply g = .ok g' ∧ g'.Reachable ∧
      g'.Determines r table ∧ respond options text = .ok (describe options g' r table) := by
  obtain ⟨g', transformed, reachable⟩ := exists_transformed (.parse read) options.actions
  obtain ⟨r, table, determines⟩ := reachable.wellFormed.exists_determines
  refine ⟨g', r, table, transformed, reachable, determines, ?_⟩
  have computed := determines.withFirstFollow reachable.current
  have built := (determines.rules.determines determines).buildTable determines.current
  simp only [respond, read]
  refine bind_eq_ok_iff.2 ⟨g', transformed, bind_eq_ok_iff.2 ⟨r, computed, ?_⟩⟩
  refine bind_eq_ok_iff.2 ⟨_, foldlM_addOutput_eq determines options.outputs ⟨"", "", 0⟩, ?_⟩
  simp only [String.empty_append, describe]
  cases options.tokens with
  | none => rfl
  | some tokens => rw [← determines.rules.start]; exact addVerdict_eq built _ tokens

/-- The sets of a reachable grammar are those of its productions where they are declared valid, so
they may be used or computed again: all reachable grammars with the same productions, and those whose
sets are forgotten, have the same table. The report on a text shows the productions after the actions,
and the sets and the table in it are determined by these productions. -/
theorem sets_never_stale :
    (∀ g : Grammar, g.Reachable → ∃ r table, g.Determines r table ∧
      (g.firstFollowValid = true → g = r) ∧
      ∀ h, g.SameRules h → h.Reachable ∨ h.firstFollowValid = false →
        h.buildTable = .ok table ∧ h.isLL1 = .ok table.isLL1) ∧
    ∀ options text g, Grammar.parse text = .ok g →
      ∃ g' r table, options.actions.foldlM Action.apply g = .ok g' ∧ g'.Reachable ∧
        g'.Determines r table ∧ respond options text = .ok (describe options g' r table) := by
  refine ⟨fun g reachable => ?_, fun options text g read => exists_respond_eq_describe options read⟩
  obtain ⟨r, table, determines⟩ := reachable.wellFormed.exists_determines
  refine ⟨r, table, determines, determines.eq_of_valid reachable.current, fun h same kept => ?_⟩
  have current : h.Current := kept.elim Reachable.current current_of_invalid
  have here := same.determines determines
  exact ⟨here.buildTable current, here.isLL1 current⟩

/-- Alternatives that begin alike in two lengths, as they are read. -/
def forkedGrammar : Grammar where
  start := "S"
  nonTerminals := .insert ∅ "S"
    (.ofProductions "S" (.ofList [["a", "b", "c"], ["a", "b", "d"], ["a", "e"], ["f"]]))
  terminals := .ofList ["a", "b", "c", "d", "e", "f"]
  firstFollowValid := false

/-- Options whose second action rewrites what the first one has computed sets for. -/
def forkedOptions : Options where
  actions := [.convert, .leftFactor]
  outputs := [.firstFollow, .productions, .table]
  format := none
  tokens := some "a b d"
  file := none

theorem forkedGrammar_report :
    Grammar.parse "S -> a b c | a b d | a e | f" = .ok forkedGrammar ∧
      ∃ g r table, forkedOptions.actions.foldlM Action.apply forkedGrammar = .ok g ∧
        g.Determines r table ∧ r.Reachable ∧ r.firstFollowValid = true ∧
        r.buildTable = .ok table ∧ r.resetFirstFollow.buildTable = .ok table ∧
        describe forkedOptions g r table =
          ⟨"S | false | a, f | $\nS' | false | c, d | $\nS'' | false | b, e | $\n" ++
            "  S -> a S''\n     | f\n S' -> c\n     | d\nS'' -> b S'\n     | e\n" ++
            "    |          a |           b |       c |       d |        e |      f | $\n" ++
            "  S | S -> a S'' |             |         |         |          | S -> f |  \n" ++
            " S' |            |             | S' -> c | S' -> d |          |        |  \n" ++
            "S'' |            | S'' -> b S' |         |         | S'' -> e |        |  \n" ++
            "accept\n", "", 0⟩ := by
  have read : Grammar.parse "S -> a b c | a b d | a e | f" = .ok forkedGrammar := rfl
  obtain ⟨stored, reported⟩ := sets_never_stale
  obtain ⟨g, r, table, transformed, reachable, determines, written⟩ :=
    reported forkedOptions _ _ read
  have computed := Reachable.computeFirstFollow reachable (determines.sets g (.refl g))
  obtain ⟨r', table', determines', same, tables⟩ := stored r computed
  obtain rfl := same determines.valid
  obtain rfl := Except.ok.inj (determines'.table.symm.trans determines.table)
  have used := tables r (.refl r) (.inl computed)
  have forgotten := tables r.resetFirstFollow (sameRules_resetFirstFollow r) (.inr rfl)
  refine ⟨read, g, r, _, transformed, determines, computed, determines.valid, used.1, forgotten.1, ?_⟩
  refine Except.ok.inj (written.symm.trans ?_)
  decide +kernel

end CommandLine

end Predictive
