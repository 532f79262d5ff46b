import Predictive.Proofs.Grammar.Reachable
import Predictive.Proofs.ParseTable.Exactness
import Predictive.Proofs.Recognizer.Sentences
import Predictive.Proofs.Recognizer.Soundness

set_option autoImplicit false

namespace Predictive

open Grammar

variable {g : Grammar}

/-- The table can be built. It accepts only what the start symbol derives, and without conflict
every terminal string that it derives. -/
theorem exists_exact_table (valid : g.WellFormed) (current : g.Current) :
    ∃ table, g.buildTable = .ok table ∧
      (∀ tokens, table.recognizes g.start tokens = true → g.Derives [g.start] tokens) ∧
      (table.isLL1 = true → ∀ tokens, g.TerminalString tokens → g.Derives [g.start] tokens →
        table.recognizes g.start tokens = true) := by
  obtain ⟨_, table, -, -, built, tabulates⟩ := exists_tabulates valid current
  have own := tabulates.own
  refine ⟨table, built, fun tokens accepted => ?_, fun ll1 tokens terminal derived => ?_⟩
  · have other := valid.ne_endMark_of_mem (mem_allSymbols.2 (.inl valid.start))
    exact ParseTable.derives_of_expandsTo own (ParseTable.expandsTo_of_recognizes
      (ParseTable.endMarkFree_of_own own valid) other accepted)
  · have plain : endMark ∉ tokens :=
      fun inside => valid.noEndMark (mem_allSymbols.2 (.inr (terminal endMark inside)))
    have called (head token : Symbol) (b : Body) (inside : b ∈ g.bodies head)
        (predicts : g.Predicts head (Body.symbols b) token) : table.get? head token = some b :=
      ParseTable.get?_eq_some ll1 ((tabulates.cells head token b).2 ⟨inside, predicts⟩)
    have empty : table.Accepts ⟨[] ++ [endMark], [] ++ [endMark]⟩ := .accept rfl
    have whole : g.TerminalString (tokens ++ []) := by rwa [List.append_nil]
    have first : g.Derives [g.start] ([] ++ ([g.start] ++ [])) := Derives.refl g [g.start]
    have accepts : table.Accepts ⟨[g.start] ++ [] ++ [endMark], tokens ++ [] ++ [endMark]⟩ :=
      accepts_of_derives valid called derived whole .nil first empty
    rw [List.append_nil, List.append_nil] at accepts
    exact (ParseTable.recognizes_iff_accepts plain).2 accepts

theorem isLL1_eq_ok_true_iff {table : ParseTable} (built : g.buildTable = .ok table) :
    g.isLL1 = .ok true ↔ table.isLL1 = true := by
  rw [Grammar.isLL1, built]
  exact pure_eq_ok_iff

/-- For a grammar without conflicts the recognizer accepts exactly the sentences. -/
theorem recognizes_iff_derives_start (reachable : g.Reachable) (ll1 : g.isLL1 = .ok true)
    {tokens : List Symbol} (plain : ∀ s ∈ tokens, ¬ s ∈ g.nonTerminals) :
    ∃ table, g.buildTable = .ok table ∧
      (table.recognizes g.start tokens = true ↔ g.Derives [g.start] tokens) := by
  have valid := reachable.wellFormed
  obtain ⟨table, built, sound, complete⟩ := exists_exact_table valid reachable.current
  refine ⟨table, built, sound tokens, fun derived => ?_⟩
  have generated := (generates_iff valid valid.start).1 ⟨derived, plain⟩
  exact complete ((isLL1_eq_ok_true_iff built).1 ll1) tokens generated.2 derived

/-- A grammar of a nullable list, as it is read. -/
def listGrammar : Grammar where
  start := "S"
  nonTerminals :=
    .insert (.insert ∅ "S" (.ofProductions "S" (.ofList [["L", "end"]]))) "L"
      (.ofProductions "L" (.ofList [["item", "L"], [epsilon]]))
  terminals := .ofList ["end", "item"]
  firstFollowValid := false

theorem listGrammar_exact :
    Grammar.parse "S -> L end\nL -> item L | &" = .ok listGrammar ∧
      listGrammar.isLL1 = .ok true ∧
      ∃ table, listGrammar.buildTable = .ok table ∧
        (table.recognizes "S" ["item", "end"] = true ↔
          listGrammar.Derives ["S"] ["item", "end"]) := by
  have read : Grammar.parse "S -> L end\nL -> item L | &" = .ok listGrammar := rfl
  refine ⟨read, rfl, ?_⟩
  exact recognizes_iff_derives_start (.parse read) rfl (by decide)

/-- Whatever the table of a grammar is like, and from every start symbol but the end mark, the
recognizer lets nothing through but what the start symbol becomes by bodies that the table holds in
the cells of the expanded non-terminals. Without non-terminals among the tokens this is a string that
the start symbol generates, of terminals if it is a symbol of the grammar. -/
theorem Grammar.Reachable.exists_table_sound (reachable : g.Reachable) :
    ∃ table, g.buildTable = .ok table ∧
      ∀ start tokens, start ≠ endMark → table.recognizes start tokens = true →
        table.ExpandsTo [start] tokens ∧ g.Derives [start] tokens ∧
        ((∀ s ∈ tokens, ¬ s ∈ g.nonTerminals) → g.Generates start tokens ∧
          (start ∈ g.allSymbols → g.TerminalString tokens)) := by
  have valid := reachable.wellFormed
  obtain ⟨_, table, -, -, built, tabulates⟩ := exists_tabulates valid reachable.current
  have own := tabulates.own
  refine ⟨table, built, fun start tokens other accepted => ?_⟩
  have expands := ParseTable.expandsTo_of_recognizes (ParseTable.endMarkFree_of_own own valid) other
    accepted
  have derived := ParseTable.derives_of_expandsTo own expands
  refine ⟨expands, derived, fun plain => ⟨⟨derived, plain⟩, fun known s inside => ?_⟩⟩
  have symbol := derives_known valid derived (by simpa using known) s inside
  exact (mem_allSymbols.1 symbol).resolve_left (plain s inside)

theorem danglingGrammar_table_sound :
    Grammar.parse "S -> i S E | a\nE -> e S | &" = .ok danglingGrammar ∧
      ∃ table, danglingGrammar.buildTable = .ok table ∧ table.isLL1 = false ∧
        "S" ≠ endMark ∧ table.recognizes "S" ["i", "i", "a", "e", "S"] = true ∧
        table.ExpandsTo ["S"] ["i", "i", "a", "e", "S"] := by
  have read : Grammar.parse "S -> i S E | a\nE -> e S | &" = .ok danglingGrammar := rfl
  obtain ⟨table, built, sound⟩ := (Grammar.Reachable.parse read).exists_table_sound
  have answers : danglingGrammar.buildTable.map (fun t =>
      (t.isLL1, t.recognizes "S" ["i", "i", "a", "e", "S"])) = .ok (false, true) := by
    decide +kernel
  rw [built] at answers
  obtain ⟨judged, accepted⟩ := Prod.mk.inj (Except.ok.inj answers)
  have other : "S" ≠ endMark := by decide
  exact ⟨read, table, built, judged, other, accepted, (sound "S" _ other accepted).1⟩

end Predictive
