import Predictive.Proofs.Recognizer.Exactness

set_option autoImplicit false

namespace Predictive

open Grammar

variable {g : Grammar}

/-- Whatever the table, a symbol is accepted as the only token from itself. -/
theorem ParseTable.recognizes_start (t : ParseTable) {start : Symbol} (other : start ≠ endMark) :
    t.recognizes start [start] = true := by
  have plain : endMark ∉ [start] := by simpa using other.symm
  have first : t.move (initial start [start]) = .consume ⟨[endMark], [endMark]⟩ := by
    simp [move, initial, other]
  have last : t.move ⟨[endMark], [endMark]⟩ = .accept := by simp [move]
  exact (recognizes_iff_accepts plain).2 (.consume first (.accept last))

/-- The accepted tokens are a form of the start symbol, and they are terminals exactly if none of them
is a non-terminal. There is no grammar whose recognizer lets nothing but terminals through, as the
start symbol is accepted as a token. -/
theorem Grammar.Reachable.exists_table_accepts_symbols (reachable : g.Reachable) :
    ∃ table, g.buildTable = .ok table ∧
      (∀ tokens, table.recognizes g.start tokens = true → g.Derives [g.start] tokens ∧
        (∀ s ∈ tokens, s ∈ g.terminals ∨ s ∈ g.nonTerminals) ∧
        ((∀ s ∈ tokens, s ∈ g.terminals) ↔ ∀ s ∈ tokens, ¬ s ∈ g.nonTerminals)) ∧
      table.recognizes g.start [g.start] = true ∧ ¬ g.start ∈ g.terminals := by
  have valid := reachable.wellFormed
  have known : g.start ∈ g.allSymbols := mem_allSymbols.2 (.inl valid.start)
  obtain ⟨table, built, sound, -⟩ := exists_exact_table valid reachable.current
  refine ⟨table, built, fun tokens accepted => ?_,
    table.recognizes_start (valid.ne_endMark_of_mem known), valid.disjoint g.start valid.start⟩
  have derived := sound tokens accepted
  have symbols : ∀ s ∈ tokens, s ∈ g.nonTerminals ∨ s ∈ g.terminals := fun s inside =>
    mem_allSymbols.1 (derives_known valid derived (by simpa using known) s inside)
  refine ⟨derived, fun s inside => (symbols s inside).symm, fun terminal s inside named => ?_,
    fun plain s inside => (symbols s inside).resolve_left (plain s inside)⟩
  exact valid.disjoint s named (terminal s inside)

/-- A grammar of a letter with a tail behind it, as it is read. -/
def tailedGrammar : Grammar where
  start := "S"
  nonTerminals :=
    .insert (.insert ∅ "S" (.ofProductions "S" (.ofList [["a", "A"]]))) "A"
      (.ofProductions "A" (.ofList [["b", "A"], [epsilon]]))
  terminals := .ofList ["a", "b"]
  firstFollowValid := false

theorem tailedGrammar_tokens :
    Grammar.parse "S -> a A\nA -> b A | &" = .ok tailedGrammar ∧
      ∃ table, tailedGrammar.buildTable = .ok table ∧
        table.recognizes "S" ["a", "b", "A"] = true ∧ tailedGrammar.Derives ["S"] ["a", "b", "A"] ∧
        table.recognizes "S" ["S"] = true ∧ ¬ "S" ∈ tailedGrammar.terminals := by
  have read : Grammar.parse "S -> a A\nA -> b A | &" = .ok tailedGrammar := rfl
  obtain ⟨table, built, exact, itself, other⟩ := (Reachable.parse read).exists_table_accepts_symbols
  have answer : tailedGrammar.buildTable.map (·.recognizes "S" ["a", "b", "A"]) = .ok true := by
    decide +kernel
  rw [built] at answer
  have accepted := Except.ok.inj answer
  exact ⟨read, table, built, accepted, (exact _ accepted).1, itself, other⟩

/-- The recognizer of an LL(1) grammar lets a token through that is no terminal. -/
theorem exists_accepted_nonTerminal :
    ∃ g table, Grammar.parse "S -> a A\nA -> b A | &" = .ok g ∧ g.buildTable = .ok table ∧
      table.isLL1 = true ∧ table.recognizes g.start ["a", "A"] = true ∧ ¬ "A" ∈ g.terminals := by
  have answers : tailedGrammar.buildTable.map (fun t => (t.isLL1, t.recognizes "S" ["a", "A"])) =
      .ok (true, true) := by
    decide +kernel
  cases built : tailedGrammar.buildTable with
  | error fault => simp [built, Except.map] at answers
  | ok table =>
      rw [built] at answers
      obtain ⟨judged, accepted⟩ := Prod.mk.inj (Except.ok.inj answers)
      exact ⟨tailedGrammar, table, rfl, built, judged, accepted, by decide⟩

end Predictive
