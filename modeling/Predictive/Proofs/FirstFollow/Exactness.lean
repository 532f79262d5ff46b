import Predictive.Proofs.FirstFollow.Neighbours
import Predictive.Proofs.Grammar.Reachable

set_option autoImplicit false

namespace Predictive

namespace Grammar

variable {g : Grammar}

/-- After the computation the FIRST set of a non-terminal, whether it is nullable, and FIRST of
every sequence over the symbols and `&` are those of the derivations. -/
theorem Reachable.exists_first_exact (reachable : g.Reachable) :
    ∃ r, g.computeFirstFollow = .ok r ∧ g.SameRules r ∧
      (∀ name ∈ g.names, ∃ entry, r.nonTerminals.get? name = some entry ∧
        (∀ t, t ∈ entry.first ↔
          t ∈ g.terminals ∧ (∃ rest, g.Derives [name] (t :: rest)) ∨
            t = epsilon ∧ g.Derives [name] []) ∧
        (entry.nullable = true ↔ g.Derives [name] [])) ∧
      ∀ body : Body, (∀ s ∈ body, s = epsilon ∨ s ∈ g.allSymbols) →
        ∃ marks, r.firstOf body = .ok marks ∧
          ∀ t, t ∈ marks ↔
            t ∈ g.terminals ∧ (∃ rest, g.Derives (Body.symbols body) (t :: rest)) ∨
              t = epsilon ∧ g.Derives (Body.symbols body) [] := by
  have valid := reachable.wellFormed
  obtain ⟨r, done, exact⟩ := valid.exists_exact
  refine ⟨r, done, exact.toSameRules, fun name named => ?_, fun body known => ?_⟩
  · have named' : name ∈ r.names := by rwa [exact.names]
    obtain ⟨entry, found⟩ := exists_entry named'
    refine ⟨entry, found, fun t => ?_, ?_⟩
    · rw [← storedFirst_eq found]
      exact exact.first name named t
    · have stored : r.storedNullable name = entry.nullable := by rw [storedNullable, found]
      rw [← stored]
      exact exact.nullable name named
  · have known' : r.Known body := fun s within => by
      rw [exact.allSymbols]
      exact known s within
    obtain ⟨marks, answered⟩ := exists_firstOf known'
    refine ⟨marks, answered, fun t => ?_⟩
    rw [mem_firstOf answered]
    exact exact.begins body known t

/-- A left-recursive grammar with a cycle, a nullable and an unproductive non-terminal, as it is
read. -/
def chainGrammar : Grammar where
  start := "S"
  nonTerminals :=
    .insert (.insert (.insert ∅ "S" (.ofProductions "S" (.ofList [["A", "B"], ["S", "a"]]))) "A"
      (.ofProductions "A" (.ofList [["A"], [epsilon]]))) "B"
      (.ofProductions "B" (.ofList [["B"], ["b", "B"]]))
  terminals := .ofList ["a", "b"]
  firstFollowValid := false

theorem chainGrammar_first_exact :
    Grammar.parse "S -> A B | S a\nA -> A | &\nB -> B | b B" = .ok chainGrammar ∧
      ∃ r, chainGrammar.computeFirstFollow = .ok r ∧ "S" ∈ chainGrammar.names ∧
        ∃ entry, r.nonTerminals.get? "S" = some entry ∧
          ("b" ∈ entry.first ↔ "b" ∈ chainGrammar.terminals ∧
              (∃ rest, chainGrammar.Derives ["S"] ("b" :: rest)) ∨
            "b" = epsilon ∧ chainGrammar.Derives ["S"] []) := by
  have read : Grammar.parse "S -> A B | S a\nA -> A | &\nB -> B | b B" = .ok chainGrammar := rfl
  have known : "S" ∈ chainGrammar.names := by decide
  obtain ⟨r, done, -, names, -⟩ := (Reachable.parse read).exists_first_exact
  obtain ⟨entry, found, first, -⟩ := names "S" known
  exact ⟨read, r, done, known, entry, found, first "b"⟩

/-- After the computation the end mark is in the FOLLOW set of a non-terminal if the start symbol
derives a form that ends with the non-terminal, a terminal if it stands right behind the non-terminal
in a form of some non-terminal, and nothing else is. The forms of the start symbol are enough where
all non-terminals occur in them. -/
theorem Reachable.exists_follow_exact (reachable : g.Reachable) :
    ∃ r, g.computeFirstFollow = .ok r ∧ g.SameRules r ∧
      ∀ name ∈ g.names, ∃ marks, r.follow? name = some marks ∧
        (endMark ∈ marks ↔ ∃ front, g.Derives [g.start] (front ++ [name])) ∧
        (∀ t ∈ g.terminals, t ∈ marks ↔
          ∃ head ∈ g.names, ∃ front back, g.Derives [head] (front ++ name :: t :: back)) ∧
        ((∀ head ∈ g.names, g.Accessible head) →
          ∀ t ∈ g.terminals, t ∈ marks ↔
            ∃ front back, g.Derives [g.start] (front ++ name :: t :: back)) ∧
        (∀ t ∈ marks, t = endMark ∨ t ∈ g.terminals) ∧ epsilon ∉ marks := by
  have valid := reachable.wellFormed
  obtain ⟨r, done, exact⟩ := valid.exists_exact
  refine ⟨r, done, exact.toSameRules, fun name named => ?_⟩
  have named' : name ∈ r.names := by rwa [exact.names]
  obtain ⟨entry, found⟩ := exists_entry named'
  have mem (t : Symbol) : t ∈ entry.follow ↔ g.SeenBehind name t := by
    have stored : r.storedFollow name = entry.follow := by rw [storedFollow, found]
    rw [← stored, exact.follow name named, follows_iff]
  have terminals (t : Symbol) (terminal : t ∈ g.terminals) : t ∈ entry.follow ↔
      ∃ head ∈ g.names, ∃ front back, g.Derives [head] (front ++ name :: t :: back) :=
    (mem t).trans (seenBehind_terminal_iff valid terminal)
  refine ⟨entry.follow, by rw [follow?, found]; rfl, (mem endMark).trans (seenBehind_endMark_iff valid),
    terminals, fun accessible t terminal => ?_, fun t inside => ?_, fun inside => ?_⟩
  · exact (terminals t terminal).trans (exists_neighbours_iff valid accessible)
  · exact ((mem t).1 inside).imp And.left And.left
  · rcases (mem epsilon).1 inside with ⟨same, -⟩ | ⟨terminal, -⟩
    · exact absurd same (by decide)
    · exact absurd (mem_allSymbols.2 (.inr terminal)) valid.noEpsilon

/-- A grammar in which what follows `B` comes from behind its own head, from behind the start symbol
and from a non-terminal that the start symbol does not lead to, as it is read. -/
def tailGrammar : Grammar where
  start := "S"
  nonTerminals :=
    .insert (.insert (.insert (.insert ∅ "S"
      (.ofProductions "S" (.ofList [["B", "T"], ["s", "S", "e"]]))) "B"
      (.ofProductions "B" (.ofList [["b", "B"], [epsilon]]))) "T"
      (.ofProductions "T" (.ofList [["T", "t"], [epsilon]]))) "U"
      (.ofProductions "U" (.ofList [["B", "u"]]))
  terminals := .ofList ["b", "e", "s", "t", "u"]
  firstFollowValid := false

theorem tailGrammar_follow_exact :
    Grammar.parse "S -> B T | s S e\nB -> b B | &\nT -> T t | &\nU -> B u" = .ok tailGrammar ∧
      ∃ r, tailGrammar.computeFirstFollow = .ok r ∧ "B" ∈ tailGrammar.names ∧
        ∃ marks, r.follow? "B" = some marks ∧ endMark ∈ marks ∧ "e" ∈ marks ∧ "u" ∈ marks ∧
          epsilon ∉ marks := by
  have read : Grammar.parse "S -> B T | s S e\nB -> b B | &\nT -> T t | &\nU -> B u" =
    .ok tailGrammar := rfl
  have known : "B" ∈ tailGrammar.names := by decide
  obtain ⟨r, done, -, names⟩ := (Reachable.parse read).exists_follow_exact
  obtain ⟨marks, found, ends, terminals, -, -, clean⟩ := names "B" known
  have plain : ["B", "T"] ∈ tailGrammar.bodies "S" := by decide
  have nested : ["s", "S", "e"] ∈ tailGrammar.bodies "S" := by decide
  have nothing : [epsilon] ∈ tailGrammar.bodies "T" := by decide
  have apart : ["B", "u"] ∈ tailGrammar.bodies "U" := by decide
  have last : tailGrammar.Derives ["S"] ["B"] :=
    derives_of_mem_bodies plain (.keep "B" (derives_of_mem_bodies nothing .nil))
  refine ⟨read, r, done, known, marks, found, ends.2 ⟨[], last⟩, ?_, ?_, clean⟩
  · refine (terminals "e" (by decide)).2 ⟨"S", by decide, ["s"], [], ?_⟩
    exact derives_of_mem_bodies nested (.keep "s" (last.append (Derives.refl _ ["e"])))
  · refine (terminals "u" (by decide)).2 ⟨"U", by decide, [], [], ?_⟩
    exact derives_of_mem_bodies apart (Derives.refl _ ["B", "u"])

end Grammar

end Predictive
