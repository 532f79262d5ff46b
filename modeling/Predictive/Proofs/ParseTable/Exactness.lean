import Predictive.Proofs.Grammar.Reachable
import Predictive.Proofs.Prediction.Verdict
import Mathlib.Tactic.Choose

set_option autoImplicit false

namespace Predictive

namespace Grammar

variable {g r : Grammar} {head t : Symbol} {b : Body}

/-- The predict set of a body by the stored sets: FIRST of the body without `&`, and FOLLOW of its
head as well if `&` is in FIRST of the body. -/
def IsPredictSet (g : Grammar) (head : Symbol) (b : Body) (marks : OrderedSet Symbol) : Prop :=
  ∃ first follow, g.firstOf b = .ok first ∧ g.follow? head = some follow ∧
    marks = if epsilon ∈ first then first.erase epsilon ∪ follow else first.erase epsilon

theorem exists_isPredictSet (known : g.Known b) (named : head ∈ g.names) :
    ∃ marks, g.IsPredictSet head b marks ∧ ∀ t, t ∈ marks ↔ g.Calls head b t := by
  obtain ⟨first, done⟩ := exists_firstOf known
  obtain ⟨entry, found⟩ := exists_entry named
  have follow : g.follow? head = some entry.follow := by
    rw [follow?, found]
    rfl
  have stored : g.storedFollow head = entry.follow := by rw [storedFollow, found]
  refine ⟨_, ⟨first, entry.follow, done, follow, rfl⟩, fun t => ?_⟩
  rw [Calls, ← mem_firstOf done, ← mem_firstOf done, stored]
  split
  case isTrue empty =>
    simp only [OrderedSet.mem_union, OrderedSet.mem_erase, empty, true_and, ne_eq, and_comm]
  case isFalse full =>
    simp only [OrderedSet.mem_erase, full, false_and, or_false, ne_eq, and_comm]

theorem Exact.exists_predicted (exact : g.Exact r) (valid : g.WellFormed) :
    ∃ predicted : Symbol → Body → OrderedSet Symbol, ∀ head, ∀ b ∈ g.bodies head,
      r.IsPredictSet head b (predicted head b) ∧
        ∀ t, t ∈ predicted head b ↔ g.Predicts head (Body.symbols b) t := by
  have each (head : Symbol) (b : Body) : ∃ marks, b ∈ g.bodies head →
      r.IsPredictSet head b marks ∧ ∀ t, t ∈ marks ↔ g.Predicts head (Body.symbols b) t := by
    by_cases inside : b ∈ g.bodies head
    · have known := exact.toSameRules.bodiesKnown valid.bodiesKnown head b
      rw [exact.bodies] at known
      have named : head ∈ r.names := by
        rw [exact.names]
        exact mem_names_of_mem_bodies inside
      obtain ⟨marks, predict, mem⟩ := exists_isPredictSet (known inside) named
      exact ⟨marks, fun _ => ⟨predict, fun t => (mem t).trans (exact.calls_iff valid inside)⟩⟩
    · exact ⟨∅, fun among => absurd among inside⟩
  choose predicted spec using each
  exact ⟨predicted, spec⟩

theorem Predicts.mem_followMarks {u : List Symbol} (predicts : g.Predicts head u t) :
    t ∈ g.followMarks := by
  rcases predicts with opens | ⟨-, follows⟩
  · exact Grammar.mem_followMarks.2 (.inr opens.1)
  · exact follows.mem_followMarks

/-- The table has a row for every non-terminal and nothing else, a column for the lookahead of every
cell that is not empty, and in a cell, in increasing order, the bodies of its head whose predict sets
hold the lookahead. The greatest of them is the one to expand with, the conflicts are the cells with
two bodies or more, and the grammar is judged LL(1) where the predict sets of the bodies of a
non-terminal are disjoint. -/
theorem Reachable.exists_table_exact (reachable : g.Reachable) :
    ∃ r table, ∃ predicted : Symbol → Body → OrderedSet Symbol,
      g.computeFirstFollow = .ok r ∧ g.buildTable = .ok table ∧
      (∀ head ∈ g.names, ∀ b ∈ g.bodies head, r.IsPredictSet head b (predicted head b)) ∧
      table.nonTerminals = g.names ∧
      (∀ head t, (table.entries head t).Pairwise (fun b c => compare b c = .lt) ∧
        ∀ b, b ∈ table.entries head t ↔ b ∈ g.bodies head ∧ t ∈ predicted head b) ∧
      (∀ head t, (table.get? head t = none ↔ table.entries head t = []) ∧
        ∀ b, table.get? head t = some b ↔ b ∈ table.entries head t ∧
          ∀ c ∈ table.entries head t, c = b ∨ compare c b = .lt) ∧
      (∀ head t, table.entries head t ≠ [] → t ∈ table.terminals) ∧
      (∀ c, c ∈ table.conflicts ↔
        c.bodies = table.entries c.head c.terminal ∧ 2 ≤ c.bodies.length) ∧
      table.conflicts.Nodup ∧ g.isLL1 = .ok table.isLL1 ∧
      (table.isLL1 = true ↔ ∀ head ∈ g.names, ∀ b ∈ g.bodies head, ∀ b' ∈ g.bodies head, b ≠ b' →
        ∀ t, ¬ (t ∈ predicted head b ∧ t ∈ predicted head b')) := by
  have valid := reachable.wellFormed
  obtain ⟨r, table, done, exact, built, tabulates⟩ := exists_tabulates valid reachable.current
  obtain ⟨predicted, spec⟩ := exact.exists_predicted valid
  have tabulates' : table.Tabulates g fun head b t => t ∈ predicted head b :=
    tabulates.congr rfl rfl (fun _ => rfl) fun head b inside t => ((spec head b inside).2 t).symm
  refine ⟨r, table, predicted, done, built, fun head _ b inside => (spec head b inside).1,
    tabulates.heads, fun head t => ⟨tabulates.increasing head t, tabulates'.cells head t⟩,
    fun head t => ⟨List.getLast?_eq_none_iff, fun b => tabulates.get?_eq_some_iff⟩,
    fun head t some => ?_, fun c => ParseTable.mem_conflicts_iff, table.nodup_conflicts,
    bind_eq_ok_iff.2 ⟨table, built, rfl⟩, ?_⟩
  · obtain ⟨b, inside⟩ := List.exists_mem_of_ne_nil _ some
    have mark := ((tabulates.cells head t b).1 inside).2.mem_followMarks
    rw [tabulates.columns, List.mem_append, List.mem_singleton]
    exact (Grammar.mem_followMarks.1 mark).symm
  · rw [tabulates'.isLL1_iff]
    constructor
    · intro disjoint head _
      exact disjoint head
    · intro disjoint head b inside
      exact disjoint head (mem_names_of_mem_bodies inside) b inside

/-- A grammar two bodies of which can stand before the same token, as it is read. -/
def danglingGrammar : Grammar where
  start := "S"
  nonTerminals :=
    .insert (.insert ∅ "S" (.ofProductions "S" (.ofList [["i", "S", "E"], ["a"]]))) "E"
      (.ofProductions "E" (.ofList [["e", "S"], [epsilon]]))
  terminals := .ofList ["a", "e", "i"]
  firstFollowValid := false

theorem danglingGrammar_table_exact :
    Grammar.parse "S -> i S E | a\nE -> e S | &" = .ok danglingGrammar ∧
      ∃ r table, ∃ predicted : Symbol → Body → OrderedSet Symbol,
        danglingGrammar.computeFirstFollow = .ok r ∧ danglingGrammar.buildTable = .ok table ∧
        r.IsPredictSet "E" [epsilon] (predicted "E" [epsilon]) ∧
        "e" ∈ predicted "E" [epsilon] ∧ "e" ∈ predicted "E" ["e", "S"] ∧
        table.get? "E" "e" = some ["e", "S"] ∧
        ⟨"E", "e", [[epsilon], ["e", "S"]]⟩ ∈ table.conflicts ∧ table.isLL1 = false := by
  have read : Grammar.parse "S -> i S E | a\nE -> e S | &" = .ok danglingGrammar := rfl
  obtain ⟨r, table, predicted, done, built, sets, -, cells, chosen, -, conflicts, -⟩ :=
    (Reachable.parse read).exists_table_exact
  have cell : danglingGrammar.buildTable.map (fun t => (t.entries "E" "e", t.isLL1)) =
      .ok ([[epsilon], ["e", "S"]], false) := by decide +kernel
  rw [built] at cell
  obtain ⟨listed, judged⟩ := Prod.mk.inj (Except.ok.inj cell)
  have mem := (cells "E" "e").2
  rw [listed] at mem
  refine ⟨read, r, table, predicted, done, built, sets "E" (by decide) [epsilon] (by decide),
    ((mem [epsilon]).1 (by decide)).2, ((mem ["e", "S"]).1 (by decide)).2, ?_, ?_, judged⟩
  · rw [((chosen "E" "e").2 ["e", "S"]), listed]
    decide
  · rw [conflicts]
    exact ⟨listed.symm, by decide⟩

end Grammar

end Predictive
