import Predictive.Proofs.Derivation.Leftmost
import Predictive.Proofs.FirstFollow.Neighbours
import Predictive.Proofs.Grammar.Reachable
import Predictive.Proofs.Prediction.Verdict

set_option autoImplicit false

namespace Predictive

namespace Grammar

variable {g : Grammar} {t head : Symbol} {u w rest : List Symbol}

theorem Accessible.exists_predicts (accessible : g.Accessible head) (valid : g.WellFormed)
    (productive : g.Productive) (known : ∀ s ∈ u, s ∈ g.allSymbols) : ∃ t, g.Predicts head u t := by
  obtain ⟨front, back, reached⟩ := accessible
  have start : ∀ s ∈ [g.start], s ∈ g.allSymbols :=
    List.forall_mem_singleton.2 (mem_allSymbols.2 (.inl valid.start))
  have around := (List.forall_mem_append.1 (derives_known valid reached start)).2
  have behind := (List.forall_mem_cons.1 around).2
  obtain ⟨y, terminal, derived⟩ :=
    productive.exists_derives (List.forall_mem_append.2 ⟨known, behind⟩)
  obtain ⟨t, rest, input⟩ := exists_lookahead y
  exact ⟨t, predicts_of_derives reached derived terminal input⟩

namespace Deterministic

variable (deterministic : g.Deterministic)

include deterministic

theorem eq_of_predicts {b c : Body} (inside : b ∈ g.bodies head) (inside' : c ∈ g.bodies head)
    (predicts : g.Predicts head (Body.symbols b) t)
    (predicts' : g.Predicts head (Body.symbols c) t) : b = c := by
  by_contra other
  exact deterministic head b inside c inside' other t ⟨predicts, predicts'⟩

theorem steps_unique (valid : g.WellFormed) {steps steps' : List (Symbol × Body)}
    (first : g.LeftmostDerives u steps w) (second : g.LeftmostDerives u steps' w)
    (reached : g.Derives [g.start] u) (terminal : g.TerminalString w) : steps = steps' := by
  induction first generalizing steps' with
  | refl => exact (second.eq_nil valid terminal).symm
  | @expand head b front back w steps plain inside later ih =>
      obtain ⟨c, inside', steps', rfl, later'⟩ :=
        second.exists_body valid rfl plain (mem_names_of_mem_bodies inside) terminal
      -- the terminals in front stay, so both bodies have to make the rest of the input
      obtain ⟨y, rfl, derived⟩ := later.exists_rest valid plain
      obtain ⟨z, same, derived'⟩ := later'.exists_rest valid plain
      obtain rfl := List.append_cancel_left same
      have input := (terminalString_append.1 terminal).2
      obtain ⟨t, rest, next⟩ := exists_lookahead y
      obtain rfl : b = c := deterministic.eq_of_predicts inside inside'
        (predicts_of_derives reached derived input next)
        (predicts_of_derives reached derived' input next)
      rw [ih later' (reached.inside_body inside) terminal]

section LeftRecursion

variable (valid : g.WellFormed) (productive : g.Productive)
  (accessible : ∀ name ∈ g.names, g.Accessible name)

include valid productive accessible

/-- A body by which its head comes back in front is the only one: whatever calls for another before
what comes behind the head calls for it, too. -/
theorem eq_of_comes_back {b c : Body} (inside : b ∈ g.bodies head) (inside' : c ∈ g.bodies head)
    (back : g.Derives (Body.symbols c) (head :: rest)) : b = c := by
  have named := mem_names_of_mem_bodies inside
  have recursive : g.Derives [head] ([] ++ head :: rest) := derives_of_mem_bodies inside' back
  have known : ∀ s ∈ head :: rest, s ∈ g.allSymbols :=
    derives_known valid recursive (List.forall_mem_singleton.2 (mem_allSymbols.2 (.inl named)))
  obtain ⟨t, predicts⟩ := (accessible head named).exists_predicts valid productive
    (List.forall_mem_append.2 ⟨(valid.fits head b inside).2, (List.forall_mem_cons.1 known).2⟩)
  exact deterministic.eq_of_predicts inside inside'
    (predicts.of_append (follows_of_derives recursive))
    (back.predicts (predicts.of_mem_bodies inside))

/-- No form that derives a terminal string has a left-recursive symbol: the body that it is expanded
by is the one by which it comes back, and so has another. -/
theorem not_leftRecursive_of_mem (derived : g.Derives u w) (terminal : g.TerminalString w) :
    ∀ s ∈ u, ¬ g.LeftRecursive s := by
  induction derived with
  | nil => simp
  | @keep u v s _ ih =>
      obtain ⟨here, later⟩ := List.forall_mem_cons.1 terminal
      refine List.forall_mem_cons.2 ⟨fun recursive => ?_, ih later⟩
      obtain ⟨_, c, inside, -⟩ := recursive
      exact valid.disjoint s (mem_names_of_mem_bodies inside) here
  | @expand head b u v w inside _ _ ihFront ihRest =>
      obtain ⟨here, later⟩ := terminalString_append.1 terminal
      refine List.forall_mem_cons.2 ⟨fun recursive => ?_, ihRest later⟩
      obtain ⟨rest, c, inside', back⟩ := recursive
      obtain rfl := deterministic.eq_of_comes_back valid productive accessible inside inside' back
      obtain ⟨s, among, again⟩ := exists_leftRecursive inside back
      exact ihFront here s among again

theorem not_leftRecursive (name : Symbol) : ¬ g.LeftRecursive name := by
  intro recursive
  have named : name ∈ g.names := mem_names_of_mem_bodies recursive.choose_spec.choose_spec.1
  obtain ⟨w, terminal, derived⟩ := productive name named
  exact deterministic.not_leftRecursive_of_mem valid productive accessible derived terminal name
    List.mem_cons_self recursive

end LeftRecursion

end Deterministic

/-- In a grammar that is judged LL(1) every sentence has one leftmost derivation from the start
symbol. If every non-terminal occurs in the forms of the start symbol and generates something, then
none leads back to itself in front, be it behind symbols that derive the empty form. -/
theorem Reachable.existsUnique_leftmostDerives (reachable : g.Reachable)
    (ll1 : g.isLL1 = .ok true) :
    (∀ w, g.Generates g.start w → ∃! steps, g.LeftmostDerives [g.start] steps w) ∧
      ((∀ name ∈ g.names, g.Accessible name ∧ ∃ w, g.Generates name w) →
        ∀ name, ¬ g.LeftRecursive name) := by
  have valid := reachable.wellFormed
  obtain ⟨verdict, judged, decides⟩ := exists_isLL1 valid reachable.current
  have deterministic : g.Deterministic := decides.1 (Except.ok.inj (judged.symm.trans ll1))
  constructor
  · intro w generated
    obtain ⟨derived, terminal⟩ := (generates_iff valid valid.start).1 generated
    obtain ⟨steps, leftmost⟩ := derived.exists_leftmostDerives terminal
    refine ⟨steps, leftmost, fun steps' other => ?_⟩
    exact deterministic.steps_unique valid other leftmost (Derives.refl g _) terminal
  · intro useful
    have productive : g.Productive := (productive_iff valid).2 fun name named => (useful name named).2
    exact deterministic.not_leftRecursive valid productive fun name named => (useful name named).1

/-- A grammar of lists each item of which may lack its first part, as it is read. -/
def itemGrammar : Grammar where
  start := "S"
  nonTerminals :=
    .insert (.insert (.insert ∅ "S" (.ofProductions "S" (.ofList [["A", "S"], ["e"]]))) "A"
      (.ofProductions "A" (.ofList [["B", "a"]]))) "B"
      (.ofProductions "B" (.ofList [["b"], [epsilon]]))
  terminals := .ofList ["a", "b", "e"]
  firstFollowValid := false

theorem itemGrammar_unambiguous :
    Grammar.parse "S -> A S | e\nA -> B a\nB -> b | &" = .ok itemGrammar ∧
      itemGrammar.isLL1 = .ok true ∧ itemGrammar.Generates "S" ["a", "e"] ∧
      (∃! steps, itemGrammar.LeftmostDerives ["S"] steps ["a", "e"]) ∧
      (∀ name ∈ itemGrammar.names,
        itemGrammar.Accessible name ∧ ∃ w, itemGrammar.Generates name w) ∧
      ∀ name, ¬ itemGrammar.LeftRecursive name := by
  have read : Grammar.parse "S -> A S | e\nA -> B a\nB -> b | &" = .ok itemGrammar := rfl
  have ll1 : itemGrammar.isLL1 = .ok true := by decide +kernel
  obtain ⟨unique, settled⟩ := (Reachable.parse read).existsUnique_leftmostDerives ll1
  have more : ["A", "S"] ∈ itemGrammar.bodies "S" := by decide
  have done : ["e"] ∈ itemGrammar.bodies "S" := by decide
  have item : ["B", "a"] ∈ itemGrammar.bodies "A" := by decide
  have nothing : [epsilon] ∈ itemGrammar.bodies "B" := by decide
  have forward : itemGrammar.Derives ["S"] ["A", "S"] :=
    derives_of_mem_bodies more (Derives.refl _ ["A", "S"])
  have unfolded : itemGrammar.Derives ["A"] ["B", "a"] :=
    derives_of_mem_bodies item (Derives.refl _ ["B", "a"])
  have ended : itemGrammar.Derives ["S"] ["e"] := derives_of_mem_bodies done (Derives.refl _ ["e"])
  have empty : itemGrammar.Derives ["B"] [] := derives_of_mem_bodies nothing .nil
  have short : itemGrammar.Derives ["A"] ["a"] :=
    unfolded.trans (empty.append (Derives.refl _ ["a"]))
  have sentence : itemGrammar.Generates "S" ["a", "e"] :=
    ⟨forward.trans (short.append ended), by decide⟩
  have useful : ∀ name ∈ itemGrammar.names,
      itemGrammar.Accessible name ∧ ∃ w, itemGrammar.Generates name w := by
    intro name named
    have listed : name ∈ ["A", "B", "S"] := named
    have cases : name = "A" ∨ name = "B" ∨ name = "S" := by simpa using listed
    rcases cases with rfl | rfl | rfl
    · exact ⟨⟨[], ["S"], forward⟩, ["a"], short, by decide⟩
    · exact ⟨⟨[], ["a", "S"], forward.trans (unfolded.append (Derives.refl _ ["S"]))⟩, [], empty,
        by decide⟩
    · exact ⟨⟨[], [], Derives.refl _ ["S"]⟩, ["e"], ended, by decide⟩
  exact ⟨read, ll1, sentence, unique _ sentence, useful, settled useful⟩

end Grammar

end Predictive
