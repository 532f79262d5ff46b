import Predictive.Proofs.Layout.PlainLines

set_option autoImplicit false

namespace Predictive

namespace Grammar

open Text GrammarText

variable {g : Grammar} {head name : Symbol} {right : List Char} {b : Body} {rule : Rule}

/-- The symbol is in some body. -/
def Uses (g : Grammar) (s : Symbol) : Prop := ∃ name, ∃ b ∈ g.bodies name, s ∈ b

instance (g : Grammar) (s : Symbol) : Decidable (g.Uses s) :=
  decidable_of_iff (∃ name ∈ g.names, ∃ b ∈ (g.bodies name).toList, s ∈ b) <| by
    constructor
    · intro found
      obtain ⟨name, -, b, body, inside⟩ := found
      exact ⟨name, b, OrderedSet.mem_toList.1 body, inside⟩
    · intro found
      obtain ⟨name, b, body, inside⟩ := found
      exact ⟨name, mem_names_of_mem_bodies body, b, OrderedSet.mem_toList.2 body, inside⟩

theorem mem_given_iff (named : g.Named) :
    (head, right) ∈ g.rules.flatMap Rule.given ↔ ∃ b ∈ g.bodies head, right = rightText b := by
  simp only [List.mem_flatMap, Rule.given, List.mem_map, Prod.mk.injEq]
  constructor
  · intro found
    obtain ⟨rule, listed, b, inside, rfl, rfl⟩ := found
    obtain ⟨-, bodies⟩ := named.mem_rules_iff.1 listed
    rw [bodies] at inside
    exact ⟨b, OrderedSet.mem_toList.1 inside, rfl⟩
  · intro found
    obtain ⟨b, inside, rfl⟩ := found
    have listed : Rule.mk head (g.bodies head).toList ∈ g.rules :=
      named.mem_rules_iff.2 ⟨mem_names_of_mem_bodies inside, rfl⟩
    exact ⟨_, listed, b, OrderedSet.mem_toList.2 inside, rfl, rfl⟩

theorem splitOn_rightText (free : ∀ s ∈ b, '|' ∉ s.toList) :
    (rightText b).splitOn '|' = [rightText b] := by
  apply List.splitOn_eq_singleton
  intro inside
  rcases mem_of_mem_rightText inside with blank | ⟨s, among, bar⟩
  · contradiction
  · exact free s among bar

namespace Writable

variable (writable : g.Writable)

include writable

theorem named : g.Named := writable.wellFormed.named

theorem printable (listed : rule ∈ g.rules) : rule.Printable :=
  printable_of_mem_rules writable.wellFormed writable.legible listed

theorem readFrom :
    ReadFrom none (lines g.productionsPlain) (g.rules.flatMap Rule.given) := by
  have each : ∀ rule ∈ g.rules, rule.Printable := fun _ => writable.printable
  obtain ⟨others, split⟩ := writable.named.exists_rules_eq_cons writable.wellFormed.start
  rw [lines_productionsPlain each (by simp [split])]
  exact readFrom_plainLines each none

theorem firstHead : FirstHead (lines g.productionsPlain) g.start := by
  have reads := writable.readFrom
  obtain ⟨b, body⟩ := writable.wellFormed.inhabited g.start writable.wellFormed.start
  have some := List.ne_nil_of_mem (OrderedSet.mem_toList.2 body)
  obtain ⟨first, further, bodies⟩ := List.exists_cons_of_ne_nil some
  obtain ⟨others, split⟩ := writable.named.exists_rules_eq_cons writable.wellFormed.start
  rw [split, List.flatMap_cons, Rule.given, bodies, List.map_cons, List.cons_append] at reads
  exact reads.firstHead

theorem hasAlternative_iff {symbols : List Symbol} :
    HasAlternative (lines g.productionsPlain) name symbols ↔ symbols ∈ g.bodies name := by
  simp only [HasAlternative, ← writable.readFrom.mem_iff_gives, mem_given_iff writable.named]
  constructor
  · intro found
    obtain ⟨_, ⟨b, inside, rfl⟩, piece, cut, rfl⟩ := found
    rw [splitOn_rightText (writable.barFree name b inside)] at cut
    rw [List.mem_singleton.1 cut, tokens_rightText (writable.legible_of_mem_bodies inside)]
    exact inside
  · intro inside
    refine ⟨rightText symbols, ⟨symbols, inside, rfl⟩, rightText symbols, ?_, ?_⟩
    · rw [splitOn_rightText (writable.barFree name symbols inside)]
      exact List.mem_singleton_self _
    · rw [tokens_rightText (writable.legible_of_mem_bodies inside)]

theorem hasBody_iff :
    HasBody (lines g.productionsPlain) name b ↔ b ∈ g.bodies name := by
  simp only [HasBody, writable.hasAlternative_iff]
  have normal {b : Body} (inside : b ∈ g.bodies name) : Body.normalize b = b :=
    Body.normalize_of_isNormal (writable.wellFormed.fits name b inside).1
  constructor
  · intro found
    obtain ⟨symbols, inside, rfl⟩ := found
    rwa [normal inside]
  · intro inside
    exact ⟨b, inside, (normal inside).symm⟩

theorem isHead_iff :
    IsHead (lines g.productionsPlain) name ↔ name ∈ g.names := by
  simp only [GrammarText.isHead_iff, writable.hasAlternative_iff]
  constructor
  · intro found
    obtain ⟨b, inside⟩ := found
    exact mem_names_of_mem_bodies inside
  · exact writable.wellFormed.inhabited name

theorem accepted : Accepted (lines g.productionsPlain) := by
  obtain ⟨b, body⟩ := writable.wellFormed.inhabited g.start writable.wellFormed.start
  have some : g.rules.flatMap Rule.given ≠ [] :=
    List.ne_nil_of_mem ((mem_given_iff writable.named).2 ⟨b, body, rfl⟩)
  refine writable.readFrom.accepted some ?_
  intro pair listed piece cut
  obtain ⟨b, inside, same⟩ := (mem_given_iff writable.named).1 listed
  rw [same, splitOn_rightText (writable.barFree pair.1 b inside)] at cut
  rw [List.mem_singleton.1 cut, tokens_rightText (writable.legible_of_mem_bodies inside)]
  obtain ⟨normal, known⟩ := writable.wellFormed.fits pair.1 b inside
  refine ⟨fun nothing => ?_, fun mark => ?_⟩
  · subst nothing
    rcases normal with single | ⟨more, -⟩
    · contradiction
    · exact more rfl
  · exact writable.wellFormed.noEndMark (known endMark (Body.mem_symbols.2 ⟨mark, by decide⟩))

theorem exists_parse : ∃ g', parse g.productionsPlain = .ok g' ∧
    g'.start = g.start ∧ g'.names = g.names ∧ (∀ name, g'.bodies name = g.bodies name) ∧
    ∀ s, s ∈ g'.terminals ↔ s ∈ g.terminals ∧ g.Uses s := by
  obtain ⟨g', done⟩ := exists_parse_of_accepted writable.accepted
  have denotes := denotes_of_parse done
  have names (name : Symbol) : name ∈ g'.names ↔ name ∈ g.names := by
    rw [denotes.names, writable.isHead_iff]
  refine ⟨g', done, ?_, OrderedMap.keys_eq_of_mem_iff names, fun name => ?_, fun s => ?_⟩
  · exact denotes.start.unique writable.firstHead
  · ext b
    rw [denotes.bodies, writable.hasBody_iff]
  · have valid := writable.wellFormed
    rw [denotes.terminals, writable.isHead_iff]
    simp only [writable.hasAlternative_iff]
    constructor
    · intro found
      obtain ⟨⟨name, b, body, inside⟩, mark, other⟩ := found
      have known := (valid.fits name b body).2 s (Body.mem_symbols.2 ⟨inside, mark⟩)
      exact ⟨(mem_allSymbols.1 known).resolve_left other, name, b, body, inside⟩
    · intro found
      obtain ⟨terminal, name, b, body, inside⟩ := found
      exact ⟨⟨name, b, body, inside⟩, valid.ne_epsilon_of_mem (mem_allSymbols.2 (.inr terminal)),
        valid.not_terminal terminal⟩

end Writable

theorem parse_productionsPlain_of_parse {text : String} (done : parse text = .ok g) :
    parse g.productionsPlain = .ok g := by
  have writable := writable_of_parse done
  have denotes := denotes_of_parse done
  have first := writable.firstHead
  obtain ⟨g', done'⟩ := exists_parse_of_accepted writable.accepted
  have same : g' = g := by
    refine denotes.eq (denotes_of_parse done') (fun head => ?_) fun name b => ?_
    · constructor
      · intro found
        rwa [found.unique denotes.start]
      · intro found
        rw [found.unique first]
        exact denotes.start
    · rw [← denotes.bodies, writable.hasBody_iff]
  rw [done', same]

/-- If no body holds a symbol with a bar, then the productions of a reachable grammar in plain text are
read as a grammar with the same start symbol, the same non-terminals and the same productions, the
terminals of which are those in some body. What comes from a text is read as itself. -/
theorem productionsPlain_reads_back :
    (∀ g : Grammar, g.Reachable → g.BarFree → ∃ g', parse g.productionsPlain = .ok g' ∧
      g'.start = g.start ∧ g'.names = g.names ∧ (∀ name, g'.bodies name = g.bodies name) ∧
      ∀ s, s ∈ g'.terminals ↔ s ∈ g.terminals ∧ g.Uses s) ∧
    ∀ text g, parse text = .ok g → g.BarFree ∧ parse g.productionsPlain = .ok g := by
  constructor
  · intro g reachable bars
    exact (reachable.writable bars).exists_parse
  · intro text g done
    exact ⟨barFree_of_parse done, parse_productionsPlain_of_parse done⟩

/-- Its heads are made of the marks of the format, and a factoring drops the terminal `t`. -/
def oddGrammar : Grammar where
  start := "-"
  nonTerminals :=
    .insert (.insert (.insert ∅ "-"
      (.ofProductions "-" (.ofList [[">", "'", "c"], [">", "'", "d"], ["t", "'", ">"]])))
      ">" (.ofProductions ">" (.ofList [[epsilon]])))
      "|" (.ofProductions "|" (.ofList [["-"]]))
  terminals := .ofList ["c", "d", "t", "'"]
  firstFollowValid := false

theorem oddGrammar_reads_back :
    oddGrammar.leftFactor.Reachable ∧ oddGrammar.leftFactor.BarFree ∧
      oddGrammar.leftFactor.productionsPlain =
        " - -> > ' -'\n-' -> >\n    | c\n    | d\n > -> &\n | -> -" ∧
      (∃ g', parse oddGrammar.leftFactor.productionsPlain = .ok g' ∧
        g'.names = ["-", "-'", ">", "|"] ∧ g'.bodies "-'" = .ofList [[">"], ["c"], ["d"]] ∧
        "t" ∈ oddGrammar.leftFactor.terminals ∧ "t" ∉ g'.terminals) ∧
      parse oddGrammar.productionsPlain = .ok oddGrammar := by
  have read : parse "- -> > ' c | > ' d | t ' >\n> -> &\n\n | -> -\n" = .ok oddGrammar := rfl
  have reachable : oddGrammar.leftFactor.Reachable := .leftFactor (.parse read)
  have bars : oddGrammar.leftFactor.BarFree := by decide
  obtain ⟨reads, again⟩ := productionsPlain_reads_back
  obtain ⟨g', done, -, names, bodies, terminals⟩ := reads _ reachable bars
  refine ⟨reachable, bars, by decide,
    ⟨g', done, names.trans rfl, (bodies "-'").trans rfl, by decide, ?_⟩, ?_⟩
  · intro inside
    have absent : ¬ oddGrammar.leftFactor.Uses "t" := by decide
    exact absent ((terminals "t").1 inside).2
  · exact (again _ _ read).2

end Grammar

end Predictive
