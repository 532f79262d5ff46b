import Predictive.Grammar.Reader
import Predictive.Layout.FirstFollow
import Predictive.Layout.Productions
import Predictive.Layout.Table
import Predictive.Proofs.Json.Decoding
import Mathlib.Data.List.Basic

set_option autoImplicit false

namespace Predictive

theorem OrderedSet.toList_injective {α : Type} [Ord α] :
    Function.Injective (OrderedSet.toList : OrderedSet α → List α) := by
  intro s t same
  cases s
  cases t
  exact (OrderedSet.mk.injEq ..).mpr same

theorem OrderedMap.toList_injective {κ β : Type} [Ord κ] :
    Function.Injective (OrderedMap.toList : OrderedMap κ β → List (κ × β)) := by
  intro m n same
  cases m
  cases n
  exact (OrderedMap.mk.injEq ..).mpr same

namespace Layout

theorem jsonStrings_injective : Function.Injective jsonStrings := by
  intro texts texts' same
  have injective : Function.Injective Json.string := fun _ _ => Json.string.inj
  exact List.map_injective_iff.2 injective (Json.array.inj same)

theorem jsonBodies_injective : Function.Injective jsonBodies := by
  intro bodies bodies' same
  exact List.map_injective_iff.2 jsonStrings_injective (Json.array.inj same)

theorem object_injective {β : Type} {value : β → Json} (injective : Function.Injective value) :
    Function.Injective fun m : OrderedMap Symbol β =>
      Json.object (m.toList.map fun entry => (entry.1, value entry.2)) := by
  intro m n same
  apply OrderedMap.toList_injective
  refine List.map_injective_iff.2 ?_ (Json.object.inj same)
  intro entry entry' equal
  obtain ⟨key, held⟩ := Prod.mk.inj equal
  exact Prod.ext key (injective held)

end Layout

open Layout

theorem Rule.json_injective : Function.Injective Rule.json := by
  intro rule rule' same
  obtain ⟨head, bodies⟩ := rule
  obtain ⟨head', bodies'⟩ := rule'
  simp only [Rule.json, Json.object.injEq, List.cons.injEq, Prod.mk.injEq, Json.string.injEq,
    true_and, and_true] at same
  rw [same.1, jsonBodies_injective same.2]

theorem ParseTable.json_injective : Function.Injective ParseTable.json := by
  intro t t' same
  obtain ⟨terminals, rows⟩ := t
  obtain ⟨terminals', rows'⟩ := t'
  simp only [ParseTable.json, Json.object.injEq, List.cons.injEq, Prod.mk.injEq, true_and,
    and_true] at same
  have cells := object_injective jsonBodies_injective
  rw [jsonStrings_injective same.1, object_injective cells (congrArg Json.object same.2)]

namespace Grammar

/-- The names of the non-terminals with what is stored beside their productions. -/
def storedSets (g : Grammar) : List (Symbol × Bool × OrderedSet Symbol × OrderedSet Symbol) :=
  g.entries.map fun entry => (entry.name, entry.nullable, entry.first, entry.follow)

theorem productionsJson_eq_iff {g h : Grammar} :
    g.productionsJson = h.productionsJson ↔ g.rules = h.rules := by
  simp only [productionsJson, Json.object.injEq, Json.array.injEq, List.cons.injEq, Prod.mk.injEq,
    true_and, and_true]
  exact (List.map_injective_iff.2 Rule.json_injective).eq_iff

theorem firstFollowJson_eq_iff {g h : Grammar} :
    g.firstFollowJson = h.firstFollowJson ↔ g.storedSets = h.storedSets := by
  let row := fun stored : Symbol × Bool × OrderedSet Symbol × OrderedSet Symbol =>
    NonTerminal.jsonRow ⟨stored.1, ∅, stored.2.2.1, stored.2.2.2, stored.2.1⟩
  have rows (g : Grammar) : g.entries.map NonTerminal.jsonRow = g.storedSets.map row := by
    rw [storedSets, List.map_map]
    rfl
  have injective : Function.Injective row := by
    intro stored stored' same
    simp only [row, NonTerminal.jsonRow, Json.object.injEq, List.cons.injEq, Prod.mk.injEq,
      Json.string.injEq, Json.bool.injEq, true_and, and_true] at same
    obtain ⟨name, nullable, first, follow⟩ := same
    have first := OrderedSet.toList_injective (jsonStrings_injective first)
    have follow := OrderedSet.toList_injective (jsonStrings_injective follow)
    exact Prod.ext name (Prod.ext nullable (Prod.ext first follow))
  simp only [firstFollowJson, Json.object.injEq, Json.array.injEq, List.cons.injEq, Prod.mk.injEq,
    true_and, and_true]
  rw [rows, rows, (List.map_injective_iff.2 injective).eq_iff]

end Grammar

/-- Where JSON values are printed compactly, tables are told by their JSON texts, and grammars as far
as the texts show them: by the rules with that of the start symbol first, and by the names of the
non-terminals with what is stored about them. -/
theorem jsonTexts_injective {writers : Writers} {char : Char → String}
    (compact : Json.Compact writers.print char) :
    (∀ t t' : ParseTable, t.render .json writers = t'.render .json writers ↔ t = t') ∧
    (∀ g h : Grammar, g.showProductions .json writers = h.showProductions .json writers ↔
      g.rules = h.rules) ∧
    ∀ g h : Grammar, g.showFirstFollow .json writers = h.showFirstFollow .json writers ↔
      g.storedSets = h.storedSets := by
  refine ⟨fun t t' => ?_, fun g h => ?_, fun g h => ?_⟩
  · exact (compact.injective.comp ParseTable.json_injective).eq_iff
  · exact compact.injective.eq_iff.trans Grammar.productionsJson_eq_iff
  · exact compact.injective.eq_iff.trans Grammar.firstFollowJson_eq_iff

/-- Its only body is one symbol, which looks like the text between the symbols of two. -/
def quotingGrammar : Grammar where
  start := "S"
  nonTerminals := .insert ∅ "S" (.ofProductions "S" (.ofList [["a\",\"b"]]))
  terminals := .ofList ["a\",\"b"]
  firstFollowValid := false

/-- The body that the symbol looks like. -/
def quotedGrammar : Grammar where
  start := "S"
  nonTerminals := .insert ∅ "S" (.ofProductions "S" (.ofList [["a", "b"]]))
  terminals := .ofList ["a", "b"]
  firstFollowValid := false

theorem quotingGrammar_json :
    Json.Compact Writers.linked.print Json.escapeChar ∧
      Grammar.parse "S -> a\",\"b" = .ok quotingGrammar ∧
      Grammar.parse "S -> a b" = .ok quotedGrammar ∧
      quotingGrammar.showProductions .json =
        "\x7b\"productions\":[\x7b\"left\":\"S\",\"rights\":[[\"a\\\",\\\"b\"]]\x7d]\x7d" ∧
      quotedGrammar.showProductions .json =
        "\x7b\"productions\":[\x7b\"left\":\"S\",\"rights\":[[\"a\",\"b\"]]\x7d]\x7d" ∧
      quotingGrammar.showProductions .json ≠ quotedGrammar.showProductions .json ∧
      quotingGrammar.showFirstFollow .json = quotedGrammar.showFirstFollow .json := by
  have compact : Json.Compact Writers.linked.print Json.escapeChar := Json.compact_render
  obtain ⟨-, rules, sets⟩ := jsonTexts_injective compact
  refine ⟨compact, rfl, rfl, by decide, by decide, ?_, ?_⟩
  · exact fun same => absurd ((rules _ _).1 same) (by decide)
  · exact (sets _ _).2 (by decide)

end Predictive
