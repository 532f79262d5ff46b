import Predictive.Layout.Productions
import Predictive.Proofs.FirstFollow.Stored

set_option autoImplicit false

namespace Predictive

namespace Grammar

variable {g h : Grammar} {rule : Rule}

/-- The rule that the entry of a non-terminal is shown as. -/
def shownRule (g : Grammar) (key : Symbol) : Rule := ⟨g.entryName key, (g.bodies key).toList⟩

theorem rule_of_entry {key : Symbol} {entry : NonTerminal}
    (found : g.nonTerminals.get? key = some entry) :
    ⟨entry.name, entry.productions.toList⟩ = g.shownRule key := by
  rw [shownRule, entryName, bodies, found]

/-- The rules by the keys of the entries. The entry that stands first is looked up by its key, but it is
left out behind by the name that it carries. -/
theorem rules_eq (g : Grammar) : g.rules =
    (if g.start ∈ g.names then [g.shownRule g.start] else []) ++
      (g.names.map g.shownRule).filter fun rule => !decide (rule.head = g.start) := by
  have first : (g.nonTerminals.get? g.start).toList.map (fun entry =>
      Rule.mk entry.name entry.productions.toList) =
      if g.start ∈ g.names then [g.shownRule g.start] else [] := by
    by_cases named : g.start ∈ g.names
    · obtain ⟨entry, found⟩ := exists_entry named
      rw [if_pos named, found, ← rule_of_entry found]
      rfl
    · rw [if_neg named, OrderedMap.get?_eq_none_iff.2 named]
      rfl
  have shown : g.entries.map (fun entry => Rule.mk entry.name entry.productions.toList) =
      g.names.map g.shownRule := OrderedMap.map_values fun _ _ => rule_of_entry
  rw [rules, List.map_append, first, ← shown, List.filter_map]
  rfl

theorem SameRules.rules_eq (same : g.SameRules h) : h.rules = g.rules := by
  have shown : h.shownRule = g.shownRule := by
    funext key
    rw [shownRule, shownRule, same.entryNames, same.bodies]
  rw [Grammar.rules_eq, Grammar.rules_eq, same.start, same.names, shown]

theorem Named.shownRule_eq (named : g.Named) (name : Symbol) :
    g.shownRule name = ⟨name, (g.bodies name).toList⟩ := by
  rw [shownRule, named_iff.1 named]

theorem Named.mem_rules_iff (named : g.Named) :
    rule ∈ g.rules ↔ rule.head ∈ g.names ∧ rule.bodies = (g.bodies rule.head).toList := by
  have shown : rule ∈ g.names.map g.shownRule ↔
      rule.head ∈ g.names ∧ rule.bodies = (g.bodies rule.head).toList := by
    rw [List.mem_map]
    constructor
    · rintro ⟨name, known, rfl⟩
      rw [named.shownRule_eq]
      exact ⟨known, rfl⟩
    · rintro ⟨known, same⟩
      refine ⟨rule.head, known, ?_⟩
      rw [named.shownRule_eq, ← same]
  rw [Grammar.rules_eq, List.mem_append, List.mem_filter, shown]
  by_cases first : rule.head = g.start
  · simp only [first, decide_true, Bool.not_true, Bool.false_eq_true, and_false, or_false]
    split
    case isTrue known =>
      rw [List.mem_singleton, named.shownRule_eq]
      constructor
      · rintro rfl
        exact ⟨known, rfl⟩
      · rintro ⟨-, same⟩
        cases rule
        simp_all
    case isFalse unknown => simp [unknown]
  · simp only [first, decide_false, Bool.not_false, and_true, or_iff_right_iff_imp]
    intro listed
    split at listed
    case isTrue =>
      rw [List.mem_singleton.1 listed, named.shownRule_eq] at first
      exact absurd rfl first
    case isFalse => contradiction

theorem Named.exists_rules_eq_cons (named : g.Named) (start : g.start ∈ g.names) :
    ∃ others, g.rules = ⟨g.start, (g.bodies g.start).toList⟩ :: others := by
  rw [Grammar.rules_eq, if_pos start, named.shownRule_eq]
  exact ⟨_, rfl⟩

end Grammar

end Predictive
